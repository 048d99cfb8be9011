import OpenGauss.Ustore.InplaceUndo
import OpenGauss.Visibility.Reserve

/-!
# Inserts, updates, deletes, pruning and the frozen mark

Every operation on a row first finds out who wrote it last
(`updateTransInfo_spec`). A write is allowed on top of a committed version or
one's own; what goes into the undo record is the header and the writer of the
version below, in one of the forms that `SavedFrom` allows. Pruning and the
frozen mark are only for versions that every snapshot in question sees.
-/

namespace OpenGauss.Visibility

open Lib

variable {n : Nat} {s s' : Store} {off x : Nat} {snap : Snapshot} {t t' : UHeapTuple} {v : Version}
  {rest : List Version}
variable {invalidXact : Bool} {body : List UInt8} {tdSlot : Nat}

/-! ## The last writer -/

/-- What writers and pruning find out about the last writer of a row. A
frozen answer for a row that is not frozen itself needs a recycle horizon. -/
def WriterInfo (n : Nat) (s : Store) (t : UHeapTuple) (v : Version) (info : TransInfo) : Prop :=
  (info.tdSlot = UHEAPTUP_SLOT_FROZEN ∧ info.xid = InvalidTransactionId ∧
      s.Visible n v.writer ∧ (t.hdr.tdSlot = UHEAPTUP_SLOT_FROZEN ∨ 0 < s.globalRecycleXid)) ∨
  (info.tdSlot = v.slot ∧ info.xid = v.writer)

theorem Inv.updateTransInfo_spec (h : Inv n s) (hused : s.rows off ≠ .unused)
    (hvs : s.versions off = v :: rest) (ht : TupleOk (s.Visible n) s.tds t v) :
    WriterInfo n s t v (updateTransInfo s off t) := by
  have hv := mem_of_cons hvs
  obtain ⟨-, -, hslot0, -, -⟩ := h.version_range off v hv
  unfold updateTransInfo
  rcases ht.stamp.slot with hslot | ⟨h0, hvis⟩
  · have hne0 : t.hdr.tdSlot ≠ 0 := hslot ▸ hslot0
    rw [Store.tdSlotInfo_of_ne hne0]
    cases hflag : t.hdr.invalidXact with
    | false =>
      rw [if_neg (by simp)]
      exact .inr ⟨hslot, ht.stamp.xid hne0 hflag⟩
    | true =>
      rw [if_pos rfl]
      by_cases hold : t.hdr.tdSlot = UHEAPTUP_SLOT_FROZEN ∨
          ((s.tds t.hdr.tdSlot).xactid ≠ InvalidTransactionId ∧
            s.olderThanAllUndo (s.tds t.hdr.tdSlot).xactid = true)
      · rw [if_pos hold]
        obtain ⟨hne, hlt⟩ := hold.resolve_left hne0
        rw [Store.olderThanAllUndo, decide_eq_true_eq] at hlt
        refine .inl ⟨rfl, rfl, ?_, .inr (Nat.zero_lt_of_lt hlt)⟩
        rw [hslot] at hne hlt
        exact h.visible_of_old_slot hv hne (.inl hlt)
      rw [if_neg hold]
      by_cases hmod : t.modifiedXid ≠ InvalidTransactionId ∧ s.didCommit t.modifiedXid = true
      · rw [if_pos hmod]
        exact .inr ⟨hslot, modifiedXid_eq ht hmod.1⟩
      rw [if_neg hmod]
      rcases h.fetchTransInfoFromUndo_spec hvs false
        ⟨t.hdr.tdSlot, (s.tds t.hdr.tdSlot).xactid, (s.tds t.hdr.tdSlot).undoRecordPtr⟩
        (by rw [hslot]) with heq | ⟨hvis, hfr, -, hrec⟩
      · rw [heq]
        exact .inr ⟨hslot, rfl⟩
      · rw [hfr]
        exact .inl ⟨rfl, rfl, hvis, .inr (hrec rfl hused)⟩
  · have hinfo : s.tdSlotInfo t.hdr.tdSlot = .frozen := if_pos h0
    rw [hinfo]
    refine .inl ?_
    have hfrozen : TransInfo.frozen.tdSlot = UHEAPTUP_SLOT_FROZEN := rfl
    cases t.hdr.invalidXact with
    | false => exact ⟨rfl, rfl, hvis, .inl h0⟩
    | true =>
      rw [if_pos rfl, if_pos (.inl hfrozen)]
      exact ⟨rfl, rfl, hvis, .inl h0⟩

/-- `UHeapTupleGetTransInfo` finds the same as `UHeapTupleSatisfiesUpdate`. -/
theorem tupleGetTransInfo_eq (s : Store) (off : Nat) (t : UHeapTuple) :
    tupleGetTransInfo s off t = updateTransInfo s off t := by
  unfold tupleGetTransInfo updateTransInfo
  by_cases h0 : t.hdr.tdSlot = UHEAPTUP_SLOT_FROZEN
  · have hinfo : s.tdSlotInfo t.hdr.tdSlot = .frozen := if_pos h0
    simp [hinfo, TransInfo.frozen]
  have hinfo : (s.tdSlotInfo t.hdr.tdSlot).tdSlot ≠ UHEAPTUP_SLOT_FROZEN := by
    rw [Store.tdSlotInfo_of_ne h0]
    exact h0
  simp [hinfo]

/-- A version below a horizon whose record is still needed would be visible. -/
theorem Inv.visible_of_old_writer (h : Inv n s) (hv : v ∈ s.versions off)
    (hold : v.writer < s.globalRecycleXid ∨ v.writer < s.globalFrozenXid) :
    s.Visible n v.writer := by
  by_contra hinv
  exact hinv (h.entry_visible (h.entry_mem hv hinv) hold)

/-- `TM_Ok`: the row is there, and its last writer is the caller or has
committed. -/
theorem Inv.satisfiesUpdate_ok (h : Inv n s) (hused : s.rows off ≠ .unused)
    (hvs : s.versions off = v :: rest) (ht : TupleOk (s.Visible n) s.tds t v)
    (hok : uheapTupleSatisfiesUpdate s x snap off t = .ok) :
    v.op ≠ .gone ∧ (v.writer = x ∨ s.Committed v.writer) := by
  have hv := mem_of_cons hvs
  obtain ⟨-, -, hslot0, -, -⟩ := h.version_range off v hv
  have hinfo := h.updateTransInfo_spec hused hvs ht
  unfold uheapTupleSatisfiesUpdate at hok
  generalize updateTransInfo s off t = info at hinfo hok
  have hwriter : (info.tdSlot = UHEAPTUP_SLOT_FROZEN ∨ s.olderThanFrozenXid info.xid = true) ∨
      info.xid = x ∨ s.didCommit info.xid = true → v.writer = x ∨ s.Committed v.writer := by
    intro hcase
    rcases hinfo with ⟨-, -, hvis, -⟩ | ⟨hslot, hxid⟩
    · exact .inr hvis.committed
    rw [hslot, hxid] at hcase
    rcases hcase with (h0 | hold) | hx | hc
    · exact absurd h0 hslot0
    · rw [Store.olderThanFrozenXid, decide_eq_true_eq] at hold
      exact .inr (h.visible_of_old_writer hv (.inr hold)).committed
    · exact .inl hx
    · exact .inr ((didCommit_iff _).mp hc)
  rw [ht.op] at hok
  cases hop : v.op with
  | gone =>
    rw [hop] at hok
    simp only at hok
    split_ifs at hok
  | modified | new =>
    rw [hop] at hok
    simp only at hok
    refine ⟨by simp, hwriter ?_⟩
    split_ifs at hok with h1 h2 h3 h4
    · exact .inl h1
    · exact .inr (.inl h2)
    · exact .inr (.inr h4)

/-! ## The old writer in the undo record -/

/-- The two ways the old writer's xid goes into an undo record. -/
theorem savedFrom_of_info (h : Inv n s') (hv : v ∈ s'.versions off)
    (ht' : TupleOk (s'.Visible n) s'.tds t' v) (hlive : v.op ≠ .gone)
    (hwriter : v.writer < s'.globalRecycleXid → s'.Committed v.writer) {info : TransInfo}
    (hinfo : (info.xid = InvalidTransactionId ∧ s'.Visible n v.writer ∧
      (t'.hdr.tdSlot = UHEAPTUP_SLOT_FROZEN ∨ 0 < s'.globalRecycleXid)) ∨ info.xid = v.writer) :
    SavedFrom (s'.Visible n) t'.hdr (oldUpdaterXid s' info.xid t'.hdr) v ∧
      SavedFrom (s'.Visible n) t'.hdr (oldDeleterXid s' info.xid t'.hdr) v := by
  obtain ⟨-, -, hslot0, h3, -⟩ := h.version_range off v hv
  have hfrozen : t'.hdr.tdSlot = UHEAPTUP_SLOT_FROZEN → s'.Visible n v.writer := by
    intro h0
    rcases ht'.stamp.slot with heq | hvis
    · exact absurd (heq ▸ h0) hslot0
    · exact hvis.2
  have hold : v.writer < s'.globalRecycleXid → s'.Visible n v.writer := fun hlt =>
    h.visible_of_old h3 (hwriter hlt) (.inl hlt)
  have hne : v.writer ≠ InvalidTransactionId := by
    intro hz
    rw [hz] at h3
    exact absurd h3 (by decide)
  have hsaved : ∀ {xid}, (xid = v.writer ∨ s'.Visible n v.writer ∧ (xid = FrozenTransactionId ∨
      xid = InvalidTransactionId ∧ t'.hdr.tdSlot = UHEAPTUP_SLOT_FROZEN)) →
      SavedFrom (s'.Visible n) t'.hdr xid v := fun hxid =>
    ⟨ht'.op, ht'.flags, hlive, ht'.stamp.slot, hxid⟩
  unfold oldUpdaterXid oldDeleterXid Store.olderThanAllUndo
  rcases hinfo with ⟨hxid, hvis, hcase⟩ | hxid
  · -- the lookup answered "frozen"
    rw [hxid]
    simp only [ne_eq, not_true_eq_false, if_false, ite_self]
    refine ⟨hsaved (.inr ⟨hvis, .inl rfl⟩), hsaved (.inr ⟨hvis, ?_⟩)⟩
    split_ifs with hlt
    · exact .inl rfl
    · refine .inr ⟨rfl, hcase.resolve_right fun hpos => hlt ?_⟩
      exact decide_eq_true hpos
  · rw [hxid]
    simp only [if_pos hne]
    by_cases h0 : t'.hdr.tdSlot = UHEAPTUP_SLOT_FROZEN
    · rw [if_pos h0]
      have hvis := hfrozen h0
      split_ifs with hlt
      · exact ⟨hsaved (.inr ⟨hvis, .inl rfl⟩), hsaved (.inr ⟨hvis, .inl rfl⟩)⟩
      · exact ⟨hsaved (.inl rfl), hsaved (.inr ⟨hvis, .inr ⟨rfl, h0⟩⟩)⟩
    · rw [if_neg h0]
      split_ifs with hlt
      · have hvis := hold (of_decide_eq_true hlt)
        exact ⟨hsaved (.inr ⟨hvis, .inl rfl⟩), hsaved (.inr ⟨hvis, .inl rfl⟩)⟩
      · exact ⟨hsaved (.inl rfl), hsaved (.inl rfl)⟩

/-! ## Writing a row -/

theorem isInProgress_of_xactState (heq : s'.xactState = s.xactState) (x : Nat) :
    s'.isInProgress x = s.isInProgress x := by
  simp only [Store.xactState, Prod.mk.injEq] at heq
  unfold Store.isInProgress Store.hasEnded
  rw [heq.1, heq.2.1]

theorem visible_of_xactState (heq : s'.xactState = s.xactState) (x : Nat) :
    s'.Visible n x ↔ s.Visible n x := by
  unfold Store.Visible
  rw [show s'.ended = s.ended from congrArg Prod.fst heq]

/-- The row a write of `x` leaves, against the version it adds. -/
theorem rowOk_written {td urp : Nat} {tds : Nat → TD} {vis committed : Nat → Prop} {op del : Bool}
    (hslot : v.slot = td) (hwriter : v.writer = x)
    (hop : (⟨td, op, del, false⟩ : TupleHeader).tidOp = v.op) (hflags : del = true → v.op = .gone)
    (hbody : v.op ≠ .gone → v.Fits body) :
    RowOk vis committed (Function.update tds td ⟨x, urp⟩)
      (.normal ⟨⟨td, op, del, false⟩, x, body⟩) (v :: rest) := by
  refine ⟨v, rest, rfl, hop, fun hd => hop.trans (hflags hd), ⟨.inl hslot.symm, fun _ _ => ?_⟩,
    fun _ => hwriter.symm, hbody⟩
  change (Function.update tds td ⟨x, urp⟩ td).xactid = v.writer
  rw [Function.update_self, hwriter]

/-- The newest version of a row that was given back is committed. -/
theorem Inv.committed_of_unused (h : Inv n s) (hrow : s.rows off = .unused) :
    ∀ u ∈ (s.versions off).head?, s.Committed u.writer := fun _ hu =>
  (h.visible_of_unused hrow (List.mem_of_head? hu)).committed

theorem Inv.uheapInsert (h : Inv n s) (hx : s.isInProgress x = true)
    (hrow : s.rows off = .unused) (hoff : off ≠ 0) (body : List UInt8) (nExtended : Nat) :
    Inv n (uheapInsert s x off body nExtended) := by
  obtain ⟨hinv, hres⟩ := h.uheapPageReserveTransactionSlot hx nExtended
  have hstate := xactState_uheapPageReserveTransactionSlot s x nExtended
  unfold Visibility.uheapInsert
  generalize Visibility.uheapPageReserveTransactionSlot s x nExtended = res at hinv hstate hres ⊢
  obtain ⟨s', otd⟩ := res
  cases otd with
  | none => exact hinv
  | some td =>
    simp only at hinv hstate hres ⊢
    split_ifs
    · exact hinv
    · obtain ⟨hslot, -, hrows⟩ := hres td rfl
      have hrow' : s'.rows off = .unused := (hrows off).1 hrow
      have hfreed := hinv.rows off
      rw [hrow'] at hfreed
      have hx' : s'.isInProgress x = true := (isInProgress_of_xactState hstate x).trans hx
      refine hinv.putUndo hx' hslot hoff (fun u hu => .inr (hinv.committed_of_unused hrow' u hu))
        (fun hne => absurd rfl hne) ⟨rfl, hfreed⟩ ?_
      exact rowOk_written rfl rfl rfl nofun fun _ =>
        ⟨body, rfl, List.prefix_refl _, List.prefix_refl _⟩

/-- Undoing an update in place gives the old body back. -/
theorem oldBody_inplaceUndoData {hdr : TupleHeader} {oldBody : List UInt8} {w : InplaceWrite}
    (hpre : w.newBody <+: body) (himage : body <+: w.newBody ++ w.stale) :
    (inplaceUndoData hdr oldBody w).oldBody body = oldBody := by
  refine (congrArg (oldBody.take (dataStart oldBody) ++ ·) (CommonAffixes.join ?_)).trans
    (List.take_append_drop _ _)
  split_ifs with hsizes
  · -- nothing stands behind the new body, so the body is the new one
    rw [w.stale_eq hsizes, List.append_nil] at himage
    obtain rfl : body = w.newBody := himage.eq_of_length_le hpre.length_le
    exact Ustore.commonAffixes_affixLens _ _
  · exact CommonAffixes.zero _ _

section Bytes

open Ustore

/-- The write of `UHeapUpdate` to a row on the page, given as bytes. -/
def inplaceWrite (r : RowOnPage) (u : InplaceUpdate) : InplaceWrite where
  newBody := u.uheaptup.bytes.drop offsetTHoff
  stale := r.image.drop u.uheaptup.bytes.length
  sizesAgree := decide (u.uheaptup.bytes.length = r.image.length ∧ u.logicallyLogged = false)
  stale_eq := fun h => by rw [(of_decide_eq_true h).1, List.drop_length]

/-- The undo record's payload and the undo data give the same older row. -/
theorem getTupleFromUndoRecord_eq_oldBody (r : RowOnPage) (u : InplaceUpdate)
    (hdr : TupleHeader) :
    ∃ r' urec, uheapUpdateInplace r u = some (r', urec, urec.rawdata.length) ∧
      r'.image.drop offsetTHoff = (inplaceWrite r u).newBody ++ (inplaceWrite r u).stale ∧
      (getTupleFromUndoRecord urec r'.image).drop offsetTHoff =
        (inplaceUndoData hdr (r.image.drop offsetTHoff) (inplaceWrite r u)).oldBody
          (r'.image.drop offsetTHoff) := by
  obtain ⟨r', urec, hup, hundo, -, -⟩ := uheapUpdateInplace_undo r u
  have himage : r'.image.drop offsetTHoff =
      (inplaceWrite r u).newBody ++ (inplaceWrite r u).stale := by
    obtain ⟨_, -, heq⟩ := Option.map_eq_some_iff.mp hup
    obtain rfl := (Prod.mk.inj heq).1
    show (inplaceImage r u).drop _ = u.uheaptup.bytes.drop _ ++ _
    rw [(rowOk_inplaceImage r u).drop_tHoff, u.uheaptup.ok.drop_tHoff,
      tHoff_inplaceImage, inplaceImage_body]
    rfl
  refine ⟨r', urec, hup, himage, ?_⟩
  rw [himage, oldBody_inplaceUndoData (List.prefix_append _ _) (List.prefix_refl _)]
  exact (hundo r'.image (.refl _)).drop_eq (by decide)

end Bytes

/-- What holds of a row that `UHeapUpdate` or `UHeapDelete` goes on to write:
before the reservation it was found free for the writer. -/
structure WriteReady (n : Nat) (s s' : Store) (x off td : Nat) (t t' : UHeapTuple) (v : Version)
    (rest : List Version) : Prop where
  inv : Inv n s'
  inProgress : s'.isInProgress x = true
  slot : s'.SlotFor x td
  off_ne : off ≠ 0
  versions : s'.versions off = v :: rest
  tuple : TupleOk (s'.Visible n) s'.tds t' v
  live : v.op ≠ .gone
  writer : v.writer = x ∨ s'.Committed v.writer
  saved : SavedFrom (s'.Visible n) t'.hdr (oldUpdaterXid s' (updateTransInfo s off t).xid t'.hdr) v ∧
    SavedFrom (s'.Visible n) t'.hdr (oldDeleterXid s' (updateTransInfo s off t).xid t'.hdr) v

theorem Inv.writeReady (h : Inv n s) (hx : s.isInProgress x = true) (hrow : s.rows off = .normal t)
    (hok : uheapTupleSatisfiesUpdate s x snap off t = .ok) {nExtended td : Nat}
    (hres : Visibility.uheapPageReserveTransactionSlot s x nExtended = (s', some td))
    (hrow' : s'.rows off = .normal t') :
    ∃ v rest, WriteReady n s s' x off td t t' v rest := by
  obtain ⟨hinv, hreserved⟩ := h.uheapPageReserveTransactionSlot hx nExtended
  have hstate := xactState_uheapPageReserveTransactionSlot s x nExtended
  rw [hres] at hinv hstate hreserved
  obtain ⟨hslot, hversions, hrows⟩ := hreserved td rfl
  simp only at hinv hstate hslot hversions hrows
  have hokrow := h.rows off
  rw [hrow] at hokrow
  obtain ⟨v, rest, hvs, ht⟩ := hokrow
  have hvs' : s'.versions off = v :: rest := by rw [hversions, hvs]
  have hokrow' := hinv.rows off
  rw [hrow', hvs'] at hokrow'
  obtain ⟨w, rest', hcons, ht'⟩ := hokrow'
  obtain ⟨rfl, rfl⟩ := List.cons.inj hcons
  have hused : s.rows off ≠ .unused := by rw [hrow]; simp
  obtain ⟨hlive, hwriter⟩ := h.satisfiesUpdate_ok hused hvs ht hok
  have hx' : s'.isInProgress x = true := (isInProgress_of_xactState hstate x).trans hx
  have hwriter' : v.writer = x ∨ s'.Committed v.writer :=
    hwriter.imp_right (committed_of_xactState hstate _).mpr
  have hoff : off ≠ 0 := by
    intro h0
    rw [h.rows_out off (.inl h0)] at hrow
    cases hrow
  have hv' := mem_of_cons hvs'
  refine ⟨v, rest, hinv, hx', hslot, hoff, hvs', ht', hlive, hwriter',
    savedFrom_of_info hinv hv' ht' hlive (fun hlt => ?_) ?_⟩
  · rcases hwriter' with rfl | hc
    · exact absurd hlt (hinv.slots.xacts.not_old hx').1
    · exact hc
  · rcases h.updateTransInfo_spec hused hvs ht with ⟨-, hxid, hvis, hcase⟩ | ⟨-, hxid⟩
    · refine .inl ⟨hxid, (visible_of_xactState hstate _).mpr hvis, ?_⟩
      refine hcase.imp (fun h0 => ?_) (fun hpos => ?_)
      · obtain ⟨t0, ht0, hkept⟩ := (hrows off).2 t' hrow'
        obtain rfl : t = t0 := RowPtr.normal.inj (hrow.symm.trans ht0)
        exact hkept h0
      · have hrec : s'.globalRecycleXid = s.globalRecycleXid := by
          simp only [Store.xactState, Prod.mk.injEq] at hstate
          exact hstate.2.2.1
        rw [hrec]
        exact hpos
    · exact .inr hxid

/-- What `UHeapUpdate` and `UHeapDelete` have in common: a row found free for the writer is
put once a slot is reserved. -/
def writeRow (s : Store) (x : Nat) (snap : Snapshot) (off nExtended : Nat)
    (put : UHeapTuple → Store → Nat → UHeapTuple → Store) : Store :=
  match s.rows off with
  | .normal t =>
    if uheapTupleSatisfiesUpdate s x snap off t = .ok then
      match Visibility.uheapPageReserveTransactionSlot s x nExtended with
      | (s', none) => s'
      | (s', some td) =>
        match s'.rows off with
        | .normal t' => put t s' td t'
        | _ => s'
    else s
  | _ => s

theorem writeRow_rule {P : Store → Prop} {nExtended : Nat}
    {put : UHeapTuple → Store → Nat → UHeapTuple → Store} (hs : P s)
    (hres : P (Visibility.uheapPageReserveTransactionSlot s x nExtended).1)
    (hput : ∀ t s' td t', s.rows off = .normal t → uheapTupleSatisfiesUpdate s x snap off t = .ok →
      Visibility.uheapPageReserveTransactionSlot s x nExtended = (s', some td) →
      s'.rows off = .normal t' → P s' → P (put t s' td t')) :
    P (writeRow s x snap off nExtended put) := by
  unfold writeRow
  cases hrow : s.rows off with
  | unused | deleted => exact hs
  | normal t =>
    simp only
    split_ifs with hok
    · cases hr : Visibility.uheapPageReserveTransactionSlot s x nExtended with
      | mk s' otd =>
        rw [hr] at hres
        cases otd with
        | none => exact hres
        | some td =>
          simp only
          cases hrow' : s'.rows off with
          | unused | deleted => exact hres
          | normal t' => exact hput t s' td t' hrow hok hr hrow' hres
    · exact hs

theorem WriteReady.top (h : WriteReady n s s' x off td t t' v rest) :
    ∀ w ∈ (s'.versions off).head?, w.writer = x ∨ s'.Committed w.writer := by
  intro w hw
  rw [h.versions] at hw
  obtain rfl := Option.some.inj hw
  exact h.writer

theorem Inv.uheapUpdate (h : Inv n s) (hx : s.isInProgress x = true) (w : InplaceWrite)
    (nExtended : Nat) : Inv n (uheapUpdate s x snap off w nExtended) := by
  refine writeRow_rule (P := Inv n) h (h.uheapPageReserveTransactionSlot hx nExtended).1
    fun t s' td t' hrow hok hres hrow' _ => ?_
  obtain ⟨v, rest, hready⟩ := h.writeReady hx hrow hok hres hrow'
  refine hready.inv.putUndo hready.inProgress hready.slot hready.off_ne hready.top
    (fun _ => by rw [hrow']; simp) ?_ ?_
  · rw [hready.versions]
    refine ⟨rfl, v, rest, rfl, hready.saved.1, fun body hbody => ?_⟩
    obtain ⟨c, hc, hpre, himage⟩ := hbody
    obtain rfl := Option.some.inj hc
    refine (oldBody_inplaceUndoData hpre himage).symm ▸ ?_
    exact hready.tuple.body hready.live
  · exact rowOk_written rfl rfl rfl nofun fun _ =>
      ⟨w.newBody, rfl, List.prefix_append _ _, List.prefix_refl _⟩

theorem Inv.uheapDelete (h : Inv n s) (hx : s.isInProgress x = true) (nExtended : Nat) :
    Inv n (uheapDelete s x snap off nExtended) := by
  refine writeRow_rule (P := Inv n) h (h.uheapPageReserveTransactionSlot hx nExtended).1
    fun t s' td t' hrow hok hres hrow' _ => ?_
  obtain ⟨v, rest, hready⟩ := h.writeReady hx hrow hok hres hrow'
  refine hready.inv.putUndo hready.inProgress hready.slot hready.off_ne hready.top
    (fun _ => by rw [hrow']; simp) ?_ ?_
  · rw [hready.versions]
    exact ⟨rfl, v, rest, rfl, hready.saved.2, hready.tuple.body hready.live⟩
  · exact rowOk_written rfl rfl rfl (fun _ => rfl) fun hne => absurd rfl hne

/-! ## Pruning and the frozen mark -/

section Prune

variable {oldestXmin : Nat}

/-- A row found dead was deleted, and every snapshot in question sees it; one found recently
dead was deleted by a transaction that committed. -/
theorem Inv.satisfiesOldestXmin_spec (h : Inv n s) (hused : s.rows off ≠ .unused)
    (hvs : s.versions off = v :: rest) (ht : TupleOk (s.Visible n) s.tds t v)
    (hxmin : ∀ y, FirstNormalTransactionId ≤ y → y < oldestXmin → s.Seen n y) :
    match uheapTupleSatisfiesOldestXmin s off t oldestXmin with
    | .dead => v.op = .gone ∧ s.Visible n v.writer
    | .recentlyDead => v.op = .gone ∧ s.Committed v.writer
    | _ => True := by
  have hv := mem_of_cons hvs
  obtain ⟨-, -, hslot0, h3, -⟩ := h.version_range off v hv
  have hinfo := h.updateTransInfo_spec hused hvs ht
  unfold uheapTupleSatisfiesOldestXmin
  rw [tupleGetTransInfo_eq]
  generalize updateTransInfo s off t = info at hinfo ⊢
  simp only
  split_ifs with hdel hold hprog hcom hlt
  · refine ⟨ht.op ▸ ht.flags hdel, ?_⟩
    rcases hinfo with ⟨-, -, hvis, -⟩ | ⟨hslot, hxid⟩
    · exact hvis
    · rw [hslot, hxid, Store.olderThanAllUndo, decide_eq_true_eq] at hold
      exact h.visible_of_old_writer hv (.inl (hold.resolve_left hslot0))
  · trivial
  · refine ⟨ht.op ▸ ht.flags hdel, ?_⟩
    rcases hinfo with ⟨-, -, hvis, -⟩ | ⟨-, hxid⟩
    · exact hvis
    · rw [hxid] at hcom hlt
      exact h.slots.visible_of_seen (hxmin _ h3 hlt) ((didCommit_iff _).mp hcom)
  · refine ⟨ht.op ▸ ht.flags hdel, ?_⟩
    rcases hinfo with ⟨-, -, hvis, -⟩ | ⟨-, hxid⟩
    · exact hvis.committed
    · rw [hxid] at hcom
      exact (didCommit_iff _).mp hcom
  all_goals trivial

/-- The full-page rule frees the row pointer of a pruned row only if its slot
is frozen or of a transaction below the horizon; then the deletion is
visible. -/
theorem Inv.freed_of_pageFull (h : Inv n s) (hvs : s.versions off = v :: rest)
    (hc : s.Committed v.writer) (hstamp : StampedFrom (s.Visible n) s.tds tdSlot invalidXact v)
    (hxmin : ∀ y, FirstNormalTransactionId ≤ y → y < oldestXmin → s.Seen n y)
    (hold : tdSlot = UHEAPTUP_SLOT_FROZEN ∨
      (FirstNormalTransactionId ≤ (s.tds tdSlot).xactid ∧ (s.tds tdSlot).xactid < oldestXmin)) :
    s.Visible n v.writer := by
  have hv := mem_of_cons hvs
  obtain ⟨-, -, hslot0, -, -⟩ := h.version_range off v hv
  rcases hstamp.slot with rfl | ⟨-, hvis⟩
  · obtain ⟨h3, hlt⟩ := hold.resolve_left hslot0
    have hne : (s.tds v.slot).xactid ≠ InvalidTransactionId := by
      intro hz
      rw [hz] at h3
      exact absurd h3 (by decide)
    exact h.visible_of_slot hv hne (hxmin _ h3 hlt) (fun _ => hc)
  · exact hvis

/-- Cutting the stale bytes behind the contents off. -/
theorem fits_take {len : Nat} (hfit : v.Fits body) (hlen : ∀ c ∈ v.contents, c.length ≤ len) :
    v.Fits (body.take len) := by
  obtain ⟨c, hc, hpre, himage⟩ := hfit
  exact ⟨c, hc, List.prefix_take_iff.mpr ⟨hpre, hlen c hc⟩, (List.take_prefix len body).trans himage⟩

theorem Inv.pruneRow (h : Inv n s)
    (hxmin : ∀ y, FirstNormalTransactionId ≤ y → y < oldestXmin → s.Seen n y)
    {fixedLen : Option Nat} (hlen : s.FixedLenOk off fixedLen) (pageFull : Bool) :
    RowOk (s.Visible n) s.Committed s.tds (pruneRow s off oldestXmin pageFull fixedLen)
      (s.versions off) := by
  have hrow := h.rows off
  unfold Visibility.pruneRow
  cases hrp : s.rows off with
  | unused =>
    rw [hrp] at hrow
    exact hrow
  | deleted tdSlot invalidXact =>
    rw [hrp] at hrow
    simp only
    split_ifs with hfull
    · obtain ⟨v, rest, hvs, hop, hc, hstamp⟩ := hrow
      exact .inr ⟨v, rest, hvs, hop, h.freed_of_pageFull hvs hc hstamp hxmin hfull.2⟩
    · exact hrow
  | normal t =>
    have hused : s.rows off ≠ .unused := by rw [hrp]; simp
    rw [hrp] at hrow
    obtain ⟨v, rest, hvs, ht⟩ := hrow
    have hspec := h.satisfiesOldestXmin_spec hused hvs ht hxmin
    simp only
    cases hsat : uheapTupleSatisfiesOldestXmin s off t oldestXmin with
    | dead =>
      rw [hsat] at hspec
      exact .inr ⟨v, rest, hvs, hspec⟩
    | recentlyDead =>
      rw [hsat] at hspec
      exact ⟨v, rest, hvs, hspec.1, hspec.2, ht.stamp⟩
    | live =>
      cases fixedLen with
      | none => exact ⟨v, rest, hvs, ht⟩
      | some len =>
        simp only
        split_ifs
        · refine ⟨v, rest, hvs, ht.op, ht.flags, ht.stamp, ht.xid, fun hop => ?_⟩
          exact fits_take (ht.body hop) (hlen len rfl v (by rw [hvs]; rfl))
        · exact ⟨v, rest, hvs, ht⟩
    | insertInProgress | deleteInProgress | abortInProgress => exact ⟨v, rest, hvs, ht⟩

theorem pruneRow_unused {pageFull : Bool} {fixedLen : Option Nat}
    (hne : Visibility.pruneRow s off oldestXmin pageFull fixedLen ≠ .unused) :
    s.rows off ≠ .unused := by
  intro hrow
  unfold Visibility.pruneRow at hne
  rw [hrow] at hne
  exact hne rfl

end Prune

/-- A reader of any snapshot marks a row frozen only if its version is below
the recycle horizon, so that every snapshot in question sees it. -/
theorem Inv.visible_of_isFrozen (h : Inv n s) (hvs : s.versions off = v :: rest) {tupXid : Nat}
    (hstamp : StampedFrom (s.Visible n) s.tds tdSlot invalidXact v)
    (hfrozen : (fetchTransInfo s snap off tdSlot invalidXact tupXid).2 = true) :
    s.Visible n v.writer := by
  have hv := mem_of_cons hvs
  obtain ⟨-, -, hslot0, -, -⟩ := h.version_range off v hv
  rcases hstamp.slot with rfl | ⟨-, hvis⟩
  · unfold fetchTransInfo at hfrozen
    simp only [Store.tdSlotInfo_of_ne hslot0, UHEAPTUP_SLOT_FROZEN, if_neg hslot0] at hfrozen
    split_ifs at hfrozen with hold hflag hseen htup hfr
    · rw [Store.olderThanAllUndo, decide_eq_true_eq] at hfrozen
      exact h.visible_of_old_slot hv hold.1 (.inl hfrozen)
    · rcases h.fetchTransInfoFromUndo_spec hvs true
        ⟨v.slot, (s.tds v.slot).xactid, (s.tds v.slot).undoRecordPtr⟩ rfl with
        heq | ⟨hvis, -, -, -⟩
      · rw [heq] at hfrozen
        simp only at hfrozen
        split_ifs at hfrozen with hrec
        rw [Store.olderThanAllUndo, decide_eq_true_eq] at hrec
        exact h.visible_of_old_writer hv (.inl hrec)
      · exact hvis
  · exact hvis

theorem isFrozen_of_fetchVersion
    (hfrozen : (fetchVersion s snap off tdSlot invalidXact (some t)).2 = true) :
    (fetchTransInfo s snap off tdSlot invalidXact t.modifiedXid).2 = true := by
  unfold fetchVersion at hfrozen
  simp only [Option.map_some, Option.getD_some] at hfrozen
  generalize fetchTransInfo s snap off tdSlot invalidXact t.modifiedXid = res at hfrozen ⊢
  split_ifs at hfrozen
  split at hfrozen <;> exact hfrozen

theorem Inv.uheapTupleFetch (h : Inv n s) : Inv n (uheapTupleFetch s snap off).2 := by
  unfold Visibility.uheapTupleFetch
  cases hrp : s.rows off with
  | unused | deleted => exact h
  | normal t =>
    have hrow := h.rows off
    rw [hrp] at hrow
    obtain ⟨v, rest, hvs, ht⟩ := hrow
    simp only
    split_ifs with hfrozen
    · have hvis := h.visible_of_isFrozen hvs ht.stamp (isFrozen_of_fetchVersion hfrozen)
      refine h.setRow ?_ fun _ => by rw [hrp]; simp
      exact ⟨v, rest, hvs, ht.op, ht.flags, ⟨.inr ⟨rfl, hvis⟩, fun hne => absurd rfl hne⟩, ht.xid,
        ht.body⟩
    · exact h

end OpenGauss.Visibility
