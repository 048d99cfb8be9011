import OpenGauss.Lib.Update
import OpenGauss.Visibility.SnapshotRead

/-!
# Steps that write no row

The invariant is kept by the ends of transactions, by the moves of the
horizons, by freezing, invalidating and adding slots, and by changes of
single row pointers (the frozen mark, pruning).
-/

namespace OpenGauss.Visibility

open Lib

variable {n : Nat} {s : Store} {off : Nat}
variable {slots : List Nat} {vs : List Version} {x : Nat} {tds : Nat → TD} {rp : RowPtr}

/-! ## More visible transactions -/

variable {v : Version}

section Mono

variable {vis vis' : Nat → Prop} (hvis : ∀ x, vis x → vis' x)

include hvis

theorem Freed.mono (h : Freed vis vs) : Freed vis' vs := by
  rcases h with rfl | ⟨v, rest, rfl, hop, hv⟩
  · exact .inl rfl
  · exact .inr ⟨v, rest, rfl, hop, hvis _ hv⟩

theorem SavedFrom.mono {hdr : TupleHeader} {oldXactId : Nat}
    (h : SavedFrom vis hdr oldXactId v) : SavedFrom vis' hdr oldXactId v where
  __ := h
  slot := h.slot.imp_right (fun hs => ⟨hs.1, hvis _ hs.2⟩)
  xid := h.xid.imp_right (fun hx => ⟨hvis _ hx.1, hx.2⟩)

theorem LinkOk.mono {rest : List Version}
    (h : LinkOk vis v rest) : LinkOk vis' v rest := by
  unfold LinkOk at h ⊢
  split at h
  · exact ⟨h.1, h.2.mono hvis⟩
  · obtain ⟨hsome, w, rest', hrest, hsaved, hfits⟩ := h
    exact ⟨hsome, w, rest', hrest, hsaved.mono hvis, hfits⟩
  · obtain ⟨hnone, w, rest', hrest, hsaved, hfits⟩ := h
    exact ⟨hnone, w, rest', hrest, hsaved.mono hvis, hfits⟩

theorem LinksOk.mono (h : LinksOk vis vs) : LinksOk vis' vs := by
  induction vs with
  | nil => trivial
  | cons v rest ih => exact ⟨h.1.mono hvis, ih h.2⟩

theorem StampedFrom.mono {tdSlot : Nat} {invalidXact : Bool}
    (h : StampedFrom vis tds tdSlot invalidXact v) :
    StampedFrom vis' tds tdSlot invalidXact v where
  slot := h.slot.imp_right (fun hs => ⟨hs.1, hvis _ hs.2⟩)
  xid := h.xid

theorem RowOk.mono {committed committed' : Nat → Prop}
    (hc : ∀ x, committed x → committed' x) (h : RowOk vis committed tds rp vs) :
    RowOk vis' committed' tds rp vs := by
  cases rp with
  | unused => exact Freed.mono hvis h
  | normal t =>
    obtain ⟨v, rest, hvs, ht⟩ := h
    exact ⟨v, rest, hvs, ht.op, ht.flags, ht.stamp.mono hvis, ht.xid, ht.body⟩
  | deleted tdSlot invalidXact =>
    obtain ⟨v, rest, hvs, hop, hcv, hstamp⟩ := h
    exact ⟨v, rest, hvs, hop, hc _ hcv, hstamp.mono hvis⟩

end Mono

theorem StampedFrom.of_td {vis : Nat → Prop} {tds' : Nat → TD} {tdSlot : Nat} {invalidXact : Bool}
    (h : StampedFrom vis tds tdSlot invalidXact v)
    (htd : tds' tdSlot = tds tdSlot) : StampedFrom vis tds' tdSlot invalidXact v where
  slot := h.slot
  xid hne hvalid := by
    rw [htd]
    exact h.xid hne hvalid

/-- A row pointer stays right when the slots change, if the slots that rows
without the reused flag name keep their transaction. -/
theorem RowOk.of_tds {vis committed : Nat → Prop} {tds' : Nat → TD}
    (h : RowOk vis committed tds rp vs)
    (htds : ∀ td v, v ∈ vs → td = v.slot → (tds td).xactid = v.writer → (tds' td).xactid = v.writer) :
    RowOk vis committed tds' rp vs := by
  have hstamped : ∀ {tdSlot : Nat} {invalidXact : Bool} {v : Version}, v ∈ vs →
      StampedFrom vis tds tdSlot invalidXact v → StampedFrom vis tds' tdSlot invalidXact v := by
    intro tdSlot invalidXact v hv hs
    refine ⟨hs.slot, fun hne hvalid => ?_⟩
    rcases hs.slot with heq | hz
    · exact htds tdSlot v hv heq (hs.xid hne hvalid)
    · exact absurd hz.1 hne
  cases rp with
  | unused => exact h
  | normal t =>
    obtain ⟨v, rest, rfl, ht⟩ := h
    exact ⟨v, rest, rfl, ht.op, ht.flags, hstamped (.head _) ht.stamp, ht.xid, ht.body⟩
  | deleted tdSlot invalidXact =>
    obtain ⟨v, rest, rfl, hop, hcv, hs⟩ := h
    exact ⟨v, rest, rfl, hop, hcv, hstamped (.head _) hs⟩

/-! ## Transactions and horizons -/

theorem hasEnded_iff (x : Nat) : s.hasEnded x = true ↔ x ∈ s.ended.map Prod.fst := by
  simp [Store.hasEnded]

theorem isInProgress_iff (x : Nat) : s.isInProgress x = true ↔
    FirstNormalTransactionId ≤ x ∧ x < s.nextXid ∧ x ∉ s.ended.map Prod.fst := by
  rw [← hasEnded_iff]
  simp [Store.isInProgress, and_assoc]

theorem XactsOk.not_old (h : XactsOk s) (hx : s.isInProgress x = true) :
    ¬x < s.globalRecycleXid ∧ ¬x < s.globalFrozenXid ∧ ¬x < s.pruneXmin := by
  obtain ⟨h3, -, hnot⟩ := (isInProgress_iff x).mp hx
  exact ⟨fun hlt => hnot ((hasEnded_iff x).mp (h.below_recycle.2 x hlt h3)),
    fun hlt => hnot ((hasEnded_iff x).mp (h.below_frozen.2 x hlt h3)),
    fun hlt => hnot ((hasEnded_iff x).mp (h.below_prune.2 x hlt h3))⟩

theorem not_committed_of_inProgress (hx : s.isInProgress x = true) : ¬s.Committed x :=
  fun hc => ((isInProgress_iff x).mp hx).2.2 (List.mem_map_of_mem hc)

/-- A transaction in progress has not ended yet, so what has committed by now
is before it. -/
theorem endedBefore_of_inProgress {y : Nat} (hx : s.isInProgress x = true) (hy : s.Committed y) :
    EndedBefore s.ended y x :=
  ⟨s.ended, [], by simp, hy, ((isInProgress_iff x).mp hx).2.2⟩

theorem Store.EndedBelow.mono {s' : Store} (hnext : s.nextXid ≤ s'.nextXid)
    (hended : ∀ x, s.hasEnded x = true → s'.hasEnded x = true) (h : s.EndedBelow x) :
    s'.EndedBelow x :=
  ⟨h.1.trans hnext, fun y hy h3 => hended y (h.2 y hy h3)⟩

/-- The step that ends a transaction. -/
def Store.endXact (s : Store) (x : Nat) (commit : Bool) : Store :=
  { s with ended := s.ended ++ [(x, commit)] }

theorem XactsOk.endXact (h : XactsOk s) (hx : s.isInProgress x = true) (commit : Bool) :
    XactsOk (s.endXact x commit) := by
  obtain ⟨h3, hlt, hnot⟩ := (isInProgress_iff x).mp hx
  have hmono : ∀ y, s.hasEnded y = true → (s.endXact x commit).hasEnded y = true := by
    intro y hy
    rw [hasEnded_iff] at hy ⊢
    rw [Store.endXact, List.map_append]
    exact List.mem_append_left _ hy
  have hbelow : ∀ y, s.EndedBelow y → (s.endXact x commit).EndedBelow y := by
    intro y hy
    refine Store.EndedBelow.mono ?_ hmono hy
    exact Nat.le_refl _
  refine ⟨?_, ?_, hbelow _ h.below_recycle, hbelow _ h.below_frozen, hbelow _ h.below_prune⟩
  · rw [Store.endXact, List.map_append, List.map_singleton]
    refine List.nodup_append.mpr ⟨h.ended_nodup, by simp, ?_⟩
    intro a ha b hb heq
    rw [List.mem_singleton] at hb
    have hax : a = x := heq.trans hb
    exact hnot (hax ▸ ha)
  · intro y hy
    rw [Store.endXact, List.map_append, List.mem_append, List.map_singleton,
      List.mem_singleton] at hy
    rcases hy with hy | rfl
    · exact h.ended_range y hy
    · exact ⟨h3, hlt⟩

theorem Inv.endXact (h : Inv n s) (hx : s.isInProgress x = true) (commit : Bool)
    (hadm : (s.endXact x commit).Admissible n) : Inv n (s.endXact x commit) := by
  have hvis : ∀ y, s.Visible n y → (s.endXact x commit).Visible n y := by
    intro y hy
    unfold Store.Visible Store.endXact
    rw [List.take_append]
    exact List.mem_append_left _ hy
  have hc : ∀ y, s.Committed y → (s.endXact x commit).Committed y := fun y hy =>
    List.mem_append_left _ hy
  have hfol : ∀ a b, Follows s.ended a b → Follows (s.endXact x commit).ended a b :=
    fun a b hf => hf.imp_right (fun hb => hb.append _)
  have hslots := h.slots
  refine { h with
    slots := { hslots with
      xacts := hslots.xacts.endXact hx commit
      slot_old := fun td hne hold => hc _ (hslots.slot_old td hne hold)
      chain_xid := fun td e he => ?_, chain_order := fun td => ?_ }
    admissible := hadm, version_kept := ?_, version_order := fun off' => ?_
    version_links := fun off' => ?_, rows := fun off' => ?_ }
  · exact ⟨(hslots.chain_xid td e he).1, (hslots.chain_xid td e he).2.imp_right (hc _)⟩
  · exact (hslots.chain_order td).imp (hfol _ _)
  · intro off' v hv hneed
    refine h.version_kept off' v hv ?_
    rcases hneed with hinv | hz
    · exact .inl fun hy => hinv (hvis _ hy)
    · exact .inr hz
  · exact (h.version_order off').imp fun hab => ⟨hab.1, hab.2.imp_right (fun hb => hb.append _)⟩
  · exact (h.version_links off').mono hvis
  · exact (h.rows off').mono hvis hc

/-- The store with other horizons and another next transaction id. -/
def Store.withHorizons (s : Store) (recycle frozen prune next : Nat) : Store :=
  { s with
    globalRecycleXid := recycle
    globalFrozenXid := frozen
    pruneXmin := prune
    nextXid := next }

/-- Horizons move; slots below a horizon are of committed transactions. -/
theorem Inv.withHorizons (h : Inv n s) {recycle frozen prune next : Nat}
    (hx : XactsOk (s.withHorizons recycle frozen prune next))
    (hnext : s.nextXid ≤ next) (hrecycle : s.globalRecycleXid ≤ recycle)
    (hold : ∀ td, (s.tds td).xactid ≠ InvalidTransactionId →
      (s.tds td).xactid < recycle ∨ (s.tds td).xactid < frozen → s.Committed (s.tds td).xactid)
    (hadm : (s.withHorizons recycle frozen prune next).Admissible n) :
    Inv n (s.withHorizons recycle frozen prune next) := by
  have hslots := h.slots
  refine { h with
    slots := { hslots with
      xacts := hx, discard_old := fun p hp => ?_, slot_range := fun td hne => ?_, slot_old := hold }
    admissible := hadm, version_kept := fun off' v hv hneed => ?_
    version_range := fun off' v hv => ?_ }
  · obtain ⟨r, hr, hlt⟩ := hslots.discard_old p hp
    exact ⟨r, hr, hlt.trans_le hrecycle⟩
  · obtain ⟨h3, hlt⟩ := hslots.slot_range td hne
    exact ⟨h3, hlt.trans_le hnext⟩
  · refine h.version_kept off' v hv (hneed.imp_right fun hz => ⟨?_, hz.2⟩)
    have hzero : recycle = 0 := hz.1
    omega
  · obtain ⟨hoff, hurp, hslot, h3, hlt⟩ := h.version_range off' v hv
    exact ⟨hoff, hurp, hslot, h3, hlt.trans_le hnext⟩

theorem Inv.discard (h : Inv n s) {urp : Nat} {urec : UndoRecord}
    (hload : s.loadUndoRecord urp = some urec) (hold : urec.xid < s.globalRecycleXid) :
    Inv n { s with discarded := Function.update s.discarded urp true } := by
  have hslots := h.slots
  refine { h with
    slots := { hslots with xacts := hslots.xacts.congr rfl, discard_old := fun p hp => ?_ } }
  by_cases heq : p = urp
  · subst heq
    unfold Store.loadUndoRecord at hload
    split at hload
    · cases hload
    · exact ⟨urec, hload, hold⟩
  · simp only [Function.update_of_ne heq] at hp
    exact hslots.discard_old p hp

/-! ## One row pointer -/

theorem Inv.setRow (h : Inv n s) (hrow : RowOk (s.Visible n) s.Committed s.tds rp (s.versions off))
    (hused : rp ≠ .unused → s.rows off ≠ .unused) :
    Inv n { s with rows := Function.update s.rows off rp } := by
  have hsame : ∀ off', Function.update s.rows off rp off' ≠ .unused → s.rows off' ≠ .unused :=
    update_cases hused fun _ _ => id
  refine { h with
    slots := { h.slots with xacts := h.slots.xacts.congr rfl }
    rows_out := fun off' hout => ?_, version_kept := fun off' v hv hneed => ?_
    version_slot := fun off' hne => h.version_slot off' (hsame off' hne)
    rows := ?_ }
  · by_contra hne
    exact hsame off' hne (h.rows_out off' hout)
  · exact h.version_kept off' v hv (hneed.imp_right fun hz => ⟨hz.1, hsame off' hz.2.1, hz.2.2⟩)
  · dsimp only
    exact update_cases hrow fun off' _ => h.rows off'

/-! ## Slots -/

theorem mem_slotsWith {p : Nat → Bool} {td : Nat} :
    td ∈ s.slotsWith p ↔ td ≠ 0 ∧ td ≤ s.tdCount ∧ p (s.tds td).xactid = true := by
  unfold Store.slotsWith
  rw [List.mem_filter, List.mem_map]
  constructor
  · rintro ⟨⟨i, hi, rfl⟩, hp⟩
    rw [List.mem_range] at hi
    exact ⟨by omega, by omega, hp⟩
  · rintro ⟨h0, hle, hp⟩
    exact ⟨⟨td - 1, List.mem_range.mpr (by omega), by omega⟩, hp⟩

theorem freezeOrInvalidate_unused {isFrozen : Bool}
    (h : rp.freezeOrInvalidate slots isFrozen ≠ .unused) : rp ≠ .unused := by
  rintro rfl
  exact h rfl

theorem tdChain_freezeSlots (slots : List Nat) (td : Nat) :
    (s.freezeSlots slots).tdChain td = if td ∈ slots then [] else s.tdChain td := by
  unfold Store.tdChain Store.freezeSlots
  by_cases hin : td ∈ slots
  · simp only [if_pos hin]
    exact chain_zero _
  · simp only [if_neg hin]

/-- A slot may lose its xid: with its chain, or when its transaction has
committed. -/
theorem SlotsOk.clear (hs : SlotsOk s) {rows : Nat → RowPtr}
    (hclear : ∀ td, tds td = s.tds td ∨ tds td = .empty ∨
      tds td = { s.tds td with xactid := InvalidTransactionId } ∧ s.Committed (s.tds td).xactid) :
    SlotsOk { s with rows := rows, tds := tds } := by
  -- a slot that has an xid has not been cleared
  have hkeep : ∀ td, (tds td).xactid ≠ InvalidTransactionId → tds td = s.tds td := by
    intro td hne
    rcases hclear td with heq | heq | ⟨heq, -⟩
    · exact heq
    · exact absurd (congrArg TD.xactid heq) hne
    · exact absurd (congrArg TD.xactid heq) hne
  have hsub : ∀ td, (Store.tdChain { s with rows := rows, tds := tds } td).Sublist
      (s.tdChain td) := by
    intro td
    unfold Store.tdChain
    rcases hclear td with heq | heq | ⟨heq, -⟩
    · simp only [heq, List.Sublist.refl]
    · simp only [heq, TD.empty, INVALID_UNDO_REC_PTR, chain_zero, List.nil_sublist]
    · simp only [heq, List.Sublist.refl]
  refine ⟨hs.xacts.congr rfl, hs.linked, fun td => ?_, fun td hout => ?_, hs.discard_old,
    fun td hne => ?_, fun td hne hold => ?_, fun td hne => ?_, fun td td' hne heq => ?_,
    fun td e he => ?_, fun td => (hs.chain_order td).sublist (hsub td)⟩
  · show (tds td).undoRecordPtr ≤ _
    rcases hclear td with heq | heq | ⟨heq, -⟩
    · exact heq ▸ hs.urp_le td
    · exact heq ▸ Nat.zero_le _
    · exact heq ▸ hs.urp_le td
  · have hempty := hs.tds_out td hout
    rcases hclear td with heq | heq | ⟨heq, -⟩
    · exact heq.trans hempty
    · exact heq
    · rw [hempty] at heq
      exact heq
  · have hsame := hkeep td hne
    simp only [hsame] at hne ⊢
    exact hs.slot_range td hne
  · have hsame := hkeep td hne
    simp only [hsame] at hne hold ⊢
    exact hs.slot_old td hne hold
  · have hsame := hkeep td hne
    unfold Store.tdChain
    simp only [hsame] at hne ⊢
    exact hs.slot_head td hne
  · have hsame := hkeep td hne
    have hsame' := hkeep td' (heq ▸ hne)
    simp only [hsame, hsame'] at hne heq
    exact hs.slot_unique td td' hne heq
  · obtain ⟨h3, hxid⟩ := hs.chain_xid td e ((hsub td).subset he)
    refine ⟨h3, ?_⟩
    rcases hclear td with heq | heq | ⟨-, hc⟩
    · simp only [heq]
      exact hxid
    · unfold Store.tdChain at he
      simp only [heq] at he
      cases he
    · exact .inr (hxid.elim (fun heq => heq ▸ hc) id)

/-- What freezing and invalidating have in common: rows only change where they are used. -/
theorem Inv.clearSlots (h : Inv n s) {isFrozen : Bool} {s' : Store}
    (heq : s' = { s with
      rows := fun off => (s.rows off).freezeOrInvalidate slots isFrozen, tds := tds })
    (hs : SlotsOk s') (hchain : ∀ td, s'.tdChain td = [] ∨ s'.tdChain td = s.tdChain td)
    (hkept : ∀ off', ∀ v ∈ s.versions off', s.Needed n off' v → s'.tdChain v.slot = s.tdChain v.slot)
    (hrow : ∀ off', RowOk (s.Visible n) s.Committed tds
      ((s.rows off').freezeOrInvalidate slots isFrozen) (s.versions off')) : Inv n s' := by
  subst heq
  refine { h with
    slots := hs, rows_out := fun off' hout => ?_, chain_versions := fun td off' => ?_
    version_kept := fun off' v hv hneed => ?_
    version_slot := fun off' hne => h.version_slot off' (freezeOrInvalidate_unused hne)
    rows := hrow }
  · simp only [h.rows_out off' hout, RowPtr.freezeOrInvalidate]
  · rcases hchain td with hnil | hsame
    · rw [hnil]
      exact List.nil_prefix
    · rw [hsame]
      exact h.chain_versions td off'
  · have hneed' : s.Needed n off' v :=
      hneed.imp_right fun hz => ⟨hz.1, freezeOrInvalidate_unused hz.2.1, hz.2.2⟩
    rw [hkept off' v hv hneed']
    exact h.version_kept off' v hv hneed'

/-- Freezing slots of transactions below the recycle horizon. -/
theorem Inv.freezeSlots (h : Inv n s)
    (hslots : ∀ td ∈ slots, td ≠ 0 ∧ (s.tds td).xactid ≠ InvalidTransactionId ∧
      (s.tds td).xactid < s.globalRecycleXid) : Inv n (s.freezeSlots slots) := by
  have hchain := tdChain_freezeSlots (s := s) slots
  have hvisible : ∀ off', ∀ v ∈ s.versions off', v.slot ∈ slots → s.Visible n v.writer := by
    intro off' v hv hin
    obtain ⟨-, hne, hlt⟩ := hslots _ hin
    exact h.visible_of_old_slot hv hne (.inl hlt)
  have hs : SlotsOk (s.freezeSlots slots) := h.slots.clear fun td =>
    if hin : td ∈ slots then .inr (.inl (if_pos hin)) else .inl (if_neg hin)
  refine h.clearSlots rfl hs (fun td => ?_) (fun off' v hv hneed => ?_) fun off' => ?_
  · rw [hchain]
    split
    · exact .inl rfl
    · exact .inr rfl
  · rw [hchain, if_neg]
    intro hin
    rcases hneed with hinv | hz
    · exact hinv (hvisible off' v hv hin)
    have hlt := (hslots _ hin).2.2
    omega
  · have hrow := h.rows off'
    have hslot : ∀ {tdSlot : Nat} {invalidXact : Bool} {v : Version}, v ∈ s.versions off' →
        tdSlot ∈ slots → StampedFrom (s.Visible n) s.tds tdSlot invalidXact v →
        s.Visible n v.writer := by
      intro tdSlot invalidXact v hv hin hst
      rcases hst.slot with heq | hz
      · exact hvisible off' v hv (heq ▸ hin)
      · exact hz.2
    generalize s.rows off' = rp at hrow ⊢
    cases rp with
    | unused =>
      exact hrow
    | normal t =>
      obtain ⟨v, rest, hvs, ht⟩ := hrow
      have hv := mem_of_cons hvs
      simp only [RowPtr.freezeOrInvalidate, if_true]
      split_ifs with hin
      · exact ⟨v, rest, hvs, ht.op, ht.flags, ⟨.inr ⟨rfl, hslot hv hin ht.stamp⟩,
          fun hne => absurd rfl hne⟩, ht.xid, ht.body⟩
      · exact ⟨v, rest, hvs, ht.op, ht.flags, ht.stamp.of_td (if_neg hin), ht.xid, ht.body⟩
    | deleted tdSlot invalidXact =>
      obtain ⟨v, rest, hvs, hop, hcv, hst⟩ := hrow
      have hv := mem_of_cons hvs
      simp only [RowPtr.freezeOrInvalidate, if_true]
      split_ifs with hin
      · exact .inr ⟨v, rest, hvs, hop, hslot hv hin hst⟩
      · exact ⟨v, rest, hvs, hop, hcv, hst.of_td (if_neg hin)⟩

/-- Invalidating slots of committed transactions. -/
theorem Inv.invalidateSlots (h : Inv n s) (hslots : ∀ td ∈ slots, s.Committed (s.tds td).xactid) :
    Inv n (s.invalidateSlots slots) := by
  have hchain : ∀ td, (s.invalidateSlots slots).tdChain td = s.tdChain td := by
    intro td
    unfold Store.tdChain Store.invalidateSlots
    by_cases hin : td ∈ slots
    · simp only [if_pos hin]
    · simp only [if_neg hin]
  have hs : SlotsOk (s.invalidateSlots slots) := h.slots.clear fun td =>
    if hin : td ∈ slots then .inr (.inr ⟨if_pos hin, hslots td hin⟩) else .inl (if_neg hin)
  refine h.clearSlots rfl hs (fun td => .inr (hchain td)) (fun _ v _ _ => hchain v.slot) fun off' => ?_
  have hrow := h.rows off'
  generalize s.rows off' = rp at hrow ⊢
  cases rp with
  | unused =>
    exact hrow
  | normal t =>
    obtain ⟨v, rest, hvs, ht⟩ := hrow
    simp only [RowPtr.freezeOrInvalidate]
    split_ifs with h' hfalse
    · cases hfalse
    · exact ⟨v, rest, hvs, ht.op, ht.flags, ⟨ht.stamp.slot, nofun⟩, ht.xid, ht.body⟩
    · exact ⟨v, rest, hvs, ht.op, ht.flags, ht.stamp.of_td (if_neg h'), ht.xid, ht.body⟩
  | deleted tdSlot invalidXact =>
    obtain ⟨v, rest, hvs, hop, hcv, hst⟩ := hrow
    simp only [RowPtr.freezeOrInvalidate]
    split_ifs with h' hfalse
    · cases hfalse
    · exact ⟨v, rest, hvs, hop, hcv, hst.slot, nofun⟩
    · exact ⟨v, rest, hvs, hop, hcv, hst.of_td (if_neg h')⟩

/-- New slots are empty, as everything behind the slot array is. -/
theorem Inv.extendTDSlots (h : Inv n s) (nExtended : Nat) : Inv n (s.extendTDSlots nExtended) := by
  have htds : (fun td => if s.tdCount < td ∧ td ≤ s.tdCount + nExtended then .empty
      else s.tds td) = s.tds := by
    funext td
    split_ifs with hnew
    · exact (h.slots.tds_out td (.inr hnew.1)).symm
    · rfl
  rw [Store.extendTDSlots, htds]
  have hs := h.slots
  exact { h with
    slots := { hs with
      xacts := hs.xacts.congr rfl
      tds_out := fun td hout =>
        hs.tds_out td (hout.imp_right fun hlt => (Nat.le_add_right _ _).trans_lt hlt) }
    version_slot := fun off' hne v hv =>
      (h.version_slot off' hne v hv).trans (Nat.le_add_right _ _) }

end OpenGauss.Visibility
