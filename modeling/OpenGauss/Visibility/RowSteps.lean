import OpenGauss.Visibility.SlotSteps

/-!
# Steps that write or undo a row

A write puts a record on top of its slot's chain and a version on top of its
row; an undo takes both away again. The slot that a writer reserves is its
own or a free one, and reserving it keeps the history.
-/

namespace OpenGauss.Visibility

open Lib
open List (mem_cons pairwise_cons)
open Function (update update_of_ne update_self)
open UndoRecord (blkprev)

variable {n : Nat} {s : Store} {off : Nat}

/-! ## Writing a record and a version -/

/-- The version that `putUndo` puts on top. -/
def Store.newVersion (s : Store) (x td off : Nat) (data : UndoData) (oldXactId : Nat)
    (contents : Option (List UInt8)) (image : List UInt8) : Version :=
  ⟨s.log.length + 1, ⟨x, off, data, oldXactId, (s.tds td).undoRecordPtr⟩, td, contents, image⟩

/-- The slot is the writer's, or it is free and the writer has none. -/
def Store.SlotFor (s : Store) (x td : Nat) : Prop :=
  td ≠ 0 ∧ td ≤ s.tdCount ∧ ((s.tds td).xactid = x ∨
    (s.tds td).xactid = InvalidTransactionId ∧ ∀ td', (s.tds td').xactid ≠ x)

variable {u : Version}

theorem Inv.committed_of_version (h : Inv n s) {x : Nat}
    (htop : ∀ w ∈ (s.versions off).head?, w.writer = x ∨ s.Committed w.writer)
    (hu : u ∈ s.versions off) : u.writer = x ∨ s.Committed u.writer := by
  cases hvs : s.versions off with
  | nil => rw [hvs] at hu; cases hu
  | cons w rest =>
    have hw := htop w (by rw [hvs]; rfl)
    rw [hvs] at hu
    rcases mem_cons.mp hu with rfl | hu
    · exact hw
    rcases h.follows_version [] hvs hu with heq | hb
    · rw [← heq]
      exact hw
    · exact .inr hb.committed

/-- The row's present life reaches down to its newest insert. -/
theorem mem_incarnation_cons {v : Version} {vs : List Version} :
    u ∈ incarnation (v :: vs) ↔ u = v ∨ v.op ≠ .new ∧ u ∈ incarnation vs := by
  by_cases hop : v.op = .new
  · simp [incarnation, hop]
  · simp [incarnation, hop]

/-- `s'` is `s` with `v` on top of its row, whose pointer is now `row`, and with the record of `v`
on top of the chain of its slot. -/
structure Put (s s' : Store) (v : Version) (row : RowPtr) : Prop where
  chain : ∀ td, s'.tdChain td = if td = v.slot then v.entry :: s.tdChain td else s.tdChain td
  versions : ∀ off, s'.versions off =
    if off = v.urec.offset then v :: s.versions off else s.versions off
  rows : ∀ off, s'.rows off = if off = v.urec.offset then row else s.rows off

section Put

variable {s' : Store} {v : Version} {row : RowPtr} (h : Put s s' v row)
include h

theorem Put.mem_versions :
    u ∈ s'.versions off ↔ off = v.urec.offset ∧ u = v ∨ u ∈ s.versions off := by
  rw [h.versions]
  by_cases ho : off = v.urec.offset
  · simp [ho]
  · simp [ho]

theorem Put.pairwise {r : Version → Version → Prop} : (s'.versions off).Pairwise r ↔
    (off = v.urec.offset → ∀ u ∈ s.versions off, r v u) ∧ (s.versions off).Pairwise r := by
  rw [h.versions]
  by_cases ho : off = v.urec.offset
  · simp [ho]
  · simp [ho]

theorem Put.linksOk {vis : Nat → Prop} : LinksOk vis (s'.versions off) ↔
    (off = v.urec.offset → LinkOk vis v (s.versions off)) ∧ LinksOk vis (s.versions off) := by
  rw [h.versions]
  by_cases ho : off = v.urec.offset
  · simp [ho, LinksOk]
  · simp [ho]

/-- The record is the row's newest through the slot. -/
theorem Put.chain_versions (td : Nat) :
    (s'.tdChain td).filter (fun e => e.2.offset = off) <+:
        ((s'.versions off).filter (fun u => u.slot = td)).map Version.entry ↔
      (s.tdChain td).filter (fun e => e.2.offset = off) <+:
        ((s.versions off).filter (fun u => u.slot = td)).map Version.entry := by
  rw [h.chain, h.versions]
  by_cases htd : td = v.slot
  · by_cases ho : off = v.urec.offset
    · simp [htd, ho, Version.entry, List.cons_prefix_cons]
    · simp [htd, ho, Version.entry, Ne.symm ho]
  · by_cases ho : off = v.urec.offset
    · simp [htd, ho, Ne.symm htd]
    · simp [htd, ho]

end Put

/-- A version of a transaction in progress was written through the slot the
transaction holds. -/
theorem Inv.slot_of_inProgress (h : Inv n s) {x : Nat} (hx : s.isInProgress x = true)
    (hu : u ∈ s.versions off) (hw : u.writer = x) : (s.tds u.slot).xactid = x := by
  have hinv : ¬s.Visible n u.writer := by
    rw [hw]
    exact fun hvis => not_committed_of_inProgress hx hvis.committed
  rcases (h.slots.chain_xid u.slot _ (h.entry_mem hu hinv)).2 with heq | hc
  · rw [← heq]
    exact hw
  · exact absurd (hw ▸ hc) (not_committed_of_inProgress hx)

section PutUndo

variable {x td oldXactId : Nat} {data : UndoData} {row : RowPtr} {contents : Option (List UInt8)}
  {image : List UInt8}

theorem SlotsOk.put (h : SlotsOk s) : Put s (s.putUndo x td off data oldXactId row contents image)
    (s.newVersion x td off data oldXactId contents image) row where
  chain td' := by
    change _ = if td' = td then _ else _
    unfold Store.tdChain Store.putUndo
    by_cases heq : td' = td
    · subst heq
      simp only [update_self, if_true]
      exact chain_append_self h.linked (h.urp_le td')
    · simp only [update_of_ne heq, if_neg heq]
      exact chain_append h.linked (h.urp_le td) (h.urp_le td')
  versions off' := by
    change update s.versions off _ off' = if off' = off then _ else _
    by_cases heq : off' = off
    · rw [heq, update_self, if_pos rfl]
      rfl
    · rw [update_of_ne heq, if_neg heq]
  rows := Function.update_apply _ _ _

/-- No other slot is the writer's. -/
theorem SlotsOk.eq_of_slotFor (h : SlotsOk s) (hx : FirstNormalTransactionId ≤ x)
    (hslot : s.SlotFor x td) {td' : Nat} (hxid : (s.tds td').xactid = x) : td' = td := by
  rcases hslot.2.2 with hown | ⟨-, hnone⟩
  · refine h.slot_unique td' td ?_ (hxid.trans hown.symm)
    rw [hxid]
    exact ne_invalid_of_normal hx
  · exact absurd hxid (hnone td')

theorem SlotsOk.putUndo (h : SlotsOk s) (hx : s.isInProgress x = true) (hslot : s.SlotFor x td) :
    SlotsOk (s.putUndo x td off data oldXactId row contents image) := by
  obtain ⟨h3, hlt, -⟩ := (isInProgress_iff x).mp hx
  have heqTd : ∀ {td'}, (s.tds td').xactid = x → td' = td := h.eq_of_slotFor h3 hslot
  obtain ⟨htd0, htdle, hfree⟩ := hslot
  have htds : ∀ td', td' ≠ td →
      (s.putUndo x td off data oldXactId row contents image).tds td' = s.tds td' := fun td' hne =>
    update_of_ne hne _ _
  have hself : (s.putUndo x td off data oldXactId row contents image).tds td =
      ⟨x, s.log.length + 1⟩ := update_self _ _ _
  -- the slot was the writer's or free, so the others who wrote through it have committed
  have hcommitted : ∀ e ∈ s.tdChain td, e.2.xid = x ∨ s.Committed e.2.xid := by
    intro e he
    obtain ⟨he3, hxid⟩ := h.chain_xid td e he
    rcases hxid with heq | hc
    · rcases hfree with hown | ⟨hzero, -⟩
      · exact .inl (heq.trans hown)
      · exact absurd (heq.trans hzero) (ne_invalid_of_normal he3)
    · exact .inr hc
  have hchain : ∀ td', (s.putUndo x td off data oldXactId row contents image).tdChain td' =
      if td' = td then _ else _ := h.put.chain
  refine ⟨h.xacts.congr rfl, linked_append h.linked (h.urp_le td), fun td' => ?_,
    fun td' hout => ?_, fun p hp => ?_, fun td' hne => ?_, fun td' hne hold => ?_, fun td' hne => ?_,
    fun td1 td2 hne heq => ?_, fun td' e he => ?_, fun td' => ?_⟩
  · change _ ≤ (s.log ++ [_]).length
    rw [List.length_append, List.length_singleton]
    by_cases heq : td' = td
    · rw [heq, hself]
    · rw [htds td' heq]
      exact (h.urp_le td').trans (Nat.le_succ _)
  · have hne : td' ≠ td := by
      rintro rfl
      rcases hout with h0 | hgt
      · exact htd0 h0
      · exact absurd htdle hgt.not_ge
    rw [htds td' hne]
    exact h.tds_out td' hout
  · obtain ⟨r, hr, hrlt⟩ := h.discard_old p hp
    refine ⟨r, ?_, hrlt⟩
    change (s.log ++ [_])[p - 1]? = some r
    rw [List.getElem?_append_left (List.getElem?_eq_some_iff.mp hr).1, hr]
  · by_cases heq : td' = td
    · rw [heq, hself]
      exact ⟨h3, hlt⟩
    · rw [htds td' heq] at hne ⊢
      exact h.slot_range td' hne
  · by_cases heq : td' = td
    · rw [heq, hself] at hold
      have hnot := h.xacts.not_old hx
      exact absurd hold (by rintro (h' | h'); exacts [hnot.1 h', hnot.2.1 h'])
    · rw [htds td' heq] at hne hold ⊢
      exact h.slot_old td' hne hold
  · by_cases heq : td' = td
    · subst heq
      rw [hchain, if_pos rfl, hself]
      exact ⟨_, _, rfl, rfl⟩
    · rw [hchain, if_neg heq, htds td' heq]
      rw [htds td' heq] at hne
      exact h.slot_head td' hne
  · by_cases h1 : td1 = td
    · by_cases h2 : td2 = td
      · rw [h1, h2]
      · rw [h1, hself, htds td2 h2] at heq
        exact absurd (heqTd heq.symm) h2
    · rw [htds td1 h1] at hne heq
      by_cases h2 : td2 = td
      · rw [h2, hself] at heq
        exact absurd (heqTd heq) h1
      · rw [htds td2 h2] at heq
        exact h.slot_unique td1 td2 hne heq
  · rw [hchain] at he
    by_cases heq : td' = td
    · subst heq
      rw [if_pos rfl] at he
      rw [hself]
      rcases mem_cons.mp he with rfl | he
      · exact ⟨h3, .inl rfl⟩
      · exact ⟨(h.chain_xid td' e he).1, hcommitted e he⟩
    · rw [if_neg heq] at he
      rw [htds td' heq]
      exact h.chain_xid td' e he
  · rw [hchain]
    split
    case isTrue heq =>
      refine pairwise_cons.mpr ⟨fun e he => ?_, h.chain_order td'⟩
      rcases hcommitted e (heq ▸ he) with heq | hc
      · exact .inl heq.symm
      · exact .inr (endedBefore_of_inProgress hx hc)
    case isFalse => exact h.chain_order td'

/-- The version on top of a row that no other open transaction has written. -/
theorem Inv.order_newVersion (h : Inv n s) (hx : s.isInProgress x = true) (hslot : s.SlotFor x td)
    (htop : ∀ w ∈ (s.versions off).head?, w.writer = x ∨ s.Committed w.writer)
    (hu : u ∈ s.versions off) : u.urp < s.log.length + 1 ∧
      (x = u.writer ∧ td = u.slot ∨ EndedBefore s.ended u.writer x) := by
  refine ⟨Nat.lt_succ_of_le (h.version_range off u hu).2.1, ?_⟩
  rcases h.committed_of_version htop hu with heq | hc
  · have hxid := h.slot_of_inProgress hx hu heq
    have h3 := ((isInProgress_iff x).mp hx).1
    exact .inl ⟨heq.symm, (h.slots.eq_of_slotFor h3 hslot hxid).symm⟩
  · exact .inr (endedBefore_of_inProgress hx hc)

/-- A slot that stands for the writer of an old version still does. -/
theorem Inv.slotXid_putUndo (h : Inv n s) (hslot : s.SlotFor x td) (hu : u ∈ s.versions off)
    {td' : Nat} (hxid : (s.tds td').xactid = u.writer) :
    (update s.tds td ⟨x, s.log.length + 1⟩ td').xactid = u.writer := by
  by_cases heq : td' = td
  · subst heq
    rw [update_self]
    rcases hslot.2.2 with hown | ⟨hzero, -⟩
    · exact hown.symm.trans hxid
    · exact absurd (hxid.symm.trans hzero)
        (ne_invalid_of_normal (h.version_range off u hu).2.2.2.1)
  · rw [update_of_ne heq]
    exact hxid

/-- A write by a transaction in progress through its slot. -/
theorem Inv.putUndo (h : Inv n s) (hx : s.isInProgress x = true) (hslot : s.SlotFor x td)
    (hoff : off ≠ 0) (htop : ∀ w ∈ (s.versions off).head?, w.writer = x ∨ s.Committed w.writer)
    (hused : data.op ≠ .new → s.rows off ≠ .unused)
    (hlink : LinkOk (s.Visible n) (s.newVersion x td off data oldXactId contents image)
      (s.versions off))
    (hrow : RowOk (s.Visible n) s.Committed (update s.tds td ⟨x, s.log.length + 1⟩) row
      (s.newVersion x td off data oldXactId contents image :: s.versions off)) :
    Inv n (s.putUndo x td off data oldXactId row contents image) := by
  have hslots : SlotsOk (s.putUndo x td off data oldXactId row contents image) :=
    h.slots.putUndo hx hslot
  have hput : Put s (s.putUndo x td off data oldXactId row contents image) _ row := h.slots.put
  set s' := s.putUndo x td off data oldXactId row contents image
  set v := s.newVersion x td off data oldXactId contents image
  obtain ⟨h3, hlt, -⟩ := (isInProgress_iff x).mp hx
  have hlen : s'.log.length = s.log.length + 1 := List.length_append
  have hvoff : v.urec.offset = off := rfl
  -- versions of a row's present life that were there before
  have hlife : ∀ {off' : Nat} {u : Version}, s'.rows off' ≠ .unused →
      u ∈ incarnation (s'.versions off') →
        u = v ∨ s.rows off' ≠ .unused ∧ u ∈ incarnation (s.versions off') := by
    intro off' u hne hu
    rw [hput.rows] at hne
    rw [hput.versions] at hu
    split at hu
    case isTrue heq =>
      refine (mem_incarnation_cons.mp hu).imp_right fun hold => ⟨?_, hold.2⟩
      rw [heq]
      exact hused hold.1
    case isFalse ho =>
      rw [if_neg ho] at hne
      exact .inr ⟨hne, hu⟩
  refine ⟨hslots, h.admissible, fun off' hout => ?_,
    fun td' off' => (hput.chain_versions td').mpr (h.chain_versions td' off'),
    fun off' u hu hneed => ?_, fun off' hne u hu => ?_,
    fun off' => hput.pairwise.mpr ⟨?_, h.version_order off'⟩, fun off' u hu => ?_,
    fun off' => hput.linksOk.mpr ⟨?_, h.version_links off'⟩, fun off' => ?_⟩
  · -- the row written lies inside the page
    have hne : off' ≠ off := by
      rintro rfl
      rcases hout with h0 | hgt
      · exact hoff h0
      · exact absurd (Nat.le_max_right s.maxoff off') hgt.not_ge
    rw [hput.rows, hvoff, if_neg hne]
    refine h.rows_out off' (hout.imp_right fun hgt => ?_)
    exact (Nat.le_max_left s.maxoff off).trans_lt hgt
  · -- the chains only grow
    rw [hput.chain]
    by_cases huv : u = v
    · rw [huv, if_pos rfl]
      exact .head _
    have hold := (hput.mem_versions.mp hu).resolve_left fun hu => huv hu.2
    have hkept := h.version_kept off' u hold
      (hneed.imp_right fun hz => ⟨hz.1, (hlife hz.2.1 hz.2.2).resolve_left huv⟩)
    split
    · exact .tail _ hkept
    · exact hkept
  · rcases hlife hne hu with rfl | ⟨hne', hin⟩
    · exact hslot.2.1
    · exact h.version_slot off' hne' u hin
  · rintro rfl u hu
    exact h.order_newVersion hx hslot htop hu
  · rw [hlen]
    rcases hput.mem_versions.mp hu with ⟨rfl, rfl⟩ | hu
    · exact ⟨rfl, le_rfl, hslot.1, h3, hlt⟩
    · obtain ⟨h1, h2, h4⟩ := h.version_range off' u hu
      exact ⟨h1, h2.trans (Nat.le_succ _), h4⟩
  · rintro rfl
    exact hlink
  · rw [hput.rows, hput.versions]
    split
    case isTrue heq =>
      rw [heq]
      exact hrow
    case isFalse =>
      exact RowOk.of_tds (h.rows off') fun td' u hu _ hxid => h.slotXid_putUndo hslot hu hxid

end PutUndo

/-! ## Undoing a record and a version -/

section PopUndo

variable {x td : Nat} {urec : UndoRecord} {v : Version} {vs : List Version} {t : UHeapTuple}

/-- The newest record of a slot and the row version it belongs to. -/
structure UndoTop (s : Store) (td : Nat) (urec : UndoRecord) (v : Version) (vs : List Version)
    (t : UHeapTuple) : Prop where
  load : s.loadUndoRecord (s.tds td).undoRecordPtr = some urec
  blkprev_lt : urec.blkprev < (s.tds td).undoRecordPtr
  chain : s.tdChain td =
    ((s.tds td).undoRecordPtr, urec) :: chain blkprev s.log urec.blkprev
  versions : s.versions urec.offset = v :: vs
  entry : v.entry = ((s.tds td).undoRecordPtr, urec)
  slot : v.slot = td
  row : s.rows urec.offset = .normal t

theorem mem_tdChain_of_top (h : UndoTop s td urec v vs t) :
    ∀ e ∈ chain blkprev s.log urec.blkprev, e ∈ s.tdChain td := by
  intro e he
  rw [h.chain]
  exact .tail _ he

theorem slotOf_eq_some (h : s.slotOf x = some td) :
    td ≠ 0 ∧ td ≤ s.tdCount ∧ (s.tds td).xactid = x := by
  obtain ⟨h0, hle, hx⟩ := mem_slotsWith.mp (List.mem_of_head? h)
  exact ⟨h0, hle, by simpa using hx⟩

theorem slotOf_eq_none (h : SlotsOk s) (hx : x ≠ InvalidTransactionId) (hnone : s.slotOf x = none)
    (td : Nat) : (s.tds td).xactid ≠ x := by
  intro hxid
  have hin : td ∈ s.slotsWith (fun y => y == x) := by
    have hrange : ¬(td = 0 ∨ s.tdCount < td) := by
      intro hout
      rw [h.tds_out td hout] at hxid
      exact hx hxid.symm
    exact mem_slotsWith.mpr ⟨fun h0 => hrange (.inl h0), by omega, by simpa using hxid⟩
  rw [List.head?_eq_none_iff.mp hnone] at hin
  cases hin

/-- A record of a transaction that has not committed can be loaded. -/
theorem SlotsOk.load_of_uncommitted (h : SlotsOk s) {td' : Nat}
    (hc : ¬s.Committed x) {e : Nat × UndoRecord} (he : e ∈ s.tdChain td') (hxid : e.2.xid = x) :
    s.loadUndoRecord e.1 = some e.2 := by
  obtain ⟨h0, -, hget⟩ := mem_chain h.linked (h.urp_le td') he
  have hkept : s.discarded e.1 ≠ true := by
    intro hd
    obtain ⟨r, hr, hlt⟩ := h.discard_old e.1 hd
    rw [hget, Option.some.injEq] at hr
    rw [← hr] at hlt
    obtain ⟨h3, heq | hcx⟩ := h.chain_xid td' e he
    · have hne : (s.tds td').xactid ≠ InvalidTransactionId := by
        rw [← heq]
        exact ne_invalid_of_normal h3
      exact hc (by rw [← hxid, heq]; exact h.slot_old td' hne (.inl (heq ▸ hlt)))
    · exact hc (hxid ▸ hcx)
  unfold Store.loadUndoRecord INVALID_UNDO_REC_PTR
  rw [if_neg (not_or.mpr ⟨h0, hkept⟩)]
  exact hget

/-- The slot of a transaction that has ended without committing holds the
record of the newest version of a row. -/
theorem Inv.undoTop (h : Inv n s) (hx : x ≠ InvalidTransactionId) (hc : ¬s.Committed x)
    (hxid : (s.tds td).xactid = x) :
    ∃ urec v vs t, UndoTop s td urec v vs t ∧ urec.xid = x := by
  obtain ⟨e, rest, hhead, hex⟩ := h.slots.slot_head td (hxid ▸ hx)
  rw [hxid] at hex
  have he := mem_of_cons hhead
  obtain hzero | ⟨urec, -, -, hchain, hlt⟩ := chain_cases h.slots.linked (h.slots.urp_le td)
  · unfold Store.tdChain at hhead
    rw [hzero, chain_zero] at hhead
    cases hhead
  have heq : e = ((s.tds td).undoRecordPtr, urec) := by
    rw [Store.tdChain, hchain] at hhead
    exact (List.cons.inj hhead).1.symm
  subst heq
  replace hex : urec.xid = x := hex
  obtain ⟨w, hw, hwslot, hwe⟩ := h.version_of_entry he rfl
  have hww : w.writer = x := (congrArg (fun e => e.2.xid) hwe).trans hex
  cases hvs : s.versions urec.offset with
  | nil => exact absurd hw (by simp [hvs])
  | cons v vs =>
    -- the newest version is of the same slot, so its record is the first there
    have hslot : v.slot = td := by
      have hin := hw
      have hord := h.version_order urec.offset
      change w ∈ s.versions urec.offset at hin
      rw [hvs] at hin hord
      rcases mem_cons.mp hin with rfl | hin
      · exact hwslot
      rcases ((pairwise_cons.mp hord).1 w hin).2 with ⟨-, hsame⟩ | hb
      · exact hsame.trans hwslot
      · exact absurd (hww ▸ hb.committed) hc
    have hentry : v.entry = ((s.tds td).undoRecordPtr, urec) := by
      have hpre := h.chain_versions td urec.offset
      have hkeep : ∀ l, (((s.tds td).undoRecordPtr, urec) :: l).filter
          (fun e : Nat × UndoRecord => e.2.offset = urec.offset) =
          ((s.tds td).undoRecordPtr, urec) :: l.filter (fun e => e.2.offset = urec.offset) :=
        fun l => List.filter_cons_of_pos (by simp)
      rw [hhead, hvs, hkeep, List.filter_cons_of_pos (by simpa using hslot), List.map_cons,
        List.cons_prefix_cons] at hpre
      exact hpre.1.symm
    have hvw : v.writer = x := (congrArg (fun e => e.2.xid) hentry).trans hex
    have hrow := h.rows urec.offset
    rw [hvs] at hrow
    cases hrp : s.rows urec.offset with
    | unused =>
      rw [hrp] at hrow
      rcases hrow with hnil | ⟨u, rest', hcons, -, hvis⟩
      · cases hnil
      · rw [← (List.cons.inj hcons).1, hvw] at hvis
        exact absurd hvis.committed hc
    | deleted tdSlot invalidXact =>
      rw [hrp] at hrow
      obtain ⟨u, rest', hcons, -, hcu, -⟩ := hrow
      rw [← (List.cons.inj hcons).1, hvw] at hcu
      exact absurd hcu hc
    | normal t =>
      exact ⟨urec, v, vs, t, ⟨h.slots.load_of_uncommitted hc he hex, hlt, hchain, hvs, hentry,
        hslot, hrp⟩, hex⟩

theorem tdChain_popUndo (s : Store) (x td : Nat) (urec : UndoRecord) (td' : Nat) :
    (s.popUndo x td urec).tdChain td' =
      if td' = td then chain blkprev s.log urec.blkprev else s.tdChain td' := by
  unfold Store.tdChain Store.popUndo
  by_cases heq : td' = td
  · subst heq
    simp only [update_self, if_true]
  · simp only [update_of_ne heq, if_neg heq]

theorem versions_popUndo (s : Store) (x td : Nat) (urec : UndoRecord) (off' : Nat) :
    (s.popUndo x td urec).versions off' =
      if off' = urec.offset then (s.versions urec.offset).tail else s.versions off' :=
  Function.update_apply _ _ _ _

theorem rows_popUndo (s : Store) (x td : Nat) (urec : UndoRecord) (off' : Nat) :
    (s.popUndo x td urec).rows off' =
      if off' = urec.offset then undoRow s urec (s.rows urec.offset) else s.rows off' :=
  Function.update_apply _ _ _ _

/-- The page before an undo is the page after it with the version on top. -/
theorem put_popUndo (x : Nat) (h : UndoTop s td urec v vs t) :
    Put (s.popUndo x td urec) s v (.normal t) := by
  have hurec : v.urec = urec := congrArg Prod.snd h.entry
  refine ⟨fun td' => ?_, fun off' => ?_, fun off' => ?_⟩
  · rw [tdChain_popUndo, h.slot, h.entry]
    by_cases heq : td' = td
    · rw [if_pos heq, if_pos heq, heq, h.chain]
    · rw [if_neg heq, if_neg heq]
  · rw [versions_popUndo, hurec]
    by_cases heq : off' = urec.offset
    · rw [if_pos heq, if_pos heq, heq, h.versions, List.tail_cons]
    · rw [if_neg heq, if_neg heq]
  · rw [rows_popUndo, hurec]
    by_cases heq : off' = urec.offset
    · rw [if_pos heq, heq, h.row]
    · rw [if_neg heq, if_neg heq]

theorem tds_popUndo_of_ne {td' : Nat} (hne : td' ≠ td) :
    (s.popUndo x td urec).tds td' = s.tds td' := update_of_ne hne _ _

theorem undoRecordPtr_popUndo : ((s.popUndo x td urec).tds td).undoRecordPtr = urec.blkprev := by
  simp only [Store.popUndo, update_self]

theorem undoRow_normal (hop : urec.data.op ≠ .new) :
    undoRow s urec (.normal t) = .normal ⟨restoreXact s urec (headerFromUndo urec t.hdr),
      FrozenTransactionId, urec.data.oldBody t.body⟩ := by
  unfold undoRow headerFromUndo
  cases hd : urec.data with
  | insert => rw [hd] at hop; exact absurd rfl hop
  | inplaceUpdate | delete => rfl

theorem undoRow_insert {rp : RowPtr} (hop : urec.data.op = .new) : undoRow s urec rp = .unused := by
  unfold undoRow
  cases hd : urec.data with
  | insert => rfl
  | inplaceUpdate | delete => rw [hd] at hop; cases hop

theorem tidOp_restoreXact (s : Store) (urec : UndoRecord) (hdr : TupleHeader) :
    (restoreXact s urec hdr).tidOp = hdr.tidOp ∧
      (restoreXact s urec hdr).deleted = hdr.deleted := by
  unfold restoreXact
  split_ifs <;> exact ⟨rfl, rfl⟩

variable (h : Inv n s) (hc : ¬s.Committed x) (hxid : (s.tds td).xactid = x)
  (htop : UndoTop s td urec v vs t)

include h hc hxid htop

/-- The slot stays with the transaction exactly if its previous record is the
transaction's; otherwise everything left in the chain is committed. -/
theorem Inv.slotXid_popUndo : ((s.popUndo x td urec).tds td).xactid = x ∧
      (∃ e rest, chain blkprev s.log urec.blkprev = e :: rest ∧ e.2.xid = x) ∨
    ((s.popUndo x td urec).tds td).xactid = InvalidTransactionId ∧
      ∀ e ∈ chain blkprev s.log urec.blkprev, s.Committed e.2.xid := by
  have hval : ((s.popUndo x td urec).tds td).xactid =
      if (s.loadUndoRecord urec.blkprev).map UndoRecord.xid = some x then x
      else InvalidTransactionId := by
    simp only [Store.popUndo, update_self]
  have hle : urec.blkprev ≤ s.log.length := (htop.blkprev_lt.le).trans (h.slots.urp_le td)
  have hmem := mem_tdChain_of_top htop
  obtain hzero | ⟨r, hne, hget, hchain, -⟩ := chain_cases h.slots.linked hle
  · right
    rw [hval, hzero, if_neg (by simp [Store.loadUndoRecord, INVALID_UNDO_REC_PTR]), chain_zero]
    exact ⟨rfl, by simp⟩
  rw [hchain] at hmem ⊢
  by_cases hr : r.xid = x
  · left
    have hload := h.slots.load_of_uncommitted hc (hmem _ (.head _)) hr
    rw [hval, hload, Option.map_some, if_pos (by rw [hr])]
    exact ⟨rfl, _, _, rfl, hr⟩
  right
  refine ⟨?_, fun e he => ?_⟩
  · rw [hval, if_neg]
    unfold Store.loadUndoRecord
    split
    · simp
    · rw [hget, Option.map_some, Option.some.injEq]
      exact hr
  · -- a record of `x` behind another transaction's would be committed
    obtain ⟨-, hex | hce⟩ := h.slots.chain_xid td e (hmem e he)
    · rw [hxid] at hex
      rcases mem_cons.mp he with rfl | hin
      · exact absurd hex hr
      have hord := h.slots.chain_order td
      rw [htop.chain, hchain] at hord
      rcases (pairwise_cons.mp (pairwise_cons.mp hord).2).1 e hin with heq | hb
      · exact absurd (heq.trans hex) hr
      · exact hb.committed
    · exact hce

/-- A version of `x` whose record is left keeps the slot with `x`. -/
theorem Inv.slotXid_popUndo_of_version (hu : u ∈ s.versions off)
    (huslot : u.slot = td) (huw : u.writer = x) (hne : u.entry ≠ v.entry) :
    ((s.popUndo x td urec).tds td).xactid = x := by
  have hinv : ¬s.Visible n u.writer := by
    rw [huw]
    exact fun hvis => hc hvis.committed
  have hmem := h.entry_mem hu hinv
  rw [huslot, htop.chain, ← htop.entry] at hmem
  have hin := (mem_cons.mp hmem).resolve_left hne
  rcases h.slotXid_popUndo hc hxid htop with hx | hall
  · exact hx.1
  · exact absurd (huw ▸ hall.2 _ hin) hc

theorem Inv.slotsOk_popUndo (hx : x ≠ InvalidTransactionId) : SlotsOk (s.popUndo x td urec) := by
  have hs := h.slots
  have hchain := tdChain_popUndo s x td urec
  have hxids := h.slotXid_popUndo hc hxid htop
  have hsub := mem_tdChain_of_top htop
  -- a slot that is not free is as before, up to its pointer
  have hkeep : ∀ td', ((s.popUndo x td urec).tds td').xactid ≠ InvalidTransactionId →
      ((s.popUndo x td urec).tds td').xactid = (s.tds td').xactid := by
    intro td' hne
    by_cases heq : td' = td
    · rw [heq] at hne ⊢
      rcases hxids with hx' | h0
      · rw [hx'.1, hxid]
      · exact absurd h0.1 hne
    · rw [tds_popUndo_of_ne heq]
  refine ⟨hs.xacts.congr rfl, hs.linked, fun td' => ?_, fun td' hout => ?_, hs.discard_old,
    fun td' hne => ?_, fun td' hne hold => ?_, fun td' hne => ?_, fun td1 td2 hne heq => ?_,
    fun td' e he => ?_, fun td' => ?_⟩
  · by_cases heq : td' = td
    · rw [heq, undoRecordPtr_popUndo]
      exact (htop.blkprev_lt.le).trans (hs.urp_le td)
    · rw [tds_popUndo_of_ne heq]
      exact hs.urp_le td'
  · have hne : td' ≠ td := by
      rintro rfl
      rw [hs.tds_out td' hout] at hxid
      exact hx hxid.symm
    rw [tds_popUndo_of_ne hne]
    exact hs.tds_out td' hout
  · have hsame := hkeep td' hne
    rw [hsame] at hne ⊢
    exact hs.slot_range td' hne
  · have hsame := hkeep td' hne
    rw [hsame] at hne hold ⊢
    exact hs.slot_old td' hne hold
  · by_cases heq : td' = td
    · subst heq
      rw [hchain, if_pos rfl]
      rcases hxids with ⟨hx', e, rest, hrest, hex⟩ | h0
      · exact ⟨e, rest, hrest, hex.trans hx'.symm⟩
      · exact absurd h0.1 hne
    · rw [hchain, if_neg heq, tds_popUndo_of_ne heq]
      rw [tds_popUndo_of_ne heq] at hne
      exact hs.slot_head td' hne
  · have hsame := hkeep td1 hne
    have hsame' := hkeep td2 (heq ▸ hne)
    rw [hsame] at hne
    rw [hsame, hsame'] at heq
    exact hs.slot_unique td1 td2 hne heq
  · rw [hchain] at he
    by_cases heq : td' = td
    · subst heq
      rw [if_pos rfl] at he
      refine ⟨(hs.chain_xid td' e (hsub e he)).1, ?_⟩
      rcases hxids with hx' | h0
      · rw [hx'.1, ← hxid]
        exact (hs.chain_xid td' e (hsub e he)).2
      · exact .inr (h0.2 e he)
    · rw [if_neg heq] at he
      rw [tds_popUndo_of_ne heq]
      exact hs.chain_xid td' e he
  · rw [hchain]
    split
    · have hord := hs.chain_order td
      rw [htop.chain] at hord
      exact (pairwise_cons.mp hord).2
    · exact hs.chain_order td'

/-- The slot and the flag that go back into a row. The old writer still has
the slot, or the row is flagged. -/
theorem Inv.stamped_restoreXact {w : Version} (hw : w ∈ vs) {hdr : TupleHeader}
    (hsaved : SavedFrom (s.Visible n) hdr urec.oldXactId w) :
    StampedFrom (s.Visible n) (s.popUndo x td urec).tds (restoreXact s urec hdr).tdSlot
      (restoreXact s urec hdr).invalidXact w := by
  have hin : w ∈ s.versions urec.offset := by
    rw [htop.versions]
    exact .tail _ hw
  obtain ⟨-, -, hslot0, h3, -⟩ := h.version_range _ w hin
  unfold restoreXact
  by_cases hfr : urec.oldXactId = FrozenTransactionId ∨ hdr.tdSlot = UHEAPTUP_SLOT_FROZEN
  · rw [if_pos hfr]
    have hvis : s.Visible n w.writer := by
      rcases hfr with hfx | h0
      · rcases hsaved.xid with heq | hvis
        · rw [← heq, hfx] at h3
          exact absurd h3 (by decide)
        · exact hvis.1
      · rcases hsaved.slot with heq | hvis
        · exact absurd (heq ▸ h0) hslot0
        · exact hvis.2
    exact ⟨.inr ⟨rfl, hvis⟩, fun hne => absurd rfl hne⟩
  rw [if_neg hfr]
  obtain ⟨hfx, h0⟩ := not_or.mp hfr
  have hslot : hdr.tdSlot = w.slot := by
    rcases hsaved.slot with heq | hz
    · exact heq
    · exact absurd hz.1 h0
  have hold : urec.oldXactId = w.writer := by
    rcases hsaved.xid with heq | ⟨-, hz | hz⟩
    · exact heq
    · exact absurd hz hfx
    · exact absurd hz.2 h0
  rw [Store.tdSlotInfo_of_ne h0, hold]
  by_cases heq : w.writer = (s.tds hdr.tdSlot).xactid
  · rw [if_neg (not_not_intro heq)]
    refine ⟨.inl hslot, fun _ _ => ?_⟩
    by_cases htd : hdr.tdSlot = td
    · -- the same slot: the version below is of `x` too and keeps it
      rw [htd] at heq hslot ⊢
      have hww : w.writer = x := heq.trans hxid
      rw [hww]
      refine h.slotXid_popUndo_of_version hc hxid htop hin hslot.symm hww fun hentry => ?_
      have hord := h.version_order urec.offset
      rw [htop.versions] at hord
      have hlt := ((pairwise_cons.mp hord).1 w hw).1
      have hurp : w.urp = v.urp := congrArg Prod.fst hentry
      omega
    · rw [tds_popUndo_of_ne htd]
      exact heq.symm
  · rw [if_pos heq]
    exact ⟨.inl hslot, nofun⟩

/-- The row after the undo, against the version below the undone one. -/
theorem Inv.rowOk_undoRow :
    RowOk (s.Visible n) s.Committed (s.popUndo x td urec).tds (undoRow s urec (.normal t)) vs := by
  have hlink := h.version_links urec.offset
  have hrow := h.rows urec.offset
  rw [htop.versions] at hlink hrow
  rw [htop.row] at hrow
  obtain ⟨u, rest, hcons, ht⟩ := hrow
  obtain ⟨rfl, rfl⟩ := List.cons.inj hcons
  have hurec : v.urec = urec := congrArg Prod.snd htop.entry
  by_cases hop : urec.data.op = .new
  · rw [undoRow_insert hop]
    exact hlink.1.new (by rw [Version.op, hurec]; exact hop)
  rw [undoRow_normal hop]
  have hop' : v.op ≠ .new := by rw [Version.op, hurec]; exact hop
  obtain ⟨w, rest', rfl, hsaved, hfits⟩ := hlink.1.saved hop' t.hdr
  rw [hurec] at hsaved hfits
  have hkeep := tidOp_restoreXact s urec (headerFromUndo urec t.hdr)
  refine ⟨w, rest', rfl, hkeep.1.trans hsaved.op, fun hd => ?_,
    h.stamped_restoreXact hc hxid htop (.head _) hsaved,
    fun h3 => absurd h3 (by decide : ¬FirstNormalTransactionId ≤ FrozenTransactionId),
    fun _ => hfits t.body fun hmod => ht.body (by rw [hmod]; simp)⟩
  rw [hkeep.1]
  exact hsaved.flags (hkeep.2 ▸ hd)

/-- Undoing the newest record of a transaction that has not committed. -/
theorem Inv.popUndo (hx : x ≠ InvalidTransactionId) : Inv n (s.popUndo x td urec) := by
  have hslots := h.slotsOk_popUndo hc hxid htop hx
  have hput := put_popUndo x htop
  have hvers := versions_popUndo s x td urec
  have hrows := rows_popUndo s x td urec
  have hurec : v.urec = urec := congrArg Prod.snd htop.entry
  have hsub : ∀ off', ∀ u ∈ (s.popUndo x td urec).versions off', u ∈ s.versions off' :=
    fun off' u hu => hput.mem_versions.mpr (.inr hu)
  -- a row that is still in use was in use, and its life has lost one version
  have hlife : ∀ off', (s.popUndo x td urec).rows off' ≠ .unused → s.rows off' ≠ .unused ∧
      ∀ u ∈ incarnation ((s.popUndo x td urec).versions off'), u ∈ incarnation (s.versions off') := by
    intro off' hne
    rw [hput.rows, hput.versions]
    by_cases heq : off' = v.urec.offset
    · rw [if_pos heq, if_pos heq]
      refine ⟨nofun, fun u hu => mem_incarnation_cons.mpr (.inr ⟨fun hnew => hne ?_, hu⟩)⟩
      rw [Version.op, hurec] at hnew
      rw [hrows, if_pos (heq.trans (congrArg _ hurec))]
      exact undoRow_insert hnew
    · rw [if_neg heq, if_neg heq]
      exact ⟨hne, fun u hu => hu⟩
  have hentry : ∀ off', ∀ u ∈ (s.popUndo x td urec).versions off', u.entry ≠ v.entry := by
    intro off' u hu hue
    have huoff := (h.version_range off' u (hsub off' u hu)).1
    have hsame : u.urec = v.urec := congrArg Prod.snd hue
    have hurp : u.urp = v.urp := congrArg Prod.fst hue
    have hlt := ((hput.pairwise.mp (h.version_order off')).1 (by rw [← huoff, hsame]) u hu).1
    omega
  refine ⟨hslots, h.admissible, fun off' hout => ?_,
    fun td' off' => (hput.chain_versions td').mp (h.chain_versions td' off'),
    fun off' u hu hneed => ?_,
    fun off' hne u hu => h.version_slot off' (hlife off' hne).1 u ((hlife off' hne).2 u hu),
    fun off' => (hput.pairwise.mp (h.version_order off')).2,
    fun off' u hu => h.version_range off' u (hsub off' u hu),
    fun off' => (hput.linksOk.mp (h.version_links off')).2, fun off' => ?_⟩
  · by_contra hne
    exact (hlife off' hne).1 (h.rows_out off' hout)
  · -- what is still needed is not the record that went
    have hmem := h.version_kept off' u (hsub off' u hu)
      (hneed.imp_right fun hz => ⟨hz.1, (hlife off' hz.2.1).1, (hlife off' hz.2.1).2 u hz.2.2⟩)
    rw [hput.chain] at hmem
    split at hmem
    · exact (mem_cons.mp hmem).resolve_left (hentry off' u hu)
    · exact hmem
  · rw [hrows]
    by_cases ho : off' = urec.offset
    · rw [if_pos ho, hvers, if_pos ho, htop.row, htop.versions]
      exact h.rowOk_undoRow hc hxid htop
    rw [if_neg ho, hvers, if_neg ho]
    refine RowOk.of_tds (h.rows off') fun td' u hu huslot hux => ?_
    by_cases htd : td' = td
    · subst htd
      have huw : u.writer = x := hux.symm.trans hxid
      rw [huw]
      refine h.slotXid_popUndo_of_version hc hxid htop hu huslot.symm huw (hentry off' u ?_)
      rw [hvers, if_neg ho]
      exact hu
    · rw [tds_popUndo_of_ne htd]
      exact hux

end PopUndo

end OpenGauss.Visibility
