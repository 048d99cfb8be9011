import OpenGauss.Visibility.RowSteps

/-!
# Rollback on the page and the reservation of slots

`ExecuteUndoActionsPage` undoes an aborted transaction record by record until
the page has no slot of it; `UHeapPageReserveTransactionSlot` hands out the
writer's own slot or a free one, which it may have to make by freezing,
invalidating, rolling back or extending.
-/

namespace OpenGauss.Visibility

open Lib

variable {n : Nat} {s : Store} {off x : Nat}

/-! ## Rollback -/

theorem Inv.rows_of_pageEmpty (h : Inv n s) (hempty : s.pageEmpty = true) (off : Nat) :
    s.rows off = .unused := by
  by_cases hout : off = 0 ∨ s.maxoff < off
  · exact h.rows_out off hout
  unfold Store.pageEmpty at hempty
  rw [List.all_eq_true] at hempty
  have hrow := hempty (off - 1) (List.mem_range.mpr (by omega))
  rw [show off - 1 + 1 = off by omega] at hrow
  exact eq_of_beq hrow

theorem Inv.visible_of_unused (h : Inv n s) (hrow : s.rows off = .unused) {v : Version}
    (hv : v ∈ s.versions off) : s.Visible n v.writer := by
  have hfreed := h.rows off
  rw [hrow] at hfreed
  rcases hfreed with hnil | ⟨u, rest, hcons, -, hvis⟩
  · rw [hnil] at hv
    cases hv
  have hin := hv
  rw [hcons] at hin
  rcases List.mem_cons.mp hin with rfl | hin
  · exact hvis
  · exact h.visible_below [] hcons hvis hin

/-- Initialising a page without rows drops all slots and chains: nobody needs
them. -/
theorem Inv.pageInit (h : Inv n s) (hempty : s.pageEmpty = true) : Inv n s.pageInit := by
  have hunused := h.rows_of_pageEmpty hempty
  have hs := h.slots
  have hchain : ∀ td, s.pageInit.tdChain td = [] := fun _ => chain_zero _
  refine ⟨⟨hs.xacts.congr rfl, hs.linked, fun _ => Nat.zero_le _, fun _ _ => rfl, hs.discard_old,
    fun _ hne => absurd rfl hne, fun _ hne => absurd rfl hne, fun _ hne => absurd rfl hne,
    fun _ _ hne => absurd rfl hne, fun td e he => ?_, fun td => ?_⟩, h.admissible,
    fun _ _ => rfl, fun td off' => ?_, fun off' v hv hneed => ?_, fun _ hne => absurd rfl hne,
    h.version_order, h.version_range, h.version_links, fun off' => ?_⟩
  · rw [hchain] at he
    cases he
  · rw [hchain]
    exact List.Pairwise.nil
  · rw [hchain]
    exact List.nil_prefix
  · rcases hneed with hinv | hz
    · exact absurd (h.visible_of_unused (hunused off') hv) hinv
    · exact absurd rfl hz.2.1
  · have hrow := h.rows off'
    rw [hunused off'] at hrow
    exact hrow

/-- One round of `UHeapUndoActions`, as an undone record or no slot at all. -/
theorem Inv.uheapUndoActions_cases (h : Inv n s) (hx : x ≠ InvalidTransactionId)
    (hc : ¬s.Committed x) :
    s.slotOf x = none ∧ uheapUndoActions s x = s ∨
    ∃ td urec v vs t, s.slotOf x = some td ∧ (s.tds td).xactid = x ∧ UndoTop s td urec v vs t ∧
      ((s.popUndo x td urec).pageEmpty = true ∧
          uheapUndoActions s x = (s.popUndo x td urec).pageInit ∨
        uheapUndoActions s x = s.popUndo x td urec) := by
  unfold uheapUndoActions
  cases hslot : s.slotOf x with
  | none => exact .inl ⟨rfl, rfl⟩
  | some td =>
    have hxid := (slotOf_eq_some hslot).2.2
    obtain ⟨urec, v, vs, t, htop, -⟩ := h.undoTop hx hc hxid
    refine .inr ⟨td, urec, v, vs, t, rfl, hxid, htop, ?_⟩
    simp only [htop.load]
    split_ifs with hinit
    · exact .inl ⟨hinit.2, rfl⟩
    · exact .inr rfl

theorem Inv.uheapUndoActions (h : Inv n s) (hx : x ≠ InvalidTransactionId) (hc : ¬s.Committed x) :
    Inv n (uheapUndoActions s x) := by
  rcases h.uheapUndoActions_cases hx hc with
    ⟨-, heq⟩ | ⟨td, urec, v, vs, t, -, hxid, htop, ⟨hempty, heq⟩ | heq⟩
  · rw [heq]
    exact h
  · rw [heq]
    exact (h.popUndo hc hxid htop hx).pageInit hempty
  · rw [heq]
    exact h.popUndo hc hxid htop hx

theorem xactState_uheapUndoActions (s : Store) (x : Nat) :
    (uheapUndoActions s x).xactState = s.xactState := by
  unfold uheapUndoActions
  split
  · rfl
  split
  · rfl
  · simp only
    split_ifs <;> rfl

theorem committed_of_xactState {s' : Store} (heq : s'.xactState = s.xactState) (x : Nat) :
    s'.Committed x ↔ s.Committed x := by
  unfold Store.Committed
  rw [show s'.ended = s.ended from congrArg Prod.fst heq]

theorem xactState_executeUndoActionsPage (x passes : Nat) (s : Store) :
    (executeUndoActionsPage x passes s).xactState = s.xactState := by
  induction passes generalizing s with
  | zero => rfl
  | succ passes ih =>
    unfold executeUndoActionsPage
    split
    · rfl
    · rw [ih, xactState_uheapUndoActions]

theorem Inv.executeUndoActionsPage (h : Inv n s) (hx : x ≠ InvalidTransactionId)
    (hc : ¬s.Committed x) (passes : Nat) : Inv n (executeUndoActionsPage x passes s) := by
  induction passes generalizing s with
  | zero => exact h
  | succ passes ih =>
    unfold Visibility.executeUndoActionsPage
    split
    · exact h
    refine ih (h.uheapUndoActions hx hc) ?_
    rw [committed_of_xactState (xactState_uheapUndoActions s x)]
    exact hc

/-- The rollback ends: each round moves the slot to an older record, and with
as many rounds as the newest record's position allows no slot of the
transaction is left. -/
theorem Inv.slotOf_executeUndoActionsPage (h : Inv n s) (hx : x ≠ InvalidTransactionId)
    (hc : ¬s.Committed x) {passes : Nat}
    (hpass : ∀ td, s.slotOf x = some td → (s.tds td).undoRecordPtr < passes) :
    (Visibility.executeUndoActionsPage x passes s).slotOf x = none := by
  induction passes generalizing s with
  | zero =>
    cases hslot : s.slotOf x with
    | none => exact hslot
    | some td => exact absurd (hpass td hslot) (Nat.not_lt_zero _)
  | succ passes ih =>
    unfold Visibility.executeUndoActionsPage
    split
    · assumption
    refine ih (h.uheapUndoActions hx hc) ?_ fun td' htd' => ?_
    · rw [committed_of_xactState (xactState_uheapUndoActions s x)]
      exact hc
    · have hxid' := (slotOf_eq_some htd').2.2
      rcases h.uheapUndoActions_cases hx hc with
        ⟨hnone, -⟩ | ⟨td, urec, v, vs, t, hslot, hxid, htop, ⟨-, heq⟩ | heq⟩
      · simp_all
      · rw [heq] at hxid'
        exact absurd hxid'.symm hx
      · rw [heq] at hxid' ⊢
        have hsame : td' = td := by
          by_contra hne
          rw [tds_popUndo_of_ne hne] at hxid'
          exact hne (h.slots.slot_unique td' td (hxid' ▸ hx) (hxid'.trans hxid.symm))
        rw [hsame, undoRecordPtr_popUndo]
        have := hpass td hslot
        have := htop.blkprev_lt
        omega

/-! ## Freeing slots -/

theorem xactState_rollbackSlots (xids : Nat → Nat) (passes : Nat) (slots : List Nat) (s : Store) :
    (slots.foldl (fun s' td => executeUndoActionsPage (xids td) passes s') s).xactState =
      s.xactState := by
  induction slots generalizing s with
  | nil => rfl
  | cons td slots ih => rw [List.foldl_cons, ih, xactState_executeUndoActionsPage]

theorem Inv.rollbackSlots (h : Inv n s) (xids : Nat → Nat) (passes : Nat) {slots : List Nat}
    (hslots : ∀ td ∈ slots, xids td ≠ InvalidTransactionId ∧ ¬s.Committed (xids td)) :
    Inv n (slots.foldl (fun s' td => Visibility.executeUndoActionsPage (xids td) passes s') s) := by
  induction slots generalizing s with
  | nil => exact h
  | cons td slots ih =>
    obtain ⟨hne, hc⟩ := hslots td (.head _)
    rw [List.foldl_cons]
    refine ih (h.executeUndoActionsPage hne hc passes) fun td' htd' => ?_
    rw [committed_of_xactState (xactState_executeUndoActionsPage (xids td) passes s)]
    exact hslots td' (.tail _ htd')

theorem xactState_uheapPageFreezeTransSlots (s : Store) :
    (uheapPageFreezeTransSlots s).2.2.xactState = s.xactState := by
  unfold uheapPageFreezeTransSlots
  simp only
  split_ifs
  · rfl
  · rfl
  · exact xactState_rollbackSlots _ _ _ s
  · rfl

/-- What `UHeapPageFreezeTransSlots` does on a page without a free slot: it
freezes, invalidates, rolls back, or leaves the page as it is. -/
theorem Inv.uheapPageFreezeTransSlots (h : Inv n s)
    (hfull : ∀ td, td ≠ 0 → td ≤ s.tdCount → (s.tds td).xactid ≠ InvalidTransactionId) :
    Inv n (uheapPageFreezeTransSlots s).2.2 ∧
      ((uheapPageFreezeTransSlots s).2.1 = false →
        (∃ slots, (uheapPageFreezeTransSlots s).2.2 = s.freezeSlots slots) ∨
        (∃ slots, (uheapPageFreezeTransSlots s).2.2 = s.invalidateSlots slots) ∨
        (uheapPageFreezeTransSlots s).2.2 = s) := by
  unfold Visibility.uheapPageFreezeTransSlots
  simp only
  split_ifs with hfrozen hcompleted haborted
  · refine ⟨h.freezeSlots fun td htd => ?_, fun _ => .inl ⟨_, rfl⟩⟩
    obtain ⟨h0, hle, hold⟩ := mem_slotsWith.mp htd
    exact ⟨h0, hfull td h0 hle, by simpa [Store.olderThanAllUndo] using hold⟩
  · refine ⟨h.invalidateSlots fun td htd => ?_, fun _ => .inr (.inl ⟨_, rfl⟩)⟩
    obtain ⟨-, -, hcom⟩ := mem_slotsWith.mp htd
    rw [Bool.and_eq_true] at hcom
    exact (didCommit_iff _).mp hcom.2
  · refine ⟨h.rollbackSlots (fun td => (s.tds td).xactid) (s.log.length + 1)
      fun td htd => ?_, by simp⟩
    obtain ⟨h0, hle, hab⟩ := mem_slotsWith.mp htd
    rw [Bool.and_eq_true, Bool.not_eq_true', Bool.not_eq_true'] at hab
    refine ⟨hfull td h0 hle, fun hc => ?_⟩
    rw [(didCommit_iff _).mpr hc] at hab
    cases hab.2
  · exact ⟨h, fun _ => .inr (.inr rfl)⟩

/-! ## Reserving -/

/-- What a reservation may do to a row that is then written. -/
def RowKept (rp rp' : RowPtr) : Prop :=
  (rp = .unused → rp' = .unused) ∧
  ∀ t', rp' = .normal t' → ∃ t, rp = .normal t ∧
    (t.hdr.tdSlot = UHEAPTUP_SLOT_FROZEN → t'.hdr.tdSlot = UHEAPTUP_SLOT_FROZEN)

theorem RowKept.refl (rp : RowPtr) : RowKept rp rp := ⟨id, fun t' ht' => ⟨t', ht', id⟩⟩

theorem rowKept_freezeOrInvalidate (slots : List Nat) (isFrozen : Bool) (rp : RowPtr) :
    RowKept rp (rp.freezeOrInvalidate slots isFrozen) := by
  refine ⟨fun hrp => by rw [hrp]; rfl, fun t' ht' => ?_⟩
  cases rp with
  | unused => cases ht'
  | deleted tdSlot invalidXact =>
    simp only [RowPtr.freezeOrInvalidate] at ht'
    split_ifs at ht'
  | normal t =>
    refine ⟨t, rfl, fun h0 => ?_⟩
    simp only [RowPtr.freezeOrInvalidate, RowPtr.setFrozen] at ht'
    split_ifs at ht'
    · rw [← RowPtr.normal.inj ht']
    · rw [← RowPtr.normal.inj ht']
      exact h0
    · rw [← RowPtr.normal.inj ht']
      exact h0

/-- The reserved page: the history is the one before, and the slot is the
writer's or free. -/
structure Reserved (s s' : Store) (x td : Nat) : Prop where
  slot : s'.SlotFor x td
  versions : s'.versions = s.versions
  rows : ∀ off, RowKept (s.rows off) (s'.rows off)

theorem slotFor_of_slotOf_free {td : Nat} (hnone : ∀ td', (s.tds td').xactid ≠ x)
    (hfree : s.slotOf InvalidTransactionId = some td) : s.SlotFor x td := by
  obtain ⟨h0, hle, hxid⟩ := slotOf_eq_some hfree
  exact ⟨h0, hle, .inr ⟨hxid, hnone⟩⟩

theorem xactState_uheapPageReserveTransactionSlot (s : Store) (x nExtended : Nat) :
    (uheapPageReserveTransactionSlot s x nExtended).1.xactState = s.xactState := by
  have hfreeze := xactState_uheapPageFreezeTransSlots s
  unfold uheapPageReserveTransactionSlot
  generalize uheapPageFreezeTransSlots s = res at hfreeze ⊢
  obtain ⟨freed, unlocked, s'⟩ := res
  split
  · rfl
  · rfl
  cases freed with
  | false =>
    simp only
    split_ifs
    · rfl
    · rfl
  | true => cases unlocked <;> exact hfreeze

/-- `UHeapPageReserveTransactionSlot` for a transaction in progress. -/
theorem Inv.uheapPageReserveTransactionSlot (h : Inv n s) (hx : s.isInProgress x = true)
    (nExtended : Nat) :
    Inv n (uheapPageReserveTransactionSlot s x nExtended).1 ∧
      ∀ td, (uheapPageReserveTransactionSlot s x nExtended).2 = some td →
        Reserved s (uheapPageReserveTransactionSlot s x nExtended).1 x td := by
  have hx0 : x ≠ InvalidTransactionId := by
    have h3 := ((isInProgress_iff x).mp hx).1
    rintro rfl
    exact absurd h3 (by decide)
  have hsame : ∀ {td}, s.SlotFor x td → Reserved s s x td := fun hslot =>
    ⟨hslot, rfl, fun _ => RowKept.refl _⟩
  unfold Visibility.uheapPageReserveTransactionSlot
  cases hown : s.slotOf x with
  | some td =>
    refine ⟨h, fun td' htd' => ?_⟩
    obtain rfl := Option.some.inj htd'
    obtain ⟨h0, hle, hxid⟩ := slotOf_eq_some hown
    exact hsame ⟨h0, hle, .inl hxid⟩
  | none =>
    have hnone := slotOf_eq_none h.slots hx0 hown
    cases hfree : s.slotOf InvalidTransactionId with
    | some td =>
      refine ⟨h, fun td' htd' => ?_⟩
      obtain rfl := Option.some.inj htd'
      exact hsame (slotFor_of_slotOf_free hnone hfree)
    | none =>
      -- no slot is free: some are frozen or invalidated, or the page gets more
      have hfull : ∀ td, td ≠ 0 → td ≤ s.tdCount → (s.tds td).xactid ≠ InvalidTransactionId := by
        intro td h0 hle hxid
        have hin : td ∈ s.slotsWith (fun y => y == InvalidTransactionId) :=
          mem_slotsWith.mpr ⟨h0, hle, by simpa using hxid⟩
        rw [List.head?_eq_none_iff.mp hfree] at hin
        cases hin
      have hcleared : ∀ {c : Prop} [Decidable c] {slot : TD}, slot.xactid = InvalidTransactionId →
          ∀ td', (if c then slot else s.tds td').xactid ≠ x := by
        intro c _ slot hslot td'
        split_ifs
        · exact fun heq => hx0 (heq.symm.trans hslot)
        · exact hnone td'
      obtain ⟨hinv, hkind⟩ := h.uheapPageFreezeTransSlots hfull
      simp only
      generalize Visibility.uheapPageFreezeTransSlots s = res at hinv hkind ⊢
      obtain ⟨freed, unlocked, s'⟩ := res
      cases freed with
      | false =>
        simp only
        split_ifs with hext
        · refine ⟨h.extendTDSlots nExtended, fun td htd => ?_⟩
          obtain rfl := Option.some.inj htd
          have hnew : (s.extendTDSlots nExtended).tds (s.tdCount + 1) = .empty :=
            if_pos ⟨by omega, by omega⟩
          refine ⟨⟨by omega, ?_, .inr ⟨by rw [hnew]; rfl, fun td' => ?_⟩⟩, rfl,
            fun _ => RowKept.refl _⟩
          · change s.tdCount + 1 ≤ s.tdCount + nExtended
            omega
          · exact hcleared rfl td'
        · exact ⟨h, nofun⟩
      | true =>
        cases unlocked with
        | true => exact ⟨hinv, nofun⟩
        | false =>
          refine ⟨hinv, fun td htd => ?_⟩
          simp only at hinv htd ⊢
          have hslot : ∀ hnone' : ∀ td', (s'.tds td').xactid ≠ x, s'.SlotFor x td := fun hnone' =>
            slotFor_of_slotOf_free hnone' htd
          rcases hkind rfl with ⟨slots, heq⟩ | ⟨slots, heq⟩ | heq
          · simp only at heq
            subst heq
            exact ⟨hslot fun td' => hcleared rfl td', rfl,
              fun off' => rowKept_freezeOrInvalidate _ _ _⟩
          · simp only at heq
            subst heq
            exact ⟨hslot fun td' => hcleared rfl td', rfl,
              fun off' => rowKept_freezeOrInvalidate _ _ _⟩
          · simp only at heq
            subst heq
            exact hsame (hslot hnone)

end OpenGauss.Visibility
