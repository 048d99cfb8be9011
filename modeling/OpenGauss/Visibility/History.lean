import OpenGauss.Visibility.Writes

/-!
# Snapshot reads over all histories

Every step keeps the invariant for a snapshot as long as the horizons stay
behind what had ended when the snapshot was taken. Horizons only move
forwards, so a snapshot that is admissible now has been so all along, and the
invariant holds of every reachable store.
-/

namespace OpenGauss.Visibility

open Lib

variable {n : Nat} {s s' : Store} {e : Event}

/-! ## What a step does to transactions and horizons -/

/-- No transaction ends and no horizon moves back. -/
structure HorizonsMoved (s s' : Store) : Prop where
  ended : s'.ended = s.ended
  recycle : s.globalRecycleXid ≤ s'.globalRecycleXid
  frozen : s.globalFrozenXid ≤ s'.globalFrozenXid
  prune : s.pruneXmin ≤ s'.pruneXmin

theorem HorizonsMoved.of_xactState (heq : s'.xactState = s.xactState) : HorizonsMoved s s' := by
  simp only [Store.xactState, Prod.mk.injEq] at heq
  obtain ⟨h1, -, h3, h4, h5⟩ := heq
  exact ⟨h1, h3.ge, h4.ge, h5.ge⟩

theorem xactState_uheapInsert (s : Store) (x off : Nat) (body : List UInt8) (nExtended : Nat) :
    (uheapInsert s x off body nExtended).xactState = s.xactState := by
  have hstate := xactState_uheapPageReserveTransactionSlot s x nExtended
  unfold uheapInsert
  generalize uheapPageReserveTransactionSlot s x nExtended = res at hstate ⊢
  obtain ⟨s', otd⟩ := res
  cases otd with
  | none => exact hstate
  | some td =>
    simp only
    split_ifs <;> exact hstate

theorem xactState_writeRow (s : Store) (x : Nat) (snap : Snapshot) (off nExtended : Nat)
    {put : UHeapTuple → Store → Nat → UHeapTuple → Store}
    (hput : ∀ t s' td t', (put t s' td t').xactState = s'.xactState) :
    (writeRow s x snap off nExtended put).xactState = s.xactState :=
  writeRow_rule (P := (Store.xactState · = s.xactState)) rfl
    (xactState_uheapPageReserveTransactionSlot s x nExtended)
    fun t s' td t' _ _ _ _ hstate => (hput t s' td t').trans hstate

theorem xactState_uheapTupleFetch (s : Store) (snap : Snapshot) (off : Nat) :
    (uheapTupleFetch s snap off).2.xactState = s.xactState := by
  unfold uheapTupleFetch
  cases s.rows off with
  | unused | deleted => rfl
  | normal t =>
    simp only
    split_ifs <;> rfl

theorem XactsOk.withHorizons (h : XactsOk s) {recycle frozen prune next : Nat}
    (hnext : s.nextXid ≤ next) (hr : s.EndedBelow recycle) (hf : s.EndedBelow frozen)
    (hp : s.EndedBelow prune) : XactsOk (s.withHorizons recycle frozen prune next) := by
  have hbelow : ∀ x, s.EndedBelow x → (s.withHorizons recycle frozen prune next).EndedBelow x :=
    fun x hx => ⟨hx.1.trans hnext, hx.2⟩
  exact ⟨h.ended_nodup, fun x hx => ⟨(h.ended_range x hx).1, (h.ended_range x hx).2.trans_le hnext⟩,
    hbelow _ hr, hbelow _ hf, hbelow _ hp⟩

theorem Store.EndedBelow.max {x y : Nat} (hx : s.EndedBelow x) (hy : s.EndedBelow y) :
    s.EndedBelow (max x y) := by
  refine ⟨Nat.max_le.mpr ⟨hx.1, hy.1⟩, fun z hz h3 => ?_⟩
  rcases lt_max_iff.mp hz with hz | hz
  · exact hx.2 z hz h3
  · exact hy.2 z hz h3

theorem of_guard {α : Type} {p : Prop} [Decidable p] {a b : α}
    (h : (if p then some a else none) = some b) : p ∧ a = b := by
  simpa using h

/-- A step ends one transaction or moves horizons. -/
theorem step_xacts (h : XactsOk s) (hstep : step s e = some s') :
    (∃ x commit, s.isInProgress x = true ∧ s' = s.endXact x commit) ∨
      XactsOk s' ∧ HorizonsMoved s s' := by
  have hpage : s'.xactState = s.xactState → XactsOk s' ∧ HorizonsMoved s s' := fun heq =>
    ⟨h.congr heq, .of_xactState heq⟩
  cases e with
  | start =>
    cases hstep
    refine .inr ⟨?_, rfl, le_rfl, le_rfl, le_rfl⟩
    exact h.withHorizons (Nat.le_succ _) h.below_recycle h.below_frozen h.below_prune
  | commit x =>
    obtain ⟨hx, rfl⟩ := of_guard hstep
    exact .inl ⟨x, true, hx, rfl⟩
  | abort x =>
    obtain ⟨hx, rfl⟩ := of_guard hstep
    exact .inl ⟨x, false, hx, rfl⟩
  | insert x off body nExtended =>
    exact .inr (hpage ((of_guard hstep).2 ▸ xactState_uheapInsert s x off body nExtended))
  | update x snap off w nExtended =>
    exact .inr (hpage ((of_guard hstep).2 ▸ xactState_writeRow s x snap off nExtended fun _ _ _ _ => rfl))
  | delete x snap off nExtended =>
    exact .inr (hpage ((of_guard hstep).2 ▸ xactState_writeRow s x snap off nExtended fun _ _ _ _ => rfl))
  | undo x =>
    exact .inr (hpage ((of_guard hstep).2 ▸ xactState_uheapUndoActions s x))
  | prune off oldestXmin pageFull fixedLen =>
    obtain ⟨⟨hbelow, -⟩, rfl⟩ := of_guard hstep
    refine .inr ⟨?_, rfl, le_rfl, le_rfl, le_max_left _ _⟩
    exact (h.withHorizons le_rfl h.below_recycle h.below_frozen (h.below_prune.max hbelow)).congr rfl
  | read snap off =>
    cases hstep
    exact .inr (hpage (xactState_uheapTupleFetch s snap off))
  | setFrozenXid x =>
    obtain ⟨⟨hle, hok⟩, rfl⟩ := of_guard hstep
    refine .inr ⟨?_, rfl, le_rfl, hle, le_rfl⟩
    exact h.withHorizons le_rfl h.below_recycle hok.1 h.below_prune
  | setRecycleXid x =>
    obtain ⟨⟨hle, hok⟩, rfl⟩ := of_guard hstep
    refine .inr ⟨?_, rfl, hle, le_rfl, le_rfl⟩
    exact h.withHorizons le_rfl hok.1 h.below_frozen h.below_prune
  | discard urp =>
    simp only [step] at hstep
    split at hstep
    · split_ifs at hstep
      cases hstep
      exact .inr (hpage rfl)
    · cases hstep

theorem XactsOk.step (h : XactsOk s) (hstep : step s e = some s') : XactsOk s' := by
  rcases step_xacts h hstep with ⟨x, commit, hx, rfl⟩ | ⟨hs', -⟩
  · exact h.endXact hx commit
  · exact hs'

/-- A snapshot that is admissible after a step was so before it. -/
theorem Store.Admissible.of_step (h : XactsOk s) (hstep : Visibility.step s e = some s')
    (hadm : s'.Admissible n) : s.Admissible n := by
  intro y h3 hold
  rcases step_xacts h hstep with ⟨x, commit, hx, rfl⟩ | ⟨-, hmoved⟩
  · -- what is below a horizon had ended before `x` did
    have hseen := hadm y h3 hold
    have hend : s.hasEnded y = true := by
      rcases hold with hlt | hlt | hlt
      · exact h.below_recycle.2 y hlt h3
      · exact h.below_frozen.2 y hlt h3
      · exact h.below_prune.2 y hlt h3
    have hne : y ≠ x := by
      rintro rfl
      exact ((isInProgress_iff y).mp hx).2.2 ((hasEnded_iff y).mp hend)
    unfold Store.Seen Store.endXact at hseen
    rw [List.take_append, List.map_append, List.mem_append] at hseen
    rcases hseen with hin | hin
    · exact hin
    obtain ⟨p, hp, rfl⟩ := List.mem_map.mp hin
    rw [List.mem_singleton.mp (List.mem_of_mem_take hp)] at hne
    exact absurd rfl hne
  · have hseen := hadm y h3 (hold.imp hmoved.recycle.trans_lt'
      (Or.imp hmoved.frozen.trans_lt' hmoved.prune.trans_lt'))
    unfold Store.Seen at hseen ⊢
    rwa [hmoved.ended] at hseen

/-! ## The invariant along histories -/

theorem Inv.initial (initTd : Nat) : Inv n (.initial initTd) := by
  have hchain : ∀ td, (Store.initial initTd).tdChain td = [] := fun _ => chain_zero _
  have hbelow : (Store.initial initTd).EndedBelow 0 := ⟨Nat.zero_le _, nofun⟩
  refine ⟨⟨⟨List.nodup_nil, nofun, hbelow, hbelow, hbelow⟩,
    nofun, fun _ => Nat.zero_le _, fun _ _ => rfl, nofun,
    fun _ hne => absurd rfl hne, fun _ hne => absurd rfl hne, fun _ hne => absurd rfl hne,
    fun _ _ hne => absurd rfl hne, fun td e he => ?_, fun td => ?_⟩, fun x _ hold => ?_,
    fun _ _ => rfl, fun td off => ?_, nofun, fun _ hne => absurd rfl hne,
    fun _ => List.Pairwise.nil, nofun, fun _ => trivial, fun _ => .inl rfl⟩
  · rw [hchain] at he
    cases he
  · rw [hchain]
    exact List.Pairwise.nil
  · rcases hold with hlt | hlt | hlt <;> exact nomatch hlt
  · rw [hchain]
    exact List.nil_prefix

/-- A slot below a horizon that the recycler may move to is of a committed
transaction. -/
theorem SlotsOk.committed_of_horizonOk (h : SlotsOk s) {x td : Nat} (hok : s.HorizonOk x)
    (hne : (s.tds td).xactid ≠ InvalidTransactionId) (hlt : (s.tds td).xactid < x) :
    s.Committed (s.tds td).xactid := by
  have hin : ¬(td = 0 ∨ s.tdCount < td) := by
    intro hout
    rw [h.tds_out td hout] at hne
    exact hne rfl
  have hcom := hok.2 (td - 1) (by omega)
  rw [show td - 1 + 1 = td by omega] at hcom
  exact (didCommit_iff _).mp (hcom (h.slot_range td hne).1 hlt)

theorem Inv.step (h : Inv n s) (hstep : step s e = some s') (hadm : s'.Admissible n) :
    Inv n s' := by
  have hxacts := h.slots.xacts.step hstep
  cases e with
  | start =>
    cases hstep
    exact h.withHorizons hxacts (Nat.le_succ _) le_rfl h.slots.slot_old hadm
  | commit x =>
    obtain ⟨hx, rfl⟩ := of_guard hstep
    exact h.endXact hx true hadm
  | abort x =>
    obtain ⟨hx, rfl⟩ := of_guard hstep
    exact h.endXact hx false hadm
  | insert x off body nExtended =>
    obtain ⟨⟨hx, hrow, hoff, -⟩, rfl⟩ := of_guard hstep
    exact h.uheapInsert hx hrow (Nat.ne_of_gt hoff) body nExtended
  | update x snap off w nExtended =>
    obtain ⟨hx, rfl⟩ := of_guard hstep
    exact h.uheapUpdate hx w nExtended
  | delete x snap off nExtended =>
    obtain ⟨hx, rfl⟩ := of_guard hstep
    exact h.uheapDelete hx nExtended
  | undo x =>
    obtain ⟨⟨hend, hcom⟩, rfl⟩ := of_guard hstep
    refine h.uheapUndoActions ?_ fun hc => ?_
    · rintro rfl
      have h3 := (h.slots.xacts.ended_range _ ((hasEnded_iff _).mp hend)).1
      exact absurd h3 (by decide)
    · rw [(didCommit_iff x).mpr hc] at hcom
      cases hcom
  | prune off oldestXmin pageFull fixedLen =>
    obtain ⟨⟨-, hlen⟩, rfl⟩ := of_guard hstep
    have hrow := h.pruneRow (fun y h3 hlt => hadm y h3 (.inr (.inr (lt_max_of_lt_right hlt)))) hlen
      pageFull
    exact (h.setRow hrow pruneRow_unused).withHorizons hxacts le_rfl le_rfl h.slots.slot_old hadm
  | read snap off =>
    cases hstep
    exact h.uheapTupleFetch
  | setFrozenXid x =>
    obtain ⟨⟨hle, hok⟩, rfl⟩ := of_guard hstep
    refine h.withHorizons hxacts le_rfl le_rfl (fun td hne hold => ?_) hadm
    rcases hold with hlt | hlt
    · exact h.slots.slot_old td hne (.inl hlt)
    · exact h.slots.committed_of_horizonOk hok hne hlt
  | setRecycleXid x =>
    obtain ⟨⟨hle, hok⟩, rfl⟩ := of_guard hstep
    refine h.withHorizons hxacts le_rfl hle (fun td hne hold => ?_) hadm
    rcases hold with hlt | hlt
    · exact h.slots.committed_of_horizonOk hok hne hlt
    · exact h.slots.slot_old td hne (.inr hlt)
  | discard urp =>
    simp only [Visibility.step] at hstep
    split at hstep; swap
    · cases hstep
    rename_i urec hload
    split_ifs at hstep with hold
    cases hstep
    exact h.discard hload (by simpa [Store.olderThanAllUndo] using hold)

theorem Reachable.xacts {initTd : Nat} (h : Reachable initTd s) : XactsOk s := by
  induction h with
  | initial => exact (Inv.initial (n := 0) initTd).slots.xacts
  | step _ hstep ih => exact ih.step hstep

theorem Reachable.inv {initTd : Nat} (h : Reachable initTd s) (hadm : s.Admissible n) :
    Inv n s := by
  induction h with
  | initial => exact .initial initTd
  | step hs hstep ih => exact (ih (hadm.of_step hs.xacts hstep)).step hstep hadm

/-! ## Reads -/

/-- Whatever has happened to the page, `UHeapTupleFetch` returns the contents
of the newest version visible to the snapshot, or nothing if there is none or
it is a deletion. -/
theorem uheapTupleFetch_newestVisible {initTd : Nat} (h : Reachable initTd s) (snap : Snapshot)
    (hadm : s.Admissible snap.snapshotcsn) (off : Nat) :
    ReadOk (newestVisible s snap (s.versions off)) (uheapTupleFetch s snap off).1 :=
  (h.inv hadm).uheapTupleFetch_spec off

/-- An insert commits and is passed by both horizons, and its slot, the only
one, is taken over by an update that is still in progress. -/
def reusedSlot : Store :=
  (run (.initial 1) [.start, .insert 3 1 [11, 7, 8] 0, .commit 3, .setFrozenXid 4, .setRecycleXid 4,
    .start, .update 4 ⟨4, 1⟩ 1 ⟨[11, 9, 8], [], true, fun _ => rfl⟩ 0]).get (by decide)

theorem reachable_reusedSlot : Reachable 1 reusedSlot :=
  Reachable.initial.run (Option.some_get _).symm

theorem admissible_reusedSlot : reusedSlot.Admissible 1 := by
  intro x h3 hold
  have hx : x < 4 := by
    rcases hold with hlt | hlt | hlt
    · exact hlt
    · exact hlt
    · exact nomatch hlt
  obtain rfl : x = 3 := Nat.le_antisymm (Nat.le_of_lt_succ hx) h3
  unfold Store.Seen
  decide

/-- The reader of a snapshot from before the update goes back through the
undo record. -/
theorem uheapTupleFetch_newestVisible_reusedSlot : (uheapTupleFetch reusedSlot ⟨4, 1⟩ 1).1 =
      .found (some ⟨⟨0, false, false, false⟩, FrozenTransactionId, [11, 7, 8]⟩) ∧
    ReadOk (newestVisible reusedSlot ⟨4, 1⟩ (reusedSlot.versions 1))
      (uheapTupleFetch reusedSlot ⟨4, 1⟩ 1).1 :=
  ⟨by decide, uheapTupleFetch_newestVisible reachable_reusedSlot ⟨4, 1⟩ admissible_reusedSlot 1⟩

theorem rollback_reusedSlot : (executeUndoActionsPage 4 9 reusedSlot).slotOf 4 = none := by
  refine (reachable_reusedSlot.inv admissible_reusedSlot).slotOf_executeUndoActionsPage (by decide)
    (by decide : (4, true) ∉ reusedSlot.ended) fun _ h => ?_
  obtain rfl := Option.some.inj ((by decide : reusedSlot.slotOf 4 = some 1).symm.trans h)
  decide

/-- An insert commits and is passed by the frozen horizon alone. -/
def frozenAhead : Store :=
  (run (.initial 1) [.start, .insert 3 1 [11, 7] 0, .commit 3, .setFrozenXid 4]).get (by decide)

/-- A row is deleted and pruned with a bound above the deletion. -/
def prunedAhead : Store :=
  (run (.initial 1) [.start, .insert 3 1 [11, 7] 0, .commit 3, .start, .delete 4 ⟨4, 1⟩ 1 0, .commit 4,
    .prune 1 5 false none]).get (by decide)

/-- An update in place makes a row shorter. -/
def shortened : Store :=
  (run (.initial 1) [.start, .insert 3 1 [11, 7, 8] 0, .commit 3, .start,
    .update 4 ⟨4, 1⟩ 1 ⟨[11, 9], [8], false, nofun⟩ 0, .commit 4]).get (by decide)

/-- The snapshot sees every transaction below the recycle horizon. -/
def Store.SeesRecycled (s : Store) (n : Nat) : Prop :=
  ∀ x, FirstNormalTransactionId ≤ x → x < s.globalRecycleXid → s.Visible n x

/-- A snapshot older than the frozen horizon, though not than the recycle horizon, reads a row
of which it should see no version; one older than the bound of a pruning misses a row it should
see; and what stood behind data that became shorter is read with them. -/
theorem uheapTupleFetch_not_newestVisible :
    (Reachable 1 frozenAhead ∧ frozenAhead.SeesRecycled 0 ∧
      newestVisible frozenAhead ⟨3, 0⟩ (frozenAhead.versions 1) = none ∧
      (uheapTupleFetch frozenAhead ⟨3, 0⟩ 1).1 =
        .found (some ⟨⟨1, false, false, false⟩, 3, [11, 7]⟩)) ∧
    (Reachable 1 prunedAhead ∧ prunedAhead.SeesRecycled 1 ∧
      (newestVisible prunedAhead ⟨4, 1⟩ (prunedAhead.versions 1)).map Version.contents =
        some (some [11, 7]) ∧
      (uheapTupleFetch prunedAhead ⟨4, 1⟩ 1).1 = .found none) ∧
    Reachable 1 shortened ∧ shortened.SeesRecycled 2 ∧
      (newestVisible shortened ⟨5, 2⟩ (shortened.versions 1)).map Version.contents =
        some (some [11, 9]) ∧
      (uheapTupleFetch shortened ⟨5, 2⟩ 1).1 =
        .found (some ⟨⟨1, true, false, false⟩, 4, [11, 9, 8]⟩) :=
  ⟨⟨Reachable.initial.run (Option.some_get _).symm, nofun, by decide, by decide⟩,
    ⟨Reachable.initial.run (Option.some_get _).symm, nofun, by decide, by decide⟩,
    Reachable.initial.run (Option.some_get _).symm, nofun, by decide, by decide⟩

end OpenGauss.Visibility
