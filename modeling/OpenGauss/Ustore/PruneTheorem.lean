import OpenGauss.Ustore.PruneReplay

/-!
# Pruning loses nothing and replays identically

`UHeapPagePruneGuts` and `UHeapPagePrune` on a well-formed page: no error,
rows that stay keep their bytes, pointers of recently dead rows keep what
readers need, the target is followed by the space asked for, and replaying
the log record on the old page gives the same page.
-/

namespace OpenGauss.Ustore

open Lib

variable {dead : List Nat} {nextXid off : Nat} {r : UPage}

/-- Both pages have the same rows in the same places. -/
structure SameRows (a b : UPage) : Prop where
  rowPtr : a.rowPtr = b.rowPtr
  pdLower : a.pdLower = b.pdLower
  pdUpper : a.pdUpper = b.pdUpper
  data : a.data = b.data

/-- The row at `off` is still there: its bytes up to the length kept, which
is all of them or its true length. A row pointer without a row is unchanged. -/
structure KeepsRow (env : PruneEnv) (p q : UPage) (off : Nat) : Prop where
  flags : (q.rowPtr off).flags = (p.rowPtr off).flags
  bytes : (p.rowPtr off).hasRow → ∃ n ≤ (p.rowPtr off).len,
    (n = (p.rowPtr off).len ∨ n = env.trueLen p off) ∧
      q.rowData (q.rowPtr off) = (p.rowData (p.rowPtr off)).take n
  pointer : (p.rowPtr off).isUsed → ¬ (p.rowPtr off).hasRow → q.rowPtr off = p.rowPtr off

/-- The row pointer at `off` carries slot and slot-reused flag of its row. -/
structure KeepsSlot (p q : UPage) (off : Nat) : Prop where
  isDeleted : (q.rowPtr off).isDeleted
  tdSlot : (q.rowPtr off).tdSlot = (rowTdId (p.rowData (p.rowPtr off))).toNat
  xactInvalid : (q.rowPtr off).visibilityInfo &&& ROWPTR_XACT_INVALID ≠ 0 ↔
    rowFlag (p.rowData (p.rowPtr off)) &&& UHEAP_INVALID_XACT_SLOT ≠ 0

/-- What holds of the page a prune leaves, and of its log record. -/
structure PruneSound (env : PruneEnv) (target spaceRequired : Nat) (p : UPage)
    (out : PruneOutcome) : Prop where
  pdLower : out.page.pdLower = p.pdLower
  wellFormed : out.page.WellFormed
  unpruned : out.pruned = false → SameRows out.page p ∧ out.record = none
  keepsRow : ∀ off ∈ p.offsetNumbers, env.dead p off = false → env.recentlyDead p off = false →
    KeepsRow env p out.page off
  keepsSlot : out.pruned → ∀ off ∈ p.offsetNumbers, env.recentlyDead p off →
    KeepsSlot p out.page off
  unused : ∀ off ∈ p.offsetNumbers, ¬ (out.page.rowPtr off).isUsed →
    ¬ (p.rowPtr off).isUsed ∨ env.dead p off
  room : out.pruned → target ≠ InvalidOffsetNumber →
    (out.page.rowPtr target).offset + (out.page.rowPtr target).len + spaceRequired ≤
        out.page.pdSpecial ∧
      ∀ off ∈ p.offsetNumbers, off ≠ target → (out.page.rowPtr off).hasRow →
        (out.page.rowPtr off).offset + (out.page.rowPtr off).len ≤ (out.page.rowPtr target).offset ∨
          (out.page.rowPtr target).offset + (out.page.rowPtr target).len + spaceRequired ≤
            (out.page.rowPtr off).offset
  replay : out.pruned → ∃ rec, out.record = some rec ∧
    (∃ q, performCleanRedoAction rec p = .ok q ∧ SameRows q out.page) ∧
    (∃ q, uheapXlogCleanOperatorPage rec p = .ok q ∧ SameRows q out.page)

/-- The target is no row, or a row that stays. -/
def LiveTarget (env : PruneEnv) (p : UPage) (target : Nat) : Prop :=
  target = InvalidOffsetNumber ∨
    target ∈ p.offsetNumbers ∧ (p.rowPtr target).isNormal ∧ env.dead p target = false ∧
      env.recentlyDead p target = false

section Outcome

variable {env : PruneEnv} {p : UPage} {isTarget : Nat → Bool} {target spaceRequired : Nat}

theorem UPage.WellFormed.setPruneHint (h : p.WellFormed) (xid : Nat) :
    (p.setPruneHint xid).WellFormed where
  __ := h

theorem applyHint_eq (st : UPruneState) (p : UPage) :
    applyHint st p = p ∨ applyHint st p = p.setPruneHint st.newPruneXid := by
  unfold applyHint
  split
  · exact .inr rfl
  · exact .inl rfl

theorem UPage.WellFormed.applyHint (h : p.WellFormed) (st : UPruneState) :
    (applyHint st p).WellFormed ∧ SameRows (applyHint st p) p := by
  rcases applyHint_eq st p with heq | heq
  · rw [heq]
    exact ⟨h, rfl, rfl, rfl, rfl⟩
  · rw [heq]
    exact ⟨h.setPruneHint _, rfl, rfl, rfl, rfl⟩

theorem pruneSound_of_sameRows {out : PruneOutcome} (hpage : out.page.WellFormed)
    (hsame : SameRows out.page p) (hout : out.pruned = false) (hrec : out.record = none) :
    PruneSound env target spaceRequired p out where
  pdLower := hsame.pdLower
  wellFormed := hpage
  unpruned := fun _ => ⟨hsame, hrec⟩
  keepsRow := by
    intro off _ _ _
    refine ⟨by rw [hsame.rowPtr], fun _ => ⟨_, le_rfl, .inl rfl, ?_⟩, fun _ _ => by
      rw [hsame.rowPtr]⟩
    have hall : (p.rowPtr off).len = (p.rowData (p.rowPtr off)).length := by
      rw [UPage.rowData, Mem.length_read]
    conv_rhs => rw [hall, List.take_length]
    rw [UPage.rowData, UPage.rowData, hsame.data, hsame.rowPtr]
  keepsSlot := fun hp => by simp [hout] at hp
  unused := by
    intro off _ hun
    rw [hsame.rowPtr] at hun
    exact .inl hun
  room := fun hp => by simp [hout] at hp
  replay := fun hp => by simp [hout] at hp

theorem not_fixed_of_isTarget (h : isTarget off = true) : env.fixed p isTarget off = false := by
  simp [PruneEnv.fixed, h]

/-- No verdict is passed on the target. -/
theorem LiveTarget.untouched (htarget : LiveTarget env p target)
    (hself : target ≠ InvalidOffsetNumber → isTarget target = true) :
    target = InvalidOffsetNumber ∨ env.dead p target = false ∧
      env.recentlyDead p target = false ∧ env.fixed p isTarget target = false := by
  rcases htarget with h0 | ⟨hin, _, hd, hr⟩
  · exact .inl h0
  refine .inr ⟨hd, hr, not_fixed_of_isTarget (hself ?_)⟩
  have := (UPage.mem_offsetNumbers.mp hin).1
  simp only [InvalidOffsetNumber]
  omega

theorem LiveTarget.isNormal (htarget : LiveTarget env p target) (isTarget : Nat → Bool)
    (h : p.WellFormed) (hne0 : target ≠ InvalidOffsetNumber) :
    target ∈ p.offsetNumbers ∧ ((prunedPage env isTarget p).rowPtr target).isNormal := by
  obtain ⟨hin, hn, hd, hr⟩ := htarget.resolve_left hne0
  obtain ⟨len, hptr, _⟩ := prunedPtr_kept isTarget h hin hd hr
  refine ⟨hin, ?_⟩
  change (prunedPtr env isTarget p target).isNormal = true
  rw [hptr]
  exact hn

theorem applyPrune_eq (spaceRequired : Nat) (h : p.WellFormed) (hok : env.Ok p)
    (htarget : LiveTarget env p target)
    (hself : target ≠ InvalidOffsetNumber → isTarget target = true) {old new : PruneScan}
    (hold : old.prstate = .init old.prstate.latestRemovedXid)
    (hscan : ScanOf env p isTarget p.offsetNumbers old new)
    (hspace : target ≠ InvalidOffsetNumber →
      spaceRequired ≤ p.exactFreeSpace + (p.offsetNumbers.map (env.freedLen p)).sum) :
    ∃ r, upageRepairFragmentation target spaceRequired (prunedPage env isTarget p) = .ok r ∧
      Repaired target spaceRequired (prunedPage env isTarget p) r ∧
      applyPrune target spaceRequired new.prstate p =
        .ok (r.setPruneHint new.prstate.newPruneXid) := by
  have hexecTarget := htarget.untouched hself
  obtain ⟨q, hq, hpruned⟩ := execute_pruneDeadPointers h hok hexecTarget
    (by rw [hscan.nowdeleted, hold]; rfl) (by rw [hscan.nowfixed, hold]; rfl)
    (by rw [hscan.nowdead, hold]; rfl) (by rw [hscan.nowunused, hold]; rfl)
  have hrepairTarget : target = InvalidOffsetNumber ∨
      target ∈ (prunedPage env isTarget p).offsetNumbers ∧
        ((prunedPage env isTarget p).rowPtr target).isNormal :=
    or_iff_not_imp_left.mpr (htarget.isNormal isTarget h)
  have hzero : target ∈ (prunedPage env isTarget p).rows → target ≠ InvalidOffsetNumber := by
    intro hmem h0
    have := (UPage.mem_offsetNumbers.mp (UPage.mem_rows.mp hmem).1).1
    simp only [InvalidOffsetNumber] at h0
    omega
  obtain ⟨r, hr, hrep⟩ := upageRepairFragmentation_spec (prunedPage_wellFormed h hok) hrepairTarget
    (repairTotal_prunedPage_le h fun hmem => hspace (hzero hmem))
  refine ⟨r, hr, hrep, ?_⟩
  simp only [applyPrune, bind, Except.bind, hq, hpruned, hr]

section Repaired

variable (h : p.WellFormed) (hok : env.Ok p)
  (hrep : Repaired target spaceRequired (prunedPage env isTarget p) r)

include h hok hrep

theorem keepsRow_of_repaired (hin : off ∈ p.offsetNumbers) (hd : env.dead p off = false)
    (hr : env.recentlyDead p off = false) : KeepsRow env p r off := by
  obtain ⟨len, hptr, hlen⟩ := prunedPtr_kept isTarget h hin hd hr
  have hptr' : (prunedPage env isTarget p).rowPtr off = { p.rowPtr off with len } := hptr
  have hle : len ≤ (p.rowPtr off).len := by
    rcases hlen with rfl | ⟨hf, rfl⟩
    · exact le_rfl
    · exact Nat.le_of_lt (trueLen_lt_of_fixed hf).2
  have hpos : (p.rowPtr off).hasRow → 0 < len := by
    intro hrow
    rcases hlen with rfl | ⟨hf, rfl⟩
    · simp only [RowPtr.hasRow, RowPtr.hasStorage, decide_eq_true_eq] at hrow
      exact hrow.2
    · exact Nat.lt_of_lt_of_le (by decide)
        (hok.formed off hin (trueLen_lt_of_fixed hf).1).header_le
  refine ⟨?_, ?_, ?_⟩
  · rw [hrep.flags, hptr']
  · intro hrow
    have hmem : off ∈ (prunedPage env isTarget p).rows := by
      refine UPage.mem_rows.mpr ⟨hin, ?_⟩
      have := hpos hrow
      rw [hptr']
      simp only [RowPtr.hasRow, RowPtr.isUsed, RowPtr.hasStorage, decide_eq_true_eq] at hrow ⊢
      exact ⟨hrow.1, this⟩
    refine ⟨len, hle, ?_, ?_⟩
    · rcases hlen with hlen | ⟨_, hlen⟩
      · exact .inl hlen
      · exact .inr hlen
    · rw [hrep.rowData_eq hmem, hptr', UPage.rowData, UPage.rowData, Mem.take_read,
        Nat.min_eq_left hle]
      rfl
  · intro hused hnone
    have hzero : (p.rowPtr off).len = 0 := by
      simp only [RowPtr.hasRow, RowPtr.hasStorage, hused, true_and, decide_eq_true_eq] at hnone
      omega
    have hsame : (prunedPage env isTarget p).rowPtr off = p.rowPtr off := by
      rw [hptr', show len = (p.rowPtr off).len by omega]
    rw [hrep.kept off (by rw [hsame]; exact hused) (fun hmem => hnone (by
      have := (UPage.mem_rows.mp hmem).2
      rwa [hsame] at this)), hsame]

theorem keepsSlot_of_repaired (hin : off ∈ p.offsetNumbers) (hr : env.recentlyDead p off) :
    KeepsSlot p r off := by
  have hptr : (prunedPage env isTarget p).rowPtr off = deletedPtr p off := prunedPtr_recent hin hr
  have hsame : r.rowPtr off = deletedPtr p off := by
    rw [hrep.rowPtr_of_isDeleted (prunedPage_wellFormed h hok) hin (by rw [hptr]; rfl), hptr]
  refine ⟨?_, ?_, ?_⟩
  · rw [hsame]
    rfl
  · rw [hsame, deletedPtr_tdSlot]
  · rw [hsame, deletedPtr_visibilityInfo]
    exact rowVisInfo_xactInvalid _

omit hok in
theorem unused_of_repaired (hin : off ∈ p.offsetNumbers) (hun : ¬ (r.rowPtr off).isUsed) :
    ¬ (p.rowPtr off).isUsed ∨ env.dead p off := by
  rw [hrep.isUsed_eq] at hun
  change ¬ (prunedPtr env isTarget p off).isUsed = true at hun
  rcases prunedPtr_cases env isTarget h hin with ⟨_, hd⟩ | ⟨heq, _⟩ | ⟨_, _, len, heq, _⟩
  · exact .inr hd
  · rw [heq] at hun
    exact absurd rfl hun
  · rw [heq] at hun
    exact .inl hun

/-- The space asked for lies behind the target's row and belongs to no other. -/
theorem room_of_repaired (htarget : LiveTarget env p target) (hne0 : target ≠ InvalidOffsetNumber) :
    (r.rowPtr target).offset + (r.rowPtr target).len + spaceRequired ≤ r.pdSpecial ∧
      ∀ off ∈ p.offsetNumbers, off ≠ target → (r.rowPtr off).hasRow →
        (r.rowPtr off).offset + (r.rowPtr off).len ≤ (r.rowPtr target).offset ∨
          (r.rowPtr target).offset + (r.rowPtr target).len + spaceRequired ≤
            (r.rowPtr off).offset := by
  obtain ⟨hin, hnormal⟩ := htarget.isNormal isTarget h hne0
  have hwf : (prunedPage env isTarget p).WellFormed := prunedPage_wellFormed h hok
  have hmem : target ∈ (prunedPage env isTarget p).rows :=
    UPage.mem_rows.mpr ⟨hin, hwf.normal_hasRow hin hnormal⟩
  have hext : (r.rowPtr target).len + spaceRequired ≤
      shortAlign (rowExtent target spaceRequired (prunedPage env isTarget p) target) := by
    rw [rowExtent, if_pos rfl, hrep.moved target hmem]
    exact le_shortAlign _
  constructor
  · have := (hrep.inside target hmem).2
    rw [hrep.pdSpecial_eq]
    omega
  · intro off hoff hne hrow
    have hmem' := hrep.mem_rows_of_hasRow hoff hrow
    have := hrep.apart off hmem' target hmem hne
    have := hrep.len_le hmem'
    omega

theorem pruneSound_of_repaired (htarget : LiveTarget env p target) {rec : CleanRecord}
    {xid n l : Nat} (hredo : performCleanRedoAction rec p = .ok r)
    (hredo' : uheapXlogCleanOperatorPage rec p = .ok r) :
    PruneSound env target spaceRequired p ⟨r.setPruneHint xid, n, true, l, some rec⟩ where
  pdLower := hrep.pdLower_eq
  wellFormed := (hrep.wellFormed (prunedPage_wellFormed h hok)).setPruneHint xid
  unpruned := nofun
  keepsRow := fun off hin hd hr => by
    obtain ⟨h1, h2, h3⟩ := keepsRow_of_repaired h hok hrep hin hd hr
    exact ⟨h1, h2, h3⟩
  keepsSlot := fun _ off hin hr => by
    obtain ⟨h1, h2, h3⟩ := keepsSlot_of_repaired h hok hrep hin hr
    exact ⟨h1, h2, h3⟩
  unused := fun off hin hun => unused_of_repaired h hrep hin hun
  room := fun _ hne0 => by
    obtain ⟨hend, hothers⟩ := room_of_repaired h hok hrep htarget hne0
    exact ⟨hend, hothers⟩
  replay := fun _ => ⟨rec, rfl, ⟨r, hredo, ⟨rfl, rfl, rfl, rfl⟩⟩, ⟨r, hredo', ⟨rfl, rfl, rfl, rfl⟩⟩⟩

end Repaired

/-! ## The record of a scan -/

theorem length_filter_offsetNumbers_lt (h : p.WellFormed) (P : Nat → Bool) :
    (p.offsetNumbers.filter P).length < 2 ^ 16 := by
  have hlen := List.length_filter_le P p.offsetNumbers
  have hcount := h.count_le
  have hall : p.offsetNumbers.length = p.maxOffsetNumber := List.length_range'
  have hmax : MaxPossibleUHeapTuplesPerPage = 542 := rfl
  omega

theorem offsetNumber_lt (h : p.WellFormed) (hin : off ∈ p.offsetNumbers) : off < 2 ^ 16 := by
  have hle := (UPage.mem_offsetNumbers.mp hin).2
  have hcount := h.count_le
  have hmax : MaxPossibleUHeapTuplesPerPage = 542 := rfl
  omega

theorem LiveTarget.lt (h : p.WellFormed) (htarget : LiveTarget env p target) : target < 2 ^ 16 := by
  rcases htarget with rfl | ⟨hin, _⟩
  · decide
  · exact offsetNumber_lt h hin

theorem length_staleEntries (array : Nat → Nat) (n : Nat) : (staleEntries array n).length = n := by
  simp [staleEntries]

theorem length_deadList_lt (h : p.WellFormed)
    (hdead : dead = p.offsetNumbers.filter (env.dead p) ∨ dead = []) : dead.length < 2 ^ 16 := by
  rcases hdead with rfl | rfl
  · exact length_filter_offsetNumbers_lt h _
  · decide

theorem deadList_lt (h : p.WellFormed)
    (hdead : dead = p.offsetNumbers.filter (env.dead p) ∨ dead = []) : ∀ o ∈ dead, o < 2 ^ 16 := by
  rcases hdead with rfl | rfl
  · exact fun o ho => offsetNumber_lt h (List.mem_filter.mp ho).1
  · intro o ho
    cases ho

/-- The rows whose length is put right, with the length they get. -/
def fixedList (env : PruneEnv) (p : UPage) (isTarget : Nat → Bool) : List (Nat × Nat) :=
  (p.offsetNumbers.filter (env.fixed p isTarget)).map fun off => (off, env.trueLen p off)

theorem length_fixedList_lt (isTarget : Nat → Bool) (h : p.WellFormed) :
    (fixedList env p isTarget).length < 2 ^ 16 := by
  rw [fixedList, List.length_map]
  exact length_filter_offsetNumbers_lt h _

theorem fixedList_lt (isTarget : Nat → Bool) (h : p.WellFormed) :
    ∀ x ∈ fixedList env p isTarget, x.1 < 2 ^ 16 ∧ x.2 < 2 ^ 16 := by
  intro x hx
  obtain ⟨off, hoff, rfl⟩ := List.mem_map.mp hx
  obtain ⟨hin, hf⟩ := List.mem_filter.mp hoff
  obtain ⟨hn, hlt⟩ := trueLen_lt_of_fixed hf
  have hlen := (h.normal_len off hin hn).2
  simp only [MaxPossibleUHeapTupleSize, BLCKSZ] at hlen
  refine ⟨offsetNumber_lt h hin, ?_⟩
  simp only
  omega

/-- The record a prune with these verdicts writes; `dead` is what it lists as
dead besides the unused ones. -/
def scanArgs (env : PruneEnv) (isTarget : Nat → Bool) (target spaceRequired l : Nat)
    (array : Nat → Nat) (dead : List Nat) (h : p.WellFormed) (htarget : LiveTarget env p target)
    (hspace : spaceRequired < 2 ^ 64)
    (hdead : dead = p.offsetNumbers.filter (env.dead p) ∨ dead = []) : CleanArgs where
  target := target
  spaceRequired := spaceRequired
  nowdeleted := p.offsetNumbers.filter (env.recentlyDead p)
  stale := staleEntries array (p.offsetNumbers.filter (env.recentlyDead p)).length
  nowdead := dead
  nowunused := p.offsetNumbers.filter (env.dead p)
  nowfixed := fixedList env p isTarget
  latestRemovedXid := l
  target_lt := htarget.lt h
  space_lt := hspace
  deleted_len := length_filter_offsetNumbers_lt h _
  stale_len := length_staleEntries _ _
  dead_len := length_deadList_lt h hdead
  unused_len := length_filter_offsetNumbers_lt h _
  fixed_len := length_fixedList_lt isTarget h
  deleted_lt := fun _ ho => offsetNumber_lt h (List.mem_filter.mp ho).1
  dead_lt := deadList_lt h hdead
  unused_lt := fun _ ho => offsetNumber_lt h (List.mem_filter.mp ho).1
  fixed_lt := fixedList_lt isTarget h

/-- Replaying that record on the old page gives the repaired page. -/
theorem redo_scanArgs (l : Nat) (array : Nat → Nat) (h : p.WellFormed) (hok : env.Ok p)
    (htarget : LiveTarget env p target)
    (hself : target ≠ InvalidOffsetNumber → isTarget target = true)
    (hspace : spaceRequired < 2 ^ 64)
    (hdead : dead = p.offsetNumbers.filter (env.dead p) ∨ dead = [])
    (hr : upageRepairFragmentation target spaceRequired (prunedPage env isTarget p) = .ok r) :
    performCleanRedoAction
        (scanArgs env isTarget target spaceRequired l array dead h htarget hspace hdead).record p =
          .ok r ∧
      uheapXlogCleanOperatorPage
        (scanArgs env isTarget target spaceRequired l array dead h htarget hspace hdead).record p =
          .ok r := by
  have hexecTarget := htarget.untouched hself
  have hexec : uheapPagePruneExecute true target
      (scanArgs env isTarget target spaceRequired l array dead h htarget hspace hdead).pruneState
        p = .ok (prunedPage env isTarget p) :=
    execute_recovery h hok hexecTarget rfl rfl hdead rfl
  rw [CleanArgs.performCleanRedoAction_record, CleanArgs.uheapXlogCleanOperatorPage_record]
  simp only [scanArgs] at hexec ⊢
  rw [hexec]
  exact ⟨hr, hr⟩

theorem freedSum_le (env : PruneEnv) (h : p.WellFormed) :
    p.exactFreeSpace + (p.offsetNumbers.map (env.freedLen p)).sum ≤ 2 * BLCKSZ := by
  have hfreed := rowBytes_prunedPage_le env (fun _ => true) h
  have hrows := rowBytes_le h
  have := h.upper_le
  have := h.special_le
  simp only [UPage.exactFreeSpace]
  omega

theorem satisfies_xid_le (h : (env.transInfo off).xid ≤ nextXid) :
    (env.satisfies p off).xid ≤ nextXid := by
  have hxid : (env.satisfies p off).xid = (env.transInfo off).xid ∨
      (env.satisfies p off).xid = InvalidTransactionId := by
    simp only [PruneEnv.satisfies, uheapTupleSatisfiesOldestXmin]
    cases (env.transInfo off).status <;> (repeat' split) <;> simp
  rcases hxid with hxid | hxid
  · rw [hxid]
    exact h
  · rw [hxid]
    exact Nat.zero_le _

theorem hint_le (hxids : ∀ off, (env.transInfo off).xid ≤ nextXid) {old new : PruneScan}
    {offs : List Nat} (hold : old.prstate = .init old.prstate.latestRemovedXid)
    (hscan : ScanOf env p isTarget offs old new) : new.prstate.newPruneXid ≤ nextXid := by
  rcases hscan.newPruneXid with heq | ⟨off, _, hle⟩
  · rw [heq, hold]
    exact Nat.zero_le _
  · exact hle.trans (satisfies_xid_le (hxids off))

theorem VerifyReady.applyHint {st : UPruneState} (hv : VerifyReady nextXid p)
    (hst : st.newPruneXid ≤ nextXid) : VerifyReady nextXid (applyHint st p) := by
  rcases applyHint_eq st p with heq | heq
  · rw [heq]
    exact hv
  · rw [heq]
    exact ⟨hv.special, hv.freespace, hv.slots, hst, hv.slotXids⟩

theorem VerifyReady.repaired {xid : Nat} (hv : VerifyReady nextXid p)
    (hrep : Repaired target spaceRequired (prunedPage env isTarget p) r) (hxid : xid ≤ nextXid) :
    VerifyReady nextXid (r.setPruneHint xid) where
  special := hrep.pdSpecial_eq.trans hv.special
  freespace := by
    have heq : r.potentialFreespace = p.potentialFreespace :=
      Eq.trans (congrArg UPage.potentialFreespace hrep.frame) rfl
    change r.potentialFreespace ≤ BLCKSZ
    rw [heq]
    exact hv.freespace
  slots := by
    change 0 < r.tdCount ∧ r.tdCount ≤ UHEAP_MAX_TD
    rw [hrep.tdCount_eq]
    exact hv.slots
  pruneXid := hxid
  slotXids := by
    have heq : r.tdXid = p.tdXid := Eq.trans (congrArg UPage.tdXid hrep.frame) rfl
    intro slot
    change r.tdXid slot ≤ nextXid
    rw [heq]
    exact hv.slotXids slot

/-- The scan of `UHeapPagePruneGuts`, applied. -/
theorem uheapPagePruneGuts_sound (h : p.WellFormed) (hok : env.Ok p)
    (htarget : LiveTarget env p target) (forcePrune : Bool) (l : Nat) (array : Nat → Nat) :
    ∃ out, uheapPagePruneGuts env target spaceRequired forcePrune l array p = .ok out ∧
      PruneSound env target spaceRequired p out := by
  have hscan : ScanOf env p (· = target) p.offsetNumbers ⟨.init l, p.exactFreeSpace, 0⟩
      (pruneScan env p (· = target) p.exactFreeSpace l) := foldl_scanOf _ _
  set scan := pruneScan env p (· = target) p.exactFreeSpace l with hdef
  rw [uheapPagePruneGuts, ← hdef]
  by_cases hless : scan.spaceFreed < spaceRequired
  · simp only [hless, if_true]
    exact ⟨_, rfl, pruneSound_of_sameRows h ⟨rfl, rfl, rfl, rfl⟩ rfl rfl⟩
  have hspace : spaceRequired ≤ p.exactFreeSpace + (p.offsetNumbers.map (env.freedLen p)).sum := by
    have := hscan.spaceFreed
    simp only at this
    omega
  simp only [hless, if_false]
  by_cases hwork : scan.prstate.hasWork = true ∨ forcePrune = true
  · have hsmall : spaceRequired < 2 ^ 64 := by
      have := freedSum_le env h
      have hb : BLCKSZ = 8192 := rfl
      omega
    obtain ⟨r, hr, hrep, happly⟩ := applyPrune_eq spaceRequired h hok htarget
      (fun _ => by simp) rfl hscan (fun _ => hspace)
    obtain ⟨hredo, hredo'⟩ := redo_scanArgs scan.prstate.latestRemovedXid array h hok htarget
      (fun _ => by simp) hsmall (.inl rfl) hr
    rw [if_pos hwork, happly]
    refine ⟨_, rfl, pruneSound_of_repaired h hok hrep htarget ?_ ?_⟩ <;>
      rw [hscan.nowdead, hscan.nowdeleted, hscan.nowfixed] <;> assumption
  · rw [if_neg hwork]
    obtain ⟨hwf, hsame⟩ := h.applyHint scan.prstate
    exact ⟨_, rfl, pruneSound_of_sameRows hwf hsame rfl rfl⟩

/-- The scan of `UHeapPagePrune`, applied and checked. -/
theorem uheapPagePrune_sound (h : p.WellFormed) (hok : env.Ok p) (level : VerifyLevel)
    (nextXid l : Nat) (array : Nat → Nat)
    (hverify : level = .none ∨ VerifyReady nextXid p ∧ ∀ off, (env.transInfo off).xid ≤ nextXid) :
    ∃ out, uheapPagePrune env level nextXid l array p = .ok out ∧
      PruneSound env InvalidOffsetNumber 0 p out := by
  have htarget : LiveTarget env p InvalidOffsetNumber := .inl rfl
  have hchecked : ∀ q : UPage, q.WellFormed →
      (∀ nextXid, VerifyReady nextXid p → (∀ off, (env.transInfo off).xid ≤ nextXid) →
        VerifyReady nextXid q) → upageVerify level nextXid q = .ok () := by
    intro q hq hready
    rcases hverify with rfl | ⟨hv, hxids⟩
    · rfl
    · exact upageVerify_ok level hq (hready nextXid hv hxids)
  -- nothing to do: the hint alone is updated
  have hidle : ∀ st : UPruneState,
      (∀ nextXid, (∀ off, (env.transInfo off).xid ≤ nextXid) → st.newPruneXid ≤ nextXid) →
        upageVerify level nextXid (applyHint st p) = .ok () ∧ ∀ n l,
          PruneSound env InvalidOffsetNumber 0 p ⟨applyHint st p, n, false, l, none⟩ := by
    intro st hst
    obtain ⟨hwf, hsame⟩ := h.applyHint st
    exact ⟨hchecked _ hwf fun nextXid hv hxids => hv.applyHint (hst nextXid hxids),
      fun n l => pruneSound_of_sameRows hwf hsame rfl rfl⟩
  by_cases hprunable : p.isPrunable env.oldestXmin = true
  · have hscan : ScanOf env p (fun _ => true) p.offsetNumbers ⟨.init l, 0, 0⟩
        (pruneScan env p (fun _ => true) 0 l) := foldl_scanOf _ _
    simp only [uheapPagePrune, hprunable, if_true]
    set scan := pruneScan env p (fun _ => true) 0 l
    by_cases hwork : scan.prstate.hasWork = true
    · obtain ⟨r, hr, hrep, happly⟩ := applyPrune_eq 0 h hok htarget
        (fun _ => rfl) rfl hscan (fun hc => absurd rfl hc)
      obtain ⟨hredo, hredo'⟩ := redo_scanArgs scan.prstate.latestRemovedXid array h hok htarget
        (fun _ => rfl) (by decide) (.inr rfl) hr
      have hver := hchecked (r.setPruneHint scan.prstate.newPruneXid)
        ((hrep.wellFormed (prunedPage_wellFormed h hok)).setPruneHint _)
        fun nextXid hv hxids => hv.repaired hrep (hint_le hxids rfl hscan)
      rw [if_pos hwork, happly]
      simp only [bind, Except.bind, hver]
      refine ⟨_, rfl, pruneSound_of_repaired h hok hrep htarget ?_ ?_⟩ <;>
        rw [hscan.nowdead, hscan.nowdeleted, hscan.nowfixed] <;> assumption
    · obtain ⟨hver, hsound⟩ := hidle scan.prstate fun nextXid hxids => hint_le hxids rfl hscan
      rw [if_neg hwork, hver]
      exact ⟨_, rfl, hsound _ _⟩
  · obtain ⟨hver, hsound⟩ := hidle (.init l) fun _ _ => Nat.zero_le _
    have hnowork : ¬ (UPruneState.init l).hasWork = true := by
      simp [UPruneState.hasWork, UPruneState.init]
    simp only [uheapPagePrune, hprunable, Bool.false_eq_true, if_false]
    rw [if_neg hnowork, hver]
    exact ⟨_, rfl, hsound _ _⟩

end Outcome

/-- Pruning a well-formed page raises no error, keeps every row that is
neither dead nor recently dead, keeps slot and slot-reused flag of recently
dead ones, gives back the pointers of dead rows only, leaves a well-formed
page with the space asked for behind the target, and its log record replays
to the same page by either redo routine. -/
theorem prune_keeps_rows_and_replays (env : PruneEnv) (p : UPage) (h : p.WellFormed)
    (hok : env.Ok p) (latestRemovedXid : Nat) (array : Nat → Nat) :
    (∀ (target spaceRequired : Nat) (forcePrune : Bool), LiveTarget env p target →
      ∃ out, uheapPagePruneGuts env target spaceRequired forcePrune latestRemovedXid array p =
          .ok out ∧ PruneSound env target spaceRequired p out) ∧
    (∀ (level : VerifyLevel) (nextXid : Nat),
      (level = .none ∨ VerifyReady nextXid p ∧ ∀ off, (env.transInfo off).xid ≤ nextXid) →
      ∃ out, uheapPagePrune env level nextXid latestRemovedXid array p = .ok out ∧
        PruneSound env InvalidOffsetNumber 0 p out) :=
  ⟨fun _ _ forcePrune htarget =>
      uheapPagePruneGuts_sound h hok htarget forcePrune latestRemovedXid array,
    fun level nextXid hverify =>
      uheapPagePrune_sound h hok level nextXid latestRemovedXid array hverify⟩

/-- A row of a table with an `int4` column. -/
def int4Row (flag : UInt8) : List UInt8 := [2, 0, 0, 0, 0, 0, flag, 0, 1, 0, 11, 42, 0, 0, 0]

/-- A page with a live row that an update in place left too long, a dead row and the pointer
of a pruned row. -/
def deadRowPage : UPage where
  pdLower := 100
  pdUpper := 8156
  pdSpecial := 8192
  potentialFreespace := 0
  tdCount := 2
  pdPruneXid := 5
  isFull := false
  hasFreeLinePointers := false
  tdXid := fun _ => 9
  rowPtr := fun off =>
    if off = 1 then ⟨8172, .normal, 20⟩
    else if off = 2 then ⟨8156, .normal, 15⟩
    else ⟨129, .redirect, 0⟩
  data := (Mem.write (fun _ => 0) 8172 (int4Row 0x20)).write 8156 (int4Row 0x10)

/-- Both rows belong to the frozen slot. -/
def frozenEnv : PruneEnv where
  oldestXmin := 10
  transInfo := fun _ => ⟨false, UHEAPTUP_SLOT_FROZEN, 0, true, false, .committed, true⟩
  rowDesc := [⟨.byVal 4, .int⟩]

theorem deadRowPage_wellFormed : deadRowPage.WellFormed := by
  constructor <;> decide

theorem frozenEnv_ok : frozenEnv.Ok deadRowPage where
  frozen := fun _ _ _ _ => ⟨rfl, rfl⟩
  formed := by
    have hhoff : ∀ off ∈ deadRowPage.offsetNumbers, (deadRowPage.rowPtr off).isNormal →
        11 ≤ tHoff (tupleHeader (deadRowPage.tupleAt off)) ∧
          hasNulls (deadRowPage.tupleAt off) = false ∧
          tupleAttrs (deadRowPage.tupleAt off) = 1 := by decide
    intro off hoff hnormal
    obtain ⟨hge, hnull, hnatts⟩ := hhoff off hoff hnormal
    refine ⟨hge, ?_⟩
    rw [hnatts]
    simp [frozenEnv, ReservesByVal, hnull]

theorem prune_keeps_rows_and_replays_deadRowPage :
    (∃ out, uheapPagePruneGuts frozenEnv 1 8000 false 0 (fun _ => 0) deadRowPage = .ok out ∧
      PruneSound frozenEnv 1 8000 deadRowPage out) ∧
    ∃ out, uheapPagePrune frozenEnv .complete 20 0 (fun _ => 0) deadRowPage = .ok out ∧
      PruneSound frozenEnv InvalidOffsetNumber 0 deadRowPage out :=
  ⟨(prune_keeps_rows_and_replays frozenEnv deadRowPage deadRowPage_wellFormed frozenEnv_ok 0
      (fun _ => 0)).1 1 8000 false (.inr ⟨by decide, by decide, by decide, by decide⟩),
    (prune_keeps_rows_and_replays frozenEnv deadRowPage deadRowPage_wellFormed frozenEnv_ok 0
      (fun _ => 0)).2 .complete 20
        (.inr ⟨⟨rfl, by decide, by decide, by decide, fun _ => by simp [deadRowPage]⟩,
          fun _ => Nat.zero_le _⟩)⟩

end OpenGauss.Ustore
