import OpenGauss.Ustore.Repair

/-!
# What the prune scan decides, and what applying it does

The verdict on each row pointer is a function of the page and of what is
known about the row's writer. The scan collects the verdicts in order
(`pruneScan_lists`), and applying them, on the primary or from a log record,
gives one and the same page (`prunedPage`), which is again well formed.
-/

namespace OpenGauss.Ustore

open Lib
open List (mem_filter map_id)

variable {off : Nat} {st : UPruneState}

/-! ## Verdicts -/

theorem not_isDeleted_of_isNormal {rp : RowPtr} (h : rp.isNormal = true) :
    rp.isDeleted = false := by
  cases hf : rp.flags <;> simp_all [RowPtr.isNormal, RowPtr.isDeleted]

namespace PruneEnv

variable (env : PruneEnv) (p : UPage)

/-- The row pointer is given back: its row is dead, or was pruned before and
its deleter has ended for all, on a page full of row pointers. -/
def dead (off : Nat) : Bool :=
  if p.maxTupleCount ≤ p.maxOffsetNumber ∧ (p.rowPtr off).isDeleted then
    deletedIsDead env p (p.rowPtr off)
  else (p.rowPtr off).isNormal ∧ (env.satisfies p off).result = .dead

/-- The row goes, its pointer stays with slot and visibility. -/
def recentlyDead (off : Nat) : Bool :=
  (p.rowPtr off).isNormal ∧ (env.satisfies p off).result = .recentlyDead

/-- The row is trimmed to its true length. -/
def fixed (isTarget : Nat → Bool) (off : Nat) : Bool :=
  (p.rowPtr off).isNormal ∧ (env.satisfies p off).inplaceUpdated ∧ ¬ isTarget off ∧
    env.trueLen p off < (p.rowPtr off).len

/-- The bytes removing the row gives back. -/
def freedLen (off : Nat) : Nat :=
  if (p.rowPtr off).isNormal ∧ ((env.satisfies p off).result = .dead ∨
      (env.satisfies p off).result = .recentlyDead) then shortAlign (p.rowPtr off).len
  else 0

/-- What is known of the rows fits the page: a row of the frozen slot is
found frozen, and rows are formed as the descriptor says. -/
structure Ok : Prop where
  frozen : ∀ off ∈ p.offsetNumbers, (p.rowPtr off).isNormal →
    (rowTdId (p.rowData (p.rowPtr off))).toNat = UHEAPTUP_SLOT_FROZEN →
      (env.transInfo off).traversalAbort = false ∧ (env.transInfo off).tdSlot = UHEAPTUP_SLOT_FROZEN
  formed : ∀ off ∈ p.offsetNumbers, (p.rowPtr off).isNormal →
    RowFormed (p.tupleAt off) env.rowDesc

variable {env p}

/-- Only live rows are reported as updated in place. -/
theorem live_of_inplaceUpdated (h : (env.satisfies p off).inplaceUpdated = true) :
    (env.satisfies p off).result = .live := by
  revert h
  simp only [satisfies, uheapTupleSatisfiesOldestXmin]
  cases (env.transInfo off).status <;> (repeat' split) <;> simp

theorem Ok.slot_pos (hok : env.Ok p) (hoff : off ∈ p.offsetNumbers) (h : env.recentlyDead p off) :
    0 < (rowTdId (p.rowData (p.rowPtr off))).toNat := by
  simp only [recentlyDead, decide_eq_true_eq] at h
  obtain ⟨hnormal, hres⟩ := h
  by_contra hzero
  obtain ⟨habort, hslot⟩ := hok.frozen off hoff hnormal (by simp only [UHEAPTUP_SLOT_FROZEN]; omega)
  revert hres
  simp only [satisfies, uheapTupleSatisfiesOldestXmin, habort, hslot]
  split <;> simp

theorem not_dead_of_fixed {isTarget : Nat → Bool} (h : env.fixed p isTarget off) :
    env.dead p off = false ∧ env.recentlyDead p off = false := by
  simp only [fixed, decide_eq_true_eq] at h
  obtain ⟨hnormal, hin, _, _⟩ := h
  have hlive := live_of_inplaceUpdated hin
  have hdel := not_isDeleted_of_isNormal hnormal
  simp [dead, recentlyDead, hlive, hdel]

theorem not_recentlyDead_of_dead (h : env.dead p off) : env.recentlyDead p off = false := by
  by_cases hnormal : (p.rowPtr off).isNormal
  · have hdel := not_isDeleted_of_isNormal hnormal
    simp only [dead, hdel, hnormal] at h
    simp only [recentlyDead]
    simp_all
  · simp [recentlyDead, hnormal]

end PruneEnv

open PruneEnv (dead recentlyDead fixed trueLen freedLen)

/-! ## The scan in closed form -/

/-- The lists one scan leaves are the verdicts on the row pointers `offs`. -/
structure ScanOf (env : PruneEnv) (p : UPage) (isTarget : Nat → Bool) (offs : List Nat)
    (old new : PruneScan) : Prop where
  nowdead : new.prstate.nowdead = old.prstate.nowdead ++ offs.filter (env.dead p)
  nowdeleted : new.prstate.nowdeleted = old.prstate.nowdeleted ++ offs.filter (env.recentlyDead p)
  nowunused : new.prstate.nowunused = old.prstate.nowunused
  nowfixed : new.prstate.nowfixed = old.prstate.nowfixed ++
    (offs.filter (env.fixed p isTarget)).map fun off => (off, env.trueLen p off)
  spaceFreed : new.spaceFreed = old.spaceFreed + (offs.map (env.freedLen p)).sum
  newPruneXid : new.prstate.newPruneXid = old.prstate.newPruneXid ∨
    ∃ off ∈ offs, new.prstate.newPruneXid ≤ (env.satisfies p off).xid

section Scan

variable {env : PruneEnv} {p : UPage} {isTarget : Nat → Bool}

theorem isNormal_iff (rp : RowPtr) :
    rp.isNormal = true ↔ ¬ (¬ rp.isUsed ∨ rp.isDead ∨ rp.isDeleted) := by
  cases hf : rp.flags <;>
    simp [RowPtr.isNormal, RowPtr.isUsed, RowPtr.isDead, RowPtr.isDeleted, hf]

/-- `UHeapPruneItem` adds the verdict on its row. -/
theorem uheapPruneItem_scanOf (scan : PruneScan) (hnormal : (p.rowPtr off).isNormal) :
    ScanOf env p isTarget [off] scan (uheapPruneItem env p (isTarget off) scan off) := by
  have hdel := not_isDeleted_of_isNormal hnormal
  have hxid : ∀ st : UPruneState, (st.recordPrunable (env.satisfies p off).xid).newPruneXid =
      st.newPruneXid ∨ (st.recordPrunable (env.satisfies p off).xid).newPruneXid ≤
        (env.satisfies p off).xid := by
    intro st
    unfold UPruneState.recordPrunable
    split
    · exact .inr le_rfl
    · exact .inl rfl
  have hdead : env.dead p off = decide ((env.satisfies p off).result = .dead) := by
    simp [dead, hdel, hnormal]
  have hrecent : env.recentlyDead p off =
      decide ((env.satisfies p off).result = .recentlyDead) := by
    simp [recentlyDead, hnormal]
  by_cases hin : (env.satisfies p off).inplaceUpdated = true
  · -- a live row, perhaps trimmed
    have hres := PruneEnv.live_of_inplaceUpdated hin
    by_cases hfix : env.fixed p isTarget off
    · have hcond : ¬ isTarget off ∧
          env.trueLen p off < (p.rowPtr off).len := by
        simpa [fixed, hnormal, hin] using hfix
      constructor <;>
        simp [uheapPruneItem, hres, hin, hcond, hdead, hrecent, hfix, UPruneState.recordFixed,
          freedLen]
    · have hcond : ¬ (isTarget off = false ∧
          env.trueLen p off < (p.rowPtr off).len) := by
        simpa [fixed, hnormal, hin] using hfix
      constructor <;>
        simp [uheapPruneItem, hres, hin, hcond, hdead, hrecent, hfix, freedLen]
  have hfix : env.fixed p isTarget off = false := by simp [fixed, hin]
  cases hres : (env.satisfies p off).result with
  | dead =>
    have hadv : ∀ (st : UPruneState) (c : Bool) (x : Nat),
        (st.advanceLatestRemovedXid c x).nowdead = st.nowdead ∧
        (st.advanceLatestRemovedXid c x).nowdeleted = st.nowdeleted ∧
        (st.advanceLatestRemovedXid c x).nowunused = st.nowunused ∧
        (st.advanceLatestRemovedXid c x).nowfixed = st.nowfixed ∧
        (st.advanceLatestRemovedXid c x).newPruneXid = st.newPruneXid := by
      intro st c x
      unfold UPruneState.advanceLatestRemovedXid
      split <;> simp
    constructor <;>
      simp [uheapPruneItem, hres, hin, hdead, hrecent, hfix, UPruneState.recordDead,
        freedLen, hnormal, hadv]
  | recentlyDead =>
    constructor <;>
      simp [uheapPruneItem, hres, hin, hdead, hrecent, hfix, UPruneState.recordDeleted,
        freedLen, hnormal]
  | deleteInProgress =>
    have hrec : ∀ (st : UPruneState) (x : Nat),
        (st.recordPrunable x).nowdead = st.nowdead ∧
        (st.recordPrunable x).nowdeleted = st.nowdeleted ∧
        (st.recordPrunable x).nowunused = st.nowunused ∧
        (st.recordPrunable x).nowfixed = st.nowfixed := by
      intro st x
      unfold UPruneState.recordPrunable
      split <;> simp
    constructor <;>
      simp [uheapPruneItem, hres, hin, hdead, hrecent, hfix, freedLen, hrec]
    exact hxid _
  | live | insertInProgress | abortInProgress =>
    constructor <;> simp [uheapPruneItem, hres, hin, hdead, hrecent, hfix, freedLen]

/-- One turn of the scan loop adds the verdict on its row pointer. -/
theorem pruneScanRow_scanOf (scan : PruneScan) (off : Nat) :
    ScanOf env p isTarget [off] scan (pruneScanRow env p isTarget scan off) := by
  by_cases hnormal : (p.rowPtr off).isNormal = true
  · have hdel := not_isDeleted_of_isNormal hnormal
    have hskip := (isNormal_iff (p.rowPtr off)).mp hnormal
    have hrow : pruneScanRow env p isTarget scan off =
        uheapPruneItem env p (isTarget off) scan off := by
      simp only [pruneScanRow]
      rw [if_neg (by simp [hdel]), if_neg hskip]
    rw [hrow]
    exact uheapPruneItem_scanOf scan hnormal
  have hrecent : env.recentlyDead p off = false := by simp [recentlyDead, hnormal]
  have hfix : env.fixed p isTarget off = false := by simp [fixed, hnormal]
  have hfreed : env.freedLen p off = 0 := by simp [freedLen, hnormal]
  have hskip : ¬ (p.rowPtr off).isUsed ∨ (p.rowPtr off).isDead ∨ (p.rowPtr off).isDeleted := by
    by_contra hc
    exact hnormal ((isNormal_iff _).mpr hc)
  by_cases hfull : p.maxTupleCount ≤ p.maxOffsetNumber ∧ (p.rowPtr off).isDeleted
  · have hdead : env.dead p off = deletedIsDead env p (p.rowPtr off) := by
      rw [dead, if_pos hfull]
    simp only [pruneScanRow]
    rw [if_pos hfull]
    by_cases hd : deletedIsDead env p (p.rowPtr off) = true
    · rw [if_pos hd]
      constructor <;> simp [hdead, hd, hrecent, hfix, hfreed, UPruneState.recordDead]
    · rw [if_neg hd]
      constructor <;> simp [hdead, hd, hrecent, hfix, hfreed]
  · have hdead : env.dead p off = false := by
      rw [dead, if_neg hfull]
      simp [hnormal]
    simp only [pruneScanRow]
    rw [if_neg hfull, if_pos hskip]
    constructor <;> simp [hdead, hrecent, hfix, hfreed]

theorem ScanOf.trans {a b c : PruneScan} {offs offs' : List Nat}
    (h : ScanOf env p isTarget offs a b) (h' : ScanOf env p isTarget offs' b c) :
    ScanOf env p isTarget (offs ++ offs') a c where
  nowdead := by rw [h'.nowdead, h.nowdead, List.filter_append, List.append_assoc]
  nowdeleted := by rw [h'.nowdeleted, h.nowdeleted, List.filter_append, List.append_assoc]
  nowunused := h'.nowunused.trans h.nowunused
  nowfixed := by
    rw [h'.nowfixed, h.nowfixed, List.filter_append, List.map_append, List.append_assoc]
  spaceFreed := by
    rw [h'.spaceFreed, h.spaceFreed, List.map_append, List.sum_append, Nat.add_assoc]
  newPruneXid := by
    rcases h'.newPruneXid with heq | ⟨off, hoff, hle⟩
    · rw [heq]
      rcases h.newPruneXid with heq' | ⟨off, hoff, hle⟩
      · exact .inl heq'
      · exact .inr ⟨off, List.mem_append_left _ hoff, hle⟩
    · exact .inr ⟨off, List.mem_append_right _ hoff, hle⟩

theorem foldl_scanOf (offs : List Nat) (scan : PruneScan) :
    ScanOf env p isTarget offs scan (offs.foldl (pruneScanRow env p isTarget) scan) := by
  induction offs generalizing scan with
  | nil => constructor <;> simp
  | cons off offs ih => exact (pruneScanRow_scanOf scan off).trans (ih _)

end Scan

/-! ## Applying the verdicts -/

/-- A loop that sets each listed row pointer once, to a value that depends
only on that row pointer and the rows. -/
theorem foldlM_setRowPtr {α : Type} (step : UPage → α → Except PageError UPage) (key : α → Nat)
    (new : α → RowPtr) (xs : List α) (p : UPage) (hnd : (xs.map key).Nodup)
    (hstep : ∀ x ∈ xs, ∀ q : UPage, q.data = p.data → q.rowPtr (key x) = p.rowPtr (key x) →
      step q x = .ok (q.setRowPtr (key x) (new x))) :
    ∃ f : Nat → RowPtr, xs.foldlM step p = .ok { p with rowPtr := f } ∧
      (∀ x ∈ xs, f (key x) = new x) ∧ ∀ off, off ∉ xs.map key → f off = p.rowPtr off := by
  induction xs generalizing p with
  | nil => exact ⟨p.rowPtr, rfl, by simp, fun _ _ => rfl⟩
  | cons x xs ih =>
    obtain ⟨hx, hxs⟩ := List.nodup_cons.mp hnd
    have hfirst := hstep x (.head _) p rfl rfl
    obtain ⟨f, hf, hmem, hother⟩ := ih (p.setRowPtr (key x) (new x)) hxs (by
      intro y hy q hdata hptr
      have hne : key y ≠ key x := fun heq => hx (List.mem_map.mpr ⟨y, hy, heq⟩)
      refine hstep y (.tail _ hy) q hdata ?_
      rw [hptr, UPage.setRowPtr]
      exact Function.update_of_ne hne _ _)
    refine ⟨f, ?_, ?_, ?_⟩
    · rw [List.foldlM_cons, hfirst]
      exact hf
    · intro y hy
      rcases List.mem_cons.mp hy with rfl | hy
      · rw [hother (key y) hx, UPage.setRowPtr]
        exact Function.update_self _ _ _
      · exact hmem y hy
    · intro off hoff
      simp only [List.map_cons, List.mem_cons, not_or] at hoff
      rw [hother off hoff.2, UPage.setRowPtr]
      exact Function.update_of_ne hoff.1 _ _

section Execute

variable {env : PruneEnv} {p : UPage} {isTarget : Nat → Bool} {target : Nat}

def deletedPtr (p : UPage) (off : Nat) : RowPtr :=
  (p.rowPtr off).setDeleted (rowTdId (p.rowData (p.rowPtr off))).toNat
    (rowVisInfo (rowFlag (p.rowData (p.rowPtr off))))

/-- The row pointer at `off` once the verdicts are applied. -/
def prunedPtr (env : PruneEnv) (isTarget : Nat → Bool) (p : UPage) (off : Nat) : RowPtr :=
  if off ∉ p.offsetNumbers then p.rowPtr off
  else if env.dead p off then .setUnused
  else if env.recentlyDead p off then deletedPtr p off
  else if env.fixed p isTarget off then (p.rowPtr off).changeLen (env.trueLen p off)
  else p.rowPtr off

/-- The page once the verdicts are applied, before it is compacted. -/
def prunedPage (env : PruneEnv) (isTarget : Nat → Bool) (p : UPage) : UPage :=
  { p with rowPtr := prunedPtr env isTarget p }

/-- Slot and flags stand in the fixed part of the row's header. -/
theorem header_eq (p : UPage) (lp : RowPtr) (hlen : SizeOfUHeapDiskTupleData ≤ lp.len) :
    rowTdId (p.data.read lp.offset SizeOfUHeapDiskTupleData) = rowTdId (p.rowData lp) ∧
      rowFlag (p.data.read lp.offset SizeOfUHeapDiskTupleData) = rowFlag (p.rowData lp) := by
  simp only [SizeOfUHeapDiskTupleData] at hlen
  constructor
  · simp only [rowTdId, OffsetTdId, UPage.rowData, List.getD_eq_getElem?_getD, Mem.getElem?_read,
      SizeOfUHeapDiskTupleData]
    rw [if_pos (by omega), if_pos (by omega)]
  · simp only [rowFlag, offsetFlag, UPage.rowData, Mem.drop_read, Mem.take_read,
      SizeOfUHeapDiskTupleData]
    have h1 : min 2 (11 - 6) = 2 := rfl
    have h2 : min 2 (lp.len - 6) = 2 := by omega
    rw [h1, h2]

variable (h : p.WellFormed) (hok : env.Ok p)
  (htarget : target = InvalidOffsetNumber ∨ env.dead p target = false ∧
    env.recentlyDead p target = false ∧ env.fixed p isTarget target = false)
  (hdeleted : st.nowdeleted = p.offsetNumbers.filter (env.recentlyDead p))
  (hfixed : st.nowfixed = (p.offsetNumbers.filter (env.fixed p isTarget)).map
    fun off => (off, env.trueLen p off))

include h hok htarget hdeleted hfixed

/-- Executing lists that hold the verdicts gives the pruned page, whether the
dead row pointers are listed as dead, as unused or as both. -/
theorem uheapPagePruneExecute_eq (inRecovery : Bool)
    {dead unused : List Nat} (hdead : st.nowdead = dead) (hunused : st.nowunused = unused)
    (hdeadSub : ∀ off ∈ dead, off ∈ p.offsetNumbers ∧ env.dead p off)
    (hunusedSub : ∀ off ∈ unused, off ∈ p.offsetNumbers ∧ env.dead p off) (hdeadNd : dead.Nodup)
    (hunusedNd : unused.Nodup) :
    ∃ q, uheapPagePruneExecute inRecovery target st p = .ok { p with rowPtr := q } ∧
      (∀ off, off ∉ p.offsetNumbers ∨ env.dead p off = false →
        q off = prunedPtr env isTarget p off) ∧
      (∀ off ∈ unused, q off = .setUnused) := by
  set fixed := env.fixed p isTarget
  subst hdead hunused
  have hne : ∀ off ∈ p.offsetNumbers,
      env.dead p off ∨ env.recentlyDead p off ∨ fixed off → target ≠ off := by
    rintro off hoff hverdict rfl
    rcases htarget with h0 | ⟨h1, h2, h3⟩
    · have := (UPage.mem_offsetNumbers.mp hoff).1
      simp only [InvalidOffsetNumber] at h0
      omega
    · simp [h1, h2, h3] at hverdict
  have hrecent : ∀ off ∈ st.nowdeleted, off ∈ p.offsetNumbers ∧ env.recentlyDead p off := by
    intro off hoff
    rw [hdeleted] at hoff
    exact mem_filter.mp hoff
  have hfixedMem : ∀ x ∈ st.nowfixed, x.1 ∈ p.offsetNumbers ∧ fixed x.1 ∧
      x.2 = env.trueLen p x.1 := by
    intro x hx
    rw [hfixed] at hx
    obtain ⟨off, hoff, rfl⟩ := List.mem_map.mp hx
    exact ⟨(mem_filter.mp hoff).1, (mem_filter.mp hoff).2, rfl⟩
  have hkeys : st.nowfixed.map Prod.fst = p.offsetNumbers.filter fixed := by
    rw [hfixed, List.map_map]
    exact List.map_id'' (fun _ => rfl) _
  -- the four loops, each on the page the one before left
  obtain ⟨f1, hf1, hf1mem, hf1other⟩ := foldlM_setRowPtr (executeDeleted inRecovery target) id
    (deletedPtr p) st.nowdeleted p
    (by rw [hdeleted, map_id]; exact p.nodup_offsetNumbers.filter _) (by
      intro off hoff q hdata hptr
      obtain ⟨hin, hrd⟩ := hrecent off hoff
      have hnormal : (p.rowPtr off).isNormal := by
        simp only [recentlyDead, decide_eq_true_eq] at hrd
        exact hrd.1
      have hhdr := header_eq p _ (h.normal_len off hin hnormal).1
      have hslot := hok.slot_pos hin hrd
      simp only [id_eq] at hptr ⊢
      simp only [executeDeleted, hdata, hptr, hhdr.1, hhdr.2]
      rw [if_neg (by simp only [UHEAPTUP_SLOT_FROZEN]; omega), changeRowPtr,
        if_neg (hne off hin (.inr (.inl hrd))), hptr]
      rfl)
  obtain ⟨f2, hf2, hf2mem, hf2other⟩ := foldlM_setRowPtr
    (changeRowPtr target fun _ => .setDead) id (fun _ => .setDead) st.nowdead
    { p with rowPtr := f1 } (by rw [map_id]; exact hdeadNd) (by
      intro off hoff q _ _
      obtain ⟨hin, hd⟩ := hdeadSub off hoff
      rw [changeRowPtr, if_neg (hne off hin (.inl hd))]
      rfl)
  obtain ⟨f3, hf3, hf3mem, hf3other⟩ := foldlM_setRowPtr
    (changeRowPtr target fun _ => .setUnused) id (fun _ => .setUnused) st.nowunused
    { p with rowPtr := f2 } (by rw [map_id]; exact hunusedNd) (by
      intro off hoff q _ _
      obtain ⟨hin, hd⟩ := hunusedSub off hoff
      rw [changeRowPtr, if_neg (hne off hin (.inl hd))]
      rfl)
  obtain ⟨f4, hf4, hf4mem, hf4other⟩ := foldlM_setRowPtr
    (fun p x => changeRowPtr target (·.changeLen x.2) p x.1) Prod.fst
    (fun x => (f3 x.1).changeLen x.2) st.nowfixed { p with rowPtr := f3 }
    (by rw [hkeys]; exact p.nodup_offsetNumbers.filter _) (by
      intro x hx q _ hptr
      obtain ⟨hin, hfx, _⟩ := hfixedMem x hx
      simp only [changeRowPtr]
      rw [if_neg (hne x.1 hin (.inr (.inr hfx))), hptr])
  simp only [map_id] at hf1other hf2other hf3other
  rw [hkeys] at hf4other
  refine ⟨f4, ?_, ?_, ?_⟩
  · rw [uheapPagePruneExecute, hf1]
    simp only [bind, Except.bind, hf2, hf3, hf4]
  · intro off hverdict
    have hlisted : ¬ (off ∈ p.offsetNumbers ∧ env.dead p off) := by
      rintro ⟨hin, hd⟩
      rcases hverdict with hout | hlive
      · exact hout hin
      · simp [hlive] at hd
    have hf31 : f3 off = f1 off := (hf3other off fun hc => hlisted (hunusedSub off hc)).trans
      (hf2other off fun hc => hlisted (hdeadSub off hc))
    by_cases hin : off ∈ p.offsetNumbers
    · have hlive : env.dead p off = false := hverdict.resolve_left (fun hc => hc hin)
      rw [prunedPtr, if_neg (not_not.mpr hin), if_neg (by simp [hlive])]
      by_cases hrd : env.recentlyDead p off = true
      · have hnotfixed : ¬ fixed off = true := fun hfx => by
          have := (PruneEnv.not_dead_of_fixed hfx).2
          simp [hrd] at this
        have hmem : off ∈ st.nowdeleted := by
          rw [hdeleted]
          exact mem_filter.mpr ⟨hin, hrd⟩
        rw [if_pos hrd, hf4other off (fun hc => hnotfixed (mem_filter.mp hc).2)]
        exact hf31.trans (hf1mem off hmem)
      · have hnotrecent : off ∉ st.nowdeleted := fun hc => hrd (hrecent off hc).2
        rw [if_neg hrd]
        by_cases hfx : fixed off = true
        · have hmem : (off, env.trueLen p off) ∈ st.nowfixed := by
            rw [hfixed]
            exact List.mem_map.mpr ⟨off, mem_filter.mpr ⟨hin, hfx⟩, rfl⟩
          rw [if_pos hfx]
          have hnew := hf4mem _ hmem
          simp only [hf31, hf1other off hnotrecent] at hnew
          exact hnew
        · rw [if_neg hfx, hf4other off (fun hc => hfx (mem_filter.mp hc).2)]
          exact hf31.trans (hf1other off hnotrecent)
    · rw [prunedPtr, if_pos hin, hf4other off (fun hc => hin (mem_filter.mp hc).1)]
      exact hf31.trans (hf1other off (fun hc => hin (hrecent off hc).1))
  · intro off hoff
    have hd := (hunusedSub off hoff).2
    have hnotfixed : ¬ fixed off = true := fun hfx => by
      have := (PruneEnv.not_dead_of_fixed hfx).1
      simp [hd] at this
    rw [hf4other off (fun hc => hnotfixed (mem_filter.mp hc).2)]
    exact hf3mem off hoff

/-- On the primary the dead row pointers are made unused right afterwards. -/
theorem execute_pruneDeadPointers
    (hdead : st.nowdead = p.offsetNumbers.filter (env.dead p)) (hunused : st.nowunused = []) :
    ∃ q, uheapPagePruneExecute false target st p = .ok q ∧
      pruneDeadPointers st q = prunedPage env isTarget p := by
  obtain ⟨f, hf, hlive, _⟩ := uheapPagePruneExecute_eq h hok htarget hdeleted hfixed false
    hdead hunused (fun off hoff => mem_filter.mp hoff) (by simp)
    (p.nodup_offsetNumbers.filter _) List.nodup_nil
  refine ⟨_, hf, ?_⟩
  have hfold : ∀ (offs : List Nat) (g : Nat → RowPtr),
      offs.foldl (fun p off => p.setRowPtr off .setUnused) { p with rowPtr := g } =
        { p with rowPtr := fun off => if off ∈ offs then .setUnused else g off } := by
    intro offs
    induction offs with
    | nil => intro g; simp
    | cons i is ih =>
      intro g
      rw [List.foldl_cons, UPage.setRowPtr, ih]
      congr 1
      funext off
      by_cases hi : off = i <;> simp [hi]
  rw [pruneDeadPointers, hfold, prunedPage]
  congr 1
  funext off
  by_cases hd : off ∈ p.offsetNumbers ∧ env.dead p off = true
  · have hmem : off ∈ st.nowdead := hdead ▸ mem_filter.mpr hd
    rw [if_pos hmem, prunedPtr, if_neg (not_not.mpr hd.1), if_pos hd.2]
  have hnot : off ∉ st.nowdead := fun hc => hd (mem_filter.mp (hdead ▸ hc))
  rw [if_neg hnot]
  apply hlive
  by_cases hin : off ∈ p.offsetNumbers
  · exact .inr (by simpa [hin] using hd)
  · exact .inl hin

/-- In recovery they come as unused ones, and may come as dead ones too. -/
theorem execute_recovery
    (hdead : st.nowdead = p.offsetNumbers.filter (env.dead p) ∨ st.nowdead = [])
    (hunused : st.nowunused = p.offsetNumbers.filter (env.dead p)) :
    uheapPagePruneExecute true target st p = .ok (prunedPage env isTarget p) := by
  have hsub : ∀ off ∈ st.nowdead, off ∈ p.offsetNumbers ∧ env.dead p off := by
    intro off hoff
    rcases hdead with hd | hd
    · rw [hd] at hoff
      exact mem_filter.mp hoff
    · simp [hd] at hoff
  have hnd : st.nowdead.Nodup := by
    rcases hdead with hd | hd
    · rw [hd]
      exact p.nodup_offsetNumbers.filter _
    · simp [hd]
  obtain ⟨f, hf, hlive, hgone⟩ := uheapPagePruneExecute_eq h hok htarget hdeleted hfixed true
    rfl hunused hsub (fun off hoff => mem_filter.mp hoff) hnd (p.nodup_offsetNumbers.filter _)
  rw [hf, prunedPage]
  congr 2
  funext off
  by_cases hd : off ∈ p.offsetNumbers ∧ env.dead p off = true
  · rw [hgone off (mem_filter.mpr hd), prunedPtr, if_neg (not_not.mpr hd.1), if_pos hd.2]
  apply hlive
  by_cases hin : off ∈ p.offsetNumbers
  · exact .inr (by simpa [hin] using hd)
  · exact .inl hin

end Execute

end OpenGauss.Ustore
