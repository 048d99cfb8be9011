import Mathlib.Tactic.Common
import Mathlib.Algebra.BigOperators.Group.List.Basic
import Mathlib.Algebra.Ring.Nat

/-!
# Extents of a segment

A segment grows extent by extent. The size of an extent depends on its number only,
so the number of the first block of an extent is fixed too. Page-compressed segments
give one block of every 128 to the addresses of the other 127, except in the extents
of 8 blocks.
-/

namespace OpenGauss.Segment

/-- `ExtentBoundary` -/
@[simp, reducible] def extSize8Boundary : Nat := 16
@[simp, reducible] def extSize128Boundary : Nat := 143
@[simp, reducible] def extSize1024Boundary : Nat := 255

/-- `ExtentTotalPages` -/
@[simp, reducible] def extSize8TotalPages : Nat := 128
@[simp, reducible] def extSize128TotalPages : Nat := 16384
@[simp, reducible] def extSize1024TotalPages : Nat := 131072
@[simp, reducible] def cfsExtSize8TotalPages : Nat := 128
@[simp, reducible] def cfsExtSize128TotalPages : Nat := 16257
@[simp, reducible] def cfsExtSize1024TotalPages : Nat := 130049

/-- `BMT_HEADER_LEVEL0_SLOTS`, `BMT_HEADER_LEVEL1_SLOTS`, `BMT_LEVEL0_SLOTS` -/
@[simp, reducible] def bmtHeaderLevel0Slots : Nat := 1255
@[simp, reducible] def bmtHeaderLevel1Slots : Nat := 256
@[simp, reducible] def bmtLevel0Slots : Nat := 2000

@[simp, reducible] def maxExtents : Nat :=
  bmtHeaderLevel0Slots + bmtHeaderLevel1Slots * bmtLevel0Slots

/-- `DF_MAP_HEAD_PAGE`, `DF_MAP_GROUP_SIZE`, `DF_MAP_BIT_CNT`, `DF_MAP_GROUP_EXTENTS` -/
@[simp, reducible] def dfMapHeadPage : Nat := 2
@[simp, reducible] def dfMapGroupSize : Nat := 64
@[simp, reducible] def dfMapBitCnt : Nat := 65248
@[simp, reducible] def dfMapGroupExtents : Nat := 4175872

/-- `IPBLOCK_GROUP_SIZE`: blocks with inverse pointers of a group -/
@[simp, reducible] def ipblockGroupSize : Nat := 4090

def extentSizeByCount (count : Nat) : Nat :=
  if count < extSize8Boundary then 8
  else if count < extSize128Boundary then 128
  else if count < extSize1024Boundary then 1024
  else 8192

def cfsExtentSizeByCount (count : Nat) : Nat :=
  if count < extSize8Boundary then 8
  else if count < extSize128Boundary then 127
  else if count < extSize1024Boundary then 1016
  else 8128

def extentIdToLogicBlockNum (extentId : Nat) : Nat :=
  if extentId < extSize8Boundary then extentId * 8
  else if extentId < extSize128Boundary then
    (extentId - extSize8Boundary) * 128 + extSize8TotalPages
  else if extentId < extSize1024Boundary then
    (extentId - extSize128Boundary) * 1024 + extSize128TotalPages
  else ((extentId - extSize1024Boundary) * 8192 + extSize1024TotalPages) % 2 ^ 32

def extentIdToLogicBlocknumInCfs (extentId : Nat) : Nat :=
  if extentId < extSize8Boundary then extentId * 8
  else if extentId < extSize128Boundary then
    (extentId - extSize8Boundary) * 127 + cfsExtSize8TotalPages
  else if extentId < extSize1024Boundary then
    (extentId - extSize128Boundary) * 1016 + cfsExtSize128TotalPages
  else ((extentId - extSize1024Boundary) * 8128 + cfsExtSize1024TotalPages) % 2 ^ 32

/-- The four ranges of extents, with the sizes and the starts of the extents of each, on disk
and in logical blocks of a compressed segment, up to where the numbers wrap. -/
theorem extent_ranges (n : Nat) :
    n < 16 ∧ extentSizeByCount n = 8 ∧ cfsExtentSizeByCount n = 8 ∧
      extentIdToLogicBlockNum n = n * 8 ∧ extentIdToLogicBlocknumInCfs n = n * 8 ∨
    16 ≤ n ∧ n < 143 ∧ extentSizeByCount n = 128 ∧ cfsExtentSizeByCount n = 127 ∧
      extentIdToLogicBlockNum n = (n - 16) * 128 + 128 ∧
      extentIdToLogicBlocknumInCfs n = (n - 16) * 127 + 128 ∨
    143 ≤ n ∧ n < 255 ∧ extentSizeByCount n = 1024 ∧ cfsExtentSizeByCount n = 1016 ∧
      extentIdToLogicBlockNum n = (n - 143) * 1024 + 16384 ∧
      extentIdToLogicBlocknumInCfs n = (n - 143) * 1016 + 16257 ∨
    255 ≤ n ∧ extentSizeByCount n = 8192 ∧ cfsExtentSizeByCount n = 8128 ∧
      (n ≤ 524526 → extentIdToLogicBlockNum n = (n - 255) * 8192 + 131072) ∧
      (n ≤ 528655 → extentIdToLogicBlocknumInCfs n = (n - 255) * 8128 + 130049) := by
  unfold extentSizeByCount cfsExtentSizeByCount extentIdToLogicBlockNum
    extentIdToLogicBlocknumInCfs
  simp only [extSize8Boundary, extSize128Boundary, extSize1024Boundary, extSize8TotalPages,
    extSize128TotalPages, extSize1024TotalPages, cfsExtSize8TotalPages, cfsExtSize128TotalPages,
    cfsExtSize1024TotalPages]
  split_ifs <;> omega

theorem extentSizeByCount_pos (n : Nat) : 0 < extentSizeByCount n := by
  have := extent_ranges n
  omega

/-- An extent begins where the one before it ends, as long as the numbers do not wrap. -/
theorem extentIdToLogicBlockNum_succ {n : Nat} (hn : n < 524526) :
    extentIdToLogicBlockNum (n + 1) = extentIdToLogicBlockNum n + extentSizeByCount n := by
  have := extent_ranges n
  have := extent_ranges (n + 1)
  omega

theorem extentIdToLogicBlockNum_lt {n : Nat} (h : n ≤ maxExtents) :
    extentIdToLogicBlockNum n < 2 ^ 32 := by
  have hn : n ≤ 513255 := h
  have := extent_ranges n
  omega

/-- The blocks of the first `n` extents. -/
def sumSizes (n : Nat) : Nat := ((List.range n).map extentSizeByCount).sum

theorem sumSizes_succ (n : Nat) : sumSizes (n + 1) = sumSizes n + extentSizeByCount n := by
  simp [sumSizes, List.range_succ]

theorem sumSizes_eq : ∀ {n : Nat}, n ≤ maxExtents → sumSizes n = extentIdToLogicBlockNum n := by
  intro n
  induction n with
  | zero =>
    intro _
    rfl
  | succ n ih =>
    intro h
    rw [sumSizes_succ, extentIdToLogicBlockNum_succ (Nat.lt_of_lt_of_le h (by decide)),
      ih (Nat.le_of_succ_le h)]

end OpenGauss.Segment
