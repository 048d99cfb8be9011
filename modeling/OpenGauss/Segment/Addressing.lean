import OpenGauss.Segment.BlockMapSound

/-!
# From logical blocks to blocks of extent files

A logical block is looked up by the number of its extent and the offset in it. In a
page-compressed segment the extents from 128 blocks on consist of CFS extents of 128
blocks whose last block holds addresses, so that a block is found from its physical
number alone.
-/

namespace OpenGauss.Segment

/-- Number of an extent, offset in it, and its size. -/
structure ExtentPos where
  extentId : Nat
  offset : Nat
  extentSize : Nat
deriving DecidableEq

def segLogicPageIdToExtentId (logicId : Nat) : ExtentPos :=
  if logicId < extSize8TotalPages then ⟨logicId / 8, logicId % 8, 8⟩
  else if logicId < extSize128TotalPages then
    ⟨extSize8Boundary + (logicId - extSize8TotalPages) / 128,
      (logicId - extSize8TotalPages) % 128, 128⟩
  else if logicId < extSize1024TotalPages then
    ⟨extSize128Boundary + (logicId - extSize128TotalPages) / 1024,
      (logicId - extSize128TotalPages) % 1024, 1024⟩
  else
    ⟨extSize1024Boundary + (logicId - extSize1024TotalPages) / 8192,
      (logicId - extSize1024TotalPages) % 8192, 8192⟩

def segGetExtentIdByLogicBlknoInCfs (logicBlkno : Nat) : ExtentPos :=
  if logicBlkno < cfsExtSize8TotalPages then ⟨logicBlkno / 8, logicBlkno % 8, 8⟩
  else if logicBlkno < cfsExtSize128TotalPages then
    ⟨extSize8Boundary + (logicBlkno - cfsExtSize8TotalPages) / 127,
      (logicBlkno - cfsExtSize8TotalPages) % 127, 128⟩
  else if logicBlkno < cfsExtSize1024TotalPages then
    ⟨extSize128Boundary + (logicBlkno - cfsExtSize128TotalPages) / 1016,
      (logicBlkno - cfsExtSize128TotalPages) % 1016, 1024⟩
  else
    ⟨extSize1024Boundary + (logicBlkno - cfsExtSize1024TotalPages) / 8128,
      (logicBlkno - cfsExtSize1024TotalPages) % 8128, 8192⟩

def segPhysicalToLogicBlkno (physicalBlkno : Nat) : Nat :=
  if physicalBlkno < cfsExtSize8TotalPages then physicalBlkno
  else
    (cfsExtSize8TotalPages + (physicalBlkno - cfsExtSize8TotalPages) / 128 * 127 +
      (physicalBlkno - cfsExtSize8TotalPages) % 128) % 2 ^ 32

def segCfsLogicToPhysicMapping (compress : Bool) (logicBlkno extentStart offset : Nat) : Nat :=
  if !compress || decide (logicBlkno < cfsExtSize8TotalPages) then (extentStart + offset) % 2 ^ 32
  else (extentStart + offset / 127 * 128 + offset % 127) % 2 ^ 32

/-- The extent a logical block is in. -/
def segExtentPos (compress : Bool) (logicId : Nat) : ExtentPos :=
  if compress && decide (cfsExtSize8TotalPages ≤ logicId) then
    segGetExtentIdByLogicBlknoInCfs logicId
  else segLogicPageIdToExtentId logicId

structure SegPageLocation where
  extentSize : Nat
  extentId : Nat
  blocknum : Nat
deriving DecidableEq

def segLogicToPhysicMapping (compress : Bool) (s : SegState) (logicId : Nat) : SegPageLocation where
  extentSize := (segExtentPos compress logicId).extentSize
  extentId := (segExtentPos compress logicId).extentId
  blocknum := segCfsLogicToPhysicMapping compress logicId
    (segExtentLocation s (segExtentPos compress logicId).extentId)
    (segExtentPos compress logicId).offset

/-- Offset in the CFS extent and its first block, in 32-bit arithmetic. -/
def segGetCfsExtentByPhyBlockNum (extentSize blocknum : Nat) : Nat × Nat :=
  let groupTotalBlocks := (dfMapGroupSize + ipblockGroupSize + dfMapGroupExtents * extentSize) % 2 ^ 32
  let offsetInGroup := (blocknum + 2 ^ 32 - dfMapHeadPage - 1) % 2 ^ 32 % groupTotalBlocks
  let offsetInGroupData := (offsetInGroup + 2 ^ 32 - (dfMapGroupSize + ipblockGroupSize)) % 2 ^ 32
  (offsetInGroupData % 128, (blocknum + 2 ^ 32 - offsetInGroupData % 128) % 2 ^ 32)

/-! ## Segments -/

/-- Where the allocator places extents: behind the map and inverse pointer pages of a
group, one after the other. -/
def Placed (extentSize start : Nat) : Prop :=
  ∃ g k, k < dfMapGroupExtents ∧
    start = dfMapHeadPage + 1 +
      g * (dfMapGroupSize + ipblockGroupSize + dfMapGroupExtents * extentSize) +
      (dfMapGroupSize + ipblockGroupSize) + k * extentSize ∧
    start + extentSize ≤ 2 ^ 32

/-- What the allocator gives for the extents of one segment, by their number. -/
structure Supply where
  count : Nat
  extent : Nat → Nat
  level0Page : Nat → Nat
  count_le : count ≤ maxExtents
  placed : ∀ i < count, Placed (extentSizeByCount i) (extent i)
  extents_ne : ∀ i j, i < j → j < count → extentSizeByCount i = extentSizeByCount j →
    extent i ≠ extent j
  pages_ne : ∀ i j, i < j → j < count → requireNewLevel0Page i = true →
    requireNewLevel0Page j = true → level0Page i ≠ level0Page j

/-- The logical blocks the extend loop takes a segment to have. -/
def capacity (compress : Bool) (head : SegmentHead) : Nat :=
  if compress then segPhysicalToLogicBlkno head.totalBlocks else head.totalBlocks

/-- The loop of `seg_extend_internal`. -/
def segExtendInternal (compress : Bool) (sup : Supply) (blocknum : Nat) : Nat → SegState → SegState
  | 0, s => s
  | fuel + 1, s =>
    if capacity compress s.head ≤ blocknum then
      segExtendInternal compress sup blocknum fuel
        (segExtendSegment s (sup.extent s.head.nextents) (sup.level0Page s.head.nextents)).1
    else s

/-- A segment extended for one block after the other. -/
def segExtendAll (compress : Bool) (sup : Supply) (blocknums : List Nat) (s : SegState) : SegState :=
  blocknums.foldl (fun s b => segExtendInternal compress sup b sup.count s) s

end OpenGauss.Segment
