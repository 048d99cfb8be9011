import OpenGauss.Segment.Extents
import Mathlib.Logic.Function.Basic

/-!
# Block map of a segment

The segment head maps the first 1255 extents directly. The others are on level-0 pages
of 2000 slots, found through 256 level-1 slots of the head. The arrays of the head lie
behind each other in memory: level-0 slots, level-1 slots, heads of the other forks, the
rest of the page.
-/

namespace OpenGauss.Segment

open Function (update)

/-- `InvalidBlockNumber` -/
def invalidBlockNumber : Nat := 2 ^ 32 - 1

structure SegmentHead where
  nblocks : Nat
  nextents : Nat
  totalBlocks : Nat
  /-- the 32-bit words from `level0_slots[0]` on -/
  words : Nat → Nat

inductive SlotArray
  | level0
  | level1
deriving DecidableEq

namespace SlotArray

def base : SlotArray → Nat
  | level0 => 0
  | level1 => bmtHeaderLevel0Slots

def length : SlotArray → Nat
  | level0 => bmtHeaderLevel0Slots
  | level1 => bmtHeaderLevel1Slots

end SlotArray

/-- The first word behind the slots: `fork_head[0]`. -/
def forkHead : Nat := bmtHeaderLevel0Slots + bmtHeaderLevel1Slots

namespace SegmentHead

def slot (head : SegmentHead) (a : SlotArray) (i : Nat) : Nat := head.words (a.base + i)

def setSlot (head : SegmentHead) (a : SlotArray) (i v : Nat) : SegmentHead :=
  { head with words := update head.words (a.base + i) v }

end SegmentHead

/-- The head and the level-0 pages by block number. -/
structure SegState where
  head : SegmentHead
  level0Pages : Nat → Nat → Nat

def requireNewLevel0Page (newExtentId : Nat) : Bool :=
  if newExtentId < bmtHeaderLevel0Slots then false
  else (newExtentId - bmtHeaderLevel0Slots) % bmtLevel0Slots == 0

def extentIdToLevel1Slot (extentId : Nat) : Nat :=
  (extentId - bmtHeaderLevel0Slots) / bmtLevel0Slots

def extentIdToLevel0PageOffset (extentId : Nat) : Nat :=
  (extentId - bmtHeaderLevel0Slots) % bmtLevel0Slots

def segExtentLocation (s : SegState) (extentId : Nat) : Nat :=
  if extentId < bmtHeaderLevel0Slots then s.head.slot .level0 extentId
  else
    s.level0Pages (s.head.slot .level1 (extentIdToLevel1Slot extentId))
      (extentIdToLevel0PageOffset extentId)

/-! ## Log -/

structure XLogDataUpdateSegmentHead where
  level0Slot : Option Nat
  level0Value : Nat
  level1Slot : Option Nat
  level1Value : Nat
  nblocks : Nat
  totalBlocks : Nat
  nextents : Nat

inductive XLogRecord
  | updateSeghead (data : XLogDataUpdateSegmentHead)
  | newLevel0Page (page firstExtent : Nat)
  | level0PageAddExtent (page slot extent : Nat)

/-- Slots that are not logged are `-1` in the source. -/
def segHeadUpdateXlog (head : SegmentHead) (level0Slot level1Slot : Option Nat) : XLogRecord :=
  .updateSeghead
    { level0Slot := level0Slot
      level0Value := level0Slot.elim invalidBlockNumber (head.slot .level0)
      level1Slot := level1Slot
      level1Value := level1Slot.elim invalidBlockNumber (head.slot .level1)
      nblocks := head.nblocks
      totalBlocks := head.totalBlocks
      nextents := head.nextents }

def SegmentHead.setLogged (head : SegmentHead) (a : SlotArray) (i : Option Nat) (v : Nat) :
    SegmentHead :=
  i.elim head fun i => head.setSlot a i v

def redoUpdateSeghead (head : SegmentHead) (data : XLogDataUpdateSegmentHead) : SegmentHead :=
  { (head.setLogged .level0 data.level0Slot data.level0Value).setLogged .level1 data.level1Slot
      data.level1Value with
    nextents := data.nextents
    totalBlocks := data.totalBlocks
    nblocks := data.nblocks }

def initLevel0Page (firstExtent : Nat) : Nat → Nat := update (fun _ => 0) 0 firstExtent

def redo (s : SegState) : XLogRecord → SegState
  | .updateSeghead data => { s with head := redoUpdateSeghead s.head data }
  | .newLevel0Page page firstExtent =>
    { s with level0Pages := update s.level0Pages page (initLevel0Page firstExtent) }
  | .level0PageAddExtent page slot extent =>
    { s with
      level0Pages := update s.level0Pages page (update (s.level0Pages page) slot extent) }

/-! ## Growing and shrinking -/

def SegmentHead.countExtent (head : SegmentHead) : SegmentHead :=
  { head with
    nextents := (head.nextents + 1) % 2 ^ 32
    totalBlocks := (head.totalBlocks + extentSizeByCount head.nextents) % 2 ^ 32 }

def segInitNewLevel0Page (s : SegState) (newExtentId newLevel0Page firstExtent : Nat) :
    SegState × List XLogRecord :=
  (⟨s.head.setSlot .level1 (extentIdToLevel1Slot newExtentId) newLevel0Page,
      update s.level0Pages newLevel0Page (initLevel0Page firstExtent)⟩,
    [.newLevel0Page newLevel0Page firstExtent,
      segHeadUpdateXlog (s.head.setSlot .level1 (extentIdToLevel1Slot newExtentId) newLevel0Page)
        none (some (extentIdToLevel1Slot newExtentId))])

def segRecordNewExtentOnLevel0Page (s : SegState) (newExtentId newExtent : Nat) :
    SegState × List XLogRecord :=
  ({ s with
      level0Pages := update s.level0Pages
        (s.head.slot .level1 (extentIdToLevel1Slot newExtentId))
        (update (s.level0Pages (s.head.slot .level1 (extentIdToLevel1Slot newExtentId)))
          (extentIdToLevel0PageOffset newExtentId) newExtent) },
    [.level0PageAddExtent (s.head.slot .level1 (extentIdToLevel1Slot newExtentId))
      (extentIdToLevel0PageOffset newExtentId) newExtent])

/-- `newExtent` and `level0Page` are what the space allocator gives. -/
def segExtendSegment (s : SegState) (newExtent level0Page : Nat) : SegState × List XLogRecord :=
  if s.head.nextents < bmtHeaderLevel0Slots then
    ({ s with head := s.head.countExtent.setSlot .level0 s.head.nextents newExtent },
      [segHeadUpdateXlog (s.head.countExtent.setSlot .level0 s.head.nextents newExtent)
        (some s.head.nextents) none])
  else if requireNewLevel0Page s.head.nextents then
    segInitNewLevel0Page { s with head := s.head.countExtent } s.head.nextents level0Page newExtent
  else
    ((segRecordNewExtentOnLevel0Page { s with head := s.head.countExtent } s.head.nextents
        newExtent).1,
      (segRecordNewExtentOnLevel0Page { s with head := s.head.countExtent } s.head.nextents
        newExtent).2 ++ [segHeadUpdateXlog s.head.countExtent none none])

def freeLastExtentSlot (head : SegmentHead) (lastExtId : Nat) : SegmentHead × List XLogRecord :=
  if requireNewLevel0Page lastExtId then
    (head.setSlot .level1 (extentIdToLevel1Slot lastExtId) invalidBlockNumber,
      [segHeadUpdateXlog
        (head.setSlot .level1 (extentIdToLevel1Slot lastExtId) invalidBlockNumber)
        none (some (extentIdToLevel1Slot lastExtId))])
  else
    (head.setSlot .level0 lastExtId invalidBlockNumber,
      [segHeadUpdateXlog (head.setSlot .level0 lastExtId invalidBlockNumber) (some lastExtId) none])

def SegmentHead.uncountExtent (head : SegmentHead) : SegmentHead :=
  { head with
    nextents := head.nextents - 1
    totalBlocks := (head.totalBlocks + 2 ^ 32 - extentSizeByCount (head.nextents - 1)) % 2 ^ 32
    nblocks := extentIdToLogicBlockNum (head.nextents - 1) }

/-- Checks that there is an extent to free. -/
def freeLastExtent (s : SegState) : SegState × List XLogRecord :=
  if s.head.nextents = 0 then (s, [])
  else
    ({ s with head := (freeLastExtentSlot s.head.uncountExtent (s.head.nextents - 1)).1 },
      (freeLastExtentSlot s.head.uncountExtent (s.head.nextents - 1)).2)

inductive SegOp
  | extend (newExtent level0Page : Nat)
  | freeLast

def segStep (s : SegState) : SegOp → SegState × List XLogRecord
  | .extend newExtent level0Page => segExtendSegment s newExtent level0Page
  | .freeLast => freeLastExtent s

def segRun : SegState → List SegOp → SegState × List XLogRecord
  | s, [] => (s, [])
  | s, op :: ops =>
    ((segRun (segStep s op).1 ops).1, (segStep s op).2 ++ (segRun (segStep s op).1 ops).2)

/-- The array and index of the slot that freeing an extent sets to invalid. -/
def freedSlot (lastExtId : Nat) : SlotArray × Nat :=
  if requireNewLevel0Page lastExtId then (.level1, extentIdToLevel1Slot lastExtId)
  else (.level0, lastExtId)

/-- The extents that are live after an operation. -/
def liveAfter (live : List Nat) : SegOp → List Nat
  | .extend newExtent _ => live ++ [newExtent]
  | .freeLast => live.dropLast

end OpenGauss.Segment
