import OpenGauss.Lib.BinaryHeap
import Mathlib.Algebra.Ring.Nat

/-!
# Space of a column file

`ComputeFreeSpace` reads the descriptors of the column units in any order, merges
them into runs ordered by offset and keeps the holes between the runs in a heap.
`AllocSpace` serves a request from the largest hole, or behind the last unit.
-/

namespace OpenGauss.CStore

open Lib

/-- `CStoreFreeSpaceDesc`, also used as `CStoreSpaceDesc` -/
structure CStoreFreeSpaceDesc where
  beginOffset : Nat
  size : Nat
deriving DecidableEq

namespace CStoreFreeSpaceDesc

def endOffset (d : CStoreFreeSpaceDesc) : Nat := d.beginOffset + d.size

def Holds (d : CStoreFreeSpaceDesc) (p : Nat) : Prop := d.beginOffset ≤ p ∧ p < d.endOffset

/-- No byte belongs to both. -/
def Apart (d e : CStoreFreeSpaceDesc) : Prop := ∀ p, d.Holds p → ¬ e.Holds p

end CStoreFreeSpaceDesc

/-- `MinAvailableCStoreFSMSize` -/
def minAvailableCStoreFSMSize : Nat := 1024

/-- `MaxNumOfHoleFSM` -/
def maxNumOfHoleFSM : Nat := 100 * 1024 * 1024 / 16

structure CStoreFreeSpace where
  descs : Nat → CStoreFreeSpaceDesc
  descNum : Nat
  maxSize : Nat

namespace CStoreFreeSpace

def initializeFsm (maxSize : Nat) : CStoreFreeSpace := ⟨fun _ => ⟨0, 0⟩, 0, maxSize⟩

variable (fsm : CStoreFreeSpace)

def items : List CStoreFreeSpaceDesc := BinaryHeap.items fsm.descs fsm.descNum

def isEmpty : Bool := fsm.descNum == 0

def isFull : Bool := fsm.descNum == fsm.maxSize

def push (desc : CStoreFreeSpaceDesc) : CStoreFreeSpace :=
  if fsm.maxSize == fsm.descNum then fsm
  else
    { fsm with
      descs := BinaryHeap.push (·.size) fsm.descs fsm.descNum desc
      descNum := fsm.descNum + 1 }

/-- Leaves `desc` as it is when there is nothing to take. -/
def popDescWithMaxSize (desc : CStoreFreeSpaceDesc) : CStoreFreeSpaceDesc × CStoreFreeSpace :=
  if fsm.descNum == 0 then (desc, fsm)
  else
    (fsm.descs 1,
      { fsm with
        descs := BinaryHeap.pop (·.size) fsm.descs fsm.descNum
        descNum := fsm.descNum - 1 })

def hasEnoughSpace (size : Nat) : Bool :=
  if fsm.isEmpty then false else decide (size ≤ (fsm.descs 1).size)

end CStoreFreeSpace

/-! ## ComputeFreeSpace -/

/-- What a tuple of the CUDesc table says about space. Units end below `2 ^ 64`. -/
structure CUDesc where
  cuPointer : Option Nat
  size : Nat
  fits : ∀ p ∈ cuPointer, p + size < 2 ^ 64

/-- The space of a unit; none for units without data in the file. -/
def CUDesc.spaceDesc (c : CUDesc) : Option CStoreFreeSpaceDesc :=
  if c.size = 0 then none else c.cuPointer.map fun p => ⟨p, c.size⟩

/-- The loop that merges a descriptor into the runs or inserts it in order. -/
def mergeDesc (spaceDesc : CStoreFreeSpaceDesc) :
    List CStoreFreeSpaceDesc → List CStoreFreeSpaceDesc
  | [] => [spaceDesc]
  | curEntry :: rest =>
    if curEntry.beginOffset + curEntry.size = spaceDesc.beginOffset then
      match rest with
      | [] => [⟨curEntry.beginOffset, curEntry.size + spaceDesc.size⟩]
      | nextEntry :: rest' =>
        if nextEntry.beginOffset = curEntry.beginOffset + (curEntry.size + spaceDesc.size) then
          ⟨curEntry.beginOffset, curEntry.size + spaceDesc.size + nextEntry.size⟩ :: rest'
        else ⟨curEntry.beginOffset, curEntry.size + spaceDesc.size⟩ :: nextEntry :: rest'
    else if spaceDesc.beginOffset < curEntry.beginOffset then
      if spaceDesc.beginOffset + spaceDesc.size = curEntry.beginOffset then
        ⟨spaceDesc.beginOffset, curEntry.size + spaceDesc.size⟩ :: rest
      else spaceDesc :: curEntry :: rest
    else curEntry :: mergeDesc spaceDesc rest

/-- The scan of the CUDesc table; `none` when there are too many runs. -/
def scanDescs : List CUDesc → List CStoreFreeSpaceDesc → Option (List CStoreFreeSpaceDesc)
  | [], runs => some runs
  | tup :: tups, runs =>
    match tup.spaceDesc with
    | none => scanDescs tups runs
    | some d =>
      -- a merge never makes the list longer, so this is tested where an entry is new
      if maxNumOfHoleFSM < (mergeDesc d runs).length then none
      else scanDescs tups (mergeDesc d runs)

def pushHoles : List CStoreFreeSpaceDesc → CStoreFreeSpace → CStoreFreeSpace
  | curEntry :: nextEntry :: rest, fspace =>
    if (curEntry.beginOffset + curEntry.size + minAvailableCStoreFSMSize) % 2 ^ 64 <
        nextEntry.beginOffset then
      if (fspace.push ⟨curEntry.beginOffset + curEntry.size,
          nextEntry.beginOffset - (curEntry.beginOffset + curEntry.size)⟩).isFull then
        fspace.push ⟨curEntry.beginOffset + curEntry.size,
          nextEntry.beginOffset - (curEntry.beginOffset + curEntry.size)⟩
      else
        pushHoles (nextEntry :: rest) (fspace.push ⟨curEntry.beginOffset + curEntry.size,
          nextEntry.beginOffset - (curEntry.beginOffset + curEntry.size)⟩)
    else pushHoles (nextEntry :: rest) fspace
  | _, fspace => fspace

def pushFirstHole (runs : List CStoreFreeSpaceDesc) (fspace : CStoreFreeSpace) : CStoreFreeSpace :=
  match runs.head? with
  | none => fspace
  | some entry =>
    if minAvailableCStoreFSMSize < entry.beginOffset then fspace.push ⟨0, entry.beginOffset⟩
    else fspace

def computeFreeSpace (tups : List CUDesc) (fspace : CStoreFreeSpace) : CStoreFreeSpace :=
  match scanDescs tups [] with
  | none => fspace
  | some runs => pushHoles runs (pushFirstHole runs fspace)

/-! ## Requests -/

structure Request where
  size : Nat
  alignSize : Nat
  align_pos : 0 < alignSize
  fits : size + alignSize < 2 ^ 64

/-- The descriptor moved to the next multiple of the alignment. -/
def alignDesc (desc : CStoreFreeSpaceDesc) (alignSize : Nat) : CStoreFreeSpaceDesc :=
  if desc.beginOffset % alignSize ≠ 0 then
    ⟨desc.beginOffset + alignSize - desc.beginOffset % alignSize,
      desc.size - desc.beginOffset % alignSize⟩
  else desc

/-- The front of `desc` is taken; what is left goes back to the heap. -/
def pushRest (fsm : CStoreFreeSpace) (desc : CStoreFreeSpaceDesc) (size : Nat) : CStoreFreeSpace :=
  if 0 < desc.size - size then fsm.push ⟨desc.beginOffset + size, desc.size - size⟩ else fsm

def tryAcquireSpaceFromFSM (fsm : CStoreFreeSpace) (r : Request) : Option Nat × CStoreFreeSpace :=
  if !fsm.hasEnoughSpace (r.size + r.alignSize) then (none, fsm)
  else
    (some (alignDesc (fsm.popDescWithMaxSize ⟨0, 0⟩).1 r.alignSize).beginOffset,
      pushRest (fsm.popDescWithMaxSize ⟨0, 0⟩).2
        (alignDesc (fsm.popDescWithMaxSize ⟨0, 0⟩).1 r.alignSize) r.size)

/-- The first multiple of the alignment at or behind `offset`. -/
def alignOffset (offset alignSize : Nat) : Nat :=
  if offset % alignSize ≠ 0 then offset + alignSize - offset % alignSize else offset

/-- The offset given out and the new end. -/
def acquireSpace (maxOffset : Nat) (r : Request) : Nat × Nat :=
  (alignOffset maxOffset r.alignSize, alignOffset maxOffset r.alignSize + r.size)

structure ColumnSpace where
  fsm : CStoreFreeSpace
  maxOffset : Nat

def columnSpace (tups : List CUDesc) (maxSize maxOffset : Nat) : ColumnSpace :=
  ⟨computeFreeSpace tups (.initializeFsm maxSize), maxOffset⟩

/-- `AllocSpace` under `USING_FREE_SPACE` -/
def allocSpace (s : ColumnSpace) (r : Request) : Nat × ColumnSpace :=
  match tryAcquireSpaceFromFSM s.fsm r with
  | (some offset, fsm) => (offset, { s with fsm := fsm })
  | (none, fsm) => ((acquireSpace s.maxOffset r).1, ⟨fsm, (acquireSpace s.maxOffset r).2⟩)

/-- The requests with the offsets they got, and the state after them. -/
def allocSpaces : ColumnSpace → List Request → List (Request × Nat) × ColumnSpace
  | s, [] => ([], s)
  | s, r :: rs =>
    ((r, (allocSpace s r).1) :: (allocSpaces (allocSpace s r).2 rs).1,
      (allocSpaces (allocSpace s r).2 rs).2)

def granted (g : Request × Nat) : CStoreFreeSpaceDesc := ⟨g.2, g.1.size⟩

end OpenGauss.CStore
