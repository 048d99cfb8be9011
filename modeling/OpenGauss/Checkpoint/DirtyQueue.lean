import OpenGauss.Lib.Ring
import Mathlib.Algebra.Ring.Nat
import Mathlib.Tactic.Common

/-!
# The dirty page queue

Backends push the buffers they dirty to a ring of slots: a slot is reserved at the tail
together with the recovery position of the queue, filled, and made valid. Buffers that are
written or invalidated leave their slot empty. The page writer moves the head over empty
slots and, when the queue is long, moves buffers from slots near the head to empty slots
behind them. Each access is one step.
-/

namespace OpenGauss.Checkpoint

open Function (update)

/-- `PAGE_QUEUE_SLOT_MIN_RESERVE_NUM` -/
def pageQueueSlotMinReserveNum : Nat := 2

/-- Where `push_pending_flush_queue` is, under the header lock of the buffer. -/
inductive Push
  | idle
  | reserved (loc lsn : Nat)
  | filled (loc : Nat)
deriving DecidableEq

inductive Writer
  | idle
  /-- the head is past the slot, whose state is not cleared yet -/
  | clearing (loc : Nat)
  /-- `ckpt_found_valid_and_invalid_buffer_loc`; the last slot found comes first -/
  | scanning (next stop : Nat) (valid : List Nat) (invalidNum lastInvalid : Nat)
  | readLoc (valid : List Nat) (lastInvalid : Nat)
  | writeLoc (valid : List Nat) (lastInvalid : Nat)
  | moving (valid : List Nat) (lastInvalid : Nat)
deriving DecidableEq

/-- Buffer 0 is `InvalidBuffer` and position 0 is `InvalidXLogRecPtr`. -/
structure Queue where
  /-- `dirty_page_queue_size` -/
  size : Nat
  /-- `MAX_INVALID_BUF_SLOT` -/
  maxInvalidBufSlot : Nat
  head : Nat
  tail : Nat
  /-- `dirty_page_queue_reclsn` -/
  recLsn : Nat
  slotBuffer : Nat → Nat
  /-- `SLOT_VALID` in `slot_state` -/
  slotValid : Nat → Bool
  bufRecLsn : Nat → Nat
  /-- `dirty_queue_loc`; `none` is `PG_UINT64_MAX` -/
  bufQueueLoc : Nat → Option Nat
  fullCkptExpectedFlushLoc : Nat
  pushing : Nat → Push
  writer : Writer

inductive Event
  | reserve (buffer : Nat)
  | fill (buffer : Nat)
  | publish (buffer : Nat)
  | removeDirtyPage (buffer : Nat)
  | updateRecLsn (lsn : Nat)
  | advanceHead
  | clearState
  | startPrune
  | scanSlot
  | readLoc
  | writeLoc
  | moveBuffer
  /-- a full checkpoint stores the location to wait for -/
  | setExpectedLoc (loc : Nat)
deriving DecidableEq

namespace Queue

variable (q : Queue)

def bufferAt (loc : Nat) : Nat := q.slotBuffer (loc % q.size)

def validAt (loc : Nat) : Bool := q.slotValid (loc % q.size)

/-- `get_dirty_page_num` -/
def dirtyPageNum : Nat := q.tail - q.head

/-- `atomic_push_pending_flush_queue` of a clean buffer. -/
def reserve (buffer : Nat) : Option Queue :=
  if buffer ≠ 0 ∧ q.pushing buffer = .idle ∧ q.bufRecLsn buffer = 0 ∧
      q.dirtyPageNum + pageQueueSlotMinReserveNum < q.size then
    some { q with
      tail := q.tail + 1
      pushing := update q.pushing buffer (.reserved q.tail q.recLsn) }
  else none

def fill (buffer : Nat) : Option Queue :=
  match q.pushing buffer with
  | .reserved loc lsn =>
    some { q with
      bufRecLsn := update q.bufRecLsn buffer lsn
      bufQueueLoc := update q.bufQueueLoc buffer (some (loc % q.size))
      slotBuffer := update q.slotBuffer (loc % q.size) buffer
      pushing := update q.pushing buffer (.filled loc) }
  | _ => none

def publish (buffer : Nat) : Option Queue :=
  match q.pushing buffer with
  | .filled loc =>
    some { q with
      slotValid := update q.slotValid (loc % q.size) true
      pushing := update q.pushing buffer .idle }
  | _ => none

/-- `remove_dirty_page_from_queue`, under the header lock. -/
def removeDirtyPage (buffer : Nat) : Option Queue :=
  match q.pushing buffer, q.bufQueueLoc buffer with
  | .idle, some slot =>
    some { q with
      slotBuffer := update q.slotBuffer slot 0
      bufRecLsn := update q.bufRecLsn buffer 0
      bufQueueLoc := update q.bufQueueLoc buffer none }
  | _, _ => none

/-- `update_dirty_page_queue_rec_lsn` -/
def updateRecLsn (lsn : Nat) : Queue :=
  if q.recLsn < lsn then { q with recLsn := lsn } else q

/-- The head moves over a valid slot without buffer, in
`ckpt_move_queue_head_after_flush` and `ckpt_try_skip_invalid_elem_in_queue_head`. -/
def advanceHead : Option Queue :=
  if q.writer = .idle ∧ q.head < q.tail ∧ q.validAt q.head ∧ q.bufferAt q.head = 0 then
    some { q with head := q.head + 1, writer := .clearing q.head }
  else none

def clearState : Option Queue :=
  match q.writer with
  | .clearing loc =>
    some { q with slotValid := update q.slotValid (loc % q.size) false, writer := .idle }
  | _ => none

/-- `ckpt_try_prune_dirty_page_queue` begins when six tenths of the slots are in use. -/
def startPrune : Option Queue :=
  if q.writer = .idle ∧ q.size * 6 ≤ q.dirtyPageNum * 10 then
    some { q with writer := .scanning q.head q.tail [] 0 0 }
  else none

/-- One slot of `ckpt_found_valid_and_invalid_buffer_loc`, or its end. -/
def scanSlot : Option Queue :=
  match q.writer with
  | .scanning next stop valid invalidNum lastInvalid =>
    if next < stop ∧ q.validAt next ∧ invalidNum < q.maxInvalidBufSlot ∧
        valid.length < q.maxInvalidBufSlot * 3 then
      if q.bufferAt next ≠ 0 then
        some { q with writer := .scanning (next + 1) stop (next :: valid) invalidNum lastInvalid }
      else some { q with writer := .scanning (next + 1) stop valid (invalidNum + 1) next }
    else if valid = [] ∨ invalidNum = 0 then some { q with writer := .idle }
    else some { q with writer := .readLoc valid lastInvalid }
  | _ => none

/-- The awaited location is compared with the slot the buffers move up to. -/
def readLoc : Option Queue :=
  match q.writer with
  | .readLoc valid lastInvalid =>
    if q.fullCkptExpectedFlushLoc < lastInvalid then
      some { q with writer := .writeLoc valid lastInvalid }
    else some { q with writer := .moving valid lastInvalid }
  | _ => none

def writeLoc : Option Queue :=
  match q.writer with
  | .writeLoc valid lastInvalid =>
    some { q with fullCkptExpectedFlushLoc := lastInvalid + 1, writer := .moving valid lastInvalid }
  | _ => none

/-- One pass of the loop that moves buffers. No step where the source panics. -/
def moveBuffer : Option Queue :=
  match q.writer with
  | .moving [] _ => some { q with writer := .idle }
  | .moving (loc :: valid) lastInvalid =>
    if lastInvalid = 0 then some { q with writer := .idle }
    else if lastInvalid ≤ loc ∨ q.bufferAt loc = 0 then
      some { q with writer := .moving valid lastInvalid }
    else if q.bufferAt lastInvalid ≠ 0 then none
    else some { q with
      slotBuffer := update
        (update q.slotBuffer (lastInvalid % q.size) (q.bufferAt loc)) (loc % q.size) 0
      bufQueueLoc := update q.bufQueueLoc (q.bufferAt loc) (some (lastInvalid % q.size))
      writer := .moving valid (lastInvalid - 1) }
  | _ => none

def step : Event → Option Queue
  | .reserve buffer => q.reserve buffer
  | .fill buffer => q.fill buffer
  | .publish buffer => q.publish buffer
  | .removeDirtyPage buffer => q.removeDirtyPage buffer
  | .updateRecLsn lsn => some (q.updateRecLsn lsn)
  | .advanceHead => q.advanceHead
  | .clearState => q.clearState
  | .startPrune => q.startPrune
  | .scanSlot => q.scanSlot
  | .readLoc => q.readLoc
  | .writeLoc => q.writeLoc
  | .moveBuffer => q.moveBuffer
  | .setExpectedLoc loc => some { q with fullCkptExpectedFlushLoc := loc }

end Queue

def emptyQueue (size maxInvalidBufSlot recLsn : Nat) : Queue where
  size := size
  maxInvalidBufSlot := maxInvalidBufSlot
  head := 0
  tail := 0
  recLsn := recLsn
  slotBuffer := fun _ => 0
  slotValid := fun _ => false
  bufRecLsn := fun _ => 0
  bufQueueLoc := fun _ => none
  fullCkptExpectedFlushLoc := 0
  pushing := fun _ => .idle
  writer := .idle

end OpenGauss.Checkpoint
