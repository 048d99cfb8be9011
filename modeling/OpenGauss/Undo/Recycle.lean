import OpenGauss.Undo.RecordIo

/-!
# Recycling an undo zone

`RecycleUndoSpace` walks the transaction slots of a zone from the recycle
pointer to the allocate pointer, one slot page at a time, moves the discard
marks of the zone over the undo of the slots it passes and unlinks the
segment files that fall below them.

Every status a slot's transaction can have is read through `RecycleEnv`; one
run sees one value of each.
-/

namespace OpenGauss.Undo

def FirstNormalTransactionId : TransactionId := 3
def UNDO_LOG_MAX_SIZE : Nat := 2 ^ 44
def UNDO_LOG_SEGMENT_SIZE : Nat := 1024 * 1024
def UNDO_META_SEGMENT_SIZE : Nat := 1024 * 32
def TRANSLOT_ROLLBACK_FINISH : UInt8 := 0x01
def INVALID_UNDO_PTR : Nat := 0

/-! ## Transaction slots -/

/-- `TransactionSlot`; the undo pointers are 64-bit values as `Nat`. -/
structure TransactionSlot where
  xactId : TransactionId
  startUndoPtr : Nat
  endUndoPtr : Nat
  info : UInt8
  deriving DecidableEq

/-- `MAXALIGN(sizeof(TransactionSlot))` -/
def sizeofTransactionSlot : Nat := 32

def TransactionSlot.needRollback (slot : TransactionSlot) : Bool :=
  slot.info &&& TRANSLOT_ROLLBACK_FINISH == 0

/-- The offset part of `GetNextSlotPtr`: the next slot of the page, or the
first slot of the next page when no whole slot is left. -/
def nextSlotOffset (slotOffset : Nat) : Nat :=
  let block := slotOffset / BLCKSZ
  let offset := slotOffset % BLCKSZ + sizeofTransactionSlot
  if BLCKSZ < sizeofTransactionSlot + offset then
    (block + 1) * BLCKSZ + UNDO_LOG_BLOCK_HEADER_SIZE
  else
    offset + block * BLCKSZ

def getNextSlotPtr (slotPtr : Nat) : Nat :=
  makeUndoPtr (undoPtrGetZoneId slotPtr) (nextSlotOffset (undoPtrGetOffset slotPtr))

/-! ## The zone -/

/-- `UndoSpace`: the heads of one kind of segment file, and the numbers of the
segments unlinked so far. -/
structure UndoSpace where
  head : Nat
  headExrto : Nat
  unlinked : List Nat
  deriving DecidableEq

/-- `UndoZone`; marks and slot pointers are offsets in the zone, as stored. -/
structure UndoZone where
  zid : Nat
  insertURecPtr : Nat
  discardURecPtr : Nat
  forceDiscardURecPtr : Nat
  allocateTSlotPtr : Nat
  recycleTSlotPtr : Nat
  recycleXid : TransactionId
  undoSpace : UndoSpace
  slotSpace : UndoSpace
  deriving DecidableEq

/-- The arguments of `RecycleUndoSpace`, the instance-wide values it reads and
the status of transactions. -/
structure RecycleEnv where
  recycleXmin : TransactionId
  frozenXid : TransactionId
  forceRecycleXid : TransactionId
  globalFrozenXid : TransactionId
  globalRecycleXid : TransactionId
  hotStandbyRecycleXid : TransactionId
  /-- `RecoveryInProgress()` -/
  recoveryInProgress : Bool
  /-- `t_thrd.undorecycler_cxt.is_recovery_in_progress` -/
  recyclerInRecovery : Bool
  transactionIdIsInProgress : TransactionId → Bool
  uheapTransactionIdDidCommit : TransactionId → Bool

/-- `UndoZone::CheckRecycle` with `isexrto` false. A start past the
force-discard mark is accepted with a log line. -/
def UndoZone.checkRecycle (zone : UndoZone) (starturp endurp : Nat) : Bool :=
  let startZid := undoPtrGetZoneId starturp
  let endZid := undoPtrGetZoneId endurp
  let start := undoPtrGetOffset starturp
  let «end» := undoPtrGetOffset endurp
  (startZid == endZid && zone.forceDiscardURecPtr ≤ zone.insertURecPtr &&
      «end» ≤ zone.insertURecPtr && start < «end» && start == zone.forceDiscardURecPtr) ||
    zone.forceDiscardURecPtr < start

/-! ## Segment files -/

/-- The unlink loop of `UnlinkUndoLog`: the segments hit from `head` on, in
steps of one segment, while below `offset`. -/
def unlinkLoop (segSize offset : Nat) : Nat → Nat → List Nat
  | 0, _ => []
  | fuel + 1, head =>
    if head < offset then
      head / segSize :: unlinkLoop segSize offset fuel (head + segSize)
    else []

variable (env : RecycleEnv)

/-- `UndoSpace::UnlinkUndoLog`. Each turn of the loop moves the head up, so
`offset` turns are enough. -/
def UndoSpace.unlinkUndoLog (space : UndoSpace) (segSize offset : Nat) :
    UndoSpace where
  head := offset
  headExrto := if env.recyclerInRecovery then offset else space.headExrto
  unlinked := space.unlinked ++ unlinkLoop segSize offset offset
    (if env.recyclerInRecovery then space.headExrto else space.head)

/-- The body `ReleaseSpace` and `ReleaseSlotSpace` share: whole segments
between the head and `endPtr` go. -/
def UndoSpace.release (space : UndoSpace) (segSize endPtr : Nat) : UndoSpace :=
  let head := if env.recyclerInRecovery then space.headExrto else space.head
  let startSegno := head / segSize
  let endSegno := undoPtrGetOffset endPtr / segSize
  if startSegno < endSegno then space.unlinkUndoLog env segSize (endSegno * segSize) else space

def UndoZone.releaseSpace (zone : UndoZone) (endurp : Nat) : UndoZone :=
  { zone with undoSpace := zone.undoSpace.release env UNDO_LOG_SEGMENT_SIZE endurp }

def UndoZone.releaseSlotSpace (zone : UndoZone) (endSlotPtr : Nat) : UndoZone :=
  { zone with slotSpace := zone.slotSpace.release env UNDO_META_SEGMENT_SIZE endSlotPtr }

/-! ## One slot -/

def RecycleEnv.transactionIdOlderThanAllUndo (xid : TransactionId) : Bool :=
  xid < if env.recoveryInProgress then env.hotStandbyRecycleXid else env.globalRecycleXid

def RecycleEnv.transactionIdOlderThanFrozenXid (xid : TransactionId) : Bool :=
  xid < if env.recoveryInProgress then env.hotStandbyRecycleXid else env.globalFrozenXid

/-- `RecheckUndoRecycleXid`: `true` where it raises a PANIC and not a mere
warning. -/
def RecycleEnv.recheckUndoRecycleXid (slot : TransactionSlot) : Bool :=
  env.transactionIdOlderThanAllUndo env.globalFrozenXid ||
    (slot.xactId != InvalidTransactionId && env.transactionIdOlderThanFrozenXid slot.xactId &&
      !env.uheapTransactionIdDidCommit slot.xactId && slot.needRollback)

/-- What the inner loop does with a slot. -/
inductive SlotVerdict
  | panic
  | stop
  /-- The slot is passed, by the forced branch or not. -/
  | pass (force : Bool)
  deriving DecidableEq

def RecycleEnv.slotVerdict (slot : TransactionSlot) : SlotVerdict :=
  if slot.xactId = InvalidTransactionId then
    if env.recheckUndoRecycleXid slot then .panic else .stop
  else if slot.startUndoPtr = INVALID_UNDO_PTR then .stop
  else if slot.xactId < env.globalRecycleXid ∧ env.recheckUndoRecycleXid slot then .panic
  else if slot.xactId < env.recycleXmin then
    if env.frozenXid ≤ slot.xactId then .stop else .pass false
  else if ¬(FirstNormalTransactionId ≤ env.forceRecycleXid ∧ slot.xactId < env.forceRecycleXid) then
    .stop
  else if env.transactionIdIsInProgress slot.xactId then .stop
  -- an asynchronous rollback is requested here; the slot stays
  else if !env.uheapTransactionIdDidCommit slot.xactId && slot.needRollback then .stop
  else .pass true

/-! ## The loops -/

/-- The local variables of `RecycleUndoSpace` that live across slots. -/
structure RecycleScan where
  recyclePtr : Nat
  startUndoPtr : Nat
  endUndoPtr : Nat
  oldestEndUndoPtr : Nat
  forceRecycle : Bool
  recycleXid : TransactionId
  undoRecycled : Bool
  deriving DecidableEq

/-- The updates made for a slot that is passed. -/
def RecycleScan.pass (scan : RecycleScan) (slot : TransactionSlot) (force : Bool) : RecycleScan :=
  let forceRecycle := scan.forceRecycle || force
  { recyclePtr := getNextSlotPtr scan.recyclePtr
    startUndoPtr :=
      if scan.startUndoPtr = INVALID_UNDO_PTR then slot.startUndoPtr else scan.startUndoPtr
    endUndoPtr := slot.endUndoPtr
    oldestEndUndoPtr := if forceRecycle then scan.oldestEndUndoPtr else slot.endUndoPtr
    forceRecycle := forceRecycle
    recycleXid := slot.xactId
    undoRecycled := true }

/-- How a run ends. -/
inductive RecycleStop
  | finished
  | panic
  | outOfFuel
  deriving DecidableEq

/-- The inner loop, over the slots of block `blk`. -/
def scanSlots (env : RecycleEnv) (slots : Nat → TransactionSlot) (blk allocatePtr : Nat) :
    Nat → RecycleScan → Except RecycleStop RecycleScan
  | 0, _ => .error .outOfFuel
  | fuel + 1, scan =>
    if blk = undoPtrGetBlockNum scan.recyclePtr ∧ scan.recyclePtr < allocatePtr then
      match env.slotVerdict (slots scan.recyclePtr) with
      | .panic => .error .panic
      | .stop => .ok scan
      | .pass force =>
        scanSlots env slots blk allocatePtr fuel (scan.pass (slots scan.recyclePtr) force)
    else .ok scan

/-- The zone, `*oldestRecycleXid` and the return value. -/
structure RecycleRun where
  zone : UndoZone
  oldestRecycleXid : TransactionId
  result : Bool
  deriving DecidableEq

/-- The pointer the discard mark is set from, when there is one: a range that
ends in another zone counts as ending with its own. -/
def RecycleScan.discardPtr (scan : RecycleScan) : Nat :=
  let startZid := undoPtrGetZoneId scan.startUndoPtr
  if startZid ≠ undoPtrGetZoneId scan.oldestEndUndoPtr then
    makeUndoPtr startZid UNDO_LOG_MAX_SIZE
  else scan.oldestEndUndoPtr

/-- The zone after a page on which slots were passed, `none` for the PANIC
after a failed `CheckRecycle`. -/
def RecycleRun.advance (run : RecycleRun) (scan : RecycleScan) :
    Option RecycleRun :=
  if run.zone.checkRecycle scan.startUndoPtr scan.endUndoPtr then
    let zone := { run.zone with
      discardURecPtr :=
        if scan.oldestEndUndoPtr = INVALID_UNDO_PTR then run.zone.discardURecPtr
        else undoPtrGetOffset scan.discardPtr
      recycleXid := scan.recycleXid
      forceDiscardURecPtr := undoPtrGetOffset scan.endUndoPtr
      recycleTSlotPtr := undoPtrGetOffset scan.recyclePtr }
    some
      { zone := (zone.releaseSpace env scan.endUndoPtr).releaseSlotSpace env scan.recyclePtr
        oldestRecycleXid := scan.recycleXid
        result := true }
  else none

/-- The outer loop, one turn a slot page. -/
def recyclePages (env : RecycleEnv) (slots : Nat → TransactionSlot) (allocatePtr : Nat) :
    Nat → RecycleScan → RecycleRun → RecycleRun × RecycleStop
  | 0, _, run => (run, .outOfFuel)
  | fuel + 1, scan, run =>
    if scan.recyclePtr < allocatePtr then
      match scanSlots env slots (undoPtrGetBlockNum scan.recyclePtr) allocatePtr
          (allocatePtr - scan.recyclePtr + 1)
          { scan with startUndoPtr := INVALID_UNDO_PTR, undoRecycled := false } with
      | .error stop => (run, stop)
      | .ok scan =>
        if scan.undoRecycled then
          match run.advance env scan with
          | none => (run, .panic)
          | some run =>
            let oldestEndUndoPtr :=
              if scan.oldestEndUndoPtr = INVALID_UNDO_PTR then INVALID_UNDO_PTR
              else scan.discardPtr
            recyclePages env slots allocatePtr fuel { scan with oldestEndUndoPtr } run
        else (run, .finished)
    else (run, .finished)

/-- `CheckUndoZoneMeta`: an allocate pointer that wrapped to the first slot is
moved up. -/
def UndoZone.checkUndoZoneMeta (zone : UndoZone) : Nat :=
  let allocatePtr := makeUndoPtr zone.zid zone.allocateTSlotPtr
  let recyclePtr := makeUndoPtr zone.zid zone.recycleTSlotPtr
  if undoPtrGetOffset allocatePtr = UNDO_LOG_BLOCK_HEADER_SIZE ∧
      undoPtrGetOffset recyclePtr ≠ UNDO_LOG_BLOCK_HEADER_SIZE then
    allocatePtr + 2 ^ 32
  else allocatePtr

def recycleUndoSpace (slots : Nat → TransactionSlot) (zone : UndoZone) :
    RecycleRun × RecycleStop :=
  let recyclePtr := makeUndoPtr zone.zid zone.recycleTSlotPtr
  let allocatePtr := zone.checkUndoZoneMeta
  recyclePages env slots allocatePtr (allocatePtr - recyclePtr + 1)
    { recyclePtr
      startUndoPtr := INVALID_UNDO_PTR
      endUndoPtr := INVALID_UNDO_PTR
      oldestEndUndoPtr := INVALID_UNDO_PTR
      forceRecycle := false
      recycleXid := InvalidTransactionId
      undoRecycled := false }
    { zone
      oldestRecycleXid := if env.recycleXmin < env.frozenXid then env.recycleXmin else env.frozenXid
      result := false }

end OpenGauss.Undo
