import OpenGauss.Ustore.Page

/-!
# Pruning a ustore page

`UHeapPagePruneGuts` and `UHeapPagePrune`: a scan that lists what is to be
changed, the changes to the row pointers, and the compaction of the page, in
which one row (the target) can be given more space behind it.

What a row's writer is known to be at that moment is an input of the scan
(`TupleTransInfo`).
-/

namespace OpenGauss.Ustore

open Lib

/-! ## Visibility of a row to the oldest snapshot -/

/-- `TransactionIdGetStatus` -/
inductive TransactionIdStatus
  | inProgress | committed | aborted
  deriving DecidableEq

/-- What `UHeapTupleGetTransInfo` finds for a row, and what the transaction
tables say about the xid it finds. -/
structure TupleTransInfo where
  /-- The answer was `UNDO_TRAVERSAL_ABORT`. -/
  traversalAbort : Bool
  tdSlot : Nat
  xid : Nat
  olderThanAllUndo : Bool
  isCurrent : Bool
  status : TransactionIdStatus
  /-- `UHeapTransactionIdDidCommit` -/
  didCommit : Bool
  deriving DecidableEq

structure SatisfiesResult where
  result : UHTSVResult
  xid : Nat
  inplaceUpdated : Bool
  deriving DecidableEq

/-- `UHeapTupleSatisfiesOldestXmin` without resolving aborts. -/
def uheapTupleSatisfiesOldestXmin (flag : Nat) (info : TupleTransInfo) (oldestXmin : Nat) :
    SatisfiesResult :=
  let inplaceUpdated : Bool := flag &&& UHEAP_INPLACE_UPDATED ≠ 0
  if flag &&& UHEAP_DELETED ≠ 0 ∨ flag &&& UHEAP_UPDATED ≠ 0 then
    if info.traversalAbort then ⟨.recentlyDead, InvalidTransactionId, false⟩
    else if info.tdSlot = UHEAPTUP_SLOT_FROZEN ∨ info.olderThanAllUndo then ⟨.dead, info.xid, false⟩
    else if info.isCurrent then ⟨.deleteInProgress, info.xid, false⟩
    else match info.status with
      | .inProgress => ⟨.deleteInProgress, info.xid, false⟩
      | .committed =>
        if ¬ info.xid < oldestXmin then ⟨.recentlyDead, info.xid, false⟩
        else ⟨.dead, info.xid, false⟩
      | .aborted => ⟨.abortInProgress, info.xid, false⟩
  else if info.traversalAbort then ⟨.live, InvalidTransactionId, inplaceUpdated⟩
  else if info.tdSlot = UHEAPTUP_SLOT_FROZEN ∨ info.olderThanAllUndo then
    ⟨.live, info.xid, inplaceUpdated⟩
  else if info.isCurrent then ⟨.insertInProgress, info.xid, false⟩
  else match info.status with
    | .inProgress => ⟨.insertInProgress, info.xid, false⟩
    | .committed => ⟨.live, info.xid, inplaceUpdated⟩
    | .aborted => ⟨.abortInProgress, info.xid, false⟩

/-! ## The scan -/

/-- What pruning reads besides the page. -/
structure PruneEnv where
  oldestXmin : Nat
  transInfo : Nat → TupleTransInfo
  /-- the attributes of the relation -/
  rowDesc : List Attribute

/-- `UPruneState`. Each offset number is looked at once, so the array
`marked` never skips one and is left out; `nowfixed` holds `fixedlen` too. -/
structure UPruneState where
  newPruneXid : Nat
  latestRemovedXid : Nat
  nowdeleted : List Nat
  nowdead : List Nat
  nowunused : List Nat
  nowfixed : List (Nat × Nat)
  deriving DecidableEq

namespace UPruneState

def init (latestRemovedXid : Nat) : UPruneState :=
  ⟨InvalidTransactionId, latestRemovedXid, [], [], [], []⟩

variable (st : UPruneState)

/-- `UHeapPruneRecordPrunable` -/
def recordPrunable (xid : Nat) : UPruneState :=
  if st.newPruneXid = InvalidTransactionId ∨ xid < st.newPruneXid then
    { st with newPruneXid := xid }
  else st

def recordDead (off : Nat) : UPruneState :=
  { st with nowdead := st.nowdead ++ [off] }

def recordDeleted (off : Nat) : UPruneState :=
  { st with nowdeleted := st.nowdeleted ++ [off] }

def recordFixed (off tupSize : Nat) : UPruneState :=
  { st with nowfixed := st.nowfixed ++ [(off, tupSize)] }

/-- `UHeapTupleHeaderAdvanceLatestRemovedXid` -/
def advanceLatestRemovedXid (didCommit : Bool) (xid : Nat) : UPruneState :=
  if didCommit ∧ xid > st.latestRemovedXid then { st with latestRemovedXid := xid } else st

/-- Something is to be changed on the page. -/
def hasWork : Bool :=
  st.nowdeleted ≠ [] ∨ st.nowdead ≠ [] ∨ st.nowunused ≠ [] ∨ st.nowfixed ≠ []

end UPruneState

structure PruneScan where
  prstate : UPruneState
  spaceFreed : Nat
  ndeleted : Nat
  deriving DecidableEq

/-- The visibility result of the row at `off`. -/
def PruneEnv.satisfies (env : PruneEnv) (p : UPage) (off : Nat) : SatisfiesResult :=
  uheapTupleSatisfiesOldestXmin (rowFlag (p.rowData (p.rowPtr off))) (env.transInfo off)
    env.oldestXmin

/-- The length the attributes of the row at `off` take up. -/
def PruneEnv.trueLen (env : PruneEnv) (p : UPage) (off : Nat) : Nat :=
  calTupSize (p.tupleAt off) env.rowDesc

/-- `UHeapPruneItem` -/
def uheapPruneItem (env : PruneEnv) (p : UPage) (isTarget : Bool) (scan : PruneScan) (off : Nat) :
    PruneScan :=
  let lp := p.rowPtr off
  let sat := env.satisfies p off
  let st := scan.prstate
  let st := if sat.result = .deleteInProgress then st.recordPrunable sat.xid else st
  let st :=
    if sat.inplaceUpdated ∧ ¬ isTarget ∧ env.trueLen p off < lp.len then
      st.recordFixed off (env.trueLen p off)
    else st
  match sat.result with
  | .dead =>
    { prstate := (st.advanceLatestRemovedXid (env.transInfo off).didCommit sat.xid).recordDead off
      spaceFreed := scan.spaceFreed + shortAlign lp.len
      ndeleted := scan.ndeleted + 1 }
  | .recentlyDead =>
    { prstate := st.recordDeleted off
      spaceFreed := scan.spaceFreed + shortAlign lp.len
      ndeleted := scan.ndeleted }
  | _ => { scan with prstate := st }

/-- A pruned row's pointer can be given back: its slot was frozen, or its
slot's transaction ended before the oldest snapshot. -/
def deletedIsDead (env : PruneEnv) (p : UPage) (lp : RowPtr) : Bool :=
  lp.tdSlot = UHEAPTUP_SLOT_FROZEN ∨
    (FirstNormalTransactionId ≤ p.tdXid lp.tdSlot ∧ p.tdXid lp.tdSlot < env.oldestXmin)

/-- The body of the scan loop. Pointers of pruned rows are looked at only
when the page has no room for more row pointers. -/
def pruneScanRow (env : PruneEnv) (p : UPage) (isTarget : Nat → Bool) (scan : PruneScan)
    (off : Nat) : PruneScan :=
  let lp := p.rowPtr off
  if p.maxTupleCount ≤ p.maxOffsetNumber ∧ lp.isDeleted then
    if deletedIsDead env p lp then
      { scan with prstate := scan.prstate.recordDead off, ndeleted := scan.ndeleted + 1 }
    else scan
  else if ¬ lp.isUsed ∨ lp.isDead ∨ lp.isDeleted then scan
  else uheapPruneItem env p (isTarget off) scan off

def pruneScan (env : PruneEnv) (p : UPage) (isTarget : Nat → Bool) (spaceFreed : Nat)
    (latestRemovedXid : Nat) : PruneScan :=
  p.offsetNumbers.foldl (pruneScanRow env p isTarget) ⟨.init latestRemovedXid, spaceFreed, 0⟩

/-! ## Changing the row pointers -/

/-- One change of a row pointer; the target row must not be changed. -/
def changeRowPtr (target : Nat) (change : RowPtr → RowPtr) (p : UPage) (off : Nat) :
    Except PageError UPage :=
  if target = off then .error .assertion
  else .ok (p.setRowPtr off (change (p.rowPtr off)))

/-- The visibility flags a deleted row leaves in its row pointer. -/
def rowVisInfo (flag : Nat) : Nat :=
  (if flag &&& (UHEAP_DELETED ||| UHEAP_UPDATED) ≠ 0 then ROWPTR_DELETED else 0) |||
    (if flag &&& UHEAP_INVALID_XACT_SLOT ≠ 0 then ROWPTR_XACT_INVALID else 0)

/-- First loop of `UHeapPagePruneExecute`: slot and flags go from the row's
header to its row pointer. -/
def executeDeleted (inRecovery : Bool) (target : Nat) (p : UPage) (off : Nat) :
    Except PageError UPage :=
  let lp := p.rowPtr off
  let tup := p.data.read lp.offset SizeOfUHeapDiskTupleData
  let tdSlot := (rowTdId tup).toNat
  if tdSlot = UHEAPTUP_SLOT_FROZEN ∧ ¬ inRecovery then .error (.invalidTdSlot tdSlot off)
  else changeRowPtr target (fun lp => lp.setDeleted tdSlot (rowVisInfo (rowFlag tup))) p off

/-- `UHeapPagePruneExecute` -/
def uheapPagePruneExecute (inRecovery : Bool) (target : Nat) (st : UPruneState) (p : UPage) :
    Except PageError UPage := do
  let p ← st.nowdeleted.foldlM (executeDeleted inRecovery target) p
  let p ← st.nowdead.foldlM (changeRowPtr target fun _ => .setDead) p
  let p ← st.nowunused.foldlM (changeRowPtr target fun _ => .setUnused) p
  st.nowfixed.foldlM (fun p x => changeRowPtr target (·.changeLen x.2) p x.1) p

/-- The dead row pointers are made unused at once. -/
def pruneDeadPointers (st : UPruneState) (p : UPage) : UPage :=
  st.nowdead.foldl (fun p off => p.setRowPtr off .setUnused) p

/-! ## Compaction -/

/-- `itemIdSortData` -/
structure ItemIdSort where
  offsetindex : Nat
  itemoff : Nat
  alignedlen : Nat
  deriving DecidableEq

structure CompactState where
  page : UPage
  curr : Nat
  newTupleLen : Nat

/-- One turn of the loop of `CompactifyTuples`; `newTupleLen` is a `uint16`,
a row pointer's offset has 15 bits. -/
def compactItem (target : Nat) (s : CompactState) (item : ItemIdSort) : CompactState :=
  if target = item.offsetindex + 1 then
    { s with newTupleLen := item.alignedlen % 2 ^ 16 }
  else
    let curr := s.curr - item.alignedlen
    let lp := s.page.rowPtr (item.offsetindex + 1)
    let moved := s.page.data.write curr (s.page.data.read item.itemoff item.alignedlen)
    { s with
      curr
      page := { s.page.setRowPtr (item.offsetindex + 1) { lp with offset := curr % 2 ^ 15 } with
        data := moved } }

/-- `CompactifyTuples`. The target row is put aside first and copied back
below all others, at the lower end of the space kept for it. -/
def compactifyTuples (items : List ItemIdSort) (target : Nat) (p : UPage) :
    Except PageError UPage :=
  let rp := p.rowPtr target
  if target ≠ InvalidOffsetNumber ∧ ¬ (rp.isNormal ∧ rp.len ≤ MaxPossibleUHeapTupleSize) then
    .error .assertion
  else
    let tuple := p.rowData rp
    let sorted := items.insertionSort fun a b => b.itemoff ≤ a.itemoff
    let s := sorted.foldl (compactItem target) ⟨p, p.pdSpecial, 0⟩
    if target ≠ InvalidOffsetNumber then
      if s.newTupleLen < tuple.length then .error .securec
      else
        let curr := s.curr - s.newTupleLen
        let lp := s.page.rowPtr target
        .ok { s.page.setRowPtr target { lp with offset := curr % 2 ^ 15 } with
          data := s.page.data.write curr tuple
          pdUpper := curr }
    else .ok { s.page with pdUpper := s.curr }

/-- The rows that keep storage, with the space each is to get. -/
def collectItems (target spaceRequired : Nat) (p : UPage) :
    List Nat → Except PageError (List ItemIdSort)
  | [] => .ok []
  | i :: is =>
    let lp := p.rowPtr i
    if lp.isUsed ∧ lp.hasStorage then
      if lp.offset < p.pdUpper ∨ p.pdSpecial ≤ lp.offset then
        .error (.corruptedItemPointer lp.offset)
      else do
        let alignedlen := shortAlign (if i = target then lp.len + spaceRequired else lp.len)
        let items ← collectItems target spaceRequired p is
        .ok (⟨i - 1, lp.offset, alignedlen⟩ :: items)
    else collectItems target spaceRequired p is

/-- Unused row pointers are written back empty. -/
def clearUnused (p : UPage) : UPage :=
  p.offsetNumbers.foldl (fun p i => if (p.rowPtr i).isUsed then p else p.setRowPtr i .setUnused) p

/-- `UPageRepairFragmentation`; on every return `pruned` is set. -/
def upageRepairFragmentation (target spaceRequired : Nat) (p : UPage) : Except PageError UPage :=
  if p.pdLower < p.rowPtrOffset ∨ p.pdLower > p.pdUpper ∨ p.pdUpper > p.pdSpecial ∨
      p.pdSpecial > BLCKSZ ∨ p.pdSpecial ≠ maxAlign p.pdSpecial then
    .error (.corruptedPagePointers p.pdLower p.pdUpper p.pdSpecial)
  else do
    let items ← collectItems target spaceRequired p p.offsetNumbers
    let q := clearUnused p
    let totallen := (items.map ItemIdSort.alignedlen).sum
    let q ←
      if items = [] then .ok { q with pdUpper := p.pdSpecial }
      else if totallen > p.pdSpecial - p.pdLower then
        .error (.corruptedItemLengths totallen (p.pdSpecial - p.pdLower))
      else compactifyTuples items target q
    .ok { q with hasFreeLinePointers := p.offsetNumbers.any fun i => !(p.rowPtr i).isUsed }

end OpenGauss.Ustore
