import OpenGauss.Ustore.InplaceUpdate

/-!
# One ustore page, its undo log and its readers

A page holds row pointers and transaction slots (TDs). A row names the slot
of its last writer; the slot holds one transaction id and the newest undo
record written through it, and the records of a slot are linked by
`blkprev`. Slot numbers count from one, as the rows store them; zero is
`UHEAPTUP_SLOT_FROZEN`.

The rows' bytes are cut in front of `t_hoff`: `body` is that byte, null bitmap
and data. How header, prefix, suffix and middle lie in the payload of an undo
record is the subject of `Ustore.InplaceUndo`; here the parts are fields.
-/

namespace OpenGauss.Visibility

/-! ## Identifiers

Transaction ids, undo record pointers and offset numbers are numbers. -/

def InvalidTransactionId : Nat := 0
def FrozenTransactionId : Nat := 2
def FirstNormalTransactionId : Nat := 3
def INVALID_UNDO_REC_PTR : Nat := 0
def UHEAPTUP_SLOT_FROZEN : Nat := 0

/-! ## Rows, slots and undo records -/

/-- The header fields that decide who wrote a row: the slot and the flags
`UHEAP_INPLACE_UPDATED`, `UHEAP_DELETED` and `UHEAP_INVALID_XACT_SLOT`. -/
structure TupleHeader where
  tdSlot : Nat
  inplaceUpdated : Bool
  deleted : Bool
  invalidXact : Bool
  deriving DecidableEq

/-- `UTUPLETID_NEW`, `UTUPLETID_MODIFIED`, `UTUPLETID_GONE`. -/
inductive UTupleTidOp
  | new
  | modified
  | gone
  deriving DecidableEq

/-- `UHeapTidOpFromInfomask`. -/
def TupleHeader.tidOp (hdr : TupleHeader) : UTupleTidOp :=
  if hdr.inplaceUpdated then .modified else if hdr.deleted then .gone else .new

structure UHeapTuple where
  hdr : TupleHeader
  /-- The header's xid field, read in full. -/
  xid : Nat
  body : List UInt8
  deriving DecidableEq

/-- `UHeapTupleGetModifiedXid`: only a normal xid counts. -/
def UHeapTuple.modifiedXid (t : UHeapTuple) : Nat :=
  if FirstNormalTransactionId ≤ t.xid then t.xid else InvalidTransactionId

inductive RowPtr
  | unused
  | normal (tuple : UHeapTuple)
  | deleted (tdSlot : Nat) (invalidXact : Bool)
  deriving DecidableEq

structure TD where
  xactid : Nat
  undoRecordPtr : Nat
  deriving DecidableEq

def TD.empty : TD := ⟨InvalidTransactionId, INVALID_UNDO_REC_PTR⟩

/-- Where the data begin in a body, which begins with `t_hoff`. -/
def dataStart (body : List UInt8) : Nat := (body.headD 0).toNat - Ustore.offsetTHoff

/-- What an undo record keeps of the row it changed: nothing for an insert,
the old row up to its data and the middle between the common prefix and suffix
for an update in place, the old row for a delete. -/
inductive UndoData
  | insert
  | inplaceUpdate (hdr : TupleHeader) (front : List UInt8) (prefixlen suffixlen : Nat)
    (middle : List UInt8)
  | delete (hdr : TupleHeader) (body : List UInt8)
  deriving DecidableEq

structure UndoRecord where
  xid : Nat
  offset : Nat
  data : UndoData
  oldXactId : Nat
  blkprev : Nat
  deriving DecidableEq

/-- The old row's bytes, put together from the record and the newer row. -/
def UndoData.oldBody (data : UndoData) (cur : List UInt8) : List UInt8 :=
  match data with
  | .insert => cur
  | .inplaceUpdate _ front prefixlen suffixlen middle =>
    let newp := cur.drop (dataStart cur)
    front ++ (newp.take prefixlen ++ (middle ++ newp.drop (newp.length - suffixlen)))
  | .delete _ body => body

/-- A version of a row as its writer meant it; `contents` is `none` for a
deletion. The functions of the page never read versions: they record the
history the page is compared with. `image` is what the write left in the
row's place, the new contents and what it did not overwrite behind them. -/
structure Version where
  urp : Nat
  urec : UndoRecord
  slot : Nat
  contents : Option (List UInt8)
  image : List UInt8
  deriving DecidableEq

def Version.writer (v : Version) : Nat := v.urec.xid

/-- The page, the undo log, the transaction state and the history. Undo
pointers are positions in `log`, counted from one. `ended` lists the ended
transactions in the order of their ends, with `true` for a commit. -/
structure Store where
  tds : Nat → TD
  tdCount : Nat
  /-- `RelationGetInitTd`, the number of slots of a fresh page. -/
  initTd : Nat
  rows : Nat → RowPtr
  maxoff : Nat
  log : List UndoRecord
  discarded : Nat → Bool
  globalRecycleXid : Nat
  globalFrozenXid : Nat
  nextXid : Nat
  ended : List (Nat × Bool)
  versions : Nat → List Version
  /-- The greatest `oldestXmin` any pruning has used. -/
  pruneXmin : Nat

/-! ## Transactions and snapshots -/

/-- A commit number is a place in the order of the ends; a snapshot keeps the
number of transactions that had ended when it was taken. -/
structure Snapshot where
  xmin : Nat
  snapshotcsn : Nat
  deriving DecidableEq

namespace Store

variable (s : Store)

def hasEnded (x : Nat) : Bool := (s.ended.map Prod.fst).contains x

def didCommit (x : Nat) : Bool := s.ended.contains (x, true)

def isInProgress (x : Nat) : Bool :=
  decide (FirstNormalTransactionId ≤ x) && decide (x < s.nextXid) && !s.hasEnded x

/-- `XidVisibleInSnapshot`: committed with a number below the snapshot's. -/
def xidVisible (snap : Snapshot) (x : Nat) : Bool :=
  (s.ended.take snap.snapshotcsn).contains (x, true)

/-- `CommittedXidVisibleInSnapshot`. -/
def committedXidVisible (snap : Snapshot) (x : Nat) : Bool :=
  decide (x < snap.xmin) || !s.didCommit x || s.xidVisible snap x

/-- `TransactionIdOlderThanAllUndo`. -/
def olderThanAllUndo (x : Nat) : Bool := decide (x < s.globalRecycleXid)

/-- `TransactionIdOlderThanFrozenXid`. -/
def olderThanFrozenXid (x : Nat) : Bool := decide (x < s.globalFrozenXid)

/-- `UHeapXidVisibleInSnapshot`. -/
def uheapXidVisible (snap : Snapshot) (x : Nat) : Bool :=
  if s.olderThanAllUndo x then s.committedXidVisible snap x else s.xidVisible snap x

end Store

/-! ## Slots and the undo chain -/

/-- `UHeapTupleTransInfo`. -/
structure TransInfo where
  tdSlot : Nat
  xid : Nat
  urecAdd : Nat
  deriving DecidableEq

/-- `FronzenTDInfo`. -/
def TransInfo.frozen : TransInfo :=
  ⟨UHEAPTUP_SLOT_FROZEN, InvalidTransactionId, INVALID_UNDO_REC_PTR⟩

/-- `GetTDSlotInfo` for a slot number within bounds. -/
def Store.tdSlotInfo (s : Store) (tdSlot : Nat) : TransInfo :=
  if tdSlot = UHEAPTUP_SLOT_FROZEN then .frozen
  else ⟨tdSlot, (s.tds tdSlot).xactid, (s.tds tdSlot).undoRecordPtr⟩

/-- What a walk down an undo chain ends with; `done` stands for
`UNDO_TRAVERSAL_END`. -/
inductive UndoTraversal
  | complete (urec : UndoRecord)
  | done
  | endchain
  | stop
  deriving DecidableEq

/-- `FetchUndoRecord` with `InplaceSatisfyUndoRecord` for the row `off` and,
unless it is invalid, the writer `xid`. Every pass moves to a smaller
pointer, so the starting pointer bounds the number of passes. -/
def fetchUndoRecord (s : Store) (off : Nat) (xid : Nat) (needByPass : Bool) :
    Nat → Nat → UndoTraversal
  | 0, _ => .endchain
  | passes + 1, urp =>
    if urp = INVALID_UNDO_REC_PTR then .endchain
    else if s.discarded urp then .done
    else
      match s.log[urp - 1]? with
      | none => .endchain
      | some urec =>
        if needByPass && s.olderThanFrozenXid urec.xid then .stop
        else if urec.offset = off ∧ (xid = InvalidTransactionId ∨ urec.xid = xid) then
          .complete urec
        else fetchUndoRecord s off xid needByPass passes urec.blkprev

/-- `FetchTransInfoFromUndo`. -/
def fetchTransInfoFromUndo (s : Store) (off : Nat) (info : TransInfo)
    (needByPass : Bool) : UndoTraversal × TransInfo :=
  match fetchUndoRecord s off InvalidTransactionId needByPass (info.urecAdd + 1) info.urecAdd with
  | .complete urec => (.complete urec, { info with xid := urec.xid })
  | rc => (rc, .frozen)

/-! ## Reading a row -/

/-- `UVERSION_NONE`, `UVERSION_CURRENT`, `UVERSION_OLDER`. -/
inductive UVersionSelector
  | none
  | current
  | older
  deriving DecidableEq

/-- `UHeapSelectVersionMVCC` for a transaction other than the reader's. -/
def selectVersionMVCC (s : Store) (snap : Snapshot) (op : UTupleTidOp) (xid : Nat) :
    UVersionSelector :=
  if s.xidVisible snap xid then
    if op = .gone then .none else .current
  else if op = .new then .none
  else .older

/-- `UHeapTupleSatisfies` for an MVCC snapshot. -/
def tupleSatisfies (s : Store) (snap : Snapshot) (op : UTupleTidOp) (info : TransInfo) :
    UVersionSelector :=
  if info.tdSlot = UHEAPTUP_SLOT_FROZEN then
    if op = .gone then .none else .current
  else selectVersionMVCC s snap op info.xid

/-- The result of reading a row: a tuple or nothing, the error "snapshot too
old", or one of the PANICs. -/
inductive FetchResult
  | found (tuple : Option UHeapTuple)
  | snapshotTooOld
  | panicked
  deriving DecidableEq

/-- The header `UpdateTupleHeaderFromUndoRecord` leaves. -/
def headerFromUndo (urec : UndoRecord) (hdr : TupleHeader) : TupleHeader :=
  match urec.data with
  | .insert => { hdr with inplaceUpdated := false, deleted := false, invalidXact := false }
  | .inplaceUpdate old _ _ _ _ => old
  | .delete old _ => old

/-- `GetTupleFromUndo`: older versions of the row are built one after the
other until one is visible. `cur` is the header and body built so far. -/
def getTupleFromUndo (s : Store) (snap : Snapshot) (off : Nat) :
    Nat → Nat → Nat → Nat → TupleHeader → List UInt8 → FetchResult
  | 0, _, _, _, _, _ => .snapshotTooOld
  | passes + 1, urecAdd, prevUndoXid, prevTdSlotId, hdr, body =>
    match fetchUndoRecord s off prevUndoXid false (urecAdd + 1) urecAdd with
    | .complete urec =>
      let hdr := headerFromUndo urec hdr
      let body := urec.data.oldBody body
      let tuple : UHeapTuple := ⟨hdr, FrozenTransactionId, body⟩
      if hdr.tdSlot = UHEAPTUP_SLOT_FROZEN ∨ s.olderThanAllUndo urec.oldXactId then
        .found (some tuple)
      else if s.tdCount < hdr.tdSlot then .panicked
      else
        let urecAdd :=
          if hdr.tdSlot ≠ prevTdSlotId then (s.tdSlotInfo hdr.tdSlot).urecAdd else urec.blkprev
        if urec.oldXactId = FrozenTransactionId then .found (some tuple)
        else
          match selectVersionMVCC s snap hdr.tidOp urec.oldXactId with
          | .current => .found (some tuple)
          | .none => .found none
          | .older => getTupleFromUndo s snap off passes urecAdd urec.oldXactId hdr.tdSlot hdr body
    | .stop => .found (some ⟨hdr, FrozenTransactionId, body⟩)
    | .done | .endchain => .snapshotTooOld

/-- Who wrote the row, as far as `UHeapTupleFetch` has to know it, and
whether the row may be marked frozen. -/
def fetchTransInfo (s : Store) (snap : Snapshot) (off tdSlot : Nat) (invalidXact : Bool)
    (tupXid : Nat) : TransInfo × Bool :=
  let info := s.tdSlotInfo tdSlot
  if info.tdSlot = UHEAPTUP_SLOT_FROZEN then (info, true)
  else if info.xid ≠ InvalidTransactionId ∧ s.olderThanFrozenXid info.xid then
    ({ info with tdSlot := UHEAPTUP_SLOT_FROZEN }, s.olderThanAllUndo info.xid)
  else if invalidXact then
    if info.xid ≠ InvalidTransactionId ∧ s.uheapXidVisible snap info.xid then
      ({ info with tdSlot := UHEAPTUP_SLOT_FROZEN }, false)
    else if tupXid ≠ InvalidTransactionId ∧ s.didCommit tupXid then
      if s.olderThanFrozenXid tupXid then
        ({ info with xid := tupXid, tdSlot := UHEAPTUP_SLOT_FROZEN }, false)
      else ({ info with xid := tupXid }, false)
    else
      match fetchTransInfoFromUndo s off info true with
      | (.complete _, info) =>
        if s.olderThanAllUndo info.xid then ({ info with tdSlot := UHEAPTUP_SLOT_FROZEN }, true)
        else (info, false)
      | (_, info) => ({ info with tdSlot := UHEAPTUP_SLOT_FROZEN }, false)
  else (info, false)

/-- The frozen mark `UHeapTupleFetch` leaves in a normal row. -/
def RowPtr.setFrozen : RowPtr → RowPtr
  | .normal t => .normal { t with hdr := { t.hdr with tdSlot := UHEAPTUP_SLOT_FROZEN } }
  | rp => rp

/-- The bounds check of `GetTDSlotInfo` and the check for a cleared slot
that the row is not flagged for. -/
def fetchPanics (s : Store) (tdSlot : Nat) (invalidXact : Bool) : Prop :=
  s.tdCount < tdSlot ∨ ((s.tdSlotInfo tdSlot).xid = InvalidTransactionId ∧
    (s.tdSlotInfo tdSlot).urecAdd ≠ INVALID_UNDO_REC_PTR ∧ invalidXact = false)

instance (s : Store) (tdSlot : Nat) (invalidXact : Bool) :
    Decidable (fetchPanics s tdSlot invalidXact) :=
  inferInstanceAs (Decidable (_ ∨ _))

/-- `UHeapTupleFetch` after the slot and the flag have been read from the row
or the row pointer. A pruned row has no header or body to start from. -/
def fetchVersion (s : Store) (snap : Snapshot) (off tdSlot : Nat) (invalidXact : Bool)
    (tuple : Option UHeapTuple) : FetchResult × Bool :=
  if fetchPanics s tdSlot invalidXact then (.panicked, false)
  else
    let tupXid := (tuple.map UHeapTuple.modifiedXid).getD InvalidTransactionId
    let (info, isFrozen) := fetchTransInfo s snap off tdSlot invalidXact tupXid
    let op := (tuple.map (fun t => t.hdr.tidOp)).getD .gone
    match tupleSatisfies s snap op info with
    | .none => (.found none, isFrozen)
    | .current => (.found tuple, isFrozen)
    | .older =>
      let hdr := (tuple.map UHeapTuple.hdr).getD ⟨0, false, false, false⟩
      let body := (tuple.map UHeapTuple.body).getD []
      (getTupleFromUndo s snap off (s.log.length + 1) info.urecAdd InvalidTransactionId
        info.tdSlot hdr body, isFrozen)

/-- `UHeapTupleFetch` and the page it leaves. -/
def uheapTupleFetch (s : Store) (snap : Snapshot) (off : Nat) : FetchResult × Store :=
  match s.rows off with
  | .unused => (.found none, s)
  | .normal t =>
    let (result, isFrozen) := fetchVersion s snap off t.hdr.tdSlot t.hdr.invalidXact (some t)
    (result, if isFrozen then
      { s with rows := Function.update s.rows off (s.rows off).setFrozen } else s)
  | .deleted tdSlot invalidXact =>
    ((fetchVersion s snap off tdSlot invalidXact none).1, s)

end OpenGauss.Visibility
