import OpenGauss.Lib.Affix
import OpenGauss.Undo.Record
import OpenGauss.Ustore.DiskTuple

/-!
# In-place update and its undo record

`UHeapUpdate` on the in-place path, from the comparison of the two row
images to the row left on the page, and the two routines that go back: the
rollback (`CopyTupleFromUndoRecord`) and the reader's walk over older
versions (`GetTupleFromUndoRecord`).

The undo payload of an in-place update is

    t_hoff:1  header from td id:t_hoff-4  flags:1  [prefixlen:2] [suffixlen:2]
    data between prefix and suffix  [subxid:8]
-/

namespace OpenGauss.Ustore

open Lib Undo

def MIN_SAVING_LEN : Nat := 3
def UREC_INPLACE_UPDATE_XOR_PREFIX : UInt8 := 0x01
def UREC_INPLACE_UPDATE_XOR_SUFFIX : UInt8 := 0x02

/-! ## The row on its page -/

/-- A row on a page: the page bytes and a normal row pointer, which locates
a well-formed row. -/
structure RowOnPage where
  page : Mem
  rp : RowPtr
  normal : rp.flags = .normal
  ok : RowOk (page.read rp.offset rp.len)

/-- The row's bytes, as `oldtup.disk_tuple` with `RowPtrGetLen(lp)` sees them. -/
def RowOnPage.image (s : RowOnPage) : List UInt8 := s.page.read s.rp.offset s.rp.len

theorem RowOnPage.image_ok (s : RowOnPage) : RowOk s.image := s.ok

/-! ## Writing the delta -/

/-- What the comparison of old and new data found. -/
structure XorDelta where
  prefixlen : Nat
  suffixlen : Nat
  flags : UInt8
  deriving DecidableEq

/-- An affix shorter than `MIN_SAVING_LEN` is not worth its length field. -/
def savingLen (n : Nat) : Nat := if n < MIN_SAVING_LEN then 0 else n

/-- The two comparison loops over the rows' data, forward and then backward
over what the prefix left, as `UHeapUpdate` and `LogUHeapUpdate` both run
them. -/
def affixLens (oldp newp : List UInt8) : Nat × Nat :=
  let minlen := min oldp.length newp.length
  let prefixlen := savingLen (matchLen minlen oldp newp)
  (prefixlen, savingLen (matchLen (minlen - prefixlen) oldp.reverse newp.reverse))

/-- `UHeapUpdate` only compares when the total sizes agree and the relation
is not logically logged; the header sizes may still differ. -/
def xorDelta (old new : List UInt8) (logicallyLogged : Bool) : XorDelta :=
  if new.length = old.length ∧ logicallyLogged = false then
    let (prefixlen, suffixlen) := affixLens (rowData old) (rowData new)
    { prefixlen, suffixlen
      flags := (if prefixlen = 0 then 0 else UREC_INPLACE_UPDATE_XOR_PREFIX) |||
        (if suffixlen = 0 then 0 else UREC_INPLACE_UPDATE_XOR_SUFFIX) }
  else
    ⟨0, 0, 0⟩

/-- The payload size computed before the undo record is allocated. -/
def undoXorDeltaSize (old : List UInt8) (d : XorDelta) : Nat :=
  (if d.prefixlen > 0 then 2 else 0) + (if d.suffixlen > 0 then 2 else 0) +
    (1 + tHoff old - OffsetTdId + 1) + ((rowData old).length - d.prefixlen - d.suffixlen)

/-- The fields of the undo record that do not depend on the row's bytes. -/
structure UndoUpdateInfo where
  xid : TransactionId
  cid : UInt32
  relOid : UInt32
  partitionOid : UInt32
  relfilenode : UInt32
  tablespace : UInt32
  blkno : UInt32
  offnum : UInt16
  offnum_ne : offnum ≠ InvalidOffsetNumber
  prevurpInOneBlk : UndoRecPtr
  prevurpInOneXact : UndoRecPtr
  oldXactId : TransactionId

/-- One in-place update of a row. A subtransaction's id is never
`InvalidSubTransactionId`. -/
structure InplaceUpdate where
  uheaptup : DiskTuple
  tdSlot : UInt8
  tupleXid : UInt32
  logicallyLogged : Bool
  subxid : Option { x : UInt64 // x ≠ InvalidSubTransactionId }
  undo : UndoUpdateInfo

/-- `subxid` as the C++ variable. -/
def InplaceUpdate.subxidVal (u : InplaceUpdate) : UInt64 :=
  match u.subxid with
  | none => InvalidSubTransactionId
  | some x => x.1

/-- `UndoRecordSetUInfo`: the optional parts that are stored. -/
def undoRecordSetUInfo (urec : UndoRecord) : UndoRecord :=
  let urec := if urec.oldxactid ≠ FrozenTransactionId then urec.setUinfo UNDO_UREC_INFO_OLDTD else urec
  let urec := if urec.partitionoid ≠ 0 then urec.setUinfo UNDO_UREC_INFO_HAS_PARTOID else urec
  if urec.tablespace ≠ 0 then urec.setUinfo UNDO_UREC_INFO_HAS_TABLESPACEOID else urec

/-- `UHeapPrepareUndoUpdate` for an in-place update: the record with empty
raw data, and the raw data length it was allocated for. -/
def uheapPrepareUndoUpdate (i : UndoUpdateInfo) (subxid : UInt64) (xorDeltaSize : Nat) :
    UndoRecord × Nat :=
  let urec : UndoRecord :=
    { whdr := ⟨i.xid, i.cid, i.relOid, i.relfilenode, UNDO_INPLACE_UPDATE, UNDO_UREC_INFO_PAYLOAD⟩
      wblk := ⟨i.prevurpInOneBlk, i.blkno, i.offnum⟩
      prevurp := i.prevurpInOneXact
      oldxactid := i.oldXactId
      partitionoid := i.partitionOid
      tablespace := i.tablespace
      rawdata := [] }
  (undoRecordSetUInfo urec,
    xorDeltaSize + if subxid ≠ InvalidSubTransactionId then sizeofSubTransactionId else 0)

/-- The undo record of an in-place update with its payload, as `UHeapUpdate`
appends it piece by piece; `none` is the PANIC "xor data mismatch in undo and
xlog". -/
def writeInplaceUndo (old : List UInt8) (u : InplaceUpdate) : Option (UndoRecord × Nat) :=
  let d := xorDelta old u.uheaptup.bytes u.logicallyLogged
  let size := undoXorDeltaSize old d
  let oldp := rowData old
  let (urec, allocated) := uheapPrepareUndoUpdate u.undo u.subxidVal size
  let urec := urec.append [UInt8.ofNat (tHoff old)]
  let urec := urec.append ((old.drop OffsetTdId).take (tHoff old - OffsetTdId))
  let urec := urec.append [d.flags]
  let urec := if d.prefixlen > 0 then urec.append (toLe 2 d.prefixlen) else urec
  let urec := if d.suffixlen > 0 then urec.append (toLe 2 d.suffixlen) else urec
  let urec := urec.append ((oldp.drop d.prefixlen).take (oldp.length - d.prefixlen - d.suffixlen))
  if size ≠ urec.rawdata.length then
    none
  else
    let urec := match u.subxid with
      | none => urec
      | some x => (urec.setUinfo UNDO_UREC_INFO_CONTAINS_SUBXACT).append (toLe 8 x.1.toNat)
    some (urec, allocated)

/-! ## Writing the row -/

/-- The header changes `UHeapUpdate` makes to the old row before the new data
is put in: td slot, visibility flags (`infomaskOldTuple`), short xid. -/
def stampHeader (page : Mem) (off : Nat) (tdSlot : UInt8) (infomask : Nat) (tupleXid : UInt32) :
    Mem :=
  let flag := ofLe (page.read (off + offsetFlag) 2)
  let flag := (flag &&& uheapVisStatusClear) ||| infomask ||| SINGLE_LOCKER_XID_IS_TRANS
  ((page.write (off + OffsetTdId) [tdSlot]).write (off + offsetFlag) (toLe 2 flag)).write off
    (toLe 4 tupleXid.toNat)

/-- `PutInplaceUpdateTuple`: everything behind the fixed header is copied,
then the non-visibility flags, the attribute count and `t_hoff`. A shorter
row leaves the row pointer's length as it is. -/
def putInplaceUpdateTuple (page : Mem) (rp : RowPtr) (newTup : List UInt8) : Mem × RowPtr :=
  let rp := if newTup.length > rp.len then rp.changeLen newTup.length else rp
  let off := rp.offset
  let page := page.write (off + SizeOfUHeapDiskTupleData) (newTup.drop SizeOfUHeapDiskTupleData)
  let flag := (ofLe (page.read (off + offsetFlag) 2) &&& UHEAP_VIS_STATUS_MASK) |||
    (rowFlag newTup &&& uheapVisStatusClear)
  let flag2 := (ofLe (page.read (off + offsetFlag2) 2) &&& uheapNattsClear) |||
    (rowFlag2 newTup &&& UHEAP_NATTS_MASK)
  let page := page.write (off + offsetFlag) (toLe 2 flag)
  let page := page.write (off + offsetFlag2) (toLe 2 flag2)
  (page.write (off + offsetTHoff) [UInt8.ofNat (tHoff newTup)], rp)

/-- The page bytes and the row pointer an in-place update leaves. -/
def inplacePage (s : RowOnPage) (u : InplaceUpdate) : Mem × RowPtr :=
  putInplaceUpdateTuple (stampHeader s.page s.rp.offset u.tdSlot
    (UHEAP_XID_EXCL_LOCK ||| UHEAP_INPLACE_UPDATED) u.tupleXid) s.rp u.uheaptup.bytes

/-! ## Going back -/

/-- The fields at the front of an in-place payload. -/
structure InplacePayload where
  tHoff : Nat
  flags : UInt8
  prefixlen : Nat
  suffixlen : Nat
  readSize : Nat
  deriving DecidableEq

/-- The parse both decoders start with: which length fields are there is
known from the flags only. -/
def parseInplacePayload (data : List UInt8) : InplacePayload :=
  let tHoff := (data.getD 0 0).toNat
  let readSize := 1 + tHoff - OffsetTdId
  let flags := data.getD readSize 0
  let readSize := readSize + 1
  let hasPrefix := flags &&& UREC_INPLACE_UPDATE_XOR_PREFIX != 0
  let prefixlen := if hasPrefix then ofLe ((data.drop readSize).take 2) else 0
  let readSize := if hasPrefix then readSize + 2 else readSize
  let hasSuffix := flags &&& UREC_INPLACE_UPDATE_XOR_SUFFIX != 0
  let suffixlen := if hasSuffix then ofLe ((data.drop readSize).take 2) else 0
  let readSize := if hasSuffix then readSize + 2 else readSize
  { tHoff, flags, prefixlen, suffixlen, readSize }

/-- Rebuild the old row from the payload and the newer row `diskTuple` of
`size` bytes: prefix and suffix are cut out of the newer row. -/
def rebuildOldDiskTuple (urec : UndoRecord) (diskTuple : List UInt8) (size : Nat) : List UInt8 :=
  let data := urec.rawdata
  let p := parseInplacePayload data
  let subxidSize := if urec.containSubXact then sizeofSubTransactionId else 0
  let oldlen := data.length - p.readSize - subxidSize + p.prefixlen + p.suffixlen
  let newlen := size - tHoff diskTuple
  let newp := tHoff diskTuple + p.prefixlen
  toLe 4 FrozenTransactionId.toNat ++
    (data.drop 1).take (p.tHoff - OffsetTdId) ++
    (if p.flags &&& UREC_INPLACE_UPDATE_XOR_PREFIX != 0 then
      (diskTuple.drop (tHoff diskTuple)).take p.prefixlen else []) ++
    (data.drop p.readSize).take (oldlen - p.prefixlen - p.suffixlen) ++
    (if p.flags &&& UREC_INPLACE_UPDATE_XOR_SUFFIX != 0 then
      (diskTuple.drop (newp + newlen - p.prefixlen - p.suffixlen)).take p.suffixlen else [])

/-- The trailer behind the row in the payload of a delete or a
non-in-place update. -/
def extraDataLen (urec : UndoRecord) : Nat :=
  (if urec.utype = UNDO_UPDATE then sizeofItemPointerData else 0) +
    if urec.containSubXact then sizeofSubTransactionId else 0

/-- `GetTupleFromUndoRecord`: the version of the row before the record's
change, from the version after it. -/
def getTupleFromUndoRecord (urec : UndoRecord) (tuple : List UInt8) : List UInt8 :=
  if urec.utype = UNDO_UPDATE ∨ urec.utype = UNDO_DELETE then
    toLe 4 FrozenTransactionId.toNat ++ urec.rawdata.take (urec.rawdata.length - extraDataLen urec)
  else if urec.utype = UNDO_INPLACE_UPDATE then
    rebuildOldDiskTuple urec tuple tuple.length
  else
    tuple

/-- `CopyTupleFromUndoRecord`: put the old row back on the page; `none` is a
PANIC. -/
def copyTupleFromUndoRecord (urec : UndoRecord) (page : Mem) (rp : RowPtr) :
    Option (Mem × RowPtr) :=
  if urec.wblk.offset = InvalidOffsetNumber ∨ rp.flags ≠ .normal then
    none
  else if urec.utype = UNDO_DELETE ∨ urec.utype = UNDO_UPDATE then
    let undoTupleLen := urec.rawdata.length - extraDataLen urec
    let page := page.write (rp.offset + OffsetTdId) (urec.rawdata.take undoTupleLen)
    some (page.write rp.offset (toLe 4 FrozenTransactionId.toNat),
      rp.changeLen (undoTupleLen + OffsetTdId))
  else if urec.utype = UNDO_INPLACE_UPDATE then
    let old := rebuildOldDiskTuple urec (page.read rp.offset rp.len) rp.len
    some (page.write rp.offset old, rp.changeLen old.length)
  else
    none

end OpenGauss.Ustore
