import OpenGauss.Ustore.InplaceUndo

/-!
# Logging and replaying an update on one page

`LogUHeapUpdate` registers the new row without what it shares with the old
one. For an in-place update the affix lengths are not logged again: replay
takes them from the undo delta, which is logged anyway. For a non-in-place
update they stand in front of the block data.

    block data:  [prefixlen:2] [suffixlen:2]  header:7  bitmap  data
-/

namespace OpenGauss.Ustore

open Lib Undo

def XLZ_UPDATE_PREFIX_FROM_OLD : UInt8 := 0x01
def XLZ_UPDATE_SUFFIX_FROM_OLD : UInt8 := 0x02
def XLZ_NON_INPLACE_UPDATE : UInt8 := 0x04
def XLZ_HAS_UPDATE_UNDOTUPLE : UInt8 := 0x08
def XLOG_UHEAP_CONTAINS_OLD_HEADER : UInt8 := 0x40

def SizeOfUHeapHeader : Nat := 7
def offsetReserved : Nat := 5

/-- The row's `reserved` byte; rows are formed with zero there and the code
asserts it. -/
def rowReserved (row : List UInt8) : UInt8 := row.getD offsetReserved 0

/-- `XlUHeapHeader` -/
structure XlUHeapHeader where
  td_id : UInt8
  reserved : UInt8
  flag : Nat
  flag2 : Nat
  t_hoff : UInt8
  deriving DecidableEq

/-- `UHeapFillHeader` -/
def uheapFillHeader (row : List UInt8) : XlUHeapHeader :=
  { td_id := rowTdId row
    reserved := rowReserved row
    flag := rowFlag row
    flag2 := rowFlag2 row
    t_hoff := row.getD offsetTHoff 0 }

def XlUHeapHeader.encode (h : XlUHeapHeader) : List UInt8 :=
  h.td_id :: h.reserved :: (toLe 2 h.flag ++ (toLe 2 h.flag2 ++ [h.t_hoff]))

def XlUHeapHeader.decode (bs : List UInt8) : XlUHeapHeader :=
  { td_id := bs.getD 0 0
    reserved := bs.getD 1 0
    flag := ofLe ((bs.drop 2).take 2)
    flag2 := ofLe ((bs.drop 4).take 2)
    t_hoff := bs.getD 6 0 }

/-! ## The record -/

/-- What `LogUHeapUpdate` is called with for an update on one page. -/
structure UpdateWalInfo where
  isInplaceUpdate : Bool
  /-- `XLogCheckBufferNeedsBackup` -/
  needsBackup : Bool
  logicallyLogged : Bool
  /-- the old row on the page (when it is not overwritten) -/
  oldRow : List UInt8
  /-- the copy of the old row made before the update -/
  oldUTuple : List UInt8
  difftup : List UInt8
  xorPrefixlen : Nat
  xorSurfixlen : Nat
  xlogXorDelta : List UInt8

/-- The parts of the update record that replay reads on the page path:
`xlrec.flags`, `xlrec.old_tuple_flag`, `xlrec.old_tuple_td_id`, the main data
from the undo meta on, and the data of block 0. -/
structure XlUpdate where
  flags : UInt8
  oldTupleFlag : Nat
  oldTupleTdId : UInt8
  mainTail : List UInt8
  blockData : List UInt8
  deriving DecidableEq

/-- The affix lengths `LogUHeapUpdate` uses for the block data. -/
def logAffixLens (w : UpdateWalInfo) : Nat × Nat :=
  if w.needsBackup = false ∧ w.logicallyLogged = false then
    if w.isInplaceUpdate then (w.xorPrefixlen, w.xorSurfixlen)
    else affixLens (rowData w.oldRow) (rowData w.difftup)
  else
    (0, 0)

/-- The new row in the block data: bitmap and data without the affixes. -/
def logTupleData (row : List UInt8) (prefixlen suffixlen : Nat) : List UInt8 :=
  if prefixlen = 0 then
    (row.drop SizeOfUHeapDiskTupleData).take (row.length - SizeOfUHeapDiskTupleData - suffixlen)
  else
    (row.drop SizeOfUHeapDiskTupleData).take (tHoff row - SizeOfUHeapDiskTupleData) ++
      (row.drop (tHoff row + prefixlen)).take (row.length - tHoff row - prefixlen - suffixlen)

/-- `LogUHeapUpdate` when both rows are on one page. -/
def logUHeapUpdate (w : UpdateWalInfo) : XlUpdate :=
  let (prefixlen, suffixlen) := logAffixLens w
  let oldTuple := (uheapFillHeader w.oldUTuple).encode ++ w.oldUTuple.drop SizeOfUHeapDiskTupleData
  let inplaceTup := if w.isInplaceUpdate then w.difftup else w.oldRow
  { flags := (if prefixlen > 0 then XLZ_UPDATE_PREFIX_FROM_OLD else 0) |||
      (if suffixlen > 0 then XLZ_UPDATE_SUFFIX_FROM_OLD else 0) |||
      (if w.logicallyLogged then XLOG_UHEAP_CONTAINS_OLD_HEADER else 0) |||
      (if w.isInplaceUpdate then 0 else XLZ_NON_INPLACE_UPDATE) ||| XLZ_HAS_UPDATE_UNDOTUPLE
    oldTupleFlag := rowFlag inplaceTup
    oldTupleTdId := rowTdId inplaceTup
    mainTail :=
      if w.isInplaceUpdate then
        toLe 4 w.xlogXorDelta.length ++ w.xlogXorDelta ++
          (if w.logicallyLogged then oldTuple else [])
      else oldTuple
    blockData :=
      (if w.isInplaceUpdate then [] else
        (if prefixlen > 0 then toLe 2 prefixlen else []) ++
          (if suffixlen > 0 then toLe 2 suffixlen else [])) ++
      (uheapFillHeader w.difftup).encode ++ logTupleData w.difftup prefixlen suffixlen }

/-! ## The calls `UHeapUpdate` makes

No page image is taken in either: with one, this path is not replayed. -/

/-- The row on the page after the update, with the new size
(`PutInplaceUpdateTuple` sets `disk_tuple_size`). -/
def inplaceDifftup (s : RowOnPage) (u : InplaceUpdate) : List UInt8 :=
  (inplacePage s u).1.read (inplacePage s u).2.offset u.uheaptup.bytes.length

def inplaceWalInfo (s : RowOnPage) (u : InplaceUpdate) (xlogXorDelta : List UInt8) :
    UpdateWalInfo :=
  let d := xorDelta s.image u.uheaptup.bytes u.logicallyLogged
  { isInplaceUpdate := true, needsBackup := false, logicallyLogged := u.logicallyLogged
    oldRow := s.image, oldUTuple := s.image, difftup := inplaceDifftup s u
    xorPrefixlen := d.prefixlen, xorSurfixlen := d.suffixlen, xlogXorDelta }

/-- The record of an in-place update; `none` when `UHeapUpdate` PANICs. The
logged delta is the undo payload without the subtransaction trailer. -/
def logInplaceUpdate (s : RowOnPage) (u : InplaceUpdate) : Option XlUpdate :=
  (writeInplaceUndo s.image u).map fun r =>
    let d := xorDelta s.image u.uheaptup.bytes u.logicallyLogged
    logUHeapUpdate (inplaceWalInfo s u (r.1.rawdata.take (undoXorDeltaSize s.image d)))

/-- A non-in-place update that finds room for the new row on the same page. -/
structure NonInplaceUpdate where
  uheaptup : DiskTuple
  oldSlot : UInt8
  newSlot : UInt8
  tupleXid : UInt32
  logicallyLogged : Bool

/-- The new row as `UHeapUpdate` puts it on the page: td slot, visibility
flags cleared, short xid. -/
def stampNewTuple (u : NonInplaceUpdate) : List UInt8 :=
  let row := u.uheaptup.bytes
  toLe 4 u.tupleXid.toNat ++ (u.newSlot :: rowReserved row ::
    (toLe 2 ((rowFlag row &&& uheapVisStatusClear) ||| SINGLE_LOCKER_XID_IS_TRANS) ++
      row.drop offsetFlag2))

def nonInplaceWalInfo (s : RowOnPage) (u : NonInplaceUpdate) : UpdateWalInfo :=
  { isInplaceUpdate := false, needsBackup := false, logicallyLogged := u.logicallyLogged
    oldRow := (stampHeader s.page s.rp.offset u.oldSlot (UHEAP_XID_EXCL_LOCK ||| UHEAP_UPDATED)
      u.tupleXid).read s.rp.offset s.rp.len
    oldUTuple := s.image, difftup := stampNewTuple u
    xorPrefixlen := 0, xorSurfixlen := 0, xlogXorDelta := [] }

/-- The record of a non-in-place update on one page. -/
def logNonInplaceUpdate (s : RowOnPage) (u : NonInplaceUpdate) : XlUpdate :=
  logUHeapUpdate (nonInplaceWalInfo s u)

/-! ## Replay -/

/-- `UpdateRedoAffixLens` -/
structure UpdateRedoAffixLens where
  prefixlen : Nat
  suffixlen : Nat
  deriving DecidableEq

/-- `GetXidbaseAndAffixLensFromUpdateRedo`: the lengths of an in-place update
come from the undo delta behind its size field. -/
def getXidbaseAndAffixLensFromUpdateRedo (x : XlUpdate) : UpdateRedoAffixLens :=
  if x.flags &&& XLZ_NON_INPLACE_UPDATE != 0 then
    ⟨0, 0⟩
  else
    let p := parseInplacePayload (x.mainTail.drop 4)
    ⟨p.prefixlen, p.suffixlen⟩

/-- The front of the block data: the lengths of a non-in-place update, and
what follows them. -/
def readBlockAffixLens (x : XlUpdate) (lens : UpdateRedoAffixLens) :
    UpdateRedoAffixLens × List UInt8 :=
  if x.flags &&& XLZ_NON_INPLACE_UPDATE != 0 then
    let (prefixlen, recdata) :=
      if x.flags &&& XLZ_UPDATE_PREFIX_FROM_OLD != 0 then
        (ofLe (x.blockData.take 2), x.blockData.drop 2) else (lens.prefixlen, x.blockData)
    let (suffixlen, recdata) :=
      if x.flags &&& XLZ_UPDATE_SUFFIX_FROM_OLD != 0 then
        (ofLe (recdata.take 2), recdata.drop 2) else (lens.suffixlen, recdata)
    (⟨prefixlen, suffixlen⟩, recdata)
  else
    (lens, x.blockData)

/-- What stands behind the fixed header of the new row: bitmap and data from
the record `recdata`, prefix and suffix from the old row. -/
def newTupleBody (lens : UpdateRedoAffixLens) (bitmapLen : Nat) (recdata oldtup : List UInt8) :
    List UInt8 :=
  (if lens.prefixlen > 0 then
    recdata.take bitmapLen ++ (oldtup.drop (tHoff oldtup)).take lens.prefixlen ++
      (recdata.drop bitmapLen).take (recdata.length - bitmapLen)
  else recdata) ++
  (if lens.suffixlen > 0 then
    (oldtup.drop (oldtup.length - lens.suffixlen)).take lens.suffixlen else [])

/-- `GetUHeapDiskTupleFromUpdateNewRedoData`: the new row, rebuilt from the
block data and the old row `oldtup` on the page. The header is zeroed first
and `reserved` is not set from the record. `none` is an ERROR. -/
def getUHeapDiskTupleFromUpdateNewRedoData (x : XlUpdate) (lens : UpdateRedoAffixLens)
    (oldtup : List UInt8) : Option (List UInt8) :=
  let (lens, recdata) := readBlockAffixLens x lens
  let xlhdr := XlUHeapHeader.decode (recdata.take SizeOfUHeapHeader)
  let tuplen := (recdata.drop SizeOfUHeapHeader).length
  -- without a prefix all is copied in one go, and `memcpy_s` refuses a room of no bytes
  if lens.prefixlen = 0 ∧ tuplen = 0 then none
  else some (toLe 4 FrozenTransactionId.toNat ++ ({ xlhdr with reserved := 0 }.encode ++
    newTupleBody lens (xlhdr.t_hoff.toNat - SizeOfUHeapDiskTupleData)
      (recdata.drop SizeOfUHeapHeader) oldtup))

/-- `PerformUpdateOldRedoAction`: flag, xid and td slot of the old row. -/
def performUpdateOldRedoAction (x : XlUpdate) (page : Mem) (rp : RowPtr) : Mem :=
  ((page.write (rp.offset + offsetFlag) (toLe 2 x.oldTupleFlag)).write rp.offset
    (toLe 4 FrozenTransactionId.toNat)).write (rp.offset + OffsetTdId) [x.oldTupleTdId]

/-- `PerformUpdateNewRedoAction` for an in-place update. -/
def performUpdateNewRedoAction (x : XlUpdate) (page : Mem) (rp : RowPtr) (newtup : List UInt8) :
    Mem × RowPtr :=
  let rp := if newtup.length ≥ rp.len ∨ x.flags &&& XLZ_UPDATE_PREFIX_FROM_OLD ≠ 0 ∨
      x.flags &&& XLZ_UPDATE_SUFFIX_FROM_OLD ≠ 0 then rp.changeLen newtup.length else rp
  (page.write rp.offset newtup, rp)

/-- The new row replay builds on a page that holds the old row at `rp`
(`UHeapXlogUpdate`, up to the point where it is put on the page). -/
def replayNewTuple (x : XlUpdate) (page : Mem) (rp : RowPtr) : Option (List UInt8) :=
  getUHeapDiskTupleFromUpdateNewRedoData x (getXidbaseAndAffixLensFromUpdateRedo x)
    ((performUpdateOldRedoAction x page rp).read rp.offset rp.len)

/-- `UHeapXlogUpdate` of an in-place update. -/
def replayInplaceUpdate (x : XlUpdate) (page : Mem) (rp : RowPtr) : Option (Mem × RowPtr) :=
  (replayNewTuple x page rp).map
    (performUpdateNewRedoAction x (performUpdateOldRedoAction x page rp) rp)

end OpenGauss.Ustore
