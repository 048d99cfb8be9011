import OpenGauss.Undo.Record

/-!
# Undo records on undo pages

`UndoRecord::Append` and `UndoRecord::ReadUndoRecord` move a record part by
part between memory and the pages of an undo zone. Both are called once a
page and resume from the number of bytes already moved.

    header:22  block:14  [txn:8] [oldtd:8] [partition:4] [tablespace:4]
    [payloadlen:2 payload]  undoLen:2

The reader does not read the trailing length.
-/

namespace OpenGauss.Undo

open Lib

def BLCKSZ : Nat := 8192
def SizeOfPageHeaderData : Nat := 24
def UNDO_LOG_BLOCK_HEADER_SIZE : Nat := SizeOfPageHeaderData
def UNDO_LOG_USABLE_BYTES_PER_PAGE : Nat := BLCKSZ - UNDO_LOG_BLOCK_HEADER_SIZE
def UNDO_LOG_OFFSET_BITS : Nat := 44

/-- `BLCKSZ - MAXALIGN(56 + UHEAP_MIN_TD * 16 + 4)` -/
def MaxPossibleUHeapTupleSize : Nat := 8096

/-! ## Undo pointers -/

/-- `UNDO_PTR_GET_ZONE_ID` -/
def undoPtrGetZoneId (urp : Nat) : Nat := urp / 2 ^ UNDO_LOG_OFFSET_BITS

/-- `UNDO_PTR_GET_OFFSET` -/
def undoPtrGetOffset (urp : Nat) : Nat := urp % 2 ^ UNDO_LOG_OFFSET_BITS

/-- `UNDO_PTR_GET_PAGE_OFFSET` -/
def undoPtrGetPageOffset (urp : Nat) : Nat := undoPtrGetOffset urp % BLCKSZ

/-- `UNDO_PTR_GET_BLOCK_NUM` -/
def undoPtrGetBlockNum (urp : Nat) : Nat := undoPtrGetOffset urp / BLCKSZ

/-- `MAKE_UNDO_PTR` -/
def makeUndoPtr (zid offset : Nat) : Nat := (zid <<< UNDO_LOG_OFFSET_BITS) ||| offset

/-- `UNDO_LOG_OFFSET_TO_USABLE_BYTE_NO` -/
def undoLogOffsetToUsableByteNo (offset : Nat) : Nat :=
  (offset % BLCKSZ - UNDO_LOG_BLOCK_HEADER_SIZE) +
    (offset / BLCKSZ) * UNDO_LOG_USABLE_BYTES_PER_PAGE

/-- `UNDO_LOG_OFFSET_FROM_USABLE_BYTE_NO` -/
def undoLogOffsetFromUsableByteNo (i : Nat) : Nat :=
  (i / UNDO_LOG_USABLE_BYTES_PER_PAGE) * BLCKSZ + UNDO_LOG_BLOCK_HEADER_SIZE +
    i % UNDO_LOG_USABLE_BYTES_PER_PAGE

/-- `UNDO_LOG_OFFSET_PLUS_USABLE_BYTES` -/
def undoLogOffsetPlusUsableBytes (offset n : Nat) : Nat :=
  undoLogOffsetFromUsableByteNo (undoLogOffsetToUsableByteNo offset + n)

def advanceUndoPtr (undoPtr size : Nat) : Nat :=
  makeUndoPtr (undoPtrGetZoneId undoPtr)
    (undoLogOffsetPlusUsableBytes (undoPtrGetOffset undoPtr) size)

/-- An undo position: a 64-bit pointer that does not point into a page
header. -/
structure UndoPos where
  urp : Nat
  urp_lt : urp < 2 ^ 64
  past_header : UNDO_LOG_BLOCK_HEADER_SIZE ≤ undoPtrGetPageOffset urp

/-! ## Parts -/

/-- The parts a reader fills before the payload, in stored order. -/
inductive UndoPart
  | whdr | wblk | wtxn | wtd | wpart | wtspc | wpay
  deriving DecidableEq

def undoParts : List UndoPart := [.whdr, .wblk, .wtxn, .wtd, .wpart, .wtspc, .wpay]

/-- The `SIZE_OF_UNDO_RECORD_*` constants. -/
def UndoPart.size : UndoPart → Nat
  | .whdr => 22
  | .wblk => 14
  | .wtxn => 8
  | .wtd => 8
  | .wpart => 4
  | .wtspc => 4
  | .wpay => 2

/-- The test of `uinfo` in front of a part, in `Append` and `ReadUndoRecord`
alike. -/
def UndoPart.stored (uinfo : UInt8) : UndoPart → Bool
  | .whdr => true
  | .wblk => true
  | .wtxn => uinfo &&& UNDO_UREC_INFO_TRANSAC != 0
  | .wtd => uinfo &&& UNDO_UREC_INFO_OLDTD != 0
  | .wpart => uinfo &&& UNDO_UREC_INFO_HAS_PARTOID != 0
  | .wtspc => uinfo &&& UNDO_UREC_INFO_HAS_TABLESPACEOID != 0
  | .wpay => uinfo &&& UNDO_UREC_INFO_PAYLOAD != 0

/-- The bytes of a part; the payload length is set from the raw data just
before it is written. -/
def UndoRecord.partBytes (urec : UndoRecord) : UndoPart → List UInt8
  | .whdr => toLe 8 urec.whdr.xid.toNat ++ (toLe 4 urec.whdr.cid.toNat ++
      (toLe 4 urec.whdr.reloid.toNat ++ (toLe 4 urec.whdr.relfilenode.toNat ++
        [urec.whdr.utype, urec.whdr.uinfo])))
  | .wblk => toLe 8 urec.wblk.blkprev.toNat ++ (toLe 4 urec.wblk.blkno.toNat ++
      toLe 2 urec.wblk.offset.toNat)
  | .wtxn => toLe 8 urec.prevurp.toNat
  | .wtd => toLe 8 urec.oldxactid.toNat
  | .wpart => toLe 4 urec.partitionoid.toNat
  | .wtspc => toLe 4 urec.tablespace.toNat
  | .wpay => toLe 2 urec.rawdata.length

/-- `RecordSize`, a `uint16`. -/
def UndoRecord.recordSize (urec : UndoRecord) : Nat :=
  (UndoPart.whdr.size + UndoPart.wblk.size + 2 +
    (if urec.hasInfo UNDO_UREC_INFO_PAYLOAD then UndoPart.wpay.size + urec.rawdata.length else 0) +
    (if urec.hasInfo UNDO_UREC_INFO_TRANSAC then UndoPart.wtxn.size else 0) +
    (if urec.hasInfo UNDO_UREC_INFO_OLDTD then UndoPart.wtd.size else 0) +
    (if urec.hasInfo UNDO_UREC_INFO_HAS_PARTOID then UndoPart.wpart.size else 0) +
    (if urec.hasInfo UNDO_UREC_INFO_HAS_TABLESPACEOID then UndoPart.wtspc.size else 0)) % 2 ^ 16

/-- A record whose payload is at most the largest row image with the trailers
an update appends to it. -/
structure StorableRecord where
  urec : UndoRecord
  payload_le : urec.rawdata.length ≤
    MaxPossibleUHeapTupleSize + sizeofItemPointerData + sizeofSubTransactionId

/-! ## Writing -/

/-- The page being written and the running counters of `Append`. -/
structure PageWriter where
  page : Mem
  writeptr : Nat
  myBytesWritten : Nat
  alreadyWritten : Nat

def insertUndoBytes (src : List UInt8) (w : PageWriter) : Bool × PageWriter :=
  if w.myBytesWritten ≥ src.length then
    (true, { w with myBytesWritten := w.myBytesWritten - src.length })
  else
    let remaining := src.length - w.myBytesWritten
    let canWrite := min remaining (BLCKSZ - w.writeptr)
    if canWrite = 0 then
      (false, w)
    else
      (canWrite == remaining,
        { page := w.page.write w.writeptr ((src.drop w.myBytesWritten).take canWrite)
          writeptr := w.writeptr + canWrite
          myBytesWritten := 0
          alreadyWritten := w.alreadyWritten + canWrite })

/-- A sequence of `InsertUndoBytes` calls, each with its early return. -/
def insertUndoParts : List (List UInt8) → PageWriter → Bool × PageWriter
  | [], w => (true, w)
  | src :: rest, w =>
    match insertUndoBytes src w with
    | (true, w') => insertUndoParts rest w'
    | (false, w') => (false, w')

/-- What `Append` hands to `InsertUndoBytes`, in order; an empty payload is
passed over. -/
def UndoRecord.appendParts (urec : UndoRecord) (undoLen : Nat) : List (List UInt8) :=
  (undoParts.filter (UndoPart.stored urec.whdr.uinfo)).map urec.partBytes ++
    ((if urec.hasInfo UNDO_UREC_INFO_PAYLOAD ∧ urec.rawdata.length % 2 ^ 16 > 0 then
      [urec.rawdata] else []) ++ [toLe 2 undoLen])

/-- `UndoRecord::Append`: true when the record is complete. -/
def UndoRecord.appendToPage (urec : UndoRecord) (page : Mem)
    (startingByte alreadyWritten undoLen : Nat) : Bool × PageWriter :=
  insertUndoParts (urec.appendParts undoLen) ⟨page, startingByte, alreadyWritten, alreadyWritten⟩

/-- The pages of an undo zone by block number. -/
abbrev UndoZonePages := Nat → Mem

/-- The zone after a write, the bytes written, and where on which page the
write stopped. -/
structure InsertResult where
  pages : UndoZonePages
  alreadyWritten : Nat
  blk : Nat
  writeptr : Nat
  complete : Bool

/-- The `do`-`while` of `PrepareUndoRecord` that reserves the buffers of a
record: how many pages it takes when `curSize` bytes fit on those counted so
far. Every turn adds a page, so `undoSize` turns are more than it makes. -/
def reserveUndoBuffers (undoSize : Nat) : Nat → Nat → Nat
  | 0, _ => 0
  | turns + 1, curSize =>
    if curSize < undoSize then
      reserveUndoBuffers undoSize turns (curSize + (BLCKSZ - UNDO_LOG_BLOCK_HEADER_SIZE)) + 1
    else 0

/-- The page loop of `InsertPreparedUndo` over the reserved buffers. -/
def insertUndoPages (urec : UndoRecord) (undoLen : Nat) :
    Nat → UndoZonePages → Nat → Nat → Nat → InsertResult
  | 0, pages, blk, startingByte, alreadyWritten =>
    ⟨pages, alreadyWritten, blk, startingByte, false⟩
  | buffers + 1, pages, blk, startingByte, alreadyWritten =>
    match urec.appendToPage (pages blk) startingByte alreadyWritten undoLen with
    | (true, w) => ⟨Function.update pages blk w.page, w.alreadyWritten, blk, w.writeptr, true⟩
    | (false, w) =>
      insertUndoPages urec undoLen buffers (Function.update pages blk w.page) (blk + 1)
        UNDO_LOG_BLOCK_HEADER_SIZE w.alreadyWritten

/-- `InsertPreparedUndo` of one record prepared at `urp`: the loop of `Append` over the pages. The
page headers it initialises and stamps are left out. -/
def insertPreparedUndo (urec : UndoRecord) (urp : Nat) (pages : UndoZonePages) : InsertResult :=
  let undoLen := urec.recordSize
  let startingByte := undoPtrGetPageOffset urp
  let buffers := reserveUndoBuffers undoLen undoLen (BLCKSZ - startingByte) + 1
  insertUndoPages urec undoLen buffers pages (undoPtrGetBlockNum urp) startingByte 0

/-! ## Reading -/

/-- The record's memory while it is read: the bytes of each part, and the
raw data (`none` is the null pointer). -/
structure RecordBuf where
  part : UndoPart → List UInt8
  rawdata : Option (List UInt8)

/-- The running counters of `ReadUndoRecord`. -/
structure ReadCursor where
  readptr : Nat
  myBytesRead : Nat
  alreadyRead : Nat
  deriving DecidableEq

/-- `ReadUndoBytes`: the destination keeps what earlier pages filled in. -/
def readUndoBytes (page : Mem) (dest : List UInt8) (c : ReadCursor) :
    Bool × List UInt8 × ReadCursor :=
  if c.myBytesRead ≥ dest.length then
    (true, dest, { c with myBytesRead := c.myBytesRead - dest.length })
  else
    let remaining := dest.length - c.myBytesRead
    let canRead := min remaining (BLCKSZ - c.readptr)
    if canRead = 0 then
      (false, dest, c)
    else
      (canRead == remaining,
        dest.take c.myBytesRead ++ page.read c.readptr canRead ++
          dest.drop (c.myBytesRead + canRead),
        ⟨c.readptr + canRead, 0, c.alreadyRead + canRead⟩)

/-- `whdr_.uinfo` as the reader has it. -/
def RecordBuf.uinfo (buf : RecordBuf) : UInt8 := (buf.part .whdr).getD 21 0

/-- The fixed-size parts, each behind its test of `uinfo`. -/
def readUndoParts (page : Mem) : List UndoPart → RecordBuf → ReadCursor →
    Bool × RecordBuf × ReadCursor
  | [], buf, c => (true, buf, c)
  | p :: rest, buf, c =>
    if p.stored buf.uinfo then
      match readUndoBytes page (buf.part p) c with
      | (true, dest, c') =>
        readUndoParts page rest { buf with part := Function.update buf.part p dest } c'
      | (false, dest, c') => (false, { buf with part := Function.update buf.part p dest }, c')
    else
      readUndoParts page rest buf c

/-- The payload: used in place when it lies on the first page read, else
copied into memory allocated at the first try. -/
def readUndoPayload (page : Mem) (copyData isUndoSplited : Bool) (buf : RecordBuf)
    (c : ReadCursor) : Bool × RecordBuf × ReadCursor :=
  let len := ofLe (buf.part .wpay)
  if buf.uinfo &&& UNDO_UREC_INFO_PAYLOAD != 0 ∧ len > 0 then
    if copyData = false ∧ isUndoSplited = false ∧ len ≤ BLCKSZ - c.readptr then
      (true, { buf with rawdata := some (page.read c.readptr len) }, c)
    else
      let dest := buf.rawdata.getD (List.replicate len 0)
      let (done, dest, c) := readUndoBytes page dest c
      (done, { buf with rawdata := some dest }, c)
  else
    (true, buf, c)

/-- `UndoRecord::ReadUndoRecord`: true when the record is complete. -/
def readUndoRecord (page : Mem) (startingByte alreadyRead : Nat) (copyData : Bool)
    (buf : RecordBuf) : Bool × RecordBuf × ReadCursor :=
  match readUndoParts page undoParts buf ⟨startingByte, alreadyRead, alreadyRead⟩ with
  | (false, buf, c) => (false, buf, c)
  | (true, buf, c) => readUndoPayload page copyData (decide (alreadyRead > 0)) buf c

/-- A record as `UndoRecord::UndoRecord` or `Reset` leaves it. -/
def RecordBuf.init : RecordBuf := ⟨UndoRecord.init.partBytes, none⟩

/-- The fields of the record in memory. -/
def RecordBuf.decode (buf : RecordBuf) : UndoRecord :=
  let field := fun (p : UndoPart) (off w : Nat) => ofLe (((buf.part p).drop off).take w)
  { whdr := ⟨.ofNat (field .whdr 0 8), .ofNat (field .whdr 8 4), .ofNat (field .whdr 12 4),
      .ofNat (field .whdr 16 4), (buf.part .whdr).getD 20 0, buf.uinfo⟩
    wblk := ⟨.ofNat (field .wblk 0 8), .ofNat (field .wblk 8 4), .ofNat (field .wblk 12 2)⟩
    prevurp := .ofNat (field .wtxn 0 8)
    oldxactid := .ofNat (field .wtd 0 8)
    partitionoid := .ofNat (field .wpart 0 4)
    tablespace := .ofNat (field .wtspc 0 4)
    rawdata := buf.rawdata.getD [] }

/-- The page loop of `UndoRecord::Load`; `none` is its PANIC on a record that
is too long. -/
def loadUndoPages (pages : UndoZonePages) (copyData : Bool) :
    Nat → Nat → Nat → Nat → RecordBuf → Option RecordBuf
  | 0, _, _, _, _ => none
  | turns + 1, blk, startingByte, alreadyRead, buf =>
    if alreadyRead > BLCKSZ then
      none
    else
      match readUndoRecord (pages blk) startingByte alreadyRead copyData buf with
      | (true, buf, _) => some buf
      | (false, buf, c) =>
        loadUndoPages pages copyData turns (blk + 1) UNDO_LOG_BLOCK_HEADER_SIZE c.alreadyRead buf

/-- `UndoRecord::Load` of a fresh record. A third page leaves more than
`BLCKSZ` bytes read, so a fourth turn of the loop always ends in the PANIC. -/
def UndoRecord.load (pages : UndoZonePages) (urp : Nat) (keepBuffer : Bool) : Option UndoRecord :=
  (loadUndoPages pages keepBuffer 4 (undoPtrGetBlockNum urp) (undoPtrGetPageOffset urp) 0
    .init).map RecordBuf.decode

end OpenGauss.Undo
