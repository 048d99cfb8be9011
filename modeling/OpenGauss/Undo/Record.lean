import OpenGauss.Lib.Mem

/-!
# Undo records

The in-memory undo record (`UndoRecord`) with the parts that are stored in
the undo log, under the source's field names and widths, and the bits of
`uinfo` that say which optional parts are there.
-/

namespace OpenGauss.Undo

open Lib

/-! ## Identifiers -/

abbrev TransactionId := UInt64
abbrev UndoRecPtr := UInt64

def InvalidTransactionId : TransactionId := 0
def FrozenTransactionId : TransactionId := 2
def INVALID_UNDO_REC_PTR : UndoRecPtr := 0
def InvalidSubTransactionId : UInt64 := 0
def InvalidOffsetNumber : UInt16 := 0

def sizeofSubTransactionId : Nat := 8
def sizeofItemPointerData : Nat := 6

/-! ## Record types and `uinfo` bits -/

def UNDO_DELETE : UInt8 := 0x03
def UNDO_INPLACE_UPDATE : UInt8 := 0x04
def UNDO_UPDATE : UInt8 := 0x05

def UNDO_UREC_INFO_PAYLOAD : UInt8 := 0x01
def UNDO_UREC_INFO_TRANSAC : UInt8 := 0x02
def UNDO_UREC_INFO_OLDTD : UInt8 := 0x08
def UNDO_UREC_INFO_CONTAINS_SUBXACT : UInt8 := 0x10
def UNDO_UREC_INFO_HAS_PARTOID : UInt8 := 0x20
def UNDO_UREC_INFO_HAS_TABLESPACEOID : UInt8 := 0x40

/-- `UndoRecordHeader` (22 bytes). -/
structure UndoRecordHeader where
  xid : TransactionId
  cid : UInt32
  reloid : UInt32
  relfilenode : UInt32
  utype : UInt8
  uinfo : UInt8
  deriving DecidableEq

/-- `UndoRecordBlock` (14 bytes). -/
structure UndoRecordBlock where
  blkprev : UndoRecPtr
  blkno : UInt32
  offset : UInt16
  deriving DecidableEq

/-- The undo record: the fixed parts, the one-field optional parts and the
raw data that becomes the payload. -/
structure UndoRecord where
  whdr : UndoRecordHeader
  wblk : UndoRecordBlock
  /-- `wtxn_.prevurp` -/
  prevurp : UndoRecPtr
  /-- `wtd_.oldxactid` -/
  oldxactid : TransactionId
  /-- `wpart_.partitionoid` -/
  partitionoid : UInt32
  /-- `wtspc_.tablespace` -/
  tablespace : UInt32
  rawdata : List UInt8
  deriving DecidableEq

/-- The values `Init2DefVal` gives to a record before it is used. -/
def UndoRecord.init : UndoRecord where
  whdr := ⟨InvalidTransactionId, 0xFFFFFFFF, 0, 0, 0, 0⟩
  wblk := ⟨INVALID_UNDO_REC_PTR, 0xFFFFFFFF, 0⟩
  prevurp := INVALID_UNDO_REC_PTR
  oldxactid := FrozenTransactionId
  partitionoid := 0
  tablespace := 0
  rawdata := []

/-- A bit of `uinfo`. -/
def UndoRecord.hasInfo (urec : UndoRecord) (bit : UInt8) : Bool :=
  urec.whdr.uinfo &&& bit != 0

def UndoRecord.utype (urec : UndoRecord) : UInt8 := urec.whdr.utype

def UndoRecord.containSubXact (urec : UndoRecord) : Bool :=
  urec.hasInfo UNDO_UREC_INFO_CONTAINS_SUBXACT

/-- Absorption: a bit that was set is read back. -/
theorem uint8_or_and_self (i b : UInt8) : (i ||| b) &&& b = b := by
  apply UInt8.toBitVec_inj.mp
  ext j hj
  simp only [UInt8.toBitVec_and, UInt8.toBitVec_or, BitVec.getElem_and, BitVec.getElem_or]
  cases i.toBitVec[j] <;> cases b.toBitVec[j] <;> rfl

/-- `SetUinfo` only ever adds bits. -/
def UndoRecord.setUinfo (urec : UndoRecord) (bit : UInt8) : UndoRecord :=
  { urec with whdr := { urec.whdr with uinfo := urec.whdr.uinfo ||| bit } }

/-- `appendBinaryStringInfo` on the record's raw data. -/
def UndoRecord.append (urec : UndoRecord) (bs : List UInt8) : UndoRecord :=
  { urec with rawdata := urec.rawdata ++ bs }

variable (urec : UndoRecord)

@[simp] theorem UndoRecord.append_rawdata (bs : List UInt8) :
    (urec.append bs).rawdata = urec.rawdata ++ bs := rfl

@[simp] theorem UndoRecord.append_containSubXact (bs : List UInt8) :
    (urec.append bs).containSubXact = urec.containSubXact := rfl

@[simp] theorem UndoRecord.setUinfo_rawdata (bit : UInt8) :
    (urec.setUinfo bit).rawdata = urec.rawdata := rfl

theorem UndoRecord.containSubXact_setUinfo :
    (urec.setUinfo UNDO_UREC_INFO_CONTAINS_SUBXACT).containSubXact = true := by
  simp only [containSubXact, hasInfo, setUinfo, uint8_or_and_self]
  decide

end OpenGauss.Undo
