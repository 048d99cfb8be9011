import OpenGauss.Lib.Mem

/-!
# Ustore rows

The on-disk row of the in-place update engine (`UHeapDiskTupleData`) as a
byte string with its header fields, and the row pointer that locates it on
a page.

    xid:4  td_id:1  reserved:1  flag:2  flag2:2  t_hoff:1  data...
-/

namespace OpenGauss.Ustore

open Lib

/-- `sizeof(ShortTransactionId)`: the row's bytes from the td id on are what
undo keeps. -/
def OffsetTdId : Nat := 4

def offsetFlag : Nat := 6
def offsetFlag2 : Nat := 8
def offsetTHoff : Nat := 10

/-- `offsetof(UHeapDiskTupleData, data)` -/
def SizeOfUHeapDiskTupleData : Nat := 11

def UHEAP_DELETED : Nat := 0x0010
def UHEAP_INPLACE_UPDATED : Nat := 0x0020
def UHEAP_UPDATED : Nat := 0x0040
def UHEAP_XID_EXCL_LOCK : Nat := 0x0400
def UHEAP_INVALID_XACT_SLOT : Nat := 0x1000
def SINGLE_LOCKER_XID_IS_TRANS : Nat := 0x8000
def UHEAP_VIS_STATUS_MASK : Nat := 0xFFF0
/-- `~UHEAP_VIS_STATUS_MASK` in a `uint16`. -/
def uheapVisStatusClear : Nat := 0x000F
def UHEAP_NATTS_MASK : Nat := 0x07FF
/-- `~UHEAP_NATTS_MASK` in a `uint16`. -/
def uheapNattsClear : Nat := 0xF800

variable (row : List UInt8)

/-- `t_hoff`: size of the header with null bitmap and padding. -/
def tHoff : Nat := (row.getD offsetTHoff 0).toNat

/-- The row's slot number, counted from one. -/
def rowTdId : UInt8 := row.getD OffsetTdId 0

def rowFlag : Nat := ofLe ((row.drop offsetFlag).take 2)

def rowFlag2 : Nat := ofLe ((row.drop offsetFlag2).take 2)

def rowData : List UInt8 := row.drop (tHoff row)

/-- A byte string that is a row: the header is there, `t_hoff` points behind
it and inside the row, a null bitmap or data follow, and the length fits the
row pointer's 15 bits. -/
structure RowOk (row : List UInt8) : Prop where
  hoff_ge : SizeOfUHeapDiskTupleData ≤ tHoff row
  hoff_le : tHoff row ≤ row.length
  len_lt : row.length < 2 ^ 15
  body_pos : SizeOfUHeapDiskTupleData < row.length

/-- A row image; a byte string that is no row cannot be one. -/
structure DiskTuple where
  bytes : List UInt8
  ok : RowOk bytes

/-- Equal from the td id on; the first four bytes hold the short xid, which
every undo decoder replaces by the frozen one. -/
def SameFromTdId (a b : List UInt8) : Prop :=
  a.length = b.length ∧ a.drop OffsetTdId = b.drop OffsetTdId

theorem tHoff_lt : tHoff row < 256 := UInt8.toNat_lt _

theorem RowOk.length_ge {row : List UInt8} (h : RowOk row) :
    SizeOfUHeapDiskTupleData ≤ row.length := Nat.le_of_lt h.body_pos

theorem RowOk.drop_tHoff {row : List UInt8} (h : RowOk row) : row.drop offsetTHoff =
    UInt8.ofNat (tHoff row) :: row.drop SizeOfUHeapDiskTupleData := by
  have hlt : offsetTHoff < row.length := Nat.lt_of_lt_of_le (by decide) h.length_ge
  rw [List.drop_eq_getElem_cons hlt, tHoff, List.getD_eq_getElem?_getD, List.getElem?_eq_getElem hlt,
    Option.getD_some, UInt8.ofNat_toNat]
  rfl

theorem tHoff_eq_drop : tHoff row = ((row.drop OffsetTdId).getD 6 0).toNat := by
  simp [tHoff, offsetTHoff, OffsetTdId, List.getD_eq_getElem?_getD, List.getElem?_drop]

namespace SameFromTdId

variable {a b : List UInt8}

protected theorem refl (a : List UInt8) : SameFromTdId a a := ⟨rfl, rfl⟩

theorem tHoff_eq (h : SameFromTdId a b) : tHoff a = tHoff b := by
  rw [tHoff_eq_drop, tHoff_eq_drop, h.2]

theorem drop_eq (h : SameFromTdId a b) {n : Nat} (hn : OffsetTdId ≤ n) : a.drop n = b.drop n := by
  have hd := congrArg (List.drop (n - OffsetTdId)) h.2
  rw [List.drop_drop, List.drop_drop] at hd
  rwa [show OffsetTdId + (n - OffsetTdId) = n by omega] at hd

theorem rowData_eq (h : SameFromTdId a b) (hb : RowOk b) : rowData a = rowData b := by
  unfold rowData
  rw [h.tHoff_eq]
  have := hb.hoff_ge
  exact h.drop_eq (by simp only [SizeOfUHeapDiskTupleData] at this; simp only [OffsetTdId]; omega)

end SameFromTdId

/-- The results of `UHeapTupleSatisfiesOldestXmin`. -/
inductive UHTSVResult
  | dead
  | live
  | recentlyDead
  | insertInProgress
  | deleteInProgress
  | abortInProgress
  deriving DecidableEq

/-! ## Row pointers -/

/-- The two `flags` bits of a row pointer. -/
inductive RpFlags
  | unused | normal | redirect | dead
  deriving DecidableEq

/-- `RowPtr`: 15 bits offset, 2 bits state, 15 bits length. -/
structure RowPtr where
  offset : Nat
  flags : RpFlags
  len : Nat
  deriving DecidableEq

/-- `RowPtrChangeLen`; the field has 15 bits. -/
def RowPtr.changeLen (rp : RowPtr) (length : Nat) : RowPtr := { rp with len := length % 2 ^ 15 }

@[simp] theorem RowPtr.changeLen_offset (rp : RowPtr) (n : Nat) :
    (rp.changeLen n).offset = rp.offset := rfl

theorem RowPtr.changeLen_len {rp : RowPtr} {n : Nat} (h : n < 2 ^ 15) :
    (rp.changeLen n).len = n := Nat.mod_eq_of_lt h

end OpenGauss.Ustore
