import Mathlib.Data.List.Sort
import OpenGauss.Ustore.TupleDesc

/-!
# Ustore pages

    header | transaction slots | row pointers →      ← rows | special
           56                  ↑ pd_lower     pd_upper ↑    ↑ pd_special

The page's header fields, its row pointers (numbered from one) and the bytes
of its rows, the macros on row pointers of deleted rows, and the self-check
`UpageVerify` that runs after a page was changed.
-/

namespace OpenGauss.Ustore

open Lib

def BLCKSZ : Nat := 8192
/-- `sizeof(UHeapPageHeaderData)` -/
def SizeOfUHeapPageHeaderData : Nat := 56
def sizeofTD : Nat := 16
def sizeofRowPtr : Nat := 4
def UHEAP_MAX_TD : Nat := 128
def UHEAP_MIN_TD : Nat := 2

def InvalidOffsetNumber : Nat := 0
def InvalidTransactionId : Nat := 0
def FirstNormalTransactionId : Nat := 3
def UHEAPTUP_SLOT_FROZEN : Nat := 0

/-- `SHORTALIGN` -/
def shortAlign (len : Nat) : Nat := (len + 1) / 2 * 2
/-- `MAXALIGN` -/
def maxAlign (len : Nat) : Nat := (len + 7) / 8 * 8

def MaxUHeapTupFixedSize : Nat := SizeOfUHeapDiskTupleData + sizeofRowPtr
def MaxPossibleUHeapTuplesPerPage : Nat :=
  (BLCKSZ - SizeOfUHeapPageHeaderData) / MaxUHeapTupFixedSize
def MaxPossibleUHeapTupleSize : Nat :=
  BLCKSZ - maxAlign (SizeOfUHeapPageHeaderData + UHEAP_MIN_TD * sizeofTD + sizeofRowPtr)

/-! ## Row pointers -/

def ROWPTR_DELETED : Nat := 0x0001
/-- The slot named by the row pointer was reused. -/
def ROWPTR_XACT_INVALID : Nat := 0x0002
def VISIBILTY_MASK : Nat := 0x007F
def XACT_SLOT : Nat := 0x7F80
def XACT_SLOT_MASK : Nat := 7

namespace RowPtr

def isUsed (rp : RowPtr) : Bool := rp.flags ≠ .unused
def hasStorage (rp : RowPtr) : Bool := 0 < rp.len
def isNormal (rp : RowPtr) : Bool := rp.flags = .normal
def isDead (rp : RowPtr) : Bool := rp.flags = .dead
/-- The row was pruned; only its slot and visibility are left. -/
def isDeleted (rp : RowPtr) : Bool := rp.flags = .redirect

def setUnused : RowPtr := ⟨0, .unused, 0⟩
def setDead : RowPtr := ⟨0, .dead, 0⟩

/-- `RowPtrSetDeleted`: the 15 offset bits take the visibility flags below
and the slot number above. On 15 bits `~VISIBILTY_MASK` is `XACT_SLOT` and
`~XACT_SLOT` is `VISIBILTY_MASK`. -/
def setDeleted (rp : RowPtr) (tdSlot visInfo : Nat) : RowPtr :=
  let offset := (rp.offset &&& XACT_SLOT) ||| visInfo
  { offset := ((offset &&& VISIBILTY_MASK) ||| tdSlot <<< XACT_SLOT_MASK) % 2 ^ 15
    flags := .redirect
    len := 0 }

def visibilityInfo (rp : RowPtr) : Nat := rp.offset &&& VISIBILTY_MASK
def tdSlot (rp : RowPtr) : Nat := (rp.offset &&& XACT_SLOT) >>> XACT_SLOT_MASK

end RowPtr

/-! ## The page -/

structure UPage where
  pdLower : Nat
  pdUpper : Nat
  pdSpecial : Nat
  potentialFreespace : Nat
  tdCount : Nat
  pdPruneXid : Nat
  isFull : Bool
  hasFreeLinePointers : Bool
  /-- `xactid` of each transaction slot, numbered from one. -/
  tdXid : Nat → Nat
  rowPtr : Nat → RowPtr
  data : Mem

namespace UPage

/-- `UPageGetRowPtrOffset`: end of header and transaction slots. -/
def rowPtrOffset (p : UPage) : Nat := SizeOfUHeapPageHeaderData + p.tdCount * sizeofTD

/-- `UHeapPageGetMaxOffsetNumber` -/
def maxOffsetNumber (p : UPage) : Nat :=
  if p.pdLower ≤ SizeOfUHeapPageHeaderData then 0
  else (p.pdLower - p.rowPtrOffset) / sizeofRowPtr

/-- `FirstOffsetNumber .. UHeapPageGetMaxOffsetNumber(page)` -/
def offsetNumbers (p : UPage) : List Nat := List.range' 1 p.maxOffsetNumber

def rowData (p : UPage) (lp : RowPtr) : List UInt8 := p.data.read lp.offset lp.len

/-- The bytes from the row at `off` on, its `disk_tuple`. -/
def tupleAt (p : UPage) (off : Nat) : Mem := fun i => p.data ((p.rowPtr off).offset + i)

/-- `PageGetExactUHeapFreeSpace` -/
def exactFreeSpace (p : UPage) : Nat := p.pdUpper - p.pdLower

/-- `CalculatedMaxUHeapTuplesPerPage(UPageGetTDSlotCount(page))` -/
def maxTupleCount (p : UPage) : Nat :=
  (BLCKSZ - SizeOfUHeapPageHeaderData - p.tdCount * sizeofTD) / MaxUHeapTupFixedSize

/-- `UPageIsPrunableWithXminHorizon` -/
def isPrunable (p : UPage) (oldestXmin : Nat) : Bool :=
  p.pdPruneXid ≠ InvalidTransactionId ∧ p.pdPruneXid < oldestXmin

def setRowPtr (p : UPage) (off : Nat) (rp : RowPtr) : UPage :=
  { p with rowPtr := Function.update p.rowPtr off rp }

end UPage

/-- Reports of the page functions, with the values they print; `assertion`
is a failed `Assert`. -/
inductive PageError
  | corruptedPagePointers (lower upper special : Nat)
  | corruptedItemPointer (itemoff : Nat)
  | corruptedItemLengths (total available : Nat)
  | invalidTdSlot (tdSlot off : Nat)
  | securec
  | verifyHeader
  | verifyRow (off : Nat)
  | verifyOverlap
  | assertion
  deriving DecidableEq

/-! ## The self-check -/

/-- `ustore_verify_level`; `none` also stands for a module or relation the
check is switched off for. -/
inductive VerifyLevel
  | none | fast | complete
  deriving DecidableEq

/-- `UpageVerifyHeader` for a call without a redo position. -/
def upageVerifyHeader (nextXid : Nat) (p : UPage) : Except PageError Unit :=
  if p.pdLower < p.rowPtrOffset ∨ p.pdLower > p.pdUpper ∨ p.pdUpper > p.pdSpecial ∨
      p.potentialFreespace > BLCKSZ ∨ p.pdSpecial ≠ BLCKSZ then
    .error .verifyHeader
  else if p.tdCount = 0 ∨ p.tdCount > UHEAP_MAX_TD then .error .verifyHeader
  else if p.pdPruneXid > nextXid then .error .verifyHeader
  else .ok ()

/-- `RpSortData`: the bytes a row takes up. -/
structure RpSort where
  start : Nat
  stop : Nat
  deriving DecidableEq

/-- The scan of `UpageVerifyAllRowptr`: rows must lie between `pd_upper` and
`pd_special`, row pointers of deleted rows must name a slot of the page. -/
def collectRows (nextXid : Nat) (p : UPage) : List Nat → Except PageError (List RpSort)
  | [] => .ok []
  | i :: is =>
    let rp := p.rowPtr i
    if rp.isNormal then
      let row : RpSort := ⟨rp.offset, rp.offset + shortAlign rp.len⟩
      if row.start < p.pdUpper ∨ row.stop > p.pdSpecial then .error (.verifyRow i)
      else do
        let rows ← collectRows nextXid p is
        .ok (row :: rows)
    else if rp.isDeleted then
      if rp.tdSlot = UHEAPTUP_SLOT_FROZEN then .error (.verifyRow i)
      else if rp.tdSlot > p.tdCount then .error (.verifyRow i)
      else if p.tdXid rp.tdSlot > nextXid then .error (.verifyRow i)
      else collectRows nextXid p is
    else collectRows nextXid p is

/-- Each row ends before the next one starts. -/
def rowsApart : List RpSort → Bool
  | a :: b :: rows => a.stop ≤ b.start && rowsApart (b :: rows)
  | _ => true

/-- `UpageVerifyAllRowptr`; the rows are compared in order of their starts. -/
def upageVerifyAllRowptr (nextXid : Nat) (p : UPage) : Except PageError Unit := do
  let rows ← collectRows nextXid p p.offsetNumbers
  if rowsApart (rows.insertionSort fun a b => a.start ≤ b.start) then .ok ()
  else .error .verifyOverlap

/-- `UpageVerify` with `USTORE_VERIFY_UPAGE_HEADER | USTORE_VERIFY_UPAGE_ROWS`. -/
def upageVerify (level : VerifyLevel) (nextXid : Nat) (p : UPage) : Except PageError Unit :=
  match level with
  | .none => .ok ()
  | .fast => upageVerifyHeader nextXid p
  | .complete => do
    upageVerifyHeader nextXid p
    upageVerifyAllRowptr nextXid p

end OpenGauss.Ustore
