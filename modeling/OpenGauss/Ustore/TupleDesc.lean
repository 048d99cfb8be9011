import OpenGauss.Ustore.DiskTuple
import OpenGauss.Varlena

/-!
# The size of a row's attributes

`CalTupSize` walks over the attributes of a row, as the descriptor of its table lists them.
Behind the null bitmap there may be a bit for each null that says whether space is reserved
for it. An attribute that is passed by value is not aligned.
-/

namespace OpenGauss.Ustore

open Lib

def UHEAP_HAS_NULL : Nat := 0x0001

/-- `attalign` -/
inductive AttAlign
  | char | short | int | double
  deriving DecidableEq

/-- `att_align_nominal` -/
def attAlignNominal (off : Nat) : AttAlign → Nat
  | .char => off
  | .short => (off + 1) / 2 * 2
  | .int => (off + 3) / 4 * 4
  | .double => (off + 7) / 8 * 8

/-- `attlen` and `attbyval`: a fixed length, by value or not, -1 or -2. -/
inductive AttLen
  | byVal (attlen : Nat)
  | byRef (attlen : Nat)
  | varlena
  | cstring
  deriving DecidableEq

structure Attribute where
  attlen : AttLen
  attalign : AttAlign
  deriving DecidableEq

/-- `att_isnull` in the bitmap of the row at `tup`. -/
def attIsnull (tup : Mem) (att : Nat) : Bool :=
  !(tup (SizeOfUHeapDiskTupleData + att / 8)).toNat.testBit (att % 8)

/-- `NAttrsReserveSpace` -/
def nattrsReserveSpace (nattrs : Nat) : Bool := nattrs ≤ (255 - SizeOfUHeapDiskTupleData) * 8 / 2

/-- `strlen`, for strings that end on the page. -/
def strlen (tup : Mem) (off : Nat) : Nat := ((tup.read off 8192).takeWhile (· ≠ 0)).length

/-- The end of an attribute that is not null, if the one before it ends at `off`. -/
def attEnd (tup : Mem) (off : Nat) (att : Attribute) : Nat :=
  match att.attlen with
  | .byVal attlen => off + attlen
  | .byRef attlen => attAlignNominal off att.attalign + attlen
  | .varlena =>
    -- a short header is not padded, and no header begins with a byte of zeros
    let off := if tup off ≠ 0 then off else attAlignNominal off att.attalign
    off + varsizeAny (tup.read off 4)
  | .cstring =>
    let off := attAlignNominal off att.attalign
    off + (strlen tup off + 1)

/-- `off += attlen` for a null with space; the length of other than fixed ones is negative. -/
def AttLen.skip (off : Nat) : AttLen → Nat
  | .byVal attlen => off + attlen
  | .byRef attlen => off + attlen
  | .varlena => off - 1
  | .cstring => off - 2

section Row

variable (tup : Mem)

def tupleHeader : List UInt8 := tup.read 0 SizeOfUHeapDiskTupleData

/-- `UHeapTupleHeaderGetNatts` -/
def tupleAttrs : Nat := rowFlag2 (tupleHeader tup) &&& UHEAP_NATTS_MASK

/-- `UHeapDiskTupHasNulls` -/
def hasNulls : Bool := rowFlag (tupleHeader tup) &&& UHEAP_HAS_NULL ≠ 0

/-- Space is reserved for the null with `nullcount` nulls before it. -/
def reserved (nullcount : Nat) : Bool :=
  nattrsReserveSpace (tupleAttrs tup) && !attIsnull tup (tupleAttrs tup + nullcount)

/-- The loop of `CalTupSize`, from attribute `attnum` on. -/
def calTupSizeLoop : Nat → Nat → Nat → List Attribute → Nat
  | _, _, off, [] => off
  | attnum, nullcount, off, att :: atts =>
    if hasNulls tup && attIsnull tup attnum then
      calTupSizeLoop (attnum + 1) (nullcount + 1)
        (if reserved tup nullcount then att.attlen.skip off else off) atts
    else calTupSizeLoop (attnum + 1) nullcount (attEnd tup off att) atts

/-- `CalTupSize` of the row at `tup`. -/
def calTupSize (rowDesc : List Attribute) : Nat :=
  calTupSizeLoop tup 0 0 (tHoff (tupleHeader tup)) (rowDesc.take (tupleAttrs tup))

/-- Space is reserved only for nulls that are passed by value, as rows are formed. -/
def ReservesByVal : Nat → Nat → List Attribute → Prop
  | _, _, [] => True
  | attnum, nullcount, att :: atts =>
    if hasNulls tup && attIsnull tup attnum then
      (reserved tup nullcount → ∃ attlen, att.attlen = .byVal attlen) ∧
        ReservesByVal (attnum + 1) (nullcount + 1) atts
    else ReservesByVal (attnum + 1) nullcount atts

/-- A row of the table: the header is behind its fixed part, and space is reserved as above. -/
structure RowFormed (rowDesc : List Attribute) : Prop where
  hoff_ge : SizeOfUHeapDiskTupleData ≤ tHoff (tupleHeader tup)
  reserves : ReservesByVal tup 0 0 (rowDesc.take (tupleAttrs tup))

end Row

variable {tup : Mem}

theorem le_attAlignNominal (off : Nat) (align : AttAlign) : off ≤ attAlignNominal off align := by
  cases align <;> simp only [attAlignNominal] <;> omega

theorem le_attEnd (off : Nat) (att : Attribute) : off ≤ attEnd tup off att := by
  have hle := le_attAlignNominal off att.attalign
  unfold attEnd
  cases att.attlen with
  | byVal attlen => exact Nat.le_add_right _ _
  | byRef attlen => exact Nat.le_add_right_of_le hle
  | varlena =>
    simp only
    split <;> omega
  | cstring => exact Nat.le_add_right_of_le hle

/-- The walk only goes forward. -/
theorem le_calTupSizeLoop (atts : List Attribute) : ∀ {attnum nullcount off : Nat},
    ReservesByVal tup attnum nullcount atts →
      off ≤ calTupSizeLoop tup attnum nullcount off atts := by
  induction atts with
  | nil => exact fun _ => Nat.le_refl _
  | cons att atts ih =>
    intro attnum nullcount off h
    rw [ReservesByVal] at h
    rw [calTupSizeLoop]
    by_cases hnull : (hasNulls tup && attIsnull tup attnum) = true
    · rw [if_pos hnull] at h ⊢
      obtain ⟨hres, h⟩ := h
      apply Nat.le_trans _ (ih h)
      split
      next hr =>
        obtain ⟨attlen, heq⟩ := hres hr
        rw [heq]
        exact Nat.le_add_right off attlen
      · exact Nat.le_refl off
    · rw [if_neg hnull] at h ⊢
      exact Nat.le_trans (le_attEnd off att) (ih h)

/-- The attributes of a row end behind its header. -/
theorem RowFormed.header_le {rowDesc : List Attribute} (h : RowFormed tup rowDesc) :
    SizeOfUHeapDiskTupleData ≤ calTupSize tup rowDesc :=
  Nat.le_trans h.hoff_ge (le_calTupSizeLoop _ h.reserves)

end OpenGauss.Ustore
