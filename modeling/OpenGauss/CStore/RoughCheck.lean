import OpenGauss.Lib.ByteOrder
import Mathlib.Algebra.Ring.Nat
import Mathlib.Algebra.Ring.Int.Defs
import Mathlib.Order.Fin.Basic
import Mathlib.Tactic.Common

/-!
# Rough check of column units

A column unit keeps its least and greatest value, of strings the first 31 bytes. A scan
with comparisons against constants skips the units whose bounds exclude every constant.
-/

namespace OpenGauss.CStore

open Lib

/-! ## Columns of fixed length -/

inductive FixedType
  | char | int2 | int4 | int8 | oid | date | timestamp
deriving DecidableEq

abbrev Datum : Type := BitVec 64

/-- The value of the C type that the `Compare` function and the bounds of the type use.
`char` is signed. -/
def FixedType.read (d : Datum) : FixedType → Int
  | .char => (d.setWidth 8).toInt
  | .int2 => (d.setWidth 16).toInt
  | .int4 => (d.setWidth 32).toInt
  | .int8 => d.toInt
  | .oid => (d.setWidth 32).toNat
  | .date => (d.setWidth 32).toInt
  | .timestamp => d.toInt

/-- Least and greatest value so far; none before the first value. -/
abbrev MinMax (α : Type) : Type := Option (α × α)

/-- The body of `CompareChar`, `CompareInt16`, `CompareDate` and the others. -/
def compareFixedLength (bounds : MinMax Int) (a : Int) : MinMax Int :=
  match bounds with
  | none => some (a, a)
  | some (minval, maxval) =>
    if a < minval then some (a, maxval)
    else if maxval < a then some (minval, a)
    else some (minval, maxval)

/-- The values of a unit are compared one after the other; nulls are not. -/
def compareValues {β γ : Type} (compare : γ → β → γ) (bounds : γ) : List (Option β) → γ
  | [] => bounds
  | none :: values => compareValues compare bounds values
  | some v :: values => compareValues compare (compare bounds v) values

/-- The bounds of a unit. `none` stands for a unit of nulls. -/
def FixedType.bounds (t : FixedType) (values : List (Option Datum)) : MinMax Int :=
  compareValues (fun bounds d => compareFixedLength bounds (t.read d)) none values

/-- `CStoreStrategyNumber` -/
inductive Strategy
  | less | lessEqual | equal | greaterEqual | greater
deriving DecidableEq

def Strategy.holds (x y : Int) : Strategy → Prop
  | .less => x < y
  | .lessEqual => x ≤ y
  | .equal => x = y
  | .greaterEqual => y ≤ x
  | .greater => y < x

/-- The argument as the rough check of the column's type reads it. -/
def FixedType.readArg (arg : Datum) : FixedType → Int
  | .char => (arg.setWidth 8).toInt
  | .int2 => arg.toInt
  | .int4 => arg.toInt
  | .int8 => arg.toInt
  | .oid => arg.toInt
  | .date => (arg.setWidth 32).toInt
  | .timestamp => arg.toInt

/-! ## Constants -/

inductive ScanConst
  | char (v : BitVec 8)
  | int1 (v : BitVec 8)
  | int2 (v : BitVec 16)
  | int4 (v : BitVec 32)
  | int8 (v : BitVec 64)
  | oid (v : BitVec 32)
  | date (v : BitVec 32)
  | timestamp (v : BitVec 64)
deriving DecidableEq

structure FixedKey where
  strategy : Strategy
  const : ScanConst

inductive StrType
  | text | varchar | bpchar
deriving DecidableEq

abbrev Str : Type := List (Fin 256)

/-- `MIN_MAX_LEN - 1` -/
def minMaxBytes : Nat := 31

structure StrKey where
  strategy : Strategy
  /-- the collation is `C_COLLATION_OID` -/
  collationC : Bool
  const : Str

def blank : Fin 256 := ⟨32, of_decide_eq_true rfl⟩

inductive Scan
  | fixed (t : FixedType) (values : List (Option Datum)) (keys : List FixedKey)
  | str (t : StrType) (values : List (Option Str)) (keys : List StrKey)

end OpenGauss.CStore
