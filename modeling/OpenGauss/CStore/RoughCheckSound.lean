import OpenGauss.CStore.RoughCheck

/-!
# When the rough check keeps a unit

A unit with a row that satisfies every comparison is kept where the bounds are read as SQL
compares. They are not for `"char"` and `int1` above 127, for a date below a timestamp
within the day, and for `bpchar` with letters below the blank. There the unit is kept only
if some value, of the same row or of another, passes the comparison as the code reads it.
-/

namespace OpenGauss.CStore

open Lib

variable {ts : Int} {v : Str} {t : StrType} {s : Strategy}

/-! ## Bounds -/

section Bounds

variable {β γ : Type}

end Bounds

/-- Some value of the unit passes the comparison with the argument as the code reads both;
an equality is passed by a value on either side. -/
def FixedType.Passed (t : FixedType) (values : List (Option Datum)) (arg : Datum) : Strategy → Prop
  | .equal => (∃ d, some d ∈ values ∧ t.read d ≤ t.readArg arg) ∧
      ∃ d, some d ∈ values ∧ t.readArg arg ≤ t.read d
  | s => ∃ d, some d ∈ values ∧ s.holds (t.read d) (t.readArg arg)

/-- No letter of a `bpchar` is below the blank. -/
def StrType.Printable (t : StrType) (s : Str) : Prop := t = .bpchar → ∀ x ∈ s, blank ≤ x

theorem StrType.Printable.take {s : Str} (h : t.Printable s) (n : Nat) : t.Printable (s.take n) :=
  fun ht x hx => h ht x (List.mem_of_mem_take hx)

/-- A value whose beginning is not beyond the constant at their first difference. -/
def NotBeyond (values : List (Option Str)) (c : Str) : Prop :=
  ∃ x, some x ∈ values ∧ ¬ Below c (x.take minMaxBytes)

/-- A value with the greatest beginning, which is not before the constant at their first
difference. -/
def NotBefore (values : List (Option Str)) (c : Str) : Prop :=
  ∃ x, some x ∈ values ∧ (∀ y, some y ∈ values → StrLe (y.take minMaxBytes) (x.take minMaxBytes)) ∧
    ¬ Below (x.take minMaxBytes) c

/-- The comparison is passed as the code reads values and constant, or it has no function of
its own: orders of collations other than C. -/
def StrKey.Passed (values : List (Option Str)) (key : StrKey) : Prop :=
  match key.strategy with
  | .less | .lessEqual => key.collationC = false ∨ NotBeyond values key.const
  | .equal => NotBeyond values key.const ∧ NotBefore values key.const
  | .greaterEqual | .greater => key.collationC = false ∨ NotBefore values key.const

end OpenGauss.CStore
