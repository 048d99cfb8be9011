import Mathlib.Order.Lattice
import Mathlib.Data.List.Basic

/-!
# Strings in dictionary order

`Below a b` says that the strings differ at a common position and `a` has the smaller
letter there, which is what a comparison of common prefixes can see. The dictionary order
also puts a string before its proper extensions.
-/

namespace OpenGauss.Lib

variable {α : Type*} [LinearOrder α]

/-- At the first difference, which both have, the first is smaller. -/
def Below : List α → List α → Prop
  | a :: as, b :: bs => a < b ∨ a = b ∧ Below as bs
  | _, _ => False

def StrLt : List α → List α → Prop
  | a :: as, b :: bs => a < b ∨ a = b ∧ StrLt as bs
  | [], _ :: _ => True
  | [], [] => False
  | _ :: _, [] => False

def StrLe : List α → List α → Prop
  | a :: as, b :: bs => a < b ∨ a = b ∧ StrLe as bs
  | [], _ => True
  | _ :: _, [] => False

theorem not_strLt_nil : ∀ a : List α, ¬ StrLt a []
  | [] => id
  | _ :: _ => id

theorem StrLe.refl : ∀ a : List α, StrLe a a
  | [] => trivial
  | _ :: as => .inr ⟨rfl, StrLe.refl as⟩

/-- Two comparisons by the first letters and what follows them. -/
theorem cons_trans {a b c : α} {P Q R : Prop} (h1 : a < b ∨ a = b ∧ P) (h2 : b < c ∨ b = c ∧ Q)
    (h : P → Q → R) : a < c ∨ a = c ∧ R := by
  rcases h1 with h1 | ⟨rfl, h1⟩
  · exact .inl (h2.elim (lt_trans h1) fun h2 => h2.1 ▸ h1)
  · exact h2.imp_right fun h2 => ⟨h2.1, h h1 h2.2⟩

theorem StrLe.trans : ∀ {a b c : List α}, StrLe a b → StrLe b c → StrLe a c
  | [], _, _, _, _ => trivial
  | _ :: _, [], _, h, _ => h.elim
  | _ :: _, _ :: _, [], _, h => h.elim
  | _ :: _, _ :: _, _ :: _, h1, h2 => cons_trans h1 h2 fun h1 h2 => h1.trans h2

/-- Longer strings keep their first difference. -/
theorem Below.append_right : ∀ {a b : List α}, Below a b → ∀ t, Below a (b ++ t)
  | _ :: _, _ :: _, h, t => h.imp id fun h => ⟨h.1, h.2.append_right t⟩
  | [], _, h, _ => h.elim
  | _ :: _, [], h, _ => h.elim

theorem Below.append_left : ∀ {a b : List α}, Below a b → ∀ t, Below (a ++ t) b
  | _ :: _, _ :: _, h, t => h.imp id fun h => ⟨h.1, h.2.append_left t⟩
  | [], _, h, _ => h.elim
  | _ :: _, [], h, _ => h.elim

section Blanks

variable (blank : α)

/-- The string without the blanks at its end. -/
def trimEnd : List α → List α
  | [] => []
  | a :: as => if trimEnd as = [] ∧ a = blank then [] else a :: trimEnd as

theorem trimEnd_cons_of_ne {a : α} (h : a ≠ blank) (as : List α) :
    trimEnd blank (a :: as) = a :: trimEnd blank as :=
  if_neg fun hb => h hb.2

theorem trimEnd_cons_of_tail {as : List α} (h : trimEnd blank as ≠ []) (a : α) :
    trimEnd blank (a :: as) = a :: trimEnd blank as :=
  if_neg fun hb => h hb.1

theorem trimEnd_cons_cases (a : α) (as : List α) :
    trimEnd blank (a :: as) = [] ∨ trimEnd blank (a :: as) = a :: trimEnd blank as :=
  ite_eq_or_eq _ _ _

/-- Where no letter of the smaller string is below the blank, blanks at the ends change
nothing about a first difference. -/
theorem Below.trimEnd : ∀ {a b : List α}, Below a b → (∀ x ∈ a, blank ≤ x) →
    StrLt (trimEnd blank a) (trimEnd blank b)
  | [], _, h, _ => h.elim
  | _ :: _, [], h, _ => h.elim
  | a :: as, b :: bs, h, hge => by
    rcases h with hlt | ⟨rfl, h⟩
    · have hne : b ≠ blank := ne_of_gt (lt_of_le_of_lt (hge a (.head _)) hlt)
      rw [trimEnd_cons_of_ne blank hne]
      rcases trimEnd_cons_cases blank a as with heq | heq
      · rw [heq]
        trivial
      · rw [heq]
        exact .inl hlt
    · have ih := h.trimEnd fun x hx => hge x (.tail _ hx)
      have hne : Lib.trimEnd blank bs ≠ [] := by
        intro heq
        rw [heq] at ih
        exact not_strLt_nil _ ih
      rw [trimEnd_cons_of_tail blank hne]
      rcases trimEnd_cons_cases blank a as with heq | heq
      · rw [heq]
        trivial
      · rw [heq]
        exact .inr ⟨rfl, ih⟩

end Blanks

end OpenGauss.Lib
