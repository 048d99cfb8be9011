import Mathlib.Logic.Function.Basic

/-!
# Functions changed at one place
-/

namespace OpenGauss.Lib

open Function (update update_of_ne update_self)

variable {ι β : Type*} [DecidableEq ι] {f : ι → β} {a i : ι} {b c : β}

/-- What holds of the new value and of the old ones elsewhere holds everywhere. -/
@[elab_as_elim]
theorem update_cases {P : ι → β → Prop} (self : P a b) (other : ∀ i, i ≠ a → P i (f i)) (i : ι) :
    P i (update f a b i) := by
  by_cases hi : i = a
  · rwa [hi, update_self]
  · rw [update_of_ne hi]
    exact other i hi

theorem update_eq_cases (h : update f a b i = c) : i = a ∧ b = c ∨ i ≠ a ∧ f i = c :=
  update_cases (P := fun i x => x = c → i = a ∧ b = c ∨ i ≠ a ∧ f i = c)
    (fun h => .inl ⟨rfl, h⟩) (fun _ hi h => .inr ⟨hi, h⟩) i h

theorem of_update_eq (h : update f a b i = c) (hne : b ≠ c) : i ≠ a ∧ f i = c :=
  (update_eq_cases h).resolve_left fun heq => hne heq.2

end OpenGauss.Lib
