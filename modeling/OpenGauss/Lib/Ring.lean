import Mathlib.Logic.Function.Basic

/-!
# Arrays read as rings

Positions count up without end and the cell of a position is taken modulo the length. In
a window of that length every cell has one position.
-/

namespace OpenGauss.Lib

theorem ring_inj {n w p q : Nat} (hp : w ≤ p) (hp' : p < w + n) (hq : w ≤ q) (hq' : q < w + n)
    (h : p % n = q % n) : p = q := by
  -- the greater of the two is ahead by a multiple of the length, and by less than it
  have aux : ∀ {a b : Nat}, a ≤ b → b < a + n → a % n = b % n → a = b := by
    intro a b hab hlt hmod
    have hdvd : n ∣ b - a := Nat.dvd_of_mod_eq_zero (Nat.sub_mod_eq_zero_of_mod_eq hmod.symm)
    have hzero := Nat.eq_zero_of_dvd_of_lt hdvd (by omega)
    omega
  rcases Nat.le_total p q with hle | hle
  · exact aux hle (by omega) h
  · exact (aux hle (by omega) h.symm).symm

variable {α : Type*}

theorem update_ring (f : Nat → α) {n w p q : Nat} (x : α) (hp : w ≤ p)
    (hp' : p < w + n) (hq : w ≤ q) (hq' : q < w + n) :
    Function.update f (q % n) x (p % n) = if p = q then x else f (p % n) := by
  split
  next h => rw [h, Function.update_self]
  next h => exact Function.update_of_ne (fun hmod => h (ring_inj hp hp' hq hq' hmod)) _ _

end OpenGauss.Lib
