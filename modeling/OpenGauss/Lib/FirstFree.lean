import Mathlib.Algebra.BigOperators.Group.Finset.Basic
import Mathlib.Algebra.Order.BigOperators.Group.Finset

/-!
# First free element, and counts that change in one place

A search that walks up from a hint and stops at the first hit, and the two facts that
keep a counter true when one flag is set or cleared.
-/

namespace OpenGauss.Lib

variable {α : Type*}

/-- The hit is the first one: everything the walk passed was a miss. -/
theorem findSome?_range'_some {f : Nat → Option α} {start n : Nat} {r : α}
    (h : (List.range' start n).findSome? f = some r) :
    ∃ i, start ≤ i ∧ i < start + n ∧ f i = some r ∧ ∀ j, start ≤ j → j < i → f j = none := by
  induction n generalizing start with
  | zero => simp at h
  | succ n ih =>
    rw [List.range'_succ, List.findSome?_cons] at h
    cases hf : f start with
    | some r' =>
      rw [hf] at h
      exact ⟨start, Nat.le_refl _, by omega, hf.trans h, fun j h1 h2 => by omega⟩
    | none =>
      rw [hf] at h
      obtain ⟨i, h1, h2, hi, hbefore⟩ := ih h
      refine ⟨i, by omega, by omega, hi, fun j hj hlt => ?_⟩
      rcases Nat.eq_or_lt_of_le hj with rfl | hj
      · exact hf
      · exact hbefore j hj hlt

theorem findSome?_range'_none {f : Nat → Option α} {start n : Nat}
    (h : (List.range' start n).findSome? f = none) {i : Nat} (h1 : start ≤ i)
    (h2 : i < start + n) : f i = none := by
  rw [List.findSome?_eq_none_iff] at h
  exact h i (List.mem_range'_1.mpr ⟨h1, h2⟩)

/-- How many of the first `n` flags are set. -/
def setCount (flags : Nat → Bool) (n : Nat) : Nat := ((Finset.range n).filter (flags ·)).card

theorem setCount_false (n : Nat) : setCount (fun _ => false) n = 0 := by
  simp [setCount]

theorem setCount_le (flags : Nat → Bool) (n : Nat) : setCount flags n ≤ n := by
  calc setCount flags n ≤ (Finset.range n).card := Finset.card_filter_le _ _
    _ = n := Finset.card_range n

variable {flags : Nat → Bool}

theorem eq_true_of_setCount_eq {n i : Nat} (h : setCount flags n = n)
    (hi : i < n) : flags i = true := by
  have hcard : ((Finset.range n).filter (flags ·)).card = (Finset.range n).card := by
    rw [Finset.card_range]
    exact h
  exact Finset.card_filter_eq_iff.mp hcard i (Finset.mem_range.mpr hi)

theorem setCount_update_true {n i : Nat} (hi : i < n)
    (hfree : flags i = false) :
    setCount (Function.update flags i true) n = setCount flags n + 1 := by
  have hnot : i ∉ (Finset.range n).filter (flags ·) := by simp [hfree]
  unfold setCount
  rw [← Finset.card_insert_of_notMem hnot]
  congr 1
  ext j
  by_cases hj : j = i
  · subst hj
    simp [hi]
  · simp [hj]

theorem setCount_update_false {n i : Nat} (hi : i < n)
    (hset : flags i = true) :
    setCount (Function.update flags i false) n + 1 = setCount flags n := by
  have h := @setCount_update_true (Function.update flags i false) n i hi
    (Function.update_self i false flags)
  rw [Function.update_idem] at h
  rw [← h]
  congr 1
  exact (Function.update_eq_self_iff.mpr hset.symm)

/-- Two sums that differ in one term. -/
theorem sum_add_eq_of_eq_off {s : Finset α} {f g : α → Nat} {a : α} (ha : a ∈ s)
    (hoff : ∀ x ∈ s, x ≠ a → g x = f x) : s.sum g + f a = s.sum f + g a := by
  classical
  have hrest : (s.erase a).sum g = (s.erase a).sum f :=
    Finset.sum_congr rfl fun x hx =>
      hoff x (Finset.mem_of_mem_erase hx) (Finset.ne_of_mem_erase hx)
  have hg : g a + (s.erase a).sum g = s.sum g := Finset.add_sum_erase s g ha
  have hf : f a + (s.erase a).sum f = s.sum f := Finset.add_sum_erase s f ha
  omega

end OpenGauss.Lib
