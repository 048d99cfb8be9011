import Mathlib.Data.List.Basic
import Mathlib.Tactic

/-!
# Filling a buffer piece by piece

A buffer that is filled from a stream in several steps holds, in between,
a front of the stream and the rest of what it held before.
-/

namespace OpenGauss.Lib

variable {α : Type}

/-- `l` with `c` put over it from index `i` on. -/
def overlay (l : List α) (i : Nat) (c : List α) : List α := l.take i ++ c ++ l.drop (i + c.length)

@[simp] theorem overlay_nil (l : List α) (i : Nat) : overlay l i [] = l := by
  simp [overlay]

variable {l c : List α} {i : Nat}

theorem length_overlay (h : i + c.length ≤ l.length) : (overlay l i c).length = l.length := by
  simp only [overlay, List.length_append, List.length_take, List.length_drop]
  omega

theorem overlay_append_left (h : i + c.length ≤ l.length) (r : List α) :
    overlay (l ++ r) i c = overlay l i c ++ r := by
  unfold overlay
  rw [List.take_append_of_le_length (by omega), List.drop_append_of_le_length h]
  simp only [List.append_assoc]

theorem overlay_append_right (h : l.length ≤ i) (r c : List α) :
    overlay (l ++ r) i c = l ++ overlay r (i - l.length) c := by
  unfold overlay
  rw [List.take_append, List.take_of_length_le h, List.drop_append,
    List.drop_of_length_le (by omega), List.nil_append,
    show i + c.length - l.length = i - l.length + c.length by omega]
  simp only [List.append_assoc]

/-- A piece that ends the first of two buffers and goes on into the second. -/
theorem overlay_append_both (h : i + c.length = l.length)
    (r c' : List α) : overlay (l ++ r) i (c ++ c') = overlay l i c ++ overlay r 0 c' := by
  have htake : (l ++ r).take i = l.take i := List.take_append_of_le_length (by omega)
  have hend : l.drop (i + c.length) = [] := List.drop_of_length_le (by omega)
  have hdrop : (l ++ r).drop (i + (c ++ c').length) = r.drop c'.length := by
    rw [List.length_append, ← Nat.add_assoc, h, ← List.drop_drop, List.drop_left' rfl]
  unfold overlay
  rw [htake, hend, hdrop]
  simp

/-- A buffer that holds the first `n` elements of `s` holds `k` more after the
next `k` are put in. -/
theorem overlay_fill {s : List α} {n k : Nat} (h : k ≤ s.length - n) (l : List α) :
    overlay (s.take n ++ l.drop n) n ((s.drop n).take k) = s.take (n + k) ++ l.drop (n + k) := by
  rcases Nat.eq_zero_or_pos k with rfl | hpos
  · exact overlay_nil _ n
  have hn : (s.take n).length = n := by
    rw [List.length_take]
    omega
  have hk : ((s.drop n).take k).length = k := by
    rw [List.length_take, List.length_drop]
    omega
  unfold overlay
  rw [List.take_left' hn, hk, ← List.drop_drop, List.drop_left' hn, List.drop_drop, List.take_add]

/-- The first of two buffers that are filled one after the other. -/
theorem take_fill {s s' l' : List α} (h : l.length = s.length) (n : Nat) :
    ((s ++ s').take n ++ (l ++ l').drop n).take s.length = s.take n ++ l.drop n := by
  have hs : (s ++ s').take n = s.take n ++ s'.take (n - s.length) := List.take_append
  have hl : (l ++ l').drop n = l.drop n ++ l'.drop (n - l.length) := List.drop_append
  rw [hs, hl, List.append_assoc]
  rcases Nat.le_total n s.length with hn | hn
  · rw [Nat.sub_eq_zero_of_le hn, List.take_zero, List.nil_append, ← List.append_assoc]
    refine List.take_left' ?_
    rw [List.length_append, List.length_take, List.length_drop]
    omega
  · rw [List.take_of_length_le hn, List.drop_of_length_le (by omega), List.append_nil]
    exact List.take_left' rfl

end OpenGauss.Lib
