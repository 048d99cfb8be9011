import Mathlib.Data.List.Basic
import Mathlib.Tactic

/-!
# Common affixes of two sequences

Delta encoders drop what two sequences share at the front and at the back
and store the middle. The rules here say when the parts put together again
give the first sequence: the shared front and back may be taken from the
second one.
-/

namespace OpenGauss.Lib

variable {α : Type}

/-- A comparison loop that runs at most `bound` steps over two sequences and
stops at the first difference; the result is the loop counter. -/
def matchLen [DecidableEq α] : Nat → List α → List α → Nat
  | bound + 1, a :: as, b :: bs => if a = b then matchLen bound as bs + 1 else 0
  | _, _, _ => 0

theorem matchLen_le_bound [DecidableEq α] (bound : Nat) (as bs : List α) :
    matchLen bound as bs ≤ bound := by
  fun_induction matchLen bound as bs with
  | case1 bound a as bs ih => omega
  | case2 => omega
  | case3 => omega

/-- What the loop walked over is the same on both sides. -/
theorem take_of_le_matchLen [DecidableEq α] {bound n : Nat} {as bs : List α}
    (h : n ≤ matchLen bound as bs) : as.take n = bs.take n := by
  induction n generalizing bound as bs with
  | zero => simp
  | succ n ih =>
    match bound, as, bs with
    | 0, _, _ => simp [matchLen] at h
    | _ + 1, [], _ => simp [matchLen] at h
    | _ + 1, _ :: _, [] => simp [matchLen] at h
    | bound + 1, a :: as, b :: bs =>
      simp only [matchLen] at h
      split at h
      · rename_i hab
        have hle : n ≤ matchLen bound as bs := by omega
        have hrest : as.take n = bs.take n := ih hle
        rw [hab, List.take_succ_cons, List.take_succ_cons, hrest]
      · omega

/-- The loop does not stop before the first difference. -/
theorem le_matchLen [DecidableEq α] {bound n : Nat} {as bs : List α} (hn : n ≤ bound)
    (hlen : n ≤ as.length) (h : as.take n = bs.take n) : n ≤ matchLen bound as bs := by
  induction n generalizing bound as bs with
  | zero => exact Nat.zero_le _
  | succ n ih =>
    match bound, as, bs with
    | 0, _, _ => omega
    | _ + 1, [], _ => simp at hlen
    | _ + 1, _ :: _, [] => simp at h
    | bound + 1, a :: as, b :: bs =>
      rw [List.take_succ_cons, List.take_succ_cons, List.cons.injEq] at h
      rw [matchLen, if_pos h.1]
      exact Nat.succ_le_succ (ih (by omega) (by simpa using hlen) h.2)

/-- The same loop run over the reversed sequences finds a common suffix. -/
theorem drop_of_le_matchLen_reverse [DecidableEq α] {bound n : Nat} {as bs : List α}
    (h : n ≤ matchLen bound as.reverse bs.reverse) :
    as.drop (as.length - n) = bs.drop (bs.length - n) := by
  have ht := take_of_le_matchLen h
  rw [List.take_reverse, List.take_reverse] at ht
  exact List.reverse_injective ht

/-- `as` and `bs` share their first `p` and their last `q` elements, and the
two parts do not overlap in either. -/
structure CommonAffixes (as bs : List α) (p q : Nat) : Prop where
  le_left : p + q ≤ as.length
  le_right : p + q ≤ bs.length
  front : as.take p = bs.take p
  back : as.drop (as.length - q) = bs.drop (bs.length - q)

namespace CommonAffixes

variable {as bs : List α} {p q : Nat}

protected theorem symm (h : CommonAffixes as bs p q) : CommonAffixes bs as p q :=
  ⟨h.le_right, h.le_left, h.front.symm, h.back.symm⟩

protected theorem zero (as bs : List α) : CommonAffixes as bs 0 0 := by
  constructor <;> simp

/-- What two comparison loops, each stopped by the other sequence's end and
the second also by the first one's result, find. -/
theorem of_matchLen [DecidableEq α] {bp bq : Nat} (hp : p ≤ matchLen bp as bs)
    (hq : q ≤ matchLen bq as.reverse bs.reverse) (hle : p + q ≤ min as.length bs.length) :
    CommonAffixes as bs p q where
  le_left := Nat.le_trans hle (Nat.min_le_left _ _)
  le_right := Nat.le_trans hle (Nat.min_le_right _ _)
  front := take_of_le_matchLen hp
  back := drop_of_le_matchLen_reverse hq

/-- The first sequence put together from the shared parts of the second one
and its own middle. -/
theorem join (h : CommonAffixes as bs p q) :
    bs.take p ++ ((as.drop p).take (as.length - p - q) ++ bs.drop (bs.length - q)) = as := by
  have hle := h.le_left
  have hdrop : as.drop (as.length - q) = (as.drop p).drop (as.length - p - q) := by
    rw [List.drop_drop]
    congr 1
    omega
  rw [← h.front, ← h.back, hdrop, List.take_append_drop, List.take_append_drop]

end CommonAffixes

end OpenGauss.Lib
