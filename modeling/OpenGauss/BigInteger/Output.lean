import Mathlib.Data.Nat.Digits.Lemmas
import Mathlib.Tactic.Common

/-!
# The text of a big integer

A number of at most 64 or 128 bits with a scale is printed as an integer part, a point and
`scale` digits. `sprintf` has no format for 128 bits, so such a number is printed in pieces of
18 digits. The least number of either size has no absolute value of that size; the point is put
into a constant text.
-/

namespace OpenGauss.BigInteger

open Nat (toDigits ofDigitChars)

variable {m n w scale : Nat} {a b : List Char} {data : Int}
  {toString : Bool → Nat → Nat → List Char}

/-! ## Printing -/

/-- `%0*ld` of a number that is not negative; `%ld` is the width 0. -/
def sprintf (width n : Nat) : List Char :=
  List.replicate (width - (toDigits 10 n).length) '0' ++ toDigits 10 n

def int64ToString (precedingZero : Bool) (data scale : Nat) : List Char :=
  sprintf (if precedingZero then scale else 0) data

def int128ToString (precedingZero : Bool) (data scale : Nat) : List Char :=
  if data < 2 ^ 63 then sprintf (if precedingZero then scale else 0) data
  else if data / 10 ^ 18 < 2 ^ 63 then
    sprintf (if precedingZero then scale - 18 else 0) (data / 10 ^ 18) ++
      sprintf 18 (data % 10 ^ 18)
  else
    sprintf (if precedingZero then scale - 36 else 0) (data / 10 ^ 18 / 10 ^ 18) ++
      sprintf 18 (data / 10 ^ 18 % 10 ^ 18) ++ sprintf 18 (data % 10 ^ 18)

/-- The text of the least number, with a point. -/
def minOut (minStr : List Char) (scale : Nat) : List Char :=
  if scale > 0 then
    minStr.take (minStr.length - scale) ++
      '.' :: (minStr.drop (minStr.length - scale)).take scale
  else minStr

/-- Either function, with its least number and the way it prints an absolute value. -/
def biOut (min : Int) (minStr : List Char) (toString : Bool → Nat → Nat → List Char)
    (displayLeadingZero : Bool) (data : Int) (scale : Nat) : List Char :=
  if data = min then minOut minStr scale
  else
    (if data < 0 then ['-'] else []) ++
      if scale > 0 then
        if data.natAbs / 10 ^ scale = 0 ∧ data.natAbs % 10 ^ scale ≠ 0 ∧
            displayLeadingZero = false then
          '.' :: toString true (data.natAbs % 10 ^ scale) scale
        else toString false (data.natAbs / 10 ^ scale) 0 ++
          '.' :: toString true (data.natAbs % 10 ^ scale) scale
      else toString false (data.natAbs / 10 ^ scale) 0

def bi64Out : Bool → Int → Nat → List Char :=
  biOut (-2 ^ 63) "-9223372036854775808".toList int64ToString

def bi128Out : Bool → Int → Nat → List Char :=
  biOut (-2 ^ 127) "-170141183460469231731687303715884105728".toList int128ToString

/-! ## The canonical text -/

/-- A sign, an integer part without superfluous zeros, and `scale` digits behind a point. -/
def Canonical (data : Int) (scale : Nat) (text : List Char) : Prop :=
  ∃ ip fp : List Char, text = (if data < 0 then ['-'] else []) ++
      (ip ++ if scale > 0 then '.' :: fp else []) ∧
    (∀ c ∈ ip ++ fp, c.isDigit = true) ∧ ip ≠ [] ∧ (ip.head? = some '0' → ip = ['0']) ∧
    fp.length = scale ∧ ofDigitChars 10 (ip ++ fp) 0 = data.natAbs

structure Digits (n : Nat) (ds : List Char) : Prop where
  digit : ∀ c ∈ ds, c.isDigit = true
  value : ofDigitChars 10 ds 0 = n

theorem Digits.append (ha : Digits m a) (hb : Digits n b) :
    Digits (10 ^ b.length * m + n) (a ++ b) where
  digit := List.forall_mem_append.mpr ⟨ha.digit, hb.digit⟩
  value := by
    rw [Nat.ofDigitChars_append, Nat.ofDigitChars_eq_ofDigitChars_zero, ha.value, hb.value]

theorem digits_sprintf (w n : Nat) : Digits n (sprintf w n) where
  digit := by
    refine List.forall_mem_append.mpr ⟨fun c hc => ?_, fun c hc => ?_⟩
    · rw [List.eq_of_mem_replicate hc]
      rfl
    · exact Nat.isDigit_of_mem_toDigits (by decide) (by decide) hc
  value := by
    rw [sprintf, Nat.ofDigitChars_append, Nat.ofDigitChars_replicate_zero, Nat.mul_zero,
      Nat.ofDigitChars_ten_toDigits]

theorem length_sprintf (hw : 0 < w) (h : n < 10 ^ w) : (sprintf w n).length = w := by
  have := (Nat.length_toDigits_le_iff (by decide) hw).mpr h
  rw [sprintf, List.length_append, List.length_replicate]
  omega

theorem head_toDigits (n : Nat) (hn : 0 < n) : (toDigits 10 n).head? ≠ some '0' := by
  induction n using Nat.strongRecOn with
  | ind n ih =>
    rw [Nat.toDigits_eq_if (by decide)]
    split
    · simpa [Nat.digitChar_eq_zero] using hn.ne'
    · rw [List.head?_append_of_ne_nil _ Nat.toDigits_ne_nil]
      exact ih (n / 10) (by omega) (by omega)

/-- A number in front of its last 18 digits. -/
theorem Digits.piece (h : Digits (n / 10 ^ 18) a) : Digits n (a ++ sprintf 18 (n % 10 ^ 18)) := by
  have hall := h.append (digits_sprintf 18 (n % 10 ^ 18))
  rwa [length_sprintf (by decide) (Nat.mod_lt _ (by decide)), Nat.div_add_mod] at hall

theorem length_piece (a : List Char) (n : Nat) :
    (a ++ sprintf 18 (n % 10 ^ 18)).length = a.length + 18 := by
  rw [List.length_append, length_sprintf (by decide) (Nat.mod_lt _ (by decide))]

theorem piece_lt (hn : 2 ^ 63 ≤ n) (h : n < 10 ^ w) : 18 < w ∧ n / 10 ^ 18 < 10 ^ (w - 18) := by
  have hw : 18 < w := by
    by_contra hle
    have := Nat.pow_le_pow_right (by decide : 10 > 0) (not_lt.mp hle)
    omega
  refine ⟨hw, Nat.div_lt_of_lt_mul ?_⟩
  rwa [← Nat.pow_add, Nat.add_sub_cancel' hw.le]

/-- What `biOut` needs of the way absolute values are printed. -/
structure Prints (toString : Bool → Nat → Nat → List Char) : Prop where
  digits : ∀ z n w, Digits n (toString z n w)
  length : ∀ n w, 0 < w → n < 10 ^ w → (toString true n w).length = w
  plain : ∀ n, ∃ m rest, toString false n 0 = toDigits 10 m ++ rest ∧ (m = 0 → rest = [])

theorem prints_int64 : Prints int64ToString where
  digits _ n _ := digits_sprintf _ n
  length _ _ hw h := length_sprintf hw h
  plain n := ⟨n, [], by simp [int64ToString, sprintf], fun _ => rfl⟩

theorem prints_int128 : Prints int128ToString where
  digits z n w := by
    unfold int128ToString
    split
    · exact digits_sprintf _ n
    split
    · exact (digits_sprintf _ _).piece
    · exact (digits_sprintf _ _).piece.piece
  length n w hw h := by
    unfold int128ToString
    simp only [if_true]
    split
    · exact length_sprintf hw h
    rename_i hlarge
    obtain ⟨hw18, hq⟩ := piece_lt (not_lt.mp hlarge) h
    split
    · rw [length_piece, length_sprintf (by omega) hq]
      omega
    rename_i hlarger
    obtain ⟨hw36, hqq⟩ := piece_lt (not_lt.mp hlarger) hq
    rw [Nat.sub_sub] at hqq
    rw [length_piece, length_piece, length_sprintf (by omega) hqq]
    omega
  plain n := by
    unfold int128ToString
    split
    · exact ⟨n, [], by simp [sprintf], fun _ => rfl⟩
    split
    · exact ⟨n / 10 ^ 18, _, by simp [sprintf]; rfl, fun h => by omega⟩
    · exact ⟨n / 10 ^ 18 / 10 ^ 18, _, by simp [sprintf]; rfl, fun h => by omega⟩

/-- There is an integer part, without superfluous zeros. -/
theorem Prints.plain_ne (h : Prints toString) (n : Nat) : toString false n 0 ≠ [] ∧
    ((toString false n 0).head? = some '0' → toString false n 0 = ['0']) := by
  obtain ⟨m, rest, heq, hrest⟩ := h.plain n
  rw [heq]
  refine ⟨by simp [Nat.toDigits_ne_nil], fun hhead => ?_⟩
  rw [List.head?_append_of_ne_nil _ Nat.toDigits_ne_nil] at hhead
  have hm : m = 0 := by
    by_contra hm
    exact head_toDigits m (Nat.pos_of_ne_zero hm) hhead
  rw [hrest hm, hm]
  rfl

theorem Prints.canonical {min : Int} {minStr : List Char} (h : Prints toString) (hmin : data ≠ min)
    (scale : Nat) : Canonical data scale (biOut min minStr toString true data scale) := by
  have hip := h.digits false (data.natAbs / 10 ^ scale) 0
  obtain ⟨hne, hzero⟩ := h.plain_ne (data.natAbs / 10 ^ scale)
  rw [biOut, if_neg hmin]
  by_cases hs : scale > 0
  · have hlen := h.length (data.natAbs % 10 ^ scale) scale hs (Nat.mod_lt _ (by positivity))
    have hall := hip.append (h.digits true (data.natAbs % 10 ^ scale) scale)
    rw [hlen, Nat.div_add_mod] at hall
    refine ⟨_, _, ?_, hall.digit, hne, hzero, hlen, hall.value⟩
    simp [hs]
  · obtain rfl : scale = 0 := by omega
    exact ⟨_, [], by simp, by simpa using hip.digit, hne, hzero, rfl, by simpa using hip.value⟩

/-- The constant text with its point, which leaves at least one digit in front of it. -/
theorem canonical_minOut (hdata : data < 0) (h : Digits data.natAbs a) (hhead : a.head? ≠ some '0')
    (hscale : scale < a.length) : Canonical data scale (minOut ('-' :: a) scale) := by
  have hlen : ('-' :: a).length - scale = a.length - scale + 1 := by
    rw [List.length_cons]
    omega
  refine ⟨a.take (a.length - scale), a.drop (a.length - scale), ?_, ?_, ?_, fun hzero => ?_, ?_, ?_⟩
  · have hdrop : (a.drop (a.length - scale)).take scale = a.drop (a.length - scale) :=
      List.take_of_length_le (by rw [List.length_drop]; omega)
    rw [minOut, hlen, if_pos hdata, List.take_succ_cons, List.drop_succ_cons, hdrop]
    split
    · rfl
    · rename_i hzero
      obtain rfl : scale = 0 := by omega
      simp
  · rw [List.take_append_drop]
    exact h.digit
  · intro hnil
    have := congrArg List.length hnil
    simp at this
    omega
  · rw [List.head?_take, if_neg (by omega)] at hzero
    exact absurd hzero hhead
  · rw [List.length_drop]
    omega
  · rw [List.take_append_drop]
    exact h.value

/-- The text is canonical but for the least number of 64 bits with all its 19 digits behind the
point. -/
theorem biOut_canonical (data : Int) (scale : Nat) :
    (scale ≤ 19 → ¬(data = -2 ^ 63 ∧ scale = 19) → Canonical data scale (bi64Out true data scale)) ∧
      (scale ≤ 38 → Canonical data scale (bi128Out true data scale)) := by
  constructor
  · intro hscale hnot
    by_cases hmin : data = -2 ^ 63
    · subst hmin
      exact canonical_minOut (a := "9223372036854775808".toList) (by decide)
        ⟨List.all_eq_true.mp rfl, by decide⟩ (by decide) (show scale < 19 by omega)
    · exact prints_int64.canonical hmin scale
  · intro hscale
    by_cases hmin : data = -2 ^ 127
    · subst hmin
      exact canonical_minOut (a := "170141183460469231731687303715884105728".toList) (by decide)
        ⟨List.all_eq_true.mp rfl, by decide⟩ (by decide) (show scale < 39 by omega)
    · exact prints_int128.canonical hmin scale

theorem biOut_canonical_cents : Canonical (-5) 2 "-0.05".toList :=
  (biOut_canonical (-5) 2).1 (by decide) (by decide)

/-- There is no digit in front of the point. -/
theorem bi64Out_min : bi64Out true (-2 ^ 63) 19 = "-.9223372036854775808".toList ∧
    ¬Canonical (-2 ^ 63) 19 (bi64Out true (-2 ^ 63) 19) := by
  have htext : bi64Out true (-2 ^ 63) 19 = "-.9223372036854775808".toList := by decide
  refine ⟨htext, ?_⟩
  rw [htext]
  rintro ⟨_ | ⟨c, ip⟩, fp, heq, hdigit, hne, -⟩
  · exact hne rfl
  · have hc : '.' = c := List.head_eq_of_cons_eq (List.tail_eq_of_cons_eq heq)
    have := hdigit c (.head _)
    rw [← hc] at this
    cases this

end OpenGauss.BigInteger
