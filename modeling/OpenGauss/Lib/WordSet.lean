import Mathlib.Logic.Function.Basic
import Mathlib.Data.Nat.Bits
import Mathlib.Tactic.Common

/-!
# Sets of positions kept in 64-bit words

Position `i` is bit `i % 64` of word `i / 64`. Single positions are read and set
through a one-bit mask, whole sets are joined and compared word by word.
-/

namespace OpenGauss.Lib.WordSet

def mask (i : Nat) : BitVec 64 := 1#64 <<< (i % 64)

def get (d : Nat → BitVec 64) (i : Nat) : Bool := d (i / 64) &&& mask i != 0#64

def set (d : Nat → BitVec 64) (i : Nat) : Nat → BitVec 64 :=
  Function.update d (i / 64) (d (i / 64) ||| mask i)

theorem getLsbD_mask (i k : Nat) (hk : k < 64) : (mask i).getLsbD k = decide (k = i % 64) := by
  simp only [mask, BitVec.getLsbD_shiftLeft, hk, decide_true, Bool.true_and, BitVec.getLsbD_one]
  by_cases h : k = i % 64
  · subst h
    simp
  by_cases hlt : k < i % 64
  · simp [hlt, h]
  · have : k - i % 64 ≠ 0 := by omega
    simp [hlt, h, this]

theorem get_eq_getLsbD (d : Nat → BitVec 64) (i : Nat) :
    get d i = (d (i / 64)).getLsbD (i % 64) := by
  have hi : i % 64 < 64 := Nat.mod_lt i (by decide)
  rw [get, Bool.eq_iff_iff, bne_iff_ne]
  constructor
  · intro hne
    by_contra hbit
    refine hne (BitVec.eq_of_getLsbD_eq fun k hk => ?_)
    rw [BitVec.getLsbD_and, getLsbD_mask i k hk]
    by_cases h : k = i % 64
    · subst h
      simpa using hbit
    · simp [h]
  · intro hbit hzero
    have := congrArg (fun x => x.getLsbD (i % 64)) hzero
    rw [BitVec.getLsbD_and, getLsbD_mask i _ hi, hbit] at this
    simp at this

@[simp] theorem get_set (d : Nat → BitVec 64) (i j : Nat) :
    get (set d i) j = (decide (j = i) || get d j) := by
  have hj : j % 64 < 64 := Nat.mod_lt j (by decide)
  rw [get_eq_getLsbD, get_eq_getLsbD, set]
  by_cases hword : j / 64 = i / 64
  · rw [hword, Function.update_self, BitVec.getLsbD_or, getLsbD_mask i _ hj, Bool.or_comm]
    congr 2
    exact propext ⟨fun h => by omega, fun h => by rw [h]⟩
  · have hne : j ≠ i := fun h => hword (by rw [h])
    rw [Function.update_of_ne hword]
    simp [hne]

theorem get_foldl_set {α : Type*} (L : List α) (g : α → Nat) (d : Nat → BitVec 64) (p : Nat) :
    get (L.foldl (fun d i => set d (g i)) d) p = true ↔ get d p = true ∨ ∃ i ∈ L, p = g i := by
  induction L generalizing d with
  | nil => simp
  | cons i L ih =>
    rw [List.foldl_cons, ih, get_set]
    simp only [Bool.or_eq_true, decide_eq_true_eq, List.mem_cons, exists_eq_or_imp]
    tauto

@[simp] theorem get_zero (p : Nat) : get (fun _ => 0#64) p = false := by
  rw [get_eq_getLsbD, BitVec.getLsbD_zero]

theorem get_or (d e : Nat → BitVec 64) (i : Nat) :
    get (fun k => d k ||| e k) i = (get d i || get e i) := by
  rw [get_eq_getLsbD, get_eq_getLsbD, get_eq_getLsbD, BitVec.getLsbD_or]

end OpenGauss.Lib.WordSet
