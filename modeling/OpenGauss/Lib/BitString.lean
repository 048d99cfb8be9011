import Mathlib.Algebra.Ring.Nat
import Mathlib.Data.List.Basic
import Mathlib.Tactic

/-!
# Bit strings, highest bit first

The bits of a number of a given width, the number a bit string stands for, and the bits of a
string of bytes.
-/

namespace OpenGauss.Lib

/-- The low `n` bits of `v`, the highest first. -/
def msbBits : Nat → Nat → List Bool
  | 0, _ => []
  | n + 1, v => v.testBit n :: msbBits n v

def ofMsb : List Bool → Nat
  | [] => 0
  | b :: bs => b.toNat * 2 ^ bs.length + ofMsb bs

@[simp] theorem length_msbBits (n v : Nat) : (msbBits n v).length = n := by
  induction n with
  | zero => rfl
  | succ n ih => rw [msbBits, List.length_cons, ih]

theorem ofMsb_lt (bs : List Bool) : ofMsb bs < 2 ^ bs.length := by
  induction bs with
  | nil => exact Nat.one_pos
  | cons b bs ih =>
    rw [ofMsb, List.length_cons, Nat.pow_succ]
    cases b <;> simp <;> omega

theorem ofMsb_append (as bs : List Bool) :
    ofMsb (as ++ bs) = ofMsb as * 2 ^ bs.length + ofMsb bs := by
  induction as with
  | nil => simp [ofMsb]
  | cons a as ih =>
    rw [List.cons_append, ofMsb, ofMsb, ih, List.length_append, Nat.pow_add]
    ring

theorem ofMsb_msbBits (n v : Nat) : ofMsb (msbBits n v) = v % 2 ^ n := by
  induction n with
  | zero => rw [Nat.pow_zero, Nat.mod_one]; rfl
  | succ n ih =>
    rw [msbBits, ofMsb, ih, length_msbBits, Nat.testBit_eq_decide_div_mod_eq, Nat.pow_succ,
      Nat.mod_mul, Nat.add_comm, Nat.mul_comm (2 ^ n)]
    rcases Nat.mod_two_eq_zero_or_one (v / 2 ^ n) with h | h <;> simp [h]

theorem ofMsb_inj : ∀ {as bs : List Bool}, as.length = bs.length → ofMsb as = ofMsb bs → as = bs
  | [], [], _, _ => rfl
  | [], _ :: _, h, _ => by cases h
  | _ :: _, [], h, _ => by cases h
  | a :: as, b :: bs, hlen, h => by
    have hlen' : as.length = bs.length := Nat.succ.inj hlen
    have ha := ofMsb_lt as
    have hb := ofMsb_lt bs
    rw [ofMsb, ofMsb, hlen'] at h
    rw [hlen'] at ha
    generalize 2 ^ bs.length = p at h ha hb
    have hhead : a = b := by
      cases a <;> cases b <;> simp at h <;> first | rfl | omega
    subst hhead
    rw [ofMsb_inj hlen' (Nat.add_left_cancel h)]

theorem msbBits_ofMsb (bs : List Bool) : msbBits bs.length (ofMsb bs) = bs := by
  apply ofMsb_inj (length_msbBits _ _)
  rw [ofMsb_msbBits, Nat.mod_eq_of_lt (ofMsb_lt bs)]

/-- The bits of a number fall into those of its quotient and those of its remainder. -/
theorem msbBits_add (a b v : Nat) : msbBits (a + b) v = msbBits a (v / 2 ^ b) ++ msbBits b v := by
  apply ofMsb_inj
  · simp
  · rw [ofMsb_append, ofMsb_msbBits, ofMsb_msbBits, ofMsb_msbBits, length_msbBits, Nat.pow_add,
      Nat.mul_comm (2 ^ a), Nat.mod_mul]
    ring

theorem msbBits_mod {n v : Nat} : msbBits n (v % 2 ^ n) = msbBits n v := by
  apply ofMsb_inj
  · simp
  · rw [ofMsb_msbBits, ofMsb_msbBits, Nat.mod_mod]

def bitsOf (bytes : List UInt8) : List Bool :=
  bytes.flatMap fun b => msbBits 8 b.toNat

@[simp] theorem bitsOf_nil : bitsOf [] = [] := rfl

theorem bitsOf_cons (b : UInt8) (bytes : List UInt8) :
    bitsOf (b :: bytes) = msbBits 8 b.toNat ++ bitsOf bytes := rfl

theorem bitsOf_append (as bs : List UInt8) : bitsOf (as ++ bs) = bitsOf as ++ bitsOf bs :=
  List.flatMap_append

end OpenGauss.Lib
