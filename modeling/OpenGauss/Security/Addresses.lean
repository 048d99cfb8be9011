import OpenGauss.Security.IpRange

/-!
# Addresses as 128-bit numbers

`value` reads all four words. The sum and the difference are those of the numbers; the
comparison is not, because it holds if either half is smaller.
-/

namespace OpenGauss.Security

open BitVec (toNat_setWidth isLt allOnes and_zero and_append not_append or_append)

namespace IPV6

variable {x y : IPV6}

def value (ip : IPV6) : Nat := ip.upper.toNat * 2 ^ 64 + ip.lower.toNat

theorem value_eq (ip : IPV6) : ip.value =
    ip.d.toNat * 2 ^ 96 + ip.c.toNat * 2 ^ 64 + ip.b.toNat * 2 ^ 32 + ip.a.toNat := by
  have hupper : ip.upper.toNat = ip.d.toNat * 2 ^ 32 + ip.c.toNat := by
    rw [upper, BitVec.toNat_append, ← Nat.shiftLeft_add_eq_or_of_lt ip.c.isLt, Nat.shiftLeft_eq]
  have hlower : ip.lower.toNat = ip.b.toNat * 2 ^ 32 + ip.a.toNat := num_eq ip
  rw [value, hupper, hlower]
  omega

/-- One word of the sum, with the carry from the word below. -/
theorem word_add (w v : BitVec 32) {carry : BitVec 64} (hc : carry.toNat ≤ 1) :
    ((w.setWidth 64 + v.setWidth 64 + carry).setWidth 32).toNat +
        2 ^ 32 * ((w.setWidth 64 + v.setWidth 64 + carry) >>> 32).toNat =
      w.toNat + v.toNat + carry.toNat ∧
    ((w.setWidth 64 + v.setWidth 64 + carry) >>> 32).toNat ≤ 1 := by
  have hw := w.isLt
  have hv := v.isLt
  have hsum : (w.setWidth 64 + v.setWidth 64 + carry).toNat = w.toNat + v.toNat + carry.toNat := by
    simp only [BitVec.toNat_add, toNat_setWidth]
    omega
  rw [toNat_setWidth, BitVec.toNat_ushiftRight, Nat.shiftRight_eq_div_pow, hsum]
  omega

/-- One word of the difference; the borrow is the sign of the word below. -/
theorem word_sub (w v : BitVec 32) {borrow : BitVec 64} (hb : borrow.toNat ≤ 1) :
    ((w.setWidth 64 - v.setWidth 64 - borrow).setWidth 32).toNat + v.toNat + borrow.toNat =
      w.toNat + 2 ^ 32 * ((w.setWidth 64 - v.setWidth 64 - borrow) >>> 63).toNat ∧
    ((w.setWidth 64 - v.setWidth 64 - borrow) >>> 63).toNat ≤ 1 := by
  have hw := w.isLt
  have hv := v.isLt
  rw [toNat_setWidth, BitVec.toNat_ushiftRight, Nat.shiftRight_eq_div_pow]
  simp only [BitVec.toNat_sub, toNat_setWidth]
  omega

theorem sum_mod {a b c d s k : Nat} (ha : a < 2 ^ 32) (hb : b < 2 ^ 32) (hc : c < 2 ^ 32)
    (hd : d < 2 ^ 32)
    (h : d * 2 ^ 96 + c * 2 ^ 64 + b * 2 ^ 32 + a + 2 ^ 128 * k = s) :
    d * 2 ^ 96 + c * 2 ^ 64 + b * 2 ^ 32 + a = s % 2 ^ 128 := by
  rw [← h, Nat.add_mul_mod_self_left, Nat.mod_eq_of_lt (by omega)]

theorem add_value (hb : x.b ≠ 0x0000FFFF#32) :
    (x.add y).value = (x.value + y.value) % 2 ^ 128 := by
  have h₀ := word_add x.a y.a (show (0#64).toNat ≤ 1 by decide)
  rw [BitVec.add_zero, BitVec.toNat_zero] at h₀
  have h₁ := word_add x.b y.b h₀.2
  have h₂ := word_add x.c y.c h₁.2
  have h₃ := word_add x.d y.d h₂.2
  rw [add, if_neg hb, value_eq, value_eq, value_eq]
  dsimp only
  generalize x.a.setWidth 64 + y.a.setWidth 64 = t₀ at *
  generalize x.b.setWidth 64 + y.b.setWidth 64 + t₀ >>> 32 = t₁ at *
  generalize x.c.setWidth 64 + y.c.setWidth 64 + t₁ >>> 32 = t₂ at *
  generalize x.d.setWidth 64 + y.d.setWidth 64 + t₂ >>> 32 = t₃ at *
  exact sum_mod (k := (t₃ >>> 32).toNat) (isLt _) (isLt _) (isLt _)
    (isLt _) (by omega)

theorem sub_value (hb : x.b ≠ 0x0000FFFF#32) :
    (x.sub y).value = (x.value + 2 ^ 128 - y.value) % 2 ^ 128 := by
  have h₀ := word_sub x.a y.a (show (0#64).toNat ≤ 1 by decide)
  rw [BitVec.sub_zero, BitVec.toNat_zero] at h₀
  have h₁ := word_sub x.b y.b h₀.2
  have h₂ := word_sub x.c y.c h₁.2
  have h₃ := word_sub x.d y.d h₂.2
  rw [sub, if_neg hb, value_eq, value_eq, value_eq]
  dsimp only
  generalize x.a.setWidth 64 - y.a.setWidth 64 = t₀ at *
  generalize x.b.setWidth 64 - y.b.setWidth 64 - t₀ >>> 63 = t₁ at *
  generalize x.c.setWidth 64 - y.c.setWidth 64 - t₁ >>> 63 = t₂ at *
  generalize x.d.setWidth 64 - y.d.setWidth 64 - t₂ >>> 63 = t₃ at *
  exact sum_mod (k := 1 - (t₃ >>> 63).toNat) (isLt _) (isLt _) (isLt _)
    (isLt _) (by omega)

/-- The comparison is that of the numbers unless the address with the larger upper half has the
smaller lower half; the sums and differences of addresses that do not count as IPv4 are those of
the numbers. -/
theorem ipv6_arith (x y : IPV6) :
    ((x.lt y ↔ x.value < y.value) ↔
      ¬(y.upper.toNat < x.upper.toNat ∧ x.lower.toNat < y.lower.toNat)) ∧
    (x.b ≠ 0x0000FFFF#32 → (x.add (.ofInt 1)).value = (x.value + 1) % 2 ^ 128 ∧
      (x.sub (.ofInt 1)).value = (x.value + 2 ^ 128 - 1) % 2 ^ 128) := by
  refine ⟨?_, fun hb => ⟨add_value hb, sub_value hb⟩⟩
  have hx := x.lower.isLt
  have hy := y.lower.isLt
  simp only [lt, BitVec.ult, Bool.or_eq_true, decide_eq_true_eq, value]
  omega

theorem ipv6_arith_carry : ((⟨0xFFFFFFFF, 0, 0, 0⟩ : IPV6).add (.ofInt 1)).value = 2 ^ 32 :=
  ((ipv6_arith ⟨0xFFFFFFFF, 0, 0, 0⟩ ⟨0, 0, 0, 0⟩).2 (by decide)).1

/-- `::1` and `0:0:0:1::` are each below the other. -/
theorem lt_both_ways : (⟨1, 0, 0, 0⟩ : IPV6).lt ⟨0, 0, 1, 0⟩ ∧
    (⟨0, 0, 1, 0⟩ : IPV6).lt ⟨1, 0, 0, 0⟩ := by
  decide

end IPV6

/-! ## The range of a prefix -/

def IPV6.bits (ip : IPV6) : BitVec 128 := ip.upper ++ ip.lower

variable {x : IPV6} {n : Nat}

/-- The bits of an address in its own notation. -/
def IPV6.width (ip : IPV6) : Nat := if ip.IsIpv4 then 32 else 128

end OpenGauss.Security
