import Mathlib.Data.List.Basic
import Mathlib.Tactic

/-!
# Byte memory

A byte-addressed memory with block reads and block writes, and the framing
rules the storage-format proofs use: a write is read back where it was made,
and nothing else changes.
-/

namespace OpenGauss.Lib

variable {bs : List UInt8} {m : Mem} {off : Nat}

abbrev Mem := Nat → UInt8

namespace Mem

/-- The `len` bytes that start at `off`. -/
def read (m : Mem) (off len : Nat) : List UInt8 :=
  (List.range len).map fun i => m (off + i)

/-- `memcpy`: put the bytes `bs` at `off`. -/
def write (m : Mem) (off : Nat) (bs : List UInt8) : Mem := fun i =>
  if off ≤ i then (bs[i - off]?).getD (m i) else m i

@[simp] theorem length_read (m : Mem) (off len : Nat) : (m.read off len).length = len := by
  simp [read]

@[simp] theorem read_zero (m : Mem) (off : Nat) : m.read off 0 = [] := rfl

theorem getElem?_read (m : Mem) (off len i : Nat) :
    (m.read off len)[i]? = if i < len then some (m (off + i)) else none := by
  by_cases h : i < len
  · simp [read, h]
  · simp [read, h]

theorem read_congr {m' : Mem} {off' len : Nat} (h : ∀ i < len, m (off + i) = m' (off' + i)) :
    m.read off len = m'.read off' len := by
  apply List.ext_getElem?
  intro i
  rw [getElem?_read, getElem?_read]
  by_cases hi : i < len
  · rw [if_pos hi, if_pos hi, h i hi]
  · rw [if_neg hi, if_neg hi]

theorem read_add (m : Mem) (off a b : Nat) :
    m.read off (a + b) = m.read off a ++ m.read (off + a) b := by
  simp only [read, List.range_add, List.map_append, List.map_map]
  congr 1
  apply List.map_congr_left
  intro i _
  simp [Nat.add_assoc]

theorem drop_read (m : Mem) (off len n : Nat) :
    (m.read off len).drop n = m.read (off + n) (len - n) := by
  apply List.ext_getElem?
  intro i
  rw [List.getElem?_drop, getElem?_read, getElem?_read, Nat.add_assoc]
  have hiff : n + i < len ↔ i < len - n := by omega
  simp only [hiff]

theorem take_read (m : Mem) (off len n : Nat) :
    (m.read off len).take n = m.read off (min n len) := by
  apply List.ext_getElem?
  intro i
  rw [List.getElem?_take, getElem?_read, getElem?_read]
  by_cases h : i < n
  · have hiff : i < len ↔ i < min n len := by omega
    simp only [h, if_true, hiff]
  · have hge : ¬ i < min n len := by omega
    simp [h, hge]

theorem write_of_not_mem {i : Nat} (h : i < off ∨ off + bs.length ≤ i) :
    m.write off bs i = m i := by
  unfold write
  by_cases ho : off ≤ i
  · have hlen : bs.length ≤ i - off := by omega
    rw [if_pos ho, List.getElem?_eq_none hlen]
    rfl
  · rw [if_neg ho]

theorem write_add {i : Nat} (h : i < bs.length) : m.write off bs (off + i) = bs[i] := by
  simp [write, h]

@[simp] theorem read_write_self (m : Mem) (off : Nat) (bs : List UInt8) :
    (m.write off bs).read off bs.length = bs := by
  apply List.ext_getElem?
  intro i
  rw [getElem?_read]
  by_cases h : i < bs.length
  · rw [if_pos h, write_add h, List.getElem?_eq_getElem h]
  · rw [if_neg h, List.getElem?_eq_none (by omega)]

@[simp] theorem write_nil (m : Mem) (off : Nat) : m.write off [] = m := by
  funext i
  simp [write]

theorem write_write_append (m : Mem) (off : Nat) (as bs : List UInt8) :
    (m.write off as).write (off + as.length) bs = m.write off (as ++ bs) := by
  funext i
  unfold write
  by_cases hlo : off ≤ i
  · by_cases hhi : off + as.length ≤ i
    · have hlen : as.length ≤ i - off := by omega
      have hidx : i - (off + as.length) = i - off - as.length := by omega
      rw [if_pos hhi, if_pos hlo, if_pos hlo, List.getElem?_append_right hlen,
        List.getElem?_eq_none hlen, hidx]
      rfl
    · have hlt : i - off < as.length := by omega
      rw [if_neg hhi, if_pos hlo, if_pos hlo, List.getElem?_append_left hlt]
  · rw [if_neg (by omega), if_neg hlo, if_neg hlo]

theorem read_write_of_disjoint {len woff : Nat} (h : off + len ≤ woff ∨ woff + bs.length ≤ off) :
    (m.write woff bs).read off len = m.read off len := by
  apply read_congr
  intro i hi
  exact write_of_not_mem (by omega)

/-- A read inside the written block sees the matching slice of it. -/
theorem read_write_inside {len woff : Nat} (hlo : woff ≤ off) (hhi : off + len ≤ woff + bs.length) :
    (m.write woff bs).read off len = (bs.drop (off - woff)).take len := by
  apply List.ext_getElem?
  intro i
  rw [getElem?_read, List.getElem?_take]
  by_cases h : i < len
  · have hlt : off - woff + i < bs.length := by omega
    have hbyte : m.write woff bs (woff + (off - woff + i)) = bs[off - woff + i] := write_add hlt
    rw [if_pos h, if_pos h, List.getElem?_drop, List.getElem?_eq_getElem hlt, ← hbyte]
    congr 2
    omega
  · rw [if_neg h, if_neg h]

end Mem

/-! ## Little-endian integers -/

/-- The `w` low bytes of `n`, least significant first. -/
def toLe : Nat → Nat → List UInt8
  | 0, _ => []
  | w + 1, n => UInt8.ofNat n :: toLe w (n / 256)

/-- The integer a little-endian byte string stands for. -/
def ofLe : List UInt8 → Nat
  | [] => 0
  | b :: bs => b.toNat + 256 * ofLe bs

@[simp] theorem length_toLe (w n : Nat) : (toLe w n).length = w := by
  induction w generalizing n with
  | zero => rfl
  | succ w ih => simp [toLe, ih]

theorem ofLe_toLe (w n : Nat) : ofLe (toLe w n) = n % 256 ^ w := by
  induction w generalizing n with
  | zero => simp [toLe, ofLe, Nat.mod_one]
  | succ w ih =>
    have hb : (UInt8.ofNat n).toNat = n % 256 := by simp
    rw [toLe, ofLe, ih, hb, Nat.pow_succ, Nat.mul_comm (256 ^ w) 256, Nat.mod_mul]

theorem ofLe_toLe_of_lt {w n : Nat} (h : n < 256 ^ w) : ofLe (toLe w n) = n := by
  rw [ofLe_toLe, Nat.mod_eq_of_lt h]

theorem toLe_ofLe (bs : List UInt8) : toLe bs.length (ofLe bs) = bs := by
  induction bs with
  | nil => rfl
  | cons b bs ih =>
    have hb := b.toNat_lt
    have hlow : UInt8.ofNat (b.toNat + 256 * ofLe bs) = b := by
      apply UInt8.toNat_inj.mp
      rw [UInt8.toNat_ofNat']
      omega
    have hhigh : (b.toNat + 256 * ofLe bs) / 256 = ofLe bs := by omega
    rw [List.length_cons, ofLe, toLe, hlow, hhigh, ih]

end OpenGauss.Lib
