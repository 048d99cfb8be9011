import OpenGauss.Lib.BitString
import OpenGauss.CStore.Delta2Codec

/-!
# XOR coding of floats

Each value is XORed with the one before and the bits between the leading and the trailing
zeros are written, in a window of the value before if that is shorter. The encoder packs the
bits into bytes in four ways that depend on where a value starts; the decoder reads bit by
bit and keeps the window on its own.
-/

namespace OpenGauss.CStore

open Lib
open List (length_append append_nil append_assoc)
open Nat (mod_eq_of_lt two_pow_pos pow_add mod_lt)

variable {x : BitVec 64} {w : BitWriter} {bits : List Bool}

/-! ## The bit string of the encoder -/

/-- `numBits_`, `bitsStore_` and the bytes written to `outbuf`. -/
structure BitWriter where
  numBits : Nat
  bitsStore : UInt8
  outbuf : List UInt8

/-- `numBits` is a `uint32_t`. -/
def advance (numBits bits : Nat) : Nat := (numBits + bits) % 2 ^ 32

namespace BitWriter

/-- `flushBitString` -/
def flushBitString (w : BitWriter) : BitWriter :=
  if w.numBits % 8 = 0 then { w with bitsStore := 0, outbuf := w.outbuf ++ [w.bitsStore] } else w

/-- `numBits` goes on by `bits`, and `part` is added to the byte in store. -/
def store (w : BitWriter) (bits part : Nat) : BitWriter :=
  { w with numBits := advance w.numBits bits, bitsStore := w.bitsStore + UInt8.ofNat part }

def storeBytes (value : Nat) : Nat → Nat → BitWriter → BitWriter
  | 0, _, w => w
  | n + 1, bitsLeft, w =>
    storeBytes value n (bitsLeft - 8)
      (w.store 8 ((value >>> (bitsLeft - 8)) &&& 0xFF)).flushBitString

/-- `addValueToBitString` -/
def addValueToBitString (w : BitWriter) (value bitsInValue : Nat) : BitWriter :=
  let bitsAvailable := if w.numBits % 8 ≠ 0 then 8 - w.numBits % 8 else 0
  if bitsInValue ≤ bitsAvailable then
    (w.store bitsInValue (value <<< (bitsAvailable - bitsInValue))).flushBitString
  else
    let w :=
      if 0 < bitsAvailable then
        (w.store bitsAvailable (value >>> (bitsInValue - bitsAvailable))).flushBitString
      else w
    let bitsLeft := bitsInValue - bitsAvailable
    let w := storeBytes value (bitsLeft / 8) bitsLeft w
    let bitsLeft := bitsLeft % 8
    if bitsLeft ≠ 0 then
      w.store bitsLeft ((value &&& (1 <<< bitsLeft - 1)) <<< (8 - bitsLeft))
    else w

/-- `flushLastBitString`: the bytes of the result. -/
def flushLastBitString (w : BitWriter) : List UInt8 :=
  if w.numBits % 8 ≠ 0 then w.outbuf ++ [w.bitsStore] else w.outbuf

/-- The writer holds `bits`: whole bytes, and the rest in the high bits of the store. -/
def Holds (w : BitWriter) (bits : List Bool) : Prop :=
  ∃ pending : List Bool, bits = bitsOf w.outbuf ++ pending ∧ pending.length = w.numBits % 8 ∧
    w.bitsStore.toNat = ofMsb pending * 2 ^ (8 - pending.length)

theorem Holds.empty : Holds ⟨0, 0, []⟩ [] := ⟨[], rfl, rfl, rfl⟩

theorem advance_mod (numBits bits : Nat) : advance numBits bits % 8 = (numBits % 8 + bits) % 8 := by
  unfold advance
  omega

theorem toNat_store_add {pending : List Bool} {s : UInt8} {x k : Nat}
    (hs : s.toNat = ofMsb pending * 2 ^ (8 - pending.length)) (hk : pending.length + k ≤ 8)
    (hx : x < 2 ^ k) :
    (s + UInt8.ofNat (x <<< (8 - pending.length - k))).toNat =
      ofMsb (pending ++ msbBits k x) * 2 ^ (8 - (pending.length + k)) := by
  obtain ⟨j, hj⟩ : ∃ j, 8 = pending.length + k + j := ⟨8 - (pending.length + k), by omega⟩
  have hfree : 8 - pending.length = k + j := by omega
  have hshift : 8 - pending.length - k = j := by omega
  have hrest : 8 - (pending.length + k) = j := by omega
  have hlt := ofMsb_lt (pending ++ msbBits k x)
  rw [ofMsb_append, ofMsb_msbBits, length_msbBits, mod_eq_of_lt hx, length_append,
    length_msbBits] at hlt
  have hsum : (ofMsb pending * 2 ^ k + x) * 2 ^ j < 2 ^ 8 := by
    calc (ofMsb pending * 2 ^ k + x) * 2 ^ j < 2 ^ (pending.length + k) * 2 ^ j :=
          Nat.mul_lt_mul_of_pos_right hlt (two_pow_pos j)
      _ = 2 ^ 8 := by rw [← pow_add, ← hj]
  have hexpand : (ofMsb pending * 2 ^ k + x) * 2 ^ j = ofMsb pending * 2 ^ (k + j) + x * 2 ^ j := by
    rw [pow_add]
    ring
  rw [ofMsb_append, ofMsb_msbBits, length_msbBits, mod_eq_of_lt hx, hrest, UInt8.toNat_add,
    UInt8.toNat_ofNat', hs, hfree, Nat.add_sub_cancel_left, Nat.shiftLeft_eq]
  rw [hexpand] at hsum ⊢
  omega

/-- A store that fits into the byte appends its bits; a full byte is written out. -/
theorem Holds.store (h : w.Holds bits) {k x : Nat} (hpos : 0 < k) (hk : w.numBits % 8 + k ≤ 8)
    (hx : x < 2 ^ k) :
    (w.store k (x <<< (8 - w.numBits % 8 - k))).flushBitString.Holds (bits ++ msbBits k x) := by
  obtain ⟨pending, rfl, hlen, hstore⟩ := h
  rw [← hlen] at hk ⊢
  have hnew := toNat_store_add hstore hk hx
  have hmod := advance_mod w.numBits k
  rw [← hlen] at hmod
  unfold flushBitString BitWriter.store
  dsimp only
  split
  · rename_i hfull
    have hk8 : pending.length + k = 8 := by omega
    refine ⟨[], ?_, ?_, rfl⟩
    · rw [hk8, Nat.sub_self, Nat.pow_zero, Nat.mul_one] at hnew
      have hbyte : msbBits 8 (ofMsb (pending ++ msbBits k x)) = pending ++ msbBits k x := by
        have hback := msbBits_ofMsb (pending ++ msbBits k x)
        rwa [length_append, length_msbBits, hk8] at hback
      rw [bitsOf_append, bitsOf_cons, bitsOf_nil, hnew, hbyte, append_nil, append_nil,
        append_assoc]
    · exact hfull.symm
  · rename_i hpart
    refine ⟨pending ++ msbBits k x, ?_, ?_, ?_⟩
    · rw [append_assoc]
    · rw [length_append, length_msbBits, hmod, mod_eq_of_lt]
      omega
    · rw [length_append, length_msbBits]
      exact hnew

theorem numBits_flushBitString (w : BitWriter) : w.flushBitString.numBits = w.numBits := by
  unfold flushBitString
  split <;> rfl

/-- From a byte boundary on, the loop writes whole bytes. -/
theorem Holds.storeBytes (value r : Nat) : ∀ (n : Nat) {w : BitWriter} {bits : List Bool},
    w.Holds bits → w.numBits % 8 = 0 →
      (BitWriter.storeBytes value n (8 * n + r) w).Holds (bits ++ msbBits (8 * n) (value / 2 ^ r)) ∧
      (BitWriter.storeBytes value n (8 * n + r) w).numBits % 8 = 0
  | 0, w, bits, h, hzero => by
    refine ⟨?_, hzero⟩
    rw [Nat.mul_zero, msbBits, append_nil]
    exact h
  | n + 1, w, bits, h, hzero => by
    have hleft : 8 * (n + 1) + r - 8 = 8 * n + r := by omega
    have hmask : ((value >>> (8 * n + r)) &&& 0xFF) = value / 2 ^ r / 2 ^ (8 * n) % 2 ^ 8 := by
      rw [Nat.shiftRight_eq_div_pow, Nat.div_div_eq_div_mul, ← pow_add, Nat.add_comm r (8 * n)]
      exact Nat.and_two_pow_sub_one_eq_mod _ 8
    have hbyte := h.store (k := 8) (x := value / 2 ^ r / 2 ^ (8 * n) % 2 ^ 8) (by decide)
      (by omega) (mod_lt _ (two_pow_pos 8))
    rw [hzero, Nat.sub_zero, Nat.sub_self, Nat.shiftLeft_zero, ← hmask] at hbyte
    have hnum : (w.store 8 ((value >>> (8 * n + r)) &&& 0xFF)).flushBitString.numBits % 8 = 0 := by
      rw [numBits_flushBitString]
      exact (advance_mod w.numBits 8).trans (by omega)
    have hrest := Holds.storeBytes value r n hbyte hnum
    rw [BitWriter.storeBytes, hleft, Nat.mul_succ, Nat.add_comm (8 * n) 8, msbBits_add,
      ← msbBits_mod (n := 8), ← hmask, ← append_assoc]
    exact hrest

/-- What is left of a value at a byte boundary: dedicated bytes and the start of a new one. -/
theorem Holds.storeRest (h : w.Holds bits) (hzero : w.numBits % 8 = 0) (value bitsLeft : Nat) :
    (if bitsLeft % 8 ≠ 0 then
        (BitWriter.storeBytes value (bitsLeft / 8) bitsLeft w).store (bitsLeft % 8)
          ((value &&& (1 <<< (bitsLeft % 8) - 1)) <<< (8 - bitsLeft % 8))
      else BitWriter.storeBytes value (bitsLeft / 8) bitsLeft w).Holds
        (bits ++ msbBits bitsLeft value) := by
  obtain ⟨hbytes, hnum⟩ := Holds.storeBytes value (bitsLeft % 8) (bitsLeft / 8) h hzero
  have hsplit : 8 * (bitsLeft / 8) + bitsLeft % 8 = bitsLeft := Nat.div_add_mod bitsLeft 8
  have hbits : msbBits bitsLeft value =
      msbBits (8 * (bitsLeft / 8)) (value / 2 ^ (bitsLeft % 8)) ++ msbBits (bitsLeft % 8) value := by
    rw [← msbBits_add, hsplit]
  rw [hsplit] at hbytes hnum
  rw [hbits, ← append_assoc]
  generalize BitWriter.storeBytes value (bitsLeft / 8) bitsLeft w = w' at hbytes hnum ⊢
  split
  · rename_i hrest
    have hmask : value &&& (1 <<< (bitsLeft % 8) - 1) = value % 2 ^ (bitsLeft % 8) := by
      rw [Nat.one_shiftLeft]
      exact Nat.and_two_pow_sub_one_eq_mod _ _
    have hpart := hbytes.store (Nat.pos_of_ne_zero hrest) (by omega)
      (mod_lt value (two_pow_pos (bitsLeft % 8)))
    rw [msbBits_mod, hnum, Nat.sub_zero, ← hmask] at hpart
    -- the byte is not full, so there is nothing to flush
    have hopen : ¬ (w'.store (bitsLeft % 8)
        ((value &&& (1 <<< (bitsLeft % 8) - 1)) <<< (8 - bitsLeft % 8))).numBits % 8 = 0 := by
      show ¬ advance w'.numBits (bitsLeft % 8) % 8 = 0
      rw [advance_mod]
      omega
    rwa [flushBitString, if_neg hopen] at hpart
  · rename_i hrest
    rw [Classical.not_not] at hrest
    rw [hrest, msbBits, append_nil]
    rwa [hrest] at hbytes

/-- However a value lies across the bytes, its bits are appended. -/
theorem Holds.addValueToBitString (h : w.Holds bits) (value n : Nat) (hpos : 0 < n)
    (hvalue : value < 2 ^ n) : (w.addValueToBitString value n).Holds (bits ++ msbBits n value) := by
  have hlt : w.numBits % 8 < 8 := mod_lt _ (by decide)
  unfold BitWriter.addValueToBitString
  dsimp only
  by_cases hzero : w.numBits % 8 = 0
  · -- the value starts on a byte boundary
    rw [if_neg (not_not_intro hzero), if_neg (Nat.not_le.mpr hpos), if_neg (Nat.lt_irrefl 0),
      Nat.sub_zero]
    exact h.storeRest hzero value n
  rw [if_pos hzero]
  split
  · -- everything fits inside the last byte
    rename_i hfit
    exact h.store hpos (by omega) hvalue
  rename_i hfit
  have hopen : 0 < 8 - w.numBits % 8 := by omega
  rw [if_pos hopen]
  generalize havail : 8 - w.numBits % 8 = avail at hfit ⊢
  obtain ⟨left, rfl⟩ : ∃ left, n = avail + left := ⟨n - avail, by omega⟩
  have hhigh : value / 2 ^ left < 2 ^ avail := by
    rw [Nat.div_lt_iff_lt_mul (two_pow_pos left), ← pow_add]
    exact hvalue
  have hfill := h.store (by omega : 0 < avail) (by omega) hhigh
  rw [havail, Nat.sub_self, Nat.shiftLeft_zero, ← Nat.shiftRight_eq_div_pow] at hfill
  have hnum : (w.store avail (value >>> left)).flushBitString.numBits % 8 = 0 := by
    rw [numBits_flushBitString]
    show advance w.numBits avail % 8 = 0
    rw [advance_mod]
    omega
  rw [msbBits_add, ← Nat.shiftRight_eq_div_pow, ← append_assoc, Nat.add_sub_cancel_left]
  exact hfill.storeRest hnum value left

/-- The bits are those of the result, which may end in bits that stand for nothing. -/
theorem Holds.prefix_flushLast (h : w.Holds bits) : bits <+: bitsOf w.flushLastBitString := by
  obtain ⟨pending, rfl, hlen, hstore⟩ := h
  unfold flushLastBitString
  split
  · have hbits : msbBits 8 w.bitsStore.toNat =
        pending ++ msbBits (8 - pending.length) w.bitsStore.toNat := by
      have hadd : 8 = pending.length + (8 - pending.length) := by omega
      conv_lhs => rw [hadd, msbBits_add, hstore, Nat.mul_div_cancel _ (two_pow_pos _),
        msbBits_ofMsb]
      rw [hstore]
    rw [bitsOf_append, bitsOf_cons, bitsOf_nil, append_nil, hbits, ← append_assoc]
    exact List.prefix_append _ _
  · rename_i hzero
    rw [Classical.not_not] at hzero
    rw [hzero] at hlen
    rw [List.length_eq_zero_iff.mp hlen, append_nil]

end BitWriter

/-! ## The bit string of the decoder -/

/-- `bitPos`, `bitsStore_` and the bytes behind `in_pos`. Behind the end of the buffer there
may be anything. -/
structure BitReader where
  bitPos : Nat
  bitsStore : UInt8
  inbuf : List UInt8

namespace BitReader

/-- The body of the loop of `readValueFromBitString`. -/
def readBit (r : BitReader) : Nat × BitReader :=
  let bit := (r.bitsStore.toNat >>> (7 - r.bitPos % 8)) &&& 1
  let bitPos := r.bitPos + 1
  (bit, if bitPos % 8 = 0 then ⟨bitPos, r.inbuf.headD 0, r.inbuf.tail⟩ else { r with bitPos })

/-- `readValueFromBitString`; `value` are the bits read before. -/
def readValueFromBitString (r : BitReader) : Nat → Nat → Nat × BitReader
  | 0, value => (value, r)
  | n + 1, value =>
    r.readBit.2.readValueFromBitString n ((value <<< 1) % 2 ^ 64 + r.readBit.1)

def ahead (r : BitReader) : List Bool :=
  msbBits (8 - r.bitPos % 8) r.bitsStore.toNat ++ bitsOf r.inbuf

theorem readBit_spec {r : BitReader} {b : Bool} (h : b :: bits <+: r.ahead) :
    r.readBit.1 = b.toNat ∧ bits <+: r.readBit.2.ahead := by
  have hlt : r.bitPos % 8 < 8 := mod_lt _ (by decide)
  obtain ⟨m, hm⟩ : ∃ m, 8 - r.bitPos % 8 = m + 1 := ⟨7 - r.bitPos % 8, by omega⟩
  rw [ahead, hm, msbBits, List.cons_append, List.cons_prefix_cons] at h
  obtain ⟨rfl, hrest⟩ := h
  have hshift : 7 - r.bitPos % 8 = m := by omega
  refine ⟨?_, ?_⟩
  · rw [readBit]
    dsimp only
    rw [hshift, Nat.testBit, Nat.and_comm]
    rcases Nat.mod_two_eq_zero_or_one (r.bitsStore.toNat >>> m) with hbit | hbit <;>
      simp [Nat.one_and_eq_mod_two, hbit]
  · rw [readBit]
    dsimp only
    split
    · -- the last bit of the byte: the next byte, if there is one, holds the rest
      have hm0 : m = 0 := by omega
      rw [hm0, msbBits, List.nil_append] at hrest
      cases hin : r.inbuf with
      | nil =>
        rw [hin, bitsOf_nil, List.prefix_nil] at hrest
        rw [hrest]
        exact List.nil_prefix
      | cons byte rest =>
        rw [hin, bitsOf_cons] at hrest
        rename_i hboundary
        simpa only [ahead, hboundary, List.headD_cons, List.tail_cons] using hrest
    · rename_i hinside
      have hnext : 8 - (r.bitPos + 1) % 8 = m := by omega
      simpa only [ahead, hnext] using hrest

/-- A read takes its bits off the front. -/
theorem readValueFromBitString_spec : ∀ {bits rest : List Bool} (value : Nat) {r : BitReader},
    bits ++ rest <+: r.ahead →
      (r.readValueFromBitString bits.length value).1 % 2 ^ 64 =
        (value * 2 ^ bits.length + ofMsb bits) % 2 ^ 64 ∧
      rest <+: (r.readValueFromBitString bits.length value).2.ahead
  | [], rest, value, r, h => by
    refine ⟨?_, h⟩
    simp [readValueFromBitString, ofMsb]
  | b :: bits, rest, value, r, h => by
    obtain ⟨hbit, hrest⟩ := readBit_spec h
    obtain ⟨hvalue, hahead⟩ := readValueFromBitString_spec
      ((value <<< 1) % 2 ^ 64 + r.readBit.1) hrest
    refine ⟨?_, hahead⟩
    rw [List.length_cons, readValueFromBitString, hvalue, hbit, ofMsb, Nat.shiftLeft_eq,
      Nat.pow_one]
    apply Nat.ModEq.trans (b := (value * 2 + b.toNat) * 2 ^ bits.length + ofMsb bits)
    · apply Nat.ModEq.add_right
      apply Nat.ModEq.mul_right
      apply Nat.ModEq.add_right
      exact Nat.mod_modEq _ _
    · have heq : (value * 2 + b.toNat) * 2 ^ bits.length + ofMsb bits =
          value * 2 ^ (bits.length + 1) + (b.toNat * 2 ^ bits.length + ofMsb bits) := by ring
      rw [heq]

theorem readBit_le (r : BitReader) : r.readBit.1 ≤ 1 := by
  rw [readBit]
  exact Nat.and_le_right

theorem readValueFromBitString_lt : ∀ {n value : Nat} {r : BitReader}, value < 2 ^ 64 →
    (r.readValueFromBitString n value).1 < 2 ^ 64
  | 0, _, _, h => h
  | n + 1, value, r, h => by
    have hbit := r.readBit_le
    rw [readValueFromBitString]
    apply readValueFromBitString_lt
    rw [Nat.shiftLeft_eq]
    omega

/-- A number of `n` bits that lies ahead is read. -/
theorem readValueFromBitString_msbBits {n v : Nat} {rest : List Bool} {r : BitReader}
    (hn : n ≤ 64) (hv : v < 2 ^ n) (h : msbBits n v ++ rest <+: r.ahead) :
    ∃ r', r.readValueFromBitString n 0 = (v, r') ∧ rest <+: r'.ahead := by
  obtain ⟨hvalue, hrest⟩ := readValueFromBitString_spec 0 h
  rw [length_msbBits] at hvalue hrest
  refine ⟨_, Prod.ext ?_ rfl, hrest⟩
  have hword : v < 2 ^ 64 := hv.trans_le (Nat.pow_le_pow_right (by decide) hn)
  rw [mod_eq_of_lt (readValueFromBitString_lt (by decide)), Nat.zero_mul, Nat.zero_add,
    ofMsb_msbBits, mod_eq_of_lt hv, mod_eq_of_lt hword] at hvalue
  exact hvalue

end BitReader

open BitReader (readValueFromBitString_msbBits)

/-! ## The codec -/

/-- The value before and the zeros around its block. -/
structure XorWindow where
  previousValue : BitVec 64
  leadingZeros : Nat
  trailingZeros : Nat

def kLeadingZerosLengthBits : Nat := 5
def kBlockSizeLengthBits : Nat := 6
def kMaxLeadingZerosLength : Nat := 1 <<< kLeadingZerosLengthBits - 1
def kBlockSizeAdjustment : Nat := 1

/-- `__builtin_clzll` -/
def clz (x : BitVec 64) : Nat := (List.range 64).findIdx fun i => x.getLsbD (63 - i)

/-- `__builtin_ctzll` -/
def ctz (x : BitVec 64) : Nat := (List.range 64).findIdx fun i => x.getLsbD i

structure XorEncoder where
  window : XorWindow
  writer : BitWriter

/-- `appendValue` -/
def XorEncoder.appendValue (e : XorEncoder) (value : BitVec 64) : XorEncoder :=
  let xorWithPrevius := e.window.previousValue ^^^ value
  if xorWithPrevius = 0 then { e with writer := e.writer.addValueToBitString 0 1 }
  else
    let writer := e.writer.addValueToBitString 1 1
    let leadingZeros := min (clz xorWithPrevius) kMaxLeadingZerosLength
    let trailingZeros := ctz xorWithPrevius
    let blockSize := 64 - leadingZeros - trailingZeros
    let expectedSize := kLeadingZerosLengthBits + kBlockSizeLengthBits + blockSize
    let previousBlockInformationSize := 64 - e.window.trailingZeros - e.window.leadingZeros
    if e.window.leadingZeros ≤ leadingZeros ∧ e.window.trailingZeros ≤ trailingZeros ∧
        previousBlockInformationSize < expectedSize then
      let writer := writer.addValueToBitString 1 1
      let blockValue := xorWithPrevius.toNat >>> e.window.trailingZeros
      { window := { e.window with previousValue := value }
        writer := writer.addValueToBitString blockValue previousBlockInformationSize }
    else
      let writer := writer.addValueToBitString 0 1
      let writer := writer.addValueToBitString leadingZeros kLeadingZerosLengthBits
      let writer := writer.addValueToBitString (blockSize - kBlockSizeAdjustment)
        kBlockSizeLengthBits
      let blockValue := xorWithPrevius.toNat >>> trailingZeros
      { window := ⟨value, leadingZeros, trailingZeros⟩
        writer := writer.addValueToBitString blockValue blockSize }

/-- `XORCodec::compress` -/
def xorCompress (dataSize : Nat) (inbuf : List UInt8) : List UInt8 :=
  ((readValues dataSize inbuf).foldl XorEncoder.appendValue
    ⟨⟨0, 0, 0⟩, ⟨0, 0, []⟩⟩).writer.flushLastBitString

/-- `readNextValue` -/
def readNextValue (window : XorWindow) (r : BitReader) : BitVec 64 × XorWindow × BitReader :=
  let (nonZeroValue, r) := r.readValueFromBitString 1 0
  if nonZeroValue = 0 then (window.previousValue, window, r)
  else
    let (usePreviousBlockInformation, r) := r.readValueFromBitString 1 0
    if usePreviousBlockInformation ≠ 0 then
      let (block, r) := r.readValueFromBitString (64 - window.leadingZeros - window.trailingZeros) 0
      let xorValue := BitVec.ofNat 64 block <<< window.trailingZeros
      let value := xorValue ^^^ window.previousValue
      (value, { window with previousValue := value }, r)
    else
      let (leadingZeros, r) := r.readValueFromBitString kLeadingZerosLengthBits 0
      let (size, r) := r.readValueFromBitString kBlockSizeLengthBits 0
      let blockSize := size + kBlockSizeAdjustment
      let trailingZeros := 64 - blockSize - leadingZeros
      let (block, r) := r.readValueFromBitString blockSize 0
      let xorValue := BitVec.ofNat 64 block <<< trailingZeros
      let value := xorValue ^^^ window.previousValue
      (value, ⟨value, leadingZeros, trailingZeros⟩, r)

/-- The loop of `decompress`. -/
def xorDecompressLoop (dataSize : Nat) : Nat → XorWindow → BitReader → List UInt8
  | 0, _, _ => []
  | loopCount + 1, window, r =>
    let (value, window, r) := readNextValue window r
    writeData dataSize value ++ xorDecompressLoop dataSize loopCount window r

/-- `XORCodec::decompress`; `outsize` is the size of the raw data. -/
def xorDecompress (dataSize : Nat) (inbuf : List UInt8) (outsize : Nat) : List UInt8 :=
  xorDecompressLoop dataSize (outsize / dataSize) ⟨0, 0, 0⟩ ⟨0, inbuf.headD 0, inbuf.tail⟩

/-! ## Blocks -/

/-- The bits of `x` lie between `leading` and `trailing` zeros. -/
structure IsBlock (x : BitVec 64) (leading trailing : Nat) : Prop where
  lt : x.toNat < 2 ^ (64 - leading)
  dvd : 2 ^ trailing ∣ x.toNat
  le : leading + trailing ≤ 63

theorem lt_clz (x : BitVec 64) : x.toNat < 2 ^ (64 - clz x) := by
  apply Nat.lt_pow_two_of_testBit
  intro i hi
  by_cases hword : i < 64
  · have hbefore : 63 - i < clz x := by omega
    have hnot := List.not_of_lt_findIdx hbefore
    have hback : 63 - (63 - i) = i := by omega
    rw [List.getElem_range, hback] at hnot
    rw [BitVec.testBit_toNat]
    exact hnot
  · exact Nat.testBit_lt_two_pow (x.isLt.trans_le (Nat.pow_le_pow_right (by decide) (by omega)))

theorem dvd_ctz (x : BitVec 64) : 2 ^ ctz x ∣ x.toNat := by
  apply Nat.dvd_of_mod_eq_zero
  apply Nat.eq_of_testBit_eq
  intro i
  rw [Nat.testBit_mod_two_pow, Nat.zero_testBit]
  by_cases hi : i < ctz x
  · have hnot := List.not_of_lt_findIdx hi
    rw [List.getElem_range] at hnot
    rw [BitVec.testBit_toNat, hnot, Bool.and_false]
  · rw [decide_eq_false hi, Bool.false_and]

theorem isBlock_clz_ctz (hx : x ≠ 0) : IsBlock x (min (clz x) kMaxLeadingZerosLength) (ctz x) := by
  have hpos : 0 < x.toNat := Nat.pos_of_ne_zero fun h => hx (BitVec.eq_of_toNat_eq h)
  have hlt := lt_clz x
  have hdvd := dvd_ctz x
  have hpow : 2 ^ ctz x < 2 ^ (64 - clz x) := (Nat.le_of_dvd hpos hdvd).trans_lt hlt
  have hexp : ctz x < 64 - clz x := (Nat.pow_lt_pow_iff_right (by decide)).mp hpow
  exact
    { lt := hlt.trans_le (Nat.pow_le_pow_right (by decide) (by omega))
      dvd := hdvd
      le := by omega }

theorem IsBlock.mono {l t l' t' : Nat} (h : IsBlock x l t) (hl : l' ≤ l) (ht : t' ≤ t) :
    IsBlock x l' t' where
  lt := h.lt.trans_le (Nat.pow_le_pow_right (by decide) (by omega))
  dvd := (Nat.pow_dvd_pow 2 ht).trans h.dvd
  le := by have := h.le; omega

theorem IsBlock.shift_lt {l t : Nat} (h : IsBlock x l t) : x.toNat >>> t < 2 ^ (64 - l - t) := by
  have hle := h.le
  have hadd : 64 - l = 64 - l - t + t := by omega
  rw [Nat.shiftRight_eq_div_pow, Nat.div_lt_iff_lt_mul (two_pow_pos t), ← pow_add, ← hadd]
  exact h.lt

theorem IsBlock.shift_back {l t : Nat} (h : IsBlock x l t) :
    BitVec.ofNat 64 (x.toNat >>> t) <<< t = x := by
  apply BitVec.eq_of_toNat_eq
  have hlt : x.toNat / 2 ^ t < 2 ^ 64 := (Nat.div_le_self _ _).trans_lt x.isLt
  rw [BitVec.toNat_shiftLeft, BitVec.toNat_ofNat, Nat.shiftRight_eq_div_pow,
    mod_eq_of_lt hlt, Nat.shiftLeft_eq, Nat.div_mul_cancel h.dvd, mod_eq_of_lt x.isLt]

/-! ## Round trip -/

/-- `code` ahead, the decoder reads `value` and its window becomes `window'`. -/
def Decodes (window : XorWindow) (code : List Bool) (value : BitVec 64) (window' : XorWindow) :
    Prop :=
  ∀ (r : BitReader) (rest : List Bool), code ++ rest <+: r.ahead →
    ∃ r', readNextValue window r = (value, window', r') ∧ rest <+: r'.ahead

theorem xor_xor_self (x y : BitVec 64) : (x ^^^ y) ^^^ x = y := by
  rw [BitVec.xor_comm, ← BitVec.xor_assoc, BitVec.xor_self, BitVec.zero_xor]

/-- The previous window is used again. -/
theorem decodes_again {window : XorWindow} {value : BitVec 64}
    (hblock : IsBlock (window.previousValue ^^^ value) window.leadingZeros window.trailingZeros) :
    Decodes window (msbBits 1 1 ++ (msbBits 1 1 ++
        msbBits (64 - window.trailingZeros - window.leadingZeros)
          ((window.previousValue ^^^ value).toNat >>> window.trailingZeros)))
      value { window with previousValue := value } := by
  intro r rest h
  simp only [append_assoc] at h
  obtain ⟨r₁, hread₁, h⟩ := readValueFromBitString_msbBits (by decide) (by decide) h
  obtain ⟨r₂, hread₂, h⟩ := readValueFromBitString_msbBits (by decide) (by decide) h
  rw [Nat.sub_right_comm] at h
  obtain ⟨r₃, hread₃, h⟩ := readValueFromBitString_msbBits (by omega) hblock.shift_lt h
  have hvalue := xor_xor_self window.previousValue value
  refine ⟨r₃, ?_, h⟩
  simp only [readNextValue, hread₁, hread₂, hread₃, hblock.shift_back, hvalue, Nat.one_ne_zero,
    if_false, ne_eq, not_false_eq_true, if_true]

/-- A window of its own is written in front of the block. -/
theorem decodes_new {window : XorWindow} {value : BitVec 64} {lz tz : Nat}
    (hlz : lz ≤ kMaxLeadingZerosLength) (hblock : IsBlock (window.previousValue ^^^ value) lz tz) :
    Decodes window (msbBits 1 1 ++ (msbBits 1 0 ++ (msbBits kLeadingZerosLengthBits lz ++
        (msbBits kBlockSizeLengthBits (64 - lz - tz - kBlockSizeAdjustment) ++
          msbBits (64 - lz - tz) ((window.previousValue ^^^ value).toNat >>> tz)))))
      value ⟨value, lz, tz⟩ := by
  intro r rest h
  simp only [append_assoc] at h
  have hle := hblock.le
  have hmax : lz < 2 ^ kLeadingZerosLengthBits := Nat.lt_succ_of_le hlz
  have hsize : 64 - lz - tz - kBlockSizeAdjustment < 2 ^ kBlockSizeLengthBits := by
    show 64 - lz - tz - 1 < 64
    omega
  have hblockSize : 64 - lz - tz - kBlockSizeAdjustment + kBlockSizeAdjustment = 64 - lz - tz := by
    show 64 - lz - tz - 1 + 1 = 64 - lz - tz
    omega
  have htz : 64 - (64 - lz - tz) - lz = tz := by omega
  obtain ⟨r₁, hread₁, h⟩ := readValueFromBitString_msbBits (by decide) (by decide) h
  obtain ⟨r₂, hread₂, h⟩ := readValueFromBitString_msbBits (by decide) (by decide) h
  obtain ⟨r₃, hread₃, h⟩ := readValueFromBitString_msbBits (by decide) hmax h
  obtain ⟨r₄, hread₄, h⟩ := readValueFromBitString_msbBits (by decide) hsize h
  obtain ⟨r₅, hread₅, h⟩ := readValueFromBitString_msbBits (by omega) hblock.shift_lt h
  have hvalue := xor_xor_self window.previousValue value
  refine ⟨r₅, ?_, h⟩
  simp only [readNextValue, hread₁, hread₂, hread₃, hread₄, hblockSize, hread₅, htz,
    hblock.shift_back, hvalue, Nat.one_ne_zero, if_false, ne_eq, not_true_eq_false]

/-- One value: the encoder appends a code from which a decoder with the same window reads the
value and gets the same next window. -/
theorem appendValue_spec {e : XorEncoder} (hbits : e.writer.Holds bits)
    (hwindow : e.window.leadingZeros + e.window.trailingZeros ≤ 63) (value : BitVec 64) :
    ∃ code, (e.appendValue value).writer.Holds (bits ++ code) ∧
      (e.appendValue value).window.leadingZeros + (e.appendValue value).window.trailingZeros ≤ 63 ∧
      Decodes e.window code value (e.appendValue value).window := by
  unfold XorEncoder.appendValue
  dsimp only
  split
  · rename_i hzero
    refine ⟨msbBits 1 0, hbits.addValueToBitString 0 1 (by decide) (by decide), hwindow, ?_⟩
    intro r rest h
    obtain ⟨r', hread, h⟩ := readValueFromBitString_msbBits (by decide) (by decide) h
    have hvalue : e.window.previousValue = value := BitVec.xor_eq_zero_iff.mp hzero
    refine ⟨r', ?_, h⟩
    simp only [readNextValue, hread, if_true, hvalue]
  rename_i hne
  have hblock := isBlock_clz_ctz hne
  have hone := hbits.addValueToBitString 1 1 (by decide) (by decide)
  split
  · rename_i hagain
    have hold := hblock.mono hagain.1 hagain.2.1
    have hlt := hold.shift_lt
    rw [Nat.sub_right_comm] at hlt
    have hcode := (hone.addValueToBitString 1 1 (by decide) (by decide)).addValueToBitString
      _ _ (by omega) hlt
    refine ⟨_, ?_, hwindow, decodes_again hold⟩
    simpa only [append_assoc] using hcode
  · have hle := hblock.le
    have hmax : min (clz (e.window.previousValue ^^^ value)) kMaxLeadingZerosLength ≤
        kMaxLeadingZerosLength := Nat.min_le_right _ _
    generalize min (clz (e.window.previousValue ^^^ value)) kMaxLeadingZerosLength = lz
      at hblock hle hmax ⊢
    generalize ctz (e.window.previousValue ^^^ value) = tz at hblock hle ⊢
    have hsize : 64 - lz - tz - kBlockSizeAdjustment < 2 ^ kBlockSizeLengthBits := by
      show 64 - lz - tz - 1 < 64
      omega
    have hzero := hone.addValueToBitString 0 1 (by decide) (by decide)
    have hlead := hzero.addValueToBitString lz kLeadingZerosLengthBits (by decide)
      (Nat.lt_succ_of_le hmax)
    have hlen := hlead.addValueToBitString _ kBlockSizeLengthBits (by decide) hsize
    have hcode := hlen.addValueToBitString _ _ (by omega) hblock.shift_lt
    refine ⟨_, ?_, hle, decodes_new hmax hblock⟩
    simpa only [append_assoc] using hcode

/-- All values: the decoder follows the encoder. -/
theorem foldl_appendValue_spec (dataSize : Nat) : ∀ (values : List (BitVec 64)) {e : XorEncoder}
    {bits : List Bool}, e.writer.Holds bits →
      e.window.leadingZeros + e.window.trailingZeros ≤ 63 →
      ∃ code, (values.foldl XorEncoder.appendValue e).writer.Holds (bits ++ code) ∧
        ∀ r : BitReader, code <+: r.ahead →
          xorDecompressLoop dataSize values.length e.window r = writeValues dataSize values
  | [], e, bits, hbits, _ => ⟨[], by rwa [append_nil], fun _ _ => rfl⟩
  | value :: values, e, bits, hbits, hwindow => by
    obtain ⟨code, hcode, hnext, hdecodes⟩ := appendValue_spec hbits hwindow value
    obtain ⟨codes, hcodes, hrest⟩ := foldl_appendValue_spec dataSize values hcode hnext
    refine ⟨code ++ codes, by rwa [← append_assoc], ?_⟩
    intro r h
    obtain ⟨r', hread, hahead⟩ := hdecodes r codes h
    rw [List.length_cons, xorDecompressLoop, hread]
    dsimp only
    rw [hrest r' hahead]
    rfl

theorem prefix_ahead {inbuf : List UInt8} (h : bits <+: bitsOf inbuf) :
    bits <+: (⟨0, inbuf.headD 0, inbuf.tail⟩ : BitReader).ahead := by
  cases inbuf with
  | nil =>
    rw [bitsOf_nil, List.prefix_nil] at h
    rw [h]
    exact List.nil_prefix
  | cons b rest => exact h

/-- Any values of one to eight bytes come back, whatever lies behind the compressed bytes. -/
theorem xorDecompress_compress {dataSize : Nat} {bs : List UInt8} (tail : List UInt8)
    (hle : dataSize ≤ 8) (hdvd : dataSize ∣ bs.length) :
    xorDecompress dataSize (xorCompress dataSize bs ++ tail) bs.length = bs := by
  obtain ⟨code, hcode, hdecodes⟩ := foldl_appendValue_spec dataSize
    (readValues dataSize bs) (e := ⟨⟨0, 0, 0⟩, ⟨0, 0, []⟩⟩) BitWriter.Holds.empty (by decide)
  rw [List.nil_append] at hcode
  have hahead : code <+: bitsOf (xorCompress dataSize bs ++ tail) := by
    rw [bitsOf_append]
    exact hcode.prefix_flushLast.trans (List.prefix_append _ _)
  rw [xorDecompress, ← length_readValues, hdecodes _ (prefix_ahead hahead),
    writeValues_readValues hle hdvd]

/-- Every array of timestamps comes back from the delta-of-delta codec, and every array of
floats of four or eight bytes from the XOR codec. The XOR decoder may read a byte behind the
compressed ones; it does not matter what stands there. -/
theorem timeSeries_roundTrip (bs : List UInt8) (hne : bs ≠ []) :
    (8 ∣ bs.length → delta2Decompress 8 (delta2Compress 8 bs) = bs) ∧
      ∀ dataSize ∈ [4, 8], dataSize ∣ bs.length → ∀ tail,
        xorDecompress dataSize (xorCompress dataSize bs ++ tail) bs.length = bs := by
  refine ⟨delta2Decompress_compress (by decide) (by decide) hne, ?_⟩
  intro dataSize hsize hdvd tail
  apply xorDecompress_compress tail _ hdvd
  simp only [List.mem_cons, List.not_mem_nil, or_false] at hsize
  omega

/-- The least integer behind 0, and 0 again: the first difference is its own negative, the
second is 0. -/
def leastInteger : List UInt8 :=
  [0, 0, 0, 0, 0, 0, 0, 0, 0, 0, 0, 0, 0, 0, 0, 0x80, 0, 0, 0, 0, 0, 0, 0, 0]

theorem timeSeries_roundTrip_leastInteger :
    delta2Decompress 8 (delta2Compress 8 leastInteger) = leastInteger ∧
      xorDecompress 4 (xorCompress 4 leastInteger) leastInteger.length = leastInteger := by
  obtain ⟨hdelta, hxor⟩ := timeSeries_roundTrip leastInteger (by decide)
  have hback := hxor 4 (by decide) (by decide) []
  rw [append_nil] at hback
  exact ⟨hdelta (by decide), hback⟩

end OpenGauss.CStore
