import OpenGauss.Lib.Mem
import OpenGauss.Lib.StreamCodec
import Mathlib.Algebra.Ring.Nat

/-!
# Fixed-size values in a buffer and the delta coder

The codecs of the column store read a buffer as values of one to eight bytes, little end
first. `readData` does not extend the sign and `writeData` keeps the low bytes, so the delta
coder computes with values that are right in their low bytes only.
-/

namespace OpenGauss.CStore

open Lib

variable {bs : List UInt8} {k : Nat}

/-! ## Values of one to eight bytes -/

/-- `readData<datasize>`: the `datasize` bytes at the front, without sign. -/
def readData (datasize : Nat) (inbuf : List UInt8) : BitVec 64 :=
  BitVec.ofNat 64 (ofLe (inbuf.take datasize))

/-- `writeData<datasize>`: the low bytes. -/
def writeData (datasize : Nat) (data : BitVec 64) : List UInt8 :=
  toLe datasize data.toNat

/-- All values of a buffer, in the order in which a loop over `inpos` reads them. -/
def readValues (datasize : Nat) (inbuf : List UInt8) : List (BitVec 64) :=
  (chunks datasize (inbuf.length / datasize) inbuf).map (readData datasize)

def writeValues (datasize : Nat) (values : List (BitVec 64)) : List UInt8 :=
  values.flatMap (writeData datasize)

@[simp] theorem length_writeData (k : Nat) (data : BitVec 64) : (writeData k data).length = k :=
  length_toLe k _

theorem ofLe_lt (bs : List UInt8) : ofLe bs < 256 ^ bs.length := by
  induction bs with
  | nil => exact Nat.one_pos
  | cons b bs ih =>
    have hb := b.toNat_lt
    rw [ofLe, List.length_cons, Nat.pow_succ]
    omega

theorem toLe_congr {w a b : Nat} (h : a % 256 ^ w = b % 256 ^ w) : toLe w a = toLe w b := by
  have heq : ofLe (toLe w a) = ofLe (toLe w b) := by rw [ofLe_toLe, ofLe_toLe, h]
  have hback := toLe_ofLe (toLe w a)
  rw [heq, length_toLe] at hback
  rw [← hback]
  conv_rhs => rw [← toLe_ofLe (toLe w b), length_toLe]

theorem pow_dvd_word (hk : k ≤ 8) : 256 ^ k ∣ 2 ^ 64 :=
  (Nat.pow_dvd_pow 256 hk).trans (Dvd.intro_left 1 rfl)

theorem toNat_readData (hk : k ≤ 8) : (readData k bs).toNat = ofLe (bs.take k) := by
  have hlt := ofLe_lt (bs.take k)
  have hword : (256 : Nat) ^ (bs.take k).length ≤ 2 ^ 64 := by
    apply (Nat.pow_le_pow_right (by decide) _).trans (Nat.le_of_dvd (by decide) (pow_dvd_word hk))
    exact List.length_take_le k bs
  rw [readData, BitVec.toNat_ofNat, Nat.mod_eq_of_lt (hlt.trans_le hword)]

theorem readData_lt (hk : k ≤ 8) : (readData k bs).toNat < 256 ^ k := by
  rw [toNat_readData hk]
  exact (ofLe_lt _).trans_le (Nat.pow_le_pow_right (by decide) (List.length_take_le k bs))

theorem readData_writeData {data : BitVec 64} (h : data.toNat < 256 ^ k) (rest : List UInt8) :
    readData k (writeData k data ++ rest) = data := by
  rw [readData, List.take_left' (length_writeData k data), writeData, ofLe_toLe_of_lt h]
  exact BitVec.ofNat_toNat 64 data |>.trans (BitVec.setWidth_eq data)

@[simp] theorem drop_writeData (k : Nat) (data : BitVec 64) (rest : List UInt8) :
    (writeData k data ++ rest).drop k = rest :=
  List.drop_left' (length_writeData k data)

theorem writeData_readData (hk : k ≤ 8) (hlen : bs.length = k) :
    writeData k (readData k bs) = bs := by
  rw [writeData, toNat_readData hk, List.take_of_length_le hlen.le, ← hlen, toLe_ofLe]

theorem mem_readValues_lt {r : BitVec 64} (hk : k ≤ 8) (h : r ∈ readValues k bs) :
    r.toNat < 256 ^ k := by
  obtain ⟨c, -, rfl⟩ := List.mem_map.mp h
  exact readData_lt hk

theorem writeValues_readValues (hk : k ≤ 8) (hdvd : k ∣ bs.length) :
    writeValues k (readValues k bs) = bs := by
  have hlen : bs.length = bs.length / k * k := (Nat.div_mul_cancel hdvd).symm
  have hback : (chunks k (bs.length / k) bs).map (writeData k ∘ readData k) =
      (chunks k (bs.length / k) bs).map id := by
    apply List.map_congr_left
    intro c hc
    exact writeData_readData hk (length_of_mem_chunks hlen hc)
  rw [writeValues, readValues, List.flatMap_map, List.flatMap_def]
  show ((chunks k (bs.length / k) bs).map (writeData k ∘ readData k)).flatten = bs
  rw [hback, List.map_id, flatten_chunks k _ bs hlen]

@[simp] theorem length_writeValues (k : Nat) (vs : List (BitVec 64)) :
    (writeValues k vs).length = vs.length * k := by
  induction vs with
  | nil => simp [writeValues]
  | cons v vs ih =>
    rw [writeValues, List.flatMap_cons, List.length_append, length_writeData]
    rw [writeValues] at ih
    rw [ih, List.length_cons, Nat.succ_mul, Nat.add_comm]

theorem length_readValues (k : Nat) (bs : List UInt8) :
    (readValues k bs).length = bs.length / k := by
  rw [readValues, List.length_map]
  generalize bs.length / k = n
  induction n generalizing bs with
  | zero => rfl
  | succ n ih => rw [chunks, List.length_cons, ih]

theorem readValues_writeValues (hk : 0 < k) {vs : List (BitVec 64)}
    (h : ∀ v ∈ vs, v.toNat < 256 ^ k) : readValues k (writeValues k vs) = vs := by
  rw [readValues, length_writeValues, Nat.mul_div_cancel _ hk, writeValues,
    chunks_flatMap k (writeData k) vs (fun v _ => length_writeData k v), List.map_map]
  conv_rhs => rw [← List.map_id vs]
  apply List.map_congr_left
  intro v hv
  have hread := readData_writeData (h v hv) []
  rwa [List.append_nil] at hread

/-! ## Signed values -/

/-- The low `size` bytes as an integer with sign. -/
def signExtendData (size : Nat) (data : BitVec 64) : BitVec 64 :=
  (data.setWidth (8 * size)).signExtend 64

/-- `ConvertToInt64Data` -/
def convertToInt64Data (inBuf : List UInt8) (eachValSize : Nat) : BitVec 64 :=
  signExtendData eachValSize (readData eachValSize inBuf)

/-- `Int64DataConvertTo` -/
def int64DataConvertTo (inVal : BitVec 64) (eachValSize : Nat) : List UInt8 :=
  writeData eachValSize inVal

theorem setWidth_signExtendData (hk : k ≤ 8) (data : BitVec 64) :
    (signExtendData k data).setWidth (8 * k) = data.setWidth (8 * k) := by
  apply BitVec.eq_of_getLsbD_eq
  intro i hi
  have hword : i < 64 := by omega
  rw [BitVec.getLsbD_setWidth, signExtendData, BitVec.getLsbD_signExtend, if_pos hi]
  simp [hi, hword]

theorem setWidth_eq_iff {a b : BitVec 64} :
    a.setWidth (8 * k) = b.setWidth (8 * k) ↔ a.toNat % 256 ^ k = b.toNat % 256 ^ k := by
  have hpow : (256 : Nat) ^ k = 2 ^ (8 * k) := by rw [Nat.pow_mul]
  rw [← BitVec.toNat_inj, BitVec.toNat_setWidth, BitVec.toNat_setWidth, hpow]

theorem signExtendData_mod (hk : k ≤ 8) (data : BitVec 64) :
    (signExtendData k data).toNat % 256 ^ k = data.toNat % 256 ^ k :=
  setWidth_eq_iff.mp (setWidth_signExtendData hk data)

theorem writeData_signExtendData (hk : k ≤ 8) (data : BitVec 64) :
    writeData k (signExtendData k data) = writeData k data :=
  toLe_congr (signExtendData_mod hk data)

/-- A value of the C integer type of `k` bytes. -/
def Representable (k : Nat) (data : BitVec 64) : Prop :=
  signExtendData k data = data

theorem representable_signExtendData (hk : k ≤ 8) (data : BitVec 64) :
    Representable k (signExtendData k data) := by
  rw [Representable]
  conv_lhs => rw [signExtendData, setWidth_signExtendData hk]
  rfl

theorem convertToInt64Data_int64DataConvertTo {v : BitVec 64} (hk : k ≤ 8) (hv : Representable k v)
    (rest : List UInt8) : convertToInt64Data (int64DataConvertTo v k ++ rest) k = v := by
  have hlow : (readData k (writeData k v ++ rest)).toNat % 256 ^ k = v.toNat % 256 ^ k := by
    rw [toNat_readData hk, List.take_left' (length_writeData k v), writeData, ofLe_toLe,
      Nat.mod_mod]
  rw [convertToInt64Data, int64DataConvertTo, signExtendData, setWidth_eq_iff.mpr hlow]
  exact hv

/-- The body of the loop of `ComputeMinMaxVal`. -/
def widenMinMax (bounds : BitVec 64 × BitVec 64) (val : BitVec 64) : BitVec 64 × BitVec 64 :=
  if val.slt bounds.1 then (val, bounds.2)
  else if bounds.2.slt val then (bounds.1, val)
  else bounds

/-- `ComputeIntMinMaxVal`; the buffer holds at least one value. -/
def computeIntMinMaxVal (inBuf : List UInt8) (eachValSize : Nat) : BitVec 64 × BitVec 64 :=
  let vals := (readValues eachValSize inBuf).map (signExtendData eachValSize)
  vals.tail.foldl widenMinMax (vals.headD 0, vals.headD 0)

/-- `vals` lie between the bounds, as signed integers, and the bounds are values of `all`. -/
structure Bounded (all vals : List (BitVec 64)) (bounds : BitVec 64 × BitVec 64) : Prop where
  le : bounds.1.toInt ≤ bounds.2.toInt
  min_le : ∀ v ∈ vals, bounds.1.toInt ≤ v.toInt
  le_max : ∀ v ∈ vals, v.toInt ≤ bounds.2.toInt
  min_mem : bounds.1 ∈ all
  max_mem : bounds.2 ∈ all

theorem Bounded.widen {all vals : List (BitVec 64)} {bounds : BitVec 64 × BitVec 64}
    {v : BitVec 64} (h : Bounded all vals bounds) (hv : v ∈ all) :
    Bounded all (v :: vals) (widenMinMax bounds v) := by
  have hle := h.le
  unfold widenMinMax
  split
  · rename_i hlt
    rw [BitVec.slt_iff_toInt_lt] at hlt
    refine ⟨by simpa using by omega, ?_, ?_, hv, h.max_mem⟩
    · exact List.forall_mem_cons.mpr ⟨Int.le_refl _, fun u hu => hlt.le.trans (h.min_le u hu)⟩
    · exact List.forall_mem_cons.mpr ⟨hlt.le.trans hle, h.le_max⟩
  rename_i hge
  rw [BitVec.slt_iff_toInt_lt] at hge
  split
  · rename_i hlt
    rw [BitVec.slt_iff_toInt_lt] at hlt
    refine ⟨by simpa using by omega, ?_, ?_, h.min_mem, hv⟩
    · exact List.forall_mem_cons.mpr ⟨Int.not_lt.mp hge, h.min_le⟩
    · exact List.forall_mem_cons.mpr ⟨Int.le_refl _, fun u hu => (h.le_max u hu).trans hlt.le⟩
  · rename_i hle'
    rw [BitVec.slt_iff_toInt_lt] at hle'
    refine ⟨hle, ?_, ?_, h.min_mem, h.max_mem⟩
    · exact List.forall_mem_cons.mpr ⟨Int.not_lt.mp hge, h.min_le⟩
    · exact List.forall_mem_cons.mpr ⟨Int.not_lt.mp hle', h.le_max⟩

theorem Bounded.foldl {all : List (BitVec 64)} : ∀ {vals seen : List (BitVec 64)}
    {bounds : BitVec 64 × BitVec 64}, Bounded all seen bounds → (∀ v ∈ vals, v ∈ all) →
      Bounded all (vals.reverse ++ seen) (vals.foldl widenMinMax bounds)
  | [], _, _, h, _ => h
  | v :: vals, seen, bounds, h, hall => by
    have hstep := h.widen (hall v (.head _))
    have hrest := hstep.foldl fun u hu => hall u (.tail _ hu)
    rw [List.foldl_cons, List.reverse_cons, List.append_assoc]
    exact hrest

theorem computeIntMinMaxVal_bounded (hk : 0 < k) (hlen : k ≤ bs.length) :
    Bounded ((readValues k bs).map (signExtendData k)) ((readValues k bs).map (signExtendData k))
      (computeIntMinMaxVal bs k) := by
  have hne : (readValues k bs).map (signExtendData k) ≠ [] := by
    rw [← List.length_pos_iff, List.length_map, length_readValues]
    exact Nat.div_pos hlen hk
  rw [computeIntMinMaxVal]
  generalize (readValues k bs).map (signExtendData k) = vals at hne ⊢
  match vals, hne with
  | v :: vs, _ =>
    have hfirst : Bounded (v :: vs) [v] (v, v) :=
      ⟨Int.le_refl _, by simp, by simp, .head _, .head _⟩
    have hall := hfirst.foldl fun u (hu : u ∈ vs) => .tail _ hu
    have hmem : ∀ u ∈ v :: vs, u ∈ vs.reverse ++ [v] := by
      intro u hu
      simpa [or_comm] using hu
    exact ⟨hall.le, fun u hu => hall.min_le u (hmem u hu), fun u hu => hall.le_max u (hmem u hu),
      hall.min_mem, hall.max_mem⟩

/-! ## The delta coder -/

/-- The walk over the masks of `DeltaGetBytesNum`, from byte `i` of the difference down to
the highest one that is not zero. -/
def highestByte (diff : Nat) : Nat → Nat
  | 0 => 1
  | i + 1 => if diff / 256 ^ (i + 1) % 256 = 0 then highestByte diff i else i + 2

/-- `DeltaGetBytesNum` -/
def deltaGetBytesNum (mindata maxdata : BitVec 64) : Nat :=
  let diff := (maxdata - mindata).toNat
  if diff = 0 ∨ diff = 1 then 1 else highestByte diff 7

/-- `DeltaCoder::doDeltaOperation` -/
def doDeltaOperation (plusDelta : Bool) (inValSize outValSize : Nat) (mindata : BitVec 64)
    (inbuf : List UInt8) : List UInt8 :=
  writeValues outValSize ((readValues inValSize inbuf).map fun rdata =>
    if plusDelta then rdata + mindata else rdata - mindata)

theorem highestByte_pos (diff i : Nat) : 0 < highestByte diff i := by
  induction i with
  | zero => exact Nat.one_pos
  | succ i ih =>
    rw [highestByte]
    split
    · exact ih
    · omega

theorem lt_highestByte {diff i : Nat} (h : diff < 256 ^ (i + 1)) :
    diff < 256 ^ highestByte diff i := by
  induction i with
  | zero => exact h
  | succ i ih =>
    have hpos : 0 < 256 ^ (i + 1) := Nat.pow_pos Nat.succ_pos'
    rw [highestByte]
    split
    · rename_i hzero
      -- the byte above the rest is the quotient, and it is zero
      have hquot : diff / 256 ^ (i + 1) < 256 := by
        rw [Nat.div_lt_iff_lt_mul hpos, Nat.mul_comm, ← Nat.pow_succ]
        exact h
      rw [Nat.mod_eq_of_lt hquot] at hzero
      exact ih (Nat.lt_of_div_eq_zero hpos hzero)
    · exact h

theorem deltaGetBytesNum_pos (mindata maxdata : BitVec 64) :
    0 < deltaGetBytesNum mindata maxdata := by
  unfold deltaGetBytesNum
  dsimp only
  split
  · exact Nat.one_pos
  · exact highestByte_pos _ _

theorem lt_deltaGetBytesNum (mindata maxdata : BitVec 64) :
    (maxdata - mindata).toNat < 256 ^ deltaGetBytesNum mindata maxdata := by
  unfold deltaGetBytesNum
  dsimp only
  split
  · rename_i h
    rcases h with h | h
    · rw [h]; decide
    · rw [h]; decide
  · exact lt_highestByte ((maxdata - mindata).isLt.trans_le (by decide))

/-- Between signed bounds the unsigned difference to the lower one is at most theirs. -/
theorem toNat_sub_le {min max s : BitVec 64} (hmin : min.toInt ≤ s.toInt)
    (hmax : s.toInt ≤ max.toInt) : (s - min).toNat ≤ (max - min).toNat := by
  have hs := s.isLt
  have hm := min.isLt
  have hM := max.isLt
  rw [BitVec.toInt_eq_toNat_cond, BitVec.toInt_eq_toNat_cond] at hmin hmax
  rw [BitVec.toNat_sub, BitVec.toNat_sub]
  split at hmin <;> split at hmin <;> split at hmax <;> omega

theorem writeData_sub_congr (hk : k ≤ 8) {a b : BitVec 64} (mindata : BitVec 64)
    (h : a.toNat % 256 ^ k = b.toNat % 256 ^ k) :
    writeData k (a - mindata) = writeData k (b - mindata) := by
  apply toLe_congr
  rw [BitVec.toNat_sub, BitVec.toNat_sub, Nat.mod_mod_of_dvd _ (pow_dvd_word hk),
    Nat.mod_mod_of_dvd _ (pow_dvd_word hk)]
  exact Nat.ModEq.add_left _ h

/-- With bounds on the values, what the delta coder writes it reads back, although it
subtracts from values without sign and keeps the low bytes. -/
theorem doDeltaOperation_inverts {inSize : Nat} {min max : BitVec 64} (hsize : inSize ≤ 8)
    (hdvd : inSize ∣ bs.length) (hlt : deltaGetBytesNum min max < inSize)
    (hmin : ∀ r ∈ readValues inSize bs, min.toInt ≤ (signExtendData inSize r).toInt)
    (hmax : ∀ r ∈ readValues inSize bs, (signExtendData inSize r).toInt ≤ max.toInt) :
    doDeltaOperation true (deltaGetBytesNum min max) inSize min
      (doDeltaOperation false inSize (deltaGetBytesNum min max) min bs) = bs := by
  set bytes := deltaGetBytesNum min max
  have hk : bytes ≤ 8 := by omega
  have hpow : 256 ^ bytes ∣ 256 ^ inSize := Nat.pow_dvd_pow 256 hlt.le
  -- the bytes written are those of the differences of the signed values
  have hwrite : doDeltaOperation false inSize bytes min bs =
      writeValues bytes
        ((readValues inSize bs).map fun r => signExtendData inSize r - min) := by
    simp only [doDeltaOperation, writeValues, List.flatMap_map, Bool.false_eq_true, if_false]
    apply List.flatMap_congr
    intro r _
    apply writeData_sub_congr hk
    have hmod := congrArg (· % 256 ^ bytes) (signExtendData_mod hsize r)
    simp only [Nat.mod_mod_of_dvd _ hpow] at hmod
    exact hmod.symm
  have hfit : ∀ v ∈ (readValues inSize bs).map fun r => signExtendData inSize r - min,
      v.toNat < 256 ^ bytes := by
    intro v hv
    obtain ⟨r, hr, rfl⟩ := List.mem_map.mp hv
    exact (toNat_sub_le (hmin r hr) (hmax r hr)).trans_lt (lt_deltaGetBytesNum min max)
  rw [hwrite, doDeltaOperation, readValues_writeValues (deltaGetBytesNum_pos min max) hfit,
    List.map_map]
  calc writeValues inSize ((readValues inSize bs).map
          ((fun rdata => if true = true then rdata + min else rdata - min) ∘
            fun r => signExtendData inSize r - min))
      = writeValues inSize (readValues inSize bs) := by
        simp only [writeValues, List.flatMap_map]
        apply List.flatMap_congr
        intro r _
        simp only [Function.comp_apply, if_true, BitVec.sub_add_cancel]
        exact writeData_signExtendData hsize r
    _ = bs := writeValues_readValues hsize hdvd

theorem length_doDeltaOperation (plusDelta : Bool) (inSize outSize : Nat) (m : BitVec 64)
    (bs : List UInt8) :
    (doDeltaOperation plusDelta inSize outSize m bs).length = bs.length / inSize * outSize := by
  rw [doDeltaOperation, length_writeValues, List.length_map, length_readValues]

end OpenGauss.CStore
