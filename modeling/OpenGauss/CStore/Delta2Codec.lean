import OpenGauss.CStore.CompressKits

/-!
# Delta-of-delta coding of timestamps

The first value is stored as it is, then the first difference, then differences of
differences. Each is written behind a key byte with its sign and its width. Differences are
taken modulo `2 ^ 64`, so no sequence of values overflows the code.
-/

namespace OpenGauss.CStore

open Lib

/-- An entry of `g_keyMap`: magnitudes above `min` and up to `max` take `byteLen` bytes. -/
structure Delta2KeyMap where
  min : Nat
  max : Nat
  byteLen : Nat

/-- `g_keyMap[]` -/
def keyMap : Nat → Delta2KeyMap
  | 0 => ⟨0, 0, 0⟩
  | 1 => ⟨0, 0xFF, 1⟩
  | 2 => ⟨0xFF, 0xFFFF, 2⟩
  | 3 => ⟨0xFFFF, 0xFFFFFF, 3⟩
  | 4 => ⟨0xFFFFFF, 0xFFFFFFFF, 4⟩
  | 5 => ⟨0xFFFFFFFF, 0xFFFFFFFFFF, 5⟩
  | 6 => ⟨0xFFFFFFFFFF, 0xFFFFFFFFFFFF, 6⟩
  | 7 => ⟨0xFFFFFFFFFFFF, 0xFFFFFFFFFFFFFF, 7⟩
  | _ => ⟨0xFFFFFFFFFFFFFF, 0x7FFFFFFFFFFFFFFF, 8⟩

/-- `DELTA2_KEY_MAX` -/
def delta2KeyMax : Nat := 8

def Delta2KeyMap.inRange (entry : Delta2KeyMap) (value : BitVec 64) : Bool :=
  value.toInt ≤ entry.max ∧ entry.min < value.toInt

/-- The loop of `find_key`. The index is an unsigned short: below zero it wraps and the loop
ends. `none` if it has not ended after `fuel` rounds. -/
def findKeyLoop (value : BitVec 64) : Nat → Nat → Option Nat
  | 0, _ => none
  | fuel + 1, index =>
    if index < delta2KeyMax then
      if (keyMap index).inRange value || (keyMap index).inRange (-value) then
        some (index + if value.toInt ≤ 0 then 0 else delta2KeyMax)
      else if (keyMap index).max < value.toInt ∨ (keyMap index).max < (-value).toInt then
        findKeyLoop value fuel (index + 1)
      else findKeyLoop value fuel ((index + 0xFFFF) % 0x10000)
    else some delta2KeyMax

variable (value : BitVec 64)

/-- `find_key` -/
def findKey : Nat :=
  (findKeyLoop value 9 (delta2KeyMax / 2)).getD delta2KeyMax

/-- `Delta2Codec::write_value` -/
def writeValue : List UInt8 :=
  if value = 0 then [0]
  else
    let key := findKey value
    if key = delta2KeyMax then
      UInt8.ofNat key :: writeData (keyMap delta2KeyMax).byteLen value
    else
      let tmp := if key &&& 0x8 = 0 then -value else value
      UInt8.ofNat key :: writeData (keyMap (key &&& 0x7)).byteLen
        (BitVec.ofNat 64 (keyMap (key &&& 0x7)).max &&& tmp)

/-- `Delta2Codec::read_value`, with the input that is left. -/
def readValue (inbuf : List UInt8) : BitVec 64 × List UInt8 :=
  let key := (inbuf.headD 0).toNat
  let rest := inbuf.drop 1
  if key = 0 then (0, rest)
  else if key = delta2KeyMax then (readData 8 rest, rest.drop 8)
  else
    let tmp := readData (key &&& 0x7) rest
    (if key &&& 0x8 = 0 then -tmp else tmp, rest.drop (key &&& 0x7))

/-- The variables of the loops: what `count` says, `pre_data` and `pre_delta`. -/
inductive Delta2State
  | first
  | second (preData : BitVec 64)
  | later (preData preDelta : BitVec 64)

namespace Delta2State

/-- What the loop of `compress` writes for `read_data`. -/
def write (dataSize : Nat) : Delta2State → BitVec 64 → List UInt8
  | first, readData => writeData dataSize readData
  | second preData, readData => writeValue (readData - preData)
  | later preData preDelta, readData => writeValue ((readData - preData) - preDelta)

def next : Delta2State → BitVec 64 → Delta2State
  | first, readData => second readData
  | second preData, readData => later readData (readData - preData)
  | later preData preDelta, readData =>
    later readData (preDelta + ((readData - preData) - preDelta))

/-- A round of the loop of `decompress`. -/
def read (dataSize : Nat) : Delta2State → List UInt8 → List UInt8 × Delta2State × List UInt8
  | first, inbuf =>
    let data := readData dataSize inbuf
    (writeData dataSize data, second data, inbuf.drop dataSize)
  | second preData, inbuf =>
    let preDelta := (readValue inbuf).1
    (writeData dataSize (preData + preDelta), later (preData + preDelta) preDelta,
      (readValue inbuf).2)
  | later preData preDelta, inbuf =>
    let delta2 := (readValue inbuf).1
    (writeData dataSize (preData + (preDelta + delta2)),
      later (preData + (preDelta + delta2)) (preDelta + delta2), (readValue inbuf).2)

end Delta2State

/-- `Delta2Codec::compress` -/
def delta2Compress (dataSize : Nat) (inbuf : List UInt8) : List UInt8 :=
  encodeAll (Delta2State.write dataSize) Delta2State.next .first (readValues dataSize inbuf)

/-- `Delta2Codec::decompress` -/
def delta2Decompress (dataSize : Nat) (inbuf : List UInt8) : List UInt8 :=
  decodeLoop 1 (Delta2State.read dataSize) inbuf.length .first inbuf

/-! ## Keys -/

variable {i : Nat}

theorem keyMap_max (hi : i < 8) : (keyMap i).max = 2 ^ (8 * i) - 1 := by
  interval_cases i <;> rfl

theorem keyMap_min_succ (hi : i < 8) : (keyMap (i + 1)).min = (keyMap i).max := by
  interval_cases i <;> rfl

theorem keyMap_byteLen (hpos : 0 < i) (hi : i < 8) : (keyMap i).byteLen = i := by
  interval_cases i <;> rfl

/-- With a value above the range the walk goes up to the end of the table at most. -/
theorem findKeyLoop_up (value : BitVec 64) : ∀ {fuel i : Nat}, i ≤ 8 → 8 - i < fuel →
    (((keyMap i).min : Int) < value.toInt ∨ ((keyMap i).min : Int) < (-value).toInt) →
      findKeyLoop value fuel i ≠ none
  | 0, _, _, hfuel, _ => nomatch hfuel
  | fuel + 1, i, hi, hfuel, habove => by
    rw [findKeyLoop]
    split
    · rename_i hlt
      have hlt : i < 8 := hlt
      split
      · exact Option.some_ne_none _
      rename_i hrange
      split
      · rename_i hup
        apply findKeyLoop_up value (by omega) (by omega)
        rw [keyMap_min_succ hlt]
        exact hup
      · rename_i hup
        simp only [Delta2KeyMap.inRange, Bool.or_eq_true, decide_eq_true_eq] at hrange
        omega
    · exact Option.some_ne_none _

/-- With a value at most the upper end it goes down, past the start of the table for 0 and
for the least integer, which is its own negative. -/
theorem findKeyLoop_down (value : BitVec 64) : ∀ {i fuel : Nat}, i < 8 → i + 1 < fuel →
    value.toInt ≤ (keyMap i).max → (-value).toInt ≤ (keyMap i).max → findKeyLoop value fuel i ≠ none
  | _, 0, _, hfuel, _, _ => nomatch hfuel
  | i, fuel + 1, hi, hfuel, hle, hnle => by
    rw [findKeyLoop, if_pos (show i < delta2KeyMax from hi)]
    split
    · exact Option.some_ne_none _
    rename_i hrange
    rw [if_neg (by omega)]
    simp only [Delta2KeyMap.inRange, Bool.or_eq_true, decide_eq_true_eq] at hrange
    cases i with
    | zero =>
      obtain ⟨fuel, rfl⟩ : ∃ n, fuel = n + 1 := ⟨fuel - 1, by omega⟩
      rw [findKeyLoop, if_neg (by decide)]
      exact Option.some_ne_none _
    | succ i =>
      have hwrap : (i + 1 + 0xFFFF) % 0x10000 = i := by omega
      have hmin := keyMap_min_succ (i := i) (by omega)
      rw [hwrap]
      apply findKeyLoop_down value (by omega) (by omega) <;> omega

theorem findKeyLoop_ne_none : findKeyLoop value 9 (delta2KeyMax / 2) ≠ none := by
  show findKeyLoop value 9 4 ≠ none
  by_cases habove : ((keyMap 4).min : Int) < value.toInt ∨ ((keyMap 4).min : Int) < (-value).toInt
  · exact findKeyLoop_up value (by decide) (by decide) habove
  · have hle : ((keyMap 4).min : Int) ≤ (keyMap 4).max := by decide
    apply findKeyLoop_down value (by decide) (by decide) <;> omega

inductive KeyOk (value : BitVec 64) : Nat → Prop
  | whole : KeyOk value delta2KeyMax
  | neg {i : Nat} (hpos : 0 < i) (hi : i < 8) (hfit : (-value).toNat < 2 ^ (8 * i)) : KeyOk value i
  | pos {i : Nat} (hpos : 0 < i) (hi : i < 8) (hfit : value.toNat < 2 ^ (8 * i)) :
    KeyOk value (i + 8)

theorem inRange_iff (hi : i < 8) {v : BitVec 64} (h : (keyMap i).inRange v = true) :
    0 < i ∧ 0 < v.toInt ∧ v.toNat < 2 ^ (8 * i) := by
  have hmax := keyMap_max hi
  have hpow : 0 < 2 ^ (8 * i) := Nat.two_pow_pos _
  simp only [Delta2KeyMap.inRange, decide_eq_true_eq] at h
  have hpos : 0 < v.toInt := by omega
  have hnat : v.toInt = v.toNat := by
    rw [BitVec.toInt_eq_toNat_cond] at hpos ⊢
    have hlt := v.isLt
    split at hpos
    · rename_i hsmall
      rw [if_pos hsmall]
    · omega
  refine ⟨?_, hpos, by omega⟩
  rcases Nat.eq_zero_or_pos i with rfl | hi
  · omega
  · exact hi

theorem findKeyLoop_ok (value : BitVec 64) : ∀ {fuel i key : Nat},
    findKeyLoop value fuel i = some key → KeyOk value key
  | 0, _, _, h => by cases h
  | fuel + 1, i, key, h => by
    rw [findKeyLoop] at h
    split at h
    · rename_i hlt
      have hlt : i < 8 := hlt
      split at h
      · rename_i hrange
        rw [← Option.some.inj h]
        rcases Bool.or_eq_true_iff.mp hrange with hval | hneg
        · obtain ⟨hpos, hsign, hfit⟩ := inRange_iff hlt hval
          rw [if_neg (by omega)]
          exact .pos hpos hlt hfit
        obtain ⟨hpos, hsign, hfit⟩ := inRange_iff hlt hneg
        have hvalue : value.toInt ≤ 0 := by
          have hlt := value.isLt
          rw [BitVec.toInt_eq_toNat_cond] at hsign ⊢
          rw [BitVec.toNat_neg] at hsign
          split at hsign
          · split
            · omega
            · omega
          · omega
        rw [if_pos hvalue]
        exact .neg hpos hlt hfit
      · split at h
        · exact findKeyLoop_ok value h
        · exact findKeyLoop_ok value h
    · rw [← Option.some.inj h]
      exact .whole

theorem findKey_ok : KeyOk value (findKey value) := by
  cases h : findKeyLoop value 9 (delta2KeyMax / 2) with
  | none => exact absurd h (findKeyLoop_ne_none value)
  | some key =>
    rw [findKey, h]
    exact findKeyLoop_ok value h

/-! ## Round trip -/

theorem key_bits (hpos : 0 < i) (hi : i < 8) :
    (i &&& 0x8 = 0 ∧ i &&& 0x7 = i) ∧ (i + 8) &&& 0x8 ≠ 0 ∧ (i + 8) &&& 0x7 = i := by
  interval_cases i <;> decide

theorem mask_and (hi : i < 8) {v : BitVec 64} (hfit : v.toNat < 2 ^ (8 * i)) :
    BitVec.ofNat 64 (keyMap i).max &&& v = v := by
  apply BitVec.eq_of_toNat_eq
  have hword : (keyMap i).max < 2 ^ 64 := by interval_cases i <;> decide
  rw [BitVec.toNat_and, BitVec.toNat_ofNat, Nat.mod_eq_of_lt hword, keyMap_max hi, Nat.and_comm,
    Nat.and_two_pow_sub_one_eq_mod, Nat.mod_eq_of_lt hfit]

theorem readValue_writeValue (rest : List UInt8) :
    readValue (writeValue value ++ rest) = (value, rest) := by
  have hpow : ∀ i, (256 : Nat) ^ i = 2 ^ (8 * i) := fun i => by rw [Nat.pow_mul]
  rw [writeValue]
  split
  · rename_i hzero
    rw [hzero]
    rfl
  have hok := findKey_ok value
  dsimp only
  generalize findKey value = key at hok ⊢
  cases hok with
  | whole =>
    rw [if_pos rfl]
    have hfit : value.toNat < 256 ^ 8 := by
      rw [hpow]
      exact value.isLt
    show (readData 8 (writeData 8 value ++ rest), (writeData 8 value ++ rest).drop 8) = _
    rw [readData_writeData hfit, drop_writeData]
  | @neg _ hpos hi hfit =>
    obtain ⟨⟨hsign, hlen⟩, -, -⟩ := key_bits hpos hi
    have hne : key ≠ delta2KeyMax := Nat.ne_of_lt hi
    have hbyte : (UInt8.ofNat key).toNat = key := by
      rw [UInt8.toNat_ofNat', Nat.mod_eq_of_lt (by omega)]
    rw [if_neg hne, if_pos hsign, hlen, mask_and hi hfit, keyMap_byteLen hpos hi]
    unfold readValue
    simp only [List.cons_append, List.headD_cons, List.drop_succ_cons, List.drop_zero, hbyte]
    rw [if_neg (Nat.ne_of_gt hpos), if_neg hne, if_pos hsign, hlen,
      readData_writeData (by rw [hpow]; exact hfit), drop_writeData, BitVec.neg_neg]
  | @pos i hpos hi hfit =>
    obtain ⟨-, hsign, hlen⟩ := key_bits hpos hi
    have hne : i + 8 ≠ delta2KeyMax := by
      show i + 8 ≠ 8
      omega
    have hbyte : (UInt8.ofNat (i + 8)).toNat = i + 8 := by
      rw [UInt8.toNat_ofNat', Nat.mod_eq_of_lt (by omega)]
    rw [if_neg hne, if_neg hsign, hlen, mask_and hi hfit, keyMap_byteLen hpos hi]
    unfold readValue
    simp only [List.cons_append, List.headD_cons, List.drop_succ_cons, List.drop_zero, hbyte]
    rw [if_neg (by omega), if_neg hne, if_neg hsign, hlen,
      readData_writeData (by rw [hpow]; exact hfit), drop_writeData]

theorem length_writeValue_pos : 1 ≤ (writeValue value).length := by
  rw [writeValue]
  split
  · exact Nat.le_refl 1
  · dsimp only
    split <;> simp

variable {dataSize : Nat}

theorem delta2_stepInverts (hpos : 0 < dataSize) :
    StepInverts (fun _ (v : BitVec 64) => v.toNat < 256 ^ dataSize)
      (Delta2State.write dataSize) Delta2State.next 1 (Delta2State.read dataSize)
      (fun _ v => writeData dataSize v) where
  pos := Nat.one_pos
  length := by
    intro s v _
    cases s with
    | first =>
      rw [Delta2State.write, length_writeData]
      exact hpos
    | second | later => exact length_writeValue_pos _
  step := by
    intro s v rest hv
    cases s with
    | first =>
      simp only [Delta2State.write, Delta2State.read, Delta2State.next]
      rw [readData_writeData hv, drop_writeData]
    | second preData =>
      have hback : preData + (v - preData) = v := by
        rw [BitVec.add_comm, BitVec.sub_add_cancel]
      simp only [Delta2State.write, Delta2State.read, Delta2State.next, readValue_writeValue, hback]
    | later preData preDelta =>
      have hdelta : preDelta + (v - preData - preDelta) = v - preData := by
        rw [BitVec.add_comm, BitVec.sub_add_cancel]
      have hback : preData + (v - preData) = v := by
        rw [BitVec.add_comm, BitVec.sub_add_cancel]
      simp only [Delta2State.write, Delta2State.read, Delta2State.next, readValue_writeValue,
        hdelta, hback]

/-- Any values of one to eight bytes come back. -/
theorem delta2Decompress_compress {bs : List UInt8} (hpos : 0 < dataSize)
    (hle : dataSize ≤ 8) (hne : bs ≠ []) (hdvd : dataSize ∣ bs.length) :
    delta2Decompress dataSize (delta2Compress dataSize bs) = bs := by
  have hvalues : readValues dataSize bs ≠ [] := by
    rw [← List.length_pos_iff, length_readValues]
    exact Nat.div_pos (Nat.le_of_dvd (List.length_pos_iff.mpr hne) hdvd) hpos
  have hok : AllOk (fun _ (v : BitVec 64) => v.toNat < 256 ^ dataSize) Delta2State.next .first
      (readValues dataSize bs) := allOk_of_forall fun v hv => mem_readValues_lt hle hv
  have hinv := delta2_stepInverts hpos
  rw [delta2Decompress, delta2Compress,
    (hinv.decode_encodeAll hvalues hok (hinv.length_le hok)).1, encodeAll_const]
  exact writeValues_readValues hle hdvd

end OpenGauss.CStore
