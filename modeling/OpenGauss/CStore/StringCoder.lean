import OpenGauss.CStore.IntegerCoder
import OpenGauss.CStore.DicCoder

/-!
# The string codec of the column store

The dictionary branch writes the dictionary and behind it the codes, which go through the
integer codec with the bounds 0 and the greatest code. Otherwise the values go through LZ4
or zlib as they are.
-/

namespace OpenGauss.CStore

open Lib
open BitVec (ofNat toNat_setWidth)

variable {codes : List Nat}

/-- `DicCodeType` codes in a buffer. -/
def writeCodes (codes : List Nat) : List UInt8 :=
  writeValues 2 (codes.map (ofNat 64))

def readCodes (buf : List UInt8) : List Nat :=
  (readValues 2 buf).map BitVec.toNat

/-- `DictHeader` -/
def dictHeader (totalSize itemsCount : Nat) : List UInt8 :=
  toLe 4 totalSize ++ toLe 4 itemsCount

/-- `m_adopt_rle` and `m_adopt_dict` -/
structure StringCoder where
  adoptRle : Bool
  adoptDict : Bool

namespace StringCoder

variable (lz4 zlib : ByteCodec) (hash : List UInt8 → Nat) (c : StringCoder)
  (compression : Compression) (level : Nat)

/-- `CompressNumbers`: the codes as they are if the integer codec saves nothing. -/
def compressNumbers (max : Nat) (codes : List UInt8) : List UInt8 × Modes :=
  (IntegerCoder.compress lz4 zlib ⟨2, c.adoptRle, some (0, ofNat 64 max)⟩ compression level
    codes).getD (codes, {})

/-- The dictionary branch of `CompressInner`. -/
def compressWithDict (inBuf : List UInt8) (numVals : Nat) : Option (List UInt8 × Modes) :=
  match dicCompress hash inBuf numVals with
  | none => none
  | some (codes, d) =>
    let dicCodeSize := numVals * 2
    let totalSize := dictHeaderSize + d.data.length
    if 0 < dicCodeSize ∧ dicCodeSize + totalSize < inBuf.length then
      let numbers := compressNumbers lz4 zlib c compression level (d.curItemCount - 1)
        (writeCodes codes)
      some (dictHeader totalSize d.curItemCount ++ (d.data ++ numbers.1),
        { numbers.2 with dic := true })
    else none

/-- `CompressWithoutDict`, with room for the result. -/
def compressWithoutDict (inBuf : List UInt8) : Option (List UInt8 × Modes) :=
  match compression with
  | .high =>
    let result := zlib.compress level inBuf
    if 0 < result.length ∧ result.length < inBuf.length then some (result, { zlib := true })
    else none
  | _ =>
    let result := lz4.compress level inBuf
    if 0 < result.length ∧ result.length < inBuf.length then some (result, { lz := true })
    else none

/-- `StringCoder::Compress` -/
def compress (useDict : Bool) (inBuf : List UInt8) (numVals : Nat) : Option (List UInt8 × Modes) :=
  if useDict && c.adoptDict then
    (compressWithDict lz4 zlib hash c compression level inBuf numVals).or
      (compressWithoutDict lz4 zlib compression level inBuf)
  else compressWithoutDict lz4 zlib compression level inBuf

/-- `StringCoder::Decompress` -/
def decompress (inBuf : List UInt8) (modes : Modes) : List UInt8 :=
  if modes.dic then
    let totalSize := ofLe (inBuf.take 4)
    let codes := IntegerCoder.decompress lz4 zlib 2 (inBuf.drop totalSize) modes
    dicDecompress (inBuf.drop dictHeaderSize) (totalSize - dictHeaderSize) (readCodes codes)
  else if modes.zlib then zlib.decompress inBuf
  else if modes.lz then lz4.decompress inBuf
  else []

/-! ## Codes -/

variable {lz4 zlib hash c compression level}

theorem toNat_code {code : Nat} (h : code < 0x10000) : (ofNat 64 code).toNat = code := by
  rw [BitVec.toNat_ofNat]
  exact Nat.mod_eq_of_lt (h.trans (by decide))

theorem readValues_writeCodes (h : ∀ code ∈ codes, code < 0x10000) :
    readValues 2 (writeCodes codes) = codes.map (ofNat 64) := by
  apply readValues_writeValues (by decide)
  intro v hv
  obtain ⟨code, hcode, rfl⟩ := List.mem_map.mp hv
  rw [toNat_code (h code hcode)]
  exact h code hcode

theorem readCodes_writeCodes (h : ∀ code ∈ codes, code < 0x10000) :
    readCodes (writeCodes codes) = codes := by
  rw [readCodes, readValues_writeCodes h, List.map_map]
  conv_rhs => rw [← List.map_id codes]
  apply List.map_congr_left
  intro code hcode
  exact toNat_code (h code hcode)

theorem signExtendData_of_small {v : BitVec 64} (h : v.toNat < 2 ^ 15) : signExtendData 2 v = v := by
  have hmod : v.toNat % 2 ^ (8 * 2) = v.toNat := Nat.mod_eq_of_lt (h.trans (by decide))
  have hmsb : (v.setWidth (8 * 2)).msb = false := by
    rw [BitVec.msb_eq_false_iff_two_mul_lt, toNat_setWidth, hmod]
    omega
  rw [signExtendData, BitVec.signExtend_eq_setWidth_of_msb_false hmsb]
  apply BitVec.eq_of_toNat_eq
  rw [toNat_setWidth, toNat_setWidth, hmod, Nat.mod_eq_of_lt v.isLt]

theorem toInt_of_small {v : BitVec 64} (h : v.toNat < 2 ^ 15) : v.toInt = v.toNat := by
  rw [BitVec.toInt_eq_toNat_cond, if_pos (by omega)]

/-- The bounds 0 and the greatest code are right whenever the codes are stored as deltas: the
greatest is below 256 then, so that it does not matter that it is written as a signed number. -/
theorem covers_codes {max : Nat} (hmax : max < 0x10000) (h : ∀ code ∈ codes, code ≤ max) :
    IntegerCoder.Covers 2 (writeCodes codes) (0, ofNat 64 max) := by
  set word := ofNat 64
  have hsmall : deltaGetBytesNum 0 (word max) < 2 → max < 256 := by
    intro hlt
    have hbytes := lt_deltaGetBytesNum 0 (word max)
    have hzero : word max - 0 = word max := BitVec.sub_zero _
    rw [hzero, toNat_code hmax] at hbytes
    exact hbytes.trans_le (Nat.pow_le_pow_right (by decide) (Nat.le_of_lt_succ hlt))
  have hvalue : ∀ r ∈ readValues 2 (writeCodes codes), ∃ code ≤ max, r = word code := by
    intro r hr
    rw [readValues_writeCodes fun code hcode => (h code hcode).trans_lt hmax] at hr
    obtain ⟨code, hcode, rfl⟩ := List.mem_map.mp hr
    exact ⟨code, h code hcode, rfl⟩
  have hint : ∀ code, code < 256 → (word code).toNat = code ∧
      (word code).toInt = code ∧
      signExtendData 2 (word code) = word code := by
    intro code hcode
    have hnat := toNat_code (hcode.trans (by decide))
    have hlt : (word code).toNat < 2 ^ 15 := by
      rw [hnat]
      exact hcode.trans (by decide)
    exact ⟨hnat, by rw [toInt_of_small hlt, hnat], signExtendData_of_small hlt⟩
  refine ⟨fun _ => (hint 0 (by decide)).2.2, fun hlt => (hint max (hsmall hlt)).2.2, ?_, ?_⟩
  · intro hlt r hr
    obtain ⟨code, hcode, rfl⟩ := hvalue r hr
    obtain ⟨-, hto, hsign⟩ := hint code (hcode.trans_lt (hsmall hlt))
    rw [hsign, hto]
    exact Int.natCast_nonneg code
  · intro hlt r hr
    obtain ⟨code, hcode, rfl⟩ := hvalue r hr
    obtain ⟨-, hto, hsign⟩ := hint code (hcode.trans_lt (hsmall hlt))
    rw [hsign, hto, (hint max (hsmall hlt)).2.1]
    exact Int.ofNat_le.mpr hcode

theorem decompress_compressNumbers (lz4 zlib : ByteCodec) (c : StringCoder)
    (compression : Compression) (level : Nat) {max : Nat} (hne : codes ≠ []) (hmax : max < 0x10000)
    (h : ∀ code ∈ codes, code ≤ max) :
    IntegerCoder.decompress lz4 zlib 2
      (compressNumbers lz4 zlib c compression level max (writeCodes codes)).1
      { (compressNumbers lz4 zlib c compression level max (writeCodes codes)).2 with dic := true } =
        writeCodes codes := by
  unfold compressNumbers
  cases hcompress : IntegerCoder.compress lz4 zlib ⟨2, c.adoptRle, some (0, ofNat 64 max)⟩
      compression level (writeCodes codes) with
  | none => rfl
  | some r =>
    have hlen : (writeCodes codes).length = codes.length * 2 := by
      rw [writeCodes, length_writeValues, List.length_map]
    have hpos := List.length_pos_iff.mpr hne
    obtain ⟨out, modes⟩ := r
    have hback : IntegerCoder.decompress lz4 zlib 2 out modes = writeCodes codes :=
      IntegerCoder.decompress_of_compress (c := ⟨2, c.adoptRle, some (0, ofNat 64 max)⟩)
        (Nat.succ_pos 1) (Nat.le_of_ble_eq_true rfl) (by rw [← List.length_pos_iff]; omega)
        (Dvd.intro_left _ hlen.symm) (covers_codes hmax h) hcompress
    exact hback

/-! ## Round trip -/

/-- What `DicCoder::Compress` has done: every code names the item its value is. -/
structure Coded (hash : List UInt8 → Nat) (vals items : List (List UInt8)) (codes : List Nat)
    (d : DictData) : Prop where
  inv : DictInv hash d items
  names : codes.map (fun code => items[code]?) = vals.map some

/-- The dictionary of up to 60000 values does not exhaust its 16-bit codes. -/
theorem init_inv (itemsMaxSize : Nat) {numVals : Nat} (h : numVals ≤ 60000) :
    DictInv hash (DictData.init itemsMaxSize (dictGetMaxNumber numVals)) [] := by
  apply DictInv.init (Nat.succ_pos _)
  show numVals / 4 + 1 < 0xFFFF
  omega

theorem coded_of_dicCompress {vals : List (List UInt8)} (hvals : ∀ v ∈ vals, IsVarlena v)
    (hlen : vals.length ≤ 60000) {d : DictData}
    (h : dicCompress hash vals.flatten vals.length = some (codes, d)) :
    ∃ items, Coded hash vals items codes d := by
  unfold dicCompress at h
  split at h
  · cases h
  rename_i r hloop
  split at h
  · cases h
    obtain ⟨items, -, hinv, hnames⟩ := DictInv.compressLoop (init_inv _ hlen) hvals hloop
    exact ⟨items, hinv, hnames⟩
  · cases h

section Coded

variable {vals items : List (List UInt8)} {codes : List Nat} {d : DictData}

theorem Coded.length_eq (h : Coded hash vals items codes d) : codes.length = vals.length := by
  have hlen := congrArg List.length h.names
  rwa [List.length_map, List.length_map] at hlen

theorem Coded.getElem? (h : Coded hash vals items codes d) (i : Nat) :
    codes[i]?.map (fun code => items[code]?) = vals[i]?.map some := by
  rw [← List.getElem?_map, ← List.getElem?_map, h.names]

theorem Coded.lt (h : Coded hash vals items codes d) : ∀ code ∈ codes, code < d.curItemCount := by
  intro code hcode
  have hmem : items[code]? ∈ vals.map some := by
    rw [← h.names]
    exact List.mem_map_of_mem hcode
  obtain ⟨v, -, hv⟩ := List.mem_map.mp hmem
  rw [h.inv.count]
  exact (List.getElem?_eq_some_iff.mp hv.symm).1

theorem Coded.code_eq_iff (h : Coded hash vals items codes d) {i j : Nat} (hi : i < vals.length)
    (hj : j < vals.length) : codes[i]? = codes[j]? ↔ vals[i]? = vals[j]? := by
  have hi' : i < codes.length := h.length_eq ▸ hi
  have hj' : j < codes.length := h.length_eq ▸ hj
  have hvi := h.getElem? i
  have hvj := h.getElem? j
  rw [List.getElem?_eq_getElem hi, List.getElem?_eq_getElem hi', Option.map_some,
    Option.map_some, Option.some.injEq] at hvi
  rw [List.getElem?_eq_getElem hj, List.getElem?_eq_getElem hj', Option.map_some,
    Option.map_some, Option.some.injEq] at hvj
  rw [List.getElem?_eq_getElem hi, List.getElem?_eq_getElem hj, List.getElem?_eq_getElem hi',
    List.getElem?_eq_getElem hj', Option.some.injEq]
  constructor
  · intro heq
    rw [← hvi, ← hvj, heq]
  · intro heq
    rw [← hvi, ← hvj] at heq
    have hlt : codes[i] < items.length := (List.getElem?_eq_some_iff.mp hvi).1
    exact (List.getElem?_inj hlt h.inv.nodup).mp heq

end Coded

theorem decompress_compressWithDict {vals : List (List UInt8)} {out : List UInt8} {modes : Modes}
    (hvals : ∀ v ∈ vals, IsVarlena v) (hlen : vals.length ≤ 60000)
    (hsize : vals.flatten.length < 2 ^ 31)
    (h : compressWithDict lz4 zlib hash c compression level vals.flatten vals.length =
      some (out, modes)) : decompress lz4 zlib out modes = vals.flatten := by
  unfold compressWithDict at h
  split at h
  · cases h
  rename_i codes d hdic
  obtain ⟨items, hcoded⟩ := coded_of_dicCompress hvals hlen hdic
  dsimp only at h
  split at h <;> cases h
  rename_i hfits
  have hcount := hcoded.inv.count_le
  have hmax := hcoded.inv.max_lt
  have hcur := hcoded.inv.count
  have hfree : freeHashSlot = 0xFFFF := rfl
  have hcodes : ∀ code ∈ codes, code ≤ d.curItemCount - 1 := by
    intro code hcode
    have hlt := hcoded.lt code hcode
    omega
  have hne : codes ≠ [] := by
    rw [← List.length_pos_iff, hcoded.length_eq]
    omega
  have hnumbers := decompress_compressNumbers lz4 zlib c compression level hne (by omega) hcodes
  have hword : dictHeaderSize + d.data.length < 256 ^ 4 := by omega
  have hheader : (dictHeader (dictHeaderSize + d.data.length) d.curItemCount).length =
      dictHeaderSize := by
    rw [dictHeader, List.length_append, length_toLe, length_toLe]
    rfl
  generalize compressNumbers lz4 zlib c compression level (d.curItemCount - 1)
    (writeCodes codes) = numbers at hnumbers ⊢
  have htotal : ofLe ((dictHeader (dictHeaderSize + d.data.length) d.curItemCount ++
      (d.data ++ numbers.1)).take 4) = dictHeaderSize + d.data.length := by
    rw [dictHeader, List.append_assoc, List.take_left' (length_toLe 4 _), ofLe_toLe_of_lt hword]
  simp only [decompress, if_true, htotal]
  rw [Nat.add_sub_cancel_left, List.drop_left' hheader, ← List.append_assoc, List.drop_left'
    (by rw [List.length_append, hheader]), hnumbers, readCodes_writeCodes, hcoded.inv.data]
  · apply dicDecompress_eq numbers.1 hcoded.inv.varlena _ hcoded.names
    rw [hcoded.length_eq]
    omega
  · intro code hcode
    have hle := hcodes code hcode
    omega

theorem decompress_compressWithoutDict {bs out : List UInt8} {modes : Modes}
    (h : compressWithoutDict lz4 zlib compression level bs = some (out, modes)) :
    decompress lz4 zlib out modes = bs := by
  unfold compressWithoutDict at h
  split at h
  · dsimp only at h
    split at h
    · rename_i hfits
      cases h
      exact zlib.inverts hfits.1
    · cases h
  · dsimp only at h
    split at h
    · rename_i hfits
      cases h
      exact lz4.inverts hfits.1
    · cases h

/-- For up to 60000 values of variable length in a buffer whose size is an `int`: what
`Compress` makes of the buffer `Decompress` turns back into it; the codes of the dictionary
are equal exactly for equal values and below the number of items; and from every dictionary
on the way no probe runs out of slots. -/
theorem stringCoder_roundTrip (lz4 zlib : ByteCodec) (hash : List UInt8 → Nat) (c : StringCoder)
    (compression : Compression) (level : Nat) (useDict : Bool) (vals : List (List UInt8))
    (hvals : ∀ v ∈ vals, IsVarlena v) (hlen : vals.length ≤ 60000)
    (hsize : vals.flatten.length < 2 ^ 31) :
    (∀ out modes, c.compress lz4 zlib hash compression level useDict vals.flatten vals.length =
        some (out, modes) → decompress lz4 zlib out modes = vals.flatten) ∧
      (∀ codes d, dicCompress hash vals.flatten vals.length = some (codes, d) →
        codes.length = vals.length ∧ (∀ code ∈ codes, code < d.curItemCount) ∧
          ∀ i < vals.length, ∀ j < vals.length, (codes[i]? = codes[j]? ↔ vals[i]? = vals[j]?)) ∧
      ∀ d, DictReachable hash (DictData.init (dictGetMaxNumber vals.flatten.length)
          (dictGetMaxNumber vals.length)) d → ∀ ptr, encodeOneValue hash d ptr ≠ .fellOut := by
  refine ⟨?_, ?_, ?_⟩
  · intro out modes h
    unfold compress at h
    split at h
    · rcases Option.or_eq_some_iff.mp h with hdict | ⟨-, hplain⟩
      · exact decompress_compressWithDict hvals hlen hsize hdict
      · exact decompress_compressWithoutDict hplain
    · exact decompress_compressWithoutDict h
  · intro codes d h
    obtain ⟨items, hcoded⟩ := coded_of_dicCompress hvals hlen h
    exact ⟨hcoded.length_eq, hcoded.lt, fun i hi j hj => hcoded.code_eq_iff hi hj⟩
  · intro d hreach ptr
    obtain ⟨items, hinv⟩ := hreach.inv (init_inv _ hlen)
    exact hinv.encodeOneValue_ne_fellOut ptr

/-- Two words of twelve bytes, the first five times and the second three times. -/
def twoWords : List (List UInt8) :=
  List.replicate 5 [25, 1, 2, 3, 4, 5, 6, 7, 8, 9, 10, 11] ++
    List.replicate 3 [25, 1, 2, 3, 4, 5, 6, 7, 8, 9, 10, 12]

theorem stringCoder_roundTrip_twoWords : ∃ out modes, modes.dic = true ∧
      compress IntegerCoder.verbatim IntegerCoder.verbatim (fun _ => 0) ⟨true, true⟩ .low 0 true
        twoWords.flatten twoWords.length = some (out, modes) ∧
      decompress IntegerCoder.verbatim IntegerCoder.verbatim out modes = twoWords.flatten := by
  have hdic : (compress IntegerCoder.verbatim IntegerCoder.verbatim (fun _ => 0) ⟨true, true⟩
      .low 0 true twoWords.flatten twoWords.length).map (fun r => r.2.dic) = some true := by
    decide +kernel
  obtain ⟨⟨out, modes⟩, hcompress, hmodes⟩ := Option.map_eq_some_iff.mp hdic
  have hvals : ∀ v ∈ twoWords, IsVarlena v := by
    intro v hv
    rcases List.mem_append.mp hv with hv | hv
    · rw [List.eq_of_mem_replicate hv]
      exact ⟨by decide, by decide⟩
    · rw [List.eq_of_mem_replicate hv]
      exact ⟨by decide, by decide⟩
  refine ⟨out, modes, hmodes, hcompress, ?_⟩
  exact (stringCoder_roundTrip IntegerCoder.verbatim IntegerCoder.verbatim (fun _ => 0)
    ⟨true, true⟩ .low 0 true twoWords hvals (by decide) (by decide)).1 out modes hcompress

end StringCoder

end OpenGauss.CStore
