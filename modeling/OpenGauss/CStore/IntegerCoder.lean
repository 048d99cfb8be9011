import OpenGauss.CStore.RleCoder

/-!
# The integer codec of the column store

`CompressInner` tries the delta coder, the run-length coder and at last LZ4 or zlib, each on
what the one before left, and keeps a stage only if it saves room. The decoder learns from
the mode flags which stages were kept; the width of the deltas it computes again from the
bounds that stand in front.
-/

namespace OpenGauss.CStore

open Lib

variable {maxVal minVal : BitVec 64} {bs : List UInt8}

/-- LZ4 or zlib, at every compression level. An empty result stands for a failed attempt. -/
structure ByteCodec where
  compress : Nat → List UInt8 → List UInt8
  decompress : List UInt8 → List UInt8
  lossless : ∀ level bs, compress level bs ≠ [] → decompress (compress level bs) = bs

theorem ByteCodec.inverts (codec : ByteCodec) {level : Nat} {bs : List UInt8}
    (hpos : 0 < (codec.compress level bs).length) :
    codec.decompress (codec.compress level bs) = bs :=
  codec.lossless level bs (List.length_pos_iff.mp hpos)

/-- `COMPRESS_LOW`, `COMPRESS_MIDDLE` and `COMPRESS_HIGH` -/
inductive Compression
  | low | middle | high
deriving DecidableEq

/-- The flags of `modes`: `CU_DeltaCompressed`, `CU_DicEncode`, `CU_RLECompressed`,
`CU_LzCompressed` and `CU_ZlibCompressed`. -/
structure Modes where
  delta : Bool := false
  dic : Bool := false
  rle : Bool := false
  lz : Bool := false
  zlib : Bool := false
deriving DecidableEq

/-- A codec of values of `eachValSize` bytes. Bounds are given if `SetMinMaxVal` was called. -/
structure IntegerCoder where
  eachValSize : Nat
  adoptRle : Bool
  minMax : Option (BitVec 64 × BitVec 64)

/-- The buffer a stage leaves and whether the stage was kept. -/
structure Stage where
  buf : List UInt8
  kept : Bool

/-- A stage is kept if its result is not empty and smaller than its input. -/
def Stage.ofResult (inbuf result : List UInt8) : Stage :=
  if 0 < result.length ∧ result.length < inbuf.length then ⟨result, true⟩ else ⟨inbuf, false⟩

namespace IntegerCoder

variable (lz4 zlib : ByteCodec) (c : IntegerCoder)

/-- The bounds `CompressInner` works with. -/
def bounds (inbuf : List UInt8) : BitVec 64 × BitVec 64 :=
  c.minMax.getD (computeIntMinMaxVal inbuf c.eachValSize)

/-- Step 1. The deltas must leave room for the bounds. -/
def deltaStage (minVal maxVal : BitVec 64) (inbuf : List UInt8) : Stage :=
  let outValSize := deltaGetBytesNum minVal maxVal
  if outValSize < c.eachValSize then
    let result := doDeltaOperation false c.eachValSize outValSize minVal inbuf
    if result.length + c.eachValSize * 2 < inbuf.length then ⟨result, true⟩ else ⟨inbuf, false⟩
  else ⟨inbuf, false⟩

/-- Step 2 -/
def rleStage (outValSize : Nat) (inbuf : List UInt8) : Stage :=
  if c.adoptRle then Stage.ofResult inbuf ((RleCoder.v1 outValSize).compress inbuf)
  else ⟨inbuf, false⟩

/-- Step 3 -/
def lastStage (compression : Compression) (level : Nat) (inbuf : List UInt8) : Stage :=
  match compression with
  | .low => ⟨inbuf, false⟩
  | .middle => Stage.ofResult inbuf (lz4.compress level inbuf)
  | .high => Stage.ofResult inbuf (zlib.compress level inbuf)

/-- `InsertMinMaxVal` -/
def insertMinMaxVal (minVal maxVal : BitVec 64) (buf : List UInt8) : List UInt8 :=
  int64DataConvertTo minVal c.eachValSize ++ (int64DataConvertTo maxVal c.eachValSize ++ buf)

/-- `CompressInner`. Nothing comes out if no stage was kept; the caller then stores the input. -/
def compress (compression : Compression) (level : Nat) (inbuf : List UInt8) :
    Option (List UInt8 × Modes) :=
  let minVal := (c.bounds inbuf).1
  let maxVal := (c.bounds inbuf).2
  let delta := c.deltaStage minVal maxVal inbuf
  let outValSize := if delta.kept then deltaGetBytesNum minVal maxVal else c.eachValSize
  let rle := c.rleStage outValSize delta.buf
  let last := lastStage lz4 zlib compression level rle.buf
  let modes : Modes :=
    { delta := delta.kept, rle := rle.kept, lz := last.kept && compression == .middle,
      zlib := last.kept && compression == .high }
  let buf := if delta.kept then c.insertMinMaxVal minVal maxVal last.buf else last.buf
  if modes ≠ {} then some (buf, modes) else none

/-- `Decompress` of a coder for values of `eachValSize` bytes. -/
def decompress (eachValSize : Nat) (inbuf : List UInt8) (modes : Modes) : List UInt8 :=
  let minVal := convertToInt64Data inbuf eachValSize
  let maxVal := convertToInt64Data (inbuf.drop eachValSize) eachValSize
  let inValSize := deltaGetBytesNum minVal maxVal
  let buf := if modes.delta then inbuf.drop (eachValSize * 2) else inbuf
  let buf :=
    if modes.lz then lz4.decompress buf
    else if modes.zlib then zlib.decompress buf
    else buf
  let buf :=
    if modes.rle then
      (RleCoder.v1 (if modes.delta then inValSize else eachValSize)).decompress buf
    else buf
  if modes.delta then doDeltaOperation true inValSize eachValSize minVal buf else buf

/-! ## The stages one by one -/

variable {lz4 zlib c}

theorem v1_wf {k : Nat} (hpos : 0 < k) (hle : k ≤ 8) : (RleCoder.v1 k).Wf :=
  ⟨hpos, hle, Nat.le_of_ble_eq_true rfl, Nat.le_of_ble_eq_true rfl⟩

theorem lastStage_inverts (compression : Compression) (level : Nat) (bs : List UInt8) :
    (if ((lastStage lz4 zlib compression level bs).kept && compression == .middle) = true then
        lz4.decompress (lastStage lz4 zlib compression level bs).buf
      else if ((lastStage lz4 zlib compression level bs).kept && compression == .high) = true then
        zlib.decompress (lastStage lz4 zlib compression level bs).buf
      else (lastStage lz4 zlib compression level bs).buf) = bs := by
  cases compression with
  | low => rfl
  | middle =>
    simp only [lastStage, Stage.ofResult]
    split
    · rename_i hkept
      exact lz4.inverts hkept.1
    · rfl
  | high =>
    simp only [lastStage, Stage.ofResult]
    split
    · rename_i hkept
      exact zlib.inverts hkept.1
    · rfl

theorem rleStage_inverts {k : Nat} (hpos : 0 < k) (hle : k ≤ 8) (hne : bs ≠ [])
    (hdvd : k ∣ bs.length) :
    (if (c.rleStage k bs).kept = true then (RleCoder.v1 k).decompress (c.rleStage k bs).buf
      else (c.rleStage k bs).buf) = bs := by
  simp only [rleStage, Stage.ofResult]
  split
  · split
    · exact RleCoder.decompress_compress (v1_wf hpos hle) hne hdvd
    · rfl
  · rfl

/-- Bounds that the delta coder can work with: both are values of the C type, and if the
deltas are narrower than the values, these lie between the bounds. -/
structure Covers (k : Nat) (inbuf : List UInt8) (bounds : BitVec 64 × BitVec 64) : Prop where
  min_repr : deltaGetBytesNum bounds.1 bounds.2 < k → Representable k bounds.1
  max_repr : deltaGetBytesNum bounds.1 bounds.2 < k → Representable k bounds.2
  min_le : deltaGetBytesNum bounds.1 bounds.2 < k → ∀ r ∈ readValues k inbuf,
    bounds.1.toInt ≤ (signExtendData k r).toInt
  le_max : deltaGetBytesNum bounds.1 bounds.2 < k → ∀ r ∈ readValues k inbuf,
    (signExtendData k r).toInt ≤ bounds.2.toInt

/-- What a kept delta stage has written, and that the width was smaller. -/
theorem deltaStage_kept (h : (c.deltaStage minVal maxVal bs).kept = true) :
    deltaGetBytesNum minVal maxVal < c.eachValSize ∧
      (c.deltaStage minVal maxVal bs).buf =
        doDeltaOperation false c.eachValSize (deltaGetBytesNum minVal maxVal) minVal bs := by
  unfold deltaStage at h ⊢
  dsimp only at h ⊢
  split
  · rename_i hlt
    rw [if_pos hlt] at h
    split
    · exact ⟨hlt, rfl⟩
    rename_i hbig
    rw [if_neg hbig] at h
    exact Bool.noConfusion h
  · rename_i hge
    rw [if_neg hge] at h
    exact Bool.noConfusion h

theorem deltaStage_not_kept (h : (c.deltaStage minVal maxVal bs).kept = false) :
    (c.deltaStage minVal maxVal bs).buf = bs := by
  unfold deltaStage at h ⊢
  dsimp only at h ⊢
  split
  · rename_i hlt
    rw [if_pos hlt] at h
    split
    · rename_i hsmall
      rw [if_pos hsmall] at h
      exact Bool.noConfusion h
    · rfl
  · rfl

theorem read_insertMinMaxVal (hk : c.eachValSize ≤ 8) (hmin : Representable c.eachValSize minVal)
    (hmax : Representable c.eachValSize maxVal) (buf : List UInt8) :
    convertToInt64Data (c.insertMinMaxVal minVal maxVal buf) c.eachValSize = minVal ∧
      convertToInt64Data ((c.insertMinMaxVal minVal maxVal buf).drop c.eachValSize) c.eachValSize =
        maxVal ∧
      (c.insertMinMaxVal minVal maxVal buf).drop (c.eachValSize * 2) = buf := by
  have hdrop : (c.insertMinMaxVal minVal maxVal buf).drop c.eachValSize =
      int64DataConvertTo maxVal c.eachValSize ++ buf := drop_writeData _ _ _
  refine ⟨convertToInt64Data_int64DataConvertTo hk hmin _, ?_, ?_⟩
  · rw [hdrop]
    exact convertToInt64Data_int64DataConvertTo hk hmax _
  · rw [Nat.mul_two, ← List.drop_drop, hdrop]
    exact drop_writeData _ _ _

/-! ## Round trip -/

/-- Every buffer of whole values comes back, with any bounds that cover it. -/
theorem decompress_of_compress {compression : Compression} {level : Nat} {out : List UInt8}
    {modes : Modes} (hpos : 0 < c.eachValSize) (hle : c.eachValSize ≤ 8) (hne : bs ≠ [])
    (hdvd : c.eachValSize ∣ bs.length) (hcovers : Covers c.eachValSize bs (c.bounds bs))
    (h : c.compress lz4 zlib compression level bs = some (out, modes)) :
    decompress lz4 zlib c.eachValSize out modes = bs := by
  unfold compress at h
  dsimp only at h
  generalize c.bounds bs = bounds at hcovers h
  cases hkept : (c.deltaStage bounds.1 bounds.2 bs).kept with
  | false =>
    have hbuf := deltaStage_not_kept hkept
    simp only [hkept, hbuf, Bool.false_eq_true, if_false] at h
    split at h; swap
    · cases h
    obtain ⟨rfl, rfl⟩ := Prod.mk.inj (Option.some.inj h)
    simp only [decompress, Bool.false_eq_true, if_false]
    rw [lastStage_inverts]
    exact rleStage_inverts hpos hle hne hdvd
  | true =>
    obtain ⟨hlt, hbuf⟩ := deltaStage_kept hkept
    have hlen := length_doDeltaOperation false c.eachValSize
      (deltaGetBytesNum bounds.1 bounds.2) bounds.1 bs
    have hdelta : doDeltaOperation false c.eachValSize
        (deltaGetBytesNum bounds.1 bounds.2) bounds.1 bs ≠ [] := by
      rw [← List.length_pos_iff, hlen]
      apply Nat.mul_pos _ (deltaGetBytesNum_pos _ _)
      exact Nat.div_pos (Nat.le_of_dvd (List.length_pos_iff.mpr hne) hdvd) hpos
    simp only [hkept, hbuf, if_true] at h
    split at h; swap
    · cases h
    obtain ⟨rfl, rfl⟩ := Prod.mk.inj (Option.some.inj h)
    obtain ⟨hmin, hmax, hrest⟩ := read_insertMinMaxVal hle (hcovers.min_repr hlt)
      (hcovers.max_repr hlt) (lastStage lz4 zlib compression level
        (c.rleStage (deltaGetBytesNum bounds.1 bounds.2)
          (doDeltaOperation false c.eachValSize (deltaGetBytesNum bounds.1 bounds.2)
            bounds.1 bs)).buf).buf
    simp only [decompress, if_true]
    rw [hmin, hmax, hrest, lastStage_inverts,
      rleStage_inverts (deltaGetBytesNum_pos _ _) (hlt.le.trans hle) hdelta
        (Dvd.intro_left _ hlen.symm)]
    exact doDeltaOperation_inverts hle hdvd hlt (hcovers.min_le hlt) (hcovers.le_max hlt)

theorem covers_computeIntMinMaxVal {k : Nat} (hpos : 0 < k) (hle : k ≤ 8) (hlen : k ≤ bs.length) :
    Covers k bs (computeIntMinMaxVal bs k) := by
  have hbounded := computeIntMinMaxVal_bounded hpos hlen
  have hrepr : ∀ v ∈ (readValues k bs).map (signExtendData k), Representable k v := by
    intro v hv
    obtain ⟨r, -, rfl⟩ := List.mem_map.mp hv
    exact representable_signExtendData hle r
  exact
    { min_repr := fun _ => hrepr _ hbounded.min_mem
      max_repr := fun _ => hrepr _ hbounded.max_mem
      min_le := fun _ r hr => hbounded.min_le _ (List.mem_map_of_mem hr)
      le_max := fun _ r hr => hbounded.le_max _ (List.mem_map_of_mem hr) }

/-- Every array of values of 1, 2, 4 or 8 bytes that is compressed comes back byte for byte,
at every compression level, with run-length coding or without, with the bounds computed or
given as they are. -/
theorem integerCoder_roundTrip (lz4 zlib : ByteCodec) (c : IntegerCoder)
    (compression : Compression) (level : Nat) (bs out : List UInt8) (modes : Modes)
    (hsize : c.eachValSize ∈ [1, 2, 4, 8]) (hne : bs ≠ []) (hdvd : c.eachValSize ∣ bs.length)
    (hexact : ∀ bounds ∈ c.minMax, bounds = computeIntMinMaxVal bs c.eachValSize)
    (h : c.compress lz4 zlib compression level bs = some (out, modes)) :
    decompress lz4 zlib c.eachValSize out modes = bs := by
  have hpos : 0 < c.eachValSize := by
    simp only [List.mem_cons, List.not_mem_nil, or_false] at hsize
    omega
  have hle : c.eachValSize ≤ 8 := by
    simp only [List.mem_cons, List.not_mem_nil, or_false] at hsize
    omega
  have hlen := Nat.le_of_dvd (List.length_pos_iff.mpr hne) hdvd
  have hbounds : c.bounds bs = computeIntMinMaxVal bs c.eachValSize := by
    rw [bounds]
    cases hmm : c.minMax with
    | none => rfl
    | some given => exact hexact given hmm
  have hcovers := covers_computeIntMinMaxVal hpos hle hlen
  rw [← hbounds] at hcovers
  exact decompress_of_compress hpos hle hne hdvd hcovers h

def verbatim : ByteCodec where
  compress _ bs := bs
  decompress bs := bs
  lossless _ _ _ := rfl

/-- Six times -1, then 3 and 4, in two bytes each. -/
def mostlyNegative : List UInt8 :=
  [255, 255, 255, 255, 255, 255, 255, 255, 255, 255, 255, 255, 3, 0, 4, 0]

theorem integerCoder_roundTrip_negative :
    compress verbatim verbatim ⟨2, true, none⟩ .low 0 mostlyNegative =
        some ([255, 255, 4, 0, 254, 6, 0, 4, 5], { delta := true, rle := true }) ∧
      decompress verbatim verbatim 2 [255, 255, 4, 0, 254, 6, 0, 4, 5]
        { delta := true, rle := true } = mostlyNegative := by
  have hcompress : compress verbatim verbatim ⟨2, true, none⟩ .low 0 mostlyNegative =
      some ([255, 255, 4, 0, 254, 6, 0, 4, 5], { delta := true, rle := true }) := by
    decide +kernel
  refine ⟨hcompress, ?_⟩
  apply integerCoder_roundTrip verbatim verbatim ⟨2, true, none⟩ .low 0 mostlyNegative _ _
    (by decide) (by decide) (by decide) _ hcompress
  intro bounds hbounds
  cases hbounds

end IntegerCoder

end OpenGauss.CStore
