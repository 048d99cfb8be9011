import OpenGauss.CStore.CompressKits

/-!
# Run-length coding with a marker

Values stand for themselves, except the marker value and values that repeat often enough.
Behind a marker comes a count. A count below the least number of repeats says how often the
marker itself stands there; from that number on the repeated value follows.
-/

namespace OpenGauss.CStore

open Lib
open List (replicate length_append)

variable {symbol : BitVec 64} {count : Nat}

structure RleCoder where
  eachValSize : Nat
  minRepeats : Nat
deriving DecidableEq

/-- The constructor of version 1, with `RleMinRepeats_v1`. -/
def RleCoder.v1 (oneValSize : Nat) : RleCoder := ⟨oneValSize, 4⟩

def rleMinRepeatsV2 : List Nat := [0, 4, 3, 3, 3, 3, 3, 3, 3]

/-- The constructor of version 2, as its callers apply it. -/
def RleCoder.v2 (oneValSize : Nat) : RleCoder := ⟨oneValSize, rleMinRepeatsV2.getD oneValSize 0⟩

/-- `RleGetBound1`; no `int` input makes the sum reach `2 ^ 32`. -/
def rleGetBound1 (inSize eachSize : Nat) : Nat := 1 + inSize + (inSize / eachSize) >>> 1

/-- `RleMarker[]` -/
def rleMarker : Nat → BitVec 64
  | 1 => 0xFE
  | 2 => 0xFEFE
  | 3 => 0xFEFEFE
  | 4 => 0xFEFEFEFE
  | 5 => 0xFEFEFEFEFE
  | 6 => 0xFEFEFEFEFEFE
  | 7 => 0xFEFEFEFEFEFEFE
  | 8 => 0xFEFEFEFEFEFEFEFE
  | _ => 0

def rleMaxRepeats : Nat := 0x7fff

namespace RleCoder

variable (c : RleCoder)

/-! ## The encoder -/

/-- `WriteNonRuns` -/
def writeNonRuns (symbol : BitVec 64) (repeats : Nat) : List UInt8 :=
  if rleMarker c.eachValSize ≠ symbol then
    (replicate repeats symbol).flatMap (writeData c.eachValSize)
  else writeData c.eachValSize symbol ++ [UInt8.ofNat repeats]

/-- `WriteRuns` -/
def writeRuns (symbol : BitVec 64) (repeats : Nat) : List UInt8 :=
  writeData c.eachValSize (rleMarker c.eachValSize) ++
    ((if 128 ≤ repeats then
        [UInt8.ofNat ((repeats ||| 0x8000) >>> 8), UInt8.ofNat (repeats &&& 0xff)]
      else [UInt8.ofNat repeats]) ++
    writeData c.eachValSize symbol)

def writeRepeats (symbol : BitVec 64) (count : Nat) : List UInt8 :=
  if c.minRepeats ≤ count then c.writeRuns symbol count else c.writeNonRuns symbol count

/-- State of `InnerCompress` after the scan of identical values. -/
structure Scan where
  data2 : BitVec 64
  count : Nat
  rest : List (BitVec 64)

/-- Reads `data2` for as long as it is `data1`, there is input and the run can grow. -/
def scanRun (data1 : BitVec 64) : BitVec 64 → Nat → List (BitVec 64) → Scan
  | data2, count, [] => ⟨data2, count, []⟩
  | data2, count, v :: rest =>
    if data1 = data2 ∧ count < rleMaxRepeats then scanRun data1 v (count + 1) rest
    else ⟨data2, count, v :: rest⟩

/-- The main loop. At its head `data1` has been read and `rest` has not. -/
def compressLoop : Nat → BitVec 64 → List (BitVec 64) → List UInt8
  | 0, _, _ => []
  | _ + 1, data1, [] => c.writeNonRuns data1 1
  | fuel + 1, data1, data2 :: rest =>
    if data1 = data2 then
      let scan := scanRun data1 data2 2 rest
      if data1 = scan.data2 then
        c.writeRepeats data1 scan.count ++
          match scan.rest with
          | [] => []
          | next :: rest' => compressLoop fuel next rest'
      else c.writeRepeats data1 (scan.count - 1) ++ compressLoop fuel scan.data2 scan.rest
    else c.writeNonRuns data1 1 ++ compressLoop fuel data2 rest

/-- `InnerCompress` of a buffer that is not empty. -/
def compress (inbuf : List UInt8) : List UInt8 :=
  match readValues c.eachValSize inbuf with
  | [] => []
  | data1 :: rest => c.compressLoop (rest.length + 1) data1 rest

/-! ## The decoder -/

/-- One round of the loop of `InnerDecompress`: what it writes and the input left. -/
def decompressStep (inptr : List UInt8) : List UInt8 × Unit × List UInt8 :=
  let symbol := readData c.eachValSize inptr
  let rest := inptr.drop c.eachValSize
  if rleMarker c.eachValSize = symbol then
    let markerCount := (rest.headD 0).toNat
    if c.minRepeats ≤ markerCount then
      let wide : Bool := markerCount &&& 0x80 ≠ 0
      let symbolCount :=
        if wide then ((markerCount <<< 8) % 0x10000 + ((rest.drop 1).headD 0).toNat) &&& 0x7fff
        else markerCount
      let rest' := rest.drop (if wide then 2 else 1)
      (writeValues c.eachValSize (replicate symbolCount (readData c.eachValSize rest')), (),
        rest'.drop c.eachValSize)
    else (writeValues c.eachValSize (replicate markerCount symbol), (), rest.drop 1)
  else (writeData c.eachValSize symbol, (), rest)

/-- `InnerDecompress` -/
def decompress (inbuf : List UInt8) : List UInt8 :=
  decodeLoop c.eachValSize (fun _ => c.decompressStep) inbuf.length () inbuf

/-- The input from `inpos` on when the loop of `InnerDecompress` ends. -/
def decompressLeft (inbuf : List UInt8) : List UInt8 :=
  decodeLeft c.eachValSize (fun _ => c.decompressStep) inbuf.length () inbuf

/-! ## What one round of the decoder takes off -/

inductive Item
  | plain (symbol : BitVec 64)
  | markers (count : Nat)
  | run (symbol : BitVec 64) (count : Nat)

/-- The values an item stands for. -/
def expand : Item → List (BitVec 64)
  | .plain symbol => [symbol]
  | .markers count => replicate count (rleMarker c.eachValSize)
  | .run symbol count => replicate count symbol

def encodeItem : Item → List UInt8
  | .plain symbol => writeData c.eachValSize symbol
  | .markers count => writeData c.eachValSize (rleMarker c.eachValSize) ++ [UInt8.ofNat count]
  | .run symbol count => c.writeRuns symbol count

structure Wf : Prop where
  size_pos : 0 < c.eachValSize
  size_le : c.eachValSize ≤ 8
  two_le : 2 ≤ c.minRepeats
  le_max : c.minRepeats ≤ 128

/-- Items the encoder writes. -/
def ItemOk : Item → Prop
  | .plain symbol => symbol.toNat < 256 ^ c.eachValSize ∧ rleMarker c.eachValSize ≠ symbol
  | .markers count => 0 < count ∧ count < c.minRepeats
  | .run symbol count =>
    symbol.toNat < 256 ^ c.eachValSize ∧ c.minRepeats ≤ count ∧ count ≤ rleMaxRepeats

variable {c}

theorem Wf.marker_lt (h : c.Wf) : (rleMarker c.eachValSize).toNat < 256 ^ c.eachValSize := by
  have hlo := h.size_pos
  have hhi := h.size_le
  generalize c.eachValSize = k at hlo hhi ⊢
  interval_cases k <;> decide

theorem and_high_bit {m : Nat} (h : m < 256) : (m &&& 0x80 ≠ 0) ↔ 128 ≤ m := by
  revert m
  decide +kernel

theorem wide_or {n : Nat} (hn : n ≤ rleMaxRepeats) : n ||| 0x8000 = 0x8000 + n := by
  rw [Nat.or_comm]
  exact (Nat.two_pow_add_eq_or_of_lt (i := 15) (Nat.lt_succ_of_le hn) 1).symm

theorem wide_count {n : Nat} (hn : n ≤ rleMaxRepeats) :
    ((((n ||| 0x8000) >>> 8) % 256) <<< 8 % 0x10000 + (n &&& 0xff) % 256) &&& 0x7fff = n := by
  have hlt : n < 2 ^ 15 := Nat.lt_succ_of_le hn
  have hlow : n &&& 0xff = n % 256 := Nat.and_two_pow_sub_one_eq_mod n 8
  rw [wide_or hn, hlow, Nat.shiftRight_eq_div_pow, Nat.shiftLeft_eq]
  have hmask : ∀ x, x &&& 0x7fff = x % 2 ^ 15 := fun x => Nat.and_two_pow_sub_one_eq_mod x 15
  rw [hmask]
  omega

theorem wide_high {n : Nat} (hn : n ≤ rleMaxRepeats) : 128 ≤ ((n ||| 0x8000) >>> 8) % 256 := by
  have hlt : n < 2 ^ 15 := Nat.lt_succ_of_le hn
  rw [wide_or hn, Nat.shiftRight_eq_div_pow]
  omega

theorem decompressStep_plain (hok : c.ItemOk (.plain symbol)) (rest : List UInt8) :
    c.decompressStep (writeData c.eachValSize symbol ++ rest) =
      (writeData c.eachValSize symbol, (), rest) := by
  unfold decompressStep
  dsimp only
  rw [readData_writeData hok.1, if_neg hok.2, drop_writeData]

theorem decompressStep_markers (hc : c.Wf) (hok : c.ItemOk (.markers count)) (rest : List UInt8) :
    c.decompressStep (c.encodeItem (.markers count) ++ rest) =
      (writeValues c.eachValSize (replicate count (rleMarker c.eachValSize)), (), rest) := by
  have hmax := hc.le_max
  have hcount : (UInt8.ofNat count).toNat = count := by
    rw [UInt8.toNat_ofNat', Nat.mod_eq_of_lt]
    exact hok.2.trans_le (hmax.trans (by decide))
  unfold decompressStep encodeItem
  dsimp only
  rw [List.append_assoc, readData_writeData hc.marker_lt, if_pos rfl, drop_writeData,
    List.singleton_append, List.headD_cons, hcount, if_neg (Nat.not_le.mpr hok.2)]
  rfl

theorem decompressStep_run (hc : c.Wf) (hok : c.ItemOk (.run symbol count)) (rest : List UInt8) :
    c.decompressStep (c.writeRuns symbol count ++ rest) =
      (writeValues c.eachValSize (replicate count symbol), (), rest) := by
  obtain ⟨hsymbol, hmin, hmax⟩ := hok
  have hmin' := hc.le_max
  unfold decompressStep writeRuns
  dsimp only
  rw [List.append_assoc, readData_writeData hc.marker_lt, if_pos rfl, drop_writeData]
  by_cases hwide : 128 ≤ count
  · -- two bytes: the high one has its top bit set
    have hhigh := wide_high hmax
    have hbit : ((count ||| 0x8000) >>> 8 % 256) &&& 0x80 ≠ 0 :=
      (and_high_bit (Nat.mod_lt _ (by decide))).mpr hhigh
    rw [if_pos hwide]
    simp only [List.cons_append, List.nil_append, List.headD_cons, UInt8.toNat_ofNat']
    rw [if_pos (hmin'.trans hhigh)]
    simp only [ne_eq, hbit, not_false_eq_true, decide_true, if_true, List.drop_succ_cons,
      List.drop_zero, List.headD_cons, UInt8.toNat_ofNat']
    rw [wide_count hmax, readData_writeData hsymbol, drop_writeData]
  · have hcount : count % 2 ^ 8 = count := Nat.mod_eq_of_lt (by omega)
    have hbit : ¬ (count &&& 0x80 ≠ 0) := by
      rw [and_high_bit (by omega)]
      exact hwide
    rw [if_neg hwide]
    simp only [List.cons_append, List.nil_append, List.headD_cons, UInt8.toNat_ofNat', hcount]
    rw [if_pos hmin]
    simp only [hbit, decide_false, Bool.false_eq_true, if_false, List.drop_succ_cons,
      List.drop_zero]
    rw [readData_writeData hsymbol, drop_writeData]

theorem Wf.stepInverts (hc : c.Wf) :
    StepInverts (fun _ => c.ItemOk) (fun _ => c.encodeItem) (fun s _ => s) c.eachValSize
      (fun _ => c.decompressStep) (fun (_ : Unit) item => writeValues c.eachValSize (c.expand item))
    where
  pos := hc.size_pos
  length := by
    intro _ item _
    cases item with
    | plain symbol => exact (length_writeData _ _).ge
    | markers count => simp [encodeItem]
    | run symbol count => simp [encodeItem, writeRuns]
  step := by
    intro _ item rest hok
    cases item with
    | plain symbol =>
      refine (decompressStep_plain hok rest).trans ?_
      simp [writeValues, expand]
    | markers count => exact decompressStep_markers hc hok rest
    | run symbol count => exact decompressStep_run hc hok rest

/-! ## The encoder writes items -/

/-- `bytes` are items that stand for `values`. -/
def Writes (c : RleCoder) (bytes : List UInt8) (values : List (BitVec 64)) : Prop :=
  ∃ items : List Item, (∀ item ∈ items, c.ItemOk item) ∧ bytes = items.flatMap c.encodeItem ∧
    items.flatMap c.expand = values

theorem Writes.nil : c.Writes [] [] := ⟨[], by simp, rfl, rfl⟩

theorem Writes.append {bs bs' : List UInt8} {vs vs' : List (BitVec 64)} (h : c.Writes bs vs)
    (h' : c.Writes bs' vs') : c.Writes (bs ++ bs') (vs ++ vs') := by
  obtain ⟨items, hok, rfl, rfl⟩ := h
  obtain ⟨items', hok', rfl, rfl⟩ := h'
  refine ⟨items ++ items', ?_, List.flatMap_append.symm, List.flatMap_append⟩
  exact List.forall_mem_append.mpr ⟨hok, hok'⟩

theorem Writes.nonRuns (hsymbol : symbol.toNat < 256 ^ c.eachValSize) (hpos : 0 < count)
    (hlt : count < c.minRepeats) :
    c.Writes (c.writeNonRuns symbol count) (replicate count symbol) := by
  unfold writeNonRuns
  split
  · rename_i hne
    refine ⟨(replicate count symbol).map .plain, ?_, ?_, ?_⟩
    · intro item hitem
      obtain ⟨v, hv, rfl⟩ := List.mem_map.mp hitem
      rw [List.eq_of_mem_replicate hv]
      exact ⟨hsymbol, hne⟩
    · rw [List.flatMap_map]
      rfl
    · rw [List.flatMap_map]
      exact List.flatMap_singleton' _
  · rename_i heq
    rw [Classical.not_not] at heq
    refine ⟨[.markers count], ?_, ?_, ?_⟩
    · exact List.forall_mem_singleton.mpr ⟨hpos, hlt⟩
    · rw [List.flatMap_singleton, encodeItem, heq]
    · rw [List.flatMap_singleton, expand, heq]

theorem Writes.repeats (hsymbol : symbol.toNat < 256 ^ c.eachValSize) (hpos : 0 < count)
    (hmax : count ≤ rleMaxRepeats) :
    c.Writes (c.writeRepeats symbol count) (replicate count symbol) := by
  unfold writeRepeats
  split
  · rename_i hmin
    refine ⟨[.run symbol count], ?_, ?_, ?_⟩
    · exact List.forall_mem_singleton.mpr ⟨hsymbol, hmin, hmax⟩
    · rw [List.flatMap_singleton, encodeItem]
    · rw [List.flatMap_singleton, expand]
  · rename_i hlt
    exact .nonRuns hsymbol hpos (Nat.not_le.mp hlt)

/-- What the scan has read: a run of `data1`, and one value more if it is another. -/
structure ScanSpec (data1 : BitVec 64) (input : List (BitVec 64)) (scan : Scan) : Prop where
  read : input = (if data1 = scan.data2 then replicate scan.count data1
    else replicate (scan.count - 1) data1 ++ [scan.data2]) ++ scan.rest
  two_le : 2 ≤ scan.count
  le_max : scan.count ≤ rleMaxRepeats
  full : data1 = scan.data2 → scan.rest ≠ [] → scan.count = rleMaxRepeats

theorem scanRun_spec (data1 : BitVec 64) : ∀ (rest : List (BitVec 64)) (count : Nat), 2 ≤ count →
    count ≤ rleMaxRepeats →
      ScanSpec data1 (replicate count data1 ++ rest) (scanRun data1 data1 count rest)
  | [], count, htwo, hmax => ⟨by simp [scanRun], htwo, hmax, fun _ hne => absurd rfl hne⟩
  | v :: rest, count, htwo, hmax => by
    rw [scanRun]
    split
    · rename_i hgrow
      by_cases hv : data1 = v
      · have hread : replicate count data1 ++ v :: rest =
            replicate (count + 1) data1 ++ rest := by
          rw [← hv, List.replicate_succ', List.append_assoc, List.singleton_append]
        rw [hread, ← hv]
        exact scanRun_spec data1 rest (count + 1) (by omega) hgrow.2
      · -- the value is another: the scan stops whatever follows
        have hstop : scanRun data1 v (count + 1) rest = ⟨v, count + 1, rest⟩ := by
          cases rest with
          | nil => rfl
          | cons u rest => rw [scanRun, if_neg fun h => hv h.1]
        rw [hstop]
        exact ⟨by simp [hv], by simp only; omega, hgrow.2, fun h => absurd h hv⟩
    · rename_i hstop
      exact ⟨by simp, htwo, hmax, fun _ _ => hmax.antisymm (by simpa using hstop)⟩

/-- The groups of equal values that the encoder writes. Only after the longest run may the
same value come again. -/
inductive Splits (c : RleCoder) : List (BitVec 64) → List UInt8 → Prop
  | nil : Splits c [] []
  | group {symbol : BitVec 64} {count : Nat} {values : List (BitVec 64)} {bytes : List UInt8}
      (pos : 0 < count) (le_max : count ≤ rleMaxRepeats)
      (next : values.head? = some symbol → count = rleMaxRepeats) (rest : Splits c values bytes) :
      Splits c (replicate count symbol ++ values) (c.writeRepeats symbol count ++ bytes)

variable {values : List (BitVec 64)} {bytes : List UInt8}

theorem Splits.single (hc : c.Wf) (hnext : values.head? ≠ some symbol) (h : c.Splits values bytes) :
    c.Splits (symbol :: values) (c.writeNonRuns symbol 1 ++ bytes) := by
  have hwrite : c.writeRepeats symbol 1 = c.writeNonRuns symbol 1 :=
    if_neg (Nat.not_le.mpr hc.two_le)
  rw [← hwrite]
  exact .group Nat.one_pos (by decide) (fun h => absurd h hnext) h

/-- The main loop writes the values it was given. -/
theorem compressLoop_splits (hc : c.Wf) : ∀ (fuel : Nat) (data1 : BitVec 64)
    (rest : List (BitVec 64)), rest.length < fuel →
      c.Splits (data1 :: rest) (c.compressLoop fuel data1 rest)
  | 0, _, _, hfuel => nomatch hfuel
  | fuel + 1, data1, [], _ => by
    have hlast : c.Splits [data1] (c.writeNonRuns data1 1 ++ []) := Splits.nil.single hc nofun
    rwa [List.append_nil] at hlast
  | fuel + 1, data1, data2 :: rest, hfuel => by
    rw [List.length_cons] at hfuel
    rw [compressLoop]
    split
    · rename_i heq
      subst heq
      obtain ⟨hread, htwo, hmax, hfull⟩ := scanRun_spec data1 rest 2 Nat.le.refl (by decide)
      dsimp only
      generalize scanRun data1 data1 2 rest = scan at hread htwo hmax hfull ⊢
      have hlen := congrArg List.length hread
      split
      · rename_i hsame
        rw [if_pos hsame] at hread hlen
        have hin : data1 :: data1 :: rest = replicate scan.count data1 ++ scan.rest := hread
        rw [hin]
        cases hrest : scan.rest with
        | nil => exact .group (by omega) hmax nofun .nil
        | cons next rest' =>
          rw [hrest] at hlen hfull
          simp only [length_append, List.length_replicate, List.length_cons] at hlen
          exact .group (by omega) hmax (fun _ => hfull hsame (List.cons_ne_nil _ _))
            (compressLoop_splits hc fuel next rest' (by omega))
      · rename_i hother
        rw [if_neg hother] at hread hlen
        have hin : data1 :: data1 :: rest =
            replicate (scan.count - 1) data1 ++ (scan.data2 :: scan.rest) := by
          rw [List.append_assoc, List.singleton_append] at hread
          exact hread
        simp only [length_append, List.length_replicate, List.length_singleton] at hlen
        rw [hin]
        exact .group (by omega) (by omega) (fun h => absurd (Option.some.inj h).symm hother)
          (compressLoop_splits hc fuel scan.data2 scan.rest (by omega))
    · rename_i hne
      exact (compressLoop_splits hc fuel data2 rest (by omega)).single hc
        fun h => hne (Option.some.inj h).symm

theorem compress_splits (hc : c.Wf) (bs : List UInt8) :
    c.Splits (readValues c.eachValSize bs) (c.compress bs) := by
  unfold compress
  split
  · rename_i hread
    rw [hread]
    exact .nil
  · rename_i hread
    rw [hread]
    exact compressLoop_splits hc _ _ _ (Nat.lt_succ_self _)

theorem Splits.writes (h : c.Splits values bytes)
    (hlt : ∀ v ∈ values, v.toNat < 256 ^ c.eachValSize) : c.Writes bytes values := by
  induction h with
  | nil => exact .nil
  | group pos le_max next rest ih =>
    refine (Writes.repeats (hlt _ ?_) pos le_max).append (ih ?_)
    · exact List.mem_append_left _ (List.mem_replicate.mpr ⟨pos.ne', rfl⟩)
    · exact fun v hv => hlt v (List.mem_append_right _ hv)

/-! ## Size -/

/-- A group is no longer than its values, unless it is a single marker. -/
theorem length_writeRepeats (symbol : BitVec 64) (hc : c.Wf)
    (hsave : 2 * c.eachValSize + 1 ≤ c.minRepeats * c.eachValSize) (hpos : 0 < count) :
    (c.writeRepeats symbol count).length ≤ count * c.eachValSize ∨
      symbol = rleMarker c.eachValSize ∧ count = 1 ∧
        (c.writeRepeats symbol count).length = c.eachValSize + 1 := by
  have hk := hc.size_pos
  unfold writeRepeats
  split
  · rename_i hmin
    have hmul := Nat.mul_le_mul_right c.eachValSize hmin
    have hwide : 128 ≤ count → 128 * c.eachValSize ≤ count * c.eachValSize := Nat.mul_le_mul_right _
    left
    unfold writeRuns
    split <;> simp only [length_append, length_writeData, List.length_cons, List.length_nil]
      <;> omega
  · unfold writeNonRuns
    split
    · left
      rw [← writeValues, length_writeValues, List.length_replicate]
    rename_i hmarker
    rw [length_append, length_writeData, List.length_singleton]
    by_cases hone : count = 1
    · exact .inr ⟨(Classical.not_not.mp hmarker).symm, hone, rfl⟩
    have htwo : 2 * c.eachValSize ≤ count * c.eachValSize := Nat.mul_le_mul_right _ (by omega)
    left
    omega

/-- Every single marker pays its extra byte with the value behind it, which is another. -/
theorem Splits.length_le (hc : c.Wf)
    (hsave : 2 * c.eachValSize + 1 ≤ c.minRepeats * c.eachValSize) (h : c.Splits values bytes) :
    bytes.length ≤ values.length * c.eachValSize +
      (values.length + if values.head? = some (rleMarker c.eachValSize) then 1 else 0) / 2 := by
  induction h with
  | nil => exact Nat.zero_le _
  | @group symbol count values bytes pos le_max next rest ih =>
    have hhead : (replicate count symbol ++ values).head? = some symbol := by
      rw [List.head?_append, List.head?_replicate, if_neg pos.ne', Option.some_or]
    rw [hhead, length_append, length_append, List.length_replicate, Nat.add_mul]
    rcases length_writeRepeats symbol hc hsave pos with hle | ⟨rfl, rfl, heq⟩
    · split at ih <;> split <;> omega
    have hnext : values.head? ≠ some (rleMarker c.eachValSize) := fun h => nomatch next h
    rw [if_neg hnext] at ih
    rw [if_pos rfl]
    omega

/-! ## Round trip -/

/-- What the encoder writes the decoder turns back into the values, and it reads all of it. -/
theorem decompress_of_writes (hc : c.Wf) (h : c.Writes bytes values) (hne : values ≠ []) :
    c.decompress bytes = writeValues c.eachValSize values ∧ c.decompressLeft bytes = [] := by
  obtain ⟨items, hok, rfl, rfl⟩ := h
  have hitems : items ≠ [] := by
    rintro rfl
    exact hne rfl
  have hall : AllOk (fun (_ : Unit) => c.ItemOk) (fun s _ => s) () items := allOk_of_forall hok
  have hlen := hc.stepInverts.length_le hall
  rw [encodeAll_const] at hlen
  obtain ⟨hloop, hleft⟩ := hc.stepInverts.decode_encodeAll hitems hall hlen
  rw [encodeAll_const] at hloop hleft
  rw [encodeAll_const] at hloop
  refine ⟨?_, hleft⟩
  rw [decompress, hloop, writeValues, List.flatMap_assoc]
  rfl

section RoundTrip

variable {bs : List UInt8} (hc : c.Wf) (hne : bs ≠ []) (hdvd : c.eachValSize ∣ bs.length)

include hc hne hdvd

theorem decompress_compress_all :
    c.decompress (c.compress bs) = bs ∧ c.decompressLeft (c.compress bs) = [] := by
  have hpos := List.length_pos_iff.mpr hne
  have hvalues : readValues c.eachValSize bs ≠ [] := by
    rw [← List.length_pos_iff, length_readValues]
    exact Nat.div_pos (Nat.le_of_dvd hpos hdvd) hc.size_pos
  have hwrites := (compress_splits hc bs).writes fun v hv => mem_readValues_lt hc.size_le hv
  have hback := decompress_of_writes hc hwrites hvalues
  rwa [writeValues_readValues hc.size_le hdvd] at hback

/-- The decoder inverts the encoder on every buffer of whole values. -/
theorem decompress_compress : c.decompress (c.compress bs) = bs :=
  (decompress_compress_all hc hne hdvd).1

end RoundTrip

/-- Both versions: what `Compress` writes fits in the bound its callers allocate, and
`Decompress` reads it to the end and gives the input back. -/
theorem compress_fits_and_inverts {k : Nat} {bs : List UInt8} (hpos : 0 < k) (hle : k ≤ 8)
    (hversion : c = .v1 k ∨ c = .v2 k) (hne : bs ≠ []) (hdvd : k ∣ bs.length) :
    (c.compress bs).length ≤ rleGetBound1 bs.length k ∧
      c.decompress (c.compress bs) = bs ∧ c.decompressLeft (c.compress bs) = [] := by
  have hsize : c.eachValSize = k := by rcases hversion with rfl | rfl <;> rfl
  have hmin : 3 ≤ c.minRepeats ∧ c.minRepeats ≤ 4 ∧ (k = 1 → c.minRepeats = 4) := by
    rcases hversion with rfl | rfl
    · exact ⟨Nat.le_succ 3, le_rfl, fun _ => rfl⟩
    · interval_cases k <;> decide
  obtain ⟨hthree, hfour, hone⟩ := hmin
  have hc : c.Wf := ⟨hsize ▸ hpos, hsize ▸ hle, by omega, by omega⟩
  have hsave : 2 * c.eachValSize + 1 ≤ c.minRepeats * c.eachValSize := by
    rw [hsize]
    have hmul := Nat.mul_le_mul_right k hthree
    by_cases hk : k = 1
    · rw [hone hk]
      omega
    · omega
  refine ⟨?_, decompress_compress_all hc hne (hsize ▸ hdvd)⟩
  have hlen := (compress_splits hc bs).length_le hc hsave
  rw [length_readValues, hsize, Nat.div_mul_cancel hdvd] at hlen
  rw [rleGetBound1, Nat.shiftRight_eq_div_pow]
  split at hlen <;> omega

/-- A single marker, a run of three and two markers: the first grows by a byte. -/
theorem compress_fits_and_inverts_markers :
    ((RleCoder.v2 2).compress [0xFE, 0xFE, 7, 0, 7, 0, 7, 0, 0xFE, 0xFE, 0xFE, 0xFE]).length ≤
        rleGetBound1 12 2 ∧
      (RleCoder.v2 2).decompress
        ((RleCoder.v2 2).compress [0xFE, 0xFE, 7, 0, 7, 0, 7, 0, 0xFE, 0xFE, 0xFE, 0xFE]) =
          [0xFE, 0xFE, 7, 0, 7, 0, 7, 0, 0xFE, 0xFE, 0xFE, 0xFE] :=
  have h := compress_fits_and_inverts (k := 2) Nat.two_pos (by decide) (.inr rfl)
    (List.cons_ne_nil _ _) (by decide)
  ⟨h.1, h.2.1⟩

end RleCoder

end OpenGauss.CStore
