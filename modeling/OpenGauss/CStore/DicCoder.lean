import OpenGauss.Lib.LinearProbe
import OpenGauss.CStore.CompressKits
import OpenGauss.Varlena

/-!
# Dictionary of strings

A column of varlena values is replaced by codes. A hash table with twice as many slots as
the dictionary may have items finds the code of a value that has been seen. In memory the
offset of each item is kept; on disk the items only lie one behind the other.
-/

namespace OpenGauss.CStore

open Lib
open List (flatten_append flatten_cons length_append range drop_left length_singleton take_left
  map_cons append_assoc)

/-! ## Values of variable length -/

/-- The bytes `VARSIZE_ANY` looks at. -/
def varHeaderSize (ptr : List UInt8) : Nat :=
  let header := (ptr.headD 0).toNat
  if header = 0x01 then 2 else if header % 2 = 1 then 1 else 4

/-- A whole value: its header is there and gives its length. -/
structure IsVarlena (v : List UInt8) : Prop where
  header : varHeaderSize v ≤ v.length
  size : varsizeAny v = v.length

theorem IsVarlena.length_pos {v : List UInt8} (h : IsVarlena v) : 0 < v.length := by
  apply Nat.lt_of_lt_of_le _ h.header
  unfold varHeaderSize
  dsimp only
  split
  · decide
  · split <;> decide

theorem IsVarlena.varsizeAny_append {v : List UInt8} (h : IsVarlena v) (rest : List UInt8) :
    varsizeAny (v ++ rest) = v.length := by
  obtain ⟨hheader, hsize⟩ := h
  rw [← hsize]
  match v with
  | [] => exact absurd hheader (by decide)
  | b :: v =>
    have hheader : (if b.toNat = 0x01 then 2 else if b.toNat % 2 = 1 then 1 else 4) ≤
        (b :: v).length := hheader
    show (if b.toNat = 0x01 then 2 + vartagSize ((v ++ rest).headD 0).toNat
        else if b.toNat % 2 = 1 then (b.toNat >>> 1) &&& 0x7F
        else (ofLe ((b :: v ++ rest).take 4) >>> 2) &&& 0x3FFFFFFF) =
      if b.toNat = 0x01 then 2 + vartagSize (v.headD 0).toNat
        else if b.toNat % 2 = 1 then (b.toNat >>> 1) &&& 0x7F
        else (ofLe ((b :: v).take 4) >>> 2) &&& 0x3FFFFFFF
    split
    · rename_i hext
      rw [if_pos hext] at hheader
      match v with
      | [] => exact absurd hheader (Nat.not_succ_le_self 1)
      | tag :: v => rfl
    · rename_i hext
      rw [if_neg hext] at hheader
      split
      · rfl
      rename_i hshort
      rw [if_neg hshort] at hheader
      rw [List.take_append_of_le_length hheader]

/-! ## The encoder -/

/-- `FreeHashSlot` -/
def freeHashSlot : Nat := 0xFFFF

/-- `DictDataInMemory`: the used part of `m_data`, whose length is `m_itemUsedSize`, and the
valid part of `m_itemOffset`. -/
structure DictData where
  itemsMaxSize : Nat
  maxItemCount : Nat
  curItemCount : Nat
  data : List UInt8
  itemOffset : List Nat
  slots : List Nat

namespace DictData

/-- `InitDictData`; the counts are 16 bits wide. -/
def init (itemsMaxSize itemsMaxCount : Nat) : DictData where
  itemsMaxSize
  maxItemCount := itemsMaxCount % 0x10000
  curItemCount := 0
  data := []
  itemOffset := [0]
  slots := List.replicate (itemsMaxCount % 0x10000 * 2) freeHashSlot

def getHashSlotsCount (d : DictData) : Nat := d.maxItemCount * 2

def slot (d : DictData) (p : Nat) : Nat := d.slots.getD p freeHashSlot

def isEnoughToAppend (d : DictData) (appendSize : Nat) : Bool :=
  d.data.length + appendSize ≤ d.itemsMaxSize ∧ d.curItemCount < d.maxItemCount

/-- The new item of `EncodeOneValue`. -/
def append (d : DictData) (slotIndex : Nat) (datum : List UInt8) : DictData :=
  { d with
    curItemCount := (d.curItemCount + 1) % 0x10000
    data := d.data ++ datum
    itemOffset := d.itemOffset ++ [d.itemOffset.getD d.curItemCount 0 + datum.length]
    slots := d.slots.set slotIndex d.curItemCount }

end DictData

/-- How `EncodeOneValue` ends. -/
inductive EncodeResult
  | code (result : Nat) (d : DictData)
  | refused
  | fellOut

/-- The probe loop of `EncodeOneValue`. -/
def encodeProbe (d : DictData) (datum : List UInt8) : Nat → Nat → EncodeResult
  | 0, _ => .fellOut
  | conflict + 1, slotIndex =>
    let dictItemIdx := d.slot slotIndex
    if dictItemIdx = freeHashSlot then
      if d.isEnoughToAppend datum.length then .code d.curItemCount (d.append slotIndex datum)
      else .refused
    else
      let dicDatumChars := d.data.drop (d.itemOffset.getD dictItemIdx 0)
      if varsizeAny dicDatumChars = datum.length ∧ dicDatumChars.take datum.length = datum then
        .code dictItemIdx d
      else encodeProbe d datum conflict ((slotIndex + 1) % d.getHashSlotsCount)

/-- `DicCoder::EncodeOneValue` of the value at a pointer. -/
def encodeOneValue (hash : List UInt8 → Nat) (d : DictData) (ptr : List UInt8) : EncodeResult :=
  let datum := ptr.take (varsizeAny ptr)
  encodeProbe d datum d.getHashSlotsCount (hash datum % d.getHashSlotsCount)

/-- The loop of `DicCoder::Compress`. Nothing comes out if a value was refused or the last
one ends behind the buffer. -/
def compressLoop (hash : List UInt8 → Nat) : Nat → List UInt8 → DictData →
    Option (List Nat × DictData)
  | 0, _, _ => none
  | fuel + 1, inptr, d =>
    if inptr = [] then some ([], d)
    else if inptr.length < varsizeAny inptr then none
    else
      match encodeOneValue hash d inptr with
      | .code code d' =>
        (compressLoop hash fuel (inptr.drop (varsizeAny inptr)) d').map fun r =>
          (code :: r.1, r.2)
      | .refused => none
      | .fellOut => none

/-- `DictGetMaxNumber` -/
def dictGetMaxNumber (v : Nat) : Nat := v / 4 + 1

def dictHeaderSize : Nat := 8

/-- `DicCoder::Compress` of a new local dictionary. -/
def dicCompress (hash : List UInt8 → Nat) (inBuf : List UInt8) (numVals : Nat) :
    Option (List Nat × DictData) :=
  match compressLoop hash (inBuf.length + 1) inBuf
      (DictData.init (dictGetMaxNumber inBuf.length) (dictGetMaxNumber numVals)) with
  | none => none
  | some r => if r.2.data.length + dictHeaderSize < inBuf.length then some r else none

/-! ## The dictionary holds items -/

def itemAt (d : DictData) (items : List (List UInt8)) (p : Nat) : Option (List UInt8) :=
  if d.slot p = freeHashSlot then none else items[d.slot p]?

/-- The dictionary has the items, one behind the other, each once and to be found. -/
structure DictInv (hash : List UInt8 → Nat) (d : DictData) (items : List (List UInt8)) : Prop where
  data : d.data = items.flatten
  count : d.curItemCount = items.length
  offsets : d.itemOffset = (range (items.length + 1)).map fun i => (items.take i).flatten.length
  varlena : ∀ v ∈ items, IsVarlena v
  nodup : items.Nodup
  count_le : items.length ≤ d.maxItemCount
  max_pos : 0 < d.maxItemCount
  max_lt : d.maxItemCount < freeHashSlot
  slots_length : d.slots.length = d.getHashSlotsCount
  slot_cases : ∀ p, d.slot p = freeHashSlot ∨ d.slot p < items.length
  stored : ∀ v ∈ items, ∃ p < d.getHashSlotsCount, itemAt d items p = some v
  probing : Probing d.getHashSlotsCount (itemAt d items) fun v => hash v % d.getHashSlotsCount

section Encode

variable {hash : List UInt8 → Nat} {d : DictData} {items : List (List UInt8)}

theorem DictInv.init {itemsMaxSize itemsMaxCount : Nat} (hpos : 0 < itemsMaxCount)
    (hlt : itemsMaxCount < freeHashSlot) :
    DictInv hash (DictData.init itemsMaxSize itemsMaxCount) [] := by
  set d := DictData.init itemsMaxSize itemsMaxCount
  have hmax : itemsMaxCount % 0x10000 = itemsMaxCount := Nat.mod_eq_of_lt (hlt.trans (by decide))
  have hfree : ∀ p, d.slot p = freeHashSlot := by
    intro p
    show (List.replicate (itemsMaxCount % 0x10000 * 2) freeHashSlot).getD p freeHashSlot = _
    rw [List.getD_eq_getElem?_getD, List.getElem?_replicate]
    split <;> rfl
  have hnone : ∀ p, itemAt d [] p = none := by
    intro p
    rw [itemAt, if_pos (hfree p)]
  have hcount : 0 < d.getHashSlotsCount := by
    show 0 < itemsMaxCount % 0x10000 * 2
    omega
  refine ⟨rfl, rfl, rfl, by simp, List.nodup_nil, Nat.zero_le _, ?_, ?_, ?_, fun p => .inl (hfree p),
    by simp, ?_⟩
  · show 0 < itemsMaxCount % 0x10000
    omega
  · show itemsMaxCount % 0x10000 < freeHashSlot
    omega
  · exact List.length_replicate
  · refine ⟨fun v => Nat.mod_lt _ hcount, ?_, ?_⟩
    · intro p q v _ _ hp
      rw [hnone] at hp
      cases hp
    · intro p v _ hp
      rw [hnone] at hp
      cases hp

theorem DictInv.drop_offset (h : DictInv hash d items) {i : Nat} (hi : i < items.length) :
    d.data.drop (d.itemOffset.getD i 0) = items[i] ++ (items.drop (i + 1)).flatten := by
  have hoffset : d.itemOffset.getD i 0 = (items.take i).flatten.length := by
    rw [h.offsets, List.getD_eq_getElem?_getD, List.getElem?_map, List.getElem?_range (by omega)]
    rfl
  have hsplit : items.flatten = (items.take i).flatten ++ (items.drop i).flatten := by
    rw [← flatten_append, List.take_append_drop]
  rw [hoffset, h.data, hsplit, drop_left, List.drop_eq_getElem_cons hi, flatten_cons]

theorem DictInv.compare (h : DictInv hash d items) {i : Nat} (hi : i < items.length)
    (datum : List UInt8) :
    (varsizeAny (d.data.drop (d.itemOffset.getD i 0)) = datum.length ∧
      (d.data.drop (d.itemOffset.getD i 0)).take datum.length = datum) ↔ items[i] = datum := by
  rw [h.drop_offset hi, (h.varlena _ (List.getElem_mem hi)).varsizeAny_append]
  constructor
  · rintro ⟨hlen, htake⟩
    rwa [List.take_left' hlen] at htake
  · intro heq
    have hlen : items[i].length = datum.length := by rw [heq]
    exact ⟨hlen, by rw [List.take_left' hlen, heq]⟩

/-- How the probe loop ends, by what a probe of the table of items says. -/
def probeOutcome (d : DictData) (datum : List UInt8) : Probe → EncodeResult
  | .found p => .code (d.slot p) d
  | .free p =>
    if d.isEnoughToAppend datum.length then .code d.curItemCount (d.append p datum) else .refused
  | .exhausted => .fellOut

theorem DictInv.encodeProbe_eq (h : DictInv hash d items) (datum : List UInt8) :
    ∀ conflict slotIndex, encodeProbe d datum conflict slotIndex =
      probeOutcome d datum (probeFrom (itemAt d items) d.getHashSlotsCount datum conflict slotIndex)
  | 0, _ => rfl
  | conflict + 1, slotIndex => by
    have ih := h.encodeProbe_eq datum conflict ((slotIndex + 1) % d.getHashSlotsCount)
    rw [encodeProbe, probeFrom]
    dsimp only
    rcases h.slot_cases slotIndex with hfree | hused
    · have hitem : itemAt d items slotIndex = none := by rw [itemAt, if_pos hfree]
      rw [if_pos hfree, hitem]
      rfl
    have hne : d.slot slotIndex ≠ freeHashSlot := by
      have hle := h.count_le
      have hlt := h.max_lt
      omega
    have hitem : itemAt d items slotIndex = some items[d.slot slotIndex] := by
      rw [itemAt, if_neg hne, List.getElem?_eq_getElem hused]
    rw [if_neg hne, hitem]
    dsimp only
    by_cases heq : items[d.slot slotIndex] = datum
    · rw [if_pos ((h.compare hused datum).mpr heq), if_pos heq]
      rfl
    · rw [if_neg fun hc => heq ((h.compare hused datum).mp hc), if_neg heq, ih]

theorem flatten_take_length (items : List (List UInt8)) (datum : List UInt8) :
    ((range (items.length + 1)).map fun i => (items.take i).flatten.length) ++
        [items.flatten.length + datum.length] =
      (range ((items ++ [datum]).length + 1)).map fun i =>
        ((items ++ [datum]).take i).flatten.length := by
  rw [length_append, length_singleton, List.range_succ (n := items.length + 1),
    List.map_append, List.map_singleton]
  congr 1
  · apply List.map_congr_left
    intro i hi
    rw [List.take_append_of_le_length (Nat.lt_succ_iff.mp (List.mem_range.mp hi))]
  · rw [List.take_of_length_le (by simp), flatten_append, length_append]
    simp

/-- A new item goes into the free slot its probe ended at. -/
theorem DictInv.append (h : DictInv hash d items) {datum : List UInt8} {p : Nat}
    (hdatum : IsVarlena datum)
    (hprobe : probeFrom (itemAt d items) d.getHashSlotsCount datum d.getHashSlotsCount
      (hash datum % d.getHashSlotsCount) = .free p)
    (henough : d.isEnoughToAppend datum.length = true) :
    DictInv hash (d.append p datum) (items ++ [datum]) := by
  have hspec := h.probing.probe_spec datum
  have habsent := h.probing.not_mem_of_free hprobe
  rw [hprobe] at hspec
  obtain ⟨m, -, hp, -, -⟩ := hspec
  have hn : 0 < d.getHashSlotsCount := Nat.mul_pos h.max_pos (by decide)
  have hplt : p < d.getHashSlotsCount := hp ▸ Nat.mod_lt _ hn
  simp only [DictData.isEnoughToAppend, decide_eq_true_eq] at henough
  have hmax := h.max_lt
  have hcount := h.count
  have hcur : d.curItemCount ≠ freeHashSlot := by omega
  have hslot : ∀ q, (d.append p datum).slot q = if q = p then items.length else d.slot q := by
    intro q
    show (d.slots.set p d.curItemCount).getD q freeHashSlot = _
    rw [List.getD_eq_getElem?_getD, List.getElem?_set, h.slots_length, if_pos hplt]
    by_cases hqp : q = p
    · rw [if_pos hqp, if_pos hqp.symm, Option.getD_some, hcount]
    · rw [if_neg hqp, if_neg (Ne.symm hqp)]
      rfl
  -- the table of items changes in one slot
  have hitems : itemAt (d.append p datum) (items ++ [datum]) =
      Function.update (itemAt d items) p (some datum) := by
    funext q
    rw [itemAt, hslot q]
    by_cases hqp : q = p
    · rw [if_pos hqp, if_neg (hcount ▸ hcur), hqp, Function.update_self,
        List.getElem?_append_right (Nat.le_refl _), Nat.sub_self]
      rfl
    rw [if_neg hqp, Function.update_of_ne hqp, itemAt]
    rcases h.slot_cases q with hfree | hused
    · rw [if_pos hfree, if_pos hfree]
    · rw [List.getElem?_append_left hused]
  have hnew : datum ∉ items := by
    intro hmem
    obtain ⟨q, hq, hitem⟩ := h.stored datum hmem
    exact habsent q hq hitem
  exact
    { data := by
        show d.data ++ datum = _
        rw [h.data, flatten_append, List.flatten_singleton]
      count := by
        show (d.curItemCount + 1) % 0x10000 = _
        rw [hcount, length_append, length_singleton, Nat.mod_eq_of_lt]
        have hfree : freeHashSlot = 0xFFFF := rfl
        omega
      offsets := by
        show d.itemOffset ++ [d.itemOffset.getD d.curItemCount 0 + datum.length] = _
        rw [← flatten_take_length, h.offsets, hcount, List.getD_eq_getElem?_getD,
          List.getElem?_map, List.getElem?_range (Nat.lt_succ_self _), Option.map_some,
          Option.getD_some, List.take_length]
      varlena := by
        intro v hv
        rcases List.mem_append.mp hv with hv | hv
        · exact h.varlena v hv
        · rwa [List.mem_singleton.mp hv]
      nodup := by
        rw [List.nodup_append]
        refine ⟨h.nodup, List.nodup_singleton _, ?_⟩
        rintro v hv w hw rfl
        exact hnew (List.mem_singleton.mp hw ▸ hv)
      count_le := by
        rw [length_append, length_singleton]
        show items.length + 1 ≤ d.maxItemCount
        omega
      max_pos := h.max_pos
      max_lt := h.max_lt
      slots_length := by
        show (d.slots.set p d.curItemCount).length = _
        rw [List.length_set, h.slots_length]
        rfl
      slot_cases := by
        intro q
        rw [hslot q, length_append, length_singleton]
        split
        · exact .inr (Nat.lt_succ_self _)
        · exact (h.slot_cases q).imp id Nat.lt_succ_of_lt
      stored := by
        intro v hv
        rw [hitems]
        rcases List.mem_append.mp hv with hv | hv
        · obtain ⟨q, hq, hitem⟩ := h.stored v hv
          refine ⟨q, hq, ?_⟩
          rw [Function.update_of_ne, hitem]
          rintro rfl
          have hnone := h.probing.probe_spec datum
          rw [hprobe] at hnone
          obtain ⟨-, -, -, hfree, -⟩ := hnone
          rw [hfree] at hitem
          cases hitem
        · rw [List.mem_singleton.mp hv]
          exact ⟨p, hplt, Function.update_self _ _ _⟩
      probing := by
        rw [hitems]
        exact h.probing.insert hprobe }

theorem DictInv.probe_ne_exhausted (h : DictInv hash d items) (datum : List UInt8) :
    probeFrom (itemAt d items) d.getHashSlotsCount datum d.getHashSlotsCount
      (hash datum % d.getHashSlotsCount) ≠ .exhausted := by
  have hle := h.count_le
  have hpos := h.max_pos
  have hlt : items.length < d.getHashSlotsCount := by
    show items.length < d.maxItemCount * 2
    omega
  have hmem : ∀ {p v}, p < d.getHashSlotsCount → itemAt d items p = some v → v ∈ items := by
    intro p v _ hitem
    rw [itemAt] at hitem
    split at hitem
    · cases hitem
    · exact List.mem_of_getElem? hitem
  obtain ⟨p, hp, hfree⟩ := h.probing.exists_free hlt hmem
  exact h.probing.probe_ne_exhausted hp hfree datum

theorem DictInv.encodeOneValue_ne_fellOut (h : DictInv hash d items) (ptr : List UInt8) :
    encodeOneValue hash d ptr ≠ .fellOut := by
  have hne := h.probe_ne_exhausted (ptr.take (varsizeAny ptr))
  unfold encodeOneValue
  dsimp only
  rw [h.encodeProbe_eq]
  generalize probeFrom (itemAt d items) d.getHashSlotsCount (ptr.take (varsizeAny ptr))
    d.getHashSlotsCount (hash (ptr.take (varsizeAny ptr)) % d.getHashSlotsCount) = result at hne ⊢
  cases result with
  | found p => exact EncodeResult.noConfusion
  | free p =>
    unfold probeOutcome
    dsimp only
    split <;> exact EncodeResult.noConfusion
  | exhausted => exact absurd rfl hne

/-- A value gets the code of an item that is the same, an old one or a new one. -/
theorem DictInv.encodeOneValue (h : DictInv hash d items) {v rest : List UInt8}
    (hv : IsVarlena v) {code : Nat} {d' : DictData}
    (hcode : OpenGauss.CStore.encodeOneValue hash d (v ++ rest) = .code code d') :
    ∃ items', items <+: items' ∧ DictInv hash d' items' ∧ items'[code]? = some v := by
  unfold OpenGauss.CStore.encodeOneValue at hcode
  dsimp only at hcode
  rw [hv.varsizeAny_append, take_left, h.encodeProbe_eq] at hcode
  have hspec := h.probing.probe_spec v
  cases hprobe : probeFrom (itemAt d items) d.getHashSlotsCount v d.getHashSlotsCount
      (hash v % d.getHashSlotsCount) with
  | found p =>
    rw [hprobe] at hcode hspec
    obtain ⟨rfl, rfl⟩ : d.slot p = code ∧ d = d' := by
      simpa only [probeOutcome, EncodeResult.code.injEq] using hcode
    obtain ⟨-, hitem⟩ := hspec
    refine ⟨items, List.prefix_refl _, h, ?_⟩
    rw [itemAt] at hitem
    split at hitem
    · cases hitem
    · exact hitem
  | free p =>
    rw [hprobe] at hcode
    simp only [probeOutcome] at hcode
    split at hcode; swap
    · cases hcode
    rename_i henough
    obtain ⟨rfl, rfl⟩ : d.curItemCount = code ∧ d.append p v = d' := by
      simpa only [EncodeResult.code.injEq] using hcode
    refine ⟨items ++ [v], List.prefix_append _ _, h.append hv hprobe henough, ?_⟩
    rw [h.count, List.getElem?_append_right (Nat.le_refl _), Nat.sub_self]
    rfl
  | exhausted => exact absurd hprobe (h.probe_ne_exhausted v)

/-- The codes of a whole buffer name the values, in order. -/
theorem DictInv.compressLoop : ∀ {fuel : Nat} {vals : List (List UInt8)} {d : DictData}
    {items : List (List UInt8)} {r : List Nat × DictData}, DictInv hash d items →
      (∀ v ∈ vals, IsVarlena v) →
      OpenGauss.CStore.compressLoop hash fuel vals.flatten d = some r →
        ∃ items', items <+: items' ∧ DictInv hash r.2 items' ∧
          r.1.map (fun code => items'[code]?) = vals.map some
  | 0, _, _, _, _, _, _, h => by cases h
  | fuel + 1, [], d, items, r, hinv, _, h => by
    cases h
    exact ⟨items, List.prefix_refl _, hinv, rfl⟩
  | fuel + 1, v :: vals, d, items, r, hinv, hvals, h => by
    have hv := hvals v (.head _)
    have hne : v ++ vals.flatten ≠ [] := by
      have hpos := hv.length_pos
      rintro heq
      rw [List.append_eq_nil_iff.mp heq |>.1] at hpos
      exact Nat.lt_irrefl 0 hpos
    have hle : ¬ (v ++ vals.flatten).length < v.length := by
      rw [length_append]
      omega
    rw [OpenGauss.CStore.compressLoop, flatten_cons, if_neg hne, hv.varsizeAny_append,
      if_neg hle, drop_left] at h
    split at h
    · rename_i code d' hcode
      obtain ⟨items₁, hpre₁, hinv₁, hitem⟩ := hinv.encodeOneValue hv hcode
      obtain ⟨⟨codes, d''⟩, hrest, rfl⟩ := Option.map_eq_some_iff.mp h
      obtain ⟨items₂, hpre₂, hinv₂, hcodes⟩ := DictInv.compressLoop hinv₁
        (fun u hu => hvals u (.tail _ hu)) hrest
      refine ⟨items₂, hpre₁.trans hpre₂, hinv₂, ?_⟩
      obtain ⟨more, rfl⟩ := hpre₂
      have hlt : code < items₁.length := by
        rw [List.getElem?_eq_some_iff] at hitem
        exact hitem.1
      rw [map_cons, map_cons, hcodes, List.getElem?_append_left hlt, hitem]
    · cases h
    · cases h

end Encode

/-- Dictionaries that come from `init` by coding values. -/
inductive DictReachable (hash : List UInt8 → Nat) (init : DictData) : DictData → Prop
  | init : DictReachable hash init init
  | encode {d d' : DictData} {v rest : List UInt8} {code : Nat} : DictReachable hash init d →
      IsVarlena v → encodeOneValue hash d (v ++ rest) = .code code d' → DictReachable hash init d'

theorem DictReachable.inv {hash : List UInt8 → Nat} {init d : DictData}
    (h : DictReachable hash init d) (hinit : DictInv hash init []) :
    ∃ items, DictInv hash d items := by
  induction h with
  | init => exact ⟨[], hinit⟩
  | encode _ hv hcode ih =>
    obtain ⟨items, hinv⟩ := ih
    obtain ⟨items', -, hinv', -⟩ := hinv.encodeOneValue hv hcode
    exact ⟨items', hinv'⟩

/-! ## The decoder -/

/-- `m_itemOffset` of a dictionary on disk, by a walk over the items. -/
def readOffsets (data : List UInt8) (dictDataSize : Nat) : Nat → Nat → List Nat
  | 0, offset => [offset]
  | fuel + 1, offset =>
    if offset < dictDataSize then
      offset :: readOffsets data dictDataSize fuel (offset + varsizeAny (data.drop offset))
    else [offset]

/-- `DicCoder::Decompress`. The number of codes is 16 bits wide. -/
def dicDecompress (data : List UInt8) (dictDataSize : Nat) (codes : List Nat) : List UInt8 :=
  let itemOffset := readOffsets data dictDataSize dictDataSize 0
  (codes.take (codes.length % 0x10000)).flatMap fun code =>
    let pItem := data.drop (itemOffset.getD code 0)
    pItem.take (varsizeAny pItem)

theorem getD_readOffsets (rest : List UInt8) : ∀ {items : List (List UInt8)}
    (before : List (List UInt8)) {fuel i : Nat},
    (∀ v ∈ items, IsVarlena v) → items.length ≤ fuel → i < items.length →
      (readOffsets ((before ++ items).flatten ++ rest) (before ++ items).flatten.length fuel
        before.flatten.length).getD i 0 = ((before ++ items).take (before.length + i)).flatten.length
  | [], _, _, _, _, _, hi => nomatch hi
  | v :: items, before, 0, _, _, hfuel, _ => absurd hfuel (by simp)
  | v :: items, before, fuel + 1, i, hitems, hfuel, hi => by
    have hv := hitems v (.head _)
    have hpos := hv.length_pos
    have hflat : (before ++ v :: items).flatten = before.flatten ++ (v ++ items.flatten) := by
      rw [flatten_append, flatten_cons]
    have hlt : before.flatten.length < (before ++ v :: items).flatten.length := by
      rw [hflat, length_append, length_append]
      omega
    have hsize : varsizeAny (((before ++ v :: items).flatten ++ rest).drop before.flatten.length) =
        v.length := by
      rw [hflat, append_assoc, drop_left, append_assoc, hv.varsizeAny_append]
    have hcons : before ++ v :: items = (before ++ [v]) ++ items := by
      rw [append_assoc, List.singleton_append]
    rw [readOffsets, if_pos hlt, hsize]
    cases i with
    | zero => rw [List.getD_cons_zero, Nat.add_zero, take_left]
    | succ i =>
      have hnext : before.flatten.length + v.length = (before ++ [v]).flatten.length := by
        rw [flatten_append, List.flatten_singleton, length_append]
      have hindex : before.length + (i + 1) = (before ++ [v]).length + i := by
        rw [length_append, length_singleton]
        omega
      rw [List.getD_cons_succ, hnext, hcons, hindex]
      exact getD_readOffsets rest (before ++ [v]) (fun u hu => hitems u (.tail _ hu))
        (by simpa using hfuel) (by simpa using hi)

theorem length_le_flatten {items : List (List UInt8)} (h : ∀ v ∈ items, IsVarlena v) :
    items.length ≤ items.flatten.length := by
  induction items with
  | nil => exact Nat.le_refl 0
  | cons v items ih =>
    have hpos := (h v (.head _)).length_pos
    have hrest := ih fun u hu => h u (.tail _ hu)
    rw [List.length_cons, flatten_cons, length_append]
    omega

theorem dicDecompress_eq {items vals : List (List UInt8)} (rest : List UInt8) {codes : List Nat}
    (hitems : ∀ v ∈ items, IsVarlena v) (hcount : codes.length < 0x10000)
    (hcodes : codes.map (fun code => items[code]?) = vals.map some) :
    dicDecompress (items.flatten ++ rest) items.flatten.length codes = vals.flatten := by
  have hitem : ∀ code v, items[code]? = some v →
      ((items.flatten ++ rest).drop ((readOffsets (items.flatten ++ rest) items.flatten.length
        items.flatten.length 0).getD code 0)).take (varsizeAny ((items.flatten ++ rest).drop
          ((readOffsets (items.flatten ++ rest) items.flatten.length
            items.flatten.length 0).getD code 0))) = v := by
    intro code v hv
    obtain ⟨hlt, rfl⟩ := List.getElem?_eq_some_iff.mp hv
    have hoffset := getD_readOffsets rest [] hitems (length_le_flatten hitems) hlt
    simp only [List.nil_append, List.flatten_nil, List.length_nil, Nat.zero_add] at hoffset
    have hdrop : (items.flatten ++ rest).drop (items.take code).flatten.length =
        items[code] ++ ((items.drop (code + 1)).flatten ++ rest) := by
      have hsplit : items.flatten = (items.take code).flatten ++ (items.drop code).flatten := by
        rw [← flatten_append, List.take_append_drop]
      rw [hsplit, append_assoc, drop_left, List.drop_eq_getElem_cons hlt,
        flatten_cons, append_assoc]
    rw [hoffset, hdrop, (hitems _ (List.getElem_mem hlt)).varsizeAny_append, take_left]
  unfold dicDecompress
  dsimp only
  rw [Nat.mod_eq_of_lt hcount, List.take_length]
  clear hcount
  induction codes generalizing vals with
  | nil =>
    rw [List.map_nil, eq_comm, List.map_eq_nil_iff] at hcodes
    rw [hcodes]
    rfl
  | cons code codes ih =>
    match vals with
    | [] => cases hcodes
    | v :: vals =>
      rw [map_cons, map_cons, List.cons.injEq] at hcodes
      rw [List.flatMap_cons, flatten_cons, hitem code v hcodes.1, ih hcodes.2]

end OpenGauss.CStore
