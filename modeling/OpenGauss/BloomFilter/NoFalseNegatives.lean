import OpenGauss.BloomFilter.Filter

/-!
# What a filter answers about the values it holds

`BuiltInv` is what adding, uniting and converting keep: the bits set are those of
the values, the stored positions are those of the values added, and minimum and
maximum bound the values added. Uniting only joins the bits, so the answers that
do not come from the bits know nothing of the values of the other filter.
-/

namespace OpenGauss.BloomFilter

open Lib
open WordSet (get get_eq_getLsbD)

theorem position_lt {numBits : Nat} (h : 0 < numBits) (hash64 : BitVec 64) (i : Nat) :
    position numBits hash64 i < numBits := Nat.mod_lt _ h

/-- Cells written one after the other hold what was written, all others what they
held. -/
theorem foldl_update_range (k base : Nat) (g : Nat → Nat) (p : Nat → Nat) (c : Nat) :
    ((List.range k).foldl (fun p i => Function.update p (base + i) (g i)) p) c =
      if base ≤ c ∧ c < base + k then g (c - base) else p c := by
  induction k with
  | zero => rw [if_neg (by omega)]; rfl
  | succ k ih =>
    rw [List.range_succ, List.foldl_append, List.foldl_cons, List.foldl_nil]
    by_cases hc : c = base + k
    · subst hc
      rw [Function.update_self, if_pos (by omega), Nat.add_sub_cancel_left]
    · rw [Function.update_of_ne hc, ih]
      exact if_congr (by omega) rfl rfl

namespace BloomFilterImpl

variable {f g f' : BloomFilterImpl} {v : BitVec 64}

theorem get_setBits {hash64 : BitVec 64} {p : Nat} :
    get (f.setBits hash64) p = true ↔ get f.bitSet p = true ∨
      ∃ j < f.numHashFunctions, p = position f.numBits hash64 (j + 1) := by
  rw [setBits, WordSet.get_foldl_set]
  simp

theorem minMaxed_eq (v : BitVec 64) : ∃ lo hi mm, (if f.addMinMax then f.setMinMax v else f) =
    { f with minValue := lo, maxValue := hi, hasMM := mm } := by
  unfold setMinMax
  split_ifs <;> exact ⟨_, _, _, rfl⟩

/-- A value is added to the bits and positions; minimum and maximum are kept only
where they are asked for. -/
theorem addDatum_cases (h : f.addDatum v = some f') : f.numValues < f.maxNumValues ∧
    maxHashFunctions * f.numValues + f.numHashFunctions ≤ maxHashFunctions * f.grownEntries ∧
    ∃ lo hi mm,
      (if f.addMinMax then f.setMinMax v else f) =
        { f with minValue := lo, maxValue := hi, hasMM := mm } ∧
      f' =
        { f with
          minValue := lo
          maxValue := hi
          hasMM := mm
          startupEntries := f.grownEntries
          bitSet := f.setBits (getLongHash v)
          valuePositions := f.setPositions (getLongHash v)
          numValues := f.numValues + 1 } := by
  obtain ⟨lo, hi, mm, hframe⟩ := minMaxed_eq (f := f) v
  rw [addDatum, hframe] at h
  unfold addHash at h
  split at h
  · cases h
  split at h
  · cases h
  rename_i hle hroom
  exact ⟨Nat.lt_of_not_le hle, Nat.le_of_not_lt hroom, lo, hi, mm, hframe, (Option.some.inj h).symm⟩

theorem unionAll_cases (h : f.unionAll g = some f') :
    f.numBits = g.numBits ∧ f.numHashFunctions = g.numHashFunctions ∧
      f' = { f with
        bitSet := fun i => if i < f.length then f.bitSet i ||| g.bitSet i else f.bitSet i } := by
  unfold unionAll at h
  split at h
  · rename_i hsize
    rw [Bool.and_eq_true, beq_iff_eq, beq_iff_eq] at hsize
    exact ⟨hsize.1, hsize.2, (Option.some.inj h).symm⟩
  · cases h

end BloomFilterImpl

open BloomFilterImpl

section Positions

variable (f : BloomFilterImpl) (vs : List (BitVec 64))

/-- A hash function of the filter gives the position for one of the values. -/
def BloomFilterImpl.Marks (p : Nat) : Prop :=
  ∃ v ∈ vs, ∃ j < f.numHashFunctions, p = position f.numBits (getLongHash v) (j + 1)

/-- The last of the values `vs` added that wrote to a cell. -/
def lastWriter (c : Nat) : Nat := min (c / maxHashFunctions) (vs.length - 1)

/-- What that value wrote. -/
def BloomFilterImpl.storedPosition (c : Nat) : Nat :=
  (vs[lastWriter vs c]?.map fun v => position f.numBits (getLongHash v)
    (c - maxHashFunctions * lastWriter vs c + 1) % 2 ^ 16).getD 0

variable {f vs} {ws : List (BitVec 64)} {p : Nat}

theorem marks_append : f.Marks (vs ++ ws) p ↔ f.Marks vs p ∨ f.Marks ws p := by
  simp only [Marks, List.mem_append, or_and_right, exists_or]

theorem lastWriter_concat (vs : List (BitVec 64)) (v : BitVec 64) (c : Nat) :
    lastWriter (vs ++ [v]) c =
      if maxHashFunctions * vs.length ≤ c then vs.length else lastWriter vs c := by
  split <;> rename_i hc <;>
    simp only [lastWriter, maxHashFunctions, List.length_append, List.length_singleton] at hc ⊢ <;>
    omega

end Positions

structure BuiltInv (f : BloomFilterImpl) (own united : List (BitVec 64)) : Prop where
  numBits_pos : 0 < f.numBits
  numBits_words : 64 ∣ f.numBits
  bits : ∀ p, get f.bitSet p = true ↔ f.Marks (own ++ united) p
  numValues : f.numValues = own.length
  entries : 0 < f.startupEntries ∧ own.length ≤ f.startupEntries
  hasMM : f.hasMM = true ↔ f.addMinMax = true ∧ own ≠ []
  range : f.hasMM = true → ∀ v ∈ own, f.minValue.toInt ≤ v.toInt ∧ v.toInt ≤ f.maxValue.toInt
  attained : f.hasMM = true → f.minValue ∈ own ∧ f.maxValue ∈ own
  room : own ≠ [] → maxHashFunctions * (own.length - 1) + f.numHashFunctions ≤
    maxHashFunctions * f.startupEntries
  cells : own ≠ [] → ∀ c, c - maxHashFunctions * lastWriter own c < f.numHashFunctions →
    f.valuePositions c = f.storedPosition own c

namespace BuiltInv

variable {f g f' : BloomFilterImpl} {own united own' united' : List (BitVec 64)} {v : BitVec 64}

theorem empty (c : Capacity) (addMinMax : Bool) :
    BuiltInv (createBloomFilter c addMinMax) [] [] where
  numBits_pos := by simp only [createBloomFilter]; omega
  numBits_words := by simp only [createBloomFilter]; omega
  bits := fun p => by simp [createBloomFilter, Marks]
  numValues := rfl
  entries := ⟨Nat.lt_min.mpr ⟨c.entries_pos, by decide⟩, Nat.zero_le _⟩
  hasMM := by simp [createBloomFilter]
  range := nofun
  attained := nofun
  room := fun hne => absurd rfl hne
  cells := fun hne => absurd rfl hne

variable (h : BuiltInv f own united)

include h

theorem setMinMax (hadd : f.addMinMax = true) (v : BitVec 64) : (f.setMinMax v).hasMM = true ∧
      ((f.setMinMax v).minValue ∈ own ++ [v] ∧ (f.setMinMax v).maxValue ∈ own ++ [v]) ∧
      ∀ u ∈ own ++ [v], (f.setMinMax v).minValue.toInt ≤ u.toInt ∧
        u.toInt ≤ (f.setMinMax v).maxValue.toInt := by
  unfold BloomFilterImpl.setMinMax
  cases hmm : f.hasMM with
  | false =>
    have hown : own = [] := by
      by_contra hne
      rw [h.hasMM.mpr ⟨hadd, hne⟩] at hmm
      cases hmm
    subst hown
    exact ⟨rfl, ⟨.head _, .head _⟩,
      List.forall_mem_singleton.mpr ⟨Int.le_refl _, Int.le_refl _⟩⟩
  | true =>
    obtain ⟨hmin, hmax⟩ := h.attained hmm
    have hrange := h.range hmm
    have hv : v ∈ own ++ [v] := List.mem_append_right _ (List.mem_singleton.mpr rfl)
    simp only [Bool.not_true, Bool.false_eq_true, if_false, BitVec.slt_iff_toInt_lt]
    -- the value is a new minimum, a new maximum or neither
    split
    · rename_i hlt
      refine ⟨rfl, ⟨hv, List.mem_append_left _ hmax⟩, List.forall_mem_append.mpr
        ⟨fun u hu => ⟨?_, (hrange u hu).2⟩, List.forall_mem_singleton.mpr ⟨Int.le_refl _, ?_⟩⟩⟩
      · have := (hrange u hu).1
        dsimp only
        omega
      · have := (hrange _ hmin).2
        dsimp only
        omega
    rename_i hge
    split
    · rename_i hlt
      refine ⟨rfl, ⟨List.mem_append_left _ hmin, hv⟩, List.forall_mem_append.mpr
        ⟨fun u hu => ⟨(hrange u hu).1, ?_⟩, List.forall_mem_singleton.mpr ⟨?_, Int.le_refl _⟩⟩⟩
      · have := (hrange u hu).2
        dsimp only
        omega
      · dsimp only
        omega
    · rename_i hle
      exact ⟨hmm, ⟨List.mem_append_left _ hmin, List.mem_append_left _ hmax⟩,
        List.forall_mem_append.mpr ⟨hrange, List.forall_mem_singleton.mpr (by omega)⟩⟩

theorem minMax_add (v : BitVec 64) {lo hi : BitVec 64} {mm : Bool}
    (hframe : (if f.addMinMax then f.setMinMax v else f) =
      { f with minValue := lo, maxValue := hi, hasMM := mm }) :
    (mm = true ↔ f.addMinMax = true ∧ own ++ [v] ≠ []) ∧
      (mm = true → (lo ∈ own ++ [v] ∧ hi ∈ own ++ [v]) ∧
        ∀ u ∈ own ++ [v], lo.toInt ≤ u.toInt ∧ u.toInt ≤ hi.toInt) := by
  cases hadd : f.addMinMax with
  | true =>
    rw [if_pos hadd] at hframe
    have hset := h.setMinMax hadd v
    rw [hframe] at hset
    exact ⟨⟨fun _ => ⟨rfl, by simp⟩, fun _ => hset.1⟩, fun _ => hset.2⟩
  | false =>
    rw [if_neg (by simp [hadd])] at hframe
    have hmm : mm = false := by
      rw [show mm = f.hasMM from congrArg BloomFilterImpl.hasMM hframe.symm]
      by_contra hne
      have := (h.hasMM.mp (by simpa using hne)).1
      rw [hadd] at this
      cases this
    subst hmm
    exact ⟨by simp, nofun⟩

theorem lt_grownEntries (hroom : own.length < f.maxNumValues) : own.length < f.grownEntries := by
  obtain ⟨hpos, hlen⟩ := h.entries
  rw [grownEntries, h.numValues]
  split
  · exact Nat.lt_min.mpr ⟨by omega, by omega⟩
  · omega

/-- With four hash functions at most, a value can be added as long as there are not too many. -/
theorem exists_addDatum (hk : f.numHashFunctions ≤ maxHashFunctions)
    (hroom : own.length < f.maxNumValues) (v : BitVec 64) : ∃ f', f.addDatum v = some f' := by
  obtain ⟨lo, hi, mm, hframe⟩ := minMaxed_eq (f := f) v
  have hlt := h.lt_grownEntries hroom
  have hnum := h.numValues
  simp only [grownEntries, maxHashFunctions] at hk hlt
  rw [addDatum, hframe, addHash, if_neg (by simp only; omega),
    if_neg (by simp only [grownEntries, maxHashFunctions]; omega)]
  exact ⟨_, rfl⟩

theorem add (hadd : f.addDatum v = some f') : BuiltInv f' (own ++ [v]) united := by
  obtain ⟨hroom, hcells, lo, hi, mm, hframe, rfl⟩ := addDatum_cases hadd
  obtain ⟨hmm, hbounds⟩ := h.minMax_add v hframe
  have hnum := h.numValues
  have hlt := h.lt_grownEntries (hnum ▸ hroom)
  refine
    { numBits_pos := h.numBits_pos
      numBits_words := h.numBits_words
      bits := fun p => ?_
      numValues := by simp [hnum]
      entries := ⟨Nat.zero_lt_of_lt hlt, List.length_append ▸ hlt⟩
      hasMM := hmm
      range := fun hm => (hbounds hm).2
      attained := fun hm => (hbounds hm).1
      room := fun _ => by simpa [hnum] using hcells
      cells := fun _ c hc => ?_ }
  · show get (f.setBits (getLongHash v)) p = true ↔ f.Marks (own ++ [v] ++ united) p
    rw [get_setBits, h.bits, marks_append, marks_append, marks_append, or_right_comm]
    simp [Marks]
  · -- the cells of the new value lie behind those of the others
    have hlast := lastWriter_concat own v c
    show f.setPositions (getLongHash v) c = f.storedPosition (own ++ [v]) c
    change c - maxHashFunctions * lastWriter (own ++ [v]) c < f.numHashFunctions at hc
    rw [setPositions, foldl_update_range, storedPosition, hnum]
    split at hlast
    · rename_i hc4
      rw [hlast] at hc ⊢
      rw [if_pos ⟨hc4, by omega⟩, List.getElem?_concat_length]
      rfl
    · rename_i hc4
      have hin : lastWriter own c < own.length := by
        simp only [lastWriter, maxHashFunctions] at hc4 ⊢
        omega
      rw [hlast] at hc ⊢
      rw [if_neg fun h => hc4 h.1, h.cells (List.ne_nil_of_length_pos (by omega)) c hc,
        List.getElem?_append_left hin]
      rfl

theorem marks_lt {p : Nat} {vs : List (BitVec 64)} (hp : f.Marks vs p) : p / 64 < f.length := by
  obtain ⟨v, -, j, -, rfl⟩ := hp
  have := position_lt h.numBits_pos (getLongHash v) (j + 1)
  have := Nat.div_mul_cancel h.numBits_words
  rw [BloomFilterImpl.length]
  omega

theorem union (h' : BuiltInv g own' united')
    (hunion : f.unionAll g = some f') : BuiltInv f' own (united ++ (own' ++ united')) := by
  obtain ⟨hbits, hhash, rfl⟩ := unionAll_cases hunion
  refine { h with bits := fun p => ?_ }
  have hg : ∀ vs, g.Marks vs p ↔ f.Marks vs p := fun vs => by rw [Marks, Marks, hbits, hhash]
  show get (fun i => if i < f.length then f.bitSet i ||| g.bitSet i else f.bitSet i) p = true ↔
    f.Marks (own ++ (united ++ (own' ++ united'))) p
  rw [← List.append_assoc, marks_append, ← h.bits, ← hg, ← h'.bits]
  by_cases hi : p / 64 < f.length
  · rw [← Bool.or_eq_true, ← WordSet.get_or, get_eq_getLsbD, get_eq_getLsbD, if_pos hi]
  · -- no position is behind the words of the filter
    rw [get_eq_getLsbD, if_neg hi, ← get_eq_getLsbD]
    exact (or_iff_left fun hp => hi (h.marks_lt ((hg _).mp ((h'.bits p).mp hp)))).symm

theorem convert : BuiltInv (rebuildBloomFilterValue (makeBloomFilterSet f)) own united := by
  refine
    { h with
      bits := fun p => ?_
      cells := fun hne c hc => ?_ }
  · show get (fun i => if i < f.length then f.bitSet i else 0) p = true ↔ f.Marks (own ++ united) p
    rw [← h.bits]
    by_cases hi : p / 64 < f.length
    · rw [get_eq_getLsbD, if_pos hi, ← get_eq_getLsbD]
    · refine iff_of_false ?_ fun hp => hi (h.marks_lt ((h.bits p).mp hp))
      rw [get_eq_getLsbD, if_neg hi]
      simp
  · have hroom := h.room hne
    have hcell : c < maxHashFunctions * f.startupEntries := by
      change c - maxHashFunctions * lastWriter own c < f.numHashFunctions at hc
      simp only [lastWriter, maxHashFunctions] at hc hroom ⊢
      omega
    show (if c < maxHashFunctions * f.startupEntries then
      (if c < maxHashFunctions * f.startupEntries then f.valuePositions c else 0) else 0) = _
    rw [if_pos hcell, if_pos hcell]
    exact h.cells hne c hc

end BuiltInv

theorem Built.inv {f : BloomFilterImpl} {own united : List (BitVec 64)} (h : Built f own united) :
    BuiltInv f own united := by
  induction h with
  | empty c addMinMax => exact .empty c addMinMax
  | add v _ hadd ih => exact ih.add hadd
  | union _ _ hunion ih ih' => exact ih.union ih' hunion
  | convert _ ih => exact ih.convert

/-- `addDatum` for every value of a list -/
def BloomFilterImpl.addDatums (f : BloomFilterImpl) : List (BitVec 64) → BloomFilterImpl
  | [] => f
  | v :: vs => ((f.addDatum v).getD f).addDatums vs

theorem Built.addDatums {vs : List (BitVec 64)} {f : BloomFilterImpl} {own united}
    (h : Built f own united) (hk : f.numHashFunctions ≤ maxHashFunctions)
    (hroom : own.length + vs.length ≤ f.maxNumValues) :
      Built (f.addDatums vs) (own ++ vs) united := by
  induction vs generalizing f own united with
  | nil =>
    rw [List.append_nil]
    exact h
  | cons v vs ih =>
    rw [List.length_cons] at hroom
    obtain ⟨f', hadd⟩ := h.inv.exists_addDatum hk (by omega) v
    obtain ⟨-, -, lo, hi, mm, -, rfl⟩ := addDatum_cases hadd
    have := ih (h.add v hadd) hk (by simp only [List.length_append, List.length_singleton]; omega)
    rw [BloomFilterImpl.addDatums, hadd, List.append_cons]
    exact this

namespace BuiltInv

variable {A B : BloomFilterImpl} {own united own' united' : List (BitVec 64)} {v : BitVec 64}

end BuiltInv

/-- Filled from nothing with `vs`. -/
def filled (c : Capacity) (addMinMax : Bool) (vs : List (BitVec 64)) : BloomFilterImpl :=
  (createBloomFilter c addMinMax).addDatums vs

end OpenGauss.BloomFilter
