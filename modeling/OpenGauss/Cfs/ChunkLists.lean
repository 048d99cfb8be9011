import Mathlib.Data.List.Perm.Subperm
import OpenGauss.Cfs.Extent

/-!
# Chunk lists that do not overlap

The invariant of an address page with fragment reuse: every block owns one run
of chunks, the runs are apart from each other, the bitmap marks exactly the
owned chunks and the fragment count is the number of the others. A write keeps
it, whichever of the four situations serves it, and loading the page keeps it
as long as no dropped block still owns a chunk.
-/

namespace OpenGauss.Cfs

variable {x : Extent}

theorem sum_range_change {f g : Nat → Nat} {b n : Nat} (hb : b < n) (hne : ∀ i, i ≠ b → g i = f i) :
    ((List.range n).map g).sum + f b = ((List.range n).map f).sum + g b := by
  induction n with
  | zero => omega
  | succ n ih =>
    rw [List.range_succ, List.map_append, List.map_append, List.sum_append, List.sum_append,
      List.map_singleton, List.map_singleton, List.sum_singleton, List.sum_singleton]
    by_cases hbn : b = n
    · have hsame : (List.range n).map g = (List.range n).map f := by
        apply List.map_congr_left
        intro i hi
        exact hne i (by have := List.mem_range.mp hi; omega)
      rw [hsame, hbn]
      omega
    · have := ih (by omega)
      rw [hne n (by omega)]
      omega

namespace Extent

/-- Block `b` of the extent owns chunk `c`. -/
def Owns (x : Extent) (b c : Nat) : Prop :=
  b < logicBlocksPerExtent ∧ c ∈ (x.address b).chunknos

/-- The last chunk number that lies in the data area and has a bit in the bitmap. -/
def chunkLimit (size : ChunkSize) : Nat :=
  min size.maxLogicChunksNumber (8 * allocateChunkUsageLen - 1)

/-- The chunk allocation of an extent is sound. -/
structure Sound (x : Extent) : Prop where
  disjoint : ∀ {b b' c}, x.Owns b c → x.Owns b' c → b = b'
  pos : ∀ {b c}, x.Owns b c → 0 < c
  le_max : ∀ {b c}, x.Owns b c → c ≤ x.chunkSize.maxLogicChunksNumber
  le_allocated : ∀ {b c}, x.Owns b c → c ≤ x.allocatedChunks
  inside : ∀ {b c}, x.Owns b c → c / 8 < allocateChunkUsageLen
  bit_iff : ∀ c, x.allocatedChunkUsages c = true ↔ ∃ b, x.Owns b c
  fragments : x.nFragmentChunks = x.allocatedChunks - x.ownedBefore logicBlocksPerExtent

/-- What holds of the lists alone, in either mode. -/
structure ListsOk (x : Extent) : Prop where
  nodup : ∀ b, b < logicBlocksPerExtent → (x.address b).chunknos.Nodup
  disjoint : ∀ {b b' c}, x.Owns b c → x.Owns b' c → b = b'
  pos : ∀ {b c}, x.Owns b c → 0 < c
  le_allocated : ∀ {b c}, x.Owns b c → c ≤ x.allocatedChunks
  length_le : ∀ b, b < logicBlocksPerExtent →
    (x.address b).chunknos.length ≤ x.chunkSize.chunksPerBlock
  nchunks_le : ∀ b, b < logicBlocksPerExtent → (x.address b).nchunks ≤ (x.address b).chunknos.length
  live : ∀ b, b < logicBlocksPerExtent → 0 < (x.address b).nchunks → b < x.nblocks
  nblocks_le : x.nblocks ≤ logicBlocksPerExtent

/-- The invariant with fragment reuse: every list is one run, and bitmap and fragment count agree
with the lists. -/
structure Inv (x : Extent) : Prop extends ListsOk x where
  run : ∀ b, b < logicBlocksPerExtent →
    ∃ start, (x.address b).chunknos = chunkRun start (x.address b).chunknos.length
  bit_iff : ∀ c, x.allocatedChunkUsages c = true ↔ ∃ b, x.Owns b c
  fragments : x.nFragmentChunks + x.ownedBefore logicBlocksPerExtent = x.allocatedChunks

def Fits (x : Extent) : Prop := x.allocatedChunks ≤ chunkLimit x.chunkSize

/-- No block behind `nblocks` still owns a chunk. -/
def NoDropped (x : Extent) : Prop :=
  ∀ b, b < logicBlocksPerExtent → x.nblocks ≤ b → (x.address b).chunknos = []

theorem noDropped_iff : NoDropped x ↔ ∀ b c, x.Owns b c → b < x.nblocks := by
  constructor
  · intro h b c ho
    by_contra hge
    have hnil := h b ho.1 (by omega)
    exact absurd (hnil ▸ ho.2) List.not_mem_nil
  · intro h b hb hge
    rw [List.eq_nil_iff_forall_not_mem]
    intro c hc
    have := h b c ⟨hb, hc⟩
    omega

theorem chunkLimit_le (size : ChunkSize) : chunkLimit size ≤ 1015 := Nat.min_le_right _ _

theorem chunksPerBlock_le (size : ChunkSize) : size.chunksPerBlock ≤ 16 := by
  cases size <;> decide

theorem le_chunkLimit {size : ChunkSize} {c : Nat} :
    c ≤ chunkLimit size ↔ c ≤ size.maxLogicChunksNumber ∧ c / 8 < allocateChunkUsageLen := by
  unfold chunkLimit allocateChunkUsageLen
  omega

theorem Inv.sound (h : Inv x) (hfits : Fits x) : Sound x where
  __ := h
  le_max ho := (le_chunkLimit.mp ((h.le_allocated ho).trans hfits)).1
  inside ho := (le_chunkLimit.mp ((h.le_allocated ho).trans hfits)).2
  fragments := by
    have := h.fragments
    omega

/-- Lists that are apart and end at `allocated_chunks` are together no longer than that. -/
theorem ListsOk.owned_le (h : ListsOk x) :
    x.ownedBefore logicBlocksPerExtent ≤ x.allocatedChunks := by
  have hnodup : ((List.range logicBlocksPerExtent).flatMap fun b =>
      (x.address b).chunknos).Nodup := by
    rw [List.nodup_flatMap]
    constructor
    · intro b hb
      exact h.nodup b (List.mem_range.mp hb)
    · apply List.Pairwise.imp_of_mem _ List.nodup_range
      intro b b' hb hb' hne c hc hc'
      exact hne (h.disjoint ⟨List.mem_range.mp hb, hc⟩ ⟨List.mem_range.mp hb', hc'⟩)
  have hsub : ((List.range logicBlocksPerExtent).flatMap fun b => (x.address b).chunknos) ⊆
      chunkRun 1 x.allocatedChunks := by
    intro c hc
    obtain ⟨b, hb, hcb⟩ := List.mem_flatMap.mp hc
    have ho : x.Owns b c := ⟨List.mem_range.mp hb, hcb⟩
    have hpos := h.pos ho
    have hle := h.le_allocated ho
    exact mem_chunkRun.mpr (by omega)
  have hlen := (List.subperm_of_subset hnodup hsub).length_le
  rw [length_chunkRun, List.length_flatMap] at hlen
  exact hlen

/-! ## Giving chunks to a block -/

/-- The chunks that a block which grows takes behind the last one: those it is short of if it ends
the extent, none if a search finds a run for it, else all. -/
def tailChunks (x : Extent) (b need : Nat) : Nat :=
  let old := (x.address b).chunknos
  if old ≠ [] ∧ old.getLastD 0 = x.allocatedChunks then need - old.length
  else if (x.cleanUp b).adjacentRun old need = 0 ∧ (x.cleanUp b).headRun need = 0 then need
  else 0

/-- What a block that grows is given: a run from `start` of chunks that no other block owns. -/
structure Grown (x y : Extent) (b need start : Nat) : Prop where
  chunkSize : y.chunkSize = x.chunkSize
  nblocks : y.nblocks = x.nblocks
  address : y.address = Function.update x.address b ⟨(x.address b).nchunks, chunkRun start need⟩
  usages : ∀ c, y.allocatedChunkUsages c =
    if start ≤ c ∧ c < start + need then true else (x.cleanUp b).allocatedChunkUsages c
  free : ∀ c, start ≤ c → c < start + need →
    0 < c ∧ c ≤ y.allocatedChunks ∧ (x.cleanUp b).allocatedChunkUsages c = false
  allocated : y.allocatedChunks = x.allocatedChunks + x.tailChunks b need ∧
    x.tailChunks b need ≤ need ∧
      (x.tailChunks b need = 0 ∨ y.allocatedChunks + 1 = start + need)
  fragments : y.nFragmentChunks = sub16
    (x.nFragmentChunks + (x.address b).chunknos.length + (y.allocatedChunks - x.allocatedChunks)) need

/-- After the clean-up the bitmap marks the chunks of the other blocks. -/
theorem Inv.cleanUp_bit (h : Inv x) {b : Nat} (hb : b < logicBlocksPerExtent) (c : Nat) :
    (x.cleanUp b).allocatedChunkUsages c = true ↔ ∃ b', b' ≠ b ∧ x.Owns b' c := by
  by_cases hc : c ∈ (x.address b).chunknos
  · have hclear : (x.cleanUp b).allocatedChunkUsages c = false := if_pos hc
    rw [hclear]
    constructor
    · intro hf; cases hf
    · rintro ⟨b', hne, ho⟩
      exact absurd (h.disjoint ho ⟨hb, hc⟩) hne
  · have hkeep : (x.cleanUp b).allocatedChunkUsages c = x.allocatedChunkUsages c := if_neg hc
    rw [hkeep, h.bit_iff]
    constructor
    · rintro ⟨b', ho⟩
      refine ⟨b', ?_, ho⟩
      rintro rfl
      exact hc ho.2
    · rintro ⟨b', -, ho⟩
      exact ⟨b', ho⟩

/-- Behind `allocated_chunks` every chunk is free. -/
theorem Inv.cleanUp_tail (h : Inv x) {b c : Nat} (hb : b < logicBlocksPerExtent)
    (hc : x.allocatedChunks < c) : (x.cleanUp b).allocatedChunkUsages c = false := by
  rw [Bool.eq_false_iff]
  intro hbit
  obtain ⟨b', -, ho⟩ := (h.cleanUp_bit hb c).mp hbit
  have := h.le_allocated ho
  omega

theorem Inv.owned_bounds (h : Inv x) (hfits : Fits x) :
    x.nFragmentChunks ≤ 1015 ∧ x.allocatedChunks ≤ 1015 := by
  have hle : x.allocatedChunks ≤ 1015 := hfits.trans (chunkLimit_le _)
  have := h.fragments
  omega

theorem run_ends {l : List Nat} {start : Nat} (hrun : l = chunkRun start l.length) (hne : l ≠ []) :
    l.headD 0 = start ∧ l.getLastD 0 = start + l.length - 1 := by
  have hlen : 0 < l.length := List.length_pos_iff.mpr hne
  generalize l.length = n at hrun hlen
  subst hrun
  obtain ⟨n, rfl⟩ := Nat.exists_eq_succ_of_ne_zero (Nat.pos_iff_ne_zero.mp hlen)
  constructor
  · simp [chunkRun, List.range_succ_eq_map]
  · simp [chunkRun, List.range_succ]

section Grow

variable (h : Inv x) {b need : Nat} (hb : b < logicBlocksPerExtent)
include h hb

/-- The chunks given back are a run of free ones. -/
theorem Inv.cleanUp_own : ∃ start,
    (x.address b).chunknos = chunkRun start (x.address b).chunknos.length ∧
    ∀ c, start ≤ c → c < start + (x.address b).chunknos.length →
      0 < c ∧ c ≤ x.allocatedChunks ∧ (x.cleanUp b).allocatedChunkUsages c = false := by
  obtain ⟨start, hrun⟩ := h.run b hb
  refine ⟨start, hrun, fun c hlo hhi => ?_⟩
  have hc : c ∈ (x.address b).chunknos := by
    rw [hrun]
    exact mem_chunkRun.mpr ⟨hlo, hhi⟩
  exact ⟨h.pos ⟨hb, hc⟩, h.le_allocated ⟨hb, hc⟩, if_pos hc⟩

theorem Inv.adjacentRun_free (hlt : (x.address b).chunknos.length < need)
    (hfound : (x.cleanUp b).adjacentRun (x.address b).chunknos need ≠ 0) (c : Nat)
    (hlo : (x.cleanUp b).adjacentRun (x.address b).chunknos need ≤ c)
    (hhi : c < (x.cleanUp b).adjacentRun (x.address b).chunknos need + need) :
    0 < c ∧ c ≤ x.allocatedChunks ∧ (x.cleanUp b).allocatedChunkUsages c = false := by
  obtain ⟨start, hrun, hown⟩ := h.cleanUp_own hb
  generalize (x.address b).chunknos = old at *
  have hne : old ≠ [] := fun hnil => hfound (if_neg (not_not_intro hnil))
  have hlen : 0 < old.length := List.length_pos_iff.mpr hne
  obtain ⟨hfirst, hlast⟩ := run_ends hrun hne
  rw [adjacentRun, if_pos hne, hfirst, hlast] at hfound hlo hhi
  have hmax := (hown (start + old.length - 1) (by omega) (by omega)).2.1
  exact findAdjacentEmptyChunkNo_spec rfl hfound hlen (hown start le_rfl (by omega)).1
    (show start + old.length ≤ x.allocatedChunks + 1 by omega)
    (fun c hlo hhi => (hown c hlo hhi).2.2) c hlo (by omega)

/-- The four situations of `ExtendChunksOfBlockCore`. -/
theorem Inv.grown (hfits : Fits x) (hneed : need ≤ x.chunkSize.chunksPerBlock)
    (hlt : (x.address b).chunknos.length < need) :
    ∃ start, Grown x ((x.cleanUp b).findChunks b (x.address b).chunknos need) b need start := by
  set y := x.cleanUp b
  set last := x.allocatedChunks
  obtain ⟨hF, hA⟩ := h.owned_bounds hfits
  have hneed16 : need ≤ 16 := hneed.trans (chunksPerBlock_le _)
  have hadj := h.adjacentRun_free hb hlt
  obtain ⟨start, hrun, hown⟩ := h.cleanUp_own hb
  have hpart : x.tailChunks b need = if _ then _ else _ := rfl
  generalize hold : (x.address b).chunknos = old at *
  have hfrag : y.nFragmentChunks = x.nFragmentChunks + old.length := by
    have : y.nFragmentChunks =
      (x.nFragmentChunks + (x.address b).chunknos.length) % 2 ^ 16 := rfl
    rw [this, hold]
    omega
  unfold findChunks
  dsimp only
  split
  case isTrue htail =>
    -- the block ends the extent and grows over the unallocated area
    obtain ⟨hne, hrear, -⟩ := htail
    replace hpart := hpart.trans (if_pos ⟨hne, hrear⟩)
    have hlen : 0 < old.length := List.length_pos_iff.mpr hne
    obtain ⟨hhead, hlast⟩ := run_ends hrun hne
    have hrear' : start + old.length - 1 = last := by rw [← hlast]; exact hrear
    rw [hhead]
    have hA' : (y.extendDeltaChunksAtTail b start old.length need).allocatedChunks =
      last + (need - old.length) := rfl
    have hF' : (y.extendDeltaChunksAtTail b start old.length need).nFragmentChunks =
      sub16 y.nFragmentChunks old.length := rfl
    have hpos := (hown start le_rfl (by omega)).1
    refine ⟨start, rfl, rfl, rfl, fun _ => rfl, ?_, ?_, ?_⟩
    · intro c hlo hhi
      rw [hA']
      rcases Nat.lt_or_ge c (start + old.length) with hc | hc
      · obtain ⟨h1, h2, h3⟩ := hown c hlo hc
        exact ⟨h1, by omega, h3⟩
      · exact ⟨by omega, by omega, h.cleanUp_tail hb (by omega)⟩
    · rw [hA', hpart]
      omega
    · rw [hA', hF', hfrag, hold]
      unfold sub16
      omega
  case isFalse hnot =>
    have hsame : ¬ (old ≠ [] ∧ old.getLastD 0 = y.allocatedChunks) := by
      rintro ⟨hne, hrear⟩
      obtain ⟨hhead, -⟩ := run_ends hrun hne
      have hpos := (hown start le_rfl (by
        have := List.length_pos_iff.mpr hne
        omega)).1
      exact hnot ⟨hne, hrear, by omega⟩
    replace hpart := hpart.trans (if_neg hsame)
    rw [if_neg hsame]
    -- a run of fragments keeps `allocated_chunks` and takes `need` of the fragments
    have hreuse : ∀ r, x.tailChunks b need = 0 → (∀ c, r ≤ c → c < r + need →
        0 < c ∧ c ≤ last ∧ y.allocatedChunkUsages c = false) →
        Grown x (y.reuseChunks b r need) b need r := by
      intro r hzero hr
      refine ⟨rfl, rfl, rfl, fun _ => rfl, hr, ?_, ?_⟩
      · rw [hzero]
        exact ⟨rfl, Nat.zero_le _, .inl rfl⟩
      · have hA' : (y.reuseChunks b r need).allocatedChunks = last := rfl
        have hF' : (y.reuseChunks b r need).nFragmentChunks = sub16 y.nFragmentChunks need := rfl
        rw [hA', hF', hfrag, hold, Nat.sub_self, Nat.add_zero]
    by_cases hfound : y.adjacentRun old need ≠ 0
    · rw [if_pos hfound]
      exact ⟨_, hreuse _ (hpart.trans (if_neg fun hnone => hfound hnone.1)) (hadj hfound)⟩
    rw [if_neg hfound]
    by_cases hfree : y.headRun need ≠ 0
    · replace hpart := hpart.trans (if_neg fun hnone => hfree hnone.2)
      rw [if_pos hfree]
      have henough : need ≤ y.nFragmentChunks := by
        by_contra hless
        exact hfree (if_neg hless)
      rw [headRun, if_pos henough] at hfree ⊢
      exact ⟨_, hreuse _ hpart (findEmptyChunkNo_spec rfl hfree (by omega))⟩
    replace hpart := hpart.trans (if_pos ⟨not_not.mp hfound, not_not.mp hfree⟩)
    rw [if_neg hfree]
    have hA' : (y.extendNewChunksAtTail b need).allocatedChunks =
      last + need := rfl
    have hF' : (y.extendNewChunksAtTail b need).nFragmentChunks =
      y.nFragmentChunks := rfl
    refine ⟨last + 1, rfl, rfl, rfl, fun _ => rfl, ?_, ?_, ?_⟩
    · intro c hlo hhi
      rw [hA']
      exact ⟨by omega, by omega, h.cleanUp_tail hb (by omega)⟩
    · rw [hA', hpart]
      omega
    · rw [hA', hF', hfrag, hold]
      unfold sub16
      omega

end Grow

end Extent

end OpenGauss.Cfs
