import OpenGauss.Lib.Update
import OpenGauss.Cfs.ChunkLists

/-!
# Runs of the chunk allocation

Writes, truncations, reloads of the address page and recycles, in any order.
Each step keeps the invariant of the chunk lists exactly under its guard: a
write must not push the extent past its last chunk, and a reload must not find
a chunk list that a truncation left behind.
-/

namespace OpenGauss.Cfs

open Function (update update_of_ne update_self)
open Lib (update_cases)

variable {x y : Extent} {a : ExtentAddress} {actualUse b : Nat}

namespace Extent

inductive Event where
  /-- `CfsWritePage` to a block that needs `need` chunks and uses `actualUse` of them. -/
  | writePage (b need actualUse : Nat)
  /-- `CfsMdTruncate` at a block of the extent. -/
  | mdTruncate (off : Nat)
  /-- The address page leaves the buffer and is loaded again. -/
  | loadPage
  /-- The recycle that follows a write. -/
  | recycle
  deriving DecidableEq

/-- The page after a write, before the recycle. -/
def writePage (x : Extent) (b need actualUse : Nat) : Extent :=
  (x.extendChunksOfBlock b need actualUse).raiseNblocks b

def step (x : Extent) : Event → Option Extent
  | .writePage b need actualUse => some (x.writePage b need actualUse)
  | .mdTruncate off => some (x.mdTruncate off)
  | .loadPage => x.loadPage
  | .recycle => x.recycleChunk

def run (x : Extent) : List Event → Option Extent
  | [] => some x
  | e :: es => (x.step e).bind fun y => y.run es

/-- The arguments with which the code makes a step. -/
def Valid (x : Extent) : Event → Prop
  | .writePage b need actualUse => b < logicBlocksPerExtent ∧ 0 < actualUse ∧ actualUse ≤ need ∧
      need ≤ x.chunkSize.chunksPerBlock
  | .mdTruncate off => off < logicBlocksPerExtent
  | .loadPage => True
  | .recycle => x.recycleWanted = true

/-- What a step needs to keep the allocation sound. -/
def Guard (x : Extent) : Event → Prop
  | .writePage b need _ => (x.address b).chunknos.length < need →
      x.allocatedChunks + x.tailChunks b need ≤ chunkLimit x.chunkSize
  | .mdTruncate _ => True
  | .loadPage => NoDropped x
  | .recycle => True

def ValidRun (x : Extent) : List Event → Prop
  | [] => True
  | e :: es => x.Valid e ∧ (x.step e).elim True fun y => y.ValidRun es

def GuardedRun (x : Extent) : List Event → Prop
  | [] => True
  | e :: es => x.Guard e ∧ (x.step e).elim True fun y => y.GuardedRun es

/-- The run does not fail, and the allocation is sound before and after every step. -/
def SoundRun (x : Extent) : List Event → Prop
  | [] => x.Sound
  | e :: es => x.Sound ∧ (x.step e).elim False fun y => y.SoundRun es

instance (x : Extent) (e : Event) : Decidable (x.Valid e) :=
  match e with
  | .writePage _ _ _ => inferInstanceAs (Decidable (_ ∧ _ ∧ _ ∧ _))
  | .mdTruncate _ => inferInstanceAs (Decidable (_ < _))
  | .loadPage => isTrue trivial
  | .recycle => inferInstanceAs (Decidable (_ = true))

instance (x : Extent) (e : Event) : Decidable (x.Guard e) :=
  match e with
  | .writePage _ _ _ => inferInstanceAs (Decidable (_ < _ → _ ≤ _))
  | .mdTruncate _ => isTrue trivial
  | .loadPage => inferInstanceAs (Decidable (∀ b, b < logicBlocksPerExtent → x.nblocks ≤ b →
      (x.address b).chunknos = []))
  | .recycle => isTrue trivial

instance decidableValidRun : (es : List Event) → (x : Extent) → Decidable (x.ValidRun es)
  | [], _ => isTrue trivial
  | e :: es, x =>
    have : Decidable ((x.step e).elim True fun y => y.ValidRun es) :=
      match x.step e with
      | none => isTrue trivial
      | some y => decidableValidRun es y
    inferInstanceAs (Decidable (_ ∧ _))

instance decidableGuardedRun : (es : List Event) → (x : Extent) → Decidable (x.GuardedRun es)
  | [], _ => isTrue trivial
  | e :: es, x =>
    have : Decidable ((x.step e).elim True fun y => y.GuardedRun es) :=
      match x.step e with
      | none => isTrue trivial
      | some y => decidableGuardedRun es y
    inferInstanceAs (Decidable (_ ∧ _))

/-! ## Writes -/

theorem owns_change (haddr : y.address = update x.address b a) (b' c : Nat) :
    y.Owns b' c ↔ b' < logicBlocksPerExtent ∧ (b' = b ∧ c ∈ a.chunknos ∨ b' ≠ b ∧ x.Owns b' c) := by
  unfold Owns
  rw [haddr]
  by_cases hb : b' = b
  · subst hb
    simp
  · simp [hb]

theorem ListsOk.change (h : ListsOk x) (haddr : y.address = update x.address b a)
    (hsize : y.chunkSize = x.chunkSize) (hnblocks : y.nblocks = max x.nblocks (b + 1))
    (hb : b < logicBlocksPerExtent) (hgrow : x.allocatedChunks ≤ y.allocatedChunks)
    (hnodup : a.chunknos.Nodup)
    (hfree : ∀ c ∈ a.chunknos, 0 < c ∧ c ≤ y.allocatedChunks ∧ ∀ b', b' ≠ b → ¬ x.Owns b' c)
    (hlength : a.chunknos.length ≤ x.chunkSize.chunksPerBlock)
    (hnchunks : a.nchunks ≤ a.chunknos.length) : ListsOk y := by
  refine ⟨?_, ?_, ?_, ?_, ?_, ?_, ?_, ?_⟩
  · rw [haddr]
    exact update_cases (fun _ => hnodup) fun b' _ => h.nodup b'
  · intro b₁ b₂ c h₁ h₂
    obtain ⟨-, ⟨e₁, hc₁⟩ | ⟨n₁, o₁⟩⟩ := (owns_change haddr b₁ c).mp h₁
    · obtain ⟨-, ⟨e₂, -⟩ | ⟨n₂, o₂⟩⟩ := (owns_change haddr b₂ c).mp h₂
      · rw [e₁, e₂]
      · exact absurd o₂ ((hfree c hc₁).2.2 b₂ n₂)
    · obtain ⟨-, ⟨-, hc₂⟩ | ⟨-, o₂⟩⟩ := (owns_change haddr b₂ c).mp h₂
      · exact absurd o₁ ((hfree c hc₂).2.2 b₁ n₁)
      · exact h.disjoint o₁ o₂
  · intro b' c ho
    obtain ⟨-, ⟨-, hc⟩ | ⟨-, o⟩⟩ := (owns_change haddr b' c).mp ho
    · exact (hfree c hc).1
    · exact h.pos o
  · intro b' c ho
    obtain ⟨-, ⟨-, hc⟩ | ⟨-, o⟩⟩ := (owns_change haddr b' c).mp ho
    · exact (hfree c hc).2.1
    · exact (h.le_allocated o).trans hgrow
  · rw [haddr, hsize]
    exact update_cases (fun _ => hlength) fun b' _ => h.length_le b'
  · rw [haddr]
    exact update_cases (fun _ => hnchunks) fun b' _ => h.nchunks_le b'
  · intro b' hb' hpos
    by_cases hbb : b' = b
    · omega
    rw [haddr, update_of_ne hbb] at hpos
    have := h.live b' hb' hpos
    omega
  · have := h.nblocks_le
    omega

/-- The list of the changed block is the only one that has to be looked at again. -/
theorem run_change (haddr : y.address = update x.address b a)
    (hx : ∀ b', b' < logicBlocksPerExtent →
      ∃ start, (x.address b').chunknos = chunkRun start (x.address b').chunknos.length)
    (hrun : ∃ start, a.chunknos = chunkRun start a.chunknos.length) :
    ∀ b', b' < logicBlocksPerExtent →
      ∃ start, (y.address b').chunknos = chunkRun start (y.address b').chunknos.length := by
  rw [haddr]
  exact update_cases (fun _ => hrun) fun b' _ => hx b'

theorem ownedBefore_change (haddr : y.address = update x.address b a)
    (hb : b < logicBlocksPerExtent) :
    y.ownedBefore logicBlocksPerExtent + (x.address b).chunknos.length =
      x.ownedBefore logicBlocksPerExtent + a.chunknos.length := by
  have hsum : y.ownedBefore logicBlocksPerExtent + (x.address b).chunknos.length =
      x.ownedBefore logicBlocksPerExtent + (y.address b).chunknos.length := by
    apply sum_range_change hb
    intro i hi
    rw [haddr, update_of_ne hi]
  rw [hsum, haddr, update_self]

variable {need : Nat}

/-- The page a write leaves when the block does not grow. -/
theorem Inv.writePage_keep (h : Inv x) (hv : x.Valid (.writePage b need actualUse))
    (hlt : ¬ (x.address b).chunknos.length < need) :
    Inv (x.writePage b need actualUse) ∧
      (x.writePage b need actualUse).allocatedChunks = x.allocatedChunks := by
  obtain ⟨hb, -, hactual, -⟩ := hv
  have heq : x.writePage b need actualUse = (x.setNchunks b actualUse).raiseNblocks b := by
    unfold writePage extendChunksOfBlock
    dsimp only
    rw [if_neg hlt]
  rw [heq]
  have haddr : ((x.setNchunks b actualUse).raiseNblocks b).address =
      update x.address b ⟨actualUse, (x.address b).chunknos⟩ := rfl
  have hlists : ListsOk ((x.setNchunks b actualUse).raiseNblocks b) := by
    apply h.toListsOk.change haddr rfl rfl hb le_rfl (h.nodup b hb) _ (h.length_le b hb)
    · dsimp only
      omega
    · intro c hc
      refine ⟨h.pos ⟨hb, hc⟩, h.le_allocated ⟨hb, hc⟩, ?_⟩
      intro b' hne ho
      exact hne (h.disjoint ho ⟨hb, hc⟩)
  refine ⟨⟨hlists, run_change haddr h.run (h.run b hb), ?_, ?_⟩, rfl⟩
  · intro c
    show x.allocatedChunkUsages c = true ↔ _
    rw [h.bit_iff]
    constructor
    · rintro ⟨b', ho⟩
      refine ⟨b', (owns_change haddr b' c).mpr ⟨ho.1, ?_⟩⟩
      by_cases hbb : b' = b
      · exact .inl ⟨hbb, by rw [← hbb]; exact ho.2⟩
      · exact .inr ⟨hbb, ho⟩
    · rintro ⟨b', ho⟩
      obtain ⟨-, ⟨-, hc⟩ | ⟨-, o⟩⟩ := (owns_change haddr b' c).mp ho
      · exact ⟨b, hb, hc⟩
      · exact ⟨b', o⟩
  · have hsum := ownedBefore_change haddr hb
    have hfrag := h.fragments
    show x.nFragmentChunks + _ = x.allocatedChunks
    dsimp only at hsum
    omega

/-- The page a write leaves when the block grows. The chunk that a longer extent ends with belongs
to the block. -/
theorem Inv.writePage_grow (h : Inv x) (hfits : Fits x)
    (hv : x.Valid (.writePage b need actualUse)) (hlt : (x.address b).chunknos.length < need) :
    Inv (x.writePage b need actualUse) ∧
      (x.writePage b need actualUse).allocatedChunks = x.allocatedChunks + x.tailChunks b need ∧
      (x.tailChunks b need = 0 ∨
        (x.writePage b need actualUse).Owns b (x.writePage b need actualUse).allocatedChunks) := by
  obtain ⟨hb, hpos, hactual, hneed⟩ := hv
  obtain ⟨start, hg⟩ := h.grown hb hfits hneed hlt
  generalize hy : (x.cleanUp b).findChunks b (x.address b).chunknos need = y at hg
  have heq : x.writePage b need actualUse = (y.setNchunks b actualUse).raiseNblocks b := by
    unfold writePage extendChunksOfBlock
    dsimp only
    rw [if_pos hlt, hy]
  rw [heq]
  set z := (y.setNchunks b actualUse).raiseNblocks b
  have haddr : z.address = update x.address b ⟨actualUse, chunkRun start need⟩ := by
    show update y.address b ⟨actualUse, (y.address b).chunknos⟩ = _
    rw [hg.address, update_self, Function.update_idem]
  have hA : z.allocatedChunks = y.allocatedChunks := rfl
  have hgrow : x.allocatedChunks ≤ y.allocatedChunks := by
    have := hg.allocated
    omega
  have hfree : ∀ c ∈ chunkRun start need, 0 < c ∧ c ≤ y.allocatedChunks ∧
      ∀ b', b' ≠ b → ¬ x.Owns b' c := by
    intro c hc
    obtain ⟨hlo, hhi⟩ := mem_chunkRun.mp hc
    obtain ⟨h1, h2, h3⟩ := hg.free c hlo hhi
    refine ⟨h1, h2, ?_⟩
    intro b' hne ho
    have hbit := (h.cleanUp_bit hb c).mpr ⟨b', hne, ho⟩
    rw [h3] at hbit
    cases hbit
  have hnblocks : z.nblocks = max x.nblocks (b + 1) := by
    show max y.nblocks (b + 1) = _
    rw [hg.nblocks]
  have hlists : ListsOk z := by
    apply h.toListsOk.change haddr hg.chunkSize hnblocks hb hgrow (nodup_chunkRun _ _) hfree _ _
    · rw [length_chunkRun]; exact hneed
    · rw [length_chunkRun]; exact hactual
  have hrun : ∃ start', chunkRun start need = chunkRun start' (chunkRun start need).length :=
    ⟨start, by rw [length_chunkRun]⟩
  refine ⟨⟨hlists, run_change haddr h.run hrun, ?_, ?_⟩, hg.allocated.1, ?_⟩
  · intro c
    show y.allocatedChunkUsages c = true ↔ _
    rw [hg.usages]
    split
    case isTrue hin =>
      refine iff_of_true rfl ⟨b, (owns_change haddr b c).mpr ⟨hb, .inl ⟨rfl, ?_⟩⟩⟩
      exact mem_chunkRun.mpr hin
    case isFalse hout =>
      rw [h.cleanUp_bit hb]
      constructor
      · rintro ⟨b', hne, ho⟩
        exact ⟨b', (owns_change haddr b' c).mpr ⟨ho.1, .inr ⟨hne, ho⟩⟩⟩
      · rintro ⟨b', ho⟩
        obtain ⟨-, ⟨-, hc⟩ | ⟨hne, o⟩⟩ := (owns_change haddr b' c).mp ho
        · exact absurd (mem_chunkRun.mp hc) hout
        · exact ⟨b', hne, o⟩
  · -- the new lists fit below `allocated_chunks`, so the fragment count does not wrap
    have hsum := ownedBefore_change haddr hb
    rw [length_chunkRun] at hsum
    have hle := hlists.owned_le
    rw [hA] at hle
    have hfrag := h.fragments
    obtain ⟨hF, hA'⟩ := h.owned_bounds hfits
    have hneed16 := hneed.trans (chunksPerBlock_le _)
    have hF' : z.nFragmentChunks = y.nFragmentChunks := rfl
    have hend := hg.allocated
    rw [hF', hg.fragments, hA]
    unfold sub16
    omega
  · refine hg.allocated.2.2.imp_right fun hend => (owns_change haddr b _).mpr ⟨hb, .inl ⟨rfl, ?_⟩⟩
    rw [hA]
    exact mem_chunkRun.mpr (by omega)

/-- A write keeps the invariant; it keeps the allocation sound exactly under its guard. -/
theorem Inv.writePage (h : Inv x) (hfits : Fits x)
    (hv : x.Valid (.writePage b need actualUse)) :
    Inv (x.writePage b need actualUse) ∧
      (x.Guard (.writePage b need actualUse) ↔ Fits (x.writePage b need actualUse)) ∧
      (Sound (x.writePage b need actualUse) → Fits (x.writePage b need actualUse)) := by
  have hsize : (x.writePage b need actualUse).chunkSize = x.chunkSize := by
    unfold Extent.writePage extendChunksOfBlock
    dsimp only
    split
    · obtain ⟨start, hg⟩ := h.grown hv.1 hfits hv.2.2.2 (by assumption)
      exact hg.chunkSize
    · rfl
  by_cases hlt : (x.address b).chunknos.length < need
  · obtain ⟨hinv, hlast, hend⟩ := h.writePage_grow hfits hv hlt
    have hiff : x.Guard (.writePage b need actualUse) ↔ Fits (x.writePage b need actualUse) := by
      rw [Fits, hlast, hsize]
      exact ⟨fun hg => hg hlt, fun hle _ => hle⟩
    refine ⟨hinv, hiff, fun hs => ?_⟩
    rcases hend with hsame | hown
    · rw [Fits, hlast, hsize, hsame]
      exact hfits
    · exact le_chunkLimit.mpr ⟨hs.le_max hown, hs.inside hown⟩
  · obtain ⟨hinv, hsame⟩ := h.writePage_keep hv hlt
    have hfits' : Fits (x.writePage b need actualUse) := by
      rw [Fits, hsame, hsize]
      exact hfits
    exact ⟨hinv, ⟨fun _ => hfits', fun _ hlt' => absurd hlt' hlt⟩, fun _ => hfits'⟩

/-- A truncation keeps the lists of the dropped blocks, and the bitmap with them. -/
theorem Inv.mdTruncate (h : Inv x) {off : Nat} (hoff : off < logicBlocksPerExtent) :
    Inv (x.mdTruncate off) := by
  set blocks := logicBlocksPerExtent
  unfold Extent.mdTruncate
  split
  · exact h
  generalize hy : ({ x with
      nblocks := off
      address := fun b =>
        if off ≤ b ∧ b < blocks then ⟨0, (x.address b).chunknos⟩
        else x.address b } : Extent) = y
  have hlists : ∀ b, (y.address b).chunknos = (x.address b).chunknos := by
    intro b
    rw [← hy]
    show (if off ≤ b ∧ b < blocks then (⟨0, (x.address b).chunknos⟩ : ExtentAddress)
      else x.address b).chunknos = _
    split <;> rfl
  have hused : ∀ b, b < blocks → (y.address b).nchunks ≤ (x.address b).nchunks ∧
      (0 < (y.address b).nchunks → b < off) := by
    intro b hb
    have hb' : y.address b = if off ≤ b ∧ b < blocks then
      (⟨0, (x.address b).chunknos⟩ : ExtentAddress) else x.address b := by rw [← hy]
    rw [hb']
    split
    case isTrue => exact ⟨Nat.zero_le _, fun hlt => absurd hlt (lt_irrefl 0)⟩
    case isFalse hnot => exact ⟨le_rfl, fun _ => by omega⟩
  have howns : ∀ b c, y.Owns b c ↔ x.Owns b c := by
    intro b c
    unfold Owns
    rw [hlists]
  have hsize : y.chunkSize = x.chunkSize := by rw [← hy]
  have hA : y.allocatedChunks = x.allocatedChunks := by rw [← hy]
  have hF : y.nFragmentChunks = x.nFragmentChunks := by rw [← hy]
  have hmap : y.allocatedChunkUsages = x.allocatedChunkUsages := by rw [← hy]
  have hn : y.nblocks = off := by rw [← hy]
  refine ⟨⟨?_, ?_, ?_, ?_, ?_, ?_, ?_, ?_⟩, ?_, ?_, ?_⟩
  · intro b hb
    rw [hlists]
    exact h.nodup b hb
  · intro b b' c ho ho'
    exact h.disjoint ((howns b c).mp ho) ((howns b' c).mp ho')
  · intro b c ho
    exact h.pos ((howns b c).mp ho)
  · intro b c ho
    rw [hA]
    exact h.le_allocated ((howns b c).mp ho)
  · intro b hb
    rw [hlists, hsize]
    exact h.length_le b hb
  · intro b hb
    rw [hlists]
    exact Nat.le_trans (hused b hb).1 (h.nchunks_le b hb)
  · intro b hb hpos
    rw [hn]
    exact (hused b hb).2 hpos
  · omega
  · intro b hb
    rw [hlists]
    exact h.run b hb
  · intro c
    rw [hmap, h.bit_iff]
    exact exists_congr fun b => (howns b c).symm
  · have howned : y.ownedBefore blocks = x.ownedBefore blocks := by
      unfold ownedBefore
      simp only [hlists]
    rw [hF, hA, howned]
    exact h.fragments

/-! ## Loading the page -/

theorem le_foldl_max (l : List Nat) (m : Nat) : m ≤ l.foldl max m ∧ ∀ c ∈ l, c ≤ l.foldl max m := by
  induction l generalizing m with
  | nil => exact ⟨le_rfl, nofun⟩
  | cons a l ih =>
    obtain ⟨hm, hl⟩ := ih (max m a)
    refine ⟨(Nat.le_max_left _ _).trans hm, ?_⟩
    exact List.forall_mem_cons.mpr ⟨(Nat.le_max_right _ _).trans hm, hl⟩

theorem foldl_max_le {l : List Nat} {m k : Nat} (hm : m ≤ k) (hl : ∀ c ∈ l, c ≤ k) :
    l.foldl max m ≤ k := by
  induction l generalizing m with
  | nil => exact hm
  | cons a l ih =>
    exact ih (Nat.max_le.mpr ⟨hm, hl a (.head _)⟩) fun c hc => hl c (.tail _ hc)

/-- The fold over the blocks is the largest owned chunk. -/
theorem maxAllocatedChunkno_eq (x : Extent) : x.maxAllocatedChunkno =
    (blocks.flatMap fun b => (x.address b).chunknos).foldl max 0 := by
  unfold maxAllocatedChunkno
  rw [List.foldl_flatMap]

theorem Owns.le_maxAllocatedChunkno {c : Nat} (ho : x.Owns b c) : c ≤ x.maxAllocatedChunkno := by
  rw [maxAllocatedChunkno_eq]
  apply (le_foldl_max _ 0).2
  exact List.mem_flatMap.mpr ⟨b, List.mem_range.mpr ho.1, ho.2⟩

theorem ListsOk.maxAllocatedChunkno_le (h : ListsOk x) :
    x.maxAllocatedChunkno ≤ x.allocatedChunks := by
  rw [maxAllocatedChunkno_eq]
  apply foldl_max_le (Nat.zero_le _)
  intro c hc
  obtain ⟨b, hb, hcb⟩ := List.mem_flatMap.mp hc
  exact h.le_allocated ⟨List.mem_range.mp hb, hcb⟩

theorem ListsOk.lastNonzeroBlock_le (h : ListsOk x) : x.lastNonzeroBlock ≤ x.nblocks := by
  unfold lastNonzeroBlock
  apply List.foldlRecOn blocks _ (motive := fun m => m ≤ x.nblocks) (Nat.zero_le _)
  intro m hm b hb
  split
  · exact h.live b (List.mem_range.mp hb) (by assumption)
  · exact hm

theorem ListsOk.repaired_nblocks (h : ListsOk x) : x.repaired.nblocks = x.nblocks :=
  Nat.max_eq_left h.lastNonzeroBlock_le

theorem ListsOk.addressesOk (h : ListsOk x)
    (hmax : x.allocatedChunks ≤ x.chunkSize.maxLogicChunksNumber) : x.addressesOk = true := by
  unfold Extent.addressesOk
  rw [List.all_eq_true]
  intro b hb
  have hb' : b < logicBlocksPerExtent := List.mem_range.mp hb
  rw [Bool.and_eq_true, Bool.and_eq_true, List.all_eq_true]
  refine ⟨⟨decide_eq_true (h.nchunks_le b hb'), decide_eq_true (h.length_le b hb')⟩, ?_⟩
  intro c hc
  have ho : x.Owns b c := ⟨hb', hc⟩
  rw [Bool.and_eq_true, List.all_eq_true]
  refine ⟨decide_eq_true ⟨h.pos ho, (h.le_allocated ho).trans hmax⟩, ?_⟩
  intro b' hb''
  have hlt : b' < b := List.mem_range.mp hb''
  apply decide_eq_true
  intro hc'
  have := h.disjoint ho (show x.Owns b' c from ⟨by omega, hc'⟩)
  omega

theorem ownedBefore_of_noDropped (h : ListsOk x) (hno : NoDropped x) :
    x.ownedBefore x.nblocks = x.ownedBefore logicBlocksPerExtent := by
  obtain ⟨k, hk⟩ := Nat.exists_eq_add_of_le h.nblocks_le
  unfold ownedBefore
  rw [hk, List.range_add, List.map_append, List.sum_append, List.map_map]
  have hzero : ((List.range k).map
      ((fun b => (x.address b).chunknos.length) ∘ (x.nblocks + ·))).sum = 0 := by
    apply List.sum_eq_zero
    intro n hn
    obtain ⟨i, hi, rfl⟩ := List.mem_map.mp hn
    have hlt := List.mem_range.mp hi
    show (x.address (x.nblocks + i)).chunknos.length = 0
    rw [hno (x.nblocks + i) (by omega) (by omega)]
    rfl
  omega

theorem ListsOk.repaired (h : ListsOk x) : ListsOk x.repaired where
  __ := h
  le_allocated ho := Owns.le_maxAllocatedChunkno (x := x) ho
  live := by
    rw [h.repaired_nblocks]
    exact h.live
  nblocks_le := by
    rw [h.repaired_nblocks]
    exact h.nblocks_le

/-- The bitmap built at load marks the chunks of the blocks in use. -/
theorem rebuilt_bit (c : Nat) : x.rebuilt.allocatedChunkUsages c = true ↔
    ∃ b, b < x.nblocks ∧ c ∈ (x.address b).chunknos := by
  show ((List.range x.nblocks).any fun b => decide (c ∈ (x.address b).chunknos)) = true ↔ _
  rw [List.any_eq_true]
  constructor
  · rintro ⟨b, hb, hc⟩
    exact ⟨b, List.mem_range.mp hb, of_decide_eq_true hc⟩
  · rintro ⟨b, hb, hc⟩
    exact ⟨b, List.mem_range.mpr hb, decide_eq_true hc⟩

theorem ListsOk.rebuilt (h : ListsOk x) (hfits : Fits x) (hno : NoDropped x)
    (hrun : ∀ b, b < logicBlocksPerExtent →
      ∃ start, (x.address b).chunknos = chunkRun start (x.address b).chunknos.length) :
    Inv x.rebuilt where
  __ := h
  run := hrun
  bit_iff c := by
    rw [rebuilt_bit]
    constructor
    · rintro ⟨b, hb, hc⟩
      exact ⟨b, hb.trans_le h.nblocks_le, hc⟩
    · rintro ⟨b, ho⟩
      exact ⟨b, noDropped_iff.mp hno b c ho, ho.2⟩
  fragments := by
    have hle := h.owned_le
    have hA : x.allocatedChunks ≤ 1015 := hfits.trans (chunkLimit_le _)
    show sub16 x.allocatedChunks (x.ownedBefore x.nblocks % 2 ^ 16) +
      x.ownedBefore logicBlocksPerExtent = x.allocatedChunks
    rw [ownedBefore_of_noDropped h hno]
    unfold sub16
    omega

/-- Loading the page succeeds and, if no dropped block owns a chunk, restores the invariant. -/
theorem ListsOk.loadPage (h : ListsOk x) (hfits : Fits x) (hno : NoDropped x)
    (hrun : ∀ b, b < logicBlocksPerExtent →
      ∃ start, (x.address b).chunknos = chunkRun start (x.address b).chunknos.length) :
    ∃ y, x.loadPage = some y ∧ Inv y ∧ Fits y := by
  refine ⟨x.repaired.rebuilt, if_pos (h.addressesOk (le_chunkLimit.mp hfits).1), ?_, ?_⟩
  · apply h.repaired.rebuilt (h.maxAllocatedChunkno_le.trans hfits) _ hrun
    unfold NoDropped
    rw [h.repaired_nblocks]
    exact hno
  · exact h.maxAllocatedChunkno_le.trans hfits

/-- A list that a truncation left behind is not in the bitmap after the load. -/
theorem ListsOk.noDropped_of_sound (h : ListsOk x) (hy : x.loadPage = some y) (hs : Sound y) :
    NoDropped x := by
  unfold Extent.loadPage at hy
  split at hy
  case isFalse => cases hy
  case isTrue =>
    cases hy
    refine noDropped_iff.mpr fun b c ho => ?_
    obtain ⟨b', hb', hc⟩ := (rebuilt_bit c).mp ((hs.bit_iff c).mpr ⟨b, ho⟩)
    rw [h.repaired_nblocks] at hb'
    have hsame : b' = b := h.disjoint ⟨hb'.trans_le h.nblocks_le, hc⟩ ho
    omega

/-! ## Recycling -/

theorem usedBefore_succ (x : Extent) (n : Nat) :
    x.usedBefore (n + 1) = x.usedBefore n + (x.address n).nchunks := by
  unfold usedBefore
  rw [List.range_succ, List.map_append, List.sum_append, List.map_singleton, List.sum_singleton]

theorem usedBefore_mono (x : Extent) : Monotone x.usedBefore := by
  apply monotone_nat_of_le_succ
  intro n
  rw [usedBefore_succ]
  exact Nat.le_add_right _ _

theorem ListsOk.usedBefore_le (h : ListsOk x) : x.usedBefore x.nblocks ≤ x.allocatedChunks := by
  have hle : x.usedBefore logicBlocksPerExtent ≤ x.ownedBefore logicBlocksPerExtent := by
    apply List.sum_le_sum
    intro b hb
    exact h.nchunks_le b (List.mem_range.mp hb)
  exact (Nat.le_trans (usedBefore_mono x h.nblocks_le) hle).trans h.owned_le

theorem sortOutChunk_address (x : Extent) (b : Nat) : x.sortOutChunk.address b = if b < x.nblocks then
    ⟨(x.address b).nchunks, chunkRun (x.usedBefore b + 1) (x.address b).nchunks⟩ else ⟨0, []⟩ := rfl

theorem owns_sortOutChunk {c : Nat} (ho : x.sortOutChunk.Owns b c) :
    b < x.nblocks ∧ x.usedBefore b < c ∧ c ≤ x.usedBefore (b + 1) := by
  obtain ⟨-, hc⟩ := ho
  rw [sortOutChunk_address] at hc
  split at hc
  case isTrue hb =>
    obtain ⟨hlo, hhi⟩ := mem_chunkRun.mp hc
    rw [usedBefore_succ]
    omega
  case isFalse => cases hc

theorem ListsOk.sortOutChunk (h : ListsOk x) : ListsOk x.sortOutChunk := by
  have haddr := x.sortOutChunk_address
  refine ⟨?_, ?_, ?_, ?_, ?_, ?_, ?_, h.nblocks_le⟩
  · intro b _
    rw [haddr]
    split
    · exact nodup_chunkRun _ _
    · exact List.nodup_nil
  · intro b b' c ho ho'
    obtain ⟨-, hlo, hhi⟩ := owns_sortOutChunk ho
    obtain ⟨-, hlo', hhi'⟩ := owns_sortOutChunk ho'
    rcases lt_trichotomy b b' with hlt | heq | hgt
    · have := usedBefore_mono x (show b + 1 ≤ b' from hlt)
      omega
    · exact heq
    · have := usedBefore_mono x (show b' + 1 ≤ b from hgt)
      omega
  · intro b c ho
    have := (owns_sortOutChunk ho).2.1
    omega
  · intro b c ho
    obtain ⟨hb, -, hhi⟩ := owns_sortOutChunk ho
    exact hhi.trans (usedBefore_mono x hb)
  · intro b hb
    rw [haddr]
    split
    · rw [length_chunkRun]
      exact (h.nchunks_le b hb).trans (h.length_le b hb)
    · exact Nat.zero_le _
  · intro b _
    rw [haddr]
    split
    · rw [length_chunkRun]
    · exact le_rfl
  · intro b _ hpos
    rw [haddr] at hpos
    split at hpos
    · assumption
    · exact absurd hpos (lt_irrefl 0)

theorem sortOutChunk_run (x : Extent) (b : Nat) : ∃ start, (x.sortOutChunk.address b).chunknos =
      chunkRun start (x.sortOutChunk.address b).chunknos.length := by
  rw [sortOutChunk_address]
  split
  · exact ⟨_, by rw [length_chunkRun]⟩
  · exact ⟨0, rfl⟩

/-- A recycle, with the load that follows it, restores the invariant whatever was dropped. -/
theorem Inv.recycleChunk (h : Inv x) (hfits : Fits x) :
    ∃ y, x.recycleChunk = some y ∧ Inv y ∧ Fits y := by
  unfold Extent.recycleChunk
  split
  · exact ⟨x, rfl, h, hfits⟩
  · exact h.toListsOk.sortOutChunk.loadPage (h.toListsOk.usedBefore_le.trans hfits)
      (noDropped_iff.mpr fun b c ho => (owns_sortOutChunk ho).1) fun b _ => sortOutChunk_run x b

/-! ## Runs -/

/-- A step under its guard succeeds and keeps the invariant. -/
theorem Inv.step (h : Inv x) (hfits : Fits x) {e : Event} (hv : x.Valid e) (hg : x.Guard e) :
    ∃ y, x.step e = some y ∧ Inv y ∧ Fits y := by
  cases e with
  | writePage b need actualUse =>
    obtain ⟨hinv, hiff, -⟩ := h.writePage hfits hv
    exact ⟨_, rfl, hinv, hiff.mp hg⟩
  | mdTruncate off =>
    refine ⟨_, rfl, h.mdTruncate hv, ?_⟩
    unfold Extent.mdTruncate
    split
    · exact hfits
    · exact hfits
  | loadPage => exact h.toListsOk.loadPage hfits hg h.run
  | recycle => exact h.recycleChunk hfits

/-- A step that leaves a sound allocation has met its guard. -/
theorem Inv.guard_of_sound (h : Inv x) (hfits : Fits x) {e : Event} (hv : x.Valid e)
    (hy : x.step e = some y) (hs : Sound y) : x.Guard e := by
  cases e with
  | writePage b need actualUse =>
    cases hy
    obtain ⟨-, hiff, hsound⟩ := h.writePage hfits hv
    exact hiff.mpr (hsound hs)
  | mdTruncate off => trivial
  | loadPage => exact h.toListsOk.noDropped_of_sound hy hs
  | recycle => trivial

theorem SoundRun.sound {es : List Event} (h : x.SoundRun es) : x.Sound := by
  cases es with
  | nil => exact h
  | cons e es => exact h.1

theorem listsOk_empty (size : ChunkSize) : ListsOk (empty size) where
  nodup := fun _ _ => List.nodup_nil
  disjoint ho _ := absurd ho.2 List.not_mem_nil
  pos ho := absurd ho.2 List.not_mem_nil
  le_allocated ho := absurd ho.2 List.not_mem_nil
  length_le := fun _ _ => Nat.zero_le _
  nchunks_le := fun _ _ => le_rfl
  live := fun _ _ hpos => absurd hpos (lt_irrefl 0)
  nblocks_le := Nat.zero_le _

theorem inv_empty (size : ChunkSize) : Inv (empty size) where
  toListsOk := listsOk_empty size
  run := fun _ _ => ⟨0, rfl⟩
  bit_iff c := by
    constructor
    · intro hf
      cases hf
    · rintro ⟨b, ho⟩
      exact absurd ho.2 List.not_mem_nil
  fragments := by
    show 0 + (empty size).ownedBefore logicBlocksPerExtent = 0
    rw [Nat.zero_add]
    apply List.sum_eq_zero
    intro n hn
    obtain ⟨b, -, rfl⟩ := List.mem_map.mp hn
    rfl

theorem Inv.soundRun_iff (h : Inv x) (hfits : Fits x) {es : List Event} (hv : x.ValidRun es) :
    x.SoundRun es ↔ x.GuardedRun es := by
  induction es generalizing x with
  | nil => exact ⟨fun _ => trivial, fun _ => h.sound hfits⟩
  | cons e es ih =>
    rw [ValidRun] at hv
    rw [SoundRun, GuardedRun]
    constructor
    · rintro ⟨-, hrest⟩
      obtain ⟨y, hy⟩ : ∃ y, x.step e = some y := by
        cases hstep : x.step e with
        | none => rw [hstep] at hrest; exact absurd hrest id
        | some y => exact ⟨y, rfl⟩
      rw [hy] at hrest hv ⊢
      have hguard := h.guard_of_sound hfits hv.1 hy (SoundRun.sound hrest)
      obtain ⟨y', hy', hinv, hfits'⟩ := h.step hfits hv.1 hguard
      cases hy.symm.trans hy'
      exact ⟨hguard, (ih hinv hfits' hv.2).mp hrest⟩
    · rintro ⟨hguard, hrest⟩
      obtain ⟨y, hy, hinv, hfits'⟩ := h.step hfits hv.1 hguard
      rw [hy] at hrest hv ⊢
      exact ⟨h.sound hfits, (ih hinv hfits' hv.2).mpr hrest⟩

/-- The chunk allocation of an extent stays sound through a run exactly if no write pushes the
extent past its last chunk and no reload of the address page finds the chunk list of a dropped
block. -/
theorem chunkAlloc_soundRun_iff (size : ChunkSize) (es : List Event)
    (hv : (empty size).ValidRun es) :
    (empty size).SoundRun es ↔ (empty size).GuardedRun es :=
  (inv_empty size).soundRun_iff (Nat.zero_le _) hv

/-- Two blocks are written, the first one outgrows its chunk, and the page is loaded again. -/
theorem chunkAlloc_soundRun_grow :
    (empty .half).SoundRun [.writePage 0 1 1, .writePage 1 1 1, .writePage 0 2 2, .loadPage] :=
  (chunkAlloc_soundRun_iff .half _ (by decide +kernel)).mpr (by decide +kernel)

/-- A page of two blocks is truncated to one and loaded again. The second block keeps its list but
loses its bit, so the first block grows into its chunk. -/
theorem truncate_load_shares_chunk :
    (empty .half).ValidRun [.writePage 0 1 1, .writePage 1 1 1, .mdTruncate 1, .loadPage,
      .writePage 0 2 2] ∧
    ∃ y, (empty .half).run [.writePage 0 1 1, .writePage 1 1 1, .mdTruncate 1, .loadPage,
      .writePage 0 2 2] = some y ∧ y.Owns 0 2 ∧ y.Owns 1 2 := by
  refine ⟨by decide +kernel, ?_⟩
  have hlists : (((empty .half).run [.writePage 0 1 1, .writePage 1 1 1, .mdTruncate 1, .loadPage,
      .writePage 0 2 2]).map fun y => ((y.address 0).chunknos, (y.address 1).chunknos)) =
      some ([1, 2], [2]) := by decide +kernel
  obtain ⟨y, hy, hl⟩ := Option.map_eq_some_iff.mp hlists
  obtain ⟨h0, h1⟩ := Prod.mk.inj hl
  refine ⟨y, hy, ⟨Nat.le_of_ble_eq_true rfl, ?_⟩, ⟨Nat.le_of_ble_eq_true rfl, ?_⟩⟩
  · rw [h0]
    exact .tail _ (.head _)
  · rw [h1]
    exact .head _

end Extent

end OpenGauss.Cfs
