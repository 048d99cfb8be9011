import OpenGauss.Lib.Update
import OpenGauss.Segment.ExtentCopy

/-!
# Shrinking a segment

The extents of a plain segment are looked at from the last one on. One without
used pages is given back; one with used pages is first copied over an earlier
extent of the same size that has none, if there is one, and the loop ends
otherwise. The segment gets shorter under the loop, and every page test goes
through the buffers.
-/

namespace OpenGauss.Segment

open Function (update update_of_ne update_self)

/-- `lp_flags` of a line pointer. -/
inductive LpFlags
  | unused
  | normal
  | redirect
  | dead
deriving DecidableEq

/-- A page, with what the shrink looks at and everything else in `body`. -/
structure RowPage (β : Type) where
  pdUpper : Nat
  linePointers : List LpFlags
  body : β

/-- `seg_page_in_use`. -/
def segPageInUse {β : Type} (page : RowPage β) : Bool :=
  if page.pdUpper = 0 ∨ page.linePointers = [] then false
  else page.linePointers.any fun flags => decide (flags ≠ .unused)

namespace SegPages

variable {α : Type}

/-- `ReadBufferExtended`: a page without a buffer gets one. -/
def readBuffer (s : SegPages α) (k : Nat) : SegPages α :=
  match s.buffers k with
  | some _ => s
  | none =>
    { s with
      buffers := update s.buffers k
        (some ⟨s.disk (s.location k).1 (s.location k).2, (s.location k).1, (s.location k).2, false⟩) }

/-- One round of `spc_evict_extent_buffers`: flush a dirty page and drop the buffer. -/
def evictBuffer (s : SegPages α) (k : Nat) : SegPages α :=
  match s.buffers k with
  | none => s
  | some b =>
    { s with
      disk := if b.dirty then setBlock s.disk b.segFileno b.segBlockno b.content else s.disk
      buffers := update s.buffers k none }

/-- `spc_evict_extent_buffers`. -/
def evictExtentBuffers (s : SegPages α) (logicStartBlocknum extentSize : Nat) : SegPages α :=
  (List.range extentSize).foldl
    (fun s i => if s.nblocks ≤ logicStartBlocknum + i then s
      else s.evictBuffer (logicStartBlocknum + i)) s

/-- The loop of `seg_extent_in_use`. -/
def inUseLoop (inUse : α → Bool) (segNblocks extStart : Nat) :
    Nat → Nat → SegPages α → Bool × SegPages α
  | 0, _, s => (false, s)
  | left + 1, i, s =>
    if segNblocks ≤ extStart + i then (false, s)
    else if inUse ((s.readBuffer (extStart + i)).read (extStart + i)) then
      (true, s.readBuffer (extStart + i))
    else inUseLoop inUse segNblocks extStart left (i + 1) (s.readBuffer (extStart + i))

/-- `seg_extent_in_use`. -/
def segExtentInUse (inUse : α → Bool) (segNblocks extId : Nat) (s : SegPages α) :
    Bool × SegPages α :=
  inUseLoop inUse segNblocks (extentIdToLogicBlockNum extId) (extentSizeByCount extId) 0 s

/-- The loop of `seg_find_free_extent_forward`. -/
def findFreeLoop (inUse : α → Bool) (nblocks lastExt : Nat) :
    Nat → Nat → SegPages α → Nat × SegPages α
  | 0, _, s => (lastExt, s)
  | left + 1, extId, s =>
    if extentSizeByCount extId ≠ extentSizeByCount lastExt then
      findFreeLoop inUse nblocks lastExt left (extId + 1) s
    else if (s.segExtentInUse inUse nblocks extId).1 then
      findFreeLoop inUse nblocks lastExt left (extId + 1) (s.segExtentInUse inUse nblocks extId).2
    else (extId, (s.segExtentInUse inUse nblocks extId).2)

/-- `seg_find_free_extent_forward`. -/
def segFindFreeExtentForward (inUse : α → Bool) (nblocks lastExt : Nat) (s : SegPages α) :
    Nat × SegPages α :=
  findFreeLoop inUse nblocks lastExt lastExt 1 s

end SegPages

/-- A segment that is shrunk: its head and block map, its pages, and the extents given back, each
by size and place. -/
structure ShrinkState (β : Type) where
  seg : SegState
  disk : Nat → Nat → RowPage β
  buffers : Nat → Option (CachedPage (RowPage β))
  freed : List (Nat × Nat)
  egDfExists : Nat → Bool

namespace ShrinkState

variable {β : Type}

def pages (s : ShrinkState β) : SegPages (RowPage β) where
  nextents := s.seg.head.nextents
  nblocks := s.seg.head.nblocks
  extents := segExtentLocation s.seg
  disk := s.disk
  buffers := s.buffers

def withPages (s : ShrinkState β) (p : SegPages (RowPage β)) : ShrinkState β :=
  { s with disk := p.disk, buffers := p.buffers }

/-- What is given back with extent `extId`: the extent, and the level-0 page that begins with it. -/
def freedWith (seg : SegState) (extId : Nat) : List (Nat × Nat) :=
  (extentSizeByCount extId, segExtentLocation seg extId) ::
    if requireNewLevel0Page extId then [(1, seg.head.slot .level1 (extentIdToLevel1Slot extId))]
    else []

/-- The last extent leaves the segment: `free_last_extent`, and the end of `seg_extent_replace`. -/
def dropLastExtent (s : ShrinkState β) : ShrinkState β :=
  { s with
    seg := (freeLastExtent s.seg).1
    freed := s.freed ++ freedWith s.seg (s.seg.head.nextents - 1) }

/-- `seg_extent_replace`; a failed check is a panic. -/
def segExtentReplace (s : ShrinkState β) (lastExt copyExt : Nat) : Option (ShrinkState β) :=
  if s.seg.head.nextents - 1 ≠ lastExt then none
  else
    ((s.pages.evictExtentBuffers (extentIdToLogicBlockNum copyExt)
        (extentSizeByCount lastExt)).copyExtent (extentSizeByCount lastExt)
      (extentIdToLogicBlockNum lastExt) (segExtentLocation s.seg lastExt)
      (segExtentLocation s.seg copyExt)).map fun p =>
        (s.withPages (p.evictExtentBuffers (extentIdToLogicBlockNum lastExt)
          (extentSizeByCount lastExt))).dropLastExtent

/-- The loop of `seg_shrink_recycle_extents`, at `last_ext`. -/
def shrinkLoop (nblocks : Nat) : Nat → ShrinkState β → Option (ShrinkState β)
  | 0, s => some s
  | last + 1, s =>
    if s.egDfExists (extentSizeByCount (last + 1)) = false then none
    else
      let tested := s.pages.segExtentInUse segPageInUse nblocks (last + 1)
      if tested.1 then
        let found := tested.2.segFindFreeExtentForward segPageInUse nblocks (last + 1)
        if found.1 ≠ last + 1 then
          ((s.withPages found.2).segExtentReplace (last + 1) found.1).bind (shrinkLoop nblocks last)
        else some (s.withPages found.2)
      else if s.seg.head.nextents = 0 then none
      else shrinkLoop nblocks last (s.withPages tested.2).dropLastExtent

/-- The contents of the pages with used line pointers. -/
def rowPages (s : ShrinkState β) : List (RowPage β) :=
  ((List.range s.seg.head.nblocks).map s.pages.read).filter segPageInUse

end ShrinkState

/-! ## Pages of a plain segment -/

namespace SegPages

variable {α : Type}

/-- A plain segment whose extents are apart, with buffers that know their place and are no older
than the file. -/
structure Plain (s : SegPages α) : Prop where
  nextents_le : s.nextents ≤ maxExtents
  nblocks_le : s.nblocks ≤ logicStart false s.nextents
  extent_end : ∀ i, i < s.nextents → s.extents i + extentSizeByCount i ≤ 2 ^ 32
  extents_apart : ∀ i j, i < s.nextents → j < s.nextents → i ≠ j →
    extentSizeByCount i = extentSizeByCount j →
    s.extents i + extentSizeByCount i ≤ s.extents j ∨
      s.extents j + extentSizeByCount i ≤ s.extents i
  located : ∀ k, k < s.nblocks → ∀ b, s.buffers k = some b →
    (b.segFileno, b.segBlockno) = s.location k
  clean : ∀ k, k < s.nblocks → ∀ b, s.buffers k = some b → b.dirty = false →
    b.content = s.disk (s.location k).1 (s.location k).2

section

variable {s : SegPages α}

theorem Plain.location_eq (h : s.Plain) {i offset : Nat} (hi : i < s.nextents)
    (hoff : offset < extentSizeByCount i) :
    s.location (logicStart false i + offset) = (extentSizeByCount i, s.extents i + offset) := by
  have hmax := hi.trans_le h.nextents_le
  have hsize : offset < logicSize false i := hoff
  have hend := h.extent_end i hi
  unfold location blockLocation
  rw [segExtentPos_offset false hmax hsize]
  dsimp only
  rw [segCfsLogicToPhysicMapping_eq]
  show (_, (s.extents i + offset) % 2 ^ 32) = _
  rw [Nat.mod_eq_of_lt (by omega)]

theorem Plain.block (h : s.Plain) {k : Nat} (hk : k < logicStart false s.nextents) :
    ∃ i offset, i < s.nextents ∧ k = logicStart false i + offset ∧ offset < extentSizeByCount i := by
  have h32 := hk.trans (logicStart_lt false h.nextents_le)
  obtain ⟨i, offset, hpos, hstart, hoff, -⟩ := segExtentPos_spec false h32
  have hid := (segExtentPos_lt_iff false h32 h.nextents_le).mpr hk
  rw [hpos] at hid
  exact ⟨i, offset, hid, hstart.symm, hoff⟩

theorem Plain.location_ne (h : s.Plain) {k k' : Nat} (hk : k < s.nblocks) (hk' : k' < s.nblocks)
    (hne : k ≠ k') : s.location k ≠ s.location k' := by
  obtain ⟨i, o, hi, rfl, ho⟩ := h.block (hk.trans_le h.nblocks_le)
  obtain ⟨i', o', hi', rfl, ho'⟩ := h.block (hk'.trans_le h.nblocks_le)
  rw [h.location_eq hi ho, h.location_eq hi' ho']
  intro heq
  have hsize : extentSizeByCount i = extentSizeByCount i' := congrArg Prod.fst heq
  have hblock : s.extents i + o = s.extents i' + o' := congrArg Prod.snd heq
  by_cases hii : i = i'
  · subst hii
    omega
  · have := h.extents_apart i i' hi hi' hii hsize
    omega

/-- The same segment after pages have gone into buffers or out of them. -/
structure Same (s s' : SegPages α) : Prop where
  map : SameMap s s'
  plain : s'.Plain
  read : ∀ k, k < s.nblocks → s'.read k = s.read k

theorem Same.refl (h : s.Plain) : Same s s := ⟨SameMap.refl s, h, fun _ _ => rfl⟩

theorem Same.trans {s₁ s₂ : SegPages α} (h : Same s s₁) (h' : Same s₁ s₂) : Same s s₂ := by
  refine ⟨h.map.trans h'.map, h'.plain, ?_⟩
  intro k hk
  rw [h'.read k (by rw [h.map.nblocks]; exact hk), h.read k hk]

theorem Plain.readBuffer (h : s.Plain) (k : Nat) : Same s (s.readBuffer k) := by
  unfold SegPages.readBuffer
  cases hb : s.buffers k with
  | some b => exact Same.refl h
  | none =>
    dsimp only
    refine ⟨⟨rfl, rfl, rfl⟩, ⟨h.nextents_le, h.nblocks_le, h.extent_end, h.extents_apart, ?_, ?_⟩, ?_⟩
    · dsimp only
      refine Lib.update_cases (fun _ b' hb' => ?_) fun k' _ => h.located k'
      cases hb'
      rfl
    · dsimp only
      refine Lib.update_cases (fun _ b' hb' _ => ?_) fun k' _ => h.clean k'
      cases hb'
      rfl
    · intro k' _
      by_cases hkk : k' = k
      · subst hkk
        unfold SegPages.read
        dsimp only
        rw [update_self, hb]
      · unfold SegPages.read
        dsimp only
        rw [update_of_ne hkk]
        rfl

theorem Plain.evictBuffer (h : s.Plain) {k : Nat} (hk : k < s.nblocks) :
    Same s (s.evictBuffer k) ∧ (s.evictBuffer k).buffers = update s.buffers k none := by
  unfold SegPages.evictBuffer
  cases hb : s.buffers k with
  | none =>
    exact ⟨Same.refl h, (Function.update_eq_self_iff.mpr hb.symm).symm⟩
  | some b =>
    dsimp only
    have hloc := h.located k hk b hb
    have hfile : b.segFileno = (s.location k).1 := congrArg Prod.fst hloc
    have hblock : b.segBlockno = (s.location k).2 := congrArg Prod.snd hloc
    generalize hdisk : (if b.dirty = true then setBlock s.disk b.segFileno b.segBlockno b.content
      else s.disk) = disk'
    have hself : disk' (s.location k).1 (s.location k).2 = b.content := by
      rw [← hdisk]
      split
      · exact if_pos ⟨hfile.symm, hblock.symm⟩
      · exact (h.clean k hk b hb (Bool.eq_false_iff.mpr (by assumption))).symm
    have hother : ∀ k', k' < s.nblocks → k' ≠ k →
        disk' (s.location k').1 (s.location k').2 = s.disk (s.location k').1 (s.location k').2 := by
      intro k' hk' hne
      rw [← hdisk]
      split
      · refine if_neg ?_
        rintro ⟨h1, h2⟩
        exact h.location_ne hk' hk hne (Prod.ext (h1.trans hfile) (h2.trans hblock))
      · rfl
    refine ⟨⟨⟨rfl, rfl, rfl⟩, ⟨h.nextents_le, h.nblocks_le, h.extent_end, h.extents_apart,
      ?_, ?_⟩, ?_⟩, rfl⟩
    · dsimp only
      exact Lib.update_cases nofun fun k' _ => h.located k'
    · dsimp only
      refine Lib.update_cases nofun fun k' hkk hk' b' hb'' hclean => ?_
      show b'.content = disk' (s.location k').1 (s.location k').2
      rw [hother k' hk' hkk]
      exact h.clean k' hk' b' hb'' hclean
    · intro k' hk'
      unfold SegPages.read
      dsimp only
      by_cases hkk : k' = k
      · rw [hkk, update_self, hb]
        exact hself
      rw [update_of_ne hkk]
      cases s.buffers k' with
      | some _ => rfl
      | none => exact hother k' hk' hkk

theorem Plain.evictExtentBuffers (h : s.Plain) (start size : Nat) :
    Same s (s.evictExtentBuffers start size) ∧
      (∀ j, j < size → start + j < s.nblocks →
        (s.evictExtentBuffers start size).buffers (start + j) = none) ∧
      ∀ k, (∀ j, j < size → start + j < s.nblocks → k ≠ start + j) →
        (s.evictExtentBuffers start size).buffers k = s.buffers k := by
  unfold SegPages.evictExtentBuffers
  induction size with
  | zero =>
    refine ⟨Same.refl h, ?_, fun _ _ => rfl⟩
    intro j hj
    omega
  | succ size ih =>
    rw [List.range_succ, List.foldl_append, List.foldl_cons, List.foldl_nil]
    obtain ⟨hsame, hnone, hkeep⟩ := ih
    generalize (List.range size).foldl (fun s i => if s.nblocks ≤ start + i then s
      else s.evictBuffer (start + i)) s = s₁ at hsame hnone hkeep
    have hn : s₁.nblocks = s.nblocks := hsame.map.nblocks
    split
    case isTrue hend =>
      rw [hn] at hend
      refine ⟨hsame, ?_, ?_⟩
      · intro j hj hlt
        exact hnone j (by omega) hlt
      · intro k hk
        exact hkeep k fun j hj hlt => hk j (by omega) hlt
    case isFalse hmore =>
      obtain ⟨hstep, hbuf⟩ := hsame.plain.evictBuffer (Nat.lt_of_not_le hmore)
      refine ⟨hsame.trans hstep, ?_, ?_⟩
      · intro j hj hlt
        rw [hbuf]
        by_cases hjs : j = size
        · rw [hjs, update_self]
        · rw [update_of_ne (by omega)]
          exact hnone j (by omega) hlt
      · intro k hk
        have hne : k ≠ start + size := hk size (by omega) (by rw [← hn]; omega)
        rw [hbuf, update_of_ne hne]
        exact hkeep k fun j hj hlt => hk j (by omega) hlt

/-- The page test says whether a page of the extent is in use, and only fills buffers. -/
theorem Plain.inUseLoop (inUse : α → Bool) (segNblocks start : Nat) {left i : Nat} (h : s.Plain)
    (hin : ∀ j, i ≤ j → j < i + left → start + j < segNblocks → start + j < s.nblocks) :
    Same s (SegPages.inUseLoop inUse segNblocks start left i s).2 ∧
      ((SegPages.inUseLoop inUse segNblocks start left i s).1 = true ↔
        ∃ j, i ≤ j ∧ j < i + left ∧ start + j < segNblocks ∧ inUse (s.read (start + j)) = true) := by
  induction left generalizing i s with
  | zero =>
    refine ⟨Same.refl h, ?_⟩
    constructor
    · intro hf
      cases hf
    · rintro ⟨j, hlo, hhi, -, -⟩
      omega
  | succ left ih =>
    rw [SegPages.inUseLoop]
    by_cases hend : segNblocks ≤ start + i
    · -- the segment ends inside the extent
      rw [if_pos hend]
      refine ⟨Same.refl h, ?_⟩
      constructor
      · intro hf
        cases hf
      · rintro ⟨j, hlo, -, hlt, -⟩
        omega
    rw [if_neg hend]
    have hload := h.readBuffer (start + i)
    have hi := hin i le_rfl (by omega) (by omega)
    rw [hload.read _ hi]
    by_cases hused : inUse (s.read (start + i)) = true
    · rw [if_pos hused]
      exact ⟨hload, iff_of_true rfl ⟨i, le_rfl, by omega, by omega, hused⟩⟩
    rw [if_neg hused]
    obtain ⟨hsame, hiff⟩ := ih (i := i + 1) hload.plain (by
      intro j hlo hhi hlt
      rw [hload.map.nblocks]
      exact hin j (by omega) (by omega) hlt)
    refine ⟨hload.trans hsame, hiff.trans ?_⟩
    constructor
    · rintro ⟨j, hlo, hhi, hlt, hj⟩
      refine ⟨j, by omega, by omega, hlt, ?_⟩
      rw [← hload.read _ (hin j (by omega) (by omega) hlt)]
      exact hj
    · rintro ⟨j, hlo, hhi, hlt, hj⟩
      have hne : i ≠ j := by
        rintro rfl
        exact hused hj
      refine ⟨j, by omega, by omega, hlt, ?_⟩
      rw [hload.read _ (hin j hlo (by omega) hlt)]
      exact hj

end

end SegPages

end OpenGauss.Segment
