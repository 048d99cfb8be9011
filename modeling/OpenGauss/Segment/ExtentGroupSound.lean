import OpenGauss.Segment.ExtentGroupSteps

/-!
# The extent allocator is sound

Allocations, file extensions, new map groups and frees in any order: no extent is handed
out twice or over the map pages, the counters are true and the hints are low enough.
That a preassigned block is in no group is not noticed: the bit of another extent is set
then.
-/

namespace OpenGauss.Segment

open Lib

variable {loc : MapBit} {seg : SegExtentGroup}

/-! ## The search -/

section Search

variable {seg : SegExtentGroup}

theorem findFreeBit_some {p : MapPage} {b : Nat} (h : findFreeBit p = some b) :
    b < 65248 ∧ p.bitmap b = false := by
  unfold findFreeBit at h
  split at h
  · cases h
  have hb := List.find?_some h
  have hmem := List.mem_range'_1.mp (List.mem_of_find?_eq_some h)
  rw [dfMapBitCnt] at hmem
  simp only [Bool.not_eq_true'] at hb
  exact ⟨by omega, hb⟩

theorem Inv.findFreeBit_none (hi : Inv seg) (hm : Managed seg loc)
    (h : findFreeBit (seg.page loc) = none) : ¬ Free seg loc := by
  rintro ⟨-, hclear⟩
  unfold findFreeBit at h
  split at h
  next hzero =>
    have hsum := hi.freeBits loc hm
    rw [hzero, Nat.zero_add] at hsum
    rw [eq_true_of_setCount_eq hsum hm.bitId] at hclear
    cases hclear
  next =>
    have hle := hi.freeBegin_le loc ⟨hm, hclear⟩
    have hlt := hm.bitId
    rw [List.find?_eq_none] at h
    have hmem : loc.bitId ∈ List.range' (seg.page loc).freeBegin
        (dfMapBitCnt - (seg.page loc).freeBegin) := by
      rw [List.mem_range'_1, dfMapBitCnt]
      omega
    have hset := h loc.bitId hmem
    rw [hclear] at hset
    exact hset rfl

/-- What the search comes to is decided by the first free extent. -/
theorem Inv.search_some (hi : Inv seg) {r : TryResult} (h : searchFreeExtent seg = some r) :
    ∃ loc, Free seg loc ∧ r = checkFileSize seg loc ∧ HintsFit seg loc.mapGroup loc.mapId := by
  unfold searchFreeExtent at h
  obtain ⟨i, hi1, hi2, hfound, hgroups⟩ := findSome?_range'_some h
  have hic : i < seg.head.groupCount := by omega
  rw [hi.pageCount i hic] at hfound
  have hpage := hi.freePage_lt i hic
  obtain ⟨j, hj1, hj2, hfrom, hpages⟩ := findSome?_range'_some hfound
  have hj : j < 64 := by omega
  unfold egAllocExtentFromMap at hfrom
  obtain ⟨b, hb, rfl⟩ := Option.map_eq_some_iff.mp hfrom
  obtain ⟨hlt, hclear⟩ := findFreeBit_some hb
  -- a page the search passed over has no free extent
  have hpassed : ∀ loc', Free seg loc' → egAllocExtentFromMap seg loc'.mapGroup loc'.mapId ≠ none := by
    intro loc' hf hnone
    unfold egAllocExtentFromMap at hnone
    exact hi.findFreeBit_none hf.1 (Option.map_eq_none_iff.mp hnone) hf
  refine ⟨⟨i, j, b⟩, ⟨⟨⟨hj, hlt⟩, hic⟩, hclear⟩, rfl, hic, hj, fun loc' hf => ?_,
    fun loc' hf hg => ?_⟩
  · by_contra hlt'
    have hnone := hgroups loc'.mapGroup (hi.freeGroup_le loc' hf) (not_le.mp hlt')
    have hmapId := hf.1.mapId
    have hle := hi.freePage_le loc' hf
    rw [hi.pageCount _ hf.1.group] at hnone
    exact hpassed loc' hf (findSome?_range'_none hnone hle (by omega))
  · by_contra hlt'
    have hle := hi.freePage_le loc' hf
    have hnone := hpages loc'.mapId (by rw [hg] at hle; exact hle) (not_le.mp hlt')
    exact hpassed loc' hf (by rw [hg]; exact hnone)

theorem Inv.search_none (hi : Inv seg) (h : searchFreeExtent seg = none) (loc : MapBit) :
    ¬ Free seg loc := by
  intro hf
  have hg := hf.1.group
  have hmapId := hf.1.mapId
  have hgroup := hi.freeGroup_le loc hf
  have hpage := hi.freePage_le loc hf
  unfold searchFreeExtent at h
  have hnone := findSome?_range'_none h hgroup (by omega)
  rw [hi.pageCount _ hg] at hnone
  have hfrom := findSome?_range'_none hnone hpage (by omega)
  unfold egAllocExtentFromMap at hfrom
  exact hi.findFreeBit_none hf.1 (Option.map_eq_none_iff.mp hfrom) hf

end Search

/-! ## Steps -/

/-- The extent of a bit, or the file is too short for it. -/
theorem checkFileSize_cases (seg : SegExtentGroup) (loc : MapBit) :
    checkFileSize seg loc = .found loc
        (((seg.page loc).firstPage + loc.bitId * seg.extentSize) % 2 ^ 32) ∨
      ∃ target, checkFileSize seg loc = .needFile target := by
  unfold checkFileSize
  split
  · exact .inr ⟨_, rfl⟩
  · exact .inl rfl

theorem needNextGroup_cases (seg : SegExtentGroup) :
    needNextGroup seg = .nothing ∨ ∃ target, needNextGroup seg = .needFile target := by
  unfold needNextGroup
  split
  · exact .inr ⟨_, rfl⟩
  · exact .inl rfl

/-- What the search without a preassigned block comes to. -/
theorem Inv.search_cases (hi : Inv seg) :
    (∃ loc, Free seg loc ∧ HintsFit seg loc.mapGroup loc.mapId ∧ searchFreeExtent seg =
      some (.found loc (((seg.page loc).firstPage + loc.bitId * seg.extentSize) % 2 ^ 32))) ∨
    (∃ target, (searchFreeExtent seg).getD (needNextGroup seg) = .needFile target) ∨
    (∀ loc, ¬ Free seg loc) ∧ searchFreeExtent seg = none ∧ needNextGroup seg = .nothing := by
  cases hs : searchFreeExtent seg with
  | some r =>
    obtain ⟨loc, hfree, rfl, hh⟩ := hi.search_some hs
    rcases checkFileSize_cases seg loc with hc | ⟨target, hc⟩
    · exact .inl ⟨loc, hfree, hh, by rw [hc]⟩
    · exact .inr (.inl ⟨target, by rw [hc, Option.getD_some]⟩)
  | none =>
    rcases needNextGroup_cases seg with hn | ⟨target, hn⟩
    · exact .inr (.inr ⟨hi.search_none hs, rfl, hn⟩)
    · exact .inr (.inl ⟨target, by rw [hn, Option.getD_none]⟩)

theorem Inv.hintsFit (hi : Inv seg) (hm : Managed seg loc) :
    HintsFit seg seg.head.freeGroup (seg.head.groups seg.head.freeGroup).freePage := by
  have hlt := hi.freeGroup_lt (Nat.zero_lt_of_lt hm.group).ne'
  exact ⟨hlt, hi.freePage_lt _ hlt, hi.freeGroup_le, fun loc' hf hg => hg ▸ hi.freePage_le loc' hf⟩

/-! ## Runs -/

/-- What a session may ask for. Block numbers do not run out: the first free extent is in range,
or else there is room for another group. A preassigned block is the first block of an extent
that a group manages, a freed block that of an allocated extent. -/
def Fits (seg : SegExtentGroup) : EgStep → Prop
  | .alloc none =>
    (∀ loc block, searchFreeExtent (withFirstGroup seg) = some (.found loc block) →
      InRange seg.extentSize loc) ∧
    (searchFreeExtent (withFirstGroup seg) = none →
      needNextGroup (withFirstGroup seg) = .nothing → RoomForGroup (withFirstGroup seg))
  | .alloc (some block) => ∃ loc, Managed (withFirstGroup seg) loc ∧
      InRange seg.extentSize loc ∧ block = extentStart seg.extentSize loc
  | .extendFile _ => True
  | .free blocknum => ∃ loc, Used seg loc ∧ blocknum = extentStart seg.extentSize loc

def FitsAlong (seg : SegExtentGroup) : List EgStep → Prop
  | [] => True
  | step :: steps => Fits seg step ∧ ∀ seg', egStep seg step = some seg' → FitsAlong seg' steps

/-- The invariant, and a group count of zero only before anything was allocated. -/
structure Sound (seg : SegExtentGroup) : Prop extends Inv seg where
  first : seg.head.groupCount = 0 → seg.head.freeGroup = 0

theorem Sound.first_group (hs : Sound seg) :
    Inv (withFirstGroup seg) ∧ (withFirstGroup seg).head.groupCount ≠ 0 ∧
      (withFirstGroup seg).extentSize = seg.extentSize := by
  unfold withFirstGroup
  split
  next hzero =>
    have hroom : RoomForGroup seg := by
      refine ⟨?_, ?_⟩
      · rw [hzero]
        decide
      · rw [hzero, groupStart, Nat.zero_mul]
        decide
    have hnext := hs.toInv.addNext hroom hs.first
    have heq : addNext seg = egAddMapGroup seg (dfMapHeadPage + 1) := by
      unfold addNext
      rw [hzero, groupStart, Nat.zero_mul]
    rw [heq] at hnext
    exact ⟨hnext, Nat.succ_ne_zero _, rfl⟩
  next hne => exact ⟨hs.toInv, hne, rfl⟩

theorem used_withFirstGroup (hu : Used seg loc) : withFirstGroup seg = seg :=
  if_neg (Nat.zero_lt_of_lt hu.1.group).ne'

/-- What one pass of `eg_alloc_extent` keeps, and what the extent it returns is. -/
theorem Sound.alloc (hs : Sound seg) {preassigned : Option Nat}
    (hfit : Fits seg (.alloc preassigned)) :
    Sound (egAllocExtent seg preassigned).1 ∧
      ∀ loc block, (egAllocExtent seg preassigned).2 = .allocated loc block →
        block = extentStart seg.extentSize loc ∧ Free (withFirstGroup seg) loc := by
  obtain ⟨hi, hne, hsize⟩ := hs.first_group
  have hl := hi.toLayout
  have hsame : Sound (withFirstGroup seg) := ⟨hi, fun h => absurd h hne⟩
  -- setting the bit of a free extent in range, whatever the new hints are
  have hset : ∀ loc g f, Free (withFirstGroup seg) loc → InRange seg.extentSize loc →
      HintsFit (withFirstGroup seg) g f → Sound (egAllocExtentFromMapInternal (withFirstGroup seg)
        loc (extentStart seg.extentSize loc) g f) := by
    intro loc g f hfree hr hh
    rw [← hsize] at hr ⊢
    exact ⟨hi.setBit hfree hr hh, fun h => absurd h hne⟩
  cases preassigned with
  | none =>
    obtain ⟨hrange, hroom⟩ := hfit
    unfold egAllocExtent allocSearched
    rcases hi.search_cases with ⟨loc, hfree, hh, hr⟩ | ⟨target, hr⟩ | ⟨-, hr, hn⟩
    · have hin := hrange loc _ hr
      simp only [hr, Option.getD_some]
      rw [hl.pagenum hfree.1 (hsize.symm ▸ hin), hsize]
      refine ⟨hset loc _ _ hfree hin hh, ?_⟩
      rintro loc' block ⟨⟩
      exact ⟨rfl, hfree⟩
    · simp only [hr]
      exact ⟨hsame, nofun⟩
    · simp only [hr, Option.getD_none, hn]
      refine ⟨⟨?_, fun h => absurd h (Nat.succ_ne_zero _)⟩, nofun⟩
      rw [hl.egNextGroupStart hne (hroom hr hn)]
      exact hi.addNext (hroom hr hn) hsame.first
  | some p =>
    obtain ⟨loc, hm, hin, rfl⟩ := hfit
    have hin' : InRange (withFirstGroup seg).extentSize loc := hsize.symm ▸ hin
    have hloc := hl.locate hm hin'
    have hvalid := hl.mapLocation_valid hm
    have hpage := hl.pagenum hm hin'
    rw [hsize] at hloc hpage
    unfold egAllocExtent egAllocPreassignedBlock allocPreassignedAt
    dsimp only
    rw [hloc, hvalid, if_neg Bool.false_ne_true]
    cases hb : ((withFirstGroup seg).page loc).bitmap loc.bitId with
    | true =>
      simp only [if_true]
      exact ⟨hsame, nofun⟩
    | false =>
      simp only [Bool.false_eq_true, if_false]
      rcases checkFileSize_cases (withFirstGroup seg) loc with hc | ⟨target, hc⟩
      · simp only [hc, hsize, hpage]
        refine ⟨hset loc _ _ ⟨hm, hb⟩ hin (hi.hintsFit hm), ?_⟩
        rintro loc' block ⟨⟩
        exact ⟨rfl, hm, hb⟩
      · simp only [hc]
        exact ⟨hsame, nofun⟩

theorem egAllocExtent_extentSize (seg : SegExtentGroup) (preassigned : Option Nat) :
    (egAllocExtent seg preassigned).1.extentSize = seg.extentSize := by
  have hfirst : (withFirstGroup seg).extentSize = seg.extentSize := by
    unfold withFirstGroup
    split <;> rfl
  rw [← hfirst]
  cases preassigned with
  | none =>
    show (allocSearched (withFirstGroup seg)).1.extentSize = _
    unfold allocSearched
    split <;> rfl
  | some block =>
    show (egAllocPreassignedBlock (withFirstGroup seg) block).1.extentSize = _
    unfold egAllocPreassignedBlock allocPreassignedAt
    split
    · rfl
    split
    · rfl
    · split <;> rfl

theorem Sound.freed (hs : Sound seg) (hu : Used seg loc) :
    egFreeExtent seg (extentStart seg.extentSize loc) = some (freeAt seg loc) ∧
      Sound (freeAt seg loc) := by
  have hl := hs.toLayout
  refine ⟨?_, hs.toInv.clearBit hu, fun h => ?_⟩
  · unfold egFreeExtent
    rw [hl.locate hu.1 (hs.inRange loc hu), hl.mapLocation_valid hu.1, if_neg Bool.false_ne_true]
    exact if_pos hu.2
  · show min seg.head.freeGroup loc.mapGroup = 0
    rw [hs.first h, Nat.zero_min]

theorem Sound.extended (hs : Sound seg) (total : Nat) :
    Sound { seg with totalBlocks := total } := by
  have hm : ∀ {loc}, Managed { seg with totalBlocks := total } loc → Managed seg loc :=
    fun h => ⟨h.toInside, h.group⟩
  exact { hs with
    firstPage := fun loc h => hs.firstPage loc (hm h)
    freeBits := fun loc h => hs.freeBits loc (hm h)
    freeBegin_le := fun loc h => hs.freeBegin_le loc ⟨hm h.1, h.2⟩
    freePage_le := fun loc h => hs.freePage_le loc ⟨hm h.1, h.2⟩
    freeGroup_le := fun loc h => hs.freeGroup_le loc ⟨hm h.1, h.2⟩
    inRange := fun loc h => hs.inRange loc ⟨hm h.1, h.2⟩
    highWaterMark := fun loc h => hs.highWaterMark loc ⟨hm h.1, h.2⟩ }

theorem Sound.step (hs : Sound seg) {step : EgStep} (hfit : Fits seg step) :
    ∃ seg', egStep seg step = some seg' ∧ seg'.extentSize = seg.extentSize ∧ Sound seg' := by
  cases step with
  | alloc preassigned =>
    exact ⟨_, rfl, egAllocExtent_extentSize seg preassigned, (hs.alloc hfit).1⟩
  | extendFile target => exact ⟨_, rfl, rfl, hs.extended _⟩
  | free blocknum =>
    obtain ⟨loc, hu, rfl⟩ := hfit
    obtain ⟨hfree, hs'⟩ := hs.freed hu
    exact ⟨_, hfree, rfl, hs'⟩

theorem Sound.run (hs : Sound seg) (steps : List EgStep) (hfits : FitsAlong seg steps) :
    ∃ seg', egRun seg steps = some seg' ∧ seg'.extentSize = seg.extentSize ∧ Sound seg' := by
  induction steps generalizing seg with
  | nil => exact ⟨seg, rfl, rfl, hs⟩
  | cons step steps ih =>
    obtain ⟨hfit, hrest⟩ := hfits
    obtain ⟨mid, hmid, hsize, hs'⟩ := hs.step hfit
    obtain ⟨seg', hrun, hsize', hs''⟩ := ih hs' (hrest mid hmid)
    refine ⟨seg', ?_, hsize'.trans hsize, hs''⟩
    show (egStep seg step).bind _ = _
    rw [hmid]
    exact hrun

theorem sound_emptyGroup {size : Nat} (hpos : 0 < size) (total : Nat) :
    Sound (emptyGroup size total) := by
  have hnone : ∀ loc, ¬ Managed (emptyGroup size total) loc :=
    fun loc hm => Nat.not_lt_zero _ hm.group
  exact {
    size_pos := hpos
    firstMap := nofun
    pageCount := nofun
    start_lt := nofun
    firstPage := fun loc hm => absurd hm (hnone loc)
    freePage_lt := nofun
    freeGroup_lt := fun h => absurd rfl h
    freeBits := fun loc hm => absurd hm (hnone loc)
    freeBegin_le := fun loc hf => absurd hf.1 (hnone loc)
    freePage_le := fun loc hf => absurd hf.1 (hnone loc)
    freeGroup_le := fun loc hf => absurd hf.1 (hnone loc)
    allocatedExtents := rfl
    inRange := fun loc hu => absurd hu.1 (hnone loc)
    highWaterMark := fun loc hu => absurd hu.1 (hnone loc)
    first := fun _ => rfl }

/-- A free extent is found before a new group is made. -/
theorem Sound.free_found (hs : Sound seg) (hf : Free seg loc) :
    (egAllocExtent seg none).2 ≠ .newGroup := by
  have hfirst : withFirstGroup seg = seg := if_neg (Nat.zero_lt_of_lt hf.1.group).ne'
  unfold egAllocExtent allocSearched
  dsimp only
  rw [hfirst]
  rcases hs.toInv.search_cases with ⟨_, -, -, hr⟩ | ⟨_, hr⟩ | ⟨hnone, -⟩
  · simp [hr]
  · simp [hr]
  · exact absurd hf (hnone loc)

/-- Sessions that allocate and free extents, extend the file and add map groups, in any
order: frees succeed, an extent that is returned is neither allocated nor over the maps,
the counters are true, the hints are at or before every free extent, which is found before
a new group is made, and the high water mark is behind every allocated extent. -/
theorem egRun_sound {size : Nat} (hpos : 0 < size) (total : Nat) (steps : List EgStep)
    (hfits : FitsAlong (emptyGroup size total) steps) :
    ∃ seg, egRun (emptyGroup size total) steps = some seg ∧
      (∀ preassigned loc block, Fits seg (.alloc preassigned) →
        (egAllocExtent seg preassigned).2 = .allocated loc block →
        block = extentStart size loc ∧ ¬ Used seg loc ∧
        (∀ loc', Used seg loc' → Apart block size (extentStart size loc') size) ∧
        ∀ i < (egAllocExtent seg preassigned).1.head.groupCount,
          Apart block size ((egAllocExtent seg preassigned).1.head.groups i).firstMap
            (dfMapGroupSize + ipblockGroupSize)) ∧
      seg.head.allocatedExtents = usedExtents seg ∧
      (∀ loc, Managed seg loc → (seg.page loc).freeBits + (seg.page loc).usedBits = dfMapBitCnt) ∧
      (∀ loc, Free seg loc → (seg.page loc).freeBegin ≤ loc.bitId ∧
        (seg.head.groups loc.mapGroup).freePage ≤ loc.mapId ∧
        seg.head.freeGroup ≤ loc.mapGroup ∧ (egAllocExtent seg none).2 ≠ .newGroup) ∧
      ∀ loc, Used seg loc → extentStart size loc + size ≤ seg.head.highWaterMark := by
  obtain ⟨seg, hrun, hsize, hs⟩ := (sound_emptyGroup hpos total).run steps hfits
  have hsize : seg.extentSize = size := hsize
  subst hsize
  refine ⟨seg, hrun, fun preassigned loc block hfit h => ?_,
    hs.allocatedExtents, hs.freeBits, fun loc hf => ?_, hs.highWaterMark⟩
  · obtain ⟨hs', hret⟩ := hs.alloc hfit
    obtain ⟨rfl, hfree⟩ := hret loc block h
    -- the extent was free, so it is none of those in use
    have hother : ∀ loc', Used seg loc' → loc ≠ loc' := by
      rintro loc' hu rfl
      rw [used_withFirstGroup hu] at hfree
      cases hfree.2.symm.trans hu.2
    refine ⟨rfl, fun hu => hother loc hu rfl, fun loc' hu => ?_, fun i hi => ?_⟩
    · exact extents_apart _ hfree.1.toInside hu.1.toInside (hother loc' hu)
    · rw [hs'.firstMap i hi, egAllocExtent_extentSize]
      exact extent_apart_maps _ hfree.1.toInside i
  · exact ⟨hs.freeBegin_le loc hf, hs.freePage_le loc hf, hs.freeGroup_le loc hf, hs.free_found hf⟩

/-- Two extents are allocated. The first one is freed and allocated again. -/
def allocAgain : List EgStep := [.alloc none, .alloc none, .free 4157, .alloc none]

theorem fits_firstMap {b p : Nat} (hsize : seg.extentSize = 8)
    (h : searchFreeExtent (withFirstGroup seg) = some (.found ⟨0, 0, b⟩ p))
    (hr : InRange 8 ⟨0, 0, b⟩) : Fits seg (.alloc none) := by
  refine ⟨fun loc block heq => ?_, fun hnone => ?_⟩
  · cases h.symm.trans heq
    rw [hsize]
    exact hr
  · cases h.symm.trans hnone

theorem allocAgain_fits : FitsAlong (emptyGroup 8 20000) allocAgain := by
  have hr₀ : InRange 8 ⟨0, 0, 0⟩ := by unfold InRange; decide
  have hr₁ : InRange 8 ⟨0, 0, 1⟩ := by unfold InRange; decide
  refine ⟨fits_firstMap (p := 4157) rfl (by decide +kernel) hr₀, fun s₁ h₁ => ?_⟩
  cases h₁
  refine ⟨fits_firstMap (p := 4165) rfl (by decide +kernel) hr₁, fun s₂ h₂ => ?_⟩
  cases h₂
  refine ⟨⟨⟨0, 0, 0⟩, ⟨⟨⟨by decide, by decide⟩, by decide +kernel⟩, by decide +kernel⟩,
    by decide +kernel⟩, fun s₃ h₃ => ⟨?_, fun _ _ => trivial⟩⟩
  have hfound : ((egStep (egAllocExtent (egAllocExtent (emptyGroup 8 20000) none).1 none).1
      (.free 4157)).map fun s => (s.extentSize, searchFreeExtent (withFirstGroup s))) =
        some (8, some (.found ⟨0, 0, 0⟩ 4157)) := by decide +kernel
  rw [h₃, Option.map_some, Option.some.injEq, Prod.mk.injEq] at hfound
  exact fits_firstMap hfound.1 hfound.2 hr₀

theorem egRun_sound_allocAgain : 0 < 8 ∧ FitsAlong (emptyGroup 8 20000) allocAgain ∧
      ∃ seg, egRun (emptyGroup 8 20000) allocAgain = some seg ∧ usedExtents seg = 2 := by
  obtain ⟨seg, hrun, -, hcount, -⟩ :=
    egRun_sound (by decide : 0 < 8) 20000 allocAgain allocAgain_fits
  have htwo : ((egRun (emptyGroup 8 20000) allocAgain).map fun s => s.head.allocatedExtents) =
      some 2 := by decide +kernel
  rw [hrun] at htwo
  exact ⟨by decide, allocAgain_fits, seg, hrun, hcount.symm.trans (Option.some.inj htwo)⟩

/-- Block 33415287 begins the first extent of a second group, which there is not yet. It is
returned all the same: the bit of the first extent is set for it, and the high water mark is
left far below its end. A map page of the first group is returned in the same way. -/
theorem preassigned_in_no_group : extentStart 8 ⟨1, 0, 0⟩ = 33415287 ∧
      (egAllocExtent (emptyGroup 8 40000000) (some 33415287)).2 = .allocated ⟨0, 0, 0⟩ 33415287 ∧
      (egAllocExtent (emptyGroup 8 40000000) (some 33415287)).1.head.groupCount = 1 ∧
      (egAllocExtent (emptyGroup 8 40000000) (some 33415287)).1.head.highWaterMark = 4165 ∧
      ((egAllocExtent (emptyGroup 8 40000000) (some 5)).1.head.groups 0).firstMap = 3 ∧
      (egAllocExtent (emptyGroup 8 40000000) (some 5)).2 = .allocated ⟨0, 0, 0⟩ 5 := by
  refine ⟨by decide, ?_, ?_, ?_, ?_, ?_⟩ <;> decide +kernel

end OpenGauss.Segment
