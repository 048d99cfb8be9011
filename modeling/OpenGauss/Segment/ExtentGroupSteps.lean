import OpenGauss.Segment.ExtentGroupLayout
import OpenGauss.Lib.Update

/-!
# Setting and clearing bits, and new map groups

The three ways a map page changes, and that each keeps the invariant of the extent group.
-/

namespace OpenGauss.Segment

open Lib
open Function (update update_apply update_of_ne update_self)
open SegExtentGroup (page mapBlock)
open Finset (range sum_congr)

variable {loc loc' : MapBit} {seg : SegExtentGroup}

/-! ## Changing one map page -/

/-- Everything but one map page, the counters and the hints is as it was. -/
structure PageChanged (seg seg' : SegExtentGroup) (loc : MapBit) (p : MapPage) : Prop where
  size : seg'.extentSize = seg.extentSize
  count : seg'.head.groupCount = seg.head.groupCount
  firstMap : ∀ i, (seg'.head.groups i).firstMap = (seg.head.groups i).firstMap
  pageCount : ∀ i, (seg'.head.groups i).pageCount = (seg.head.groups i).pageCount
  pages : seg'.pages = update seg.pages (seg.mapBlock loc) p
  firstPage : p.firstPage = (seg.page loc).firstPage

/-- The two bits are on one map page. -/
def SamePage (loc loc' : MapBit) : Prop := loc.mapGroup = loc'.mapGroup ∧ loc.mapId = loc'.mapId

theorem SamePage.page_eq (hs : SamePage loc loc') (seg : SegExtentGroup) :
    seg.page loc' = seg.page loc := by
  unfold page mapBlock
  rw [hs.1, hs.2]

theorem SamePage.eq_iff (hs : SamePage loc loc') : loc' = loc ↔ loc'.bitId = loc.bitId := by
  obtain ⟨g, j, b⟩ := loc
  obtain ⟨g', j', b'⟩ := loc'
  obtain ⟨h1, h2⟩ := hs
  simp only at h1 h2
  simp [h1, h2]

theorem SamePage.refl (loc : MapBit) : SamePage loc loc := ⟨rfl, rfl⟩

namespace PageChanged

variable {seg seg' : SegExtentGroup} {loc loc' : MapBit} {p : MapPage}
variable (h : PageChanged seg seg' loc p)

include h

theorem managed : Managed seg' loc' ↔ Managed seg loc' := by
  constructor
  · rintro ⟨hin, hg⟩
    exact ⟨hin, h.count ▸ hg⟩
  · rintro ⟨hin, hg⟩
    exact ⟨hin, h.count.symm ▸ hg⟩

theorem page_same (hs : SamePage loc loc') : seg'.page loc' = p := by
  unfold page mapBlock
  rw [h.pages, h.firstMap, ← hs.1, ← hs.2]
  exact update_self _ _ _

theorem page_other (hl : Layout seg) (hm : Managed seg loc)
    (hm' : Managed seg loc') (hs : ¬ SamePage loc loc') : seg'.page loc' = seg.page loc' := by
  have hne : seg.mapBlock loc' ≠ seg.mapBlock loc := by
    intro heq
    unfold mapBlock at heq
    rw [hl.firstMap _ hm.group, hl.firstMap _ hm'.group] at heq
    obtain ⟨h1, h2⟩ := mapBlock_inj hm'.mapId hm.mapId heq
    exact hs ⟨h1.symm, h2.symm⟩
  unfold page
  rw [h.pages]
  unfold mapBlock at hne ⊢
  rw [h.firstMap]
  exact update_of_ne hne _ _

theorem layout (hl : Layout seg) (hm : Managed seg loc) : Layout seg' where
  size_pos := h.size.symm ▸ hl.size_pos
  firstMap i hi := by
    rw [h.firstMap, h.size]
    exact hl.firstMap i (h.count ▸ hi)
  pageCount i hi := by
    rw [h.pageCount]
    exact hl.pageCount i (h.count ▸ hi)
  start_lt i hi := by
    rw [h.size]
    exact hl.start_lt i (h.count ▸ hi)
  firstPage loc' hm' := by
    rw [h.managed] at hm'
    by_cases hs : SamePage loc loc'
    · rw [h.page_same hs, h.firstPage, hl.firstPage loc hm, hs.1, hs.2, h.size]
    · rw [h.page_other hl hm hm' hs, hl.firstPage loc' hm', h.size]

/-- The allocated extents change by what the page's set bits change. -/
theorem usedExtents (hl : Layout seg) (hm : Managed seg loc) :
    usedExtents seg' + (seg.page loc).usedBits = usedExtents seg + p.usedBits := by
  have hmem : (loc.mapGroup, loc.mapId) ∈ mapPages seg :=
    Finset.mem_product.mpr ⟨Finset.mem_range.mpr hm.group, Finset.mem_range.mpr hm.mapId⟩
  have hpages : mapPages seg' = mapPages seg := by
    unfold mapPages
    rw [h.count]
  have hoff : ∀ x ∈ mapPages seg, x ≠ (loc.mapGroup, loc.mapId) →
      (seg'.page ⟨x.1, x.2, 0⟩).usedBits = (seg.page ⟨x.1, x.2, 0⟩).usedBits := by
    intro x hx hne
    obtain ⟨hx1, hx2⟩ := Finset.mem_product.mp hx
    have hm' : Managed seg ⟨x.1, x.2, 0⟩ :=
      ⟨⟨Finset.mem_range.mp hx2, Nat.succ_pos 65247⟩, Finset.mem_range.mp hx1⟩
    have hs : ¬ SamePage loc ⟨x.1, x.2, 0⟩ := fun hs => hne (Prod.ext hs.1.symm hs.2.symm)
    rw [h.page_other hl hm hm' hs]
  have hsum := sum_add_eq_of_eq_off hmem hoff
  have hat : seg'.page ⟨loc.mapGroup, loc.mapId, 0⟩ = p := h.page_same ⟨rfl, rfl⟩
  unfold Segment.usedExtents
  rw [hpages]
  rw [hat] at hsum
  exact hsum

theorem forall_page {P : MapPage → Prop} (hl : Layout seg) (hm : Managed seg loc) (hp : P p)
    (hold : ∀ loc', Managed seg loc' → P (seg.page loc')) {loc' : MapBit}
    (hm' : Managed seg' loc') : P (seg'.page loc') := by
  rw [h.managed] at hm'
  by_cases hs : SamePage loc loc'
  · rwa [h.page_same hs]
  · rw [h.page_other hl hm hm' hs]
    exact hold loc' hm'

/-- One bit of the page is written, and no other one changes. -/
theorem bitmap {v : Bool} (hl : Layout seg) (hm : Managed seg loc)
    (hp : p.bitmap = update (seg.page loc).bitmap loc.bitId v) {loc' : MapBit}
    (hm' : Managed seg loc') : (seg'.page loc').bitmap loc'.bitId =
      if loc' = loc then v else (seg.page loc').bitmap loc'.bitId := by
  by_cases hs : SamePage loc loc'
  · simp only [h.page_same hs, hs.page_eq seg, hp, hs.eq_iff, update_apply]
  · have hne : loc' ≠ loc := fun heq => hs (heq ▸ SamePage.refl _)
    rw [h.page_other hl hm hm' hs, if_neg hne]

end PageChanged

/-! ## Setting a bit -/

theorem egAllocExtentFromMapInternal_changed (seg : SegExtentGroup) (loc : MapBit)
    (block g f : Nat) :
    PageChanged seg (egAllocExtentFromMapInternal seg loc block g f) loc
      (egSetBitmapPage (seg.page loc) loc.bitId) where
  size := rfl
  count := rfl
  firstMap := by
    dsimp only [egAllocExtentFromMapInternal]
    exact update_cases rfl fun _ _ => rfl
  pageCount := by
    dsimp only [egAllocExtentFromMapInternal]
    exact update_cases rfl fun _ _ => rfl
  pages := rfl
  firstPage := rfl

/-- New hints are low enough for every extent that stays free. -/
structure HintsFit (seg : SegExtentGroup) (g f : Nat) : Prop where
  group : g < seg.head.groupCount
  page : f < 64
  group_le : ∀ loc', Free seg loc' → g ≤ loc'.mapGroup
  page_le : ∀ loc', Free seg loc' → loc'.mapGroup = g → f ≤ loc'.mapId

theorem Inv.setBit (hi : Inv seg) (hfree : Free seg loc) (hr : InRange seg.extentSize loc)
    {g f : Nat} (hh : HintsFit seg g f) :
    Inv (egAllocExtentFromMapInternal seg loc (extentStart seg.extentSize loc) g f) := by
  obtain ⟨hm, hclear⟩ := hfree
  have hl := hi.toLayout
  have hc := egAllocExtentFromMapInternal_changed seg loc (extentStart seg.extentSize loc) g f
  have hused : (egSetBitmapPage (seg.page loc) loc.bitId).usedBits = (seg.page loc).usedBits + 1 :=
    setCount_update_true hm.bitId hclear
  -- what is free afterwards was free before and is another extent
  have hold : ∀ loc', Free (egAllocExtentFromMapInternal seg loc
      (extentStart seg.extentSize loc) g f) loc' → Free seg loc' ∧ loc' ≠ loc := by
    rintro loc' ⟨hm', hb'⟩
    rw [hc.managed] at hm'
    rw [hc.bitmap hl hm rfl hm'] at hb'
    split at hb'
    · cases hb'
    · exact ⟨⟨hm', hb'⟩, ‹_›⟩
  have hnew : ∀ loc', Used (egAllocExtentFromMapInternal seg loc
      (extentStart seg.extentSize loc) g f) loc' → loc' = loc ∨ Used seg loc' := by
    rintro loc' ⟨hm', hb'⟩
    rw [hc.managed] at hm'
    rw [hc.bitmap hl hm rfl hm'] at hb'
    exact or_iff_not_imp_left.mpr fun hne => ⟨hm', by rwa [if_neg hne] at hb'⟩
  refine { hc.layout hl hm with
    freePage_lt := ?_, freeGroup_lt := fun _ => hh.group, freeBits := ?_, freeBegin_le := ?_,
    freePage_le := ?_, freeGroup_le := fun loc' hf => hh.group_le loc' (hold loc' hf).1,
    allocatedExtents := ?_, inRange := ?_, highWaterMark := ?_ }
  · intro i hlt
    by_cases heq : i = g
    · subst heq
      simpa [egAllocExtentFromMapInternal] using hh.page
    · simpa [egAllocExtentFromMapInternal, update_of_ne heq] using hi.freePage_lt i hlt
  · refine fun loc' => hc.forall_page (P := fun p => p.freeBits + p.usedBits = 65248) hl hm ?_
      hi.freeBits
    have hsum := hi.freeBits loc hm
    have hle : (egSetBitmapPage (seg.page loc) loc.bitId).usedBits ≤ 65248 := setCount_le _ 65248
    rw [hused] at hle ⊢
    show (seg.page loc).freeBits - 1 + _ = _
    omega
  · intro loc' hf'
    obtain ⟨hf, hne⟩ := hold loc' hf'
    have hle := hi.freeBegin_le loc' hf
    by_cases hs : SamePage loc loc'
    · have hb : loc'.bitId ≠ loc.bitId := fun hb => hne (hs.eq_iff.mpr hb)
      rw [hs.page_eq seg] at hle
      rw [hc.page_same hs]
      -- the hint moves only if it was on the bit that is set now
      show (if (seg.page loc).freeBegin = loc.bitId then _ else _) ≤ _
      split <;> omega
    · rw [hc.page_other hl hm hf.1 hs]
      exact hle
  · intro loc' hf'
    obtain ⟨hf, -⟩ := hold loc' hf'
    by_cases heq : loc'.mapGroup = g
    · simpa [egAllocExtentFromMapInternal, heq] using hh.page_le loc' hf heq
    · simpa [egAllocExtentFromMapInternal, update_of_ne heq] using hi.freePage_le loc' hf
  · have hsum := hc.usedExtents hl hm
    have hcount := hi.allocatedExtents
    show seg.head.allocatedExtents + 1 = _
    omega
  · intro loc' hu
    rcases hnew loc' hu with rfl | hu
    · exact hr
    · exact hi.inRange loc' hu
  · intro loc' hu
    have hlt := hr.lt
    show _ ≤ max seg.head.highWaterMark ((extentStart seg.extentSize loc + seg.extentSize) % 2 ^ 32)
    rw [Nat.mod_eq_of_lt hlt]
    rcases hnew loc' hu with rfl | hu
    · exact Nat.le_max_right _ _
    · exact Nat.le_trans (hi.highWaterMark loc' hu) (Nat.le_max_left _ _)

/-! ## Clearing a bit -/

theorem freeAt_changed (seg : SegExtentGroup) (loc : MapBit) :
    PageChanged seg (freeAt seg loc) loc (egUnsetBitmapPage (seg.page loc) loc.bitId) where
  size := rfl
  count := rfl
  firstMap := by
    dsimp only [freeAt]
    exact update_cases rfl fun _ _ => rfl
  pageCount := by
    dsimp only [freeAt]
    exact update_cases rfl fun _ _ => rfl
  pages := rfl
  firstPage := rfl

theorem Inv.clearBit (hi : Inv seg) (hu : Used seg loc) : Inv (freeAt seg loc) := by
  obtain ⟨hm, hset⟩ := hu
  have hl := hi.toLayout
  have hc := freeAt_changed seg loc
  have hused : (egUnsetBitmapPage (seg.page loc) loc.bitId).usedBits + 1 =
      (seg.page loc).usedBits := setCount_update_false hm.bitId hset
  have hold : ∀ loc', Free (freeAt seg loc) loc' → loc' = loc ∨ Free seg loc' := by
    rintro loc' ⟨hm', hb'⟩
    rw [hc.managed] at hm'
    rw [hc.bitmap hl hm rfl hm'] at hb'
    exact or_iff_not_imp_left.mpr fun hne => ⟨hm', by rwa [if_neg hne] at hb'⟩
  have hnew : ∀ loc', Used (freeAt seg loc) loc' → Used seg loc' := by
    rintro loc' ⟨hm', hb'⟩
    rw [hc.managed] at hm'
    rw [hc.bitmap hl hm rfl hm'] at hb'
    split at hb'
    · cases hb'
    · exact ⟨hm', hb'⟩
  refine { hc.layout hl hm with
    freePage_lt := ?_, freeGroup_lt := ?_, freeBits := ?_, freeBegin_le := ?_,
    freePage_le := ?_, freeGroup_le := ?_, allocatedExtents := ?_,
    inRange := fun loc' hu => hi.inRange loc' (hnew loc' hu),
    highWaterMark := fun loc' hu => hi.highWaterMark loc' (hnew loc' hu) }
  · intro i hlt
    have hold := hi.freePage_lt i hlt
    by_cases heq : i = loc.mapGroup
    · subst heq
      simp only [freeAt, update_self]
      omega
    · simpa [freeAt, update_of_ne heq] using hold
  · intro hne
    have hlt := hi.freeGroup_lt hne
    show min seg.head.freeGroup loc.mapGroup < seg.head.groupCount
    omega
  · refine fun loc' => hc.forall_page (P := fun p => p.freeBits + p.usedBits = 65248) hl hm ?_
      hi.freeBits
    have hsum := hi.freeBits loc hm
    show (seg.page loc).freeBits + 1 + _ = _
    omega
  · -- the hints only go down, to the bit that is now free
    intro loc' hf'
    by_cases hs : SamePage loc loc'
    · rw [hc.page_same hs]
      show (if loc.bitId < (seg.page loc).freeBegin then _ else _) ≤ _
      rcases hold loc' hf' with rfl | hf
      · split <;> omega
      have hle := hi.freeBegin_le loc' hf
      rw [hs.page_eq seg] at hle
      split <;> omega
    · rcases hold loc' hf' with rfl | hf
      · exact absurd (SamePage.refl _) hs
      · rw [hc.page_other hl hm hf.1 hs]
        exact hi.freeBegin_le loc' hf
  · intro loc' hf'
    by_cases heq : loc'.mapGroup = loc.mapGroup
    · simp only [freeAt, heq, update_self]
      rcases hold loc' hf' with rfl | hf
      · exact Nat.min_le_right _ _
      have hle := hi.freePage_le loc' hf
      rw [heq] at hle
      omega
    · rcases hold loc' hf' with rfl | hf
      · exact absurd rfl heq
      · simpa [freeAt, update_of_ne heq] using hi.freePage_le loc' hf
  · intro loc' hf'
    show min seg.head.freeGroup loc.mapGroup ≤ _
    rcases hold loc' hf' with rfl | hf
    · exact Nat.min_le_right _ _
    · exact Nat.le_trans (Nat.min_le_left _ _) (hi.freeGroup_le loc' hf)
  · have hsum := hc.usedExtents hl hm
    have hcount := hi.allocatedExtents
    show seg.head.allocatedExtents - 1 = _
    omega

/-! ## A new map group -/

/-- The next group fits: it has a slot in the map head and its map pages have block numbers. -/
structure RoomForGroup (seg : SegExtentGroup) : Prop where
  slot : seg.head.groupCount < dfMaxMapGroupCnt
  blocks : groupStart seg.extentSize seg.head.groupCount + 4154 < 2 ^ 32

theorem Layout.egNextGroupStart (hl : Layout seg) (hne : seg.head.groupCount ≠ 0)
    (hroom : RoomForGroup seg) :
    egNextGroupStart seg = groupStart seg.extentSize seg.head.groupCount := by
  have hlast : seg.head.groupCount - 1 < seg.head.groupCount := by omega
  have hlt := hroom.blocks
  have hstart : groupStart seg.extentSize (seg.head.groupCount - 1) + 64 + 4090 +
      4175872 * seg.extentSize = groupStart seg.extentSize seg.head.groupCount := by
    have hsucc := groupStart_succ seg.extentSize (seg.head.groupCount - 1)
    rw [Nat.sub_add_cancel (Nat.pos_of_ne_zero hne)] at hsucc
    unfold groupSpan at hsucc
    omega
  unfold Segment.egNextGroupStart
  rw [hl.firstMap _ hlast, hl.pageCount _ hlast, ipblockGroupSize, dfMapGroupExtents, hstart,
    Nat.mod_eq_of_lt (by omega)]

section NewGroup

variable {seg : SegExtentGroup}

/-- The group behind the last one. -/
def addNext (seg : SegExtentGroup) : SegExtentGroup :=
  egAddMapGroup seg (groupStart seg.extentSize seg.head.groupCount)

theorem addNext_groups_old {i : Nat} (hi : i < seg.head.groupCount) :
    (addNext seg).head.groups i = seg.head.groups i :=
  update_of_ne (Nat.ne_of_lt hi) _ _

theorem addNext_groups_new : (addNext seg).head.groups seg.head.groupCount =
    ⟨groupStart seg.extentSize seg.head.groupCount, 0, 64⟩ :=
  update_self _ _ _

theorem addNext_managed (hm : Managed (addNext seg) loc) :
    Managed seg loc ∨ loc.mapGroup = seg.head.groupCount := by
  rcases Nat.lt_succ_iff_lt_or_eq.mp hm.group with hg | hg
  · exact .inl ⟨hm.toInside, hg⟩
  · exact .inr hg

theorem addNext_page_old (hl : Layout seg) (hm : Managed seg loc) (hroom : RoomForGroup seg) :
    (addNext seg).page loc = seg.page loc := by
  have hlt := hroom.blocks
  have hj := hm.mapId
  have hle := groupStart_succ_le seg.extentSize hm.group
  have hspan : 4154 ≤ groupSpan seg.extentSize := Nat.le_add_right _ _
  rw [groupStart_succ] at hle
  have hblock : (addNext seg).mapBlock loc = seg.mapBlock loc := by
    unfold mapBlock
    rw [addNext_groups_old hm.group]
  have hnot : ¬ (seg.mapBlock loc + 2 ^ 32 - groupStart seg.extentSize seg.head.groupCount) %
      2 ^ 32 < dfMapGroupSize := by
    unfold mapBlock
    rw [hl.firstMap _ hm.group, Nat.mod_eq_of_lt (by omega), dfMapGroupSize]
    omega
  unfold page
  rw [hblock]
  exact if_neg hnot

theorem addNext_page_new (hin : loc.Inside) (hg : loc.mapGroup = seg.head.groupCount) :
    (addNext seg).page loc = egInitBitmapPageContent
      ((groupStart seg.extentSize loc.mapGroup + 4154 +
        loc.mapId * (65248 * seg.extentSize)) % 2 ^ 32) := by
  set start := groupStart seg.extentSize
  have hj := hin.mapId
  have hblock : (addNext seg).mapBlock loc =
      start seg.head.groupCount + loc.mapId := by
    unfold mapBlock
    rw [hg, addNext_groups_new]
  have hoff : (start seg.head.groupCount + loc.mapId + 2 ^ 32 -
      start seg.head.groupCount) % 2 ^ 32 = loc.mapId := by
    omega
  have hpos : (start seg.head.groupCount + loc.mapId + 2 ^ 32 -
      start seg.head.groupCount) % 2 ^ 32 < dfMapGroupSize := by
    rw [hoff]
    exact hj
  unfold page
  rw [hblock, hg]
  unfold addNext egAddMapGroup
  simp only
  rw [if_pos hpos, hoff, dfMapGroupSize, ipblockGroupSize, dfMapBitCnt, Nat.add_assoc _ 64 4090]

theorem addNext_layout (hl : Layout seg) (hroom : RoomForGroup seg) : Layout (addNext seg) where
  size_pos := hl.size_pos
  firstMap i hi := by
    rcases Nat.lt_succ_iff_lt_or_eq.mp hi with hi | rfl
    · rw [addNext_groups_old hi]
      exact hl.firstMap i hi
    · rw [addNext_groups_new]
      rfl
  pageCount i hi := by
    rcases Nat.lt_succ_iff_lt_or_eq.mp hi with hi | rfl
    · rw [addNext_groups_old hi]
      exact hl.pageCount i hi
    · rw [addNext_groups_new]
  start_lt i hi := by
    rcases Nat.lt_succ_iff_lt_or_eq.mp hi with hi | rfl
    · exact hl.start_lt i hi
    · exact hroom.blocks
  firstPage loc hm := by
    rcases addNext_managed hm with hm' | hg
    · rw [addNext_page_old hl hm' hroom]
      exact hl.firstPage loc hm'
    · rw [addNext_page_new hm.toInside hg]
      rfl

theorem addNext_usedExtents (hl : Layout seg) (hroom : RoomForGroup seg) :
    usedExtents (addNext seg) = usedExtents seg := by
  unfold usedExtents mapPages
  rw [show (addNext seg).head.groupCount = seg.head.groupCount + 1 from rfl,
    Finset.sum_product, Finset.sum_product, Finset.sum_range_succ]
  have hnew : (range 64).sum
      (fun j => ((addNext seg).page ⟨seg.head.groupCount, j, 0⟩).usedBits) = 0 := by
    refine Finset.sum_eq_zero fun j hj => ?_
    rw [addNext_page_new ⟨Finset.mem_range.mp hj, Nat.succ_pos 65247⟩ rfl]
    exact setCount_false 65248
  have hold : (range seg.head.groupCount).sum (fun i => (range 64).sum
      (fun j => ((addNext seg).page ⟨i, j, 0⟩).usedBits)) =
      (range seg.head.groupCount).sum (fun i => (range 64).sum
        (fun j => (seg.page ⟨i, j, 0⟩).usedBits)) := by
    refine sum_congr rfl fun i hi => sum_congr rfl fun j hj => ?_
    rw [addNext_page_old hl ⟨⟨Finset.mem_range.mp hj, Nat.succ_pos 65247⟩,
      Finset.mem_range.mp hi⟩ hroom]
  rw [hnew, hold, Nat.add_zero]

theorem addNext_used (hl : Layout seg) (hroom : RoomForGroup seg) :
    Used (addNext seg) loc → Used seg loc := by
  rintro ⟨hm, hset⟩
  rcases addNext_managed hm with hm' | hg
  · rw [addNext_page_old hl hm' hroom] at hset
    exact ⟨hm', hset⟩
  · rw [addNext_page_new hm.toInside hg] at hset
    cases hset

theorem Inv.addNext (hi : Inv seg) (hroom : RoomForGroup seg)
    (hfirst : seg.head.groupCount = 0 → seg.head.freeGroup = 0) : Inv (addNext seg) := by
  have hl := hi.toLayout
  have hgroup : seg.head.freeGroup ≤ seg.head.groupCount := by
    by_cases hne : seg.head.groupCount = 0
    · rw [hfirst hne]
      exact Nat.zero_le _
    · exact Nat.le_of_lt (hi.freeGroup_lt hne)
  have hfree : ∀ loc, Free (Segment.addNext seg) loc → Free seg loc ∨
      loc.mapGroup = seg.head.groupCount ∧ Managed (Segment.addNext seg) loc := by
    rintro loc ⟨hm, hclear⟩
    rcases addNext_managed hm with hm' | hg
    · rw [addNext_page_old hl hm' hroom] at hclear
      exact .inl ⟨hm', hclear⟩
    · exact .inr ⟨hg, hm⟩
  refine { addNext_layout hl hroom with
    freePage_lt := ?_, freeGroup_lt := fun _ => Nat.lt_succ_of_le hgroup, freeBits := ?_,
    freeBegin_le := ?_, freePage_le := ?_, freeGroup_le := ?_,
    allocatedExtents := hi.allocatedExtents.trans (addNext_usedExtents hl hroom).symm,
    inRange := fun loc hu => hi.inRange loc (addNext_used hl hroom hu),
    highWaterMark := fun loc hu => hi.highWaterMark loc (addNext_used hl hroom hu) }
  · intro i hlt
    rcases Nat.lt_succ_iff_lt_or_eq.mp hlt with hlt | rfl
    · rw [addNext_groups_old hlt]
      exact hi.freePage_lt i hlt
    · rw [addNext_groups_new]
      exact Nat.succ_pos 63
  · intro loc hm
    rcases addNext_managed hm with hm' | hg
    · rw [addNext_page_old hl hm' hroom]
      exact hi.freeBits loc hm'
    rw [addNext_page_new hm.toInside hg]
    have hzero := setCount_false 65248
    exact congrArg (65248 + ·) hzero
  · -- the pages of the new group are empty, with hints at their beginning
    intro loc hf
    rcases hfree loc hf with hf' | ⟨hg, hm⟩
    · rw [addNext_page_old hl hf'.1 hroom]
      exact hi.freeBegin_le loc hf'
    · rw [addNext_page_new hm.toInside hg]
      exact Nat.zero_le _
  · intro loc hf
    rcases hfree loc hf with hf' | ⟨hg, hm⟩
    · rw [addNext_groups_old hf'.1.group]
      exact hi.freePage_le loc hf'
    · rw [hg, addNext_groups_new]
      exact Nat.zero_le _
  · intro loc hf
    rcases hfree loc hf with hf' | ⟨hg, hm⟩
    · exact hi.freeGroup_le loc hf'
    · rw [hg]
      exact hgroup

end NewGroup

end OpenGauss.Segment
