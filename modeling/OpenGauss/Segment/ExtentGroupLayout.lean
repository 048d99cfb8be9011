import OpenGauss.Segment.ExtentGroup
import OpenGauss.Lib.FirstFree
import Mathlib.Data.Finset.Prod
import Mathlib.Algebra.BigOperators.Group.Finset.Sigma

/-!
# Layout and invariant of an extent group

Where the groups and extents lie when block numbers do not run out, and what holds of an
extent group between two steps of its sessions.
-/

namespace OpenGauss.Segment

open Lib

variable {loc : MapBit} {i : Nat} {seg : SegExtentGroup}

/-! ## Positions -/

def groupSpan (size : Nat) : Nat := 4154 + 4175872 * size

def groupStart (size i : Nat) : Nat := 3 + i * groupSpan size

def MapBit.index (loc : MapBit) : Nat := loc.mapId * 65248 + loc.bitId

def extentStart (size : Nat) (loc : MapBit) : Nat :=
  groupStart size loc.mapGroup + 4154 + loc.index * size

/-- The map page has the bit. -/
structure MapBit.Inside (loc : MapBit) : Prop where
  mapId : loc.mapId < 64
  bitId : loc.bitId < 65248

/-- The extent ends where 32-bit block numbers still say that it is in its group. -/
def InRange (size : Nat) (loc : MapBit) : Prop :=
  extentStart size loc + size ≤ (groupStart size loc.mapGroup + 4154 + 4175872 * size) % 2 ^ 32

theorem groupStart_succ (size i : Nat) :
    groupStart size (i + 1) = groupStart size i + groupSpan size := by
  unfold groupStart
  rw [Nat.add_mul, Nat.one_mul, Nat.add_assoc]

theorem groupStart_mono (size : Nat) {j : Nat} (h : i ≤ j) :
    groupStart size i ≤ groupStart size j :=
  Nat.add_le_add_left (Nat.mul_le_mul_right _ h) _

theorem groupStart_succ_le (size : Nat) {j : Nat} (h : i < j) :
    groupStart size (i + 1) ≤ groupStart size j := groupStart_mono size h

theorem MapBit.Inside.index_lt (h : loc.Inside) : loc.index < 4175872 := by
  have h1 := h.mapId
  have h2 := h.bitId
  unfold MapBit.index
  omega

theorem MapBit.Inside.ext_index {loc' : MapBit} (h : loc.Inside) (h' : loc'.Inside)
    (hg : loc.mapGroup = loc'.mapGroup) (hi : loc.index = loc'.index) : loc = loc' := by
  obtain ⟨g, j, b⟩ := loc
  obtain ⟨g', j', b'⟩ := loc'
  have h1 := h.bitId
  have h2 := h'.bitId
  simp only [MapBit.index] at hi h1 h2 hg
  have hj : j = j' := by omega
  have hb : b = b' := by omega
  rw [hg, hj, hb]

/-- An extent lies behind the blocks of its group's maps and before the next group. -/
theorem extentStart_bounds (size : Nat) (h : loc.Inside) :
    groupStart size loc.mapGroup + 4154 ≤ extentStart size loc ∧
      extentStart size loc + size ≤ groupStart size (loc.mapGroup + 1) := by
  have hend : (loc.index + 1) * size ≤ 4175872 * size := Nat.mul_le_mul_right _ h.index_lt
  rw [Nat.add_mul, Nat.one_mul] at hend
  rw [groupStart_succ]
  unfold extentStart groupSpan
  omega

/-- Two ranges of blocks without a common block. -/
def Apart (start len start' len' : Nat) : Prop := start + len ≤ start' ∨ start' + len' ≤ start

theorem extents_apart (size : Nat) {loc' : MapBit} (h : loc.Inside) (h' : loc'.Inside)
    (hne : loc ≠ loc') : Apart (extentStart size loc) size (extentStart size loc') size := by
  have hb := extentStart_bounds size h
  have hb' := extentStart_bounds size h'
  rcases lt_trichotomy loc.mapGroup loc'.mapGroup with hg | hg | hg
  · have hle := groupStart_succ_le size hg
    exact .inl (by omega)
  · -- in one group the bits have different numbers
    rcases Nat.lt_or_gt_of_ne fun hi => hne (h.ext_index h' hg hi) with hi | hi
    · have hmul : (loc.index + 1) * size ≤ loc'.index * size := Nat.mul_le_mul_right _ hi
      rw [Nat.add_mul, Nat.one_mul] at hmul
      refine .inl ?_
      unfold extentStart
      rw [hg]
      omega
    · have hmul : (loc'.index + 1) * size ≤ loc.index * size := Nat.mul_le_mul_right _ hi
      rw [Nat.add_mul, Nat.one_mul] at hmul
      refine .inr ?_
      unfold extentStart
      rw [hg]
      omega
  · have hle := groupStart_succ_le size hg
    exact .inr (by omega)

/-- No extent has a block of the map pages or inverse pointers of any group. -/
theorem extent_apart_maps (size : Nat) (h : loc.Inside) (i : Nat) :
    Apart (extentStart size loc) size (groupStart size i) 4154 := by
  have hb := extentStart_bounds size h
  rcases lt_or_ge loc.mapGroup i with hi | hi
  · have hle := groupStart_succ_le size hi
    exact .inl (by omega)
  · have hle := groupStart_mono size hi
    exact .inr (by omega)

/-- The block of a map page determines the page. -/
theorem mapBlock_inj {size j i' j' : Nat} (hj : j < 64) (hj' : j' < 64)
    (h : groupStart size i + j = groupStart size i' + j') : i = i' ∧ j = j' := by
  have hne : ∀ {a b c d : Nat}, c < 64 → groupStart size a + c = groupStart size b + d → ¬ a < b := by
    intro a b c d hc heq hlt
    have hle := groupStart_succ_le size hlt
    have hspan : 4154 ≤ groupSpan size := Nat.le_add_right _ _
    rw [groupStart_succ] at hle
    omega
  have hi : i = i' := Nat.le_antisymm (not_lt.mp (hne hj' h.symm)) (not_lt.mp (hne hj h))
  subst hi
  exact ⟨rfl, by omega⟩

/-! ## Invariant -/

structure Managed (seg : SegExtentGroup) (loc : MapBit) : Prop extends loc.Inside where
  group : loc.mapGroup < seg.head.groupCount

def Used (seg : SegExtentGroup) (loc : MapBit) : Prop :=
  Managed seg loc ∧ (seg.page loc).bitmap loc.bitId = true

def Free (seg : SegExtentGroup) (loc : MapBit) : Prop :=
  Managed seg loc ∧ (seg.page loc).bitmap loc.bitId = false

def MapPage.usedBits (p : MapPage) : Nat := setCount p.bitmap 65248

/-- Map pages by group and position in the group. -/
def mapPages (seg : SegExtentGroup) : Finset (Nat × Nat) :=
  Finset.range seg.head.groupCount ×ˢ Finset.range 64

def usedExtents (seg : SegExtentGroup) : Nat :=
  (mapPages seg).sum fun x => (seg.page ⟨x.1, x.2, 0⟩).usedBits

/-- Where the groups and their map pages are. -/
structure Layout (seg : SegExtentGroup) : Prop where
  size_pos : 0 < seg.extentSize
  firstMap : ∀ i < seg.head.groupCount, (seg.head.groups i).firstMap = groupStart seg.extentSize i
  pageCount : ∀ i < seg.head.groupCount, (seg.head.groups i).pageCount = 64
  start_lt : ∀ i < seg.head.groupCount, groupStart seg.extentSize i + 4154 < 2 ^ 32
  firstPage : ∀ loc, Managed seg loc → (seg.page loc).firstPage =
    (groupStart seg.extentSize loc.mapGroup + 4154 + loc.mapId * (65248 * seg.extentSize)) % 2 ^ 32

structure Inv (seg : SegExtentGroup) : Prop extends Layout seg where
  freePage_lt : ∀ i < seg.head.groupCount, (seg.head.groups i).freePage < 64
  freeGroup_lt : seg.head.groupCount ≠ 0 → seg.head.freeGroup < seg.head.groupCount
  freeBits : ∀ loc, Managed seg loc → (seg.page loc).freeBits + (seg.page loc).usedBits = 65248
  freeBegin_le : ∀ loc, Free seg loc → (seg.page loc).freeBegin ≤ loc.bitId
  freePage_le : ∀ loc, Free seg loc → (seg.head.groups loc.mapGroup).freePage ≤ loc.mapId
  freeGroup_le : ∀ loc, Free seg loc → seg.head.freeGroup ≤ loc.mapGroup
  allocatedExtents : seg.head.allocatedExtents = usedExtents seg
  inRange : ∀ loc, Used seg loc → InRange seg.extentSize loc
  highWaterMark : ∀ loc, Used seg loc →
    extentStart seg.extentSize loc + seg.extentSize ≤ seg.head.highWaterMark

theorem InRange.lt {size : Nat} (h : InRange size loc) : extentStart size loc + size < 2 ^ 32 :=
  Nat.lt_of_le_of_lt h (Nat.mod_lt _ (by decide))

/-- Which block a bit stands for, as the code computes it. -/
theorem Layout.pagenum (hl : Layout seg) (hm : Managed seg loc) (hr : InRange seg.extentSize loc) :
    ((seg.page loc).firstPage + loc.bitId * seg.extentSize) % 2 ^ 32 =
      extentStart seg.extentSize loc := by
  have hlt := hr.lt
  have hsum : groupStart seg.extentSize loc.mapGroup + 4154 +
      loc.mapId * (65248 * seg.extentSize) + loc.bitId * seg.extentSize =
      extentStart seg.extentSize loc := by
    unfold extentStart MapBit.index
    rw [Nat.add_mul, Nat.mul_assoc, Nat.add_assoc]
  rw [hl.firstPage loc hm, Nat.mod_add_mod, hsum, Nat.mod_eq_of_lt (by omega)]

/-! ## Finding a block's bit -/

theorem Layout.pageStart_eq (hl : Layout seg) (hi : i < seg.head.groupCount) :
    pageStart (seg.head.groups i) = groupStart seg.extentSize i + 4154 := by
  have hlt := hl.start_lt i hi
  unfold pageStart
  rw [hl.firstMap i hi, dfMapGroupSize, ipblockGroupSize, Nat.add_assoc, Nat.mod_eq_of_lt hlt]

theorem Layout.pageEnd_eq (hl : Layout seg) (hi : i < seg.head.groupCount) :
    pageEnd seg.extentSize (seg.head.groups i) =
      (groupStart seg.extentSize i + 4154 + 4175872 * seg.extentSize) % 2 ^ 32 := by
  unfold pageEnd
  rw [hl.pageStart_eq hi]

/-- The group of an extent is the first whose range contains the extent's block. -/
theorem Layout.findGroup (hl : Layout seg) (hm : Managed seg loc) (hr : InRange seg.extentSize loc) :
    findGroup seg (extentStart seg.extentSize loc) = some loc.mapGroup := by
  have hb := extentStart_bounds seg.extentSize hm.toInside
  have hpos := hl.size_pos
  unfold Segment.findGroup
  rw [List.find?_range_eq_some]
  refine ⟨?_, List.mem_range.mpr hm.group, fun i hi => ?_⟩
  · rw [hl.pageStart_eq hm.group, hl.pageEnd_eq hm.group]
    unfold InRange at hr
    simp only [Bool.and_eq_true, decide_eq_true_eq]
    omega
  · -- the range of an earlier group ends before the extent, cut to 32 bits or not
    have hic : i < seg.head.groupCount := Nat.lt_trans hi hm.group
    have hle := groupStart_succ_le seg.extentSize hi
    rw [groupStart_succ] at hle
    unfold groupSpan at hle
    have hmod := Nat.mod_le (groupStart seg.extentSize i + 4154 + 4175872 * seg.extentSize) (2 ^ 32)
    have hnot : ¬ extentStart seg.extentSize loc < pageEnd seg.extentSize (seg.head.groups i) := by
      rw [hl.pageEnd_eq hic]
      omega
    simp [hnot]

theorem Layout.locate (hl : Layout seg) (hm : Managed seg loc) (hr : InRange seg.extentSize loc) :
    egLocateMapByPageid seg (extentStart seg.extentSize loc) =
      ⟨loc, seg.head.groups loc.mapGroup⟩ := by
  have hoff : extentStart seg.extentSize loc - (groupStart seg.extentSize loc.mapGroup + 4154) =
      loc.index * seg.extentSize := Nat.add_sub_cancel_left ..
  have hbit := hm.bitId
  have hdiv : loc.index / 65248 = loc.mapId := by unfold MapBit.index; omega
  have hmod : loc.index % 65248 = loc.bitId := by unfold MapBit.index; omega
  unfold egLocateMapByPageid
  simp only [hl.findGroup hm hr, hl.pageStart_eq hm.group, hoff,
    Nat.mul_div_cancel _ hl.size_pos, dfMapBitCnt, hdiv, hmod]

theorem Layout.mapLocation_valid (hl : Layout seg) (hm : Managed seg loc) :
    mapLocationIsInvalid ⟨loc, seg.head.groups loc.mapGroup⟩ = false := by
  unfold mapLocationIsInvalid
  simp only [hl.firstMap _ hm.group, beq_eq_false_iff_ne, groupStart]
  omega

end OpenGauss.Segment
