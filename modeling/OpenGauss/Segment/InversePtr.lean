import OpenGauss.Segment.ExtentGroupLayout

/-!
# Inverse pointers

The entry of an extent in the inverse pointers is computed from its block number alone, its
bit from the table of map groups. Both cut block numbers to 32 bits, and both are right as
long as the extent lies in front of its group's end as 32-bit numbers say it.
-/

namespace OpenGauss.Segment

variable {size block : Nat} {loc loc' : MapBit} {seg : SegExtentGroup}

/-- `EXTENTS_PER_IPBLOCK` -/
def extentsPerIpblock : Nat := 1021

structure IpBlockLocation where
  ipblock : Nat
  offset : Nat
deriving DecidableEq

def getIpBlock (extent extentSize : Nat) : IpBlockLocation :=
  let extent := (extent + 2 ^ 32 - (dfMapHeadPage + 1)) % 2 ^ 32
  let groupTotalBlocks :=
    (dfMapGroupSize + ipblockGroupSize + dfMapGroupExtents * extentSize) % 2 ^ 32
  let groupId := extent / groupTotalBlocks
  let groupIpStart := (dfMapHeadPage + 1 + groupId * groupTotalBlocks + dfMapGroupSize) % 2 ^ 32
  let groupOffset :=
    (extent % groupTotalBlocks + 2 ^ 32 - (dfMapGroupSize + ipblockGroupSize)) % 2 ^ 32
  let extentId := groupOffset / extentSize
  ⟨(groupIpStart + extentId / extentsPerIpblock) % 2 ^ 32, extentId % extentsPerIpblock⟩

def extentSizes : List Nat := [1, 8, 128, 1024, 8192]

def ipEntry (size : Nat) (loc : MapBit) : IpBlockLocation :=
  ⟨groupStart size loc.mapGroup + dfMapGroupSize + loc.index / extentsPerIpblock,
    loc.index % extentsPerIpblock⟩

theorem getIpBlock_eq (hsize : size ∈ extentSizes) (hin : loc.Inside) (hr : InRange size loc)
    (hle : extentStart size loc ≤ block) (hlt : block < extentStart size loc + size) :
    getIpBlock block size = ipEntry size loc := by
  have hidx := hin.index_lt
  have hpos : 0 < size := Nat.pos_of_ne_zero fun h => absurd hsize (by rw [h]; decide)
  obtain ⟨j, rfl⟩ := Nat.exists_eq_add_of_le hle
  have hend := hr.lt
  unfold ipEntry
  unfold InRange extentStart at *
  generalize loc.index = k, loc.mapGroup = g at *
  -- the blocks of a group, cut to 32 bits, are as many as the extent's place needs
  obtain ⟨total, htotal, hspan, hplace⟩ : ∃ total,
      (dfMapGroupSize + ipblockGroupSize + dfMapGroupExtents * size) % 2 ^ 32 = total ∧
      g * groupSpan size = g * total ∧ 4154 + k * size + j < total := by
    unfold groupStart groupSpan at *
    simp only [extentSizes, List.mem_cons, List.not_mem_nil, or_false] at hsize
    rcases hsize with rfl | rfl | rfl | rfl | rfl <;> refine ⟨_, rfl, ?_, ?_⟩ <;> simp <;> omega
  have hstart : groupStart size g = 3 + g * total := by rw [groupStart, hspan]
  rw [hstart] at hend ⊢
  have hextent : (3 + g * total + 4154 + k * size + j + 2 ^ 32 - (dfMapHeadPage + 1)) % 2 ^ 32 =
      g * total + (4154 + k * size + j) := by
    simp only [dfMapHeadPage]
    omega
  have hdiv : (g * total + (4154 + k * size + j)) / total = g := by
    rw [Nat.add_comm, Nat.add_mul_div_right _ _ (by omega), Nat.div_eq_of_lt hplace, Nat.zero_add]
  have hoffset : (4154 + k * size + j + 2 ^ 32 - (dfMapGroupSize + ipblockGroupSize)) % 2 ^ 32 =
      j + k * size := by
    simp only [dfMapGroupSize, ipblockGroupSize]
    omega
  have hid : (j + k * size) / size = k := by
    rw [Nat.add_mul_div_right _ _ hpos, Nat.div_eq_of_lt (by omega), Nat.zero_add]
  have hblock : ((dfMapHeadPage + 1 + g * total + dfMapGroupSize) % 2 ^ 32 +
      k / extentsPerIpblock) % 2 ^ 32 = 3 + g * total + dfMapGroupSize + k / extentsPerIpblock := by
    simp only [dfMapHeadPage, dfMapGroupSize, extentsPerIpblock]
    omega
  unfold getIpBlock
  dsimp only
  rw [hextent, htotal, hdiv, Nat.mul_add_mod_self_right, Nat.mod_eq_of_lt hplace, hoffset, hid,
    hblock]

theorem ipEntry_bounds (size : Nat) (hin : loc.Inside) :
    groupStart size loc.mapGroup + dfMapGroupSize ≤ (ipEntry size loc).ipblock ∧
      (ipEntry size loc).ipblock <
        groupStart size loc.mapGroup + dfMapGroupSize + ipblockGroupSize := by
  have hidx := hin.index_lt
  simp only [ipEntry, ipblockGroupSize, extentsPerIpblock]
  omega

theorem ipEntry_inj (size : Nat) (hin : loc.Inside) (hin' : loc'.Inside)
    (h : ipEntry size loc = ipEntry size loc') : loc = loc' := by
  have hb := ipEntry_bounds size hin
  have hb' := ipEntry_bounds size hin'
  have hnot : ∀ {g g' : Nat}, g < g' → groupStart size g + 4154 ≤ groupStart size g' := by
    intro g g' hlt
    have hle := groupStart_succ_le size hlt
    rw [groupStart_succ] at hle
    exact (Nat.add_le_add_left (Nat.le_add_right _ _) _).trans hle
  simp only [h, dfMapGroupSize, ipblockGroupSize] at hb hb'
  have hgroup : loc.mapGroup = loc'.mapGroup := by
    rcases lt_trichotomy loc.mapGroup loc'.mapGroup with hlt | heq | hlt
    · have := hnot hlt
      omega
    · exact heq
    · have := hnot hlt
      omega
  obtain ⟨hblock, hoffset⟩ := IpBlockLocation.mk.inj h
  rw [hgroup] at hblock
  apply hin.ext_index hin' hgroup
  simp only [extentsPerIpblock] at hblock hoffset
  omega

/-- A bit whose extent begins in front of its group's end has all of it there. -/
theorem inRange_of_lt (hsize : size ∈ extentSizes) (hlt : extentStart size loc <
      (groupStart size loc.mapGroup + 4154 + 4175872 * size) % 2 ^ 32) : InRange size loc := by
  unfold InRange extentStart groupStart groupSpan at *
  generalize loc.index = k, loc.mapGroup = g at *
  simp only [extentSizes, List.mem_cons, List.not_mem_nil, or_false] at hsize
  rcases hsize with rfl | rfl | rfl | rfl | rfl <;> omega

/-- The answer when no group is found. -/
def defaultBit (seg : SegExtentGroup) : MapBit := ⟨seg.head.groupCount - 1, 0, 0⟩

/-- No other group than the last is found from the first extent of the last. -/
theorem locate_defaultBit (hl : Layout seg) (hsize : seg.extentSize ∈ extentSizes)
    (hr : ¬InRange seg.extentSize (defaultBit seg)) :
    (egLocateMapByPageid seg (extentStart seg.extentSize (defaultBit seg))).toMapBit =
      defaultBit seg := by
  have hnone : findGroup seg (extentStart seg.extentSize (defaultBit seg)) = none := by
    refine List.find?_eq_none.mpr fun i hi htest => hr ?_
    have hlt := List.mem_range.mp hi
    rw [hl.pageEnd_eq hlt] at htest
    simp only [Bool.and_eq_true, decide_eq_true_eq] at htest
    rcases Nat.lt_or_eq_of_le (Nat.le_sub_one_of_lt hlt) with hfront | rfl
    · -- The end of a group in front, cut to 32 bits or not, is not behind the start of the last.
      have hle := groupStart_succ_le seg.extentSize hfront
      have hmod := Nat.mod_le (groupStart seg.extentSize i + 4154 + 4175872 * seg.extentSize) (2 ^ 32)
      rw [groupStart_succ, groupSpan] at hle
      unfold extentStart defaultBit MapBit.index at htest
      dsimp only at htest
      omega
    · exact inRange_of_lt hsize htest.2
  unfold egLocateMapByPageid
  rw [hnone]
  rfl

/-- The bit of an extent is found exactly if the extent is in range or is the answer when no group
is found. Any block of an extent in range leads to its entry, in the inverse pointers of its group,
and no other extent in range has the same. -/
theorem inversePtr_iff (hl : Layout seg) (hsize : seg.extentSize ∈ extentSizes)
    (hm : Managed seg loc) :
    ((egLocateMapByPageid seg (extentStart seg.extentSize loc)).toMapBit = loc ↔
      InRange seg.extentSize loc ∨ loc = defaultBit seg) ∧
    (InRange seg.extentSize loc → ∀ block, extentStart seg.extentSize loc ≤ block →
      block < extentStart seg.extentSize loc + seg.extentSize →
      groupStart seg.extentSize loc.mapGroup + dfMapGroupSize ≤
          (getIpBlock block seg.extentSize).ipblock ∧
        (getIpBlock block seg.extentSize).ipblock <
          groupStart seg.extentSize loc.mapGroup + dfMapGroupSize + ipblockGroupSize ∧
        ∀ loc', Managed seg loc' → InRange seg.extentSize loc' →
          getIpBlock (extentStart seg.extentSize loc') seg.extentSize =
            getIpBlock block seg.extentSize → loc = loc') := by
  refine ⟨⟨fun hfound => ?_, fun h => ?_⟩, fun hr block hle hlt => ?_⟩
  · unfold egLocateMapByPageid at hfound
    split at hfound
    · rename_i i hfind
      have hi : i = loc.mapGroup := congrArg MapBit.mapGroup hfound
      have htest := List.find?_some hfind
      rw [hi, hl.pageEnd_eq hm.group] at htest
      simp only [Bool.and_eq_true, decide_eq_true_eq] at htest
      exact .inl (inRange_of_lt hsize htest.2)
    · exact .inr hfound.symm
  · by_cases hr : InRange seg.extentSize loc
    · rw [hl.locate hm hr]
    · obtain rfl := h.resolve_left hr
      exact locate_defaultBit hl hsize hr
  · have hbounds := ipEntry_bounds seg.extentSize hm.toInside
    rw [getIpBlock_eq hsize hm.toInside hr hle hlt]
    refine ⟨hbounds.1, hbounds.2, fun loc' hm' hr' hsame => ?_⟩
    rw [getIpBlock_eq hsize hm'.toInside hr' le_rfl (Nat.lt_add_of_pos_right hl.size_pos)] at hsame
    exact ipEntry_inj _ hm.toInside hm'.toInside hsame.symm

/-- One map group of extents of 8192 blocks. -/
def oneGroup : SegExtentGroup where
  extentSize := 8192
  head := ⟨1, 0, 0, 0, fun _ => ⟨3, 0, 64⟩⟩
  pages := fun p => egInitBitmapPageContent ((4157 + (p - 3) * (dfMapBitCnt * 8192)) % 2 ^ 32)
  totalBlocks := 0

theorem oneGroup_layout : Layout oneGroup where
  size_pos := by decide
  firstMap := by decide
  pageCount := by decide
  start_lt := by decide
  firstPage := by
    intro loc hm
    have hgroup : loc.mapGroup = 0 := Nat.lt_one_iff.mp hm.group
    show (4157 + (3 + loc.mapId - 3) * _) % 2 ^ 32 = _
    rw [Nat.add_sub_cancel_left, hgroup]
    rfl

theorem inversePtr_iff_second : InRange 8192 ⟨0, 0, 1⟩ ∧
    (egLocateMapByPageid oneGroup (extentStart 8192 ⟨0, 0, 1⟩)).toMapBit = ⟨0, 0, 1⟩ :=
  have hr : InRange 8192 ⟨0, 0, 1⟩ := by
    unfold InRange
    decide
  ⟨hr, (inversePtr_iff oneGroup_layout (by decide) ⟨⟨by decide, by decide⟩, by decide⟩).1.mpr
    (.inl hr)⟩

/-- Bit 53264 of map page 7 is not found from its block, and the inverse pointer of that block
goes into the data. -/
theorem inversePtr_beyond_pageEnd : extentStart 8192 ⟨0, 7, 53264⟩ = 4177924157 ∧
      (egLocateMapByPageid oneGroup 4177924157).toMapBit = ⟨0, 0, 0⟩ ∧
      getIpBlock 4177924157 8192 = ⟨4143976577, 59⟩ := by
  decide

end OpenGauss.Segment
