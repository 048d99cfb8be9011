import OpenGauss.Segment.Addressing

/-!
# Addressing is injective and complete

Both look-up functions are the inverse of counting the blocks of the extents before.
The physical side rests on where the allocator places extents. The group size is
computed in 32 bits, which is too small for groups of extents of 8192 blocks: CFS
extents behind the wrapped size are not recovered.
-/

namespace OpenGauss.Segment

variable (compress : Bool) {logic n offset start : Nat} {sup : Supply}

/-! ## Logical side -/

def logicStart (extentId : Nat) : Nat :=
  if compress then extentIdToLogicBlocknumInCfs extentId else extentIdToLogicBlockNum extentId

def logicSize (extentId : Nat) : Nat :=
  if compress then cfsExtentSizeByCount extentId else extentSizeByCount extentId

/-- Extents whose first logical block does not wrap. -/
def lastExtent : Nat := if compress then 528655 else 524526

theorem logicStart_plain (id : Nat) : logicStart false id = extentIdToLogicBlockNum id :=
  if_neg Bool.false_ne_true

theorem logicStart_compress (id : Nat) : logicStart true id = extentIdToLogicBlocknumInCfs id :=
  if_pos rfl

theorem logicSize_plain (id : Nat) : logicSize false id = extentSizeByCount id :=
  if_neg Bool.false_ne_true

theorem logicSize_compress (id : Nat) : logicSize true id = cfsExtentSizeByCount id := if_pos rfl

theorem segLogicPageIdToExtentId_eq (logic : Nat) : segLogicPageIdToExtentId logic =
    if logic < 128 then ⟨logic / 8, logic % 8, 8⟩
    else if logic < 16384 then ⟨16 + (logic - 128) / 128, (logic - 128) % 128, 128⟩
    else if logic < 131072 then ⟨143 + (logic - 16384) / 1024, (logic - 16384) % 1024, 1024⟩
    else ⟨255 + (logic - 131072) / 8192, (logic - 131072) % 8192, 8192⟩ := rfl

theorem segGetExtentIdByLogicBlknoInCfs_eq (logic : Nat) : segGetExtentIdByLogicBlknoInCfs logic =
    if logic < 128 then ⟨logic / 8, logic % 8, 8⟩
    else if logic < 16257 then ⟨16 + (logic - 128) / 127, (logic - 128) % 127, 128⟩
    else if logic < 130049 then ⟨143 + (logic - 16257) / 1016, (logic - 16257) % 1016, 1024⟩
    else ⟨255 + (logic - 130049) / 8128, (logic - 130049) % 8128, 8192⟩ := rfl

theorem segPhysicalToLogicBlkno_cases (p : Nat) : segPhysicalToLogicBlkno p =
    if p < 128 then p else (128 + (p - 128) / 128 * 127 + (p - 128) % 128) % 2 ^ 32 := rfl

theorem segExtentPos_compress (logic : Nat) :
    segExtentPos true logic = segGetExtentIdByLogicBlknoInCfs logic := by
  unfold segExtentPos
  split
  · rfl
  · -- in the extents of 8 blocks nothing is compressed
    rename_i h
    have hlt : logic < cfsExtSize8TotalPages := by simpa using h
    rw [segLogicPageIdToExtentId, segGetExtentIdByLogicBlknoInCfs, if_pos hlt, if_pos hlt]

theorem segExtentPos_plain (logic : Nat) :
    segExtentPos false logic = segLogicPageIdToExtentId logic := by
  simp [segExtentPos]

theorem segExtentPos_spec (h : logic < 2 ^ 32) :
    ∃ id offset, segExtentPos compress logic = ⟨id, offset, extentSizeByCount id⟩ ∧
      logicStart compress id + offset = logic ∧ offset < logicSize compress id ∧
      id ≤ lastExtent compress := by
  -- the numbers found are right for the extent found
  have hpos : ∀ {pos}, segExtentPos compress logic = pos →
      pos.extentSize = extentSizeByCount pos.extentId ∧
        logicStart compress pos.extentId + pos.offset = logic ∧
        pos.offset < logicSize compress pos.extentId ∧ pos.extentId ≤ lastExtent compress := by
    intro pos hpos
    have := extent_ranges pos.extentId
    cases compress with
    | false =>
      show _ ∧ _ ∧ _ ∧ _ ≤ 524526
      rw [segExtentPos_plain, segLogicPageIdToExtentId_eq] at hpos
      rw [logicStart_plain, logicSize_plain]
      subst hpos
      split_ifs at this ⊢ <;> dsimp only at this ⊢ <;> omega
    | true =>
      show _ ∧ _ ∧ _ ∧ _ ≤ 528655
      rw [segExtentPos_compress, segGetExtentIdByLogicBlknoInCfs_eq] at hpos
      rw [logicStart_compress, logicSize_compress]
      subst hpos
      split_ifs at this ⊢ <;> dsimp only at this ⊢ <;> omega
  exact ⟨_, _, congrArg (ExtentPos.mk _ _) (hpos rfl).1, (hpos rfl).2⟩

theorem logicStart_succ (h : n < lastExtent compress) :
    logicStart compress (n + 1) = logicStart compress n + logicSize compress n := by
  cases compress with
  | false =>
    simp only [logicStart_plain, logicSize_plain]
    exact extentIdToLogicBlockNum_succ h
  | true =>
    have hn : n < 528655 := h
    have := extent_ranges n
    have := extent_ranges (n + 1)
    simp only [logicStart_compress, logicSize_compress]
    omega

theorem maxExtents_le : maxExtents ≤ lastExtent compress := by
  cases compress <;> decide

theorem logicStart_mono : ∀ {m : Nat}, n ≤ m →
    m ≤ lastExtent compress → logicStart compress n ≤ logicStart compress m := by
  intro m
  induction m with
  | zero => exact fun hnm _ => Nat.le_zero.mp hnm ▸ le_rfl
  | succ m ih =>
    intro hnm hm
    rcases hnm.lt_or_eq with hlt | rfl
    · rw [logicStart_succ compress hm]
      exact (ih (Nat.le_of_lt_succ hlt) (Nat.le_of_lt hm)).trans (Nat.le_add_right _ _)
    · exact le_rfl

theorem logicStart_add_le {m : Nat} (h : n < m) (hm : m ≤ lastExtent compress) :
    logicStart compress n + logicSize compress n ≤ logicStart compress m := by
  rw [← logicStart_succ compress (h.trans_le hm)]
  exact logicStart_mono compress h hm

theorem logicStart_lt (h : n ≤ maxExtents) : logicStart compress n < 2 ^ 32 := by
  cases compress with
  | false =>
    rw [logicStart_plain]
    exact extentIdToLogicBlockNum_lt h
  | true =>
    have hn : n ≤ 513255 := h
    have := extent_ranges n
    rw [logicStart_compress]
    omega

/-- The blocks of the first `n` extents are those before the start of extent `n`. -/
theorem segExtentPos_lt_iff (h : logic < 2 ^ 32) (hn : n ≤ maxExtents) :
    (segExtentPos compress logic).extentId < n ↔ logic < logicStart compress n := by
  obtain ⟨id, offset, hpos, hstart, hoff, hlast⟩ := segExtentPos_spec compress h
  rw [hpos]
  have hmax := maxExtents_le compress
  constructor
  · intro (hlt : id < n)
    have hnext := logicStart_add_le compress hlt (hn.trans hmax)
    omega
  · intro hlt
    by_contra hge
    have := logicStart_mono compress (not_lt.mp hge) hlast
    dsimp only at this
    omega

/-- What the loop computes from `total_blocks` is the start of the next extent. -/
theorem segPhysicalToLogicBlkno_eq (h : n ≤ maxExtents) :
    segPhysicalToLogicBlkno (extentIdToLogicBlockNum n) = extentIdToLogicBlocknumInCfs n := by
  have hn : n ≤ 513255 := h
  have := extent_ranges n
  rw [segPhysicalToLogicBlkno_cases]
  split <;> omega

/-! ## Physical side -/

theorem extentSizeByCount_cases (n : Nat) : extentSizeByCount n = 8 ∨ extentSizeByCount n = 128 ∨
    extentSizeByCount n = 1024 ∨ extentSizeByCount n = 8192 := by
  have := extent_ranges n
  omega

theorem Placed.apart {start' : Nat} (h : Placed (extentSizeByCount n) start)
    (h' : Placed (extentSizeByCount n) start') (hne : start ≠ start') :
    start + extentSizeByCount n ≤ start' ∨ start' + extentSizeByCount n ≤ start := by
  obtain ⟨g, k, hk, hs, -⟩ := h
  obtain ⟨g', k', hk', hs', -⟩ := h'
  simp only [dfMapHeadPage, dfMapGroupSize, ipblockGroupSize, dfMapGroupExtents] at hk hk' hs hs'
  -- in different groups, or at different positions of one group
  rcases lt_trichotomy g g' with hg | rfl | hg
  · obtain ⟨t, rfl⟩ := Nat.exists_eq_add_of_lt hg
    rcases extentSizeByCount_cases n with he | he | he | he <;> rw [he] at hs hs' ⊢ <;> omega
  · rcases extentSizeByCount_cases n with he | he | he | he <;> rw [he] at hs hs' ⊢ <;> omega
  · obtain ⟨t, rfl⟩ := Nat.exists_eq_add_of_lt hg
    rcases extentSizeByCount_cases n with he | he | he | he <;> rw [he] at hs hs' ⊢ <;> omega

/-- The look-up, once the size of the group is known. -/
theorem segGetCfsExtentByPhyBlockNum_eq {size w b : Nat}
    (hw : (dfMapGroupSize + ipblockGroupSize + dfMapGroupExtents * size) % 2 ^ 32 = w)
    (hb : 4157 ≤ b) (hlt : b < 2 ^ 32) : segGetCfsExtentByPhyBlockNum size b =
      (((b - 3) % w + 70) % 128, b - ((b - 3) % w + 70) % 128) := by
  have hfirst : (b + 2 ^ 32 - dfMapHeadPage - 1) % 2 ^ 32 = b - 3 := by
    simp only [dfMapHeadPage]
    omega
  have hdata : ∀ x, (x + 2 ^ 32 - (dfMapGroupSize + ipblockGroupSize)) % 2 ^ 32 % 128 =
      (x + 70) % 128 := by
    intro x
    simp only [dfMapGroupSize, ipblockGroupSize]
    omega
  have hstart : ∀ c, c < 128 → (b + 2 ^ 32 - c) % 2 ^ 32 = b - c := by
    intro c hc
    omega
  simp only [segGetCfsExtentByPhyBlockNum]
  rw [hw, hfirst, hdata, hstart _ (Nat.mod_lt _ (by decide))]

/-- The wrapped size of a group of extents of 8192 blocks, counted from the first block of
the file. -/
def wrappedGroupEnd : Nat := 4143976509

/-- Where the offset in the group is the one the allocator used, the CFS extent is the
right one. -/
theorem cfsExtent_of_offset {size w d k : Nat}
    (hw : (dfMapGroupSize + ipblockGroupSize + dfMapGroupExtents * size) % 2 ^ 32 = w)
    (hlow : 4157 ≤ start + d) (hlt : start + d < 2 ^ 32)
    (hmod : (start + d - 3) % w = 4154 + 128 * k + d) :
    segGetCfsExtentByPhyBlockNum size (start + d) = (d % 128, start + d / 128 * 128) := by
  have hoff : ((start + d - 3) % w + 70) % 128 = d % 128 := by
    rw [hmod]
    omega
  rw [segGetCfsExtentByPhyBlockNum_eq hw hlow hlt, hoff]
  exact Prod.ext rfl (by dsimp only; omega)

/-- A CFS extent is recovered from a block of it unless the block lies behind the wrapped
size of the group. -/
theorem segGetCfsExtentByPhyBlockNum_iff {d : Nat} (hn : 16 ≤ n)
    (h : Placed (extentSizeByCount n) start) (hd : d < extentSizeByCount n) :
    segGetCfsExtentByPhyBlockNum (extentSizeByCount n) (start + d) =
        (d % 128, start + d / 128 * 128) ↔
      (extentSizeByCount n = 8192 → start + d < wrappedGroupEnd) := by
  obtain ⟨g, k, hk, hs, hend⟩ := h
  simp only [dfMapHeadPage, dfMapGroupSize, ipblockGroupSize, dfMapGroupExtents] at hk hs
  have hlow : 4157 ≤ start + d := by omega
  have hlt : start + d < 2 ^ 32 := by omega
  rcases extentSizeByCount_cases n with hsize | hsize | hsize | hsize
  · have := extent_ranges n
    omega
  · rw [hsize] at hs hend hd ⊢
    refine iff_of_true (cfsExtent_of_offset (w := 534515770) (k := k) (by decide) hlow hlt ?_) nofun
    have hgroup : start + d - 3 = 4154 + 128 * k + d + 534515770 * g := by omega
    rw [hgroup, Nat.add_mul_mod_self_left, Nat.mod_eq_of_lt (by omega)]
  · rw [hsize] at hs hend hd ⊢
    refine iff_of_true (cfsExtent_of_offset (w := 4276097082) (k := 8 * k) (by decide) hlow hlt ?_)
      nofun
    have hgroup : start + d - 3 = 4154 + 128 * (8 * k) + d + 4276097082 * g := by omega
    rw [hgroup, Nat.add_mul_mod_self_left, Nat.mod_eq_of_lt (by omega)]
  rw [hsize] at hs hend hd ⊢
  -- there is room for one group only
  have hg : g = 0 := by omega
  subst hg
  have hpos : start + d - 3 = 4154 + 128 * (64 * k) + d := by omega
  have hw : (dfMapGroupSize + ipblockGroupSize + dfMapGroupExtents * 8192) % 2 ^ 32 =
      4143976506 := by decide
  by_cases hwrap : start + d < wrappedGroupEnd
  · refine iff_of_true (cfsExtent_of_offset (k := 64 * k) hw hlow hlt ?_) fun _ => hwrap
    simp only [wrappedGroupEnd] at hwrap
    rw [hpos, Nat.mod_eq_of_lt (by omega)]
  refine iff_of_false (fun heq => ?_) fun h => hwrap (h rfl)
  simp only [wrappedGroupEnd] at hwrap
  have hmod : (start + d - 3) % 4143976506 = start + d - 3 - 4143976506 := by
    rw [Nat.mod_eq_sub_mod (by omega), Nat.mod_eq_of_lt (by omega)]
  rw [segGetCfsExtentByPhyBlockNum_eq hw hlow hlt, hmod] at heq
  have hfst := congrArg Prod.fst heq
  dsimp only at hfst
  omega

/-! ## Segments grown by the loop -/

/-- The segment after its first `n` extents. -/
def grown (sup : Supply) (s : SegState) : Nat → SegState
  | 0 => s
  | n + 1 => (segExtendSegment (grown sup s n) (sup.extent n) (sup.level0Page n)).1

/-- The level-1 slots in use hold the pages they were given. -/
structure GrownInv (sup : Supply) (s : SegState) (n : Nat) : Prop where
  map : MapInv s ((List.range n).map sup.extent)
  pages : ∀ k < level0PageCount n, s.head.slot .level1 k = sup.level0Page (1255 + 2000 * k)

theorem level1Slot_of_new (hnew : requireNewLevel0Page n = true) :
    1255 + 2000 * extentIdToLevel1Slot n = n := by
  obtain ⟨hle, hmod⟩ := requireNewLevel0Page_iff.mp hnew
  simp only [extentIdToLevel1Slot, bmtHeaderLevel0Slots, bmtLevel0Slots]
  omega

theorem requireNew_level1Slot (k : Nat) : requireNewLevel0Page (1255 + 2000 * k) = true :=
  requireNewLevel0Page_iff.mpr ⟨Nat.le_add_right _ _, by omega⟩

namespace GrownInv

variable {sup : Supply} {s : SegState} {n : Nat}

theorem nextents (h : GrownInv sup s n) : s.head.nextents = n := by
  rw [h.map.nextents]
  simp

theorem possible (h : GrownInv sup s n) (hn : n < sup.count) :
    Possible s (.extend (sup.extent n) (sup.level0Page n)) := by
  rw [Possible, h.nextents]
  refine ⟨hn.trans_le sup.count_le, fun hnew k hk => ?_⟩
  rw [h.pages k hk]
  rw [level0PageCount_of_new hnew] at hk
  have hslot := level1Slot_of_new hnew
  exact sup.pages_ne _ _ (by omega) hn (requireNew_level1Slot k) hnew

theorem extend (h : GrownInv sup s n) (hn : n < sup.count) :
    GrownInv sup (segExtendSegment s (sup.extent n) (sup.level0Page n)).1 (n + 1) := by
  have hlive : (List.range (n + 1)).map sup.extent =
      liveAfter ((List.range n).map sup.extent) (.extend (sup.extent n) (sup.level0Page n)) := by
    rw [List.range_succ, List.map_append]
    rfl
  refine ⟨hlive ▸ h.map.step (h.possible hn) trivial, fun k hk => ?_⟩
  have hnext := h.nextents
  simp only [segExtendSegment, hnext]
  split
  · rename_i hdirect
    rw [level0PageCount_direct hdirect] at hk
    exact absurd hk (Nat.not_lt_zero k)
  rename_i hdirect
  have hle := not_lt.mp hdirect
  rw [level0PageCount_succ hle] at hk
  split
  · rename_i hnew
    simp only [segInitNewLevel0Page]
    by_cases hlast : k = extentIdToLevel1Slot n
    · subst hlast
      rw [slot_setSlot_same, level1Slot_of_new hnew]
    · rw [slot_setSlot_other _ (by omega)]
      exact h.pages k (by rw [level0PageCount_of_new hnew]; omega)
  · rename_i hold
    exact h.pages k (by rw [level0PageCount_of_old hle hold]; exact hk)

theorem capacity (h : GrownInv sup s n) (compress : Bool) :
    capacity compress s.head = logicStart compress n := by
  have htotal := h.map.totalBlocks
  have hbound := h.map.bounded
  rw [List.length_map, List.length_range] at htotal hbound
  cases compress with
  | false =>
    rw [logicStart_plain]
    exact htotal
  | true =>
    rw [logicStart_compress, ← segPhysicalToLogicBlkno_eq hbound, ← htotal]
    rfl

theorem location (h : GrownInv sup s n) {id : Nat} (hid : id < n) :
    segExtentLocation s id = sup.extent id := by
  have := h.map.location id (by simpa using hid)
  simpa using this

end GrownInv

theorem grown_inv (sup : Supply) (nblocks : Nat) (words : Nat → Nat) (pages : Nat → Nat → Nat) :
    ∀ {n : Nat}, n ≤ sup.count →
      GrownInv sup (grown sup (emptySegment nblocks words pages) n) n := by
  intro n
  induction n with
  | zero =>
    intro _
    exact ⟨MapInv.empty nblocks words pages, nofun⟩
  | succ n ih =>
    intro hn
    exact (ih (Nat.le_of_succ_le hn)).extend hn

/-- The loop stops with the first segment that has the block. -/
theorem segExtendInternal_grown (sup : Supply) (s : SegState)
    (hinv : ∀ n ≤ sup.count, GrownInv sup (grown sup s n) n) {b : Nat}
    (hb : b < logicStart compress sup.count)
    (fuel n : Nat) (hn : n ≤ sup.count) (hfuel : sup.count ≤ n + fuel) :
      ∃ m, n ≤ m ∧ m ≤ sup.count ∧
        segExtendInternal compress sup b fuel (grown sup s n) = grown sup s m ∧
        b < logicStart compress m ∧ ∀ m', n ≤ m' → m' < m → logicStart compress m' ≤ b := by
  induction fuel generalizing n with
  | zero =>
    obtain rfl : n = sup.count := hn.antisymm hfuel
    exact ⟨sup.count, le_rfl, le_rfl, rfl, hb, fun m' h h' => by omega⟩
  | succ fuel ih =>
    have hgrown := hinv n hn
    rw [segExtendInternal, hgrown.capacity compress, hgrown.nextents]
    split
    · rename_i hsmall
      have hlt : n < sup.count := by
        rcases hn.lt_or_eq with h | rfl
        · exact h
        · omega
      obtain ⟨m, hnm, hm, heq, hcover, hfirst⟩ := ih (n + 1) hlt (by omega)
      refine ⟨m, by omega, hm, heq, hcover, fun m' h h' => ?_⟩
      rcases h.lt_or_eq with hlt' | rfl
      · exact hfirst m' hlt' h'
      · exact hsmall
    · rename_i hcover
      exact ⟨n, le_rfl, hn, rfl, not_le.mp hcover, fun m' h h' => by omega⟩

theorem segExtendAll_grown (sup : Supply) (s : SegState)
    (hinv : ∀ n ≤ sup.count, GrownInv sup (grown sup s n) n) (bs : List Nat)
    (hbs : ∀ b ∈ bs, b < logicStart compress sup.count) (n : Nat) (hn : n ≤ sup.count) :
      ∃ m ≤ sup.count, segExtendAll compress sup bs (grown sup s n) = grown sup s m := by
  induction bs generalizing n with
  | nil => exact ⟨n, hn, rfl⟩
  | cons b bs ih =>
    obtain ⟨m, -, hm, heq, -, -⟩ := segExtendInternal_grown compress sup s hinv
      (hbs b (.head _)) sup.count n hn (by omega)
    obtain ⟨m', hm', heq'⟩ := ih (fun b hb => hbs b (.tail _ hb)) m hm
    refine ⟨m', hm', ?_⟩
    rw [← heq', ← heq]
    rfl

theorem grown_zero (sup : Supply) (s : SegState) : grown sup s 0 = s := rfl

theorem segExtendAll_singleton (sup : Supply) (b : Nat) (s : SegState) :
    segExtendAll compress sup [b] s = segExtendInternal compress sup b sup.count s := rfl

/-! ## Locations -/

/-- The offset of a logical block in its extent on disk. -/
def physicalOffset (logic offset : Nat) : Nat :=
  if !compress || decide (logic < cfsExtSize8TotalPages) then offset
  else offset / 127 * 128 + offset % 127

theorem segCfsLogicToPhysicMapping_eq (logic start offset : Nat) :
    segCfsLogicToPhysicMapping compress logic start offset =
      (start + physicalOffset compress logic offset) % 2 ^ 32 := by
  unfold segCfsLogicToPhysicMapping physicalOffset
  split
  · rfl
  · rw [Nat.add_assoc]

theorem logicStart_sixteen : logicStart compress 16 = 128 := by
  cases compress <;> rfl

variable {compress}

/-- All extents before the sixteenth have 8 blocks, compressed or not. -/
theorem logicSize_of_lt {id : Nat} (h : id < 16) :
    logicSize compress id = extentSizeByCount id := by
  cases compress with
  | false => exact logicSize_plain id
  | true =>
    have := extent_ranges id
    rw [logicSize_compress]
    omega

theorem lt_sixteen_iff {id : Nat} (h : logic < 2 ^ 32)
    (hpos : segExtentPos compress logic = ⟨id, offset, extentSizeByCount id⟩) :
    id < 16 ↔ logic < 128 := by
  have := segExtentPos_lt_iff compress h (show 16 ≤ maxExtents by decide)
  rw [hpos, logicStart_sixteen] at this
  exact this

theorem physicalOffset_lt {id : Nat} (h : logic < 2 ^ 32)
    (hpos : segExtentPos compress logic = ⟨id, offset, extentSizeByCount id⟩)
    (hoff : offset < logicSize compress id) :
    physicalOffset compress logic offset < extentSizeByCount id := by
  have hiff := lt_sixteen_iff h hpos
  unfold physicalOffset
  cases compress with
  | false => exact hoff
  | true =>
    split
    · rename_i hsmall
      have hlt : logic < 128 := by simpa using hsmall
      rw [logicSize_of_lt (hiff.mpr hlt)] at hoff
      exact hoff
    · rename_i hlarge
      have hge : ¬ logic < 128 := by simpa using hlarge
      have := extent_ranges id
      rw [logicSize_compress] at hoff
      omega

theorem physicalOffset_inj {logic' offset' : Nat} (hside : logic < 128 ↔ logic' < 128)
    (h : physicalOffset compress logic offset = physicalOffset compress logic' offset') :
    offset = offset' := by
  unfold physicalOffset at h
  cases compress with
  | false => simpa using h
  | true =>
    by_cases hlt : logic < 128
    · simpa [hlt, hside.mp hlt] using h
    have hlt' : ¬ logic' < 128 := fun h' => hlt (hside.mpr h')
    rw [if_neg (by simpa using hlt), if_neg (by simpa using hlt')] at h
    omega

variable (compress)

/-- Where a logical block of a grown segment is. -/
theorem segLogicToPhysicMapping_spec {s : SegState} (hinv : GrownInv sup s n)
    (hn : n ≤ sup.count) (hlogic : logic < logicStart compress n) :
    ∃ id offset, id < n ∧ segExtentPos compress logic = ⟨id, offset, extentSizeByCount id⟩ ∧
      logicStart compress id + offset = logic ∧
      physicalOffset compress logic offset < extentSizeByCount id ∧
      segLogicToPhysicMapping compress s logic =
        ⟨extentSizeByCount id, id, sup.extent id + physicalOffset compress logic offset⟩ := by
  have hmax : n ≤ maxExtents := hn.trans sup.count_le
  have h32 := hlogic.trans (logicStart_lt compress hmax)
  obtain ⟨id, offset, hpos, hstart, hoff, -⟩ := segExtentPos_spec compress h32
  have hid := (segExtentPos_lt_iff compress h32 hmax).mpr hlogic
  rw [hpos] at hid
  have hid' : id < n := hid
  have hphys := physicalOffset_lt h32 hpos hoff
  refine ⟨id, offset, hid', hpos, hstart, hphys, ?_⟩
  obtain ⟨-, -, -, -, hend⟩ := sup.placed id (hid'.trans_le hn)
  rw [segLogicToPhysicMapping, hpos]
  dsimp only
  rw [segCfsLogicToPhysicMapping_eq, hinv.location hid', Nat.mod_eq_of_lt (by omega)]

theorem segLogicToPhysicMapping_inj {s : SegState} (hinv : GrownInv sup s n)
    (hn : n ≤ sup.count) {logic' : Nat} (hlogic : logic < logicStart compress n)
    (hlogic' : logic' < logicStart compress n)
    (hsize : (segLogicToPhysicMapping compress s logic).extentSize =
      (segLogicToPhysicMapping compress s logic').extentSize)
    (hblock : (segLogicToPhysicMapping compress s logic).blocknum =
      (segLogicToPhysicMapping compress s logic').blocknum) : logic = logic' := by
  have hmax : n ≤ maxExtents := hn.trans sup.count_le
  have h32 := logicStart_lt compress hmax
  obtain ⟨id, offset, hid, hpos, hstart, hlt, hloc⟩ :=
    segLogicToPhysicMapping_spec compress hinv hn hlogic
  obtain ⟨id', offset', hid', hpos', hstart', hlt', hloc'⟩ :=
    segLogicToPhysicMapping_spec compress hinv hn hlogic'
  rw [hloc, hloc'] at hsize hblock
  dsimp only at hsize hblock
  have hcount := hid.trans_le hn
  have hcount' := hid'.trans_le hn
  have hplaced := sup.placed id hcount
  have hplaced' := sup.placed id' hcount'
  rw [← hsize] at hplaced' hlt'
  -- blocks of different extents of one size are apart
  have hsame : id = id' := by
    rcases lt_trichotomy id id' with h | h | h
    · have := hplaced.apart hplaced' (sup.extents_ne id id' h hcount' hsize)
      omega
    · exact h
    · have := hplaced.apart hplaced' (sup.extents_ne id' id h hcount hsize.symm).symm
      omega
  subst hsame
  have hside : logic < 128 ↔ logic' < 128 :=
    (lt_sixteen_iff (hlogic.trans h32) hpos).symm.trans (lt_sixteen_iff (hlogic'.trans h32) hpos')
  have hoff := physicalOffset_inj hside (Nat.add_left_cancel hblock)
  rw [← hstart, ← hstart', hoff]

/-- A segment grown for any blocks: its capacity is the number of blocks the look-up finds
extents for, growing stops at the first extent that covers the block asked for, and the
look-up is injective into the extent files. In a compressed segment the CFS extent is
recovered from the physical block unless that lies behind the wrapped size of a group of
extents of 8192 blocks. -/
theorem segAddressing (compress : Bool) (sup : Supply) (nblocks : Nat) (words : Nat → Nat)
    (pages : Nat → Nat → Nat) (bs : List Nat)
    (hbs : ∀ b ∈ bs, b < logicStart compress sup.count) (s : SegState)
    (hs : s = segExtendAll compress sup bs (emptySegment nblocks words pages)) :
    (∀ logic < 2 ^ 32, logic < capacity compress s.head ↔
      (segExtentPos compress logic).extentId < s.head.nextents) ∧
    (∀ b < logicStart compress sup.count,
      b < capacity compress (segExtendInternal compress sup b sup.count s).head ∧
      ∀ m, s.head.nextents ≤ m →
        m < (segExtendInternal compress sup b sup.count s).head.nextents →
          logicStart compress m ≤ b) ∧
    (∀ logic < capacity compress s.head,
      (segLogicToPhysicMapping compress s logic).extentId = (segExtentPos compress logic).extentId ∧
      (segLogicToPhysicMapping compress s logic).extentSize =
        extentSizeByCount (segExtentPos compress logic).extentId ∧
      segExtentLocation s (segExtentPos compress logic).extentId ≤
        (segLogicToPhysicMapping compress s logic).blocknum ∧
      (segLogicToPhysicMapping compress s logic).blocknum <
        segExtentLocation s (segExtentPos compress logic).extentId +
          extentSizeByCount (segExtentPos compress logic).extentId ∧
      logicStart compress (segExtentPos compress logic).extentId +
        (segExtentPos compress logic).offset = logic) ∧
    (∀ logic < capacity compress s.head, ∀ logic' < capacity compress s.head,
      ((segLogicToPhysicMapping compress s logic).extentSize,
          (segLogicToPhysicMapping compress s logic).blocknum) =
        ((segLogicToPhysicMapping compress s logic').extentSize,
          (segLogicToPhysicMapping compress s logic').blocknum) → logic = logic') ∧
    (compress = true → ∀ logic < capacity compress s.head, 128 ≤ logic →
      ∃ offset, (segExtentPos true logic).offset = offset ∧
        (segLogicToPhysicMapping true s logic).blocknum =
          segExtentLocation s (segExtentPos true logic).extentId + offset / 127 * 128 +
            offset % 127 ∧
        (segGetCfsExtentByPhyBlockNum (segLogicToPhysicMapping true s logic).extentSize
            (segLogicToPhysicMapping true s logic).blocknum =
          (offset % 127, segExtentLocation s (segExtentPos true logic).extentId +
            offset / 127 * 128) ↔
          ((segLogicToPhysicMapping true s logic).extentSize = 8192 →
            (segLogicToPhysicMapping true s logic).blocknum < wrappedGroupEnd))) := by
  have hgrown : ∀ n ≤ sup.count,
      GrownInv sup (grown sup (emptySegment nblocks words pages) n) n := fun n hn =>
    grown_inv sup nblocks words pages hn
  obtain ⟨n, hn, heq⟩ := segExtendAll_grown compress sup _ hgrown bs hbs 0 (Nat.zero_le _)
  obtain rfl : s = grown sup (emptySegment nblocks words pages) n := hs.trans heq
  have hinv := hgrown n hn
  have hmax : n ≤ maxExtents := hn.trans sup.count_le
  rw [hinv.capacity compress, hinv.nextents]
  refine ⟨fun logic h => (segExtentPos_lt_iff compress h hmax).symm, fun b hb => ?_,
    fun logic hlogic => ?_, fun logic hlogic logic' hlogic' h => ?_, ?_⟩
  · obtain ⟨m, -, hm, hext, hcover, hfirst⟩ :=
      segExtendInternal_grown compress sup _ hgrown hb sup.count n hn (by omega)
    rw [hext, (hgrown m hm).capacity compress, (hgrown m hm).nextents]
    exact ⟨hcover, hfirst⟩
  · obtain ⟨id, offset, hid, hpos, hstart, hlt, hloc⟩ :=
      segLogicToPhysicMapping_spec compress hinv hn hlogic
    rw [hloc, hpos]
    dsimp only
    rw [hinv.location hid]
    exact ⟨rfl, rfl, Nat.le_add_right _ _, Nat.add_lt_add_left hlt _, hstart⟩
  · obtain ⟨hsize, hblock⟩ := Prod.mk.inj h
    exact segLogicToPhysicMapping_inj compress hinv hn hlogic hlogic' hsize hblock
  · -- data is never on an address block of a compressed segment
    rintro rfl logic hlogic hge
    have h32 := hlogic.trans (logicStart_lt true hmax)
    obtain ⟨id, offset, hid, hpos, -, hlt, hloc⟩ :=
      segLogicToPhysicMapping_spec true hinv hn hlogic
    have hphys : physicalOffset true logic offset = offset / 127 * 128 + offset % 127 := by
      rw [physicalOffset, if_neg]
      simpa using hge
    have h16 : 16 ≤ id := not_lt.mp fun h => Nat.not_lt.mpr hge ((lt_sixteen_iff h32 hpos).mp h)
    rw [hphys] at hloc hlt
    rw [hpos, hloc]
    dsimp only
    rw [hinv.location hid]
    refine ⟨offset, rfl, (Nat.add_assoc _ _ _).symm, ?_⟩
    rw [← segGetCfsExtentByPhyBlockNum_iff h16 (sup.placed id (hid.trans_le hn)) hlt]
    have h₁ : (offset / 127 * 128 + offset % 127) % 128 = offset % 127 := by omega
    have h₂ : (offset / 127 * 128 + offset % 127) / 128 = offset / 127 := by omega
    rw [h₁, h₂]

/-! ## Two supplies -/

/-- Every extent right behind the place of the one before it. -/
def denseExtent (i : Nat) : Nat := 4157 + i * extentSizeByCount i

theorem placed_dense {i : Nat} (h : i < maxExtents) :
    Placed (extentSizeByCount i) (denseExtent i) := by
  have hi : i < 513255 := h
  refine ⟨0, i, hi.trans (by decide), ?_, ?_⟩
  · simp only [denseExtent, dfMapHeadPage, dfMapGroupSize, ipblockGroupSize]
    omega
  · rcases extentSizeByCount_cases i with he | he | he | he <;> rw [denseExtent, he] <;> omega

theorem denseExtent_ne {i j : Nat} (hij : i < j) (he : extentSizeByCount i = extentSizeByCount j) :
    denseExtent i ≠ denseExtent j := by
  have := Nat.mul_lt_mul_of_pos_right hij (extentSizeByCount_pos i)
  rw [denseExtent, denseExtent, ← he]
  omega

def denseSupply : Supply where
  count := maxExtents
  extent := denseExtent
  level0Page := id
  count_le := le_rfl
  placed := fun _ h => placed_dense h
  extents_ne := fun _ _ h _ he => denseExtent_ne h he
  pages_ne := fun _ _ h _ _ _ => h.ne

theorem segAddressing_dense :
    200 < capacity false (segExtendInternal false denseSupply 200 denseSupply.count
      (segExtendAll false denseSupply [5] (emptySegment 0 (fun _ => 0) fun _ _ => 0))).head := by
  have hcount : 200 < logicStart false denseSupply.count := by
    rw [logicStart_plain]
    decide
  refine ((segAddressing false denseSupply 0 (fun _ => 0) (fun _ _ => 0) [5] ?_ _ rfl).2.1 200
    hcount).1
  intro b hb
  rw [List.mem_singleton.mp hb]
  exact Nat.lt_trans (by decide) hcount

/-- As above, but the first extent of 8192 blocks is near the end of its file. -/
def farExtent (i : Nat) : Nat := if i = 255 then 4143984701 else denseExtent i

theorem placed_far {i : Nat} (h : i < 256) : Placed (extentSizeByCount i) (farExtent i) := by
  unfold farExtent
  split
  · rename_i hi
    subst hi
    exact ⟨0, 505857, by decide, by decide, by decide⟩
  · exact placed_dense (h.trans (by decide))

theorem farExtent_ne {i j : Nat} (hij : i < j) (hj : j < 256)
    (he : extentSizeByCount i = extentSizeByCount j) : farExtent i ≠ farExtent j := by
  have hi : i ≠ 255 := by omega
  by_cases hlast : j = 255
  · subst hlast
    have := extent_ranges i
    have := extent_ranges 255
    omega
  · rw [farExtent, farExtent, if_neg hi, if_neg hlast]
    exact denseExtent_ne hij he

def farSupply : Supply where
  count := 256
  extent := farExtent
  level0Page := id
  count_le := of_decide_eq_true rfl
  placed := fun _ h => placed_far h
  extents_ne := fun _ _ h hj he => farExtent_ne h hj he
  pages_ne := fun _ _ h _ _ _ => h.ne

theorem segExtentPos_130049 : segExtentPos true 130049 = ⟨255, 0, 8192⟩ := by
  rw [segExtentPos_compress, segGetExtentIdByLogicBlknoInCfs_eq]
  decide

/-- Block 130049 of a compressed segment is block 4143984701 of the file of extents of 8192
blocks, the first of its CFS extent; `SegGetCfsExtentByPhyBlockNum` takes it for block 70
of another one. -/
theorem cfsExtent_not_recovered : ∃ (sup : Supply) (bs : List Nat),
    (∀ b ∈ bs, b < logicStart true sup.count) ∧ ∃ logic, 128 ≤ logic ∧
      logic < capacity true
        (segExtendAll true sup bs (emptySegment 0 (fun _ => 0) fun _ _ => 0)).head ∧
      (segGetCfsExtentByPhyBlockNum
        (segLogicToPhysicMapping true
          (segExtendAll true sup bs (emptySegment 0 (fun _ => 0) fun _ _ => 0)) logic).extentSize
        (segLogicToPhysicMapping true
          (segExtendAll true sup bs (emptySegment 0 (fun _ => 0) fun _ _ => 0)) logic).blocknum).1 ≠
        (segExtentPos true logic).offset % 127 := by
  have hgrown : ∀ n ≤ farSupply.count,
      GrownInv farSupply (grown farSupply (emptySegment 0 (fun _ => 0) fun _ _ => 0) n) n :=
    fun n hn => grown_inv farSupply 0 (fun _ => 0) (fun _ _ => 0) hn
  have hcount : 130049 < logicStart true farSupply.count := by
    rw [logicStart_compress]
    decide
  obtain ⟨m, -, hm, heq, hcover, -⟩ := segExtendInternal_grown true farSupply _ hgrown hcount
    farSupply.count 0 (Nat.zero_le _) (by omega)
  rw [grown_zero, ← segExtendAll_singleton] at heq
  have hinv := hgrown m hm
  refine ⟨farSupply, [130049], fun b hb => List.mem_singleton.mp hb ▸ hcount, 130049, by decide, ?_⟩
  obtain ⟨id, offset, hid, hpos, -, -, hloc⟩ := segLogicToPhysicMapping_spec true hinv hm hcover
  rw [segExtentPos_130049] at hpos
  obtain ⟨rfl, rfl, -⟩ := ExtentPos.mk.inj hpos
  rw [heq, hinv.capacity true, hloc, segExtentPos_130049]
  refine ⟨hcover, ?_⟩
  have hsize : extentSizeByCount 255 = 8192 := rfl
  have hblock : farSupply.extent 255 + physicalOffset true 130049 0 = 4143984701 := by decide
  dsimp only
  rw [hblock, hsize]
  decide

end OpenGauss.Segment
