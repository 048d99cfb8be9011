import OpenGauss.Segment.BlockMap

/-!
# The block map finds the live extents

`MapInv` relates the head and the level-0 pages to the list of live extents. Growing
keeps it, and so does freeing an extent whose slot is written in the right array. That
is not so for an extent on a level-0 page that is not the first of it: its number is
used as index into the 1255 direct slots of the head.
-/

namespace OpenGauss.Segment

open Function (update update_of_ne update_self)
open SegmentHead (slot setLogged setSlot)

variable {i n : Nat} {s : SegState}

/-! ## Replay -/

@[simp] theorem setSlot_words (head : SegmentHead) (a : SlotArray) (i v : Nat) :
    (head.setSlot a i v).words = Function.update head.words (a.base + i) v := rfl

@[simp] theorem slot_setSlot_same (head : SegmentHead) (a : SlotArray) (i v : Nat) :
    (head.setSlot a i v).slot a i = v := by
  simp [slot]

/-- Replaying the record of a change on the head before it gives the head after it. -/
theorem redoUpdateSeghead_level0 (head head' : SegmentHead) (i v : Nat)
    (hwords : head'.words = head.words) :
    redo ⟨head, pages⟩ (segHeadUpdateXlog (head'.setSlot .level0 i v) (some i) none) =
      ⟨head'.setSlot .level0 i v, pages⟩ := by
  simp [redo, segHeadUpdateXlog, redoUpdateSeghead, setLogged, setSlot,
    slot, hwords]

theorem redoUpdateSeghead_level1 (head head' : SegmentHead) (i v : Nat)
    (hwords : head'.words = head.words) :
    redo ⟨head, pages⟩ (segHeadUpdateXlog (head'.setSlot .level1 i v) none (some i)) =
      ⟨head'.setSlot .level1 i v, pages⟩ := by
  simp [redo, segHeadUpdateXlog, redoUpdateSeghead, setLogged, setSlot,
    slot, hwords]

theorem redoUpdateSeghead_none (head head' : SegmentHead) (hwords : head'.words = head.words) :
    redo ⟨head, pages⟩ (segHeadUpdateXlog head' none none) = ⟨head', pages⟩ := by
  simp [redo, segHeadUpdateXlog, redoUpdateSeghead, setLogged, ← hwords]

theorem segStep_replay (s : SegState) (op : SegOp) :
    (segStep s op).2.foldl redo s = (segStep s op).1 := by
  obtain ⟨head, pages⟩ := s
  cases op with
  | extend newExtent level0Page =>
    simp only [segStep, segExtendSegment]
    split
    · exact redoUpdateSeghead_level0 head _ _ _ rfl
    split
    · exact redoUpdateSeghead_level1 head _ _ _ rfl
    · exact redoUpdateSeghead_none head _ rfl
  | freeLast =>
    simp only [segStep, freeLastExtent]
    split
    · rfl
    unfold freeLastExtentSlot
    split
    · exact redoUpdateSeghead_level1 head _ _ _ rfl
    · exact redoUpdateSeghead_level0 head _ _ _ rfl

theorem segRun_replay (ops : List SegOp) (s : SegState) :
    (segRun s ops).2.foldl redo s = (segRun s ops).1 := by
  induction ops generalizing s with
  | nil => rfl
  | cons op ops ih =>
    rw [segRun, List.foldl_append, segStep_replay, ih]

/-! ## The map -/

/-- Level-0 pages in use with `n` extents. -/
def level0PageCount (n : Nat) : Nat := (n - bmtHeaderLevel0Slots + 1999) / bmtLevel0Slots

structure MapInv (s : SegState) (live : List Nat) : Prop where
  nextents : s.head.nextents = live.length
  bounded : live.length ≤ maxExtents
  totalBlocks : s.head.totalBlocks = extentIdToLogicBlockNum live.length
  location : ∀ i (hi : i < live.length), segExtentLocation s i = live[i]
  /-- different pages are in use -/
  pages : ∀ k k', k < k' → k' < level0PageCount live.length →
    s.head.slot .level1 k ≠ s.head.slot .level1 k'

/-- What the caller and the space allocator see to: the map has room, a new level-0 page is
not in use as one, and there is an extent to free. -/
def Possible (s : SegState) : SegOp → Prop
  | .extend _ level0Page => s.head.nextents < maxExtents ∧
      (requireNewLevel0Page s.head.nextents = true →
        ∀ k < level0PageCount s.head.nextents, s.head.slot .level1 k ≠ level0Page)
  | .freeLast => 0 < s.head.nextents

/-- The extent freed is in a direct slot or the first of a level-0 page. -/
def FreesOwnSlot (s : SegState) : SegOp → Prop
  | .extend _ _ => True
  | .freeLast => s.head.nextents - 1 < bmtHeaderLevel0Slots ∨
      requireNewLevel0Page (s.head.nextents - 1) = true

/-- Every operation of a run meets `ok` where it happens. -/
def AllOps (ok : SegState → SegOp → Prop) : SegState → List SegOp → Prop
  | _, [] => True
  | s, op :: ops => ok s op ∧ AllOps ok (segStep s op).1 ops

theorem requireNewLevel0Page_iff {id : Nat} :
    requireNewLevel0Page id = true ↔ 1255 ≤ id ∧ (id - 1255) % 2000 = 0 := by
  unfold requireNewLevel0Page
  split
  · rename_i h
    simp only [bmtHeaderLevel0Slots] at h
    simp
    omega
  · rename_i h
    simp only [bmtHeaderLevel0Slots, Nat.not_lt] at h
    simp [h]

theorem level1Slot_lt_of_new (hnew : requireNewLevel0Page n = true) (hi : i < n) (hle : 1255 ≤ i) :
    extentIdToLevel1Slot i < extentIdToLevel1Slot n := by
  have := (requireNewLevel0Page_iff.mp hnew).2
  simp only [extentIdToLevel1Slot, bmtHeaderLevel0Slots, bmtLevel0Slots]
  omega

theorem pageOffset_ne (hi : i < n) (hle : 1255 ≤ i)
    (hpage : extentIdToLevel1Slot i = extentIdToLevel1Slot n) :
    extentIdToLevel0PageOffset i ≠ extentIdToLevel0PageOffset n := by
  simp only [extentIdToLevel1Slot, extentIdToLevel0PageOffset, bmtHeaderLevel0Slots,
    bmtLevel0Slots] at hpage ⊢
  omega

theorem level0PageCount_of_new (hnew : requireNewLevel0Page n = true) :
    level0PageCount n = extentIdToLevel1Slot n := by
  have := (requireNewLevel0Page_iff.mp hnew).2
  simp only [level0PageCount, extentIdToLevel1Slot, bmtHeaderLevel0Slots, bmtLevel0Slots]
  omega

theorem level0PageCount_of_old (hle : 1255 ≤ n) (hold : ¬ requireNewLevel0Page n = true) :
    level0PageCount n = extentIdToLevel1Slot n + 1 := by
  have hmod : (n - 1255) % 2000 ≠ 0 := fun h0 => hold (requireNewLevel0Page_iff.mpr ⟨hle, h0⟩)
  simp only [level0PageCount, extentIdToLevel1Slot, bmtHeaderLevel0Slots, bmtLevel0Slots]
  omega

theorem level0PageCount_succ (hle : 1255 ≤ n) :
    level0PageCount (n + 1) = extentIdToLevel1Slot n + 1 := by
  simp only [level0PageCount, extentIdToLevel1Slot, bmtHeaderLevel0Slots, bmtLevel0Slots]
  omega

theorem level0PageCount_direct (hle : n ≤ 1255) : level0PageCount n = 0 := by
  simp only [level0PageCount, bmtHeaderLevel0Slots, bmtLevel0Slots]
  omega

theorem base_ne {k : Nat} (hi : i < 1255) :
    SlotArray.level0.base + i ≠ SlotArray.level1.base + k := by
  simp only [SlotArray.base, bmtHeaderLevel0Slots]
  omega

theorem slot_setSlot_other (head : SegmentHead) {a b : SlotArray} {j v : Nat}
    (h : b.base + j ≠ a.base + i) : (head.setSlot a i v).slot b j = head.slot b j := by
  simp [slot, update_of_ne h]

theorem segExtentLocation_of_lt (h : i < bmtHeaderLevel0Slots) :
    segExtentLocation s i = s.head.slot .level0 i := if_pos h

theorem segExtentLocation_of_le (h : bmtHeaderLevel0Slots ≤ i) :
    segExtentLocation s i = s.level0Pages (s.head.slot .level1 (extentIdToLevel1Slot i))
      (extentIdToLevel0PageOffset i) := if_neg h.not_gt

variable {live : List Nat}

theorem location_append {e : Nat}
    (hold : ∀ i (hi : i < live.length), segExtentLocation s i = live[i])
    (hnew : segExtentLocation s live.length = e) :
    ∀ i (hi : i < (live ++ [e]).length), segExtentLocation s i = (live ++ [e])[i] := by
  intro i hi
  rw [List.length_append, List.length_singleton] at hi
  rcases Nat.lt_succ_iff_lt_or_eq.mp hi with hlt | rfl
  · rw [List.getElem_append_left hlt]
    exact hold i hlt
  · rw [List.getElem_append_right le_rfl]
    simpa using hnew

namespace MapInv

variable {s : SegState} {live : List Nat}

theorem counted (h : MapInv s live) (hroom : live.length < maxExtents) :
    s.head.countExtent.nextents = live.length + 1 ∧
      s.head.countExtent.totalBlocks = extentIdToLogicBlockNum (live.length + 1) := by
  have hlt := extentIdToLogicBlockNum_lt (n := live.length + 1) hroom
  have hsucc := extentIdToLogicBlockNum_succ (hroom.trans_le (by decide))
  simp only [SegmentHead.countExtent, h.nextents, h.totalBlocks]
  simp only [maxExtents, bmtHeaderLevel0Slots, bmtHeaderLevel1Slots, bmtLevel0Slots] at hroom
  rw [← hsucc, Nat.mod_eq_of_lt hlt]
  exact ⟨Nat.mod_eq_of_lt (by omega), rfl⟩

theorem uncounted (h : MapInv s live) (hpos : 0 < live.length) :
    s.head.uncountExtent.nextents = live.length - 1 ∧
      s.head.uncountExtent.totalBlocks = extentIdToLogicBlockNum (live.length - 1) := by
  have hb := h.bounded
  have hsucc := extentIdToLogicBlockNum_succ (n := live.length - 1)
    (Nat.lt_of_lt_of_le (by omega) (show maxExtents ≤ 524526 by decide))
  have hlt := extentIdToLogicBlockNum_lt (n := live.length - 1) (by omega)
  rw [Nat.sub_add_cancel hpos] at hsucc
  simp only [SegmentHead.uncountExtent, h.nextents, h.totalBlocks, hsucc]
  exact ⟨trivial, by omega⟩

theorem extendDirect (h : MapInv s live) (hroom : live.length < bmtHeaderLevel0Slots) (e : Nat) :
    MapInv { s with head := s.head.countExtent.setSlot .level0 live.length e } (live ++ [e]) := by
  have hlen : (live ++ [e]).length = live.length + 1 := by simp
  have hmax : live.length < maxExtents := hroom.trans_le (by decide)
  obtain ⟨hn, ht⟩ := h.counted hmax
  refine ⟨hn.trans hlen.symm, hlen ▸ hmax, hlen ▸ ht, location_append (fun i hi => ?_) ?_, ?_⟩
  · have := h.location i hi
    rw [segExtentLocation_of_lt (hi.trans hroom)] at this ⊢
    rw [slot_setSlot_other _ (by omega)]
    exact this
  · rw [segExtentLocation_of_lt hroom, slot_setSlot_same]
  · intro k k' _ hk'
    rw [hlen, level0PageCount_direct hroom] at hk'
    omega

theorem extendNewPage (h : MapInv s live) (hmax : live.length < maxExtents)
    (hnew : requireNewLevel0Page live.length = true) (e : Nat) {page : Nat}
    (hfresh : ∀ k < level0PageCount live.length, s.head.slot .level1 k ≠ page) :
    MapInv (segInitNewLevel0Page { s with head := s.head.countExtent } live.length page e).1
      (live ++ [e]) := by
  have hlen : (live ++ [e]).length = live.length + 1 := by simp
  obtain ⟨hn, ht⟩ := h.counted hmax
  obtain ⟨hle, hmod⟩ := requireNewLevel0Page_iff.mp hnew
  -- the pages in use are those before the new one
  have hcount := level0PageCount_of_new hnew
  have hslot : ∀ k < extentIdToLevel1Slot live.length,
      (s.head.countExtent.setSlot .level1 (extentIdToLevel1Slot live.length) page).slot .level1 k =
        s.head.slot .level1 k := fun k hk => slot_setSlot_other _ (by omega)
  refine ⟨hn.trans hlen.symm, hlen ▸ hmax, hlen ▸ ht, location_append (fun i hi => ?_) ?_, ?_⟩
  · have hloc := h.location i hi
    by_cases hdirect : i < bmtHeaderLevel0Slots
    · rw [segExtentLocation_of_lt hdirect] at hloc ⊢
      rw [← hloc]
      exact slot_setSlot_other _ (base_ne hdirect)
    have hi' := not_lt.mp hdirect
    rw [segExtentLocation_of_le hi'] at hloc ⊢
    simp only [segInitNewLevel0Page]
    have hbefore := level1Slot_lt_of_new hnew hi hi'
    rw [hslot _ hbefore, update_of_ne (hfresh _ (by rw [hcount]; exact hbefore))]
    exact hloc
  · have hoff : extentIdToLevel0PageOffset live.length = 0 := hmod
    rw [segExtentLocation_of_le hle]
    simp only [segInitNewLevel0Page, slot_setSlot_same, update_self, hoff, initLevel0Page]
  · intro k k' hk hk'
    rw [hlen, level0PageCount_succ hle] at hk'
    simp only [segInitNewLevel0Page]
    rw [hslot k (by omega)]
    rcases Nat.lt_succ_iff_lt_or_eq.mp hk' with hlt | rfl
    · rw [hslot k' hlt]
      exact h.pages k k' hk (hcount ▸ hlt)
    · rw [slot_setSlot_same]
      exact hfresh k (hcount ▸ hk)

theorem extendPage (h : MapInv s live) (hmax : live.length < maxExtents)
    (hle : bmtHeaderLevel0Slots ≤ live.length)
    (hold : ¬ requireNewLevel0Page live.length = true) (e : Nat) :
    MapInv (segRecordNewExtentOnLevel0Page { s with head := s.head.countExtent } live.length e).1
      (live ++ [e]) := by
  have hlen : (live ++ [e]).length = live.length + 1 := by simp
  obtain ⟨hn, ht⟩ := h.counted hmax
  have hcount := level0PageCount_of_old hle hold
  have hslot : ∀ k, s.head.countExtent.slot .level1 k = s.head.slot .level1 k := fun _ => rfl
  refine ⟨hn.trans hlen.symm, hlen ▸ hmax, hlen ▸ ht, location_append (fun i hi => ?_) ?_, ?_⟩
  · have hloc := h.location i hi
    by_cases hdirect : i < bmtHeaderLevel0Slots
    · rw [segExtentLocation_of_lt hdirect] at hloc ⊢
      exact hloc
    have hi' := not_lt.mp hdirect
    rw [segExtentLocation_of_le hi'] at hloc ⊢
    simp only [segRecordNewExtentOnLevel0Page, hslot]
    by_cases hpage : extentIdToLevel1Slot i = extentIdToLevel1Slot live.length
    · -- on the same page, in another slot
      rw [hpage, update_self, update_of_ne (pageOffset_ne hi hi' hpage), ← hpage]
      exact hloc
    have hne : s.head.slot .level1 (extentIdToLevel1Slot i) ≠
        s.head.slot .level1 (extentIdToLevel1Slot live.length) := by
      refine h.pages _ _ (Nat.lt_of_le_of_ne ?_ hpage) (hcount ▸ Nat.lt_succ_self _)
      exact Nat.div_le_div_right (Nat.sub_le_sub_right (hi.le) _)
    rw [update_of_ne hne]
    exact hloc
  · rw [segExtentLocation_of_le hle]
    simp only [segRecordNewExtentOnLevel0Page, update_self]
  · intro k k' hk hk'
    rw [hlen, level0PageCount_succ hle, ← hcount] at hk'
    exact h.pages k k' hk hk'

/-- Freeing clears a slot that no other extent is found through. -/
theorem freeLast (h : MapInv s live) (hpos : 0 < live.length)
    (hfree : live.length - 1 < bmtHeaderLevel0Slots ∨
      requireNewLevel0Page (live.length - 1) = true) :
    MapInv { s with head := (freeLastExtentSlot s.head.uncountExtent (live.length - 1)).1 }
      live.dropLast := by
  have hlen : live.dropLast.length = live.length - 1 := by simp
  obtain ⟨hn, ht⟩ := h.uncounted hpos
  have hmax := h.bounded
  have hold : ∀ i (hi : i < live.dropLast.length),
      segExtentLocation s i = live.dropLast[i] := by
    intro i hi
    rw [List.getElem_dropLast]
    exact h.location i (by omega)
  by_cases hnew : requireNewLevel0Page (live.length - 1) = true
  · obtain ⟨hle, -⟩ := requireNewLevel0Page_iff.mp hnew
    have hslot : ∀ k < extentIdToLevel1Slot (live.length - 1),
        (s.head.uncountExtent.setSlot .level1 (extentIdToLevel1Slot (live.length - 1))
          invalidBlockNumber).slot .level1 k = s.head.slot .level1 k :=
      fun k hk => slot_setSlot_other _ (by omega)
    rw [freeLastExtentSlot, if_pos hnew]
    refine ⟨hn.trans hlen.symm, by omega, hlen ▸ ht, fun i hi => ?_, fun k k' hk hk' => ?_⟩
    · rw [← hold i hi]
      by_cases hdirect : i < bmtHeaderLevel0Slots
      · rw [segExtentLocation_of_lt hdirect, segExtentLocation_of_lt hdirect]
        exact slot_setSlot_other _ (base_ne hdirect)
      have hi' := not_lt.mp hdirect
      rw [segExtentLocation_of_le hi', segExtentLocation_of_le hi',
        hslot _ (level1Slot_lt_of_new hnew (hlen ▸ hi) hi')]
    · rw [hlen, level0PageCount_of_new hnew] at hk'
      rw [hslot k (by omega), hslot k' hk']
      refine h.pages k k' hk ?_
      have := level0PageCount_succ hle
      rw [Nat.sub_add_cancel hpos] at this
      omega
  · have hdirect := hfree.resolve_right hnew
    rw [freeLastExtentSlot, if_neg hnew]
    refine ⟨hn.trans hlen.symm, by omega, hlen ▸ ht, fun i hi => ?_, fun k k' hk hk' => ?_⟩
    · have hi' : i < bmtHeaderLevel0Slots := (hlen ▸ hi).trans hdirect
      rw [← hold i hi, segExtentLocation_of_lt hi', segExtentLocation_of_lt hi']
      exact slot_setSlot_other _ (by omega)
    · rw [hlen, level0PageCount_direct (hdirect.le)] at hk'
      omega

theorem step (h : MapInv s live) {op : SegOp} (hop : Possible s op) (hfree : FreesOwnSlot s op) :
    MapInv (segStep s op).1 (liveAfter live op) := by
  cases op with
  | extend newExtent level0Page =>
    obtain ⟨hroom, hfresh⟩ := hop
    rw [h.nextents] at hroom hfresh
    simp only [segStep, segExtendSegment, liveAfter, h.nextents]
    split
    · exact h.extendDirect ‹_› newExtent
    split
    · exact h.extendNewPage hroom ‹_› newExtent (hfresh ‹_›)
    · exact h.extendPage hroom (not_lt.mp ‹_›) ‹_› newExtent
  | freeLast =>
    have hpos : 0 < s.head.nextents := hop
    rw [FreesOwnSlot] at hfree
    rw [h.nextents] at hpos hfree
    simp only [segStep, freeLastExtent, liveAfter, h.nextents]
    rw [if_neg hpos.ne']
    exact h.freeLast hpos hfree

theorem empty (nblocks : Nat) (words : Nat → Nat) (pages : Nat → Nat → Nat) :
    MapInv ⟨⟨nblocks, 0, 0, words⟩, pages⟩ [] :=
  ⟨rfl, Nat.zero_le _, rfl, nofun, fun _ k' _ hk' => absurd hk' (Nat.not_lt_zero k')⟩

end MapInv

/-! ## Where slots are written -/

theorem freedSlot_inArray_iff {id : Nat} (hid : id < maxExtents) :
    (freedSlot id).2 < (freedSlot id).1.length ↔
      id < bmtHeaderLevel0Slots ∨ requireNewLevel0Page id = true := by
  unfold freedSlot
  split
  · rename_i hnew
    refine ⟨fun _ => .inr hnew, fun _ => ?_⟩
    have hid' : id < 513255 := hid
    simp only [SlotArray.length, extentIdToLevel1Slot, bmtHeaderLevel0Slots, bmtHeaderLevel1Slots,
      bmtLevel0Slots]
    omega
  · rename_i hold
    exact ⟨fun h => .inl h, fun h => h.resolve_right hold⟩

theorem freeLastExtentSlot_words (head : SegmentHead) (id : Nat) :
    (freeLastExtentSlot head id).1.words =
      update head.words ((freedSlot id).1.base + (freedSlot id).2) invalidBlockNumber := by
  unfold freeLastExtentSlot freedSlot
  split <;> rfl

theorem base_add_lt {a : SlotArray} (h : i < a.length) : a.base + i < forkHead := by
  cases a with
  | level0 =>
    rw [SlotArray.base, Nat.zero_add]
    exact h.trans_le (by decide)
  | level1 => exact Nat.add_lt_add_left h _

/-- Slots written in their own array leave the words behind the arrays alone. -/
theorem segStep_words {op : SegOp} (hmax : s.head.nextents ≤ maxExtents) (hop : Possible s op)
    (hfree : FreesOwnSlot s op) {w : Nat} (hw : forkHead ≤ w) :
    (segStep s op).1.head.words w = s.head.words w := by
  have hother : ∀ {a : SlotArray} {i : Nat}, i < a.length → w ≠ a.base + i := fun h =>
    ((base_add_lt h).trans_le hw).ne'
  cases op with
  | extend newExtent level0Page =>
    simp only [segStep, segExtendSegment]
    split
    · rename_i hdirect
      exact update_of_ne (hother hdirect) _ _
    split
    · rename_i hnew
      have hlt := (freedSlot_inArray_iff hop.1).mpr (.inr hnew)
      rw [freedSlot, if_pos hnew] at hlt
      exact update_of_ne (hother hlt) _ _
    · rfl
  | freeLast =>
    have hpos : 0 < s.head.nextents := hop
    simp only [segStep, freeLastExtent]
    rw [if_neg hpos.ne']
    simp only [freeLastExtentSlot_words]
    exact update_of_ne
      (hother ((freedSlot_inArray_iff ((Nat.sub_lt hpos Nat.one_pos).trans_le hmax)).mpr hfree)) _ _

/-- What holds after every run that frees own slots only. -/
theorem MapInv.run (ops : List SegOp) {s : SegState} (h : MapInv s live)
    (hops : AllOps Possible s ops) (hfree : AllOps FreesOwnSlot s ops) :
      MapInv (segRun s ops).1 (ops.foldl liveAfter live) ∧
        ∀ w, forkHead ≤ w → (segRun s ops).1.head.words w = s.head.words w := by
  induction ops generalizing s live with
  | nil => exact ⟨h, fun w _ => rfl⟩
  | cons op ops ih =>
    obtain ⟨hinv, hwords⟩ := ih (h.step hops.1 hfree.1) hops.2 hfree.2
    refine ⟨hinv, fun w hw => (hwords w hw).trans ?_⟩
    exact segStep_words (h.nextents ▸ h.bounded) hops.1 hfree.1 hw

/-- The head of a segment without extents; its slots hold anything. -/
def emptySegment (nblocks : Nat) (words : Nat → Nat) (pages : Nat → Nat → Nat) : SegState :=
  ⟨⟨nblocks, 0, 0, words⟩, pages⟩

/-- Replay always ends in the state the log was written from. Which slot freeing writes is
decided by the number of the extent; as long as it lies in its array, the map finds every
live extent and nothing but the map is changed. -/
theorem segRun_map (nblocks : Nat) (words : Nat → Nat) (pages : Nat → Nat → Nat)
    (ops : List SegOp) :
    ((segRun (emptySegment nblocks words pages) ops).2.foldl redo
      (emptySegment nblocks words pages) = (segRun (emptySegment nblocks words pages) ops).1) ∧
    (∀ id < maxExtents, (freedSlot id).2 < (freedSlot id).1.length ↔
      id < bmtHeaderLevel0Slots ∨ requireNewLevel0Page id = true) ∧
    (AllOps Possible (emptySegment nblocks words pages) ops →
      AllOps FreesOwnSlot (emptySegment nblocks words pages) ops →
      (segRun (emptySegment nblocks words pages) ops).1.head.nextents =
        (ops.foldl liveAfter []).length ∧
      (segRun (emptySegment nblocks words pages) ops).1.head.totalBlocks =
        sumSizes (ops.foldl liveAfter []).length ∧
      (∀ i (hi : i < (ops.foldl liveAfter []).length),
        segExtentLocation (segRun (emptySegment nblocks words pages) ops).1 i =
          (ops.foldl liveAfter [])[i]) ∧
      ∀ w, forkHead ≤ w →
        (segRun (emptySegment nblocks words pages) ops).1.head.words w = words w) := by
  refine ⟨segRun_replay ops _, fun id hid => freedSlot_inArray_iff hid, fun hops hfree => ?_⟩
  obtain ⟨hinv, hwords⟩ := MapInv.run ops (MapInv.empty nblocks words pages) hops hfree
  exact ⟨hinv.nextents, by rw [sumSizes_eq hinv.bounded]; exact hinv.totalBlocks,
    hinv.location, hwords⟩

theorem segRun_map_threeExtents :
    segExtentLocation (segRun (emptySegment 0 (fun _ => 0) fun _ _ => 0)
      [.extend 4157 0, .extend 4165 0, .freeLast, .extend 4181 0]).1 1 = 4181 := by
  refine ((segRun_map 0 (fun _ => 0) (fun _ _ => 0) _).2.2 ?_ ?_).2.2.1 1 (by decide)
  · refine ⟨⟨by decide, nofun⟩, ⟨by decide, nofun⟩, ?_, ⟨by decide, nofun⟩, trivial⟩
    show 0 < 2
    decide
  · exact ⟨trivial, trivial, .inl (by decide), trivial, trivial⟩

/-! ## A segment with 1513 extents -/

/-- Extends one after the other need one level-0 page for a long time. -/
theorem extends_possible (e page n : Nat) {s : SegState}
    (h : MapInv s live) (hn : live.length + n ≤ 3255) :
      AllOps Possible s (List.replicate n (.extend e page)) ∧
        AllOps FreesOwnSlot s (List.replicate n (.extend e page)) := by
  induction n generalizing s live with
  | zero => exact ⟨trivial, trivial⟩
  | succ n ih =>
    have hpossible : Possible s (.extend e page) := by
      rw [Possible, h.nextents]
      refine ⟨Nat.lt_of_lt_of_le (by omega) (show 3255 ≤ maxExtents by decide), fun hnew k hk => ?_⟩
      obtain ⟨hle, hmod⟩ := requireNewLevel0Page_iff.mp hnew
      rw [level0PageCount_direct (by omega)] at hk
      omega
    obtain ⟨h₁, h₂⟩ := ih (h.step hpossible trivial) (by simp [liveAfter]; omega)
    exact ⟨⟨hpossible, h₁⟩, ⟨trivial, h₂⟩⟩

theorem segRun_append (ops ops' : List SegOp) (s : SegState) :
    (segRun s (ops ++ ops')).1 = (segRun (segRun s ops).1 ops').1 := by
  induction ops generalizing s with
  | nil => rfl
  | cons op ops ih => exact ih _

theorem allOps_append {ok : SegState → SegOp → Prop} (ops ops' : List SegOp) : ∀ s : SegState,
    AllOps ok s ops → AllOps ok (segRun s ops).1 ops' → AllOps ok s (ops ++ ops') := by
  induction ops with
  | nil =>
    intro s _ h
    exact h
  | cons op ops ih =>
    intro s h h'
    exact ⟨h.1, ih _ h.2 h'⟩

theorem length_foldl_extend (e page n : Nat) (live : List Nat) :
    ((List.replicate n (SegOp.extend e page)).foldl liveAfter live).length = live.length + n := by
  induction n generalizing live with
  | zero => rfl
  | succ n ih =>
    rw [List.replicate_succ, List.foldl_cons, ih]
    simp [liveAfter]
    omega

theorem nextents_extends (nblocks : Nat) (words : Nat → Nat) (pages : Nat → Nat → Nat)
    (e page : Nat) (hn : n ≤ 3255) :
    AllOps Possible (emptySegment nblocks words pages) (List.replicate n (.extend e page)) ∧
      (segRun (emptySegment nblocks words pages)
        (List.replicate n (.extend e page))).1.head.nextents = n := by
  have hempty := MapInv.empty nblocks words pages
  obtain ⟨hops, hfree⟩ := extends_possible e page n hempty (by simpa using hn)
  have hnext := (MapInv.run _ hempty hops hfree).1.nextents
  rw [length_foldl_extend, List.length_nil, Nat.zero_add] at hnext
  exact ⟨hops, hnext⟩

/-- Freeing the last of 1513 extents writes `level0_slots[1512]`, which is `fork_head[1]`:
the head of the free space map is lost. -/
theorem freeLast_overwrites_forkHead : ∃ words ops,
    AllOps Possible (emptySegment 0 words fun _ _ => 0) ops ∧
      words (forkHead + 1) = 4160 ∧
      (segRun (emptySegment 0 words fun _ _ => 0) ops).1.head.words (forkHead + 1) =
        invalidBlockNumber := by
  obtain ⟨hops, hnext⟩ := nextents_extends 0 (fun _ => 4160) (fun _ _ => 0) 8192 4161
    (n := 1513) (by decide)
  refine ⟨fun _ => 4160, List.replicate 1513 (.extend 8192 4161) ++ [.freeLast], ?_, rfl, ?_⟩
  · refine allOps_append _ _ _ hops ⟨?_, trivial⟩
    rw [Possible, hnext]
    decide
  · rw [segRun_append]
    simp only [segRun, segStep, freeLastExtent, hnext]
    rw [if_neg (by decide)]
    simp only [freeLastExtentSlot_words]
    exact update_self _ _ _

end OpenGauss.Segment
