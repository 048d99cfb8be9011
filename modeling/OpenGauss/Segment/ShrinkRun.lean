import OpenGauss.Segment.ShrinkSound

/-!
# The shrink loop

Each round takes off the last extent or ends the loop. The invariant compares the
segment with what it was at the beginning: the extents left are at their places, the
pages in use have the same contents, and what was taken off is in the list of freed
extents once. The words behind the head's page are part of it, because the slot of a
freed extent may be written there.
-/

namespace OpenGauss.Segment

open SlotArray (level0 base level1)

/-! ## The block map without its last extent -/

theorem freedSlot_ne_level0 {id i : Nat} (hi : i < id) (hdirect : i < 1255) :
    level0.base + i ≠ (freedSlot id).1.base + (freedSlot id).2 := by
  unfold freedSlot
  split
  · exact base_ne hdirect
  · simp only [base]
    omega

/-- A level-0 page that an earlier extent needs stays in the map. -/
theorem freedSlot_ne_level1 {id i : Nat} (hi : i < id) (hle : 1255 ≤ i) :
    level1.base + extentIdToLevel1Slot i ≠ (freedSlot id).1.base + (freedSlot id).2 := by
  unfold freedSlot
  split
  case isTrue hnew =>
    have := level1Slot_lt_of_new hnew hi hle
    dsimp only
    omega
  case isFalse =>
    simp only [base, extentIdToLevel1Slot, bmtHeaderLevel0Slots, bmtLevel0Slots]
    omega

section FreeLast

variable {s : SegState} (hpos : s.head.nextents ≠ 0)

include hpos

theorem freeLastExtent_words : (freeLastExtent s).1.head.words =
    Function.update s.head.words ((freedSlot (s.head.nextents - 1)).1.base +
      (freedSlot (s.head.nextents - 1)).2) invalidBlockNumber := by
  unfold freeLastExtent
  rw [if_neg hpos]
  exact freeLastExtentSlot_words _ _

theorem freeLastExtent_counts : (freeLastExtent s).1.head.nextents = s.head.nextents - 1 ∧
    (freeLastExtent s).1.head.nblocks = logicStart false (s.head.nextents - 1) ∧
    (freeLastExtent s).1.level0Pages = s.level0Pages := by
  unfold freeLastExtent
  rw [if_neg hpos, logicStart_plain]
  unfold freeLastExtentSlot
  split <;> exact ⟨rfl, rfl, rfl⟩

theorem freeLastExtent_slot {a : SlotArray} {j : Nat}
    (hne : a.base + j ≠ (freedSlot (s.head.nextents - 1)).1.base +
      (freedSlot (s.head.nextents - 1)).2) :
    (freeLastExtent s).1.head.slot a j = s.head.slot a j := by
  unfold SegmentHead.slot
  rw [freeLastExtent_words hpos, Function.update_of_ne hne]

theorem freeLastExtent_location {i : Nat} (hi : i < s.head.nextents - 1) :
    segExtentLocation (freeLastExtent s).1 i = segExtentLocation s i := by
  by_cases hdirect : i < bmtHeaderLevel0Slots
  · rw [segExtentLocation_of_lt hdirect, segExtentLocation_of_lt hdirect,
      freeLastExtent_slot hpos (freedSlot_ne_level0 hi hdirect)]
  have hle := Nat.le_of_not_lt hdirect
  rw [segExtentLocation_of_le hle, segExtentLocation_of_le hle,
    freeLastExtent_slot hpos (freedSlot_ne_level1 hi hle), (freeLastExtent_counts hpos).2.2]

theorem freeLastExtent_freedWith {i : Nat} (hi : i < s.head.nextents - 1) :
    ShrinkState.freedWith (freeLastExtent s).1 i = ShrinkState.freedWith s i := by
  unfold ShrinkState.freedWith
  rw [freeLastExtent_location hpos hi]
  congr 1
  split
  case isTrue hnew =>
    rw [freeLastExtent_slot hpos (freedSlot_ne_level1 hi (requireNewLevel0Page_iff.mp hnew).1)]
  case isFalse => rfl

end FreeLast

namespace ShrinkState

variable {β : Type} {s₀ s : ShrinkState β} {n last : Nat}

/-- The 32-bit words of the head's page from `level0_slots[0]` on. -/
def headPageWords : Nat := 2032

/-- What is given back when the extents from `n` on are taken off, last one first. -/
def freedFrom (s : ShrinkState β) (n : Nat) : List (Nat × Nat) :=
  (List.range (s.seg.head.nextents - n)).flatMap fun d =>
    freedWith s.seg (s.seg.head.nextents - 1 - d)

/-- A word behind the head's page after the slots of the extents from `n` on were written. -/
def strayWord (s : ShrinkState β) (n w : Nat) : Nat :=
  if n ≤ w ∧ w < s.seg.head.nextents ∧ requireNewLevel0Page w = false then invalidBlockNumber
  else s.seg.head.words w

/-- A plain segment in a state that the loop can start from. -/
structure Wf (s : ShrinkState β) : Prop where
  plain : s.pages.Plain
  nblocks_ge : logicStart false (s.seg.head.nextents - 1) ≤ s.seg.head.nblocks
  egDfExists : ∀ i, i < s.seg.head.nextents → s.egDfExists (extentSizeByCount i) = true

/-- The loop with `n` extents left. -/
structure At (s₀ s : ShrinkState β) (n : Nat) : Prop where
  nextents : s.seg.head.nextents = n
  le : n ≤ s₀.seg.head.nextents
  le_max : s₀.seg.head.nextents ≤ maxExtents
  location : ∀ i, i < n → segExtentLocation s.seg i = segExtentLocation s₀.seg i
  given : ∀ i, i < n → freedWith s.seg i = freedWith s₀.seg i
  plain : s.pages.Plain
  nblocks_ge : logicStart false (n - 1) ≤ s.seg.head.nblocks
  nblocks_le : s.seg.head.nblocks ≤ s₀.seg.head.nblocks
  nblocks : s.seg.head.nblocks = s₀.seg.head.nblocks ∨ s.seg.head.nblocks = logicStart false n
  rows : s.rowPages.Perm s₀.rowPages
  freed : s.freed = s₀.freed ++ s₀.freedFrom n
  stray : ∀ w, headPageWords ≤ w → s.seg.head.words w = s₀.strayWord n w
  egDfExists : s.egDfExists = s₀.egDfExists

theorem rowPages_eq (s : ShrinkState β) :
    s.rowPages = usedIn segPageInUse s.pages.read 0 s.seg.head.nblocks := by
  unfold rowPages usedIn
  congr 2
  funext j
  rw [Nat.zero_add]

theorem pages_withPages {p : SegPages (RowPage β)} (h : SegPages.SameMap s.pages p) :
    (s.withPages p).pages = p := by
  cases p with
  | mk nextents nblocks extents disk buffers =>
    obtain ⟨hn, hb, he⟩ := h
    dsimp only at hn hb he
    subst hn hb he
    rfl

theorem At.same {p : SegPages (RowPage β)} (h : At s₀ s n) (hp : SegPages.Same s.pages p) :
    At s₀ (s.withPages p) n where
  __ := h
  plain := by
    rw [pages_withPages hp.map]
    exact hp.plain
  rows := by
    rw [rowPages_eq, pages_withPages hp.map]
    refine List.Perm.trans (List.Perm.of_eq ?_) h.rows
    rw [rowPages_eq]
    apply usedIn_congr
    intro j hj
    exact hp.read (0 + j) (by rw [Nat.zero_add]; exact hj)

theorem freedFrom_succ (hlt : n < s.seg.head.nextents) :
    s.freedFrom n = s.freedFrom (n + 1) ++ freedWith s.seg n := by
  have hcount : s.seg.head.nextents - n = s.seg.head.nextents - (n + 1) + 1 := by omega
  have hid : s.seg.head.nextents - 1 - (s.seg.head.nextents - (n + 1)) = n := by omega
  unfold freedFrom
  rw [hcount, List.range_succ, List.flatMap_append, List.flatMap_singleton, hid]

/-- The slot written for extent `n`, as far as it is behind the head's page. -/
theorem strayWord_step {w : Nat} (hw : headPageWords ≤ w) (hlt : n < s.seg.head.nextents)
    (hmax : s.seg.head.nextents ≤ maxExtents) :
    s.strayWord n w = if w = (freedSlot n).1.base + (freedSlot n).2 then invalidBlockNumber
      else s.strayWord (n + 1) w := by
  have hw' : 2032 ≤ w := hw
  have hmax' : s.seg.head.nextents ≤ 513255 := hmax
  unfold strayWord freedSlot
  by_cases hnew : requireNewLevel0Page n = true
  · rw [if_pos hnew]
    have hword : w ≠ level1.base + extentIdToLevel1Slot n := by
      simp only [base, extentIdToLevel1Slot, bmtHeaderLevel0Slots, bmtLevel0Slots]
      omega
    rw [if_neg hword]
    have hiff : (n ≤ w ∧ w < s.seg.head.nextents ∧ requireNewLevel0Page w = false) ↔
        (n + 1 ≤ w ∧ w < s.seg.head.nextents ∧ requireNewLevel0Page w = false) := by
      constructor
      · rintro ⟨hle, hwn, hold⟩
        have hne : n ≠ w := by
          rintro rfl
          rw [hnew] at hold
          cases hold
        exact ⟨by omega, hwn, hold⟩
      · rintro ⟨hle, hrest⟩
        exact ⟨by omega, hrest⟩
    simp only [hiff]
  · rw [if_neg hnew]
    simp only [base, Nat.zero_add]
    by_cases hwn : w = n
    · have hold : requireNewLevel0Page w = false := by
        rw [hwn]
        exact Bool.eq_false_iff.mpr hnew
      rw [if_pos hwn, if_pos ⟨by omega, by omega, hold⟩]
    · rw [if_neg hwn]
      have hiff : n ≤ w ↔ n + 1 ≤ w := by omega
      simp only [hiff]

/-- A place depends on the map of its own extent only. -/
theorem location_congr {p q : SegPages (RowPage β)} (hp : p.Plain) {i o : Nat}
    (hi : i < p.nextents) (ho : o < extentSizeByCount i) (heq : q.extents i = p.extents i) :
    q.location (logicStart false i + o) = p.location (logicStart false i + o) := by
  have hmax := hi.trans_le hp.nextents_le
  have hoff : o < logicSize false i := ho
  unfold SegPages.location blockLocation
  rw [segExtentPos_offset false hmax hoff, heq]

/-- The last extent is taken off when the blocks before it are in order and hold the pages in
use. -/
theorem At.dropLast {p : SegPages (RowPage β)} (h : At s₀ s (last + 1))
    (hmap : SegPages.SameMap s.pages p)
    (hbuf : ∀ k, k < logicStart false last → ∀ b, p.buffers k = some b →
      (b.segFileno, b.segBlockno) = s.pages.location k ∧
      (b.dirty = false → b.content = p.disk (s.pages.location k).1 (s.pages.location k).2))
    (hrows : (usedIn segPageInUse p.read 0 (logicStart false last)).Perm
      (usedIn segPageInUse s.pages.read 0 s.seg.head.nblocks)) :
    At s₀ (s.withPages p).dropLastExtent last := by
  set start := logicStart false last
  set s' := (s.withPages p).dropLastExtent
  have hpos : s.seg.head.nextents ≠ 0 := by
    rw [h.nextents]
    exact Nat.succ_ne_zero _
  have hlast : s.seg.head.nextents - 1 = last := by
    rw [h.nextents]
    rfl
  obtain ⟨hn, hb, -⟩ := freeLastExtent_counts hpos
  rw [hlast] at hn hb
  have hmax : last + 1 ≤ maxExtents := by
    rw [← h.nextents]
    exact h.plain.nextents_le
  have hext : ∀ i, i < last →
      segExtentLocation (freeLastExtent s.seg).1 i = segExtentLocation s.seg i := by
    intro i hi
    exact freeLastExtent_location hpos (by rw [hlast]; exact hi)
  have hext' : ∀ i, i < last → s'.pages.extents i = s.pages.extents i := hext
  have hbound : ∀ i, i < last → i < s.seg.head.nextents := by
    intro i hi
    rw [h.nextents]
    omega
  have hblocks : s'.seg.head.nblocks = start := hb
  have hn' : s'.pages.nextents = last := hn
  have hb' : s'.pages.nblocks = start := hb
  -- a block in front of the last extent lies in one that stays
  have hloc : ∀ k, k < start → s'.pages.location k = s.pages.location k := by
    intro k hk
    obtain ⟨i, o, hi, rfl, ho⟩ := h.plain.block (show k < logicStart false s.pages.nextents from
      hk.trans_le (by
        rw [show s.pages.nextents = last + 1 from h.nextents]
        exact logicStart_mono false (Nat.le_succ _) (hmax.trans (maxExtents_le false))))
    have hil : i < last := by
      have hi' : i < last + 1 := by
        rw [← h.nextents]
        exact hi
      by_contra hge
      have : i = last := by omega
      subst this
      omega
    exact location_congr h.plain hi ho (hext i hil)
  have hread : ∀ k, k < start → s'.pages.read k = p.read k := by
    intro k hk
    unfold SegPages.read
    rw [hloc k hk, hmap.location]
    rfl
  have hstart : start ≤ s.seg.head.nblocks := h.nblocks_ge
  refine ⟨hn, by have := h.le; omega, h.le_max, ?_, ?_, ?_, ?_, ?_, .inr hb, ?_, ?_, ?_, h.egDfExists⟩
  · intro i hi
    rw [← h.location i (by omega)]
    exact hext i hi
  · intro i hi
    rw [← h.given i (by omega)]
    exact freeLastExtent_freedWith hpos (by rw [hlast]; exact hi)
  · refine ⟨?_, ?_, ?_, ?_, ?_, ?_⟩
    · rw [hn']
      omega
    · rw [hn', hb']
    · intro i hi
      rw [hn'] at hi
      rw [hext' i hi]
      exact h.plain.extent_end i (hbound i hi)
    · intro i j hi hj
      rw [hn'] at hi hj
      rw [hext' i hi, hext' j hj]
      exact h.plain.extents_apart i j (hbound i hi) (hbound j hj)
    · intro k hk b hkb
      rw [hb'] at hk
      rw [hloc k hk]
      exact (hbuf k hk b hkb).1
    · intro k hk b hkb
      rw [hb'] at hk
      rw [hloc k hk]
      exact (hbuf k hk b hkb).2
  · rw [hblocks]
    exact logicStart_mono false (Nat.sub_le _ _) (by
      have := maxExtents_le false
      omega)
  · rw [hblocks]
    exact hstart.trans h.nblocks_le
  · refine List.Perm.trans ?_ h.rows
    rw [rowPages_eq, rowPages_eq s, hblocks]
    refine List.Perm.trans (List.Perm.of_eq ?_) hrows
    apply usedIn_congr
    intro j hj
    exact hread (0 + j) (by rw [Nat.zero_add]; exact hj)
  · show s.freed ++ freedWith s.seg (s.seg.head.nextents - 1) = _
    rw [hlast, h.freed, h.given last (Nat.lt_succ_self _), List.append_assoc,
      ← freedFrom_succ (Nat.lt_of_succ_le h.le)]
  · intro w hw
    show (freeLastExtent s.seg).1.head.words w = _
    have hmax₀ : last < s₀.seg.head.nextents := Nat.lt_of_succ_le h.le
    rw [freeLastExtent_words hpos, hlast, Function.update_apply, h.stray w hw]
    exact (strayWord_step hw hmax₀ h.le_max).symm

/-! ## One round -/

/-- Whatever the block count read at the beginning lets the test look at is still there. -/
theorem At.testable (h : At s₀ s (last + 1)) {e : Nat} (he : e ≤ last) :
    s.pages.Testable s₀.seg.head.nblocks e := by
  intro j hj hlt
  show logicStart false e + j < s.seg.head.nblocks
  rcases h.nblocks with heq | heq
  · rw [heq]
    exact hlt
  have hmax : last + 1 ≤ lastExtent false := h.le.trans (h.le_max.trans (maxExtents_le false))
  rw [heq]
  exact (Nat.add_lt_add_left hj _).trans_le (logicStart_add_le false (Nat.lt_succ_of_le he) hmax)

/-- The blocks of the last extent are in the segment as far as it was filled. -/
theorem At.last_size (h : At s₀ s (last + 1)) :
    s.seg.head.nblocks ≤ logicStart false last + extentSizeByCount last := by
  have hle : s.seg.head.nblocks ≤ logicStart false s.seg.head.nextents := h.plain.nblocks_le
  have hmax : last + 1 ≤ lastExtent false := h.le.trans (h.le_max.trans (maxExtents_le false))
  rw [h.nextents, logicStart_succ false (by omega), logicSize_plain] at hle
  exact hle

/-- An extent without used pages is taken off. -/
theorem At.dropUnused {p : SegPages (RowPage β)} (h : At s₀ s (last + 1))
    (hp : SegPages.Same s.pages p)
    (hunused : s.pages.Unused segPageInUse s₀.seg.head.nblocks last) :
    At s₀ (s.withPages p).dropLastExtent last := by
  set start := logicStart false last
  have hstart : start ≤ s.seg.head.nblocks := h.nblocks_ge
  refine h.dropLast hp.map ?_ ?_
  · intro k hk b hb
    have hkp : k < p.nblocks := by
      rw [hp.map.nblocks]
      exact hk.trans_le hstart
    rw [← hp.map.location k]
    exact ⟨hp.plain.located k hkp b hb, hp.plain.clean k hkp b hb⟩
  · have hsplit : s.seg.head.nblocks =
        start + (s.seg.head.nblocks - start) := by omega
    have htail : usedIn segPageInUse s.pages.read (0 + start)
        (s.seg.head.nblocks - start) = [] := by
      apply usedIn_nil
      intro j hj
      have hsize := h.last_size
      have hle := h.nblocks_le
      rw [Nat.zero_add]
      exact hunused j (by omega) (by omega)
    rw [hsplit, usedIn_add, htail, List.append_nil]
    apply List.Perm.of_eq
    apply usedIn_congr
    intro j hj
    exact hp.read (0 + j) (show 0 + j < s.seg.head.nblocks by omega)

/-- An extent with used pages is copied over one without, and taken off. -/
theorem At.replace {c : Nat} (h : At s₀ s (last + 1)) (hc : c < last)
    (hsize : extentSizeByCount c = extentSizeByCount last)
    (hunused : s.pages.Unused segPageInUse s₀.seg.head.nblocks c) :
    ∃ s', s.segExtentReplace last c = some s' ∧ At s₀ s' last := by
  have hlast : s.seg.head.nextents - 1 = last := by
    rw [h.nextents]
    rfl
  have hstart : logicStart false last ≤ s.seg.head.nblocks := h.nblocks_ge
  have hmax : last + 1 ≤ lastExtent false := h.le.trans (h.le_max.trans (maxExtents_le false))
  have hcend : logicStart false c + extentSizeByCount last ≤ logicStart false last := by
    rw [← hsize]
    exact logicStart_add_le false hc (by omega)
  obtain ⟨s₂, s₃, hcopy, rfl, hmap, hk⟩ := h.plain.copyOver h.nextents hc hsize hstart
  refine ⟨_, ?_, h.dropLast hmap (fun k hlt => (hk k hlt).2) ?_⟩
  · unfold segExtentReplace
    rw [if_neg (not_not.mpr hlast), ← logicStart_plain, ← logicStart_plain]
    exact congrArg (Option.map _) hcopy
  · have hn : s.pages.nblocks = s.seg.head.nblocks := rfl
    refine usedIn_overwrite segPageInUse hcend hstart h.last_size ?_ ?_ ?_ ?_
    · intro j hj
      have hle := h.nblocks_le
      exact hunused j (by rw [hsize]; exact hj) (by omega)
    · intro j hj
      have hlt := h.last_size
      rw [(hk _ (by omega)).1]
      unfold SegPages.overwritten
      rw [Nat.add_sub_cancel_left, if_pos ⟨by omega, by omega, by omega⟩]
    · intro j hge hj
      rw [(hk _ (by omega)).1]
      unfold SegPages.overwritten
      rw [Nat.add_sub_cancel_left, if_neg fun hcond => by omega]
    · intro k hlt hout
      rw [(hk k hlt).1]
      unfold SegPages.overwritten
      rw [if_neg fun hcond => by omega]

/-! ## The whole loop -/

/-- What a shrink leaves: the pages in use, the extents it keeps and what it gave back. -/
structure ShrinkKept (s s' : ShrinkState β) : Prop where
  rows : s'.rowPages.Perm s.rowPages
  first : 0 < s'.seg.head.nextents
  le : s'.seg.head.nextents ≤ s.seg.head.nextents
  location : ∀ i, i < s'.seg.head.nextents → segExtentLocation s'.seg i = segExtentLocation s.seg i
  nblocks_ge : logicStart false (s'.seg.head.nextents - 1) ≤ s'.seg.head.nblocks
  nblocks_le : s'.seg.head.nblocks ≤ logicStart false s'.seg.head.nextents
  freed : s'.freed = s.freed ++ s.freedFrom s'.seg.head.nextents

theorem At.kept (h : At s₀ s n) (hn : 0 < n) : ShrinkKept s₀ s where
  rows := h.rows
  first := by
    rw [h.nextents]
    exact hn
  le := by
    rw [h.nextents]
    exact h.le
  location := by
    rw [h.nextents]
    exact h.location
  nblocks_ge := by
    rw [h.nextents]
    exact h.nblocks_ge
  nblocks_le := h.plain.nblocks_le
  freed := by
    rw [h.nextents]
    exact h.freed

theorem At.shrinkLoop (hdf : ∀ i, i < s₀.seg.head.nextents →
    s₀.egDfExists (extentSizeByCount i) = true) (h : At s₀ s (last + 1)) :
    ∃ s' n, ShrinkState.shrinkLoop s₀.seg.head.nblocks last s = some s' ∧ 0 < n ∧ At s₀ s' n := by
  induction last generalizing s with
  | zero => exact ⟨s, 1, rfl, Nat.one_pos, h⟩
  | succ last ih =>
    have hexists : s.egDfExists (extentSizeByCount (last + 1)) = true := by
      rw [h.egDfExists]
      exact hdf _ (Nat.lt_of_succ_le h.le)
    obtain ⟨htest, hiff⟩ := h.plain.segExtentInUse segPageInUse (h.testable le_rfl)
    rw [ShrinkState.shrinkLoop, if_neg (by rw [hexists]; exact Bool.noConfusion)]
    dsimp only
    by_cases hused : (s.pages.segExtentInUse segPageInUse s₀.seg.head.nblocks (last + 1)).1 = true
    · rw [if_pos hused]
      have hAt := h.same htest
      generalize (s.pages.segExtentInUse segPageInUse s₀.seg.head.nblocks (last + 1)).2 = p
        at htest hAt
      have hpages := pages_withPages htest.map
      obtain ⟨hfind, hres⟩ := htest.plain.findFreeLoop segPageInUse
        (fun e he => hpages ▸ hAt.testable he) (show 1 + (last + 1) = last + 1 + 1 by omega)
      unfold SegPages.segFindFreeExtentForward
      generalize SegPages.findFreeLoop segPageInUse s₀.seg.head.nblocks (last + 1) (last + 1) 1 p
        = found at hfind hres
      have hfound := h.same (htest.trans hfind)
      by_cases hself : found.1 = last + 1
      · rw [if_neg (not_not.mpr hself)]
        exact ⟨_, _, rfl, Nat.succ_pos _, hfound⟩
      rw [if_pos hself]
      obtain ⟨-, hlt, hsize, hunused⟩ := hres.resolve_left hself
      have hunused' : (s.withPages found.2).pages.Unused segPageInUse s₀.seg.head.nblocks
          found.1 := by
        rw [pages_withPages (htest.trans hfind).map]
        intro j hj hjn
        rw [hfind.read _ ?_]
        · exact hunused j hj hjn
        · rw [htest.map.nblocks]
          exact h.testable (hlt.le) j hj hjn
      obtain ⟨s', hrep, hAt'⟩ := hfound.replace hlt hsize hunused'
      rw [hrep]
      exact ih hAt'
    · rw [if_neg hused, if_neg (by rw [h.nextents]; exact Nat.succ_ne_zero _)]
      exact ih (h.dropUnused htest (hiff.mp (Bool.eq_false_iff.mpr hused)))

end ShrinkState

end OpenGauss.Segment
