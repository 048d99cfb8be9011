import OpenGauss.Segment.Shrink

/-!
# Shrinking loses no row page

The loop over the extents keeps an invariant: the extents that are left are where
they were, the contents of the pages in use are those of the beginning in some
order, and the extents taken off have been given back once. It holds from any
segment with at least one extent; with none the loop counter wraps.
-/

namespace OpenGauss.Segment

open SegPages (findFreeLoop)

namespace SegPages

variable {α : Type} {s : SegPages α}

/-! ## Finding an extent to copy to -/

/-- All tested pages of an extent are unused. -/
def Unused (inUse : α → Bool) (nblocks : Nat) (s : SegPages α) (extId : Nat) : Prop :=
  ∀ j, j < extentSizeByCount extId → logicStart false extId + j < nblocks →
    inUse (s.read (logicStart false extId + j)) = false

/-- The blocks of an extent that the page test may look at are blocks of the segment. -/
def Testable (nblocks : Nat) (s : SegPages α) (extId : Nat) : Prop :=
  ∀ j, j < extentSizeByCount extId → logicStart false extId + j < nblocks →
    logicStart false extId + j < s.nblocks

variable {nblocks extId : Nat}

theorem Plain.segExtentInUse (inUse : α → Bool) (h : s.Plain)
    (hin : s.Testable nblocks extId) :
    Same s (s.segExtentInUse inUse nblocks extId).2 ∧
      ((s.segExtentInUse inUse nblocks extId).1 = false ↔ s.Unused inUse nblocks extId) := by
  have hin' : ∀ j, 0 ≤ j → j < 0 + extentSizeByCount extId →
      logicStart false extId + j < nblocks → logicStart false extId + j < s.nblocks :=
    fun j _ hj hlt => hin j (by omega) hlt
  obtain ⟨hsame, hiff⟩ := h.inUseLoop inUse nblocks (logicStart false extId) hin'
  unfold SegPages.segExtentInUse
  rw [← logicStart_plain]
  refine ⟨hsame, ?_⟩
  rw [← Bool.not_eq_true]
  refine (not_congr hiff).trans ?_
  constructor
  · intro hnone j hj hlt
    rw [← Bool.not_eq_true]
    intro hused
    exact hnone ⟨j, Nat.zero_le _, by omega, hlt, hused⟩
  · rintro hall ⟨j, -, hj, hlt, hused⟩
    rw [hall j (by omega) hlt] at hused
    cases hused

theorem Same.unused {s₁ : SegPages α} {inUse : α → Bool} (h : Same s s₁)
    (hin : s.Testable nblocks extId) (hu : s₁.Unused inUse nblocks extId) :
    s.Unused inUse nblocks extId := by
  intro j hj hlt
  rw [← h.read _ (hin j hj hlt)]
  exact hu j hj hlt

/-- The extent found is an earlier one of the same size without used pages. -/
theorem Plain.findFreeLoop (inUse : α → Bool) {lastExt left : Nat} (h : s.Plain)
    (hin : ∀ e, e ≤ lastExt → s.Testable nblocks e) (hend : extId + left = lastExt + 1) :
    Same s (findFreeLoop inUse nblocks lastExt left extId s).2 ∧
      ((findFreeLoop inUse nblocks lastExt left extId s).1 = lastExt ∨
        extId ≤ (findFreeLoop inUse nblocks lastExt left extId s).1 ∧
        (findFreeLoop inUse nblocks lastExt left extId s).1 < lastExt ∧
        extentSizeByCount (findFreeLoop inUse nblocks lastExt left extId s).1 =
          extentSizeByCount lastExt ∧
        s.Unused inUse nblocks (findFreeLoop inUse nblocks lastExt left extId s).1) := by
  induction left generalizing extId s with
  | zero => exact ⟨Same.refl h, .inl rfl⟩
  | succ left ih =>
    rw [findFreeLoop]
    by_cases hsize : extentSizeByCount extId ≠ extentSizeByCount lastExt
    · rw [if_pos hsize]
      obtain ⟨hsame, hres⟩ := ih h hin (show extId + 1 + left = lastExt + 1 by omega)
      exact ⟨hsame, hres.imp_right fun hr => ⟨by omega, hr.2⟩⟩
    rw [if_neg hsize]
    have hle : extId ≤ lastExt := by omega
    obtain ⟨htest, hiff⟩ := h.segExtentInUse inUse (hin extId hle)
    by_cases hused : (s.segExtentInUse inUse nblocks extId).1 = true
    · rw [if_pos hused]
      obtain ⟨hsame, hres⟩ := ih htest.plain (by
        intro e he j hj hlt
        rw [htest.map.nblocks]
        exact hin e he j hj hlt) (show extId + 1 + left = lastExt + 1 by omega)
      refine ⟨htest.trans hsame, hres.imp_right fun hr => ⟨by omega, hr.2.1, hr.2.2.1, ?_⟩⟩
      exact htest.unused (hin _ (by omega)) hr.2.2.2
    · rw [if_neg hused]
      refine ⟨htest, ?_⟩
      by_cases hlast : extId = lastExt
      · exact .inl hlast
      · exact .inr ⟨le_rfl, by omega, not_not.mp hsize, hiff.mp (Bool.eq_false_iff.mpr hused)⟩

/-! ## Copying an extent over another -/

theorem evictExtentBuffers_clean {start size : Nat}
    (hclean : ∀ j, j < size → start + j < s.nblocks → ∀ b, s.buffers (start + j) = some b →
      b.dirty = false) :
    SameMap s (s.evictExtentBuffers start size) ∧
      (s.evictExtentBuffers start size).disk = s.disk ∧
      (∀ k, (s.evictExtentBuffers start size).buffers k = s.buffers k ∨
        (s.evictExtentBuffers start size).buffers k = none) ∧
      ∀ k, (∀ j, j < size → k ≠ start + j) →
        (s.evictExtentBuffers start size).buffers k = s.buffers k := by
  unfold evictExtentBuffers
  induction size with
  | zero => exact ⟨SameMap.refl s, rfl, fun _ => .inl rfl, fun _ _ => rfl⟩
  | succ size ih =>
    rw [List.range_succ, List.foldl_append, List.foldl_cons, List.foldl_nil]
    obtain ⟨hmap, hdisk, hbuf, hkeep⟩ := ih fun j hj => hclean j (by omega)
    generalize (List.range size).foldl (fun s i => if s.nblocks ≤ start + i then s
      else s.evictBuffer (start + i)) s = s₁ at hmap hdisk hbuf hkeep
    split
    case isTrue => exact ⟨hmap, hdisk, hbuf, fun k hk => hkeep k fun j hj => hk j (by omega)⟩
    case isFalse hmore =>
      unfold evictBuffer
      cases hb : s₁.buffers (start + size) with
      | none => exact ⟨hmap, hdisk, hbuf, fun k hk => hkeep k fun j hj => hk j (by omega)⟩
      | some b =>
        have hb' : s.buffers (start + size) = some b := by
          rcases hbuf (start + size) with heq | hnone
          · rw [← heq]; exact hb
          · rw [hb] at hnone; cases hnone
        have hn : s₁.nblocks = s.nblocks := hmap.nblocks
        have hfalse := hclean size (by omega) (by omega) b hb'
        dsimp only
        rw [hfalse]
        refine ⟨⟨hmap.nextents, hmap.nblocks, hmap.extents⟩, hdisk, ?_, ?_⟩
        · intro k
          by_cases hk : k = start + size
          · rw [hk, Function.update_self]
            exact .inr rfl
          · rw [Function.update_of_ne hk]
            exact hbuf k
        · intro k hk
          rw [Function.update_of_ne (hk size (by omega))]
          exact hkeep k fun j hj => hk j (by omega)

/-- What the blocks before the last extent read as after it has been copied over extent `c`. -/
def overwritten (s : SegPages α) (c last : Nat) (k : Nat) : α :=
  if logicStart false c ≤ k ∧ k < logicStart false c + extentSizeByCount last ∧
      logicStart false last + (k - logicStart false c) < s.nblocks then
    s.read (logicStart false last + (k - logicStart false c))
  else s.read k

/-- The last extent of `s` has been copied over extent `c`, whose buffers were evicted in `s₁`, and
its own buffers are gone in `s₃`. -/
structure Replaced (s s₁ s₃ : SegPages α) (c last : Nat) : Prop where
  same : Same s s₁
  evicted : ∀ j, j < extentSizeByCount last → logicStart false c + j < s.nblocks →
    s₁.buffers (logicStart false c + j) = none
  map : SameMap s s₃
  buffers : ∀ k, k < logicStart false last → s₃.buffers k = s₁.buffers k
  copied : ∀ j, j < extentSizeByCount last → logicStart false last + j < s.nblocks →
    s₃.disk (extentSizeByCount last) (s.extents c + j) = s.read (logicStart false last + j)
  kept : ∀ f b, (∀ j, j < extentSizeByCount last → f = extentSizeByCount last →
      ¬ (b = s.extents c + j ∧ logicStart false last + j < s.nblocks) ∧ b ≠ s.extents last + j) →
    s₃.disk f b = s₁.disk f b

section CopyOver

variable {c last : Nat} (h : s.Plain) (hlast : s.nextents = last + 1) (hc : c < last)
  (hsize : extentSizeByCount c = extentSizeByCount last)

include h hlast hc hsize

/-- The page work of `seg_extent_replace`: buffers out, copy, buffers out. -/
theorem Plain.replaced :
    ∃ s₁ s₂ s₃, (s.evictExtentBuffers (logicStart false c) (extentSizeByCount last)).copyExtent
        (extentSizeByCount last) (logicStart false last) (s.extents last) (s.extents c) = some s₂ ∧
      s₂.evictExtentBuffers (logicStart false last) (extentSizeByCount last) = s₃ ∧
      Replaced s s₁ s₃ c last := by
  have hli : last < s.nextents := by omega
  obtain ⟨hsame, hnone, -⟩ := h.evictExtentBuffers (logicStart false c) (extentSizeByCount last)
  generalize s.evictExtentBuffers (logicStart false c) (extentSizeByCount last) = s₁ at hsame hnone ⊢
  have hn₁ : s₁.nblocks = s.nblocks := hsame.map.nblocks
  have hplace : ∀ j, j < extentSizeByCount last → s₁.location (logicStart false last + j) =
      (extentSizeByCount last, s.extents last + j) := by
    intro j hj
    rw [hsame.map.location, h.location_eq hli hj]
  have halign : s₁.Aligned (extentSizeByCount last) (logicStart false last) (s.extents last) 0
      (0 + extentSizeByCount last) := by
    intro j _ hj hlt b hb
    have hloc := hsame.plain.located _ hlt b hb
    rw [hplace j (by omega)] at hloc
    exact ⟨congrArg Prod.fst hloc, congrArg Prod.snd hloc⟩
  have hapart := h.extents_apart last c hli (by omega) (by omega) hsize.symm
  obtain ⟨s₂, hcopy, hcopied, hdisk⟩ := copyLoop_disk
    (show s.extents last + (0 + _) ≤ s.extents c ∨ s.extents c + (0 + _) ≤ s.extents last by omega)
    halign
  obtain ⟨hmap₂, hbuf₂, hother₂⟩ := copyLoop_buffers hcopy
  -- The pages copied have been flushed, so that nothing is written when their buffers go.
  have hclean₂ : ∀ j, j < extentSizeByCount last → logicStart false last + j < s₂.nblocks →
      ∀ b, s₂.buffers (logicStart false last + j) = some b → b.dirty = false := by
    intro j hj hlt b hb
    rw [hmap₂.nblocks] at hlt
    rw [hbuf₂ j (Nat.zero_le _) (by omega) hlt] at hb
    obtain ⟨b₀, -, rfl⟩ := Option.map_eq_some_iff.mp hb
    rfl
  obtain ⟨hmap₃, hdisk₃, -, hkeep₃⟩ := evictExtentBuffers_clean hclean₂
  refine ⟨s₁, s₂, _, hcopy, rfl, hsame, hnone, hsame.map.trans (hmap₂.trans hmap₃), ?_, ?_, ?_⟩
  · intro k hk
    rw [hkeep₃ k fun j _ => by omega, hother₂ k fun j _ _ => by omega]
  · intro j hj hlt
    rw [hdisk₃, hcopied j (Nat.zero_le _) (by omega) (by omega), ← hsame.read _ hlt]
    unfold source read
    rw [hplace j hj]
    cases s₁.buffers (logicStart false last + j) <;> rfl
  · intro f b hfb
    rw [hdisk₃, hdisk f b fun j _ hj hf => by rw [hn₁]; exact hfb j (by omega) hf]

theorem Replaced.copied_block {s₁ s₃ : SegPages α} {o : Nat} (ho : o < extentSizeByCount last)
    (hn : logicStart false c + o < s.nblocks) (hr : Replaced s s₁ s₃ c last)
    (hend : logicStart false c + extentSizeByCount last ≤ logicStart false last) :
    s₃.buffers (logicStart false c + o) = none ∧
      s₃.read (logicStart false c + o) = s.overwritten c last (logicStart false c + o) := by
  have hci : c < s.nextents := by omega
  have hsame := hr.same
  have hb₁ := hr.evicted o ho hn
  have hb₃ := (hr.buffers _ (by omega)).trans hb₁
  have hloc := h.location_eq hci (show o < extentSizeByCount c by omega)
  rw [hsize] at hloc
  refine ⟨hb₃, ?_⟩
  unfold overwritten
  rw [Nat.add_sub_cancel_left]
  by_cases hlt : logicStart false last + o < s.nblocks
  · rw [if_pos ⟨by omega, by omega, hlt⟩, ← hr.copied o ho hlt]
    unfold read
    rw [hb₃, hr.map.location, hloc]
  · rw [if_neg fun hcond => hlt hcond.2.2, ← hsame.read _ hn]
    unfold read
    rw [hb₃, hb₁, hr.map.location, hsame.map.location, hloc]
    refine hr.kept _ _ fun j hj _ => ⟨?_, ?_⟩
    · rintro ⟨hblk, hjn⟩
      dsimp only at hblk
      omega
    · have := h.extents_apart last c (by omega) hci (by omega) hsize.symm
      dsimp only
      omega

theorem Replaced.other_block {s₁ s₃ : SegPages α} {i o : Nat} (hr : Replaced s s₁ s₃ c last)
    (hi : i < last) (hic : i ≠ c) (ho : o < extentSizeByCount i) :
    s₃.disk (s.location (logicStart false i + o)).1 (s.location (logicStart false i + o)).2 =
      s₁.disk (s.location (logicStart false i + o)).1 (s.location (logicStart false i + o)).2 := by
  rw [h.location_eq (by omega) ho]
  refine hr.kept _ _ fun j hj hs => ?_
  have h1 := h.extents_apart i last (by omega) (by omega) (by omega) hs
  have h2 := h.extents_apart i c (by omega) (by omega) hic (hs.trans hsize.symm)
  dsimp only
  omega

/-- After the page work every block in front of the last extent reads as it should, and its buffer,
if any, is in order. -/
theorem Plain.copyOver (hfull : logicStart false last ≤ s.nblocks) :
    ∃ s₂ s₃, (s.evictExtentBuffers (logicStart false c) (extentSizeByCount last)).copyExtent
        (extentSizeByCount last) (logicStart false last) (s.extents last) (s.extents c) = some s₂ ∧
      s₂.evictExtentBuffers (logicStart false last) (extentSizeByCount last) = s₃ ∧ SameMap s s₃ ∧
      ∀ k, k < logicStart false last → s₃.read k = s.overwritten c last k ∧
        ∀ b, s₃.buffers k = some b → (b.segFileno, b.segBlockno) = s.location k ∧
          (b.dirty = false → b.content = s₃.disk (s.location k).1 (s.location k).2) := by
  have hmax : last + 1 ≤ lastExtent false :=
    hlast ▸ h.nextents_le.trans (maxExtents_le false)
  have hend : logicStart false c + extentSizeByCount last ≤ logicStart false last :=
    hsize ▸ logicStart_add_le false hc (by omega)
  obtain ⟨s₁, s₂, s₃, hcopy, hevict, hr⟩ := h.replaced hlast hc hsize
  refine ⟨s₂, s₃, hcopy, hevict, hr.map, fun k hk => ?_⟩
  obtain ⟨i, o, hi, rfl, ho⟩ := h.block (show k < logicStart false s.nextents from
    (hk.trans_le hfull).trans_le h.nblocks_le)
  by_cases hic : i = c
  · subst hic
    obtain ⟨hnone, hread⟩ := hr.copied_block h hlast hc hsize (hsize ▸ ho) (by omega) hend
    refine ⟨hread, fun b hb => ?_⟩
    rw [hnone] at hb
    cases hb
  have hil : i < last := by
    by_contra hge
    obtain rfl : i = last := by omega
    omega
  have hdisk := hr.other_block h hlast hc hsize hil hic ho
  have hsame := hr.same
  have hbuffers := hr.buffers _ hk
  constructor
  · -- The block is in no other extent than its own.
    have houtside : ¬ (logicStart false c ≤ logicStart false i + o ∧
        logicStart false i + o < logicStart false c + extentSizeByCount last ∧
        logicStart false last + (logicStart false i + o - logicStart false c) < s.nblocks) := by
      rintro ⟨hlo, hhi, -⟩
      rcases Nat.lt_or_gt_of_ne hic with hlt | hgt
      · have := logicStart_add_le false hlt (by omega)
        rw [logicSize_plain] at this
        omega
      · have := logicStart_add_le false hgt (by omega)
        rw [logicSize_plain] at this
        omega
    unfold overwritten
    rw [if_neg houtside, ← hsame.read _ (by omega)]
    unfold read
    rw [hbuffers, hr.map.location, hsame.map.location, hdisk]
  · intro b hb
    rw [hbuffers] at hb
    have hn₁ : logicStart false i + o < s₁.nblocks := by
      rw [hsame.map.nblocks]
      omega
    have hloc := hsame.plain.located _ hn₁ b hb
    have hclean := hsame.plain.clean _ hn₁ b hb
    rw [hsame.map.location] at hloc hclean
    exact ⟨hloc, fun hdirty => (hclean hdirty).trans hdisk.symm⟩

end CopyOver

end SegPages

/-! ## Counting the pages in use -/

section RowPages

variable {α : Type} (inUse : α → Bool)

/-- The pages in use among `len` blocks from `lo` on. -/
def usedIn (f : Nat → α) (lo len : Nat) : List α :=
  ((List.range len).map fun j => f (lo + j)).filter inUse

theorem usedIn_add (f : Nat → α) (lo a b : Nat) :
    usedIn inUse f lo (a + b) = usedIn inUse f lo a ++ usedIn inUse f (lo + a) b := by
  unfold usedIn
  rw [List.range_add, List.map_append, List.filter_append, List.map_map]
  congr 3
  funext j
  show f (lo + (a + j)) = f (lo + a + j)
  rw [Nat.add_assoc]

variable {f : Nat → α}

theorem usedIn_congr {g : Nat → α} {lo lo' len : Nat}
    (h : ∀ j, j < len → f (lo + j) = g (lo' + j)) :
    usedIn inUse f lo len = usedIn inUse g lo' len := by
  unfold usedIn
  congr 1
  apply List.map_congr_left
  intro j hj
  exact h j (List.mem_range.mp hj)

theorem usedIn_nil {lo len : Nat} (h : ∀ j, j < len → inUse (f (lo + j)) = false) :
    usedIn inUse f lo len = [] := by
  unfold usedIn
  rw [List.filter_eq_nil_iff]
  intro p hp
  obtain ⟨j, hj, rfl⟩ := List.mem_map.mp hp
  rw [h j (List.mem_range.mp hj)]
  exact Bool.false_ne_true

/-- The tail copied over an unused part: the pages in use are the same in another order. -/
theorem usedIn_overwrite {g : Nat → α} {cstart size start n : Nat} (hc : cstart + size ≤ start)
    (hn : start ≤ n) (hsize : n ≤ start + size)
    (hunused : ∀ j, j < size → inUse (f (cstart + j)) = false)
    (hcopied : ∀ j, j < n - start → g (cstart + j) = f (start + j))
    (hrest : ∀ j, n - start ≤ j → j < size → g (cstart + j) = f (cstart + j))
    (houtside : ∀ k, k < start → k < cstart ∨ cstart + size ≤ k → g k = f k) :
    (usedIn inUse g 0 start).Perm (usedIn inUse f 0 n) := by
  have hstart : start = cstart + (size + (start - cstart - size)) := by omega
  have hn' : n = cstart + (size + (start - cstart - size)) + (n - start) := by omega
  have hmid : size = (n - start) + (size - (n - start)) := by omega
  have hg : usedIn inUse g 0 start = usedIn inUse f 0 cstart ++
      (usedIn inUse f start (n - start) ++
        usedIn inUse f (cstart + size) (start - cstart - size)) := by
    rw [hstart, usedIn_add, usedIn_add, ← hstart, Nat.zero_add]
    congr 1
    · exact usedIn_congr inUse fun j hj => houtside (0 + j) (by omega) (.inl (by omega))
    congr 1
    · nth_rewrite 1 [hmid]
      rw [usedIn_add, usedIn_congr inUse hcopied]
      have hempty : usedIn inUse g (cstart + (n - start)) (size - (n - start)) = [] := by
        apply usedIn_nil
        intro j hj
        rw [Nat.add_assoc, hrest _ (by omega) (by omega)]
        exact hunused _ (by omega)
      rw [hempty, List.append_nil]
    · exact usedIn_congr inUse fun j hj => houtside _ (by omega) (.inr (by omega))
  have hf : usedIn inUse f 0 n = usedIn inUse f 0 cstart ++
      (usedIn inUse f (cstart + size) (start - cstart - size) ++
        usedIn inUse f start (n - start)) := by
    have hempty : usedIn inUse f (0 + cstart) size = [] := by
      apply usedIn_nil
      intro j hj
      rw [Nat.zero_add]
      exact hunused j hj
    nth_rewrite 1 [hn']
    rw [usedIn_add, usedIn_add, usedIn_add, hempty, List.nil_append, ← hstart, Nat.zero_add,
      Nat.zero_add, List.append_assoc]
  rw [hg, hf]
  exact List.Perm.append_left _ List.perm_append_comm

end RowPages

end OpenGauss.Segment
