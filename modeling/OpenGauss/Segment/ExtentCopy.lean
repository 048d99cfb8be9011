import OpenGauss.Segment.AddressingSound

/-!
# Copying the pages of an extent

The pages of a segment are in the files of the extent groups, one file for each
extent size, and some of them in buffers as well, possibly newer. Copying an
extent takes each page from its buffer, if it has one, and from the file otherwise.
The segment is a plain one; compressed extents, whose blocks go through address
pages, are not modelled.
-/

namespace OpenGauss.Segment

/-- A page in a buffer and where it will be written: file and block. -/
structure CachedPage (α : Type) where
  content : α
  segFileno : Nat
  segBlockno : Nat
  dirty : Bool

/-- The pages of a plain segment. Files are named by the size of their extents. -/
structure SegPages (α : Type) where
  nextents : Nat
  nblocks : Nat
  extents : Nat → Nat
  disk : Nat → Nat → α
  buffers : Nat → Option (CachedPage α)

def blockLocation (extents : Nat → Nat) (logic : Nat) : Nat × Nat :=
  ((segExtentPos false logic).extentSize,
    segCfsLogicToPhysicMapping false logic (extents (segExtentPos false logic).extentId)
      (segExtentPos false logic).offset)

/-- The position of a block given by its extent and its offset in it. -/
theorem segExtentPos_offset (compress : Bool) {id offset : Nat} (hid : id < maxExtents)
    (hoff : offset < logicSize compress id) :
    segExtentPos compress (logicStart compress id + offset) =
      ⟨id, offset, extentSizeByCount id⟩ := by
  have hmax := maxExtents_le compress
  have hsucc := logicStart_succ compress (show id < lastExtent compress by omega)
  have h32 := logicStart_lt compress (show id + 1 ≤ maxExtents by omega)
  obtain ⟨id', offset', hpos, hstart, hoff', hlast⟩ := segExtentPos_spec compress
    (show logicStart compress id + offset < 2 ^ 32 by omega)
  have hsame : id' = id := by
    rcases Nat.lt_trichotomy id' id with hlt | heq | hgt
    · have hnext := logicStart_add_le compress hlt (by omega)
      omega
    · exact heq
    · have hnext := logicStart_add_le compress hgt hlast
      omega
  subst hsame
  have : offset' = offset := by omega
  rw [hpos, this]

def setBlock {α : Type} (disk : Nat → Nat → α) (file block : Nat) (content : α) : Nat → Nat → α :=
  fun f b => if f = file ∧ b = block then content else disk f b

namespace SegPages

variable {α : Type}

variable (s : SegPages α)

def location (logic : Nat) : Nat × Nat := blockLocation s.extents logic

/-- What a logical block reads as: its buffer, or the block the map leads to. -/
def read (logic : Nat) : α :=
  match s.buffers logic with
  | some b => b.content
  | none => s.disk (s.location logic).1 (s.location logic).2

section Copy

variable (size logicStartBlocknum phyFromExtent phyToExtent : Nat)

/-- One round of the loop of `copy_extent`. A dirty page is flushed to its old place first; the
check of `seg_fileno` is a panic. -/
def copyBlock (i : Nat) : Option (SegPages α) :=
  match s.buffers (logicStartBlocknum + i) with
  | some b =>
    let flushed := if b.dirty then setBlock s.disk b.segFileno b.segBlockno b.content else s.disk
    if b.segFileno = size then
      some
        { s with
          disk := setBlock flushed size (phyToExtent + i) b.content
          buffers := Function.update s.buffers (logicStartBlocknum + i)
            (some { b with segBlockno := phyToExtent + i, dirty := false }) }
    else none
  | none =>
    some { s with disk := setBlock s.disk size (phyToExtent + i) (s.disk size (phyFromExtent + i)) }

/-- The loop of `copy_extent` from offset `i` on, with `left` offsets to go. -/
def copyLoop : Nat → Nat → SegPages α → Option (SegPages α)
  | 0, _, s => some s
  | left + 1, i, s =>
    if s.nblocks ≤ logicStartBlocknum + i then some s
    else (s.copyBlock size logicStartBlocknum phyFromExtent phyToExtent i).bind
      (copyLoop left (i + 1))

/-- `copy_extent`. -/
def copyExtent : Option (SegPages α) :=
  copyLoop size logicStartBlocknum phyFromExtent phyToExtent size 0 s

/-! ## What a copy does -/

/-- A buffer after its page has been copied. -/
def retarget (i : Nat) (b : CachedPage α) : CachedPage α :=
  { b with segBlockno := phyToExtent + i, dirty := false }

/-- The parts of the state the copy leaves alone. -/
structure SameMap (s s' : SegPages α) : Prop where
  nextents : s'.nextents = s.nextents
  nblocks : s'.nblocks = s.nblocks
  extents : s'.extents = s.extents

variable {size logicStartBlocknum phyFromExtent phyToExtent}

theorem SameMap.refl : SameMap s s := ⟨rfl, rfl, rfl⟩

theorem SameMap.trans {s s₁ s₂ : SegPages α} (h : SameMap s s₁) (h' : SameMap s₁ s₂) :
    SameMap s s₂ :=
  ⟨h'.nextents.trans h.nextents, h'.nblocks.trans h.nblocks, h'.extents.trans h.extents⟩

theorem SameMap.location {s s₁ : SegPages α} (h : SameMap s s₁) (k : Nat) :
    s₁.location k = s.location k := by
  unfold SegPages.location
  rw [h.extents]

/-- What one round does to the buffers. -/
theorem copyBlock_buffers {s s' : SegPages α} {i : Nat}
    (h : s.copyBlock size logicStartBlocknum phyFromExtent phyToExtent i = some s') :
    SameMap s s' ∧ ∀ k, s'.buffers k = if k = logicStartBlocknum + i then
        (s.buffers k).map (retarget phyToExtent i) else s.buffers k := by
  unfold copyBlock at h
  cases hb : s.buffers (logicStartBlocknum + i) with
  | none =>
    rw [hb] at h
    cases h
    refine ⟨⟨rfl, rfl, rfl⟩, fun k => ?_⟩
    show s.buffers k = _
    split
    case isTrue hk => rw [hk, hb]; rfl
    case isFalse => rfl
  | some b =>
    rw [hb] at h
    dsimp only at h
    split at h
    case isFalse => cases h
    case isTrue hfile =>
      cases h
      refine ⟨⟨rfl, rfl, rfl⟩, fun k => ?_⟩
      show Function.update s.buffers (logicStartBlocknum + i) _ k = _
      by_cases hk : k = logicStartBlocknum + i
      · rw [if_pos hk, hk, Function.update_self, hb]
        rfl
      · rw [if_neg hk, Function.update_of_ne hk]

/-- What the loop does to the buffers: the copied ones point to the new extent. -/
theorem copyLoop_buffers {left i : Nat} {s s' : SegPages α}
    (h : copyLoop size logicStartBlocknum phyFromExtent phyToExtent left i s = some s') :
    SameMap s s' ∧
      (∀ j, i ≤ j → j < i + left → logicStartBlocknum + j < s.nblocks →
        s'.buffers (logicStartBlocknum + j) =
          (s.buffers (logicStartBlocknum + j)).map (retarget phyToExtent j)) ∧
      ∀ k, (∀ j, i ≤ j → j < i + left → k ≠ logicStartBlocknum + j) →
        s'.buffers k = s.buffers k := by
  induction left generalizing i s with
  | zero =>
    obtain rfl := Option.some.inj h
    exact ⟨SameMap.refl s, fun j hlo hhi => by omega, fun k _ => rfl⟩
  | succ left ih =>
    rw [copyLoop] at h
    split at h
    case isTrue hend =>
      -- beyond `nblocks` nothing is copied
      obtain rfl := Option.some.inj h
      exact ⟨SameMap.refl s, fun j hlo _ hlt => by omega, fun k _ => rfl⟩
    case isFalse hmore =>
      obtain ⟨s₁, hstep, hrest⟩ := Option.bind_eq_some_iff.mp h
      obtain ⟨hmap, hbuf⟩ := copyBlock_buffers hstep
      obtain ⟨hmap', hbuf', hother⟩ := ih hrest
      refine ⟨hmap.trans hmap', ?_, ?_⟩
      · intro j hlo hhi hlt
        rcases hlo.eq_or_lt with rfl | hj
        · rw [hother _ fun j' hj' _ => by omega, hbuf, if_pos rfl]
        · rw [hbuf' j hj (by omega) (by rw [hmap.nblocks]; exact hlt), hbuf, if_neg (by omega)]
      · intro k hk
        rw [hother k fun j hlo hhi => hk j (by omega) (by omega), hbuf,
          if_neg (hk i le_rfl (by omega))]

/-- The content `copy_extent` takes for offset `j`. -/
def source (size logicStartBlocknum phyFromExtent j : Nat) : α :=
  (s.buffers (logicStartBlocknum + j)).elim (s.disk size (phyFromExtent + j)) CachedPage.content

/-- Every buffer looked up belongs to the block copied. -/
def Aligned (size logicStartBlocknum phyFromExtent i n : Nat) : Prop :=
  ∀ j, i ≤ j → j < n → logicStartBlocknum + j < s.nblocks →
    ∀ b, s.buffers (logicStartBlocknum + j) = some b →
      b.segFileno = size ∧ b.segBlockno = phyFromExtent + j

variable (size phyToExtent) in
/-- What one round does to the files, if the buffer belongs to the block. -/
theorem copyBlock_disk {s : SegPages α} {i : Nat}
    (halign : ∀ b, s.buffers (logicStartBlocknum + i) = some b →
      b.segFileno = size ∧ b.segBlockno = phyFromExtent + i) :
    ∃ s', s.copyBlock size logicStartBlocknum phyFromExtent phyToExtent i = some s' ∧
      s'.disk size (phyToExtent + i) = s.source size logicStartBlocknum phyFromExtent i ∧
      ∀ f b, ¬ (f = size ∧ b = phyToExtent + i) → ¬ (f = size ∧ b = phyFromExtent + i) →
        s'.disk f b = s.disk f b := by
  unfold copyBlock source
  cases hb : s.buffers (logicStartBlocknum + i) with
  | none => exact ⟨_, rfl, if_pos ⟨rfl, rfl⟩, fun f b hto _ => if_neg hto⟩
  | some b =>
    obtain ⟨hfile, hblock⟩ := halign b hb
    dsimp only
    rw [if_pos hfile]
    refine ⟨_, rfl, if_pos ⟨rfl, rfl⟩, ?_⟩
    intro f b' hto hfrom
    refine (if_neg hto).trans ?_
    split
    · exact if_neg fun h => hfrom ⟨h.1.trans hfile, h.2.trans hblock⟩
    · rfl

/-- What the loop does to the files: the blocks copied hold their sources, and nothing changes
outside the two extents. -/
theorem copyLoop_disk {left i : Nat} {s : SegPages α}
    (hapart : phyFromExtent + (i + left) ≤ phyToExtent ∨ phyToExtent + (i + left) ≤ phyFromExtent)
    (halign : s.Aligned size logicStartBlocknum phyFromExtent i (i + left)) :
    ∃ s', copyLoop size logicStartBlocknum phyFromExtent phyToExtent left i s = some s' ∧
      (∀ j, i ≤ j → j < i + left → logicStartBlocknum + j < s.nblocks →
        s'.disk size (phyToExtent + j) = s.source size logicStartBlocknum phyFromExtent j) ∧
      ∀ f b, (∀ j, i ≤ j → j < i + left → f = size →
          ¬ (b = phyToExtent + j ∧ logicStartBlocknum + j < s.nblocks) ∧ b ≠ phyFromExtent + j) →
        s'.disk f b = s.disk f b := by
  induction left generalizing i s with
  | zero => exact ⟨s, rfl, fun j hlo hhi => by omega, fun _ _ _ => rfl⟩
  | succ left ih =>
    rw [copyLoop]
    by_cases hend : s.nblocks ≤ logicStartBlocknum + i
    · rw [if_pos hend]
      exact ⟨s, rfl, fun j hlo _ hlt => by omega, fun _ _ _ => rfl⟩
    rw [if_neg hend]
    obtain ⟨s₁, hstep, hcopied, hsame⟩ := copyBlock_disk size phyToExtent
      (halign i le_rfl (by omega) (not_le.mp hend))
    obtain ⟨hmap, hbuf⟩ := copyBlock_buffers hstep
    have hn : s₁.nblocks = s.nblocks := hmap.nblocks
    have hlater : ∀ j, i < j → s₁.buffers (logicStartBlocknum + j) =
        s.buffers (logicStartBlocknum + j) := by
      intro j hj
      rw [hbuf, if_neg (by omega)]
    have halign₁ : s₁.Aligned size logicStartBlocknum phyFromExtent (i + 1) (i + 1 + left) := by
      intro j hlo hhi hlt b hb
      rw [hlater j hlo] at hb
      exact halign j (by omega) (by omega) (hn ▸ hlt) b hb
    obtain ⟨s', hrest, hcopied', hsame'⟩ := ih (by omega) halign₁
    rw [hn] at hcopied' hsame'
    refine ⟨s', by rw [hstep]; exact hrest, ?_, ?_⟩
    · intro j hlo hhi hlt
      rcases hlo.eq_or_lt with rfl | hj
      · -- later rounds write elsewhere
        rw [hsame' _ _ fun j' hj' hhi' _ => ⟨fun h => by omega, by omega⟩, hcopied]
      · rw [hcopied' j hj (by omega) hlt]
        unfold source
        rw [hlater j hj, hsame _ _ (fun h => by omega) fun h => by omega]
    · intro f b hfb
      rw [hsame' f b fun j hlo hhi hf => hfb j (by omega) (by omega) hf, hsame]
      · intro h
        exact (hfb i le_rfl (by omega) h.1).1 ⟨h.2, by omega⟩
      · intro h
        exact (hfb i le_rfl (by omega) h.1).2 h.2

end Copy

end SegPages

end OpenGauss.Segment
