import OpenGauss.Checkpoint.QueueInvariant
import OpenGauss.Lib.Update

/-!
# Steps of the dirty page queue

Each step keeps the invariant.
-/

namespace OpenGauss.Checkpoint

open Lib
open Function (update update_of_ne update_self)
open Queue (bufferAt)

variable {q q' : Queue}
variable {buffer : Nat}

theorem Base.lt_size (hb : Base q) {p : Nat} (h : p < q.tail) : p < q.head + q.size := by
  have := hb.room
  omega

theorem Base.slot_ne {β : Type} {f : Nat → β} {x : β} {loc p : Nat} (hb : Base q)
    (hl : q.head ≤ loc) (hl' : loc < q.tail) (h1 : q.head ≤ p) (h2 : p < q.head + q.size)
    (hne : p ≠ loc) : update f (loc % q.size) x (p % q.size) = f (p % q.size) := by
  rw [update_ring f x h1 h2 hl (hb.lt_size hl'), if_neg hne]

theorem Base.mono_of (hb : Base q) (h : ∀ p l, q'.Carries p l → q.Carries p l) :
    ∀ p l p' l', q'.Carries p l → q'.Carries p' l' → p < p' → l ≤ l' :=
  fun p l p' l' hc hc' => hb.mono p l p' l' (h p l hc) (h p' l' hc')

/-! ## Pushing -/

theorem reserve_cases (h : q.reserve buffer = some q') :
    buffer ≠ 0 ∧ q.pushing buffer = .idle ∧ q.bufRecLsn buffer = 0 ∧
      q.tail - q.head + 2 < q.size ∧
      q' = { q with
        tail := q.tail + 1
        pushing := update q.pushing buffer (.reserved q.tail q.recLsn) } := by
  unfold Queue.reserve at h
  split at h
  next hg =>
    cases h
    exact ⟨hg.1, hg.2.1, hg.2.2.1, hg.2.2.2, rfl⟩
  next => cases h

theorem Base.reserve (hb : Base q) (h : q.reserve buffer = some q') : Base q' := by
  obtain ⟨hne, hidle, hclean, hroom, rfl⟩ := reserve_cases h
  have hle := hb.head_le
  have hempty : q.bufferAt q.tail = 0 := hb.beyond_empty _ le_rfl (by omega)
  have hunpub : q.validAt q.tail = false := by
    by_contra hv
    have hend := (hb.beyond_valid _ le_rfl (by omega) (eq_true_of_ne_false hv)).2
    omega
  have hres : ∀ {b loc lsn}, update q.pushing buffer (.reserved q.tail q.recLsn) b =
      .reserved loc lsn → b = buffer ∧ loc = q.tail ∧ lsn = q.recLsn ∨
        b ≠ buffer ∧ q.pushing b = .reserved loc lsn := by
    intro b loc lsn hp
    rcases update_eq_cases hp with ⟨hbb, hp⟩ | hp
    · cases hp
      exact .inl ⟨hbb, rfl, rfl⟩
    · exact .inr hp
  -- the new push is the only one at the old tail, with the greatest position
  have hcarries : ∀ {p l}, Queue.Carries { q with
      tail := q.tail + 1
      pushing := update q.pushing buffer (.reserved q.tail q.recLsn) } p l →
      q.Carries p l ∨ p = q.tail ∧ l = q.recLsn := by
    rintro p l (⟨h1, h2, hn, hl⟩ | ⟨b, hp⟩)
    · have hlt : p < q.tail := hb.lt_tail_of_ne (by have h2 : p < q.tail + 1 := h2; omega) hn
      exact .inl (.inl ⟨h1, hlt, hn, hl⟩)
    · rcases hres hp with ⟨-, hloc, hlsn⟩ | ⟨-, hp⟩
      · exact .inr ⟨hloc, hlsn⟩
      · exact .inl (.inr ⟨b, hp⟩)
  refine { hb with
    head_le := Nat.le_succ_of_le hle
    room := (by show q.tail + 1 + 2 ≤ q.head + q.size; omega)
    beyond_empty := fun p h1 h2 => hb.beyond_empty p (Nat.le_of_succ_le h1) h2
    beyond_valid := fun p h1 h2 => hb.beyond_valid p (Nat.le_of_succ_le h1) h2
    names := ?_, held := ?_, reserved := ?_, reserved_inj := ?_, filled := ?_, mono := ?_ }
  · intro p h1 h2 hn
    have h2 : p < q.tail + 1 := h2
    exact hb.names p h1 (hb.lt_tail_of_ne (by omega) hn) hn
  · intro b s hs
    obtain ⟨hb0, p, h1, h2, hp⟩ := hb.held b s hs
    exact ⟨hb0, p, h1, Nat.lt_succ_of_lt h2, hp⟩
  · intro b loc lsn hp
    rcases hres hp with ⟨rfl, rfl, rfl⟩ | ⟨-, hp⟩
    · exact ⟨hle, Nat.lt_succ_self _, hempty, hunpub, (hb.clean _).mp hclean, hne,
        hb.recLsn_pos, le_rfl⟩
    · have hr := hb.reserved b loc lsn hp
      exact { hr with lt_tail := Nat.lt_succ_of_lt hr.lt_tail }
  · intro b b' loc lsn lsn' hp hp'
    rcases hres hp with ⟨rfl, rfl, rfl⟩ | ⟨-, hp⟩
    · rcases hres hp' with ⟨rfl, -, -⟩ | ⟨-, hp'⟩
      · rfl
      · exact absurd (hb.reserved _ _ _ hp').lt_tail (lt_irrefl _)
    · rcases hres hp' with ⟨-, rfl, -⟩ | ⟨-, hp'⟩
      · exact absurd (hb.reserved _ _ _ hp).lt_tail (lt_irrefl _)
      · exact hb.reserved_inj b b' loc lsn lsn' hp hp'
  · intro b loc hp
    have hbb : b ≠ buffer := by
      rintro rfl
      simp only [update_self] at hp
      cases hp
    simp only [update_of_ne hbb] at hp
    have hf := hb.filled b loc hp
    exact { hf with lt_tail := Nat.lt_succ_of_lt hf.lt_tail }
  · intro p l p' l' hc hc' hlt
    rcases hcarries hc with hc | ⟨rfl, rfl⟩
    · rcases hcarries hc' with hc' | ⟨rfl, rfl⟩
      · exact hb.mono p l p' l' hc hc' hlt
      · exact hc.le_recLsn hb
    rcases hcarries hc' with hc' | ⟨rfl, rfl⟩
    · have hlt' := (hc'.lt_tail hb).2
      omega
    · exact absurd hlt (lt_irrefl _)

theorem fill_cases (h : q.fill buffer = some q') : ∃ loc lsn, q.pushing buffer = .reserved loc lsn ∧
      q' = { q with
        bufRecLsn := update q.bufRecLsn buffer lsn
        bufQueueLoc := update q.bufQueueLoc buffer (some (loc % q.size))
        slotBuffer := update q.slotBuffer (loc % q.size) buffer
        pushing := update q.pushing buffer (.filled loc) } := by
  unfold Queue.fill at h
  split at h
  next loc lsn hp =>
    cases h
    exact ⟨loc, lsn, hp, rfl⟩
  next => cases h

theorem Base.fill (hb : Base q) (h : q.fill buffer = some q') : Base q' := by
  obtain ⟨loc, lsn, hp, rfl⟩ := fill_cases h
  have hr := hb.reserved _ _ _ hp
  have hat := fun p => hb.slot_ne (f := q.slotBuffer) (x := buffer) (p := p) hr.head_le hr.lt_tail
  -- the buffer is in no other slot
  have hother : ∀ {p}, q.head ≤ p → p < q.tail → q.bufferAt p ≠ 0 → q.bufferAt p ≠ buffer := by
    intro p h1 h2 hn heq
    have hnames := hb.names p h1 h2 hn
    rw [heq, hr.unqueued] at hnames
    cases hnames
  refine { hb with
    beyond_empty := ?_, names := ?_, held := ?_, clean := ?_, reserved := ?_,
    reserved_inj := ?_, filled := ?_, lsn_le := ?_, mono := hb.mono_of ?_ }
  · intro p h1 h2
    exact (hat p (Nat.le_trans hb.head_le h1) h2
      (Nat.ne_of_gt (Nat.lt_of_lt_of_le hr.lt_tail h1))).trans (hb.beyond_empty p h1 h2)
  · intro p h1 h2 hn
    by_cases hpl : p = loc
    · simp only [bufferAt, hpl, update_self]
    · simp only [bufferAt, hat p h1 (hb.lt_size h2) hpl] at hn ⊢
      exact (update_of_ne (hother h1 h2 hn) _ _).trans (hb.names p h1 h2 hn)
  · intro b s hs
    rcases update_eq_cases hs with ⟨rfl, hs'⟩ | ⟨-, hs⟩
    · exact ⟨hr.buffer_ne, loc, hr.head_le, hr.lt_tail, (Option.some.inj hs').symm, update_self ..⟩
    · obtain ⟨hb0, p, h1, h2, hs', hbp⟩ := hb.held b s hs
      exact ⟨hb0, p, h1, h2, hs', (hat p h1 (hb.lt_size h2) fun hpl =>
        hb0 (by rw [← hbp, hpl, hr.empty])).trans hbp⟩
  · intro b
    by_cases hbb : b = buffer
    · simp only [hbb, update_self]
      exact iff_of_false (Nat.ne_of_gt hr.lsn_pos) nofun
    · simp only [update_of_ne hbb]
      exact hb.clean b
  · intro b loc' lsn' hs
    obtain ⟨hbb, hs⟩ := of_update_eq hs nofun
    have hr' := hb.reserved b loc' lsn' hs
    exact { hr' with
      empty := (hat _ hr'.head_le (hb.lt_size hr'.lt_tail) fun hll =>
        hbb (hb.reserved_inj b buffer loc' lsn' lsn hs (hll ▸ hp))).trans hr'.empty
      unqueued := (update_of_ne hbb _ _).trans hr'.unqueued }
  · intro b b' loc' l l' hs hs'
    exact hb.reserved_inj b b' loc' l l' (of_update_eq hs nofun).2 (of_update_eq hs' nofun).2
  · intro b loc' hs
    rcases update_eq_cases hs with ⟨rfl, hs'⟩ | ⟨-, hs⟩
    · cases hs'
      exact ⟨hr.head_le, hr.lt_tail, update_self .., hr.buffer_ne, hr.unpublished⟩
    · have hf := hb.filled b loc' hs
      exact { hf with
        full := (hat _ hf.head_le (hb.lt_size hf.lt_tail) fun hll =>
          hf.buffer_ne (by rw [← hf.full, hll, hr.empty])).trans hf.full }
  · intro b
    dsimp only
    exact update_cases hr.lsn_le (fun b _ => hb.lsn_le b) b
  · rintro p l (⟨h1, h2, hn, hl⟩ | ⟨b, hs⟩)
    · by_cases hpl : p = loc
      · simp only [bufferAt, hpl, update_self] at hl
        exact .inr ⟨buffer, hpl ▸ hl ▸ hp⟩
      · simp only [bufferAt, hat p h1 (hb.lt_size h2) hpl] at hn hl
        exact .inl ⟨h1, h2, hn, hl.trans (update_of_ne (hother h1 h2 hn) _ _)⟩
    · exact .inr ⟨b, (of_update_eq hs nofun).2⟩

theorem publish_cases (h : q.publish buffer = some q') : ∃ loc, q.pushing buffer = .filled loc ∧
      q' = { q with
        slotValid := update q.slotValid (loc % q.size) true
        pushing := update q.pushing buffer .idle } := by
  unfold Queue.publish at h
  split at h
  next loc hp =>
    cases h
    exact ⟨loc, hp, rfl⟩
  next => cases h

theorem Base.publish (hb : Base q) (h : q.publish buffer = some q') : Base q' := by
  obtain ⟨loc, hp, rfl⟩ := publish_cases h
  have hf := hb.filled _ _ hp
  have hat := fun p => hb.slot_ne (f := q.slotValid) (x := true) (p := p) hf.head_le hf.lt_tail
  refine { hb with
    beyond_valid := ?_, reserved := ?_, reserved_inj := ?_, filled := ?_, mono := hb.mono_of ?_ }
  · intro p h1 h2 hv
    exact hb.beyond_valid p h1 h2 ((hat p (Nat.le_trans hb.head_le h1) h2
      (Nat.ne_of_gt (Nat.lt_of_lt_of_le hf.lt_tail h1))).symm.trans hv)
  · intro b loc' lsn hs
    have hr := hb.reserved b loc' lsn (of_update_eq hs nofun).2
    exact { hr with
      unpublished := (hat _ hr.head_le (hb.lt_size hr.lt_tail) fun hll =>
        hf.buffer_ne (by rw [← hf.full, ← hll, hr.empty])).trans hr.unpublished }
  · intro b b' loc' l l' hs hs'
    exact hb.reserved_inj b b' loc' l l' (of_update_eq hs nofun).2 (of_update_eq hs' nofun).2
  · intro b loc' hs
    obtain ⟨hbb, hs⟩ := of_update_eq hs nofun
    have hf' := hb.filled b loc' hs
    exact { hf' with
      unpublished := (hat _ hf'.head_le (hb.lt_size hf'.lt_tail) fun hll =>
        hbb (by rw [← hf'.full, ← hf.full, hll])).trans hf'.unpublished }
  · rintro p l (hcontent | ⟨b, hs⟩)
    · exact .inl hcontent
    · exact .inr ⟨b, (of_update_eq hs nofun).2⟩

/-! ## Removing -/

theorem removeDirtyPage_cases (h : q.removeDirtyPage buffer = some q') :
    ∃ slot, q.pushing buffer = .idle ∧ q.bufQueueLoc buffer = some slot ∧
      q' = { q with
        slotBuffer := update q.slotBuffer slot 0
        bufRecLsn := update q.bufRecLsn buffer 0
        bufQueueLoc := update q.bufQueueLoc buffer none } := by
  unfold Queue.removeDirtyPage at h
  split at h
  next slot hp hs =>
    cases h
    exact ⟨slot, hp, hs, rfl⟩
  next => cases h

theorem Base.removeDirtyPage (hb : Base q) (h : q.removeDirtyPage buffer = some q') : Base q' := by
  obtain ⟨slot, hidle, hslot, rfl⟩ := removeDirtyPage_cases h
  obtain ⟨hb0, loc, hl1, hl2, rfl, hfull⟩ := hb.held buffer slot hslot
  have hat := fun p => hb.slot_ne (f := q.slotBuffer) (x := 0) (p := p) hl1 hl2
  -- the buffer is in no other slot
  have hother : ∀ {p}, q.head ≤ p → p < q.tail → p ≠ loc → q.bufferAt p ≠ 0 →
      q.bufferAt p ≠ buffer := by
    intro p h1 h2 hne hn heq
    exact hne (hb.position_unique h1 h2 hl1 hl2 hn (heq.trans hfull.symm))
  refine { hb with
    beyond_empty := ?_, names := ?_, held := ?_, clean := ?_, reserved := ?_, filled := ?_,
    lsn_le := ?_, mono := hb.mono_of ?_ }
  · intro p h1 h2
    exact (hat p (Nat.le_trans hb.head_le h1) h2
      (Nat.ne_of_gt (Nat.lt_of_lt_of_le hl2 h1))).trans (hb.beyond_empty p h1 h2)
  · intro p h1 h2 hn
    by_cases hpl : p = loc
    · simp [bufferAt, hpl] at hn
    · simp only [bufferAt, hat p h1 (hb.lt_size h2) hpl] at hn ⊢
      exact (update_of_ne (hother h1 h2 hpl hn) _ _).trans (hb.names p h1 h2 hn)
  · intro b s hs
    obtain ⟨hbb, hs⟩ := of_update_eq hs nofun
    obtain ⟨hb0', p, h1, h2, hs', hbp⟩ := hb.held b s hs
    exact ⟨hb0', p, h1, h2, hs', (hat p h1 (hb.lt_size h2) fun hpl =>
      hbb (by rw [← hbp, hpl, hfull])).trans hbp⟩
  · intro b
    by_cases hbb : b = buffer
    · simp only [hbb, update_self]
    · simp only [update_of_ne hbb]
      exact hb.clean b
  · intro b loc' lsn hs
    have hr := hb.reserved b loc' lsn hs
    refine { hr with empty := ?_, unqueued := ?_ }
    · by_cases hll : loc' = loc
      · simp only [bufferAt, hll, update_self]
      · exact (hat _ hr.head_le (hb.lt_size hr.lt_tail) hll).trans hr.empty
    · dsimp only
      by_cases hbb : b = buffer
      · rw [hbb, update_self]
      · rw [update_of_ne hbb, hr.unqueued]
  · intro b loc' hs
    have hf := hb.filled b loc' hs
    exact { hf with
      full := (hat _ hf.head_le (hb.lt_size hf.lt_tail) fun hll => by
        cases hidle.symm.trans (show q.pushing buffer = .filled loc' by
          rw [← hfull, ← hll, hf.full]; exact hs)).trans hf.full }
  · intro b
    dsimp only
    exact update_cases (Nat.zero_le _) (fun b _ => hb.lsn_le b) b
  · rintro p l (⟨h1, h2, hn, hl⟩ | hs)
    · by_cases hpl : p = loc
      · simp [bufferAt, hpl] at hn
      · simp only [bufferAt, hat p h1 (hb.lt_size h2) hpl] at hn hl
        exact .inl ⟨h1, h2, hn, hl.trans (update_of_ne (hother h1 h2 hpl hn) _ _)⟩
    · exact .inr hs

theorem Base.updateRecLsn (hb : Base q) (lsn : Nat) : Base (q.updateRecLsn lsn) := by
  unfold Queue.updateRecLsn
  split
  next hlt =>
    exact { hb with
      recLsn_pos := Nat.lt_trans hb.recLsn_pos hlt
      reserved := fun b loc l hs =>
        have hr := hb.reserved b loc l hs
        { hr with lsn_le := Nat.le_trans hr.lsn_le (Nat.le_of_lt hlt) }
      filled := fun b loc hs => { hb.filled b loc hs with }
      lsn_le := fun b => Nat.le_trans (hb.lsn_le b) (Nat.le_of_lt hlt) }
  next => exact hb

/-! ## Moving the head -/

theorem advanceHead_cases (h : q.advanceHead = some q') :
    q.writer = .idle ∧ q.head < q.tail ∧ q.validAt q.head = true ∧ q.bufferAt q.head = 0 ∧
      q' = { q with head := q.head + 1, writer := .clearing q.head } := by
  unfold Queue.advanceHead at h
  split at h
  next hg =>
    cases h
    exact ⟨hg.1, hg.2.1, hg.2.2.1, hg.2.2.2, rfl⟩
  next => cases h

theorem Base.advanceHead (hb : Base q) (h : q.advanceHead = some q') : Base q' := by
  obtain ⟨hidle, hlt, hvalid, hempty, rfl⟩ := advanceHead_cases h
  have hroom := hb.room
  refine { hb with
    head_le := hlt
    room := (by show q.tail + 2 ≤ q.head + 1 + q.size; omega)
    beyond_empty := ?_, beyond_valid := ?_, clearing := ?_, names := ?_, held := ?_,
    reserved := ?_, filled := ?_, mono := hb.mono_of ?_ }
  · intro p h1 h2
    have h2' : p < q.head + 1 + q.size := h2
    rcases lt_or_ge p (q.head + q.size) with hp | hp
    · exact hb.beyond_empty p h1 hp
    -- the slot the head leaves is the last of the new window
    have hpe : p = q.head + q.size := by omega
    show q.slotBuffer (p % q.size) = 0
    rw [hpe, Nat.add_mod_right]
    exact hempty
  · intro p h1 h2 hv
    have h2' : p < q.head + 1 + q.size := h2
    rcases lt_or_ge p (q.head + q.size) with hp | hp
    · have hw := (hb.beyond_valid p h1 hp hv).1
      rw [hidle] at hw
      cases hw
    · exact ⟨rfl, by show p + 1 = q.head + 1 + q.size; omega⟩
  · rintro loc ⟨⟩
    rfl
  · exact fun p h1 => hb.names p (Nat.le_of_succ_le h1)
  · intro b s hs
    obtain ⟨hb0, p, h1, h2, hs', hbp⟩ := hb.held b s hs
    refine ⟨hb0, p, ?_, h2, hs', hbp⟩
    rcases Nat.lt_or_eq_of_le h1 with h1 | rfl
    · exact h1
    · exact absurd (hbp.symm.trans hempty) hb0
  · intro b loc lsn hs
    have hr := hb.reserved b loc lsn hs
    refine { hr with head_le := ?_ }
    rcases Nat.lt_or_eq_of_le hr.head_le with h1 | rfl
    · exact h1
    have hu := hr.unpublished
    rw [hvalid] at hu
    cases hu
  · intro b loc hs
    have hf := hb.filled b loc hs
    refine { hf with head_le := ?_ }
    rcases Nat.lt_or_eq_of_le hf.head_le with h1 | rfl
    · exact h1
    have hu := hf.unpublished
    rw [hvalid] at hu
    cases hu
  · rintro p l (⟨h1, hrest⟩ | hs)
    · exact .inl ⟨Nat.le_of_succ_le h1, hrest⟩
    · exact .inr hs

theorem clearState_cases (h : q.clearState = some q') : ∃ loc, q.writer = .clearing loc ∧
      q' = { q with
        slotValid := update q.slotValid (loc % q.size) false, writer := .idle } := by
  unfold Queue.clearState at h
  split at h
  next loc hw =>
    cases h
    exact ⟨loc, hw, rfl⟩
  next => cases h

theorem Base.clearState (hb : Base q) (h : q.clearState = some q') : Base q' := by
  obtain ⟨loc, hw, rfl⟩ := clearState_cases h
  have hhead := hb.clearing loc hw
  have hroom := hb.room
  have hle := hb.head_le
  have hmod : loc % q.size = (loc + q.size) % q.size := (Nat.add_mod_right _ _).symm
  have hat : ∀ {p}, q.head ≤ p → p < q.head + q.size →
      update q.slotValid (loc % q.size) false (p % q.size) =
        if p = loc + q.size then false else q.validAt p := by
    intro p h1 h2
    rw [hmod]
    exact update_ring _ _ h1 h2 (by omega) (by omega)
  have hfalse : ∀ {p}, q.head ≤ p → p < q.head + q.size → q.validAt p = false →
      update q.slotValid (loc % q.size) false (p % q.size) = false := by
    intro p h1 h2 hv
    rw [hat h1 h2]
    split
    · rfl
    · exact hv
  refine { hb with
    beyond_valid := ?_, clearing := ?_, reserved := ?_, filled := ?_ }
  · intro p h1 h2 hv
    change update q.slotValid (loc % q.size) false (p % q.size) = true at hv
    have h1' : q.tail ≤ p := h1
    rw [hat (by omega) h2] at hv
    split at hv
    · cases hv
    next hne =>
      have hend := (hb.beyond_valid p h1 h2 hv).2
      omega
  · rintro loc' ⟨⟩
  · intro b loc' lsn hs
    have hr := hb.reserved b loc' lsn hs
    have hlt := hr.lt_tail
    exact { hr with unpublished := hfalse hr.head_le (by omega) hr.unpublished }
  · intro b loc' hs
    have hf := hb.filled b loc' hs
    have hlt := hf.lt_tail
    exact { hf with unpublished := hfalse hf.head_le (by omega) hf.unpublished }

/-! ## The page writer -/

variable {writer : Writer}

/-- Steps of the page writer that change nothing but its own state and the awaited location. -/
theorem Base.setWriter (hb : Base q) (expected : Nat)
    (hold : ∀ loc, q.writer ≠ .clearing loc) (hnew : ∀ loc, writer ≠ .clearing loc) :
    Base { q with fullCkptExpectedFlushLoc := expected, writer := writer } :=
  { hb with
    beyond_valid := fun p h1 h2 hv => absurd (hb.beyond_valid p h1 h2 hv).1 (hold _)
    clearing := fun loc h => absurd h (hnew loc)
    reserved := fun b loc lsn hs => { hb.reserved b loc lsn hs with }
    filled := fun b loc hs => { hb.filled b loc hs with } }

theorem Base.setExpected (hb : Base q) (expected : Nat) :
    Base { q with fullCkptExpectedFlushLoc := expected } :=
  { hb with
    reserved := fun b loc lsn hs => { hb.reserved b loc lsn hs with }
    filled := fun b loc hs => { hb.filled b loc hs with } }

theorem MoveOk.setWriter {valid : List Nat} {last : Nat} (hm : MoveOk q valid last)
    (writer : Writer) (expected : Nat) :
    MoveOk { q with fullCkptExpectedFlushLoc := expected, writer := writer } valid last :=
  { hm with scanned := { hm.scanned with } }

/-- What the page writer has found in a state in which it clears no slot. -/
def Found (q : Queue) : Writer → Prop
  | .idle => True
  | .clearing _ => False
  | .scanning next stop valid invalidNum last => ScanOk q next stop valid invalidNum last
  | .readLoc valid last => MoveOk q valid last
  | .writeLoc valid last => MoveOk q valid last
  | .moving valid last => MoveOk q valid last

theorem Found.writerOk (hw : q.writer = writer) (h : Found q writer) :
    WriterOk q := by
  subst hw
  exact ⟨fun _ _ _ _ _ hw => (by rwa [hw] at h), fun _ _ hw => (by rwa [hw] at h),
    fun _ _ hw => (by rwa [hw] at h), fun _ _ hw => (by rwa [hw] at h)⟩

theorem Found.not_clearing (h : Found q writer) (loc : Nat) :
    writer ≠ .clearing loc := by
  rintro rfl
  exact h

/-- The page writer goes on from what it found. -/
theorem QueueInv.setWriter (hq : QueueInv q) {old : Writer} (hw : q.writer = old)
    (hold : Found q old) {expected : Nat}
    (hnew : Found { q with fullCkptExpectedFlushLoc := expected, writer := writer } writer) :
    QueueInv { q with fullCkptExpectedFlushLoc := expected, writer := writer } :=
  ⟨hq.base.setWriter expected (hw ▸ hold.not_clearing) hnew.not_clearing, hnew.writerOk rfl⟩

theorem Scanned.le {valid : List Nat} {stop stop' : Nat} (hs : Scanned q valid stop)
    (h : stop' ≤ stop) : Scanned q valid stop' :=
  { hs with
    published := fun p h1 h2 => hs.published p h1 (Nat.lt_of_lt_of_le h2 h)
    listed := fun p h1 h2 => hs.listed p h1 (Nat.lt_of_lt_of_le h2 h) }

theorem QueueInv.startPrune (hq : QueueInv q) (h : q.startPrune = some q') : QueueInv q' := by
  unfold Queue.startPrune at h
  split at h
  next hg =>
    cases h
    refine hq.setWriter hg.1 trivial ⟨⟨fun p h1 h2 => ?_, fun p h1 h2 => ?_, ?_, List.Pairwise.nil⟩,
      le_rfl, hq.base.head_le, le_rfl, ?_, fun hn => absurd rfl hn⟩
    · exact absurd h2 h1.not_gt
    · exact absurd h2 h1.not_gt
    · exact nofun
    · exact nofun
  next => cases h

theorem QueueInv.scanSlot (hq : QueueInv q) (h : q.scanSlot = some q') : QueueInv q' := by
  unfold Queue.scanSlot at h
  split at h
  next next stop valid n last hw =>
    have hs := hq.writer.scanning next stop valid n last hw
    have hstop := hs.stop_le
    split at h
    next hg =>
      obtain ⟨hlt, hv, -, -⟩ := hg
      split at h
      -- the slot has a buffer, which goes on the list
      next hne =>
        cases h
        refine hq.setWriter hw hs ⟨⟨fun p h1 h2 => ?_, fun p h1 h2 hp => ?_, fun p hp => ?_, ?_⟩,
          Nat.le_succ_of_le hs.head_le, hlt, hstop, fun p hp => ?_, fun hn => ?_⟩
        · rcases Nat.lt_succ_iff_lt_or_eq.mp h2 with h2 | rfl
          · exact hs.scanned.published p h1 h2
          · exact hv
        · rcases Nat.lt_succ_iff_lt_or_eq.mp h2 with h2 | rfl
          · exact .tail _ (hs.scanned.listed p h1 h2 hp)
          · exact .head _
        · rcases List.mem_cons.mp hp with rfl | hp
          · refine ⟨?_, Nat.lt_of_lt_of_le hlt hstop⟩
            exact hs.head_le
          · exact hs.scanned.inside p hp
        · exact List.pairwise_cons.mpr ⟨fun p hp => hs.below p hp, hs.scanned.sorted⟩
        · rcases List.mem_cons.mp hp with rfl | hp
          · exact Nat.lt_succ_self _
          · exact Nat.lt_succ_of_lt (hs.below p hp)
        · obtain ⟨h1, h2, he⟩ := hs.last_ok hn
          exact ⟨h1, Nat.lt_succ_of_lt h2, he⟩
      -- the slot is empty, and the last one so far
      next he =>
        cases h
        have he := Decidable.not_not.mp he
        refine hq.setWriter hw hs ⟨⟨fun p h1 h2 => ?_, fun p h1 h2 hp => ?_, hs.scanned.inside,
          hs.scanned.sorted⟩, Nat.le_succ_of_le hs.head_le, hlt, hstop,
          fun p hp => Nat.lt_succ_of_lt (hs.below p hp),
          fun _ => ⟨hs.head_le, Nat.lt_succ_self _, he⟩⟩
        · rcases Nat.lt_succ_iff_lt_or_eq.mp h2 with h2 | rfl
          · exact hs.scanned.published p h1 h2
          · exact hv
        · rcases Nat.lt_succ_iff_lt_or_eq.mp h2 with h2 | rfl
          · exact hs.scanned.listed p h1 h2 hp
          · exact absurd he hp
    next =>
      split at h
      next =>
        cases h
        exact hq.setWriter hw hs trivial
      next hg =>
        cases h
        obtain ⟨h1, h2, he⟩ := hs.last_ok fun hn => hg (.inr hn)
        have hm : MoveOk q valid last :=
          ⟨hs.scanned.le h2, h1, Nat.lt_of_lt_of_le h2 (Nat.le_trans hs.next_le hstop), he⟩
        exact hq.setWriter hw hs (hm.setWriter _ _)
  next => cases h

theorem QueueInv.readLoc (hq : QueueInv q) (h : q.readLoc = some q') : QueueInv q' := by
  unfold Queue.readLoc at h
  split at h
  next valid last hw =>
    have hm := hq.writer.readLoc valid last hw
    split at h
    · cases h
      exact hq.setWriter hw hm (hm.setWriter _ _)
    · cases h
      exact hq.setWriter hw hm (hm.setWriter _ _)
  next => cases h

theorem QueueInv.writeLoc (hq : QueueInv q) (h : q.writeLoc = some q') : QueueInv q' := by
  unfold Queue.writeLoc at h
  split at h
  next valid last hw =>
    have hm := hq.writer.writeLoc valid last hw
    cases h
    exact hq.setWriter hw hm (hm.setWriter _ _)
  next => cases h

end OpenGauss.Checkpoint
