import OpenGauss.Checkpoint.QueueSteps

/-!
# Moving buffers, and runs of the queue

A buffer moves over empty slots only, so the order of recovery positions stays. With that
every step keeps the invariant, and every run.
-/

namespace OpenGauss.Checkpoint

open Lib
open Function (update update_of_ne update_self)

variable {q q' : Queue}

/-! ## Moving one buffer -/

/-- The queue after a buffer moved from `loc` to the empty slot `last`. -/
def Queue.moved (q : Queue) (loc last : Nat) (valid : List Nat) : Queue :=
  { q with
    slotBuffer := update (update q.slotBuffer (last % q.size) (q.bufferAt loc)) (loc % q.size) 0
    bufQueueLoc := update q.bufQueueLoc (q.bufferAt loc) (some (last % q.size))
    writer := .moving valid (last - 1) }

theorem moveBuffer_cases (h : q.moveBuffer = some q') :
    (∃ valid last, q.writer = .moving valid last ∧ q' = { q with writer := .idle }) ∨
    (∃ loc valid last, q.writer = .moving (loc :: valid) last ∧
      (last ≤ loc ∨ q.bufferAt loc = 0) ∧ q' = { q with writer := .moving valid last }) ∨
    ∃ loc valid last, q.writer = .moving (loc :: valid) last ∧ loc < last ∧
      q.bufferAt loc ≠ 0 ∧ q' = q.moved loc last valid := by
  unfold Queue.moveBuffer at h
  split at h
  next last hw =>
    cases h
    exact .inl ⟨[], last, hw, rfl⟩
  next loc valid last hw =>
    split at h
    · cases h
      exact .inl ⟨_, last, hw, rfl⟩
    split at h
    next hskip =>
      cases h
      exact .inr (.inl ⟨loc, valid, last, hw, hskip, rfl⟩)
    next hgo =>
      obtain ⟨h1, h2⟩ := not_or.mp hgo
      split at h
      · cases h
      · cases h
        exact .inr (.inr ⟨loc, valid, last, hw, not_le.mp h1, h2, rfl⟩)
  next => cases h

section Moved

variable {loc last : Nat} {valid : List Nat} {p : Nat}

theorem moved_bufferAt (hb : Base q) (hm : MoveOk q (loc :: valid) last)
    (h1 : q.head ≤ p) (h2 : p < q.head + q.size) :
    (q.moved loc last valid).bufferAt p =
      if p = loc then 0 else if p = last then q.bufferAt loc else q.bufferAt p := by
  have hroom := hb.room
  have hin := hm.scanned.inside loc (.head _)
  have hlt := hm.lt_tail
  show update (update q.slotBuffer (last % q.size) (q.bufferAt loc))
    (loc % q.size) 0 (p % q.size) = _
  rw [update_ring _ _ h1 h2 hin.1 (by omega), update_ring _ _ h1 h2 hm.head_le (by omega)]
  rfl

/-- What is carried afterwards was carried before, or is the buffer that moved. -/
theorem moved_carries (hb : Base q) (hm : MoveOk q (loc :: valid) last) (hlt : loc < last)
    {l : Nat} (h : (q.moved loc last valid).Carries p l) :
    p ≠ loc ∧ q.Carries p l ∨ p = last ∧ l = q.bufRecLsn (q.bufferAt loc) := by
  have hroom := hb.room
  have hin := hm.scanned.inside loc (.head _)
  rcases h with ⟨h1, h2, hn, hl⟩ | ⟨b, hs⟩
  · have h2' : p < q.tail := h2
    rw [moved_bufferAt hb hm h1 (by omega)] at hn hl
    split at hn
    · exact absurd rfl hn
    next hne =>
      rw [if_neg hne] at hl
      split at hn
      next hlast =>
        rw [if_pos hlast] at hl
        exact .inr ⟨hlast, hl⟩
      next hlast =>
        rw [if_neg hlast] at hl
        exact .inl ⟨hne, .inl ⟨h1, h2, hn, hl⟩⟩
  · refine .inl ⟨?_, .inr ⟨b, hs⟩⟩
    rintro rfl
    have hu := (hb.reserved b p l hs).unpublished
    rw [hm.scanned.published p hin.1 (Nat.lt_succ_of_lt hlt)] at hu
    cases hu

theorem carries_below (hb : Base q) (hm : MoveOk q (loc :: valid) last)
    {l : Nat} (h : q.Carries p l) (hne : p ≠ loc) (hp : p < last) : p < loc := by
  rcases h with ⟨h1, -, hn, -⟩ | ⟨b, hs⟩
  · rcases List.mem_cons.mp (hm.scanned.listed p h1 (Nat.lt_succ_of_lt hp) hn) with heq | hmem
    · exact absurd heq hne
    · exact List.rel_of_pairwise_cons hm.scanned.sorted hmem
  have hr := hb.reserved b p l hs
  have hu := hr.unpublished
  rw [hm.scanned.published p hr.head_le (Nat.lt_succ_of_lt hp)] at hu
  cases hu

theorem Base.moved (hb : Base q) (hw : q.writer = .moving (loc :: valid) last)
    (hm : MoveOk q (loc :: valid) last) (hlt : loc < last) (hn0 : q.bufferAt loc ≠ 0) :
    Base (q.moved loc last valid) := by
  have hroom := hb.room
  have hin := hm.scanned.inside loc (.head _)
  have hlast := hm.lt_tail
  have hpubLast := hm.scanned.published last hm.head_le (Nat.lt_succ_self _)
  have hpubLoc := hm.scanned.published loc hin.1 (Nat.lt_succ_of_lt hlt)
  have hold : ∀ l, q.writer ≠ .clearing l := fun l => by rw [hw]; exact Writer.noConfusion
  have hcarry : q.Carries loc (q.bufRecLsn (q.bufferAt loc)) := .inl ⟨hin.1, hin.2, hn0, rfl⟩
  -- slots of pushes are unpublished, so they are neither of the two
  have hfree : ∀ {p}, q.head ≤ p → p < q.tail → q.validAt p = false →
      (q.moved loc last valid).bufferAt p = q.bufferAt p := by
    intro p h1 h2 hu
    rw [moved_bufferAt hb hm h1 (by omega), if_neg, if_neg]
    · rintro rfl
      rw [hpubLast] at hu
      cases hu
    · rintro rfl
      rw [hpubLoc] at hu
      cases hu
  refine { hb with
    beyond_empty := ?_, beyond_valid := ?_, clearing := ?_, names := ?_, held := ?_, clean := ?_,
    reserved := ?_, filled := ?_, mono := ?_ }
  · intro p h1 h2
    have h1' : q.tail ≤ p := h1
    rw [moved_bufferAt hb hm (by omega) h2, if_neg (by omega), if_neg (by omega)]
    exact hb.beyond_empty p h1 h2
  · exact fun p h1 h2 hv => absurd (hb.beyond_valid p h1 h2 hv).1 (hold _)
  · rintro l ⟨⟩
  · intro p h1 h2 hn
    have h2' : p < q.tail := h2
    rw [moved_bufferAt hb hm h1 (by omega)] at hn ⊢
    show update q.bufQueueLoc (q.bufferAt loc) (some (last % q.size)) _ = _
    split at hn
    · exact absurd rfl hn
    next hne =>
      rw [if_neg hne]
      split at hn
      next heq =>
        rw [if_pos heq, update_self, heq]
        rfl
      next hneq =>
        rw [if_neg hneq, update_of_ne fun heq =>
          hne (hb.position_unique h1 h2 hin.1 hin.2 hn heq)]
        exact hb.names p h1 h2 hn
  · intro b s hs
    rcases update_eq_cases hs with ⟨hbb, hs⟩ | ⟨hbb, hs⟩
    · rw [Option.some.injEq] at hs
      refine ⟨hbb ▸ hn0, last, hm.head_le, hlast, hs.symm, ?_⟩
      rw [moved_bufferAt hb hm hm.head_le (by omega), if_neg (Nat.ne_of_gt hlt), if_pos rfl, hbb]
    obtain ⟨hb0, p, h1, h2, hs', hbp⟩ := hb.held b s hs
    refine ⟨hb0, p, h1, h2, hs', ?_⟩
    rw [moved_bufferAt hb hm h1 (by omega), if_neg fun heq => hbb (by rw [← hbp, heq]),
      if_neg fun heq => hb0 (by rw [← hbp, heq, hm.empty])]
    exact hbp
  · intro b
    show q.bufRecLsn b = 0 ↔ update q.bufQueueLoc (q.bufferAt loc) (some (last % q.size)) b = none
    by_cases hbb : b = q.bufferAt loc
    · rw [hbb, update_self]
      have hne := hb.recLsn_ne hin.1 hin.2 hn0
      exact ⟨fun h => absurd h hne, nofun⟩
    · rw [update_of_ne hbb]
      exact hb.clean b
  · intro b loc' lsn hs
    have hr := hb.reserved b loc' lsn hs
    refine { hr with empty := ?_, unqueued := ?_ }
    · rw [hfree hr.head_le hr.lt_tail hr.unpublished]
      exact hr.empty
    · show update q.bufQueueLoc (q.bufferAt loc) (some (last % q.size)) b = none
      rw [update_of_ne]
      · exact hr.unqueued
      · rintro rfl
        have hnames := hb.names loc hin.1 hin.2 hn0
        rw [hr.unqueued] at hnames
        cases hnames
  · intro b loc' hs
    have hf := hb.filled b loc' hs
    refine { hf with full := ?_ }
    rw [hfree hf.head_le hf.lt_tail hf.unpublished]
    exact hf.full
  · intro p l p' l' hc hc' hpp
    rcases moved_carries hb hm hlt hc with ⟨hne, hold⟩ | ⟨hp, hl⟩ <;>
      rcases moved_carries hb hm hlt hc' with ⟨-, hold'⟩ | ⟨hp', hl'⟩
    · exact hb.mono p l p' l' hold hold' hpp
    · rw [hl']
      exact hb.mono p l loc _ hold hcarry (carries_below hb hm hold hne (hp' ▸ hpp))
    · rw [hl]
      exact hb.mono loc _ p' l' hcarry hold' (Nat.lt_trans hlt (hp ▸ hpp))
    · rw [hp, hp'] at hpp
      exact absurd hpp (lt_irrefl _)

theorem MoveOk.moved (hb : Base q) (hm : MoveOk q (loc :: valid) last) (hlt : loc < last) :
    MoveOk (q.moved loc last valid) valid (last - 1) := by
  have hroom := hb.room
  have hlast := hm.lt_tail
  have hin := hm.scanned.inside loc (.head _)
  have hstop : last - 1 + 1 = last := by omega
  have hlisted : ∀ p, q.head ≤ p → p < last → (q.moved loc last valid).bufferAt p ≠ 0 →
      p ∈ valid := by
    intro p h1 h2 hn
    rw [moved_bufferAt hb hm h1 (by omega)] at hn
    split at hn
    · exact absurd rfl hn
    next hne =>
      rw [if_neg (Nat.ne_of_lt h2)] at hn
      rcases List.mem_cons.mp (hm.scanned.listed p h1 (Nat.lt_succ_of_lt h2) hn) with heq | hmem
      · exact absurd heq hne
      · exact hmem
  refine ⟨⟨fun p h1 h2 => ?_, fun p h1 h2 => ?_, fun p hp => ?_, ?_⟩, ?_, ?_, ?_⟩
  · rw [hstop] at h2
    exact hm.scanned.published p h1 (Nat.lt_succ_of_lt h2)
  · rw [hstop] at h2
    exact hlisted p h1 h2
  · exact hm.scanned.inside p (.tail _ hp)
  · exact hm.scanned.sorted.of_cons
  · show q.head ≤ last - 1
    omega
  · show last - 1 < q.tail
    omega
  · -- a buffer there would be on the list, and everything on it is before `loc`
    by_contra hn
    have hmem := hlisted (last - 1) (by omega) (by omega) hn
    have hbefore : last - 1 < loc := List.rel_of_pairwise_cons hm.scanned.sorted hmem
    omega

end Moved

theorem QueueInv.moveBuffer (hq : QueueInv q) (h : q.moveBuffer = some q') : QueueInv q' := by
  rcases moveBuffer_cases h with ⟨valid, last, hw, rfl⟩ | ⟨loc, valid, last, hw, hskip, rfl⟩ |
    ⟨loc, valid, last, hw, hlt, hn, rfl⟩
  · exact hq.setWriter hw (hq.writer.moving _ _ hw) trivial
  · have hm := hq.writer.moving _ _ hw
    have hrest : MoveOk q valid last := by
      refine { hm with
        scanned := { hm.scanned with
          listed := fun p h1 h2 hne => ?_
          inside := fun p hp => hm.scanned.inside p (.tail _ hp)
          sorted := hm.scanned.sorted.of_cons } }
      rcases List.mem_cons.mp (hm.scanned.listed p h1 h2 hne) with rfl | hmem
      · -- the slot that is skipped is empty, or behind the one to fill
        rcases hskip with hskip | hskip
        · have heq : p = last := by omega
          exact absurd (heq ▸ hm.empty) hne
        · exact absurd hskip hne
      · exact hmem
    exact hq.setWriter hw hm (hrest.setWriter _ _)
  · have hm := hq.writer.moving _ _ hw
    exact ⟨hq.base.moved hw hm hlt hn, Found.writerOk rfl (hm.moved hq.base hlt)⟩

/-! ## Every step -/

/-- Pushes, removals and the rest leave what the page writer found as it is. -/
theorem QueueInv.ofFrame (hq : QueueInv q) (hb : Base q') (hw : q'.writer = q.writer)
    (hhead : q'.head = q.head) (htail : q.tail ≤ q'.tail)
    (hslots : ∀ p, q.head ≤ p → p < q.tail → q.validAt p = true →
      q'.validAt p = true ∧ (q'.bufferAt p ≠ 0 → q.bufferAt p ≠ 0)) : QueueInv q' :=
  ⟨hb, hq.writer.frame hw hhead htail hslots⟩

variable {buffer : Nat}

theorem QueueInv.fill (hq : QueueInv q) (h : q.fill buffer = some q') :
    QueueInv q' := by
  have hb' := hq.base.fill h
  obtain ⟨loc, lsn, hp, rfl⟩ := fill_cases h
  have hr := hq.base.reserved _ _ _ hp
  refine hq.ofFrame hb' rfl rfl le_rfl fun p h1 h2 hv => ⟨hv, fun hn h0 => hn ?_⟩
  refine (hq.base.slot_ne hr.head_le hr.lt_tail h1 (hq.base.lt_size h2) ?_).trans h0
  rintro rfl
  cases hv.symm.trans hr.unpublished

theorem QueueInv.publish (hq : QueueInv q) (h : q.publish buffer = some q') :
    QueueInv q' := by
  have hb' := hq.base.publish h
  obtain ⟨loc, hp, rfl⟩ := publish_cases h
  have hf := hq.base.filled _ _ hp
  refine hq.ofFrame hb' rfl rfl le_rfl fun p h1 h2 hv => ⟨?_, id⟩
  by_cases hpl : p = loc
  · exact hpl ▸ update_self ..
  · exact (hq.base.slot_ne hf.head_le hf.lt_tail h1 (hq.base.lt_size h2) hpl).trans hv

theorem QueueInv.removeDirtyPage (hq : QueueInv q)
    (h : q.removeDirtyPage buffer = some q') : QueueInv q' := by
  have hb' := hq.base.removeDirtyPage h
  obtain ⟨slot, hidle, hslot, rfl⟩ := removeDirtyPage_cases h
  obtain ⟨-, loc, hl1, hl2, rfl, -⟩ := hq.base.held buffer slot hslot
  refine hq.ofFrame hb' rfl rfl le_rfl fun p h1 h2 hv => ⟨hv, fun hn h0 => hn ?_⟩
  by_cases hpl : p = loc
  · exact hpl ▸ update_self ..
  · exact (hq.base.slot_ne hl1 hl2 h1 (hq.base.lt_size h2) hpl).trans h0

theorem QueueInv.step (hq : QueueInv q) {event : Event} (h : q.step event = some q') :
    QueueInv q' := by
  cases event with
  | reserve buffer =>
    have hb' := hq.base.reserve h
    obtain ⟨-, -, -, -, rfl⟩ := reserve_cases h
    exact hq.ofFrame hb' rfl rfl (Nat.le_succ _) fun p _ _ hv => ⟨hv, id⟩
  | fill buffer => exact hq.fill h
  | publish buffer => exact hq.publish h
  | removeDirtyPage buffer => exact hq.removeDirtyPage h
  | updateRecLsn lsn =>
    cases h
    have hb' := hq.base.updateRecLsn lsn
    unfold Queue.updateRecLsn at hb' ⊢
    split
    next hlt =>
      rw [if_pos hlt] at hb'
      exact hq.ofFrame hb' rfl rfl le_rfl fun p _ _ hv => ⟨hv, id⟩
    next => exact hq
  | advanceHead =>
    have hb' := hq.base.advanceHead h
    obtain ⟨-, -, -, -, rfl⟩ := advanceHead_cases h
    exact ⟨hb', nofun, nofun, nofun, nofun⟩
  | clearState =>
    have hb' := hq.base.clearState h
    obtain ⟨loc, -, rfl⟩ := clearState_cases h
    exact ⟨hb', Found.writerOk rfl trivial⟩
  | startPrune => exact hq.startPrune h
  | scanSlot => exact hq.scanSlot h
  | readLoc => exact hq.readLoc h
  | writeLoc => exact hq.writeLoc h
  | moveBuffer => exact hq.moveBuffer h
  | setExpectedLoc loc =>
    cases h
    exact hq.ofFrame (hq.base.setExpected _) rfl rfl le_rfl fun p _ _ hv => ⟨hv, id⟩

theorem queueInv_emptyQueue {size : Nat} (maxInvalidBufSlot : Nat) {recLsn : Nat}
    (hsize : 2 ≤ size) (hlsn : 0 < recLsn) :
    QueueInv (emptyQueue size maxInvalidBufSlot recLsn) where
  base := {
    head_le := Nat.le_refl 0
    room := (by show 0 + 2 ≤ 0 + size; omega)
    recLsn_pos := hlsn
    beyond_empty := fun _ _ _ => rfl
    beyond_valid := nofun
    clearing := nofun
    names := fun _ _ _ hn => absurd rfl hn
    held := nofun
    clean := fun _ => ⟨fun _ => rfl, fun _ => rfl⟩
    reserved := nofun
    reserved_inj := nofun
    filled := nofun
    lsn_le := fun _ => Nat.zero_le _
    mono := fun _ _ _ _ hc => by
      rcases hc with ⟨-, -, hn, -⟩ | ⟨_, hs⟩
      · exact absurd rfl hn
      · cases hs }
  writer := Found.writerOk rfl trivial

end OpenGauss.Checkpoint
