import OpenGauss.Checkpoint.QueueRun

/-!
# What one step changes

Most steps leave the slots, the descriptors and the tail as they are. The four others are
a push that reserves or fills its slot, a removal and a move. From them: where the
recovery positions of the queue come from, and where a buffer is after a step.
-/

namespace OpenGauss.Checkpoint

open Lib

variable {q q' : Queue}
variable {event : Event} {buffer p : Nat}

/-- Slots, descriptors and tail stay as they are. -/
structure Quiet (q q' : Queue) : Prop where
  size : q'.size = q.size
  tail : q'.tail = q.tail
  slotBuffer : q'.slotBuffer = q.slotBuffer
  bufRecLsn : q'.bufRecLsn = q.bufRecLsn
  bufQueueLoc : q'.bufQueueLoc = q.bufQueueLoc
  head_le : q.head ≤ q'.head
  recLsn_le : q.recLsn ≤ q'.recLsn
  reserved : ∀ b loc l, q'.pushing b = .reserved loc l → q.pushing b = .reserved loc l

theorem quiet_setWriter (q : Queue) (writer : Writer) (expected : Nat) :
    Quiet q { q with writer := writer, fullCkptExpectedFlushLoc := expected } :=
  ⟨rfl, rfl, rfl, rfl, rfl, le_rfl, le_rfl, fun _ _ _ h => h⟩

theorem Quiet.refl (q : Queue) : Quiet q q := quiet_setWriter q q.writer q.fullCkptExpectedFlushLoc

theorem quiet_scanSlot (h : q.scanSlot = some q') : Quiet q q' := by
  unfold Queue.scanSlot at h
  split at h
  next =>
    split at h
    · split at h <;> cases h <;> exact quiet_setWriter q _ _
    · split at h <;> cases h <;> exact quiet_setWriter q _ _
  next => cases h

theorem quiet_readLoc (h : q.readLoc = some q') : Quiet q q' := by
  unfold Queue.readLoc at h
  split at h
  next => split at h <;> cases h <;> exact quiet_setWriter q _ _
  next => cases h

theorem quiet_writeLoc (h : q.writeLoc = some q') : Quiet q q' := by
  unfold Queue.writeLoc at h
  split at h
  next =>
    cases h
    exact quiet_setWriter q _ _
  next => cases h

theorem quiet_publish (h : q.publish buffer = some q') : Quiet q q' := by
  obtain ⟨loc, -, rfl⟩ := publish_cases h
  refine { Quiet.refl q with
    size := rfl, tail := rfl, slotBuffer := rfl, bufRecLsn := rfl, bufQueueLoc := rfl
    reserved := fun b loc l hs => ?_ }
  obtain ⟨-, hs⟩ := of_update_eq hs nofun
  exact hs

/-- The four steps that change slots, descriptors or the tail, and the rest. -/
inductive Change (q q' : Queue) : Event → Prop
  | quiet {event : Event} (h : Quiet q q') : Change q q' event
  | reserve {buffer : Nat} (h : q.reserve buffer = some q') : Change q q' (.reserve buffer)
  | fill {buffer : Nat} (h : q.fill buffer = some q') : Change q q' (.fill buffer)
  | remove {buffer : Nat} (h : q.removeDirtyPage buffer = some q') :
    Change q q' (.removeDirtyPage buffer)
  | move {loc last : Nat} {valid : List Nat} (hw : q.writer = .moving (loc :: valid) last)
    (hlt : loc < last) (hn : q.bufferAt loc ≠ 0) (h : q' = q.moved loc last valid) :
    Change q q' .moveBuffer

theorem step_change (h : q.step event = some q') : Change q q' event := by
  cases event with
  | reserve buffer => exact .reserve h
  | fill buffer => exact .fill h
  | publish buffer => exact .quiet (quiet_publish h)
  | removeDirtyPage buffer => exact .remove h
  | updateRecLsn lsn =>
    cases h
    refine .quiet ?_
    unfold Queue.updateRecLsn
    split
    next hlt => exact { Quiet.refl q with recLsn_le := Nat.le_of_lt hlt }
    next => exact Quiet.refl q
  | advanceHead =>
    obtain ⟨-, -, -, -, rfl⟩ := advanceHead_cases h
    exact .quiet { Quiet.refl q with head_le := Nat.le_succ _ }
  | clearState =>
    obtain ⟨loc, -, rfl⟩ := clearState_cases h
    exact .quiet { Quiet.refl q with }
  | startPrune =>
    change q.startPrune = some q' at h
    unfold Queue.startPrune at h
    split at h
    · cases h
      exact .quiet (quiet_setWriter q _ _)
    · cases h
  | scanSlot => exact .quiet (quiet_scanSlot h)
  | readLoc => exact .quiet (quiet_readLoc h)
  | writeLoc => exact .quiet (quiet_writeLoc h)
  | moveBuffer =>
    rcases moveBuffer_cases h with ⟨valid, last, -, rfl⟩ | ⟨loc, valid, last, -, -, rfl⟩ |
      ⟨loc, valid, last, hw, hlt, hn, heq⟩
    · exact .quiet (quiet_setWriter q _ _)
    · exact .quiet (quiet_setWriter q _ _)
    · exact .move hw hlt hn heq
  | setExpectedLoc loc =>
    cases h
    exact .quiet (quiet_setWriter q _ _)

/-! ## The frame of a step -/

structure Frame (q q' : Queue) : Prop where
  size : q'.size = q.size
  head_le : q.head ≤ q'.head
  tail_le : q.tail ≤ q'.tail
  tail_le_succ : q'.tail ≤ q.tail + 1
  recLsn_le : q.recLsn ≤ q'.recLsn
  reserved : ∀ b loc l, q'.pushing b = .reserved loc l →
    q.pushing b = .reserved loc l ∨ loc = q.tail ∧ l = q.recLsn

theorem Change.frame (h : Change q q' event) : Frame q q' := by
  cases h with
  | quiet h =>
    exact ⟨h.size, h.head_le, Nat.le_of_eq h.tail.symm, h.tail ▸ Nat.le_succ _, h.recLsn_le,
      fun b loc l hs => .inl (h.reserved b loc l hs)⟩
  | reserve h =>
    obtain ⟨-, -, -, -, rfl⟩ := reserve_cases h
    refine ⟨rfl, le_rfl, Nat.le_succ _, le_rfl, le_rfl, fun b loc l hs => ?_⟩
    rcases update_eq_cases hs with ⟨-, hs⟩ | ⟨-, hs⟩
    · cases hs
      exact .inr ⟨rfl, rfl⟩
    · exact .inl hs
  | fill h =>
    obtain ⟨loc, lsn, -, rfl⟩ := fill_cases h
    refine ⟨rfl, le_rfl, le_rfl, Nat.le_succ _, le_rfl, fun b loc l hs => ?_⟩
    obtain ⟨-, hs⟩ := of_update_eq hs nofun
    exact .inl hs
  | remove h =>
    obtain ⟨slot, -, -, rfl⟩ := removeDirtyPage_cases h
    exact ⟨rfl, le_rfl, le_rfl, Nat.le_succ _, le_rfl, fun _ _ _ hs => .inl hs⟩
  | move hw hlt hn h =>
    subst h
    exact ⟨rfl, le_rfl, le_rfl, Nat.le_succ _, le_rfl, fun _ _ _ hs => .inl hs⟩

/-! ## Slots afterwards -/

theorem fill_bufferAt (hb : Base q) {loc lsn : Nat} (hr : q.pushing buffer = .reserved loc lsn)
    (h : q.fill buffer = some q') (h1 : q.head ≤ p) (h2 : p < q.head + q.size) :
    q'.bufferAt p = if p = loc then buffer else q.bufferAt p := by
  have hroom := hb.room
  have hres := hb.reserved _ _ _ hr
  have hlt : loc < q.head + q.size := by
    have := hres.lt_tail
    omega
  obtain ⟨loc', lsn', hr', rfl⟩ := fill_cases h
  rw [hr] at hr'
  cases hr'
  exact update_ring _ _ h1 h2 hres.head_le hlt

theorem remove_bufferAt (hb : Base q) (h : q.removeDirtyPage buffer = some q') (h1 : q.head ≤ p)
    (h2 : p < q.tail) (hn : q.bufferAt p ≠ 0) :
    q'.bufferAt p = if q.bufferAt p = buffer then 0 else q.bufferAt p := by
  have hroom := hb.room
  obtain ⟨slot, -, hslot, rfl⟩ := removeDirtyPage_cases h
  obtain ⟨-, loc, hl1, hl2, rfl, hbl⟩ := hb.held buffer slot hslot
  change Function.update q.slotBuffer (loc % q.size) 0 (p % q.size) = _
  rw [update_ring _ _ h1 (by omega) hl1 (by omega)]
  by_cases hp : p = loc
  · rw [if_pos hp, if_pos (by rw [hp, hbl])]
  rw [if_neg hp, if_neg fun heq =>
    hp (hb.position_unique h1 h2 hl1 hl2 hn (by rw [heq, hbl]))]
  rfl

theorem remove_bufferAt_ne (hb : Base q) (h : q.removeDirtyPage buffer = some q') (h1 : q.head ≤ p)
    (h2 : p < q.tail) (hn : q'.bufferAt p ≠ 0) :
    q'.bufferAt p = q.bufferAt p ∧ q.bufferAt p ≠ buffer := by
  have hne : q.bufferAt p ≠ 0 := by
    intro hzero
    obtain ⟨slot, -, -, rfl⟩ := removeDirtyPage_cases h
    change Function.update q.slotBuffer slot 0 (p % q.size) ≠ 0 at hn
    by_cases hs : p % q.size = slot
    · rw [hs, Function.update_self] at hn
      exact hn rfl
    · rw [Function.update_of_ne hs] at hn
      exact hn hzero
  rw [remove_bufferAt hb h h1 h2 hne] at hn ⊢
  split at hn
  · exact absurd rfl hn
  next hbuf => exact ⟨if_neg hbuf, hbuf⟩

/-! ## Where recovery positions come from -/

/-- A recovery position of the queue was in it before, at the same place or nearer to the
head, or belongs to the push that reserves a slot. -/
theorem Change.carries (hb : QueueInv q) (h : Change q q' event) {l : Nat} (hc : q'.Carries p l) :
    (∃ p₀, p₀ ≤ p ∧ q.Carries p₀ l) ∨ p = q.tail ∧ l = q.recLsn := by
  have hframe := h.frame
  rcases hc with ⟨h1, h2, hn, hl⟩ | ⟨b, hs⟩
  · have hroom := hb.base.room
    cases h with
    | quiet hq =>
      have hat : q'.bufferAt p = q.bufferAt p := by
        unfold Queue.bufferAt
        rw [hq.slotBuffer, hq.size]
      rw [hat, hq.bufRecLsn] at hl
      rw [hat] at hn
      exact .inl ⟨p, Nat.le_refl _, .inl ⟨Nat.le_trans hq.head_le h1, hq.tail ▸ h2, hn, hl⟩⟩
    | reserve h =>
      obtain ⟨-, -, -, -, rfl⟩ := reserve_cases h
      have hlt := hb.base.lt_tail_of_ne (p := p) (by change p < q.tail + 1 at h2; omega) hn
      exact .inl ⟨p, le_rfl, .inl ⟨h1, hlt, hn, hl⟩⟩
    | @fill buffer h =>
      obtain ⟨loc, lsn, hr, hq'⟩ := fill_cases h
      have hhead : q'.head = q.head := by rw [hq']
      have htail : q'.tail = q.tail := by rw [hq']
      rw [hhead] at h1
      rw [htail] at h2
      have hat := fill_bufferAt hb.base hr h h1 (by omega)
      have hlsn : q'.bufRecLsn = Function.update q.bufRecLsn buffer lsn := by rw [hq']
      rw [hat, hlsn] at hl
      rw [hat] at hn
      by_cases hp : p = loc
      · -- the push had reserved the slot with this position
        rw [if_pos hp, Function.update_self] at hl
        exact .inl ⟨p, le_rfl, .inr ⟨buffer, by rw [hp, hl, hr]⟩⟩
      rw [if_neg hp] at hl hn
      rw [Function.update_of_ne] at hl
      · exact .inl ⟨p, le_rfl, .inl ⟨h1, h2, hn, hl⟩⟩
      · intro heq
        have hnames := hb.base.names p h1 h2 hn
        rw [heq, (hb.base.reserved _ _ _ hr).unqueued] at hnames
        cases hnames
    | @remove buffer h =>
      obtain ⟨slot, -, -, hq'⟩ := removeDirtyPage_cases h
      have hhead : q'.head = q.head := by rw [hq']
      have htail : q'.tail = q.tail := by rw [hq']
      rw [hhead] at h1
      rw [htail] at h2
      obtain ⟨hat, hne⟩ := remove_bufferAt_ne hb.base h h1 h2 hn
      have hlsn : q'.bufRecLsn = Function.update q.bufRecLsn buffer 0 := by rw [hq']
      rw [hat, hlsn, Function.update_of_ne hne] at hl
      exact .inl ⟨p, le_rfl, .inl ⟨h1, h2, hat ▸ hn, hl⟩⟩
    | @move loc last valid hw hlt hn' h =>
      subst h
      have hm := hb.writer.moving _ _ hw
      have hin := hm.scanned.inside loc (List.mem_cons_self ..)
      rcases moved_carries hb.base hm hlt (.inl ⟨h1, h2, hn, hl⟩) with ⟨-, hold⟩ | ⟨hp, hl⟩
      · exact .inl ⟨p, le_rfl, hold⟩
      · exact .inl ⟨loc, by omega, .inl ⟨hin.1, hin.2, hn', hl⟩⟩
  · rcases hframe.reserved b p l hs with hold | hnew
    · exact .inl ⟨p, le_rfl, .inr ⟨b, hold⟩⟩
    · exact .inr hnew

/-! ## Where a buffer is afterwards -/

/-- A buffer that is not removed stays where it is, or moves to the slot the page writer
fills. -/
theorem Change.position (hb : QueueInv q) (h : Change q q' event) {b : Nat} (h1 : q.head ≤ p)
    (h2 : p < q.tail) (hat : q.bufferAt p = b) (hb0 : b ≠ 0) (hevent : event ≠ .removeDirtyPage b) :
    q'.bufferAt p = b ∨ ∃ valid last, event = .moveBuffer ∧ q.writer = .moving valid last ∧
      q'.bufferAt last = b ∧ q.head ≤ last ∧ last < q.tail := by
  have hroom := hb.base.room
  have hn : q.bufferAt p ≠ 0 := by rwa [hat]
  cases h with
  | quiet hq =>
    refine .inl ?_
    unfold Queue.bufferAt at hat ⊢
    rw [hq.slotBuffer, hq.size]
    exact hat
  | reserve h =>
    obtain ⟨-, -, -, -, rfl⟩ := reserve_cases h
    exact .inl hat
  | fill h =>
    obtain ⟨loc, lsn, hr, -⟩ := fill_cases h
    refine .inl ?_
    rw [fill_bufferAt hb.base hr h h1 (by omega), if_neg]
    · exact hat
    · rintro rfl
      exact hn (hb.base.reserved _ _ _ hr).empty
  | @remove buffer h =>
    refine .inl ?_
    rw [remove_bufferAt hb.base h h1 h2 hn, if_neg]
    · exact hat
    · intro heq
      exact hevent (by rw [← heq, hat])
  | @move loc last valid hw hlt hn' h =>
    subst h
    have hm := hb.writer.moving _ _ hw
    by_cases hp : p = loc
    · have hl2 := hm.lt_tail
      refine .inr ⟨_, last, rfl, hw, ?_, hm.head_le, hl2⟩
      rw [moved_bufferAt hb.base hm hm.head_le (by omega), if_neg (Nat.ne_of_gt hlt), if_pos rfl,
        ← hp, hat]
    · refine .inl ?_
      rw [moved_bufferAt hb.base hm h1 (by omega), if_neg hp, if_neg]
      · exact hat
      · rintro rfl
        exact hn hm.empty

end OpenGauss.Checkpoint
