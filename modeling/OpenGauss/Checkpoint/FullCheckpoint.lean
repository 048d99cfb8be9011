import OpenGauss.Checkpoint.QueueChanges

/-!
# Full checkpoints in incremental mode

A full checkpoint reads the tail, stores it as the location it waits for and waits until
the head has reached it. Pruning moves buffers towards the tail and raises the location when
it moves them beyond it. It does not when the last slot it fills is the location itself, it
reads and writes the location in two accesses, and it does not know of a tail that has been
read and not stored.
-/

namespace OpenGauss.Checkpoint

open Lib

variable {event : FullCkptEvent} {events : List FullCkptEvent}

/-! ## The wait -/

/-- Where the checkpoint is: `CreateCheckPoint` has read the tail, and the loop of
`CheckPointBuffers`. -/
inductive Wait
  | idle
  | storeLoc (tail : Nat)
  | readHead
  | readExpected (head : Nat)
  | readPageNum
  | ended
deriving DecidableEq

def Wait.active : Wait → Bool
  | .idle => false
  | .ended => false
  | _ => true

/-- One read of the loop; nothing outside of it. -/
def Queue.checkPointBuffers (q : Queue) : Wait → Wait
  | .readHead => .readExpected q.head
  | .readExpected head => if q.fullCkptExpectedFlushLoc ≤ head then .ended else .readPageNum
  | .readPageNum => if q.dirtyPageNum = 0 then .ended else .readHead
  | wait => wait

structure FullCkpt where
  queue : Queue
  wait : Wait

inductive FullCkptEvent
  | queue (event : Event)
  | readTail
  | storeLoc
  | checkPointBuffers
deriving DecidableEq

/-- `CreateCheckPoint` reads the tail and stores it without a lock, and waits for the location. -/
def FullCkpt.step (s : FullCkpt) : FullCkptEvent → Option FullCkpt
  | .queue (.setExpectedLoc _) => none
  | .queue event => (s.queue.step event).map fun q => { s with queue := q }
  | .readTail => some { s with wait := .storeLoc s.queue.tail }
  | .storeLoc =>
    match s.wait with
    | .storeLoc tail => (s.queue.step (.setExpectedLoc tail)).map fun q => ⟨q, .readHead⟩
    | _ => none
  | .checkPointBuffers => some { s with wait := s.queue.checkPointBuffers s.wait }

def FullCkpt.run : FullCkpt → List FullCkptEvent → Option FullCkpt
  | s, [] => some s
  | s, event :: events => (s.step event).bind fun s' => s'.run events

/-- Pruning fills the very slot the checkpoint waits for; it moves a buffer to the tail that the
checkpoint has read, or behind it, before the location is stored, or goes on to when it is; or it
is about to write a lower location when the checkpoint stores its own. -/
def FullCkpt.slips (s : FullCkpt) (event : FullCkptEvent) : Bool :=
  match event, s.queue.writer, s.wait with
  | .queue .moveBuffer, .moving _ last, .storeLoc tail => decide (tail ≤ last)
  | .storeLoc, .moving _ last, .storeLoc tail => decide (tail ≤ last)
  | .storeLoc, .writeLoc _ last, .storeLoc tail => decide (last + 1 < tail)
  | .queue .readLoc, .readLoc _ last, wait =>
    wait.active && decide (last = s.queue.fullCkptExpectedFlushLoc)
  | _, _, _ => false

def FullCkpt.neverSlips : FullCkpt → List FullCkptEvent → Bool
  | _, [] => true
  | s, event :: events => !s.slips event && (s.step event).all fun s' => s'.neverSlips events

def startFullCkpt (size maxInvalidBufSlot recLsn : Nat) : FullCkpt :=
  ⟨emptyQueue size maxInvalidBufSlot recLsn, .idle⟩

/-! ## A buffer that is waited for -/

/-- The tail that has been read, then the location. -/
def FullCkpt.bound (s : FullCkpt) : Nat :=
  match s.wait with
  | .storeLoc tail => tail
  | _ => s.queue.fullCkptExpectedFlushLoc

def Wait.stored : Wait → Bool
  | .storeLoc _ => false
  | _ => true

/-- The buffer is before the location, and once that is stored pruning does not move it there or
beyond. -/
structure Awaited (s : FullCkpt) (buffer : Nat) : Prop where
  active : s.wait.active = true
  buffer_ne : buffer ≠ 0
  position : ∃ p, s.queue.head ≤ p ∧ p < s.queue.tail ∧ s.queue.bufferAt p = buffer ∧ p < s.bound
  moving : s.wait.stored = true → ∀ valid last, s.queue.writer = .moving valid last →
    last < s.queue.fullCkptExpectedFlushLoc
  writeLoc : s.wait.stored = true → ∀ valid last, s.queue.writer = .writeLoc valid last →
    s.queue.fullCkptExpectedFlushLoc ≤ last + 1
  readHead : ∀ head, s.wait = .readExpected head → head ≤ s.queue.head

variable {s s' : FullCkpt} {b : Nat}

theorem bound_of_stored (h : s.wait.stored = true) :
    s.bound = s.queue.fullCkptExpectedFlushLoc := by
  obtain ⟨q, wait⟩ := s
  cases wait <;> first | rfl | cases h

/-- The wait does not end while the buffer is there. -/
theorem Awaited.checkPointBuffers (h : Awaited s b) :
    Awaited { s with wait := s.queue.checkPointBuffers s.wait } b := by
  obtain ⟨p, h1, h2, hat, hlt⟩ := h.position
  have hread := h.readHead
  obtain ⟨q, wait⟩ := s
  cases wait with
  | idle => exact h
  | storeLoc tail => exact h
  | readHead =>
    refine ⟨rfl, h.buffer_ne, ⟨p, h1, h2, hat, hlt⟩, h.moving, h.writeLoc, ?_⟩
    rintro head ⟨⟩
    exact le_rfl
  | readExpected head =>
    have hgo : ¬ q.fullCkptExpectedFlushLoc ≤ head :=
      Nat.not_le.mpr (Nat.lt_of_le_of_lt (hread head rfl) (Nat.lt_of_le_of_lt h1 hlt))
    have hnext : q.checkPointBuffers (.readExpected head) = .readPageNum := if_neg hgo
    dsimp only
    rw [hnext]
    exact ⟨rfl, h.buffer_ne, ⟨p, h1, h2, hat, hlt⟩, h.moving, h.writeLoc, nofun⟩
  | readPageNum =>
    have hgo : ¬ q.dirtyPageNum = 0 := Nat.sub_ne_zero_of_lt (Nat.lt_of_le_of_lt h1 h2)
    have hnext : q.checkPointBuffers .readPageNum = .readHead := if_neg hgo
    dsimp only
    rw [hnext]
    exact ⟨rfl, h.buffer_ne, ⟨p, h1, h2, hat, hlt⟩, h.moving, h.writeLoc, nofun⟩
  | ended => cases h.active

/-- What a step does to the location and to the moves that depend on it. -/
inductive LocStep (q q' : Queue) : Event → Prop
  | kept {event : Event} (loc : q'.fullCkptExpectedFlushLoc = q.fullCkptExpectedFlushLoc)
    (moving : ∀ valid last, q'.writer = .moving valid last →
      ∃ valid' last', q.writer = .moving valid' last' ∧ last ≤ last')
    (writing : ∀ valid last, q'.writer = .writeLoc valid last → q.writer = .writeLoc valid last) :
    LocStep q q' event
  | set {loc : Nat} : LocStep q q' (.setExpectedLoc loc)
  | beyond {valid : List Nat} {last : Nat} (hw : q.writer = .readLoc valid last)
    (hlt : q.fullCkptExpectedFlushLoc < last)
    (h : q' = { q with writer := .writeLoc valid last }) : LocStep q q' .readLoc
  | within {valid : List Nat} {last : Nat} (hw : q.writer = .readLoc valid last)
    (hle : last ≤ q.fullCkptExpectedFlushLoc)
    (h : q' = { q with writer := .moving valid last }) : LocStep q q' .readLoc
  | raise {valid : List Nat} {last : Nat} (hw : q.writer = .writeLoc valid last)
    (h : q' = { q with fullCkptExpectedFlushLoc := last + 1, writer := .moving valid last }) :
    LocStep q q' .writeLoc

section LocStep

variable {q q' : Queue} {event : Event}

theorem LocStep.sameWriter (hloc : q'.fullCkptExpectedFlushLoc = q.fullCkptExpectedFlushLoc)
    (hw : q'.writer = q.writer) : LocStep q q' event :=
  .kept hloc (fun valid last h => ⟨valid, last, hw ▸ h, le_rfl⟩) (fun _ _ h => hw ▸ h)

theorem LocStep.otherWriter (hloc : q'.fullCkptExpectedFlushLoc = q.fullCkptExpectedFlushLoc)
    (hmoving : ∀ valid last, q'.writer ≠ .moving valid last)
    (hwriting : ∀ valid last, q'.writer ≠ .writeLoc valid last) : LocStep q q' event :=
  .kept hloc (fun valid last h => absurd h (hmoving valid last))
    (fun valid last h => absurd h (hwriting valid last))

theorem locStep_scanSlot (h : q.scanSlot = some q') : LocStep q q' .scanSlot := by
  unfold Queue.scanSlot at h
  split at h
  next =>
    split at h <;> split at h <;> cases h <;>
      exact .otherWriter rfl nofun nofun
  next => cases h

theorem locStep_readLoc (h : q.readLoc = some q') : LocStep q q' .readLoc := by
  unfold Queue.readLoc at h
  split at h
  next valid last hw =>
    split at h
    next hlt =>
      cases h
      exact .beyond hw hlt rfl
    next hle =>
      cases h
      exact .within hw (Nat.not_lt.mp hle) rfl
  next => cases h

theorem locStep_moveBuffer (h : q.moveBuffer = some q') : LocStep q q' .moveBuffer := by
  rcases moveBuffer_cases h with ⟨_, _, -, rfl⟩ | ⟨loc, valid, last, hw, -, rfl⟩ |
    ⟨loc, valid, last, hw, -, -, rfl⟩
  · exact .otherWriter rfl nofun nofun
  · refine .kept rfl ?_ nofun
    rintro _ _ ⟨⟩
    exact ⟨_, last, hw, le_rfl⟩
  · refine .kept rfl ?_ nofun
    rintro _ _ ⟨⟩
    exact ⟨_, last, hw, Nat.sub_le _ _⟩

theorem step_loc (h : q.step event = some q') : LocStep q q' event := by
  cases event with
  | reserve buffer =>
    obtain ⟨-, -, -, -, rfl⟩ := reserve_cases h
    exact .sameWriter rfl rfl
  | fill buffer =>
    obtain ⟨_, _, -, rfl⟩ := fill_cases h
    exact .sameWriter rfl rfl
  | publish buffer =>
    obtain ⟨_, -, rfl⟩ := publish_cases h
    exact .sameWriter rfl rfl
  | removeDirtyPage buffer =>
    obtain ⟨_, -, -, rfl⟩ := removeDirtyPage_cases h
    exact .sameWriter rfl rfl
  | updateRecLsn lsn =>
    cases h
    unfold Queue.updateRecLsn
    split <;> exact .sameWriter rfl rfl
  | advanceHead =>
    obtain ⟨-, -, -, -, rfl⟩ := advanceHead_cases h
    exact .otherWriter rfl nofun nofun
  | clearState =>
    obtain ⟨_, -, rfl⟩ := clearState_cases h
    exact .otherWriter rfl nofun nofun
  | startPrune =>
    change q.startPrune = some q' at h
    unfold Queue.startPrune at h
    split at h <;> cases h
    exact .otherWriter rfl nofun nofun
  | scanSlot => exact locStep_scanSlot h
  | readLoc => exact locStep_readLoc h
  | writeLoc =>
    change q.writeLoc = some q' at h
    unfold Queue.writeLoc at h
    split at h
    next valid last hw =>
      cases h
      exact .raise hw rfl
    next => cases h
  | moveBuffer => exact locStep_moveBuffer h
  | setExpectedLoc loc => exact .set

/-- Outside a removal a buffer of the queue keeps its position or gets that of the move. -/
theorem position_step (hq : QueueInv q) (h : q.step event = some q') {b p : Nat}
    (h1 : q.head ≤ p) (h2 : p < q.tail) (hat : q.bufferAt p = b) (hb0 : b ≠ 0)
    (hevent : event ≠ .removeDirtyPage b) :
    ∃ p', q'.head ≤ p' ∧ p' < q'.tail ∧ q'.bufferAt p' = b ∧
      (p' = p ∨ ∃ valid, event = .moveBuffer ∧ q.writer = .moving valid p') := by
  have hq' := hq.step h
  have hframe := (step_change h).frame
  have hroom := hq.base.room
  have htail := hframe.tail_le_succ
  -- the head does not pass a slot with a buffer
  have hstays : ∀ {p'}, q.head ≤ p' → p' < q.tail → q'.bufferAt p' = b →
      q'.head ≤ p' ∧ p' < q'.tail := by
    intro p' h1' h2' hat'
    refine ⟨hq'.base.head_le_of_ne ?_ (hat' ▸ hb0), Nat.lt_of_lt_of_le h2' hframe.tail_le⟩
    rw [hframe.size]
    omega
  rcases (step_change h).position hq h1 h2 hat hb0 hevent with
    hat' | ⟨valid, last, hmove, hw, hat', hl1, hl2⟩
  · have hin := hstays h1 h2 hat'
    exact ⟨p, hin.1, hin.2, hat', .inl rfl⟩
  · have hin := hstays hl1 hl2 hat'
    exact ⟨last, hin.1, hin.2, hat', .inr ⟨valid, hmove, hw⟩⟩

end LocStep

/-! ## Runs -/

theorem queue_step {event : Event} (h : ∀ loc, event ≠ .setExpectedLoc loc) :
    s.step (.queue event) = (s.queue.step event).map fun q => { s with queue := q } := by
  cases event with
  | setExpectedLoc loc => exact absurd rfl (h loc)
  | _ => rfl

/-- A step of the queue alone: it stores no location. -/
theorem queue_step_cases {event : Event} (h : s.step (.queue event) = some s') :
    ∃ q', s.queue.step event = some q' ∧ s' = { s with queue := q' } ∧
      ∀ loc, event ≠ .setExpectedLoc loc := by
  have hset : ∀ loc, event ≠ .setExpectedLoc loc := by
    rintro loc rfl
    cases h
  rw [queue_step hset] at h
  obtain ⟨q', hstep, rfl⟩ := Option.map_eq_some_iff.mp h
  exact ⟨q', hstep, rfl, hset⟩

/-- The location is stored: a buffer before the tail that was read is before the location, and
pruning neither goes on beyond it nor lowers it. -/
theorem Awaited.storeLoc (h : Awaited s b) (hstep : s.step .storeLoc = some s')
    (hslip : s.slips .storeLoc = false) : Awaited s' b := by
  obtain ⟨q, wait⟩ := s
  cases wait with
  | storeLoc tail =>
    cases hstep
    refine ⟨rfl, h.buffer_ne, h.position, fun _ valid last hw => ?_, fun _ valid last hw => ?_, nofun⟩
    · change q.writer = _ at hw
      simp only [FullCkpt.slips, hw] at hslip
      exact Nat.lt_of_not_le (of_decide_eq_false hslip)
    · change q.writer = _ at hw
      simp only [FullCkpt.slips, hw] at hslip
      exact Nat.le_of_not_lt (of_decide_eq_false hslip)
  | _ => cases hstep

/-- Before the location is stored the buffer stays in front of the tail that was read. -/
theorem Awaited.queueStep_unstored (hq : QueueInv s.queue) {q' : Queue} {event : Event}
    (h : Awaited s b) (hstep : s.queue.step event = some q') (hstored : s.wait.stored = false)
    (hslip : s.slips (.queue event) = false) (hevent : event ≠ .removeDirtyPage b) :
    Awaited { s with queue := q' } b := by
  obtain ⟨p, h1, h2, hat, hlt⟩ := h.position
  obtain ⟨p', h1', h2', hat', hfrom⟩ := position_step hq hstep h1 h2 hat h.buffer_ne hevent
  obtain ⟨q, wait⟩ := s
  cases wait with
  | storeLoc tail =>
    refine ⟨rfl, h.buffer_ne, ⟨p', h1', h2', hat', ?_⟩, nofun, nofun, nofun⟩
    rcases hfrom with rfl | ⟨valid, rfl, hw⟩
    · exact hlt
    · change q.writer = _ at hw
      simp only [FullCkpt.slips, hw] at hslip
      exact Nat.lt_of_not_le (of_decide_eq_false hslip)
  | _ => cases hstored

/-- Afterwards it stays in front of the location. -/
theorem Awaited.queueStep_stored (hq : QueueInv s.queue) {q' : Queue} {event : Event}
    (h : Awaited s b) (hstep : s.queue.step event = some q') (hstored : s.wait.stored = true)
    (hset : ∀ loc, event ≠ .setExpectedLoc loc) (hslip : s.slips (.queue event) = false)
    (hevent : event ≠ .removeDirtyPage b) : Awaited { s with queue := q' } b := by
  obtain ⟨p, h1, h2, hat, hlt⟩ := h.position
  have hframe := (step_change hstep).frame
  obtain ⟨p', h1', h2', hat', hfrom⟩ := position_step hq hstep h1 h2 hat h.buffer_ne hevent
  have hread : ∀ head, s.wait = .readExpected head → head ≤ q'.head := fun head hw =>
    Nat.le_trans (h.readHead head hw) hframe.head_le
  have hbound : FullCkpt.bound { s with queue := q' } = q'.fullCkptExpectedFlushLoc :=
    bound_of_stored hstored
  rw [bound_of_stored hstored] at hlt
  have hmoving := h.moving hstored
  have hwriteLoc := h.writeLoc hstored
  cases step_loc hstep with
  | kept hloc hmoves hwrites =>
    refine ⟨h.active, h.buffer_ne, ⟨p', h1', h2', hat', ?_⟩, fun _ valid last hw => ?_,
      fun _ valid last hw => ?_, hread⟩
    · rw [hbound, hloc]
      rcases hfrom with rfl | ⟨valid, -, hw⟩
      · exact hlt
      · exact hmoving valid p' hw
    · obtain ⟨valid', last', hw', hle⟩ := hmoves valid last hw
      show last < q'.fullCkptExpectedFlushLoc
      rw [hloc]
      exact Nat.lt_of_le_of_lt hle (hmoving valid' last' hw')
    · show q'.fullCkptExpectedFlushLoc ≤ last + 1
      rw [hloc]
      exact hwriteLoc valid last (hwrites valid last hw)
  | set => exact absurd rfl (hset _)
  | beyond hw hlt' heq =>
    subst heq
    refine ⟨h.active, h.buffer_ne, ⟨p, h1, h2, hat, by rw [hbound]; exact hlt⟩, nofun, ?_, hread⟩
    rintro - _ _ ⟨⟩
    exact Nat.le_succ_of_le (Nat.le_of_lt hlt')
  | @within valid last hw hle heq =>
    subst heq
    refine ⟨h.active, h.buffer_ne, ⟨p, h1, h2, hat, by rw [hbound]; exact hlt⟩, ?_, nofun, hread⟩
    rintro - _ _ ⟨⟩
    -- the slot itself would be the one case in which the location had to be raised
    have hne : last ≠ s.queue.fullCkptExpectedFlushLoc := by
      simp only [FullCkpt.slips, hw, h.active, Bool.true_and] at hslip
      exact of_decide_eq_false hslip
    exact Nat.lt_of_le_of_ne hle hne
  | @raise valid last hw heq =>
    subst heq
    refine ⟨h.active, h.buffer_ne, ⟨p, h1, h2, hat, ?_⟩, ?_, nofun, hread⟩
    · rw [hbound]
      exact Nat.lt_of_lt_of_le hlt (hwriteLoc _ _ hw)
    · rintro - _ _ ⟨⟩
      exact Nat.lt_succ_self _

/-- A buffer that is not removed is waited for on. -/
theorem Awaited.step (hq : QueueInv s.queue) (h : Awaited s b) (hstep : s.step event = some s')
    (hslip : s.slips event = false) (hevent : event ≠ .queue (.removeDirtyPage b)) :
    Awaited s' b := by
  cases event with
  | checkPointBuffers =>
    cases hstep
    exact h.checkPointBuffers
  | readTail =>
    cases hstep
    obtain ⟨p, h1, h2, hat, -⟩ := h.position
    exact ⟨rfl, h.buffer_ne, ⟨p, h1, h2, hat, h2⟩, nofun, nofun, nofun⟩
  | storeLoc => exact h.storeLoc hstep hslip
  | queue event =>
    obtain ⟨q', hqstep, rfl, hset⟩ := queue_step_cases hstep
    have hevent' : event ≠ .removeDirtyPage b := fun heq => hevent (by rw [heq])
    cases hstored : s.wait.stored with
    | false => exact h.queueStep_unstored hq hqstep hstored hslip hevent'
    | true => exact h.queueStep_stored hq hqstep hstored hset hslip hevent'

theorem QueueInv.fullStep (hq : QueueInv s.queue) (h : s.step event = some s') :
    QueueInv s'.queue := by
  cases event with
  | queue event =>
    obtain ⟨q', hstep, rfl, -⟩ := queue_step_cases h
    exact hq.step hstep
  | readTail =>
    cases h
    exact hq
  | storeLoc =>
    obtain ⟨q, wait⟩ := s
    cases wait with
    | storeLoc tail =>
      cases h
      exact hq.step (show q.step (.setExpectedLoc tail) = some _ from rfl)
    | _ => cases h
  | checkPointBuffers =>
    cases h
    exact hq

theorem queueInv_fullRun (hq : QueueInv s.queue) (h : s.run events = some s') :
    QueueInv s'.queue := by
  induction events generalizing s with
  | nil =>
    cases h
    exact hq
  | cons event events ih =>
    obtain ⟨t, hstep, hrun⟩ := Option.bind_eq_some_iff.mp h
    exact ih (hq.fullStep hstep) hrun

theorem neverSlips_cons (h : s.neverSlips (event :: events) = true) (hstep : s.step event = some s') :
    s.slips event = false ∧ s'.neverSlips events = true := by
  obtain ⟨hhead, hrest⟩ := Bool.and_eq_true_iff.mp h
  rw [hstep] at hrest
  exact ⟨Bool.not_eq_true' _ ▸ hhead, hrest⟩

theorem Awaited.run (hq : QueueInv s.queue) (h : Awaited s b) (hslip : s.neverSlips events = true)
    (hremove : .queue (.removeDirtyPage b) ∉ events) (hrun : s.run events = some s') :
    Awaited s' b := by
  induction events generalizing s with
  | nil =>
    cases hrun
    exact h
  | cons event events ih =>
    obtain ⟨t, hstep, hrest⟩ := Option.bind_eq_some_iff.mp hrun
    obtain ⟨hnow, hlater⟩ := neverSlips_cons hslip hstep
    obtain ⟨hne, hnot⟩ := List.ne_and_not_mem_of_not_mem_cons hremove
    exact ih (hq.fullStep hstep) (h.step hq hstep hnow hne.symm) hlater hnot hrest

theorem awaited_readTail (hq : QueueInv s.queue) (hqueued : s.queue.bufQueueLoc b ≠ none)
    (hread : s.step .readTail = some s') : Awaited s' b := by
  obtain ⟨slot, hslot⟩ := Option.ne_none_iff_exists'.mp hqueued
  obtain ⟨hb0, p, h1, h2, -, hat⟩ := hq.base.held b slot hslot
  cases hread
  exact ⟨rfl, hb0, ⟨p, h1, h2, hat, h2⟩, nofun, nofun, nofun⟩

/-- A full checkpoint whose location does not slip waits until every buffer that was queued
when it read the tail has been removed. -/
theorem fullCkptRun_waits {size maxInvalidBufSlot recLsn : Nat} (hsize : 2 ≤ size)
    (hlsn : 0 < recLsn) {before after : List FullCkptEvent} {s t s' : FullCkpt}
    (hbefore : (startFullCkpt size maxInvalidBufSlot recLsn).run before = some s)
    (hread : s.step .readTail = some t) (hafter : t.run after = some s')
    (hslip : t.neverSlips after = true) (hended : s'.wait = .ended)
    {buffer : Nat} (hqueued : s.queue.bufQueueLoc buffer ≠ none) :
    .queue (.removeDirtyPage buffer) ∈ after := by
  have hstart : QueueInv (startFullCkpt size maxInvalidBufSlot recLsn).queue :=
    queueInv_emptyQueue maxInvalidBufSlot hsize hlsn
  have hq := queueInv_fullRun hstart hbefore
  by_contra hremove
  have hawaited := (awaited_readTail hq hqueued hread).run (hq.fullStep hread) hslip hremove hafter
  have hactive := hawaited.active
  rw [hended] at hactive
  cases hactive

/-! ## Two runs -/

def pushed (buffer : Nat) : List FullCkptEvent :=
  [.queue (.reserve buffer), .queue (.fill buffer), .queue (.publish buffer)]

def pushedAndRemoved (buffer : Nat) : List FullCkptEvent :=
  pushed buffer ++ [.queue (.removeDirtyPage buffer)]

def headMoves (n : Nat) : List FullCkptEvent :=
  (List.replicate n [.queue .advanceHead, .queue .clearState]).flatten

/-- A buffer at the head and an empty slot behind it. -/
def beforeSet : List FullCkptEvent := pushed 1 ++ pushedAndRemoved 2

/-- Four more empty slots, after which pruning moves the buffer to the third of them. -/
def untilRemoved : List FullCkptEvent :=
  .storeLoc :: (List.replicate 4 (pushedAndRemoved 2)).flatten ++ [.queue .startPrune] ++
    List.replicate 5 (.queue .scanSlot) ++
    [.queue .readLoc, .queue .writeLoc, .queue .moveBuffer, .queue .moveBuffer] ++ headMoves 3 ++
    List.replicate 3 .checkPointBuffers ++ [.queue (.removeDirtyPage 1)] ++ headMoves 1 ++
    List.replicate 2 .checkPointBuffers

theorem fullCkptRun_waits_untilRemoved : ∃ s t s', (startFullCkpt 10 3 100).run beforeSet = some s ∧
      s.step .readTail = some t ∧ t.run untilRemoved = some s' ∧
      s'.wait = .ended ∧ .queue (.removeDirtyPage 1) ∈ untilRemoved := by
  have hbefore : (((startFullCkpt 10 3 100).run beforeSet).map fun s => s.queue.bufQueueLoc 1) =
      some (some 0) := by decide +kernel
  have hslips : (((startFullCkpt 10 3 100).run beforeSet).bind fun s =>
      (s.step .readTail).map fun t => t.neverSlips untilRemoved) = some true := by decide +kernel
  have hafter : ((((startFullCkpt 10 3 100).run beforeSet).bind fun s =>
      (s.step .readTail).bind fun t => t.run untilRemoved).map fun s' => s'.wait) =
        some .ended := by decide +kernel
  obtain ⟨s, hs, hqueued⟩ := Option.map_eq_some_iff.mp hbefore
  rw [hs, Option.bind_some] at hafter hslips
  obtain ⟨s', hrun, hended⟩ := Option.map_eq_some_iff.mp hafter
  obtain ⟨t, hset, hrest⟩ := Option.bind_eq_some_iff.mp hrun
  rw [hset, Option.map_some, Option.some.injEq] at hslips
  refine ⟨s, t, s', hs, hset, hrest, hended, ?_⟩
  exact fullCkptRun_waits (by decide) (by decide) hs hset hrest hslips hended
    (by rw [hqueued]; exact Option.some_ne_none _)

/-- The same, but pruning stops after two empty slots. -/
def whilePruned : List FullCkptEvent :=
  .storeLoc :: (List.replicate 4 (pushedAndRemoved 2)).flatten ++ [.queue .startPrune] ++
    List.replicate 4 (.queue .scanSlot) ++
    [.queue .readLoc, .queue .moveBuffer, .queue .moveBuffer] ++ headMoves 2 ++
    List.replicate 2 .checkPointBuffers

/-- The buffer is moved to the slot at the location and the location stays. The wait ends
when the head reaches the buffer, which has not been written. -/
theorem fullCkpt_slips : ∃ s t s', (startFullCkpt 10 2 100).run beforeSet = some s ∧
      s.queue.bufQueueLoc 1 = some 0 ∧ s.step .readTail = some t ∧
      t.run whilePruned = some s' ∧ .queue (.removeDirtyPage 1) ∉ whilePruned ∧
      s'.wait = .ended ∧ s'.queue.bufQueueLoc 1 = some 2 := by
  have hbefore : (((startFullCkpt 10 2 100).run beforeSet).map fun s => s.queue.bufQueueLoc 1) =
      some (some 0) := by decide +kernel
  have hafter : ((((startFullCkpt 10 2 100).run beforeSet).bind fun s =>
      (s.step .readTail).bind fun t => t.run whilePruned).map fun s' =>
        (s'.wait, s'.queue.bufQueueLoc 1)) = some (.ended, some 2) := by decide +kernel
  obtain ⟨s, hs, hqueued⟩ := Option.map_eq_some_iff.mp hbefore
  rw [hs, Option.bind_some] at hafter
  obtain ⟨s', hrun, heq⟩ := Option.map_eq_some_iff.mp hafter
  obtain ⟨hended, hloc⟩ := Prod.mk.inj heq
  obtain ⟨t, hset, hrest⟩ := Option.bind_eq_some_iff.mp hrun
  exact ⟨s, t, s', hs, hqueued, hset, hrest, by decide +kernel, hended, hloc⟩

end OpenGauss.Checkpoint
