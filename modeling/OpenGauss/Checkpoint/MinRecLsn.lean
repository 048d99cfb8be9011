import OpenGauss.Checkpoint.QueueChanges

/-!
# The recovery position of a checkpoint

`ckpt_get_min_rec_lsn` walks the queue from the head without a lock and returns the
recovery position of the first buffer it meets. The queue itself is right on every run.
The walk is right as long as the slot it looks at is not handed out again: the tail can
run a whole ring ahead of it, and then the buffer it meets is one pushed later.
-/

namespace OpenGauss.Checkpoint

open Lib

variable {s s' : Ckpt} {events : List CkptEvent} {scan : Scan}

/-! ## The call, step by step -/

/-- Where `ckpt_get_min_rec_lsn` is: before which read, for which `queue_loc`. -/
inductive Scan
  | idle
  | readHead
  | testTail (loc : Nat)
  | testState (loc : Nat)
  | readBuffer (loc : Nat)
  | readRecLsn (loc buffer : Nat)
  | readBufferAgain (loc lsn : Nat)
  | returned (lsn : Nat)
deriving DecidableEq

def Scan.loc : Scan → Option Nat
  | .testTail loc => some loc
  | .testState loc => some loc
  | .readBuffer loc => some loc
  | .readRecLsn loc _ => some loc
  | .readBufferAgain loc _ => some loc
  | _ => none

/-- One read of `ckpt_get_min_rec_lsn`. A call that has returned is followed by another. -/
def Queue.ckptGetMinRecLsn (q : Queue) : Scan → Scan
  | .idle => if q.dirtyPageNum = 0 then .returned 0 else .readHead
  | .readHead => .testTail q.head
  | .testTail loc => if loc < q.tail then .testState loc else .returned 0
  | .testState loc => if q.validAt loc then .readBuffer loc else .readHead
  | .readBuffer loc =>
    if q.bufferAt loc = 0 then .testTail (loc + 1) else .readRecLsn loc (q.bufferAt loc)
  | .readRecLsn loc buffer => .readBufferAgain loc (q.bufRecLsn buffer)
  | .readBufferAgain loc lsn =>
    -- an invalid position goes on with the loop
    if q.bufferAt loc ≠ 0 ∧ lsn ≠ 0 then .returned lsn else .testTail (loc + 1)
  | .returned _ => if q.dirtyPageNum = 0 then .returned 0 else .readHead

/-- The queue with one call of `ckpt_get_min_rec_lsn`. -/
structure Ckpt where
  queue : Queue
  scan : Scan

inductive CkptEvent
  | queue (event : Event)
  | getMinRecLsn
deriving DecidableEq

def Ckpt.step (s : Ckpt) : CkptEvent → Option Ckpt
  | .queue event => (s.queue.step event).map fun q => { s with queue := q }
  | .getMinRecLsn => some { s with scan := s.queue.ckptGetMinRecLsn s.scan }

def Ckpt.run : Ckpt → List CkptEvent → Option Ckpt
  | s, [] => some s
  | s, event :: events => (s.step event).bind fun s' => s'.run events

/-- The tail has run more than a ring ahead of the slot the call looks at. -/
def Ckpt.lapped (s : Ckpt) : Bool :=
  s.scan.loc.any fun loc => decide (loc + s.queue.size < s.queue.tail)

/-- No slot is handed out again while the call looks at it. -/
def Ckpt.neverLapped : Ckpt → List CkptEvent → Bool
  | s, [] => !s.lapped
  | s, event :: events => !s.lapped && (s.step event).all fun s' => s'.neverLapped events

def startCkpt (size maxInvalidBufSlot recLsn : Nat) : Ckpt :=
  ⟨emptyQueue size maxInvalidBufSlot recLsn, .idle⟩

/-! ## The walk -/

variable {q q' : Queue}

def Queue.NothingBefore (q : Queue) (loc : Nat) : Prop := ∀ p l, q.Carries p l → loc ≤ p

/-- The walk has passed the positions before `loc`, which the tail has not run over. -/
structure Passed (q : Queue) (loc : Nat) : Prop where
  nothing : q.NothingBefore loc
  le_tail : loc ≤ q.tail
  tail_le : q.tail ≤ loc + q.size

/-- The slot was valid, so no push is about to fill it. -/
structure Settled (q : Queue) (loc : Nat) : Prop extends Passed q loc where
  lt_tail : loc < q.tail
  unreserved : ∀ b l, q.pushing b ≠ .reserved loc l

def Queue.ScanOk (q : Queue) : Scan → Prop
  | .testTail loc => Passed q loc
  | .testState loc => Passed q loc ∧ loc < q.tail
  | .readBuffer loc => Settled q loc
  | .readRecLsn loc buffer => Settled q loc ∧ (q.bufferAt loc ≠ 0 → q.bufferAt loc = buffer)
  | .readBufferAgain loc lsn =>
    Settled q loc ∧ (q.bufferAt loc ≠ 0 → lsn = q.bufRecLsn (q.bufferAt loc))
  | .returned lsn => lsn ≤ q.recLsn ∧ ∀ p l, q.Carries p l → lsn ≤ l
  | _ => True

theorem Settled.carries (hb : Base q) {loc : Nat} (h : Settled q loc) (hn : q.bufferAt loc ≠ 0) :
    q.Carries loc (q.bufRecLsn (q.bufferAt loc)) :=
  .inl ⟨hb.head_le_of_ne h.tail_le hn, h.lt_tail, hn, rfl⟩

/-- An empty slot that no push will fill is passed. -/
theorem Settled.next {loc : Nat} (h : Settled q loc) (hempty : q.bufferAt loc = 0) :
    Passed q (loc + 1) := by
  refine ⟨fun p l hc => ?_, h.lt_tail, ?_⟩
  · have hle := h.nothing p l hc
    have hne : p ≠ loc := by
      rintro rfl
      rcases hc with ⟨-, -, hn, -⟩ | ⟨b, hs⟩
      · exact hn hempty
      · exact h.unreserved b l hs
    omega
  · have hle := h.tail_le
    omega

theorem passed_head (hb : Base q) : Passed q q.head := by
  have hroom := hb.room
  exact ⟨fun p l hc => (hc.lt_tail hb).1, hb.head_le, by omega⟩

/-- The first buffer of the walk has the least recovery position. -/
theorem Settled.least (hb : Base q) {loc : Nat} (h : Settled q loc) (hn : q.bufferAt loc ≠ 0)
    {p l : Nat} (hc : q.Carries p l) : q.bufRecLsn (q.bufferAt loc) ≤ l := by
  have hfirst := h.carries hb hn
  rcases Nat.lt_or_eq_of_le (h.nothing p l hc) with hlt | rfl
  · exact hb.mono _ _ _ _ hfirst hc hlt
  rcases hc with ⟨-, -, -, rfl⟩ | ⟨b, hs⟩
  · exact le_rfl
  · exact absurd hs (h.unreserved b l)

theorem scanOk_getMinRecLsn (hq : QueueInv q) (hs : q.ScanOk scan) :
    q.ScanOk (q.ckptGetMinRecLsn scan) := by
  have hb := hq.base
  have hinvalid : q.ScanOk (.returned 0) := ⟨Nat.zero_le _, fun _ _ _ => Nat.zero_le _⟩
  cases scan with
  | idle =>
    rw [Queue.ckptGetMinRecLsn]
    split
    · exact hinvalid
    · trivial
  | readHead => exact passed_head hb
  | testTail loc =>
    rw [Queue.ckptGetMinRecLsn]
    split
    next hlt => exact ⟨hs, hlt⟩
    next => exact hinvalid
  | testState loc =>
    rw [Queue.ckptGetMinRecLsn]
    split
    next hv =>
      refine ⟨hs.1, hs.2, fun b l hpush => ?_⟩
      have hu := (hb.reserved b loc l hpush).unpublished
      rw [hv] at hu
      cases hu
    next => trivial
  | readBuffer loc =>
    rw [Queue.ckptGetMinRecLsn]
    split
    next hempty => exact Settled.next hs hempty
    next => exact ⟨hs, fun _ => rfl⟩
  | readRecLsn loc buffer => exact ⟨hs.1, fun hn => by rw [hs.2 hn]⟩
  | readBufferAgain loc lsn =>
    rw [Queue.ckptGetMinRecLsn]
    split
    next hn =>
      have hlsn := hs.2 hn.1
      refine ⟨?_, fun p l hc => ?_⟩
      · rw [hlsn]
        exact hb.lsn_le _
      · rw [hlsn]
        exact hs.1.least hb hn.1 hc
    next hn =>
      -- a buffer of the queue has a recovery position, so the slot is empty
      by_cases hempty : q.bufferAt loc = 0
      · exact hs.1.next hempty
      have hle := hb.head_le_of_ne hs.1.tail_le hempty
      have hne := hb.recLsn_ne hle hs.1.lt_tail hempty
      rw [← hs.2 hempty] at hne
      exact absurd ⟨hempty, hne⟩ hn
  | returned lsn =>
    rw [Queue.ckptGetMinRecLsn]
    split
    · exact hinvalid
    · trivial

theorem returned_invalid (hq : QueueInv q) (hs : q.ScanOk scan)
    (hr : q.ckptGetMinRecLsn scan = .returned 0) {p l : Nat} : ¬ q.Carries p l := by
  intro hc
  have hin := hc.lt_tail hq.base
  have hpages : ¬ q.dirtyPageNum = 0 := by
    unfold Queue.dirtyPageNum
    omega
  cases scan with
  | idle =>
    rw [Queue.ckptGetMinRecLsn] at hr
    rw [if_neg hpages] at hr
    cases hr
  | readHead => cases hr
  | testTail loc =>
    have hle := hs.nothing p l hc
    rw [Queue.ckptGetMinRecLsn] at hr
    rw [if_pos (by omega)] at hr
    cases hr
  | testState | readBuffer =>
    rw [Queue.ckptGetMinRecLsn] at hr
    split at hr <;> cases hr
  | readRecLsn loc buffer => cases hr
  | readBufferAgain loc lsn =>
    rw [Queue.ckptGetMinRecLsn] at hr
    split at hr
    next hn =>
      cases hr
      exact hn.2 rfl
    next => cases hr
  | returned lsn =>
    rw [Queue.ckptGetMinRecLsn] at hr
    rw [if_neg hpages] at hr
    cases hr

/-! ## Steps of the queue during the call -/

section Steps

variable {event : Event} {loc : Nat}

theorem Queue.NothingBefore.change (hq : QueueInv q) (h : Change q q' event)
    (hn : q.NothingBefore loc) (hle : loc ≤ q.tail) : q'.NothingBefore loc := by
  intro p l hc
  rcases h.carries hq hc with ⟨p₀, hp, hold⟩ | ⟨rfl, -⟩
  · exact Nat.le_trans (hn p₀ l hold) hp
  · exact hle

theorem Passed.change (hq : QueueInv q) (h : Change q q' event) (hp : Passed q loc)
    (hlap : q'.tail ≤ loc + q'.size) : Passed q' loc :=
  ⟨hp.nothing.change hq h hp.le_tail, Nat.le_trans hp.le_tail h.frame.tail_le, hlap⟩

theorem Settled.change (hq : QueueInv q) (h : Change q q' event) (hs : Settled q loc)
    (hlap : q'.tail ≤ loc + q'.size) : Settled q' loc := by
  refine ⟨hs.toPassed.change hq h hlap, Nat.lt_of_lt_of_le hs.lt_tail h.frame.tail_le, ?_⟩
  intro b l hpush
  rcases h.frame.reserved b loc l hpush with hold | ⟨heq, -⟩
  · exact hs.unreserved b l hold
  · exact Nat.ne_of_lt hs.lt_tail heq

/-- The slot the call looks at keeps its buffer, with its recovery position, or is empty. -/
theorem Settled.slot (hq : QueueInv q) (hq' : QueueInv q') (h : Change q q' event)
    (hs : Settled q loc) (hlap : q'.tail ≤ loc + q'.size) (hn : q'.bufferAt loc ≠ 0) :
    q'.bufferAt loc = q.bufferAt loc ∧ q.bufferAt loc ≠ 0 ∧
      q'.bufRecLsn (q.bufferAt loc) = q.bufRecLsn (q.bufferAt loc) := by
  have h1 : q.head ≤ loc := Nat.le_trans h.frame.head_le (hq'.base.head_le_of_ne hlap hn)
  have hroom := hq.base.room
  have hlt := hs.lt_tail
  cases h with
  | quiet hquiet =>
    have hat : q'.bufferAt loc = q.bufferAt loc := by
      unfold Queue.bufferAt
      rw [hquiet.slotBuffer, hquiet.size]
    exact ⟨hat, hat ▸ hn, by rw [hquiet.bufRecLsn]⟩
  | reserve h =>
    obtain ⟨-, -, -, -, rfl⟩ := reserve_cases h
    exact ⟨rfl, hn, rfl⟩
  | @fill buffer h =>
    obtain ⟨loc', lsn, hr, heq⟩ := fill_cases h
    have hne : loc ≠ loc' := by
      rintro rfl
      exact hs.unreserved _ _ hr
    have hat := fill_bufferAt hq.base hr h h1 (by omega)
    rw [if_neg hne] at hat
    have hn' := hat ▸ hn
    refine ⟨hat, hn', ?_⟩
    have hlsn : q'.bufRecLsn = Function.update q.bufRecLsn buffer lsn := by rw [heq]
    rw [hlsn, Function.update_of_ne]
    rintro rfl
    have hnames := hq.base.names loc h1 hlt hn'
    rw [(hq.base.reserved _ _ _ hr).unqueued] at hnames
    cases hnames
  | @remove buffer h =>
    obtain ⟨slot, -, -, heq⟩ := removeDirtyPage_cases h
    obtain ⟨hat, hne⟩ := remove_bufferAt_ne hq.base h h1 hlt hn
    have hlsn : q'.bufRecLsn = Function.update q.bufRecLsn buffer 0 := by rw [heq]
    exact ⟨hat, hat ▸ hn, by rw [hlsn, Function.update_of_ne hne]⟩
  | @move from' last valid hw hlt' hn' heq =>
    subst heq
    have hm := hq.writer.moving _ _ hw
    have hin := hm.scanned.inside from' (List.mem_cons_self ..)
    have hat := moved_bufferAt hq.base hm h1 (by omega)
    -- a buffer that moves to this slot would come from one the walk has passed
    have hlast : loc ≠ last := by
      rintro rfl
      have hle := hs.nothing from' _ (.inl ⟨hin.1, hin.2, hn', rfl⟩)
      omega
    rw [hat] at hn
    split at hn
    · exact absurd rfl hn
    next hfrom =>
      rw [if_neg hfrom, if_neg hlast] at hat
      exact ⟨hat, hn, rfl⟩

/-- A step of the queue during the call. -/
theorem scanOk_change (hq : QueueInv q) (hq' : QueueInv q') (h : Change q q' event)
    (hs : q.ScanOk scan) (hlap : ∀ loc ∈ scan.loc, q'.tail ≤ loc + q'.size) : q'.ScanOk scan := by
  cases scan with
  | idle | readHead => trivial
  | testTail loc => exact Passed.change hq h hs (hlap loc rfl)
  | testState loc =>
    exact ⟨hs.1.change hq h (hlap loc rfl), Nat.lt_of_lt_of_le hs.2 h.frame.tail_le⟩
  | readBuffer loc => exact Settled.change hq h hs (hlap loc rfl)
  | readRecLsn loc buffer =>
    refine ⟨hs.1.change hq h (hlap loc rfl), fun hn => ?_⟩
    obtain ⟨hat, hn', -⟩ := hs.1.slot hq hq' h (hlap loc rfl) hn
    rw [hat]
    exact hs.2 hn'
  | readBufferAgain loc lsn =>
    refine ⟨hs.1.change hq h (hlap loc rfl), fun hn => ?_⟩
    obtain ⟨hat, hn', hlsn⟩ := hs.1.slot hq hq' h (hlap loc rfl) hn
    rw [hat, hlsn]
    exact hs.2 hn'
  | returned lsn =>
    refine ⟨Nat.le_trans hs.1 h.frame.recLsn_le, fun p l hc => ?_⟩
    rcases h.carries hq hc with ⟨p₀, -, hold⟩ | ⟨-, rfl⟩
    · exact hs.2 p₀ l hold
    · exact hs.1

end Steps

/-! ## Runs -/

theorem QueueInv.ckptStep {event : CkptEvent} (hq : QueueInv s.queue) (h : s.step event = some s') :
    QueueInv s'.queue := by
  cases event with
  | queue event =>
    obtain ⟨q', hstep, rfl⟩ := Option.map_eq_some_iff.mp h
    exact hq.step hstep
  | getMinRecLsn =>
    cases h
    exact hq

theorem queueInv_ckptRun (hq : QueueInv s.queue) (h : s.run events = some s') :
    QueueInv s'.queue := by
  induction events generalizing s with
  | nil =>
    cases h
    exact hq
  | cons event events ih =>
    obtain ⟨t, hstep, hrun⟩ := Option.bind_eq_some_iff.mp h
    exact ih (hq.ckptStep hstep) hrun

theorem not_lapped (h : s.lapped = false) :
    ∀ loc ∈ s.scan.loc, s.queue.tail ≤ loc + s.queue.size := by
  intro loc hloc
  unfold Ckpt.lapped at h
  rw [Option.mem_def.mp hloc] at h
  exact not_lt.mp (of_decide_eq_false h)

theorem scanOk_step {event : CkptEvent} (hq : QueueInv s.queue) (hs : s.queue.ScanOk s.scan)
    (h : s.step event = some s') (hlap : s'.lapped = false) : s'.queue.ScanOk s'.scan := by
  cases event with
  | queue event =>
    have hq' := hq.ckptStep h
    obtain ⟨q', hstep, rfl⟩ := Option.map_eq_some_iff.mp h
    exact scanOk_change hq hq' (step_change hstep) hs (not_lapped hlap)
  | getMinRecLsn =>
    cases h
    exact scanOk_getMinRecLsn hq hs

theorem neverLapped_head (h : s.neverLapped events = true) : s.lapped = false := by
  cases events with
  | nil => exact Bool.not_eq_true' _ ▸ h
  | cons event events =>
    have hand := (Bool.and_eq_true_iff.mp h).1
    exact Bool.not_eq_true' _ ▸ hand

theorem scanOk_run (hq : QueueInv s.queue) (hs : s.queue.ScanOk s.scan)
    (hlap : s.neverLapped events = true) (h : s.run events = some s') :
    s'.queue.ScanOk s'.scan := by
  induction events generalizing s with
  | nil =>
    cases h
    exact hs
  | cons event events ih =>
    obtain ⟨t, hstep, hrun⟩ := Option.bind_eq_some_iff.mp h
    have hrest := (Bool.and_eq_true_iff.mp hlap).2
    rw [hstep] at hrest
    have hrest : t.neverLapped events = true := hrest
    exact ih (hq.ckptStep hstep) (scanOk_step hq hs hstep (neverLapped_head hrest)) hrest hrun

theorem Base.carries_queued (hb : Base q) {buffer : Nat} (hn : q.bufQueueLoc buffer ≠ none) :
    ∃ p, q.Carries p (q.bufRecLsn buffer) := by
  obtain ⟨slot, hslot⟩ := Option.ne_none_iff_exists'.mp hn
  obtain ⟨hb0, p, h1, h2, -, hat⟩ := hb.held buffer slot hslot
  exact ⟨p, .inl ⟨h1, h2, hat ▸ hb0, by rw [hat]⟩⟩

/-- On every run the slot handed out is empty, every queued buffer is in one slot between
head and tail, which its descriptor names, and recovery positions do not decrease. As long
as no slot is handed out again while the call looks at it, the position the call returns
is not later than that of any queued buffer, and it returns none only for an empty queue. -/
theorem ckptRun_sound {size maxInvalidBufSlot recLsn : Nat} (hsize : 2 ≤ size) (hlsn : 0 < recLsn)
    {events : List CkptEvent} {s : Ckpt}
    (h : (startCkpt size maxInvalidBufSlot recLsn).run events = some s) :
    (∀ b q', s.queue.reserve b = some q' → s.queue.bufferAt s.queue.tail = 0) ∧
    (∀ b slot, s.queue.bufQueueLoc b = some slot →
      ∃ p, (s.queue.head ≤ p ∧ p < s.queue.tail ∧ slot = p % s.queue.size ∧
          s.queue.bufferAt p = b) ∧
        ∀ p', s.queue.head ≤ p' → p' < s.queue.tail → s.queue.bufferAt p' = b → p' = p) ∧
    (∀ p, s.queue.head ≤ p → p < s.queue.tail → s.queue.bufferAt p ≠ 0 →
      s.queue.bufQueueLoc (s.queue.bufferAt p) = some (p % s.queue.size)) ∧
    (∀ p p', s.queue.head ≤ p → p ≤ p' → p' < s.queue.tail → s.queue.bufferAt p ≠ 0 →
      s.queue.bufferAt p' ≠ 0 →
      s.queue.bufRecLsn (s.queue.bufferAt p) ≤ s.queue.bufRecLsn (s.queue.bufferAt p')) ∧
    ((startCkpt size maxInvalidBufSlot recLsn).neverLapped events = true →
      (∀ lsn, s.scan = .returned lsn →
        ∀ b, s.queue.bufQueueLoc b ≠ none → lsn ≤ s.queue.bufRecLsn b) ∧
      (s.queue.ckptGetMinRecLsn s.scan = .returned 0 → ∀ b, s.queue.bufQueueLoc b = none)) := by
  have hstart : QueueInv (startCkpt size maxInvalidBufSlot recLsn).queue :=
    queueInv_emptyQueue maxInvalidBufSlot hsize hlsn
  have hq := queueInv_ckptRun hstart h
  have hb := hq.base
  have hroom := hb.room
  refine ⟨fun b q' _ => ?_, fun b slot hs => ?_, hb.names, fun p p' h1 hpp h2 hn hn' => ?_,
    fun hlap => ?_⟩
  · exact hb.beyond_empty _ le_rfl (by omega)
  · obtain ⟨hb0, p, h1, h2, hslot, hat⟩ := hb.held b slot hs
    refine ⟨p, ⟨h1, h2, hslot, hat⟩, fun p' h1' h2' hat' => ?_⟩
    exact hb.position_unique h1' h2' h1 h2 (hat' ▸ hb0) (by rw [hat, hat'])
  · rcases Nat.lt_or_eq_of_le hpp with hlt | rfl
    · exact hb.mono p _ p' _ (.inl ⟨h1, by omega, hn, rfl⟩) (.inl ⟨by omega, h2, hn', rfl⟩) hlt
    · exact le_rfl
  · have hs := scanOk_run hstart trivial hlap h
    refine ⟨fun lsn hret b hqueued => ?_, fun hret b => ?_⟩
    · rw [hret] at hs
      obtain ⟨p, hc⟩ := hb.carries_queued hqueued
      exact hs.2 p _ hc
    · by_contra hqueued
      obtain ⟨p, hc⟩ := hb.carries_queued hqueued
      exact returned_invalid hq hs hret hc

/-! ## Two runs -/

def pushEvents (buffer : Nat) : List CkptEvent :=
  [.queue (.reserve buffer), .queue (.fill buffer), .queue (.publish buffer)]

def pushAndRemove (buffer : Nat) : List CkptEvent :=
  pushEvents buffer ++ [.queue (.removeDirtyPage buffer)]

/-- The call has read a buffer from its slot when the page writer moves it towards the tail. -/
def callDuringMove : List CkptEvent :=
  pushEvents 1 ++ pushAndRemove 2 ++ pushAndRemove 2 ++ pushEvents 2 ++
    List.replicate 5 .getMinRecLsn ++
    [.queue (.updateRecLsn 200), .queue .startPrune] ++ List.replicate 5 (.queue .scanSlot) ++
    [.queue .readLoc, .queue .writeLoc, .queue .moveBuffer, .queue .moveBuffer] ++
    List.replicate 10 .getMinRecLsn

theorem ckptRun_sound_duringMove :
    ∃ s, (startCkpt 6 4 100).run callDuringMove = some s ∧ s.scan = .returned 100 ∧
      s.queue.bufQueueLoc 1 = some 2 ∧
      ∀ b, s.queue.bufQueueLoc b ≠ none → 100 ≤ s.queue.bufRecLsn b := by
  have hrun : (((startCkpt 6 4 100).run callDuringMove).map fun s =>
      (s.scan, s.queue.bufQueueLoc 1)) = some (.returned 100, some 2) := by decide +kernel
  obtain ⟨s, hs, heq⟩ := Option.map_eq_some_iff.mp hrun
  obtain ⟨hscan, hloc⟩ := Prod.mk.inj heq
  have hsound := ckptRun_sound (by decide) (by decide) hs
  exact ⟨s, hs, hscan, hloc, (hsound.2.2.2.2 (by decide +kernel)).1 100 hscan⟩

/-- Three slots that are empty again, and a buffer behind them. -/
def beforeCall : List CkptEvent :=
  pushAndRemove 2 ++ pushAndRemove 2 ++ pushAndRemove 2 ++ pushEvents 1

/-- The call has found the first slot valid when the head passes the three. Then the log
grows and the tail reaches the slot again. -/
def duringCall : List CkptEvent :=
  List.replicate 4 .getMinRecLsn ++
    (List.replicate 3 [.queue .advanceHead, .queue .clearState]).flatten ++
    [.queue (.updateRecLsn 200)] ++ (List.replicate 6 (pushAndRemove 2)).flatten ++
    pushEvents 2 ++ List.replicate 3 .getMinRecLsn

/-- The call returns 200 while the buffer at 100 is queued before and after it, in the same
slot. -/
theorem minRecLsn_tooLate : ∃ s s', (startCkpt 10 2 100).run beforeCall = some s ∧ s.scan = .idle ∧
      s.queue.bufQueueLoc 1 = some 3 ∧ s.run duringCall = some s' ∧
      .queue (.removeDirtyPage 1) ∉ duringCall ∧ s'.scan = .returned 200 ∧
      s'.queue.bufQueueLoc 1 = some 3 ∧ s'.queue.bufRecLsn 1 = 100 := by
  have hbefore : (((startCkpt 10 2 100).run beforeCall).map fun s =>
      (s.scan, s.queue.bufQueueLoc 1)) = some (.idle, some 3) := by decide +kernel
  obtain ⟨s, hs, heq⟩ := Option.map_eq_some_iff.mp hbefore
  obtain ⟨hscan, hloc⟩ := Prod.mk.inj heq
  have hduring : ((((startCkpt 10 2 100).run beforeCall).bind fun s => s.run duringCall).map
      fun s => (s.scan, s.queue.bufQueueLoc 1, s.queue.bufRecLsn 1)) =
        some (.returned 200, some 3, 100) := by decide +kernel
  rw [hs, Option.bind_some] at hduring
  obtain ⟨s', hs', heq'⟩ := Option.map_eq_some_iff.mp hduring
  obtain ⟨hscan', hrest⟩ := Prod.mk.inj heq'
  obtain ⟨hloc', hlsn'⟩ := Prod.mk.inj hrest
  exact ⟨s, s', hs, hscan, hloc, hs', by decide +kernel, hscan', hloc', hlsn'⟩

end OpenGauss.Checkpoint
