import OpenGauss.MotGc.LimboQueue
import Mathlib.Logic.Function.Basic

/-!
# The garbage collection managers of the sessions

Each session publishes the commit number its transaction started at, and `MinActiveEpoch`
takes the minimum over all sessions as the bound below which objects are reclaimed. Every
read and write of a published number, of the commit counter and of the shared bound is one
step.
-/

namespace OpenGauss.MotGc

/-- `GC_QUEUE_TYPE` -/
inductive GcQueueType
  | deleteQueue
  | versionQueue
  | updateColumnQueue
  | genericQueue
deriving DecidableEq

/-- `m_rcuFreeCount` -/
def GcQueueType.rcuFreeCount : GcQueueType → Nat
  | .deleteQueue => 500
  | .versionQueue => 1000
  | .updateColumnQueue => 100000
  | .genericQueue => 1000

/-- Where `RunQuicese` or `GcCleanAll` is with a queue. -/
inductive Phase
  | readEpoch (again : Bool)
  | writeEpoch (again : Bool) (epoch : Nat)
  | test
  | lock
  /-- `MinActiveEpoch`: the managers still to read, what was found so far -/
  | scan (rest : List Nat) (min : Option Nat) (active : Nat) (tid : Option Nat)
  | writeActive (min : Nat) (barrier : Bool)
  | readActive (barrier : Bool)
  | quiesce (barrier : Bool)
deriving DecidableEq

structure Clean where
  /-- `GcCleanAll`; otherwise `RunQuicese` -/
  close : Bool
  queue : GcQueueType
  rest : List GcQueueType
  /-- `m_performGcEpoch` of the queue -/
  perform : Nat
  performGCEpoch : Nat
  thresholdReached : Bool
  phase : Phase
deriving DecidableEq

inductive Pc
  | out
  /-- `GcStartTxn` has read the number and not published it yet -/
  | publish (csn : Nat)
  | clean (c : Clean)
deriving DecidableEq

def Pc.isPublish : Pc → Bool
  | .publish _ => true
  | _ => false

structure Session where
  gcEpoch : Nat
  isTxnSnapshotTaken : Bool
  isGcSessionStarted : Bool
  queue : GcQueueType → GcQueue
  pc : Pc
  /-- the number at which the transaction that is going on took its snapshot -/
  snapshot : Option Nat

structure Gc where
  counter : Nat
  /-- `g_gcActiveEpoch` -/
  activeEpoch : Nat
  /-- who holds `g_gcGlobalEpochLock` -/
  globalEpochLock : Option Nat
  /-- `allGcManagers` -/
  managers : List Nat
  isRecovering : Bool
  session : Nat → Session

inductive GcEvent
  | commit
  | startTxn (i : Nat)
  | publish (i : Nat)
  | recordObject (i : Nat) (queue : GcQueueType) (object csn : Nat)
  | endStatement (i : Nat)
  /-- the lock of the manager is taken, or it is not free -/
  | endTxn (i : Nat) (locked : Bool)
  | cleanAll (i : Nat)
  /-- one step of a cleaning; the answer says whether a size is over its limit -/
  | clean (i : Nat) (answer : Bool)
deriving DecidableEq

def GcEvent.session : GcEvent → Option Nat
  | .commit => none
  | .startTxn i => some i
  | .publish i => some i
  | .recordObject i _ _ _ => some i
  | .endStatement i => some i
  | .endTxn i _ => some i
  | .cleanAll i => some i
  | .clean i _ => some i

/-- The beginning of `RunQuicese` and `GcCleanAll`. -/
def Clean.start (close : Bool) : Clean :=
  ⟨close, .deleteQueue, [.versionQueue, .updateColumnQueue, .genericQueue], 0, 0, false,
    .readEpoch false⟩

/-- The body of `RunQuiesce`, or the pass of `GcCleanAll`. -/
def Clean.quiesce (c : Clean) (q : GcQueue) (answer : Bool) : GcQueue :=
  if c.close then q.hardQuiesce c.perform q.totalLimboInuseElements
  else
    let q' := q.hardQuiesce c.perform c.queue.rcuFreeCount
    if answer then q'.hardQuiesce c.perform q'.totalLimboInuseElements else q'

namespace Gc

variable (s : Gc)

def set (i : Nat) (x : Session) : Gc := { s with session := Function.update s.session i x }

def goto (i : Nat) (c : Clean) (phase : Phase) : Gc :=
  s.set i { s.session i with pc := .clean { c with phase := phase } }

/-- The session goes on with the next queue; after the last one the call ends. -/
def nextQueue (x : Session) (c : Clean) : Session :=
  match c.rest with
  | queue :: rest =>
    { x with pc := .clean { c with
        queue := queue
        rest := rest
        phase := if c.close then .test else .readEpoch false } }
  | [] =>
    if c.close then { x with gcEpoch := 0, pc := .out }
    else { x with
      gcEpoch := 0, isTxnSnapshotTaken := false, isGcSessionStarted := false, pc := .out }

/-- A pass of `GcCleanAll` that may go one number beyond the shared bound. -/
def beyondBound (c : Clean) : Bool := c.close && (decide (c.queue = .genericQueue) || s.isRecovering)

/-- At the close of a session that sees itself alone the bound is one higher. -/
def performEpoch (c : Clean) (barrier : Bool) : Nat :=
  if s.beyondBound c && barrier then s.activeEpoch + 1 else s.activeEpoch

/-- `isBarrierReached`: no session was counted, or only the one that counts. -/
def seesItselfAlone (i active : Nat) (tid : Option Nat) : Bool :=
  decide (active ≤ 1 ∧ (active = 0 ∨ tid = some i))

def cleanStep (i : Nat) (c : Clean) (answer : Bool) : Gc :=
  match c.phase with
  | .readEpoch again => s.goto i c (.writeEpoch again s.counter)
  | .writeEpoch again epoch =>
    s.set i { s.session i with
      gcEpoch := epoch
      pc := .clean { c with phase := if again then .lock else .test } }
  | .test =>
    if c.close then
      if ((s.session i).queue c.queue).totalLimboInuseElements = 0 then
        s.set i (nextQueue (s.session i) c)
      else s.goto i c (.readEpoch true)
    else if answer = false then s.set i (nextQueue (s.session i) c)
    else if c.thresholdReached then s.goto i { c with perform := c.performGCEpoch } (.quiesce false)
    else if s.activeEpoch ≤ ((s.session i).queue c.queue).firstEpoch then
      s.goto i { c with perform := s.activeEpoch } .lock
    else s.goto i { c with perform := s.activeEpoch } (.quiesce false)
  | .lock =>
    if s.globalEpochLock = none then
      { s.goto i c (.scan s.managers none 0 none) with globalEpochLock := some i }
    else s.goto i c (.readActive false)
  | .scan (t :: rest) min active tid =>
    if 0 < (s.session t).gcEpoch then
      s.goto i c (.scan rest (some (min.elim (s.session t).gcEpoch (Nat.min (s.session t).gcEpoch)))
        (active + 1) (some t))
    else s.goto i c (.scan rest min active tid)
  | .scan [] min active tid =>
    s.goto i c (.writeActive (min.getD s.counter) (seesItselfAlone i active tid))
  | .writeActive min barrier =>
    { s.goto i c (.readActive barrier) with activeEpoch := min, globalEpochLock := none }
  | .readActive barrier =>
    s.goto i { c with
      perform := s.performEpoch c barrier
      performGCEpoch := if c.close then c.performGCEpoch else s.performEpoch c barrier
      thresholdReached := true } (.quiesce barrier)
  | .quiesce _ =>
    let q := c.quiesce ((s.session i).queue c.queue) answer
    let x := { s.session i with queue := Function.update (s.session i).queue c.queue q }
    s.set i (if c.close then { x with gcEpoch := 0, pc := .clean { c with phase := .test } }
      else nextQueue x c)

/-- What a session does outside a call. -/
def whenOut (i : Nat) (s' : Gc) : Option Gc :=
  if (s.session i).pc = .out then some s' else none

def apply : GcEvent → Option Gc
  | .commit => some { s with counter := s.counter + 1 }
  | .startTxn i =>
    s.whenOut i (if (s.session i).isTxnSnapshotTaken then s
      else s.set i { s.session i with
        isTxnSnapshotTaken := true
        isGcSessionStarted := true
        pc := .publish s.counter
        snapshot := some s.counter })
  | .publish i =>
    match (s.session i).pc with
    | .publish csn => some (s.set i { s.session i with gcEpoch := csn, pc := .out })
    | _ => none
  | .recordObject i queue object csn =>
    some (s.set i { s.session i with
      queue := Function.update (s.session i).queue queue
        (((s.session i).queue queue).pushBack object (if csn = 0 then s.counter else csn)) })
  | .endStatement i =>
    s.whenOut i (s.set i { s.session i with
      isTxnSnapshotTaken := false, gcEpoch := 0, snapshot := none })
  | .endTxn i locked =>
    s.whenOut i (if (s.session i).isGcSessionStarted = false then s
      else if locked then s.set i { s.session i with pc := .clean (.start false), snapshot := none }
      else s.set i { s.session i with
        isTxnSnapshotTaken := false, isGcSessionStarted := false, gcEpoch := 0, snapshot := none })
  | .cleanAll i =>
    s.whenOut i (s.set i { s.session i with pc := .clean (.start true), snapshot := none })
  | .clean i answer =>
    match (s.session i).pc with
    | .clean c => some (s.cleanStep i c answer)
    | _ => none

def step (event : GcEvent) : Option Gc :=
  if ∀ i ∈ event.session, i ∈ s.managers then s.apply event else none

def run : Gc → List GcEvent → Option Gc
  | s, [] => some s
  | s, event :: events => (s.step event).bind fun s' => run s' events

/-! ## Where the bound slips -/

/-- The cleaning of session `i` has passed session `t` and still sees itself alone. -/
def Phase.past (i t : Nat) : Phase → Bool
  | .scan rest _ active tid => !rest.contains t && seesItselfAlone i active tid
  | .writeActive _ barrier => barrier
  | .readActive barrier => barrier
  | .quiesce barrier => barrier
  | _ => false

/-- A transaction of session `t` would start at the number that session `b`, which closes, has
published itself, after `b` has looked at `t` and before `b` has reclaimed. -/
def closesAt (b t : Nat) : Bool :=
  match (s.session b).pc with
  | .clean c => s.beyondBound c && Phase.past b t c.phase &&
      decide (s.counter = (s.session b).gcEpoch)
  | _ => false

/-- `MinActiveEpoch` reads a session whose transaction has taken its number and not published
it. -/
def cleanSlips (c : Clean) : Bool :=
  match c.phase with
  | .scan (t :: _) _ _ _ => (s.session t).pc.isPublish
  | _ => false

/-- The same, or a transaction starts at the number of a session that closes. -/
def slips : GcEvent → Bool
  | .startTxn t => s.managers.any fun b => s.closesAt b t
  | .clean i _ =>
    match (s.session i).pc with
    | .clean c => s.cleanSlips c
    | _ => false
  | _ => false

def neverSlips : Gc → List GcEvent → Bool
  | _, [] => true
  | s, event :: events => !s.slips event && (s.step event).all fun s' => neverSlips s' events

end Gc

/-- `INITIAL_CSN` -/
def initialCsn : Nat := 3

def Session.new : Session := ⟨0, false, false, fun _ => .new, .out, none⟩

def startGc (managers : List Nat) (isRecovering : Bool) : Gc :=
  ⟨initialCsn, 0, none, managers, isRecovering, fun _ => .new⟩

end OpenGauss.MotGc
