import Mathlib.Data.List.Perm.Basic
import Mathlib.Data.List.Flatten
import Mathlib.Algebra.Ring.Nat
import Mathlib.Tactic.Common

/-!
# Limbo queues

Retired objects wait in groups of elements. A dummy element starts each run of objects
with one commit number, and cleaning reads the numbers of the dummies only. A pass that
stops after a given count leaves a dummy in place of the last object it reclaimed. Groups
that have become empty are hooked behind the last one and used again.
-/

namespace OpenGauss.MotGc

variable {g : LimboGroup} {es : List LimboElement} {empties : List LimboGroup} {perform : Nat}
  {mark : Option Nat}

/-- An element without object is a dummy. -/
structure LimboElement where
  object : Option Nat
  csn : Nat
  /-- the callback is not `NullDtor` -/
  live : Bool
deriving DecidableEq

/-- `LimboGroup::CAPACITY`: 36 bytes an element, 4096 a group, 24 of them its header. -/
def capacity : Nat := 113

structure LimboGroup where
  epoch : Nat
  /-- `m_tail` -/
  tail : Nat
  /-- the elements from `m_head` to `m_tail` -/
  elements : List LimboElement
deriving DecidableEq

def LimboGroup.new : LimboGroup := ⟨0, 0, []⟩

namespace LimboGroup

/-- A dummy goes first when the group is empty or the number has changed. -/
def pushBack (g : LimboGroup) (object epoch : Nat) : LimboGroup :=
  if g.elements = [] ∨ g.epoch ≠ epoch then
    { epoch := epoch
      tail := g.tail + 2
      elements := g.elements ++ [⟨none, epoch, false⟩, ⟨some object, epoch, true⟩] }
  else { g with tail := g.tail + 1, elements := g.elements ++ [⟨some object, epoch, true⟩] }

/-- The objects to reclaim, with their numbers. -/
def waiting (elements : List LimboElement) : List (Nat × Nat) :=
  elements.filterMap fun e => if e.live then e.object.map fun object => (object, e.csn) else none

end LimboGroup

structure Cleaned (α : Type) where
  reclaimed : List (Nat × Nat)
  count : Nat
  rest : α

/-- The loop of `CleanUntil`. The bound is `perform - 1`, so a dummy stops it as soon as its
number is not below `perform`. -/
def cleanElements (perform : Nat) : Nat → Nat → List LimboElement → Cleaned (List LimboElement)
  | _, count, [] => ⟨[], count, []⟩
  | csn, count, e :: es =>
    match e.object with
    | some object =>
      if e.live then
        if count - 1 = 0 then ⟨[(object, e.csn)], 0, ⟨none, csn, false⟩ :: es⟩
        else
          let r := cleanElements perform csn (count - 1) es
          { r with reclaimed := (object, e.csn) :: r.reclaimed }
      else cleanElements perform csn count es
    | none =>
      if perform ≤ e.csn then ⟨[], count, e :: es⟩ else cleanElements perform e.csn count es

def LimboGroup.cleanUntil (g : LimboGroup) (perform count : Nat) : Cleaned LimboGroup :=
  let r := cleanElements perform 0 count g.elements
  { reclaimed := r.reclaimed
    count := r.count
    rest := if r.rest = [] then { g with tail := 0, elements := [] }
      else { g with elements := r.rest } }

/-- The groups from `m_limboHead` up to `m_limboTail`, which is `last`, and those behind it.
All objects retired and reclaimed so far are recorded with their numbers. -/
structure GcQueue where
  before : List LimboGroup
  last : LimboGroup
  free : List LimboGroup
  totalLimboInuseElements : Nat
  retired : List (Nat × Nat)
  reclaimed : List (Nat × Nat)

def GcQueue.new : GcQueue := ⟨[], .new, [], 0, [], []⟩

/-- The groups after a pass; `free` are those that have become empty. -/
structure Groups where
  before : List LimboGroup
  last : LimboGroup
  free : List LimboGroup

/-- The loop of `HardQuiesce`. When all groups are empty the first of them is head and tail. -/
def cleanGroups (perform : Nat) :
    Nat → List LimboGroup → List LimboGroup → LimboGroup → Cleaned Groups
  | 0, empties, before, last => ⟨[], 0, ⟨before, last, empties⟩⟩
  | count + 1, empties, [], last =>
    let r := last.cleanUntil perform (count + 1)
    if r.rest.elements ≠ [] then ⟨r.reclaimed, r.count, ⟨[], r.rest, empties⟩⟩
    else ⟨r.reclaimed, r.count, ⟨[], (empties ++ [r.rest]).headD r.rest,
      (empties ++ [r.rest]).tail⟩⟩
  | count + 1, empties, g :: before, last =>
    let r := g.cleanUntil perform (count + 1)
    if r.rest.elements ≠ [] then ⟨r.reclaimed, r.count, ⟨r.rest :: before, last, empties⟩⟩
    else
      let t := cleanGroups perform r.count (empties ++ [r.rest]) before last
      { t with reclaimed := r.reclaimed ++ t.reclaimed }

namespace GcQueue

def head (q : GcQueue) : LimboGroup := q.before.headD q.last

/-- `FirstEpoch` of the first group. -/
def firstEpoch (q : GcQueue) : Nat := (q.head.elements.head?.map LimboElement.csn).getD 0

/-- `RefillLimboGroup` -/
def refill (q : GcQueue) : GcQueue :=
  { q with before := q.before ++ [q.last], last := q.free.headD .new, free := q.free.tail }

def pushBack (q : GcQueue) (object csn : Nat) : GcQueue :=
  let q' := if q.last.tail + 2 > capacity then q.refill else q
  { q' with
    last := q'.last.pushBack object csn
    totalLimboInuseElements := q'.totalLimboInuseElements + 1
    retired := q'.retired ++ [(object, csn)] }

def hardQuiesce (q : GcQueue) (perform count : Nat) : GcQueue :=
  if q.head.elements = [] ∨ perform ≤ q.firstEpoch then q
  else
    let r := cleanGroups perform count [] q.before q.last
    { q with
      before := r.rest.before
      last := r.rest.last
      free := r.rest.free ++ q.free
      totalLimboInuseElements := q.totalLimboInuseElements - r.reclaimed.length
      reclaimed := q.reclaimed ++ r.reclaimed }

def waiting (q : GcQueue) : List (Nat × Nat) :=
  (q.before ++ [q.last]).flatMap fun g => LimboGroup.waiting g.elements

end GcQueue

/-! ## Runs of elements -/

/-- Every object has the number of the dummy before it. -/
def Marked : Option Nat → List LimboElement → Prop
  | _, [] => True
  | mark, e :: es =>
    (e.object = none → Marked (some e.csn) es) ∧
      (e.object ≠ none → mark = some e.csn ∧ Marked mark es)

def lastMark : Option Nat → List LimboElement → Option Nat
  | mark, [] => mark
  | mark, e :: es => lastMark (if e.object = none then some e.csn else mark) es

theorem marked_append {fs : List LimboElement} :
    Marked mark (es ++ fs) ↔ Marked mark es ∧ Marked (lastMark mark es) fs := by
  induction es generalizing mark with
  | nil => exact ⟨fun h => ⟨trivial, h⟩, fun h => h.2⟩
  | cons e es ih =>
    by_cases ho : e.object = none
    · simp only [List.cons_append, Marked, lastMark, ho, ih, true_implies, ne_eq, not_true,
        false_implies, and_true, if_true]
    · simp only [List.cons_append, Marked, lastMark, ho, ih, false_implies, ne_eq, not_false_iff,
        true_implies, true_and, if_false, and_assoc]

theorem lastMark_append {fs : List LimboElement} :
    lastMark mark (es ++ fs) = lastMark (lastMark mark es) fs := by
  induction es generalizing mark with
  | nil => rfl
  | cons e es ih => exact ih

structure LimboGroup.Ok (g : LimboGroup) : Prop where
  marked : Marked none g.elements
  epoch : g.elements ≠ [] → lastMark none g.elements = some g.epoch
  length_le : g.elements.length ≤ g.tail
  tail_le : g.tail ≤ capacity

theorem LimboGroup.ok_new : LimboGroup.new.Ok :=
  ⟨trivial, fun h => absurd rfl h, le_rfl, Nat.zero_le _⟩

theorem LimboGroup.Ok.pushBack (h : g.Ok) (hroom : g.tail + 2 ≤ capacity) (object epoch : Nat) :
    (g.pushBack object epoch).Ok := by
  have hlen := h.length_le
  unfold LimboGroup.pushBack
  split
  · refine ⟨?_, fun _ => ?_, ?_, hroom⟩
    · rw [marked_append]
      exact ⟨h.marked, fun _ => ⟨nofun, fun _ => ⟨rfl, trivial⟩⟩, fun hn => absurd rfl hn⟩
    · rw [lastMark_append]
      rfl
    · rw [List.length_append]
      exact Nat.add_le_add_right hlen 2
  next hsame =>
    obtain ⟨hne, hepoch⟩ := not_or.mp hsame
    have hmark : lastMark none g.elements = some epoch := by
      rw [h.epoch hne, not_not.mp hepoch]
    refine ⟨?_, fun _ => ?_, ?_, Nat.le_trans (Nat.add_le_add_left (by decide) _) hroom⟩
    · rw [marked_append, hmark]
      exact ⟨h.marked, nofun, fun _ => ⟨rfl, trivial⟩⟩
    · rw [lastMark_append]
      show lastMark none g.elements = some g.epoch
      exact h.epoch hne
    · rw [List.length_append]
      exact Nat.add_le_add_right hlen 1

theorem waiting_pushBack (g : LimboGroup) (object epoch : Nat) :
    LimboGroup.waiting (g.pushBack object epoch).elements =
      LimboGroup.waiting g.elements ++ [(object, epoch)] := by
  unfold LimboGroup.pushBack LimboGroup.waiting
  split <;> rw [List.filterMap_append] <;> rfl

/-! ## Cleaning a group -/

structure CleanOk (perform : Nat) (mark : Option Nat) (es : List LimboElement)
    (r : Cleaned (List LimboElement)) : Prop where
  below : ∀ o ∈ r.reclaimed, o.2 < perform
  split : LimboGroup.waiting es = r.reclaimed ++ LimboGroup.waiting r.rest
  marked : Marked none r.rest
  lastMark : r.rest ≠ [] → lastMark none r.rest = lastMark mark es
  length_le : r.rest.length ≤ es.length

theorem waiting_cons_some {e : LimboElement} {object : Nat} (ho : e.object = some object) :
    LimboGroup.waiting (e :: es) =
      (if e.live then [(object, e.csn)] else []) ++ LimboGroup.waiting es := by
  unfold LimboGroup.waiting
  rw [List.filterMap_cons, ho]
  by_cases hl : e.live <;> simp [hl]

theorem waiting_cons_none {e : LimboElement} (ho : e.object = none) :
    LimboGroup.waiting (e :: es) = LimboGroup.waiting es := by
  unfold LimboGroup.waiting
  rw [List.filterMap_cons, ho]
  simp

theorem cleanElements_ok {count csn : Nat} (hm : Marked mark es)
    (hmark : ∀ c, mark = some c → c = csn ∧ c < perform) :
    CleanOk perform mark es (cleanElements perform csn count es) := by
  induction es generalizing mark csn count with
  | nil =>
    exact ⟨nofun, rfl, trivial, fun h => absurd rfl h, le_rfl⟩
  | cons e es ih =>
    obtain ⟨hdummy, hobject⟩ := hm
    unfold cleanElements
    split
    next object ho =>
      have hne : e.object ≠ none := by rw [ho]; exact Option.some_ne_none _
      obtain ⟨hcsn, hrest⟩ := hobject hne
      obtain ⟨hsame, hlt⟩ := hmark _ hcsn
      have hlast : lastMark mark (e :: es) = lastMark mark es := by
        unfold lastMark
        rw [if_neg hne]
        cases es <;> rfl
      split
      next hlive =>
        split
        next =>
          -- the object reclaimed last becomes the dummy of its run
          refine ⟨List.forall_mem_singleton.mpr hlt, ?_, ⟨fun _ => ?_, fun h => absurd rfl h⟩,
            fun _ => ?_, le_rfl⟩
          · rw [waiting_cons_some ho, hlive, waiting_cons_none rfl]
            rfl
          · rw [← hsame, ← hcsn]
            exact hrest
          · rw [hlast, ← hsame, hcsn]
            rfl
        next =>
          have h : CleanOk perform mark es (cleanElements perform csn (count - 1) es) :=
            ih hrest hmark
          refine ⟨List.forall_mem_cons.mpr ⟨hlt, h.below⟩, ?_, h.marked, fun hn => ?_,
            Nat.le_succ_of_le h.length_le⟩
          · rw [waiting_cons_some ho, hlive, h.split]
            rfl
          · rw [hlast]
            exact h.lastMark hn
      next hdead =>
        have h : CleanOk perform mark es (cleanElements perform csn count es) := ih hrest hmark
        refine ⟨h.below, ?_, h.marked, fun hn => ?_, Nat.le_succ_of_le h.length_le⟩
        · rw [waiting_cons_some ho, if_neg hdead]
          exact h.split
        · rw [hlast]
          exact h.lastMark hn
    next ho =>
      have hrest := hdummy ho
      have hlast : ∀ m, lastMark m (e :: es) = lastMark (some e.csn) es := by
        intro m
        unfold lastMark
        rw [if_pos ho]
        cases es <;> rfl
      split
      next =>
        refine ⟨nofun, rfl, ⟨fun _ => hrest, fun h => absurd ho h⟩, fun _ => ?_, le_rfl⟩
        rw [hlast, hlast]
      next hgo =>
        have h : CleanOk perform (some e.csn) es (cleanElements perform e.csn count es) :=
          ih hrest (by rintro c ⟨⟩; exact ⟨rfl, not_le.mp hgo⟩)
        refine ⟨h.below, ?_, h.marked, fun hn => ?_, Nat.le_succ_of_le h.length_le⟩
        · rw [waiting_cons_none ho]
          exact h.split
        · rw [hlast]
          exact h.lastMark hn

structure GroupCleaned (perform : Nat) (g : LimboGroup) (r : Cleaned LimboGroup) : Prop where
  ok : r.rest.Ok
  below : ∀ o ∈ r.reclaimed, o.2 < perform
  split : LimboGroup.waiting g.elements = r.reclaimed ++ LimboGroup.waiting r.rest.elements
  emptied : r.rest.elements = [] → r.rest.tail = 0

theorem LimboGroup.Ok.cleanUntil (h : g.Ok) (perform count : Nat) :
    GroupCleaned perform g (g.cleanUntil perform count) := by
  have hc : CleanOk perform none g.elements (cleanElements perform 0 count g.elements) :=
    cleanElements_ok h.marked nofun
  unfold LimboGroup.cleanUntil
  generalize hr : cleanElements perform 0 count g.elements = r at hc
  by_cases hempty : r.rest = []
  · have hsplit := hc.split
    rw [hempty] at hsplit
    simp only [hempty, if_true]
    exact ⟨⟨trivial, fun h => absurd rfl h, le_rfl, Nat.zero_le _⟩, hc.below, hsplit, fun _ => rfl⟩
  · simp only [hempty, if_false]
    refine ⟨⟨hc.marked, fun hn => ?_, Nat.le_trans hc.length_le h.length_le, h.tail_le⟩, hc.below,
      hc.split, fun hn => absurd hn hempty⟩
    have hne : g.elements ≠ [] := by
      intro hnil
      exact hempty (by rw [← hr, hnil]; rfl)
    rw [hc.lastMark hn]
    exact h.epoch hne

/-! ## Cleaning a queue -/

structure GroupsOk (groups : Groups) : Prop where
  before : ∀ g ∈ groups.before, g.Ok
  last : groups.last.Ok
  free : ∀ g ∈ groups.free, g.Ok ∧ g.elements = [] ∧ g.tail = 0

def Groups.waiting (groups : Groups) : List (Nat × Nat) :=
  (groups.before ++ [groups.last]).flatMap fun g => LimboGroup.waiting g.elements

structure GroupsCleaned (perform : Nat) (groups : Groups) (r : Cleaned Groups) : Prop where
  ok : GroupsOk r.rest
  below : ∀ o ∈ r.reclaimed, o.2 < perform
  split : groups.waiting = r.reclaimed ++ r.rest.waiting

theorem waiting_single (g : LimboGroup) (free : List LimboGroup) :
    Groups.waiting ⟨[], g, free⟩ = LimboGroup.waiting g.elements := by
  simp [Groups.waiting]

theorem waiting_cons (g : LimboGroup) (before : List LimboGroup) (last : LimboGroup)
    (free : List LimboGroup) : Groups.waiting ⟨g :: before, last, free⟩ =
      LimboGroup.waiting g.elements ++ Groups.waiting ⟨before, last, free⟩ := by
  simp [Groups.waiting]

theorem GroupsOk.emptied {r : Cleaned LimboGroup}
    (hfree : ∀ g ∈ empties, g.Ok ∧ g.elements = [] ∧ g.tail = 0) (hr : GroupCleaned perform g r)
    (hnil : r.rest.elements = []) :
    ∀ g ∈ empties ++ [r.rest], g.Ok ∧ g.elements = [] ∧ g.tail = 0 := by
  refine List.forall_mem_append.mpr ⟨hfree, List.forall_mem_singleton.mpr ?_⟩
  exact ⟨hr.ok, hnil, hr.emptied hnil⟩

theorem cleanGroups_nil {count : Nat} {last : LimboGroup} (h : GroupsOk ⟨[], last, empties⟩) :
    GroupsCleaned perform ⟨[], last, empties⟩ (cleanGroups perform (count + 1) empties [] last) := by
  have hr : GroupCleaned perform last (last.cleanUntil perform (count + 1)) :=
    h.last.cleanUntil perform (count + 1)
  unfold cleanGroups
  dsimp only
  split
  · refine ⟨⟨h.before, hr.ok, h.free⟩, hr.below, ?_⟩
    rw [waiting_single, waiting_single]
    exact hr.split
  next hempty =>
    have hnil := not_not.mp hempty
    have hall := GroupsOk.emptied h.free hr hnil
    obtain ⟨e, es, heq⟩ := List.exists_cons_of_ne_nil
      (List.append_ne_nil_of_right_ne_nil empties
        (List.cons_ne_nil (last.cleanUntil perform (count + 1)).rest []))
    rw [heq] at hall ⊢
    have he := hall e (.head _)
    refine ⟨⟨h.before, he.1, fun g hg => hall g (.tail _ hg)⟩, hr.below, ?_⟩
    rw [waiting_single, waiting_single, hr.split, hnil]
    show _ = _ ++ LimboGroup.waiting e.elements
    rw [he.2.1]

theorem cleanGroups_ok (perform count : Nat) {before : List LimboGroup} {last : LimboGroup}
    (h : GroupsOk ⟨before, last, empties⟩) :
    GroupsCleaned perform ⟨before, last, empties⟩
      (cleanGroups perform count empties before last) := by
  induction before generalizing count empties with
  | nil =>
    cases count with
    | zero => exact ⟨h, nofun, rfl⟩
    | succ count => exact cleanGroups_nil h
  | cons g before ih =>
    cases count with
    | zero => exact ⟨h, nofun, rfl⟩
    | succ count =>
      obtain ⟨hg, hrest⟩ := List.forall_mem_cons.mp h.before
      have hr := hg.cleanUntil perform (count + 1)
      unfold cleanGroups
      dsimp only
      split
      · refine ⟨⟨List.forall_mem_cons.mpr ⟨hr.ok, hrest⟩, h.last, h.free⟩, hr.below, ?_⟩
        rw [waiting_cons, waiting_cons, hr.split, List.append_assoc]
      next hempty =>
        have hnil := not_not.mp hempty
        have hnext := ih (g.cleanUntil perform (count + 1)).count
          ⟨hrest, h.last, GroupsOk.emptied h.free hr hnil⟩
        refine ⟨hnext.ok, List.forall_mem_append.mpr ⟨hr.below, hnext.below⟩, ?_⟩
        -- the empties do not count, so the list of them does not matter
        have hw : Groups.waiting ⟨before, last, empties⟩ = _ := hnext.split
        rw [waiting_cons, hr.split, hnil, hw]
        simp [LimboGroup.waiting]

structure GcQueue.Ok (q : GcQueue) : Prop where
  groups : GroupsOk ⟨q.before, q.last, q.free⟩
  inuse : q.totalLimboInuseElements = q.waiting.length
  once : q.retired.Perm (q.waiting ++ q.reclaimed)

theorem GcQueue.ok_new : GcQueue.new.Ok :=
  ⟨⟨nofun, LimboGroup.ok_new, nofun⟩, rfl, List.Perm.refl _⟩

variable {q : GcQueue}

theorem GcQueue.Ok.refill (h : q.Ok) :
    q.refill.Ok ∧ q.refill.last.tail + 2 ≤ capacity := by
  have hlast : (q.free.headD .new).Ok ∧ (q.free.headD .new).elements = [] ∧
      (q.free.headD .new).tail = 0 := by
    cases hf : q.free with
    | nil => exact ⟨LimboGroup.ok_new, rfl, rfl⟩
    | cons g gs => exact h.groups.free g (by rw [hf]; exact List.mem_cons_self ..)
  have hwait : q.refill.waiting = q.waiting := by
    show ((q.before ++ [q.last]) ++ [q.free.headD .new]).flatMap _ = _
    rw [List.flatMap_append, List.flatMap_singleton, hlast.2.1]
    exact List.append_nil _
  have hbefore : ∀ g ∈ q.before ++ [q.last], g.Ok :=
    List.forall_mem_append.mpr ⟨h.groups.before, List.forall_mem_singleton.mpr h.groups.last⟩
  refine ⟨⟨⟨hbefore, hlast.1, fun g hg => ?_⟩, ?_, ?_⟩, ?_⟩
  · exact h.groups.free g (List.mem_of_mem_tail hg)
  · rw [hwait]
    exact h.inuse
  · rw [hwait]
    exact h.once
  · show (q.free.headD .new).tail + 2 ≤ capacity
    rw [hlast.2.2]
    decide

theorem GcQueue.Ok.pushBack (h : q.Ok) (object csn : Nat) :
    (q.pushBack object csn).Ok ∧ (q.pushBack object csn).reclaimed = q.reclaimed := by
  have key : ∀ {p : GcQueue}, p.Ok → p.last.tail + 2 ≤ capacity →
      ({ p with
        last := p.last.pushBack object csn
        totalLimboInuseElements := p.totalLimboInuseElements + 1
        retired := p.retired ++ [(object, csn)] } : GcQueue).Ok := by
    intro p hp hroom
    have hwait : ({ p with
        last := p.last.pushBack object csn
        totalLimboInuseElements := p.totalLimboInuseElements + 1
        retired := p.retired ++ [(object, csn)] } : GcQueue).waiting =
          p.waiting ++ [(object, csn)] := by
      simp [GcQueue.waiting, waiting_pushBack]
    refine ⟨⟨hp.groups.before, hp.groups.last.pushBack hroom object csn, hp.groups.free⟩, ?_, ?_⟩
    · rw [hwait, List.length_append, ← hp.inuse]
      rfl
    · rw [hwait, List.append_assoc]
      refine (hp.once.append_right _).trans ?_
      rw [List.append_assoc]
      exact List.perm_append_comm.append_left _
  unfold GcQueue.pushBack
  split
  · exact ⟨key h.refill.1 h.refill.2, rfl⟩
  next hroom => exact ⟨key h (not_lt.mp hroom), rfl⟩

/-- A pass reclaims objects of the queue whose numbers are below the bound. -/
theorem GcQueue.Ok.hardQuiesce (h : q.Ok) (perform count : Nat) :
    (q.hardQuiesce perform count).Ok ∧
      ∃ new, (q.hardQuiesce perform count).reclaimed = q.reclaimed ++ new ∧
        ∀ o ∈ new, o.2 < perform := by
  set clean := cleanGroups perform count
  unfold GcQueue.hardQuiesce
  split
  · exact ⟨h, [], (List.append_nil _).symm, nofun⟩
  have hstart : GroupsOk ⟨q.before, q.last, []⟩ :=
    ⟨h.groups.before, h.groups.last, nofun⟩
  obtain ⟨hok, hbelow, hsplit⟩ := cleanGroups_ok perform count hstart
  have hold : q.waiting = (clean [] q.before q.last).reclaimed ++
      (clean [] q.before q.last).rest.waiting := hsplit
  refine ⟨⟨⟨hok.before, hok.last, List.forall_mem_append.mpr ⟨hok.free, h.groups.free⟩⟩, ?_, ?_⟩,
    _, rfl, hbelow⟩
  · show q.totalLimboInuseElements - _ =
      (clean [] q.before q.last).rest.waiting.length
    rw [h.inuse, hold, List.length_append, Nat.add_sub_cancel_left]
  · refine h.once.trans ?_
    rw [hold]
    show List.Perm _ ((clean [] q.before q.last).rest.waiting ++ (_ ++ _))
    refine (List.perm_append_comm.append_right _).trans ?_
    rw [List.append_assoc]
    exact List.perm_append_comm.append_left _

end OpenGauss.MotGc
