import OpenGauss.Visibility.Store

/-!
# Changes to the page

Reserving a transaction slot (with the freezing, invalidation and rollback
that may free one), inserting, updating in place and deleting a row, undoing
a transaction's changes on the page, pruning, and the moves of the horizons.
Every change of a row appends one undo record linked to the slot's previous
one and one version to the row's history.
-/

namespace OpenGauss.Visibility

open Function (update)

/-! ## Freezing and invalidating slots -/

variable (s : Store)

/-- The slot numbers whose xid satisfies `p`. -/
def Store.slotsWith (p : Nat → Bool) : List Nat :=
  ((List.range s.tdCount).map (· + 1)).filter (fun td => p (s.tds td).xactid)

/-- `UHeapFreezeOrInvalidateTuples` on one row pointer. -/
def RowPtr.freezeOrInvalidate (slots : List Nat) (isFrozen : Bool) : RowPtr → RowPtr
  | .unused => .unused
  | .deleted tdSlot invalidXact =>
    if tdSlot ∈ slots then
      if isFrozen then .unused else .deleted tdSlot true
    else .deleted tdSlot invalidXact
  | .normal t =>
    if t.hdr.tdSlot ∈ slots then
      if isFrozen then (RowPtr.normal t).setFrozen
      else .normal { t with hdr := { t.hdr with invalidXact := true } }
    else .normal t

/-- Slots of all-visible transactions are emptied. -/
def Store.freezeSlots (slots : List Nat) : Store :=
  { s with
    rows := fun off => (s.rows off).freezeOrInvalidate slots true
    tds := fun td => if td ∈ slots then .empty else s.tds td }

/-- Slots of committed transactions lose their xid and keep their chain. -/
def Store.invalidateSlots (slots : List Nat) : Store :=
  { s with
    rows := fun off => (s.rows off).freezeOrInvalidate slots false
    tds := fun td => if td ∈ slots then { s.tds td with xactid := InvalidTransactionId }
      else s.tds td }

/-- `UPageExtendTDSlots`: new slots are empty. -/
def Store.extendTDSlots (nExtended : Nat) : Store :=
  { s with
    tds := fun td => if s.tdCount < td ∧ td ≤ s.tdCount + nExtended then .empty else s.tds td
    tdCount := s.tdCount + nExtended }

/-! ## Undoing a transaction's changes -/

/-- `UHeapPageGetTDSlotId`. -/
def Store.slotOf (x : Nat) : Option Nat :=
  (s.slotsWith (fun y => y == x)).head?

/-- `RestoreXactFromUndoRecord`. -/
def restoreXact (urec : UndoRecord) (hdr : TupleHeader) : TupleHeader :=
  if urec.oldXactId = FrozenTransactionId ∨ hdr.tdSlot = UHEAPTUP_SLOT_FROZEN then
    { hdr with tdSlot := UHEAPTUP_SLOT_FROZEN }
  else if urec.oldXactId ≠ (s.tdSlotInfo hdr.tdSlot).xid then { hdr with invalidXact := true }
  else hdr

/-- The row pointer after the record has been undone. An update or a delete
of a row that is not there is a PANIC in the source. -/
def undoRow (urec : UndoRecord) (rp : RowPtr) : RowPtr :=
  match urec.data, rp with
  | .insert, _ => .unused
  | .inplaceUpdate hdr _ _ _ _, .normal t =>
    .normal ⟨restoreXact s urec hdr, FrozenTransactionId, urec.data.oldBody t.body⟩
  | .delete hdr _, .normal t =>
    .normal ⟨restoreXact s urec hdr, FrozenTransactionId, urec.data.oldBody t.body⟩
  | _, rp => rp

/-- The test of `UHeapUndoActions` for a page without used row pointers. -/
def Store.pageEmpty : Bool :=
  (List.range s.maxoff).all (fun i => s.rows (i + 1) == .unused)

/-- `UPageInit`. -/
def Store.pageInit : Store :=
  { s with tds := fun _ => .empty, tdCount := s.initTd, rows := fun _ => .unused, maxoff := 0 }

/-- The record at `urp`, if it can be loaded. -/
def Store.loadUndoRecord (urp : Nat) : Option UndoRecord :=
  if urp = INVALID_UNDO_REC_PTR ∨ s.discarded urp then none else s.log[urp - 1]?

/-- The record of `x` on top of the slot is undone: the row goes back, the
slot goes back to the previous record, and it stays with `x` as long as that
record is `x`'s. -/
def Store.popUndo (x td : Nat) (urec : UndoRecord) : Store :=
  let slotXid :=
    if (s.loadUndoRecord urec.blkprev).map UndoRecord.xid = some x then x
    else InvalidTransactionId
  { s with
    rows := update s.rows urec.offset (undoRow s urec (s.rows urec.offset))
    tds := update s.tds td ⟨slotXid, urec.blkprev⟩
    versions := update s.versions urec.offset (s.versions urec.offset).tail }

/-- `UHeapUndoActions` for the newest record of `x` on the page. A page
without rows is initialised again. -/
def uheapUndoActions (x : Nat) : Store :=
  match s.slotOf x with
  | none => s
  | some td =>
    match s.loadUndoRecord (s.tds td).undoRecordPtr with
    | none => s
    | some urec =>
      let undone := s.popUndo x td urec
      if urec.data = .insert ∧ undone.pageEmpty then undone.pageInit else undone

/-- `ExecuteUndoActionsPage`: until the page has no slot of `x`. The source goes on until the
records are exhausted, and raises a PANIC if a slot is left then. -/
def executeUndoActionsPage (x : Nat) : Nat → Store → Store
  | 0, s => s
  | passes + 1, s =>
    match s.slotOf x with
    | none => s
    | some _ => executeUndoActionsPage x passes (uheapUndoActions s x)

/-! ## Reserving a slot -/

/-- `UHeapPageFreezeTransSlots`: whether slots were freed, whether the lock
was given up meanwhile, and the page. -/
def uheapPageFreezeTransSlots : Bool × Bool × Store :=
  let frozenSlots := s.slotsWith s.olderThanAllUndo
  let completed := s.slotsWith (fun x => !s.isInProgress x && s.didCommit x)
  let aborted := s.slotsWith (fun x => !s.isInProgress x && !s.didCommit x)
  if frozenSlots ≠ [] then (true, false, s.freezeSlots frozenSlots)
  else if completed ≠ [] then (true, false, s.invalidateSlots completed)
  else if aborted ≠ [] then
    (true, true, aborted.foldl
      (fun s' td => executeUndoActionsPage (s.tds td).xactid (s.log.length + 1) s') s)
  else (false, false, s)

/-- `UHeapPageReserveTransactionSlot`: the page and the reserved slot, none
if the caller has to start again. `nExtended` is the number of slots the
page has room for. -/
def uheapPageReserveTransactionSlot (x : Nat) (nExtended : Nat) : Store × Option Nat :=
  match s.slotOf x, s.slotOf InvalidTransactionId with
  | some td, _ => (s, some td)
  | none, some td => (s, some td)
  | none, none =>
    match uheapPageFreezeTransSlots s with
    | (true, true, s') => (s', none)
    | (true, false, s') => (s', s'.slotOf InvalidTransactionId)
    | (false, _, _) =>
      if 0 < nExtended then (s.extendTDSlots nExtended, some (s.tdCount + 1)) else (s, none)

/-! ## Writing -/

/-- The undo record goes to the end of the log and becomes the newest of its
slot, and the row changes. -/
def Store.putUndo (x : Nat) (td : Nat) (off : Nat)
    (data : UndoData) (oldXactId : Nat) (row : RowPtr)
    (contents : Option (List UInt8)) (image : List UInt8) : Store :=
  let urec : UndoRecord := ⟨x, off, data, oldXactId, (s.tds td).undoRecordPtr⟩
  let urp := s.log.length + 1
  { s with
    log := s.log ++ [urec]
    tds := update s.tds td ⟨x, urp⟩
    rows := update s.rows off row
    maxoff := max s.maxoff off
    versions := update s.versions off
      (⟨urp, urec, td, contents, image⟩ :: s.versions off) }

/-- `UHeapInsert` into the unused row pointer `off`. If the slot array grew,
the page is looked at again before anything is written. -/
def uheapInsert (x : Nat) (off : Nat) (body : List UInt8) (nExtended : Nat) : Store :=
  match uheapPageReserveTransactionSlot s x nExtended with
  | (s, none) => s
  | (s', some td) =>
    if s.tdCount < s'.tdCount then s'
    else
      s'.putUndo x td off .insert FrozenTransactionId
        (.normal ⟨⟨td, false, false, false⟩, x, body⟩) (some body) body

/-- `TM_Ok` or one of the results that end or repeat the call. -/
inductive TMResult
  | ok
  | invisible
  | beingModified
  | updated
  deriving DecidableEq

/-- The last writer of a row as `UHeapTupleSatisfiesUpdate` finds it. -/
def updateTransInfo (off : Nat) (t : UHeapTuple) : TransInfo :=
  let info := s.tdSlotInfo t.hdr.tdSlot
  if t.hdr.invalidXact then
    if info.tdSlot = UHEAPTUP_SLOT_FROZEN ∨
        (info.xid ≠ InvalidTransactionId ∧ s.olderThanAllUndo info.xid) then .frozen
    else if t.modifiedXid ≠ InvalidTransactionId ∧ s.didCommit t.modifiedXid then
      { info with xid := t.modifiedXid }
    else (fetchTransInfoFromUndo s off info false).2
  else info

/-- `UHeapTupleSatisfiesUpdate` for a row without lockers; the row's own
changes count as made by an earlier command. -/
def uheapTupleSatisfiesUpdate (x : Nat) (snap : Snapshot)
    (off : Nat) (t : UHeapTuple) : TMResult :=
  let info := updateTransInfo s off t
  match t.hdr.tidOp with
  | .gone =>
    if info.xid = x then .invisible
    else if s.isInProgress info.xid then .beingModified
    else if s.didCommit info.xid then .updated
    else .beingModified
  | .modified =>
    if info.tdSlot = UHEAPTUP_SLOT_FROZEN ∨ s.olderThanFrozenXid info.xid then .ok
    else if info.xid = x then .ok
    else if s.isInProgress info.xid then .beingModified
    else if s.didCommit info.xid then
      if s.committedXidVisible snap info.xid then .ok else .updated
    else .beingModified
  | .new =>
    if info.tdSlot = UHEAPTUP_SLOT_FROZEN ∨ s.olderThanFrozenXid info.xid then .ok
    else if info.xid = x then .ok
    else if s.isInProgress info.xid then .invisible
    else if s.didCommit info.xid then .ok
    else .invisible

/-- What `PutInplaceUpdateTuple` (or the link update) leaves in the row's
place: the new data and, if the row got shorter, what stood behind them. The
common prefix and suffix are only looked for when the total sizes agree, and
then nothing stands behind. -/
structure InplaceWrite where
  newBody : List UInt8
  stale : List UInt8
  sizesAgree : Bool
  stale_eq : sizesAgree = true → stale = []

/-- The undo data of an update in place. -/
def inplaceUndoData (hdr : TupleHeader) (oldBody : List UInt8) (w : InplaceWrite) : UndoData :=
  let oldp := oldBody.drop (dataStart oldBody)
  let newp := w.newBody.drop (dataStart w.newBody)
  let lens := if w.sizesAgree then Ustore.affixLens oldp newp else (0, 0)
  .inplaceUpdate hdr (oldBody.take (dataStart oldBody)) lens.1 lens.2
    ((oldp.drop lens.1).take (oldp.length - lens.1 - lens.2))

/-- The old writer's xid that goes into the undo record of an update:
`oldUpdaterXid` of `UHeapUpdate`. `xid` was found before the slot was
reserved, `hdr` is the row's header afterwards. -/
def oldUpdaterXid (xid : Nat) (hdr : TupleHeader) : Nat :=
  let saved := if xid ≠ InvalidTransactionId then xid else FrozenTransactionId
  let xid := if hdr.tdSlot = UHEAPTUP_SLOT_FROZEN then InvalidTransactionId else xid
  if s.olderThanAllUndo xid then FrozenTransactionId else saved

/-- The same for `UHeapDelete`, which stores the xid as it is. -/
def oldDeleterXid (xid : Nat) (hdr : TupleHeader) : Nat :=
  let xid := if hdr.tdSlot = UHEAPTUP_SLOT_FROZEN then InvalidTransactionId else xid
  if s.olderThanAllUndo xid then FrozenTransactionId else xid

/-- `UHeapUpdate` in place. -/
def uheapUpdate (x : Nat) (snap : Snapshot) (off : Nat)
    (w : InplaceWrite) (nExtended : Nat) : Store :=
  match s.rows off with
  | .normal t =>
    if uheapTupleSatisfiesUpdate s x snap off t = .ok then
      match uheapPageReserveTransactionSlot s x nExtended with
      | (s', none) => s'
      | (s', some td) =>
        match s'.rows off with
        | .normal t' =>
          s'.putUndo x td off (inplaceUndoData t'.hdr t'.body w)
            (oldUpdaterXid s' (updateTransInfo s off t).xid t'.hdr)
            (.normal ⟨⟨td, true, false, false⟩, x, w.newBody ++ w.stale⟩)
            (some w.newBody) (w.newBody ++ w.stale)
        | _ => s'
    else s
  | _ => s

/-- `UHeapDelete`. -/
def uheapDelete (x : Nat) (snap : Snapshot) (off : Nat) (nExtended : Nat) : Store :=
  match s.rows off with
  | .normal t =>
    if uheapTupleSatisfiesUpdate s x snap off t = .ok then
      match uheapPageReserveTransactionSlot s x nExtended with
      | (s', none) => s'
      | (s', some td) =>
        match s'.rows off with
        | .normal t' =>
          s'.putUndo x td off (.delete t'.hdr t'.body)
            (oldDeleterXid s' (updateTransInfo s off t).xid t'.hdr)
            (.normal ⟨⟨td, false, true, false⟩, x, t'.body⟩) none t'.body
        | _ => s'
    else s
  | _ => s

/-! ## Pruning -/

/-- `UHeapTupleGetTransInfo` for a normal row. -/
def tupleGetTransInfo (off : Nat) (t : UHeapTuple) : TransInfo :=
  let info := s.tdSlotInfo t.hdr.tdSlot
  if info.tdSlot = UHEAPTUP_SLOT_FROZEN then info
  else if t.hdr.invalidXact then
    if info.xid ≠ InvalidTransactionId ∧ s.olderThanAllUndo info.xid then .frozen
    else if t.modifiedXid ≠ InvalidTransactionId ∧ s.didCommit t.modifiedXid then
      { info with xid := t.modifiedXid }
    else (fetchTransInfoFromUndo s off info false).2
  else info

/-- `UHeapTupleSatisfiesOldestXmin` without resolving aborts; the current
transaction counts among those in progress. -/
def uheapTupleSatisfiesOldestXmin (off : Nat) (t : UHeapTuple)
    (oldestXmin : Nat) : Ustore.UHTSVResult :=
  let info := tupleGetTransInfo s off t
  if t.hdr.deleted then
    if info.tdSlot = UHEAPTUP_SLOT_FROZEN ∨ s.olderThanAllUndo info.xid then .dead
    else if s.isInProgress info.xid then .deleteInProgress
    else if s.didCommit info.xid then
      if info.xid < oldestXmin then .dead else .recentlyDead
    else .abortInProgress
  else if info.tdSlot = UHEAPTUP_SLOT_FROZEN ∨ s.olderThanAllUndo info.xid then .live
  else if s.isInProgress info.xid then .insertInProgress
  else if s.didCommit info.xid then .live
  else .abortInProgress

/-- What pruning makes of one row pointer. `pageFull` is the test
`maxoff >= maxTupleCount`, under which row pointers of pruned rows are freed
as well; `fixedLen` is the row's true length where it is to be trimmed. -/
def pruneRow (off : Nat) (oldestXmin : Nat) (pageFull : Bool)
    (fixedLen : Option Nat) : RowPtr :=
  match s.rows off with
  | .unused => .unused
  | .deleted tdSlot invalidXact =>
    if pageFull ∧ (tdSlot = UHEAPTUP_SLOT_FROZEN ∨
        (FirstNormalTransactionId ≤ (s.tds tdSlot).xactid ∧ (s.tds tdSlot).xactid < oldestXmin)) then
      .unused
    else .deleted tdSlot invalidXact
  | .normal t =>
    match uheapTupleSatisfiesOldestXmin s off t oldestXmin with
    | .dead => .unused
    | .recentlyDead => .deleted t.hdr.tdSlot t.hdr.invalidXact
    | .live =>
      match fixedLen with
      | some len =>
        if t.hdr.inplaceUpdated then .normal { t with body := t.body.take len } else .normal t
      | none => .normal t
    | _ => .normal t

/-! ## Histories -/

inductive Event
  | start
  | commit (x : Nat)
  | abort (x : Nat)
  | insert (x : Nat) (off : Nat) (body : List UInt8) (nExtended : Nat)
  | update (x : Nat) (snap : Snapshot) (off : Nat) (w : InplaceWrite)
    (nExtended : Nat)
  | delete (x : Nat) (snap : Snapshot) (off : Nat) (nExtended : Nat)
  | undo (x : Nat)
  | prune (off : Nat) (oldestXmin : Nat) (pageFull : Bool)
    (fixedLen : Option Nat)
  | read (snap : Snapshot) (off : Nat)
  | setFrozenXid (x : Nat)
  | setRecycleXid (x : Nat)
  | discard (urp : Nat)

/-- All transactions below `x` have ended. -/
def Store.EndedBelow (x : Nat) : Prop :=
  x ≤ s.nextXid ∧ ∀ y < x, FirstNormalTransactionId ≤ y → s.hasEnded y

/-- The recycler moves a horizon past `x` only if everything below has ended
and is, where it aborted, undone: no slot of the page is left with it. -/
def Store.HorizonOk (x : Nat) : Prop :=
  s.EndedBelow x ∧ ∀ td < s.tdCount, let y := (s.tds (td + 1)).xactid
    FirstNormalTransactionId ≤ y → y < x → s.didCommit y

instance (s : Store) (x : Nat) : Decidable (s.EndedBelow x) :=
  inferInstanceAs (Decidable (_ ∧ _))

instance (s : Store) (x : Nat) : Decidable (s.HorizonOk x) :=
  inferInstanceAs (Decidable (_ ∧ _))

/-- The true length of a row is at least that of its newest version. -/
def Store.FixedLenOk (off : Nat) (fixedLen : Option Nat) : Prop :=
  ∀ len ∈ fixedLen, ∀ v ∈ (s.versions off).head?, ∀ c ∈ v.contents, c.length ≤ len

instance (s : Store) (off : Nat) (fixedLen : Option Nat) : Decidable (s.FixedLenOk off fixedLen) :=
  inferInstanceAs (Decidable (∀ _ ∈ fixedLen, _))

/-- One step; none where the step cannot be taken. -/
def step : Event → Option Store
  | .start => some { s with nextXid := s.nextXid + 1 }
  | .commit x =>
    if s.isInProgress x then some { s with ended := s.ended ++ [(x, true)] } else none
  | .abort x =>
    if s.isInProgress x then some { s with ended := s.ended ++ [(x, false)] } else none
  | .insert x off body nExtended =>
    if s.isInProgress x ∧ s.rows off = .unused ∧ 1 ≤ off ∧ off ≤ s.maxoff + 1 then
      some (uheapInsert s x off body nExtended)
    else none
  | .update x snap off w nExtended =>
    if s.isInProgress x then some (uheapUpdate s x snap off w nExtended) else none
  | .delete x snap off nExtended =>
    if s.isInProgress x then some (uheapDelete s x snap off nExtended) else none
  | .undo x =>
    if s.hasEnded x ∧ s.didCommit x = false then some (uheapUndoActions s x) else none
  | .prune off oldestXmin pageFull fixedLen =>
    if s.EndedBelow oldestXmin ∧ s.FixedLenOk off fixedLen then
      some { s with
        rows := update s.rows off (pruneRow s off oldestXmin pageFull fixedLen)
        pruneXmin := max s.pruneXmin oldestXmin }
    else none
  | .read snap off => some (uheapTupleFetch s snap off).2
  | .setFrozenXid x =>
    if s.globalFrozenXid ≤ x ∧ s.HorizonOk x then some { s with globalFrozenXid := x } else none
  | .setRecycleXid x =>
    if s.globalRecycleXid ≤ x ∧ s.HorizonOk x then some { s with globalRecycleXid := x } else none
  | .discard urp =>
    match s.loadUndoRecord urp with
    | some urec =>
      if s.olderThanAllUndo urec.xid then
        some { s with discarded := update s.discarded urp true }
      else none
    | none => none

/-- A fresh page in a fresh system with `initTd` slots. -/
def Store.initial (initTd : Nat) : Store where
  tds := fun _ => .empty
  tdCount := initTd
  initTd := initTd
  rows := fun _ => .unused
  maxoff := 0
  log := []
  discarded := fun _ => false
  globalRecycleXid := InvalidTransactionId
  globalFrozenXid := InvalidTransactionId
  nextXid := FirstNormalTransactionId
  ended := []
  versions := fun _ => []
  pruneXmin := InvalidTransactionId

/-- The stores that the histories of the page lead to. -/
inductive Reachable (initTd : Nat) : Store → Prop
  | initial : Reachable initTd (.initial initTd)
  | step {s s' : Store} {e : Event} : Reachable initTd s → step s e = some s' → Reachable initTd s'

/-- A whole history; none if one of its steps cannot be taken. -/
def run : Store → List Event → Option Store
  | s, [] => some s
  | s, e :: events => (step s e).bind (fun s' => run s' events)

theorem Reachable.run {initTd : Nat} {s s' : Store} {events : List Event} (h : Reachable initTd s)
    (hrun : run s events = some s') : Reachable initTd s' := by
  induction events generalizing s with
  | nil =>
    obtain rfl := Option.some.inj hrun
    exact h
  | cons e events ih =>
    obtain ⟨s1, hstep, hrest⟩ := Option.bind_eq_some_iff.mp hrun
    exact ih (.step h hstep) hrest

end OpenGauss.Visibility
