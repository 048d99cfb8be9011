import OpenGauss.Lib.LinkedLog
import OpenGauss.Visibility.Changes

/-!
# What the page keeps about its history

The invariant is stated for the number `n` of transactions that had ended
when a snapshot was taken. It relates four things: the versions of each row,
the chain of undo records behind each slot, the slot numbers and flags in
the rows and in the old headers inside the undo records, and the order in
which transactions ended.

* `chain_versions`: the records of a row in a slot's chain are the row's
  newest versions written through that slot, in order; older ones may be cut
  off.
* `version_kept`: what is cut off is visible to the snapshot.
* `chain_order` and `version_order`: a later writer started to write only
  after the earlier one had committed, so if the end of the later one is
  seen, the earlier one is visible.
* `version_links` and `rows`: a header names the slot of the version it
  belongs to, or the version is visible.
-/

namespace OpenGauss.Visibility

open Lib

variable {ended : List (Nat × Bool)} {s : Store}

theorem mem_of_cons {α : Type} {v : α} {l rest : List α} (h : l = v :: rest) : v ∈ l := by
  simp [h]

/-! ## The order of ends -/

/-- `b` committed before `a` ended, if `a` has ended at all. -/
def EndedBefore (ended : List (Nat × Bool)) (b a : Nat) : Prop :=
  ∃ before after, ended = before ++ after ∧ (b, true) ∈ before ∧ a ∉ before.map Prod.fst

/-- Committed among the first `n` that ended. -/
def Store.Visible (s : Store) (n : Nat) (x : Nat) : Prop := (x, true) ∈ s.ended.take n

/-- Among the first `n` that ended. -/
def Store.Seen (s : Store) (n : Nat) (x : Nat) : Prop :=
  x ∈ (s.ended.take n).map Prod.fst

def Store.Committed (s : Store) (x : Nat) : Prop := (x, true) ∈ s.ended

variable {b a : Nat}

theorem EndedBefore.committed (h : EndedBefore ended b a) : (b, true) ∈ ended := by
  obtain ⟨before, after, rfl, hb, -⟩ := h
  exact List.mem_append_left _ hb

theorem EndedBefore.append (h : EndedBefore ended b a) (e : Nat × Bool) :
    EndedBefore (ended ++ [e]) b a := by
  obtain ⟨before, after, rfl, hb, ha⟩ := h
  exact ⟨before, after ++ [e], by rw [List.append_assoc], hb, ha⟩

variable {n : Nat}

/-- A snapshot that sees the later end sees the earlier commit. -/
theorem EndedBefore.visible (h : EndedBefore s.ended b a) (ha : s.Seen n a) :
    s.Visible n b := by
  obtain ⟨before, after, heq, hb, hnot⟩ := h
  unfold Store.Seen at ha
  unfold Store.Visible
  rw [heq] at ha ⊢
  have hle : before.length ≤ n := by
    by_contra hlt
    rw [List.take_append_of_le_length (by omega)] at ha
    exact hnot ((List.take_sublist n before).map Prod.fst |>.mem ha)
  rw [List.take_append, List.take_of_length_le hle]
  exact List.mem_append_left _ hb

theorem EndedBefore.asymm (h : EndedBefore ended b a) : ¬EndedBefore ended a b := by
  rintro ⟨before', after', heq', ha', hnot'⟩
  obtain ⟨before, after, heq, hb, hnot⟩ := h
  have hcases : before <+: before' ∨ before' <+: before :=
    List.prefix_or_prefix_of_prefix ⟨after, heq.symm⟩ ⟨after', heq'.symm⟩
  rcases hcases with hpre | hpre
  · exact hnot' (List.mem_map_of_mem (hpre.subset hb))
  · exact hnot (List.mem_map_of_mem (hpre.subset ha'))

theorem Store.Visible.seen {x : Nat} (h : s.Visible n x) :
    s.Seen n x := List.mem_map_of_mem h

theorem Store.Visible.committed {x : Nat} (h : s.Visible n x) :
    s.Committed x := List.mem_of_mem_take h

/-! ## Chains and versions -/

/-- The undo records behind a slot, newest first. -/
def Store.tdChain (s : Store) (td : Nat) : List (Nat × UndoRecord) :=
  chain UndoRecord.blkprev s.log (s.tds td).undoRecordPtr

def Version.entry (v : Version) : Nat × UndoRecord := (v.urp, v.urec)

/-- What a version's row pointer shows: a new row, a changed one or none. -/
def UndoData.op : UndoData → UTupleTidOp
  | .insert => .new
  | .inplaceUpdate _ _ _ _ _ => .modified
  | .delete _ _ => .gone

def Version.op (v : Version) : UTupleTidOp := v.urec.data.op

/-- The versions since the row pointer was last taken into use. -/
def incarnation : List Version → List Version
  | [] => []
  | v :: rest => if v.op = .new then [v] else v :: incarnation rest

/-- A body that holds the version's contents, possibly with stale bytes of
the write behind them. -/
def Version.Fits (v : Version) (body : List UInt8) : Prop :=
  ∃ c, v.contents = some c ∧ c <+: body ∧ body <+: v.image

/-- The row pointer has been given back: nothing, or a visible deletion. -/
def Freed (vis : Nat → Prop) (vs : List Version) : Prop :=
  vs = [] ∨ ∃ v rest, vs = v :: rest ∧ v.op = .gone ∧ vis v.writer

/-- An old header and the old writer's xid in an undo record, against the
version they were saved from. -/
structure SavedFrom (vis : Nat → Prop) (hdr : TupleHeader) (oldXactId : Nat) (v : Version) :
    Prop where
  op : hdr.tidOp = v.op
  flags : hdr.deleted = true → hdr.tidOp = .gone
  live : v.op ≠ .gone
  slot : hdr.tdSlot = v.slot ∨ hdr.tdSlot = UHEAPTUP_SLOT_FROZEN ∧ vis v.writer
  xid : oldXactId = v.writer ∨ vis v.writer ∧ (oldXactId = FrozenTransactionId ∨
    oldXactId = InvalidTransactionId ∧ hdr.tdSlot = UHEAPTUP_SLOT_FROZEN)

/-- The version on top of `rest` against its undo record: undoing it gives
the version below. -/
def LinkOk (vis : Nat → Prop) (v : Version) (rest : List Version) : Prop :=
  match v.urec.data with
  | .insert => v.contents.isSome ∧ Freed vis rest
  | .inplaceUpdate hdr _ _ _ _ =>
    v.contents.isSome ∧ ∃ w rest', rest = w :: rest' ∧ SavedFrom vis hdr v.urec.oldXactId w ∧
      ∀ body, v.Fits body → w.Fits (v.urec.data.oldBody body)
  | .delete hdr body =>
    v.contents = none ∧ ∃ w rest', rest = w :: rest' ∧ SavedFrom vis hdr v.urec.oldXactId w ∧
      w.Fits body

def LinksOk (vis : Nat → Prop) : List Version → Prop
  | [] => True
  | v :: rest => LinkOk vis v rest ∧ LinksOk vis rest

/-- The slot number and the reused flag of a row whose newest version is `v`. -/
structure StampedFrom (vis : Nat → Prop) (tds : Nat → TD) (tdSlot : Nat)
    (invalidXact : Bool) (v : Version) : Prop where
  slot : tdSlot = v.slot ∨ tdSlot = UHEAPTUP_SLOT_FROZEN ∧ vis v.writer
  xid : tdSlot ≠ UHEAPTUP_SLOT_FROZEN → invalidXact = false → (tds tdSlot).xactid = v.writer

/-- A normal row against its newest version. -/
structure TupleOk (vis : Nat → Prop) (tds : Nat → TD) (t : UHeapTuple) (v : Version) : Prop where
  op : t.hdr.tidOp = v.op
  flags : t.hdr.deleted = true → t.hdr.tidOp = .gone
  stamp : StampedFrom vis tds t.hdr.tdSlot t.hdr.invalidXact v
  xid : FirstNormalTransactionId ≤ t.xid → t.xid = v.writer
  body : v.op ≠ .gone → v.Fits t.body

/-- A row pointer against the row's versions. Only a committed delete leaves
a row pointer without a row behind. -/
def RowOk (vis committed : Nat → Prop) (tds : Nat → TD) : RowPtr → List Version → Prop
  | .unused, vs => Freed vis vs
  | .normal t, vs => ∃ v rest, vs = v :: rest ∧ TupleOk vis tds t v
  | .deleted tdSlot invalidXact, vs =>
    ∃ v rest, vs = v :: rest ∧ v.op = .gone ∧ committed v.writer ∧
      StampedFrom vis tds tdSlot invalidXact v

/-- The later one of two changes is by the same transaction or by one that
ended after the earlier one had committed. -/
def Follows (ended : List (Nat × Bool)) (later earlier : Nat) : Prop :=
  later = earlier ∨ EndedBefore ended earlier later

/-- Every transaction below a horizon had ended when the snapshot was taken. -/
def Store.Admissible (s : Store) (n : Nat) : Prop :=
  ∀ x, FirstNormalTransactionId ≤ x →
    x < s.globalRecycleXid ∨ x < s.globalFrozenXid ∨ x < s.pruneXmin → s.Seen n x

/-- A version whose undo record a reader or a rollback may still need. -/
def Store.Needed (s : Store) (n : Nat) (off : Nat) (v : Version) : Prop :=
  ¬s.Visible n v.writer ∨
    (s.globalRecycleXid = 0 ∧ s.rows off ≠ .unused ∧ v ∈ incarnation (s.versions off))

/-- Transactions end once, and everything below a horizon has ended. -/
structure XactsOk (s : Store) : Prop where
  ended_nodup : (s.ended.map Prod.fst).Nodup
  ended_range : ∀ x ∈ s.ended.map Prod.fst, FirstNormalTransactionId ≤ x ∧ x < s.nextXid
  below_recycle : s.EndedBelow s.globalRecycleXid
  below_frozen : s.EndedBelow s.globalFrozenXid
  below_prune : s.EndedBelow s.pruneXmin

/-- The part of the store that says which transactions have ended and where
the horizons are. -/
def Store.xactState (s : Store) : List (Nat × Bool) × Nat × Nat × Nat × Nat :=
  (s.ended, s.nextXid, s.globalRecycleXid, s.globalFrozenXid, s.pruneXmin)

theorem XactsOk.congr {s' : Store} (h : XactsOk s) (heq : s'.xactState = s.xactState) :
    XactsOk s' := by
  simp only [Store.xactState, Prod.mk.injEq] at heq
  obtain ⟨h1, h2, h3, h4, h5⟩ := heq
  have hbelow : ∀ x, s.EndedBelow x → s'.EndedBelow x := by
    intro x hx
    unfold Store.EndedBelow Store.hasEnded at hx ⊢
    rw [h1, h2]
    exact hx
  refine ⟨by rw [h1]; exact h.ended_nodup, by rw [h1, h2]; exact h.ended_range, ?_, ?_, ?_⟩
  · rw [h3]
    exact hbelow _ h.below_recycle
  · rw [h4]
    exact hbelow _ h.below_frozen
  · rw [h5]
    exact hbelow _ h.below_prune

/-- The slots and the chains behind them. -/
structure SlotsOk (s : Store) : Prop where
  xacts : XactsOk s
  linked : Linked UndoRecord.blkprev s.log
  urp_le : ∀ td, (s.tds td).undoRecordPtr ≤ s.log.length
  tds_out : ∀ td, td = 0 ∨ s.tdCount < td → s.tds td = .empty
  discard_old : ∀ p, s.discarded p = true → ∃ r, s.log[p - 1]? = some r ∧ r.xid < s.globalRecycleXid
  slot_range : ∀ td, (s.tds td).xactid ≠ InvalidTransactionId →
    FirstNormalTransactionId ≤ (s.tds td).xactid ∧ (s.tds td).xactid < s.nextXid
  slot_old : ∀ td, (s.tds td).xactid ≠ InvalidTransactionId →
    (s.tds td).xactid < s.globalRecycleXid ∨ (s.tds td).xactid < s.globalFrozenXid →
    s.Committed (s.tds td).xactid
  slot_head : ∀ td, (s.tds td).xactid ≠ InvalidTransactionId →
    ∃ e rest, s.tdChain td = e :: rest ∧ e.2.xid = (s.tds td).xactid
  slot_unique : ∀ td td', (s.tds td).xactid ≠ InvalidTransactionId →
    (s.tds td).xactid = (s.tds td').xactid → td = td'
  chain_xid : ∀ td, ∀ e ∈ s.tdChain td, FirstNormalTransactionId ≤ e.2.xid ∧
    (e.2.xid = (s.tds td).xactid ∨ s.Committed e.2.xid)
  chain_order : ∀ td, (s.tdChain td).Pairwise (fun a b => Follows s.ended a.2.xid b.2.xid)

structure Inv (n : Nat) (s : Store) : Prop where
  slots : SlotsOk s
  admissible : s.Admissible n
  rows_out : ∀ off, off = 0 ∨ s.maxoff < off → s.rows off = .unused
  chain_versions : ∀ td off, (s.tdChain td).filter (fun e => e.2.offset = off) <+:
    ((s.versions off).filter (fun v => v.slot = td)).map Version.entry
  version_kept : ∀ off, ∀ v ∈ s.versions off, s.Needed n off v → v.entry ∈ s.tdChain v.slot
  version_slot : ∀ off, s.rows off ≠ .unused → ∀ v ∈ incarnation (s.versions off),
    v.slot ≤ s.tdCount
  version_order : ∀ off, (s.versions off).Pairwise (fun a b => b.urp < a.urp ∧
    (a.writer = b.writer ∧ a.slot = b.slot ∨ EndedBefore s.ended b.writer a.writer))
  version_range : ∀ off, ∀ v ∈ s.versions off, v.urec.offset = off ∧ v.urp ≤ s.log.length ∧
    v.slot ≠ 0 ∧ FirstNormalTransactionId ≤ v.writer ∧ v.writer < s.nextXid
  version_links : ∀ off, LinksOk (s.Visible n) (s.versions off)
  rows : ∀ off, RowOk (s.Visible n) s.Committed s.tds (s.rows off) (s.versions off)

end OpenGauss.Visibility
