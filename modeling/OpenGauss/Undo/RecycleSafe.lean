import OpenGauss.Undo.Recycle

/-!
# Recycling discards nothing that is needed

The two loops of `RecycleUndoSpace` pass a prefix of the zone's live slots.
`Scanned` follows the local variables over the slots of one page, `Recycled`
the zone over whole pages; both say what the values are in terms of the list
of slots passed so far, so that the end of a run is read off that list.
-/

namespace OpenGauss.Undo

open List (append_assoc append_nil)

variable {l m : List TransactionSlot} {o pos zid : Nat} {env : RecycleEnv} {scan : RecycleScan}
  {slot : TransactionSlot}

/-! ## The last element of a list, with a default -/

section LastOr

variable {α β : Type}

/-- `f` of the last element, or `d` for the empty list. -/
def lastOr (f : α → β) (l : List α) (d : β) : β := (l.getLast?.map f).getD d

@[simp] theorem lastOr_nil (f : α → β) (d : β) : lastOr f [] d = d := rfl

@[simp] theorem lastOr_snoc (f : α → β) (l : List α) (a : α) (d : β) :
    lastOr f (l ++ [a]) d = f a := by
  simp [lastOr]

theorem lastOr_append (f : α → β) (l m : List α) (d : β) :
    lastOr f (l ++ m) d = lastOr f m (lastOr f l d) := by
  induction m using List.reverseRecOn with
  | nil => simp
  | append_singleton m a _ => rw [← append_assoc, lastOr_snoc, lastOr_snoc]

theorem lastOr_cons (f : α → β) (a : α) (l : List α) (d : β) :
    lastOr f (a :: l) d = lastOr f l (f a) := by
  rw [← List.singleton_append, lastOr_append]
  rfl

theorem lastOr_of_ne_nil (f : α → β) {l : List α} (h : l ≠ []) (d e : β) :
    lastOr f l d = lastOr f l e := by
  obtain ⟨m, a, rfl⟩ := List.eq_nil_or_concat' l |>.resolve_left h
  rw [lastOr_snoc, lastOr_snoc]

theorem lastOr_idem (f : α → β) (l : List α) (d : β) : lastOr f l (lastOr f l d) = lastOr f l d := by
  by_cases h : l = []
  · rw [h]; rfl
  · exact lastOr_of_ne_nil f h _ _

theorem lastOr_mem (f : α → β) {l : List α} (h : l ≠ []) (d : β) : ∃ a ∈ l, lastOr f l d = f a := by
  obtain ⟨m, a, rfl⟩ := List.eq_nil_or_concat' l |>.resolve_left h
  exact ⟨a, List.mem_append_right _ (.head _), lastOr_snoc f m a d⟩

theorem lastOr_map {γ : Type} (g : β → γ) (f : α → β) (l : List α) (d : β) :
    g (lastOr f l d) = lastOr (g ∘ f) l (g d) := by
  induction l using List.reverseRecOn with
  | nil => rfl
  | append_singleton m a _ => rw [lastOr_snoc, lastOr_snoc, Function.comp]

end LastOr

/-! ## Slot pointers -/

theorem makeUndoPtr_eq (h : o < 2 ^ UNDO_LOG_OFFSET_BITS) :
    makeUndoPtr zid o = zid * 2 ^ UNDO_LOG_OFFSET_BITS + o := by
  rw [makeUndoPtr, ← Nat.shiftLeft_add_eq_or_of_lt h, Nat.shiftLeft_eq]

theorem undoPtrGetOffset_make (h : o < 2 ^ UNDO_LOG_OFFSET_BITS) :
    undoPtrGetOffset (makeUndoPtr zid o) = o := by
  rw [makeUndoPtr_eq h, undoPtrGetOffset, Nat.mul_comm, Nat.mul_add_mod, Nat.mod_eq_of_lt h]

theorem undoPtrGetZoneId_make (h : o < 2 ^ UNDO_LOG_OFFSET_BITS) :
    undoPtrGetZoneId (makeUndoPtr zid o) = zid := by
  rw [makeUndoPtr_eq h, undoPtrGetZoneId, Nat.mul_comm,
    Nat.mul_add_div (Nat.two_pow_pos _), Nat.div_eq_of_lt h, Nat.add_zero]

theorem makeUndoPtr_lt_iff {q : Nat} (ho : o < 2 ^ UNDO_LOG_OFFSET_BITS)
    (hq : q < 2 ^ UNDO_LOG_OFFSET_BITS) : makeUndoPtr zid o < makeUndoPtr zid q ↔ o < q := by
  rw [makeUndoPtr_eq ho, makeUndoPtr_eq hq]
  omega

theorem getNextSlotPtr_make (h : o < 2 ^ UNDO_LOG_OFFSET_BITS) :
    getNextSlotPtr (makeUndoPtr zid o) = makeUndoPtr zid (nextSlotOffset o) := by
  rw [getNextSlotPtr, undoPtrGetZoneId_make h, undoPtrGetOffset_make h]

theorem lt_nextSlotOffset (o : Nat) : o < nextSlotOffset o := by
  simp only [nextSlotOffset]
  split <;> simp only [BLCKSZ, sizeofTransactionSlot, UNDO_LOG_BLOCK_HEADER_SIZE,
    SizeOfPageHeaderData] at * <;> omega

/-! ## The slots of a zone -/

/-- The slots met from offset `o` on, step by step, until exactly `q`. -/
def SlotPath (slots : Nat → TransactionSlot) (zid : Nat) : Nat → List TransactionSlot → Nat → Prop
  | o, [], q => o = q
  | o, s :: rest, q => slots (makeUndoPtr zid o) = s ∧ SlotPath slots zid (nextSlotOffset o) rest q

section Path

variable {slots : Nat → TransactionSlot} {zid : Nat}

theorem SlotPath.length_le : ∀ {o q : Nat}, SlotPath slots zid o l q → o + l.length ≤ q := by
  induction l with
  | nil => intro o q h; exact le_of_eq h
  | cons s rest ih =>
    intro o q h
    have hrest := ih h.2
    have hstep := lt_nextSlotOffset o
    rw [List.length_cons]
    omega

theorem SlotPath.append {p q : Nat} :
    ∀ {o : Nat}, SlotPath slots zid o l p → SlotPath slots zid p m q →
      SlotPath slots zid o (l ++ m) q := by
  induction l with
  | nil => intro o h hm; exact h ▸ hm
  | cons s rest ih => intro o h hm; exact ⟨h.1, ih h.2 hm⟩

end Path

def TransactionSlot.endOffset (slot : TransactionSlot) : Nat := undoPtrGetOffset slot.endUndoPtr

open TransactionSlot (endOffset)

/-- The undo ranges of the slots follow each other from `pos` up to at most
`insert`, inside the zone. From the first slot that holds no range yet
nothing is asked. -/
inductive BackToBack (zid insert : Nat) : Nat → List TransactionSlot → Prop
  | nil {pos : Nat} : pos ≤ insert → BackToBack zid insert pos []
  | unset {pos : Nat} {s : TransactionSlot} {rest : List TransactionSlot} :
      s.startUndoPtr = INVALID_UNDO_PTR → pos ≤ insert → BackToBack zid insert pos (s :: rest)
  | cons {pos : Nat} {s : TransactionSlot} {rest : List TransactionSlot} :
      undoPtrGetZoneId s.startUndoPtr = zid → undoPtrGetOffset s.startUndoPtr = pos →
      undoPtrGetZoneId s.endUndoPtr = zid → pos < s.endOffset →
      BackToBack zid insert s.endOffset rest → BackToBack zid insert pos (s :: rest)

section Ranges

variable {zid insert : Nat}

theorem BackToBack.le_insert (h : BackToBack zid insert pos l) : pos ≤ insert := by
  induction h with
  | nil hle => exact hle
  | unset _ hle => exact hle
  | cons _ _ _ hlt _ ih => exact le_of_lt (lt_of_lt_of_le hlt ih)

theorem BackToBack.head {s : TransactionSlot} {rest : List TransactionSlot}
    (h : BackToBack zid insert pos (s :: rest)) (hset : s.startUndoPtr ≠ INVALID_UNDO_PTR) :
    undoPtrGetZoneId s.startUndoPtr = zid ∧ undoPtrGetOffset s.startUndoPtr = pos ∧
      undoPtrGetZoneId s.endUndoPtr = zid ∧ pos < s.endOffset ∧
      BackToBack zid insert s.endOffset rest := by
  cases h with
  | unset hunset _ => exact absurd hunset hset
  | cons h1 h2 h3 h4 h5 => exact ⟨h1, h2, h3, h4, h5⟩

variable (hset : ∀ s ∈ l, s.startUndoPtr ≠ INVALID_UNDO_PTR)

include hset

theorem BackToBack.drop :
    ∀ {pos : Nat}, BackToBack zid insert pos (l ++ m) →
      BackToBack zid insert (lastOr endOffset l pos) m := by
  induction l with
  | nil => intro pos h; exact h
  | cons s rest ih =>
    intro pos h
    obtain ⟨-, -, -, -, htail⟩ := h.head (hset s (.head _))
    rw [lastOr_cons]
    exact ih (fun t ht => hset t (.tail _ ht)) htail

/-- The marks only move up, and a mark moved over fewer of the slots stays
behind. -/
theorem BackToBack.filter_le (p : TransactionSlot → Bool) :
    ∀ {pos d : Nat}, BackToBack zid insert pos (l ++ m) → d ≤ pos →
      lastOr endOffset (l.filter p) d ≤ lastOr endOffset l pos := by
  induction l with
  | nil => intro pos d _ hd; exact hd
  | cons s rest ih =>
    intro pos d h hd
    obtain ⟨-, -, -, hlt, htail⟩ := h.head (hset s (.head _))
    have hrest := fun t ht => hset t (.tail _ ht)
    rw [lastOr_cons, List.filter_cons]
    split
    · rw [lastOr_cons]
      exact ih hrest htail le_rfl
    · exact ih hrest htail (by omega)

theorem BackToBack.le_last (h : BackToBack zid insert pos (l ++ m)) :
    pos ≤ lastOr endOffset l pos := by
  have hle := h.filter_le hset (fun _ => false) le_rfl
  rwa [List.filter_eq_nil_iff.mpr (by simp)] at hle

/-- Each range ends in the zone, and not at its very start. -/
theorem BackToBack.end_mem :
    ∀ {pos : Nat}, BackToBack zid insert pos (l ++ m) → ∀ s ∈ l,
      undoPtrGetZoneId s.endUndoPtr = zid ∧ 0 < s.endOffset := by
  induction l with
  | nil => intro pos _ s hs; cases hs
  | cons t rest ih =>
    intro pos h s hs
    obtain ⟨-, -, hzid, hlt, htail⟩ := h.head (hset t (.head _))
    rcases List.mem_cons.mp hs with rfl | hs
    · exact ⟨hzid, by omega⟩
    · exact ih (fun t ht => hset t (.tail _ ht)) htail s hs

/-- The last of a nonempty run of ranges ends past its start, in the zone. -/
theorem BackToBack.last_end (hne : l ≠ []) (h : BackToBack zid insert pos (l ++ m)) (d : Nat) :
    undoPtrGetZoneId (lastOr TransactionSlot.endUndoPtr l d) = zid ∧
      pos < undoPtrGetOffset (lastOr TransactionSlot.endUndoPtr l d) := by
  obtain ⟨front, s, rfl⟩ := List.eq_nil_or_concat' l |>.resolve_left hne
  have hfront : ∀ t ∈ front, t.startUndoPtr ≠ INVALID_UNDO_PTR :=
    fun t ht => hset t (List.mem_append_left _ ht)
  rw [append_assoc] at h
  have hle := h.le_last hfront
  obtain ⟨-, -, hzid, hlt, -⟩ := (h.drop hfront).head (hset s (List.mem_append_right _ (.head _)))
  rw [lastOr_snoc]
  exact ⟨hzid, lt_of_le_of_lt hle hlt⟩

end Ranges

/-! ## Unlinked segments -/

theorem lt_of_mem_unlinkLoop {segSize n : Nat} :
    ∀ {fuel head g : Nat}, g ∈ unlinkLoop segSize (n * segSize) fuel head → g < n := by
  intro fuel
  induction fuel with
  | zero => intro head g hg; cases hg
  | succ fuel ih =>
    intro head g hg
    rw [unlinkLoop] at hg
    split at hg
    case isTrue hlt =>
      rcases List.mem_cons.mp hg with rfl | hrest
      · exact Nat.div_lt_of_lt_mul (by rwa [Nat.mul_comm])
      · exact ih hrest
    case isFalse => cases hg

/-- Releasing up to a pointer unlinks only segments that end at or before it. -/
theorem UndoSpace.release_unlinked (env : RecycleEnv) (space : UndoSpace) (segSize endPtr : Nat) :
    ∃ segs, (space.release env segSize endPtr).unlinked = space.unlinked ++ segs ∧
      ∀ g ∈ segs, (g + 1) * segSize ≤ undoPtrGetOffset endPtr := by
  simp only [release]
  generalize (if env.recyclerInRecovery then space.headExrto else space.head) = head
  split
  · refine ⟨_, rfl, fun g hg => ?_⟩
    calc (g + 1) * segSize
        ≤ undoPtrGetOffset endPtr / segSize * segSize :=
          Nat.mul_le_mul_right _ (lt_of_mem_unlinkLoop hg)
      _ ≤ undoPtrGetOffset endPtr := Nat.div_mul_le_self _ _
  · exact ⟨[], (append_nil _).symm, nofun⟩

/-- The segments unlinked between two states of a space all end at or before
`limit`. -/
def UnlinkedBelow (segSize limit : Nat) (before after : UndoSpace) : Prop :=
  ∃ segs, after.unlinked = before.unlinked ++ segs ∧ ∀ g ∈ segs, (g + 1) * segSize ≤ limit

theorem UnlinkedBelow.refl (segSize limit : Nat) (space : UndoSpace) :
    UnlinkedBelow segSize limit space space :=
  ⟨[], (append_nil _).symm, nofun⟩

theorem UnlinkedBelow.release {segSize limit : Nat} {before after : UndoSpace}
    (h : UnlinkedBelow segSize limit before after) (env : RecycleEnv) {endPtr : Nat}
    (hle : limit ≤ undoPtrGetOffset endPtr) :
    UnlinkedBelow segSize (undoPtrGetOffset endPtr) before (after.release env segSize endPtr) := by
  obtain ⟨old, hold, hbelow⟩ := h
  obtain ⟨new, hnew, hend⟩ := after.release_unlinked env segSize endPtr
  refine ⟨old ++ new, by rw [hnew, hold, append_assoc], fun g hg => ?_⟩
  rcases List.mem_append.mp hg with hg | hg
  · exact (hbelow g hg).trans hle
  · exact hend g hg

/-! ## One slot -/

/-- The slot's transaction is below `recycleXmin`. -/
def RecycleEnv.below (env : RecycleEnv) (slot : TransactionSlot) : Bool :=
  slot.xactId < env.recycleXmin

/-- The transaction is over and its undo is not needed to roll it back. -/
structure RecycleEnv.Finished (env : RecycleEnv) (slot : TransactionSlot) : Prop where
  not_in_progress : env.transactionIdIsInProgress slot.xactId = false
  no_rollback : env.uheapTransactionIdDidCommit slot.xactId = true ∨ slot.needRollback = false

/-- The slots a run passes. -/
def RecycleEnv.passes (env : RecycleEnv) (slot : TransactionSlot) : Bool :=
  env.slotVerdict slot == .pass (!env.below slot)

theorem slotVerdict_cases (env : RecycleEnv) (slot : TransactionSlot) :
    (env.slotVerdict slot = .panic ∧ env.recheckUndoRecycleXid slot = true) ∨
    env.slotVerdict slot = .stop ∨
    (env.slotVerdict slot = .pass false ∧ slot.startUndoPtr ≠ INVALID_UNDO_PTR ∧
      env.below slot = true ∧ slot.xactId < env.frozenXid) ∨
    (env.slotVerdict slot = .pass true ∧ slot.startUndoPtr ≠ INVALID_UNDO_PTR ∧
      env.below slot = false ∧ env.Finished slot) := by
  rw [RecycleEnv.slotVerdict]
  split_ifs with hxid hpanic hstart hglobal hbelow hfrozen hforce hprog hroll
  · exact .inl ⟨rfl, hpanic⟩
  · exact .inr (.inl rfl)
  · exact .inr (.inl rfl)
  · exact .inl ⟨rfl, hglobal.2⟩
  · exact .inr (.inl rfl)
  · exact .inr (.inr (.inl ⟨rfl, hstart, decide_eq_true hbelow, UInt64.not_le.mp hfrozen⟩))
  · exact .inr (.inl rfl)
  · exact .inr (.inl rfl)
  · refine .inr (.inr (.inr ⟨rfl, hstart, decide_eq_false hbelow, by simpa using hprog, ?_⟩))
    cases hc : env.uheapTransactionIdDidCommit slot.xactId
    · exact .inr (by simpa [hc] using hroll)
    · exact .inl rfl
  · exact .inr (.inl rfl)

theorem RecycleEnv.slotVerdict_of_pass {force : Bool} (h : env.slotVerdict slot = .pass force) :
    force = !env.below slot ∧ env.passes slot = true ∧ slot.startUndoPtr ≠ INVALID_UNDO_PTR := by
  rcases slotVerdict_cases env slot with ⟨hv, -⟩ | hv | ⟨hv, hstart, hbelow, -⟩ |
    ⟨hv, hstart, hbelow, -⟩
  · rw [hv] at h; cases h
  · rw [hv] at h; cases h
  · rw [hv] at h; cases h
    exact ⟨by rw [hbelow]; rfl, by rw [passes, hv, hbelow]; rfl, hstart⟩
  · rw [hv] at h; cases h
    exact ⟨by rw [hbelow]; rfl, by rw [passes, hv, hbelow]; rfl, hstart⟩

theorem RecycleEnv.passes_start (h : env.passes slot = true) :
    slot.startUndoPtr ≠ INVALID_UNDO_PTR :=
  (slotVerdict_of_pass (beq_iff_eq.mp h)).2.2

/-- A slot that is passed is finished, when the caller's bounds mean what
they say. -/
theorem RecycleEnv.passes_finished (hfrozen : slot.xactId < env.frozenXid →
      env.uheapTransactionIdDidCommit slot.xactId = true ∨ slot.needRollback = false)
    (hxmin : slot.xactId < env.recycleXmin → env.transactionIdIsInProgress slot.xactId = false)
    (h : env.passes slot = true) : env.Finished slot := by
  have hpass := beq_iff_eq.mp h
  rcases slotVerdict_cases env slot with ⟨hv, -⟩ | hv | ⟨-, -, hbelow, hlt⟩ | ⟨-, -, -, hfin⟩
  · rw [hv] at hpass; cases hpass
  · rw [hv] at hpass; cases hpass
  · exact ⟨hxmin (of_decide_eq_true hbelow), hfrozen hlt⟩
  · exact hfin

/-! ## The slots of one page -/

section Scan

variable {env : RecycleEnv} {slots : Nat → TransactionSlot} {zid q : Nat}
variable {done page rest : List TransactionSlot}

/-- The local variables at slot offset `o`, when the slots of `done` were
passed on earlier pages and those of `page` on this one. -/
structure Scanned (env : RecycleEnv) (zid o : Nat) (done page : List TransactionSlot)
    (scan : RecycleScan) : Prop where
  recyclePtr : scan.recyclePtr = makeUndoPtr zid o
  startUndoPtr :
    scan.startUndoPtr = (page.head?.map TransactionSlot.startUndoPtr).getD INVALID_UNDO_PTR
  endUndoPtr : scan.endUndoPtr = lastOr TransactionSlot.endUndoPtr (done ++ page) INVALID_UNDO_PTR
  oldestEndUndoPtr : scan.oldestEndUndoPtr =
    lastOr TransactionSlot.endUndoPtr ((done ++ page).filter env.below) INVALID_UNDO_PTR
  forceRecycle : scan.forceRecycle = (done ++ page).any (fun s => !env.below s)
  recycleXid : scan.recycleXid = lastOr TransactionSlot.xactId (done ++ page) InvalidTransactionId
  undoRecycled : scan.undoRecycled = !page.isEmpty

/-- Passing a slot. The force flag never meets a slot below `recycleXmin`
again: the ids only grow. -/
theorem Scanned.pass {s : TransactionSlot} {force : Bool} (h : Scanned env zid o done page scan)
    (ho : o < 2 ^ UNDO_LOG_OFFSET_BITS) (hv : env.slotVerdict s = .pass force)
    (hold : ∀ t ∈ page, t.startUndoPtr ≠ INVALID_UNDO_PTR)
    (hxid : ∀ t ∈ done ++ page, t.xactId < s.xactId) :
    Scanned env zid (nextSlotOffset o) done (page ++ [s]) (scan.pass s force) := by
  obtain ⟨hforce, -, hstart⟩ := RecycleEnv.slotVerdict_of_pass hv
  have hkeep : env.below s = true → (done ++ page).any (fun t => !env.below t) = false := by
    intro hs
    rw [List.any_eq_false]
    intro t ht
    have hlt : t.xactId < env.recycleXmin := UInt64.lt_trans (hxid t ht) (of_decide_eq_true hs)
    simp [RecycleEnv.below, hlt]
  refine ⟨?_, ?_, ?_, ?_, ?_, ?_, ?_⟩
  · simp only [RecycleScan.pass, h.recyclePtr, getNextSlotPtr_make ho]
  · simp only [RecycleScan.pass, h.startUndoPtr]
    cases page with
    | nil => rfl
    | cons t rest =>
      have ht := hold t (.head _)
      simp only [List.head?_cons, Option.map_some, Option.getD_some, List.cons_append]
      exact if_neg ht
  · rw [← append_assoc, lastOr_snoc]; rfl
  · simp only [RecycleScan.pass, h.forceRecycle, h.oldestEndUndoPtr, hforce]
    rw [← append_assoc done page [s], List.filter_append (done ++ page)]
    cases hs : env.below s with
    | true =>
      rw [hkeep hs, List.filter_cons_of_pos hs, List.filter_nil, lastOr_snoc]
      rfl
    | false => simp [hs]
  · simp only [RecycleScan.pass, h.forceRecycle, hforce]
    simp [Bool.or_assoc]
  · rw [← append_assoc, lastOr_snoc]; rfl
  · simp [RecycleScan.pass]

theorem Scanned.next (h : Scanned env zid o done page scan) : Scanned env zid o (done ++ page) []
      { scan with startUndoPtr := INVALID_UNDO_PTR, undoRecycled := false } := by
  refine ⟨h.recyclePtr, rfl, ?_, ?_, ?_, ?_, rfl⟩
  · rw [append_nil]; exact h.endUndoPtr
  · rw [append_nil]; exact h.oldestEndUndoPtr
  · rw [append_nil]; exact h.forceRecycle
  · rw [append_nil]; exact h.recycleXid

/-- How the inner loop can end, `rest` being the slots in front of it. -/
inductive ScanEnd (env : RecycleEnv) (slots : Nat → TransactionSlot) (zid q blk o : Nat)
    (done page rest : List TransactionSlot) : Except RecycleStop RecycleScan → Prop
  | panic {s : TransactionSlot} :
      s ∈ rest → env.slotVerdict s = .panic →
      ScanEnd env slots zid q blk o done page rest (.error .panic)
  | ok {more left : List TransactionSlot} {p : Nat} {scan : RecycleScan} :
      rest = more ++ left → SlotPath slots zid o more p → SlotPath slots zid p left q →
      (∀ s ∈ more, env.passes s = true) → Scanned env zid p done (page ++ more) scan →
      (∀ s ∈ left.head?, blk = p / BLCKSZ → env.slotVerdict s = .stop) →
      ScanEnd env slots zid q blk o done page rest (.ok scan)

/-- The inner loop passes slots until one stops it, the page ends or the
slots do. -/
theorem scanSlots_end (blk : Nat) (hq : q < 2 ^ UNDO_LOG_OFFSET_BITS) :
    ∀ {fuel o : Nat} {page rest : List TransactionSlot} {scan : RecycleScan},
      rest.length < fuel → SlotPath slots zid o rest q → Scanned env zid o done page scan →
      (∀ t ∈ page, env.passes t = true) →
      (done ++ page ++ rest).Pairwise (fun s t => s.xactId < t.xactId) →
      ScanEnd env slots zid q blk o done page rest
        (scanSlots env slots blk (makeUndoPtr zid q) fuel scan) := by
  intro fuel
  induction fuel with
  | zero => intro o page rest scan hfuel; omega
  | succ fuel ih =>
    intro o page rest scan hfuel hpath hscan hpage hxids
    have hlen := hpath.length_le
    have ho : o < 2 ^ UNDO_LOG_OFFSET_BITS := by omega
    -- the loop ends here without passing a slot
    have hstay : (∀ s ∈ rest.head?, blk = o / BLCKSZ → env.slotVerdict s = .stop) →
        ScanEnd env slots zid q blk o done page rest (.ok scan) := fun hstop =>
      .ok (List.nil_append rest).symm rfl hpath nofun (by rwa [append_nil]) hstop
    have hlt : makeUndoPtr zid o < makeUndoPtr zid q ↔ o < q := makeUndoPtr_lt_iff ho hq
    rw [scanSlots, hscan.recyclePtr, undoPtrGetBlockNum, undoPtrGetOffset_make ho]
    cases rest with
    | nil =>
      have hoq : o = q := hpath
      rw [if_neg (fun hc => absurd (hlt.mp hc.2) (by omega))]
      exact hstay nofun
    | cons s rest =>
      obtain ⟨hslot, htail⟩ := hpath
      have hbelow : o < q := lt_of_lt_of_le (lt_nextSlotOffset o) (by
        have := htail.length_le
        omega)
      by_cases hblk : blk = o / BLCKSZ
      case neg =>
        rw [if_neg (fun hc => hblk hc.1)]
        exact hstay (fun _ _ hb => absurd hb hblk)
      rw [if_pos ⟨hblk, hlt.mpr hbelow⟩, hslot]
      cases hv : env.slotVerdict s with
      | panic => exact .panic (.head _) hv
      | stop =>
        refine hstay (fun t ht _ => ?_)
        rw [List.head?_cons, Option.mem_some_iff] at ht
        exact ht ▸ hv
      | pass force =>
        have hpass := (RecycleEnv.slotVerdict_of_pass hv).2.1
        have holder : ∀ t ∈ done ++ page, t.xactId < s.xactId := fun t ht =>
          (List.pairwise_append.mp hxids).2.2 t ht s (.head _)
        have hstep := hscan.pass ho hv (fun t ht => RecycleEnv.passes_start (hpage t ht)) holder
        have hpage' : ∀ t ∈ page ++ [s], env.passes t = true := by
          intro t ht
          rcases List.mem_append.mp ht with ht | ht
          · exact hpage t ht
          · rwa [List.mem_singleton.mp ht]
        have hend := ih (by rw [List.length_cons] at hfuel; omega) htail hstep hpage'
          (by simpa [append_assoc] using hxids)
        show ScanEnd env slots zid q blk o done page (s :: rest)
          (scanSlots env slots blk (makeUndoPtr zid q) fuel (scan.pass s force))
        generalize scanSlots env slots blk (makeUndoPtr zid q) fuel
          (scan.pass s force) = out at hend ⊢
        cases hend with
        | panic hmem hp => exact .panic (.tail _ hmem) hp
        | @ok more left p scan' hsplit hmore hleft hall hdone hstop =>
          refine .ok (show s :: rest = (s :: more) ++ left by rw [hsplit]; rfl) ⟨hslot, hmore⟩ hleft ?_
            (by simpa [append_assoc] using hdone) hstop
          exact List.forall_mem_cons.mpr ⟨hpass, hall⟩

end Scan

/-! ## Whole pages -/

section Pages

variable {env : RecycleEnv} {slots : Nat → TransactionSlot} {zone : UndoZone}
variable {done page rest : List TransactionSlot}

/-- `*oldestRecycleXid` before any slot is passed. -/
def RecycleEnv.oldestXid (env : RecycleEnv) : TransactionId :=
  if env.recycleXmin < env.frozenXid then env.recycleXmin else env.frozenXid

/-- The state of a run that started at `zone` and has passed the slots
`passed`. -/
structure Recycled (env : RecycleEnv) (slots : Nat → TransactionSlot) (zone : UndoZone)
    (passed : List TransactionSlot) (run : RecycleRun) : Prop where
  zid : run.zone.zid = zone.zid
  insertURecPtr : run.zone.insertURecPtr = zone.insertURecPtr
  allocateTSlotPtr : run.zone.allocateTSlotPtr = zone.allocateTSlotPtr
  /-- The recycle pointer stands right after the slots passed. -/
  recycleTSlotPtr : SlotPath slots zone.zid zone.recycleTSlotPtr passed run.zone.recycleTSlotPtr
  /-- Force-discard is at the end of the last slot passed. -/
  forceDiscardURecPtr : run.zone.forceDiscardURecPtr =
    lastOr endOffset passed zone.forceDiscardURecPtr
  /-- Discard is at the end of the last of them below `recycleXmin`. -/
  discardURecPtr : run.zone.discardURecPtr =
    lastOr endOffset (passed.filter env.below) zone.discardURecPtr
  recycleXid : run.zone.recycleXid = lastOr TransactionSlot.xactId passed zone.recycleXid
  undoUnlinked : UnlinkedBelow UNDO_LOG_SEGMENT_SIZE run.zone.forceDiscardURecPtr
    zone.undoSpace run.zone.undoSpace
  slotUnlinked : UnlinkedBelow UNDO_META_SEGMENT_SIZE run.zone.recycleTSlotPtr
    zone.slotSpace run.zone.slotSpace
  oldestRecycleXid : run.oldestRecycleXid = lastOr TransactionSlot.xactId passed env.oldestXid
  result : run.result = !passed.isEmpty

/-- The pointer for the discard mark is the one remembered: no range leaves
the zone, so the branch for another zone is not taken. -/
theorem Scanned.discardPtr {insert : Nat} (h : Scanned env zone.zid o done page scan)
    (hset : ∀ s ∈ done ++ page, s.startUndoPtr ≠ INVALID_UNDO_PTR)
    (hranges : BackToBack zone.zid insert pos (done ++ page ++ rest))
    (hstart : undoPtrGetZoneId scan.startUndoPtr = zone.zid) (d : Nat) :
    (if scan.oldestEndUndoPtr = INVALID_UNDO_PTR then INVALID_UNDO_PTR else scan.discardPtr) =
        scan.oldestEndUndoPtr ∧
      (if scan.oldestEndUndoPtr = INVALID_UNDO_PTR then d
        else undoPtrGetOffset scan.discardPtr) =
        lastOr endOffset ((done ++ page).filter env.below) d := by
  by_cases hnone : (done ++ page).filter env.below = []
  · have hold : scan.oldestEndUndoPtr = INVALID_UNDO_PTR := by
      rw [h.oldestEndUndoPtr, hnone, lastOr_nil]
    rw [if_pos hold, if_pos hold, hnone, lastOr_nil]
    exact ⟨hold.symm, rfl⟩
  obtain ⟨s, hs, hlast⟩ := lastOr_mem TransactionSlot.endUndoPtr hnone INVALID_UNDO_PTR
  obtain ⟨hzid, hpos⟩ := hranges.end_mem hset s (List.mem_filter.mp hs).1
  have hend : scan.oldestEndUndoPtr = s.endUndoPtr := h.oldestEndUndoPtr.trans hlast
  have hvalid : scan.oldestEndUndoPtr ≠ INVALID_UNDO_PTR := by
    intro hzero
    rw [endOffset, ← hend, hzero] at hpos
    exact absurd hpos (by decide)
  have hsame : scan.discardPtr = scan.oldestEndUndoPtr := by
    rw [RecycleScan.discardPtr, hstart, hend, hzid]
    exact if_neg (fun hc => hc rfl)
  rw [if_neg hvalid, if_neg hvalid, hsame, h.oldestEndUndoPtr, lastOr_map undoPtrGetOffset]
  exact ⟨rfl, lastOr_of_ne_nil _ hnone _ _⟩

/-- One page: the check before the marks move succeeds, and the marks move
over the slots of the page. -/
theorem Recycled.advance {run : RecycleRun} (h : Recycled env slots zone done run)
    (hscan : Scanned env zone.zid o done page scan) (hne : page ≠ [])
    (hset : ∀ s ∈ done ++ page, s.startUndoPtr ≠ INVALID_UNDO_PTR)
    (hpath : SlotPath slots zone.zid run.zone.recycleTSlotPtr page o)
    (ho : o < 2 ^ UNDO_LOG_OFFSET_BITS)
    (hranges : BackToBack zone.zid zone.insertURecPtr zone.forceDiscardURecPtr
      (done ++ page ++ rest)) :
    ∃ run', run.advance env scan = some run' ∧ Recycled env slots zone (done ++ page) run' ∧
      run'.zone.recycleTSlotPtr = o ∧
      (if scan.oldestEndUndoPtr = INVALID_UNDO_PTR then INVALID_UNDO_PTR else scan.discardPtr) =
        scan.oldestEndUndoPtr := by
  have hdone : ∀ s ∈ done, s.startUndoPtr ≠ INVALID_UNDO_PTR :=
    fun s hs => hset s (List.mem_append_left _ hs)
  have hpage : ∀ s ∈ page, s.startUndoPtr ≠ INVALID_UNDO_PTR :=
    fun s hs => hset s (List.mem_append_right _ hs)
  have hleft := hranges.drop hset
  -- the ranges of the page start at the force-discard mark
  have hhere : BackToBack zone.zid zone.insertURecPtr run.zone.forceDiscardURecPtr
      (page ++ rest) := by
    rw [h.forceDiscardURecPtr]
    exact BackToBack.drop hdone (by rwa [← append_assoc])
  obtain ⟨hendZid, hendLt⟩ := hhere.last_end hpage hne INVALID_UNDO_PTR
  have hscanEnd : scan.endUndoPtr = lastOr TransactionSlot.endUndoPtr page INVALID_UNDO_PTR := by
    rw [hscan.endUndoPtr, lastOr_append]
    exact lastOr_of_ne_nil _ hne _ _
  rw [← hscanEnd] at hendZid hendLt
  have hendMark : undoPtrGetOffset scan.endUndoPtr =
      lastOr endOffset (done ++ page) zone.forceDiscardURecPtr := by
    rw [hscan.endUndoPtr, lastOr_map undoPtrGetOffset]
    exact lastOr_of_ne_nil _ (by simp [hne]) _ _
  obtain ⟨s, page', rfl⟩ := List.exists_cons_of_ne_nil hne
  have hstart : scan.startUndoPtr = s.startUndoPtr := hscan.startUndoPtr
  obtain ⟨hstartZid, hstartOff, -, -, -⟩ := hhere.head (hpage s (.head _))
  rw [← hstart] at hstartZid hstartOff
  have hcheck : run.zone.checkRecycle scan.startUndoPtr scan.endUndoPtr = true := by
    have hinsert := hleft.le_insert
    rw [← hendMark] at hinsert
    have hmark := hhere.le_insert
    simp [UndoZone.checkRecycle, hstartZid, hendZid, hstartOff, h.insertURecPtr, hinsert, hmark,
      hendLt]
  obtain ⟨hold, hdiscard⟩ := hscan.discardPtr hset hranges hstartZid run.zone.discardURecPtr
  have hslot : undoPtrGetOffset scan.recyclePtr = o := by
    rw [hscan.recyclePtr, undoPtrGetOffset_make ho]
  refine ⟨_, by rw [RecycleRun.advance, if_pos hcheck], ?_, hslot, hold⟩
  refine ⟨h.zid, h.insertURecPtr, h.allocateTSlotPtr, ?_, hendMark, ?_, ?_, ?_, ?_, ?_, ?_⟩
  · show SlotPath slots zone.zid zone.recycleTSlotPtr _ (undoPtrGetOffset scan.recyclePtr)
    rw [hslot]
    exact h.recycleTSlotPtr.append hpath
  · refine hdiscard.trans ?_
    rw [h.discardURecPtr, List.filter_append, lastOr_append, lastOr_append, lastOr_idem]
  · exact hscan.recycleXid.trans (lastOr_of_ne_nil _ (by simp) _ _)
  · exact h.undoUnlinked.release env (le_of_lt hendLt)
  · refine h.slotUnlinked.release env ?_
    have := hpath.length_le
    omega
  · exact hscan.recycleXid.trans (lastOr_of_ne_nil _ (by simp) _ _)
  · simp

/-- A zone whose slots between the recycle and allocate pointers hold growing
transaction ids and ranges that follow each other from the force-discard
mark. -/
structure RecyclableZone (slots : Nat → TransactionSlot) where
  zone : UndoZone
  /-- The slots between the recycle and allocate pointers. -/
  live : List TransactionSlot
  path : SlotPath slots zone.zid zone.recycleTSlotPtr live zone.allocateTSlotPtr
  allocate_lt : zone.allocateTSlotPtr < 2 ^ UNDO_LOG_OFFSET_BITS
  xids : live.Pairwise (fun s t => s.xactId < t.xactId)
  ranges : BackToBack zone.zid zone.insertURecPtr zone.forceDiscardURecPtr live
  discard_le : zone.discardURecPtr ≤ zone.forceDiscardURecPtr

/-- With a path of slots to it, an allocate pointer at the first slot has the
recycle pointer there too, so it is never moved. -/
theorem RecyclableZone.checkUndoZoneMeta (z : RecyclableZone slots) :
    z.zone.checkUndoZoneMeta = makeUndoPtr z.zone.zid z.zone.allocateTSlotPtr := by
  have hle := z.path.length_le
  have halloc := z.allocate_lt
  rw [UndoZone.checkUndoZoneMeta, undoPtrGetOffset_make halloc,
    undoPtrGetOffset_make (lt_of_le_of_lt (by omega) halloc)]
  refine if_neg (fun ⟨hfirst, hother⟩ => ?_)
  have hpath := z.path
  rw [hfirst] at hpath
  cases hlive : z.live with
  | nil => rw [hlive] at hpath; exact hother hpath
  | cons s rest =>
    rw [hlive] at hpath
    have hnext := hpath.2.length_le
    simp only [nextSlotOffset] at hnext
    split at hnext <;> simp only [BLCKSZ, sizeofTransactionSlot, UNDO_LOG_BLOCK_HEADER_SIZE,
      SizeOfPageHeaderData] at hnext <;> omega

/-- The zone a run leaves is recyclable again, with the slots that are left. -/
theorem Recycled.recyclable {z : RecyclableZone slots} {run : RecycleRun}
    {passed left : List TransactionSlot} (h : Recycled env slots z.zone passed run)
    (hlive : z.live = passed ++ left) (hpass : ∀ s ∈ passed, env.passes s = true)
    (hleft : SlotPath slots z.zone.zid run.zone.recycleTSlotPtr left z.zone.allocateTSlotPtr) :
    ∃ after : RecyclableZone slots, after.zone = run.zone ∧ after.live = left := by
  have hset : ∀ s ∈ passed, s.startUndoPtr ≠ INVALID_UNDO_PTR :=
    fun s hs => RecycleEnv.passes_start (hpass s hs)
  have hranges := z.ranges
  have hxids := z.xids
  rw [hlive] at hranges hxids
  refine ⟨⟨run.zone, left, ?_, ?_, (List.pairwise_append.mp hxids).2.1, ?_, ?_⟩, rfl, rfl⟩
  · rw [h.zid, h.allocateTSlotPtr]; exact hleft
  · rw [h.allocateTSlotPtr]; exact z.allocate_lt
  · rw [h.zid, h.insertURecPtr, h.forceDiscardURecPtr]; exact hranges.drop hset
  · rw [h.discardURecPtr, h.forceDiscardURecPtr]
    exact hranges.filter_le hset env.below z.discard_le

/-- How a run ends: with a prefix of the live slots passed, at a slot that
stops it or at none, unless a recheck raises a PANIC. -/
structure RunEnd (env : RecycleEnv) (z : RecyclableZone slots) (passed left : List TransactionSlot)
    (out : RecycleRun × RecycleStop) : Prop where
  live : z.live = passed ++ left
  passes : ∀ s ∈ passed, env.passes s = true
  recycled : Recycled env slots z.zone passed out.1
  path : SlotPath slots z.zone.zid out.1.zone.recycleTSlotPtr left z.zone.allocateTSlotPtr
  ending : (out.2 = .finished ∧ ∀ s ∈ left.head?, env.slotVerdict s = .stop) ∨
    (out.2 = .panic ∧ ∃ s ∈ z.live, env.slotVerdict s = .panic)

/-- The outer loop, by induction on its turns: `Recycled` carries the zone
and `Scanned`, with an empty page, the local variables. -/
theorem recyclePages_end (z : RecyclableZone slots) :
    ∀ {fuel : Nat} {done rest : List TransactionSlot} {scan : RecycleScan} {run : RecycleRun},
      rest.length < fuel → z.live = done ++ rest → (∀ s ∈ done, env.passes s = true) →
      Recycled env slots z.zone done run →
      SlotPath slots z.zone.zid run.zone.recycleTSlotPtr rest z.zone.allocateTSlotPtr →
      Scanned env z.zone.zid run.zone.recycleTSlotPtr done []
        { scan with startUndoPtr := INVALID_UNDO_PTR, undoRecycled := false } →
      ∃ passed left, RunEnd env z passed left
        (recyclePages env slots (makeUndoPtr z.zone.zid z.zone.allocateTSlotPtr) fuel scan run) := by
  intro fuel
  induction fuel with
  | zero => intro done rest scan run hfuel; omega
  | succ fuel ih =>
    intro done rest scan run hfuel hlive hpass hrec hpath hscan
    have halloc := z.allocate_lt
    have hlen := hpath.length_le
    have ho : run.zone.recycleTSlotPtr < 2 ^ UNDO_LOG_OFFSET_BITS := by omega
    have hptr : scan.recyclePtr = makeUndoPtr z.zone.zid run.zone.recycleTSlotPtr :=
      hscan.recyclePtr
    have hlt : scan.recyclePtr < makeUndoPtr z.zone.zid z.zone.allocateTSlotPtr ↔
        run.zone.recycleTSlotPtr < z.zone.allocateTSlotPtr := by
      rw [hptr]; exact makeUndoPtr_lt_iff ho halloc
    rw [recyclePages]
    by_cases hmore : scan.recyclePtr < makeUndoPtr z.zone.zid z.zone.allocateTSlotPtr
    case neg =>
      rw [if_neg hmore]
      refine ⟨done, rest, hlive, hpass, hrec, hpath, .inl ⟨rfl, ?_⟩⟩
      have hnil : rest = [] := List.eq_nil_of_length_eq_zero (by omega)
      rw [hnil]
      exact nofun
    rw [if_pos hmore]
    have hroom : rest.length <
        makeUndoPtr z.zone.zid z.zone.allocateTSlotPtr - scan.recyclePtr + 1 := by
      rw [hptr, makeUndoPtr_eq ho, makeUndoPtr_eq halloc]
      omega
    have hend := scanSlots_end (undoPtrGetBlockNum scan.recyclePtr)
      halloc hroom hpath hscan nofun
      (by rw [append_nil, ← hlive]; exact z.xids)
    generalize scanSlots env slots (undoPtrGetBlockNum scan.recyclePtr) _ _ _ = out at hend ⊢
    cases hend with
    | panic hmem hp =>
      exact ⟨done, rest, hlive, hpass, hrec, hpath,
        .inr ⟨rfl, _, hlive ▸ List.mem_append_right _ hmem, hp⟩⟩
    | @ok more left p scan' hsplit hmorePath hleft hall hscan' hstop =>
      rw [List.nil_append] at hscan'
      simp only
      by_cases hnone : more = []
      case pos =>
        -- nothing passed on this page: the slot in front stopped the scan
        subst hnone
        rw [if_neg (by simp [hscan'.undoRecycled])]
        have hp : run.zone.recycleTSlotPtr = p := hmorePath
        refine ⟨done, rest, hlive, hpass, hrec, hpath, .inl ⟨rfl, fun s hs => ?_⟩⟩
        rw [hsplit, List.nil_append] at hs
        refine hstop s hs ?_
        rw [hptr, undoPtrGetBlockNum, undoPtrGetOffset_make ho, hp]
      rw [if_pos (by simp [hscan'.undoRecycled, hnone])]
      have hpass' : ∀ s ∈ done ++ more, env.passes s = true := by
        exact List.forall_mem_append.mpr ⟨hpass, hall⟩
      have hlive' : z.live = done ++ more ++ left := by
        rw [hlive, hsplit, append_assoc]
      have hp := hleft.length_le
      obtain ⟨run', hadv, hrec', hp', hold⟩ := hrec.advance hscan' hnone
        (fun s hs => RecycleEnv.passes_start (hpass' s hs)) hmorePath (by omega)
        (hlive' ▸ z.ranges)
      rw [hadv]
      simp only [hold]
      refine ih ?_ hlive' hpass' hrec' (by rwa [hp']) (by rw [hp']; exact hscan'.next)
      have := List.length_pos_iff.mpr hnone
      rw [hsplit, List.length_append] at hfuel
      omega

theorem Recycled.start (env : RecycleEnv) (slots : Nat → TransactionSlot) (zone : UndoZone) :
    Recycled env slots zone [] ⟨zone, env.oldestXid, false⟩ :=
  ⟨rfl, rfl, rfl, rfl, rfl, rfl, rfl, .refl _ _ _, .refl _ _ _, rfl, rfl⟩

theorem recycleUndoSpace_end (env : RecycleEnv) (z : RecyclableZone slots) :
    ∃ passed left, RunEnd env z passed left (recycleUndoSpace env slots z.zone) := by
  rw [recycleUndoSpace, z.checkUndoZoneMeta]
  have hlen := z.path.length_le
  have halloc := z.allocate_lt
  refine recyclePages_end z ?_ (List.nil_append z.live).symm nofun
    (Recycled.start env slots z.zone) z.path ⟨rfl, rfl, rfl, rfl, rfl, rfl, rfl⟩
  rw [makeUndoPtr_eq halloc, makeUndoPtr_eq (lt_of_le_of_lt (by omega) halloc)]
  omega

/-- The slots passed by a run that finishes are the longest prefix it may
pass. -/
theorem RunEnd.takeWhile {z : RecyclableZone slots} {passed left : List TransactionSlot}
    {out : RecycleRun × RecycleStop} (h : RunEnd env z passed left out)
    (hstop : ∀ s ∈ left.head?, env.slotVerdict s = .stop) :
    passed = z.live.takeWhile env.passes := by
  rw [h.live, List.takeWhile_append_of_pos h.passes]
  cases left with
  | nil => simp
  | cons s left =>
    have hs : ¬env.passes s = true := by
      rw [RecycleEnv.passes, hstop s rfl]
      exact Bool.false_ne_true
    rw [List.takeWhile_cons_of_neg hs, append_nil]

/-- Recycling discards no undo that is still needed: the slots passed are a
prefix of the live ones, all of them finished, and the zone's marks, xid and
unlinked segments are those of that prefix. The run finishes at the first
slot it may not pass, or a recheck of some live slot raises a PANIC. -/
theorem recycleUndoSpace_keeps_needed (env : RecycleEnv) (z : RecyclableZone slots)
    (hfrozen : ∀ s ∈ z.live, s.xactId < env.frozenXid →
      env.uheapTransactionIdDidCommit s.xactId = true ∨ s.needRollback = false)
    (hxmin : ∀ s ∈ z.live, s.xactId < env.recycleXmin →
      env.transactionIdIsInProgress s.xactId = false) :
    ∃ run stop passed left, recycleUndoSpace env slots z.zone = (run, stop) ∧
      z.live = passed ++ left ∧ (∀ s ∈ passed, env.Finished s) ∧
      Recycled env slots z.zone passed run ∧
      run.zone.discardURecPtr ≤ run.zone.forceDiscardURecPtr ∧
      run.zone.forceDiscardURecPtr ≤ run.zone.insertURecPtr ∧
      (∃ after : RecyclableZone slots, after.zone = run.zone ∧ after.live = left) ∧
      ((stop = .finished ∧ passed = z.live.takeWhile env.passes) ∨
        (stop = .panic ∧ ∃ s ∈ z.live, env.recheckUndoRecycleXid s = true)) := by
  obtain ⟨passed, left, hend⟩ := recycleUndoSpace_end env z
  have hfinished : ∀ s ∈ passed, env.Finished s := by
    intro s hs
    have hmem : s ∈ z.live := hend.live ▸ List.mem_append_left _ hs
    exact RecycleEnv.passes_finished (hfrozen s hmem) (hxmin s hmem) (hend.passes s hs)
  obtain ⟨after, hzone, hleft⟩ := hend.recycled.recyclable hend.live hend.passes hend.path
  have hdiscard := after.discard_le
  have hinsert := after.ranges.le_insert
  rw [hzone] at hdiscard hinsert
  refine ⟨_, _, passed, left, rfl, hend.live, hfinished, hend.recycled, hdiscard, hinsert,
    ⟨after, hzone, hleft⟩, ?_⟩
  rcases hend.ending with ⟨hfin, hstop⟩ | ⟨hpanic, s, hs, hv⟩
  · exact .inl ⟨hfin, hend.takeWhile hstop⟩
  refine .inr ⟨hpanic, s, hs, ?_⟩
  rcases slotVerdict_cases env s with ⟨-, hre⟩ | h | ⟨h, -⟩ | ⟨h, -⟩
  · exact hre
  all_goals rw [hv] at h; cases h

end Pages

/-- Two slots on the first page of zone 1, one on each side of
`recycleXmin` in `forcingEnv`. -/
def twoSlots (slotPtr : Nat) : TransactionSlot :=
  if slotPtr = makeUndoPtr 1 24 then ⟨10, makeUndoPtr 1 24, makeUndoPtr 1 100, 1⟩
  else ⟨20, makeUndoPtr 1 100, makeUndoPtr 1 200, 1⟩

def twoSlotZone : RecyclableZone twoSlots where
  zone := ⟨1, 300, 24, 24, 88, 24, 5, ⟨0, 0, []⟩, ⟨0, 0, []⟩⟩
  live := [twoSlots (makeUndoPtr 1 24), twoSlots (makeUndoPtr 1 56)]
  path := ⟨rfl, rfl, rfl⟩
  allocate_lt := by decide
  xids := by decide
  ranges := .cons (by decide) (by decide) (by decide) (by decide)
    (.cons (by decide) (by decide) (by decide) (by decide) (.nil (by decide)))
  discard_le := by decide

/-- Transaction 20 may only be passed by force. -/
def forcingEnv : RecycleEnv where
  recycleXmin := 15
  frozenXid := 30
  forceRecycleXid := 25
  globalFrozenXid := 5
  globalRecycleXid := 5
  hotStandbyRecycleXid := 5
  recoveryInProgress := false
  recyclerInRecovery := false
  transactionIdIsInProgress := fun _ => false
  uheapTransactionIdDidCommit := fun _ => true

theorem recycleUndoSpace_keeps_needed_twoSlots :
    (recycleUndoSpace forcingEnv twoSlots twoSlotZone.zone).1.zone.discardURecPtr = 100 ∧
      ∃ run stop passed left,
        recycleUndoSpace forcingEnv twoSlots twoSlotZone.zone = (run, stop) ∧
        twoSlotZone.live = passed ++ left ∧ (∀ s ∈ passed, forcingEnv.Finished s) ∧
        Recycled forcingEnv twoSlots twoSlotZone.zone passed run := by
  refine ⟨by decide, ?_⟩
  obtain ⟨run, stop, passed, left, hrun, hlive, hfin, hrec, -⟩ :=
    recycleUndoSpace_keeps_needed forcingEnv twoSlotZone (fun _ _ _ => .inl rfl) (fun _ _ _ => rfl)
  exact ⟨run, stop, passed, left, hrun, hlive, hfin, hrec⟩

end OpenGauss.Undo
