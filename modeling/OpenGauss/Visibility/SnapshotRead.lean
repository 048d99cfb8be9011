import OpenGauss.Visibility.Invariant

/-!
# Reading under the invariant

Under the invariant `UHeapTupleFetch` returns the newest visible version.
The walk down a chain is first written over the chain as a list; then the
record of an invisible version is shown to be found (`first_record`,
`next_record`, `record_in_other_slot`), and the loop of `GetTupleFromUndo`
follows the versions.
-/

namespace OpenGauss.Visibility

open Lib
open List (pairwise_append cons_prefix_cons append_cons filter_cons_of_pos map_cons cons_append)
open Version (op urp)
open UndoRecord (blkprev)

variable {n : Nat} {s : Store} {snap : Snapshot} {off : Nat}
variable {invalidXact needByPass : Bool} {above rest : List Version} {td tdSlot : Nat}
  {e : Nat × UndoRecord} {vis : Nat → Prop} {v w : Version}

theorem xidVisible_iff (x : Nat) : s.xidVisible snap x = true ↔ s.Visible snap.snapshotcsn x := by
  simp [Store.xidVisible, Store.Visible]

theorem didCommit_iff (x : Nat) : s.didCommit x = true ↔ s.Committed x := by
  simp [Store.didCommit, Store.Committed]

theorem Store.tdSlotInfo_of_ne (h : td ≠ 0) :
    s.tdSlotInfo td = ⟨td, (s.tds td).xactid, (s.tds td).undoRecordPtr⟩ := if_neg h

/-- A transaction ends once, so a commit that is seen is visible. -/
theorem SlotsOk.visible_of_seen (h : SlotsOk s) {x : Nat} (hx : s.Seen n x)
    (hc : s.Committed x) : s.Visible n x := by
  obtain ⟨⟨y, b⟩, hmem, rfl⟩ := List.mem_map.mp hx
  have heq : ((y, b) : Nat × Bool) = (y, true) :=
    List.inj_on_of_nodup_map h.xacts.ended_nodup (List.mem_of_mem_take hmem) hc rfl
  rw [heq] at hmem
  exact hmem

theorem ne_invalid_of_normal {x : Nat} (h : FirstNormalTransactionId ≤ x) :
    x ≠ InvalidTransactionId :=
  Nat.ne_of_gt (Nat.lt_of_lt_of_le (by decide) h)

namespace Inv

/-! ## Horizons -/

theorem visible_of_old (h : Inv n s) {x : Nat} (hx : FirstNormalTransactionId ≤ x)
    (hc : s.Committed x)
    (hold : x < s.globalRecycleXid ∨ x < s.globalFrozenXid ∨ x < s.pruneXmin) :
    s.Visible n x :=
  h.slots.visible_of_seen (h.admissible x hx hold) hc

/-- A record below a horizon is of a visible transaction. -/
theorem entry_visible (h : Inv n s) (he : e ∈ s.tdChain td)
    (hold : e.2.xid < s.globalRecycleXid ∨ e.2.xid < s.globalFrozenXid) : s.Visible n e.2.xid := by
  obtain ⟨h3, hxid⟩ := h.slots.chain_xid td e he
  have hc : s.Committed e.2.xid := by
    rcases hxid with heq | hc
    · have hne : (s.tds td).xactid ≠ InvalidTransactionId := by
        rw [← heq]
        exact ne_invalid_of_normal h3
      rw [heq] at hold ⊢
      exact h.slots.slot_old td hne hold
    · exact hc
  exact h.visible_of_old h3 hc (by omega)

/-- Nothing newer than an invisible record of a chain is discarded or below
a horizon. -/
theorem clear_of_invisible (h : Inv n s) {front back : List (Nat × UndoRecord)}
    (hchain : s.tdChain td = front ++ e :: back) (hinv : ¬s.Visible n e.2.xid) :
    ∀ e' ∈ front ++ [e], s.discarded e'.1 = false ∧ ¬e'.2.xid < s.globalFrozenXid := by
  intro e' he'
  have hmem : e' ∈ s.tdChain td := by
    rw [hchain, append_cons]
    exact List.mem_append_left _ he'
  have hfol : Follows s.ended e'.2.xid e.2.xid := by
    have hord := h.slots.chain_order td
    rw [hchain] at hord
    rcases List.mem_append.mp he' with hf | hf
    · exact (pairwise_append.mp hord).2.2 e' hf e (.head _)
    · rw [List.mem_singleton.mp hf]
      exact .inl rfl
  have hnot : ¬(e'.2.xid < s.globalRecycleXid ∨ e'.2.xid < s.globalFrozenXid) := by
    intro hold
    have hvis := h.entry_visible hmem hold
    rcases hfol with heq | hb
    · exact hinv (heq ▸ hvis)
    · exact hinv (hb.visible hvis.seen)
  refine ⟨?_, fun hlt => hnot (.inr hlt)⟩
  by_contra hd
  obtain ⟨-, -, hget⟩ := mem_chain h.slots.linked (h.slots.urp_le td) hmem
  obtain ⟨r, hr, hlt⟩ := h.slots.discard_old e'.1 (by simpa using hd)
  rw [hget, Option.some.injEq] at hr
  exact hnot (.inl (hr ▸ hlt))

/-! ## Versions of a row -/

theorem follows_version (h : Inv n s) (above : List Version)
    (hvs : s.versions off = above ++ v :: rest) {u : Version} (hu : u ∈ rest) :
    Follows s.ended v.writer u.writer := by
  have hord := h.version_order off
  rw [hvs] at hord
  have hpair := (List.pairwise_cons.mp (pairwise_append.mp hord).2.1).1 u hu
  rcases hpair.2 with ⟨heq, -⟩ | hb
  · exact .inl heq
  · exact .inr hb

/-- What lies below a visible version is visible. -/
theorem visible_below (h : Inv n s) (above : List Version)
    (hvs : s.versions off = above ++ v :: rest) (hvis : s.Visible n v.writer) {u : Version}
    (hu : u ∈ rest) : s.Visible n u.writer := by
  rcases h.follows_version _ hvs hu with heq | hb
  · exact heq ▸ hvis
  · exact hb.visible hvis.seen

theorem entry_mem (h : Inv n s) (hv : v ∈ s.versions off) (hinv : ¬s.Visible n v.writer) :
    v.entry ∈ s.tdChain v.slot :=
  h.version_kept off v hv (.inl hinv)

/-- A record of the row in a slot's chain belongs to a version written
through that slot. -/
theorem version_of_entry (h : Inv n s) (he : e ∈ s.tdChain td) (hoff : e.2.offset = off) :
    ∃ v ∈ s.versions off, v.slot = td ∧ v.entry = e := by
  have hmem : e ∈ (s.tdChain td).filter (fun e => e.2.offset = off) :=
    List.mem_filter.mpr ⟨he, by simpa using hoff⟩
  obtain ⟨v, hv, hentry⟩ := List.mem_map.mp ((h.chain_versions td off).subset hmem)
  obtain ⟨hv, hslot⟩ := List.mem_filter.mp hv
  exact ⟨v, hv, by simpa using hslot, hentry⟩

/-- If the slot's transaction is seen to have ended, a committed version
written through the slot is visible. -/
theorem visible_of_slot (h : Inv n s) (hv : v ∈ s.versions off)
    (hne : (s.tds v.slot).xactid ≠ InvalidTransactionId) (hseen : s.Seen n (s.tds v.slot).xactid)
    (hc : (s.tds v.slot).xactid = v.writer → s.Committed v.writer) : s.Visible n v.writer := by
  by_contra hinv
  have hmem := h.entry_mem hv hinv
  obtain ⟨e, rest, hchain, hhead⟩ := h.slots.slot_head v.slot hne
  rw [hchain, List.mem_cons] at hmem
  rcases hmem with heq | hmem
  · have hw : (s.tds v.slot).xactid = v.writer := by rw [← hhead, ← heq]; rfl
    exact hinv (h.slots.visible_of_seen (hw ▸ hseen) (hc hw))
  have hord := h.slots.chain_order v.slot
  rw [hchain] at hord
  have hfol := (List.pairwise_cons.mp hord).1 _ hmem
  rw [hhead] at hfol
  rcases hfol with hw | hb
  · replace hw : (s.tds v.slot).xactid = v.writer := hw
    exact hinv (h.slots.visible_of_seen (hw ▸ hseen) (hc hw))
  · exact hinv (hb.visible hseen)

/-- The newest version of the row through its slot is the first record of the
row in the slot's chain. -/
theorem first_record (h : Inv n s) (above : List Version)
    (hvs : s.versions off = above ++ v :: rest) (habove : ∀ u ∈ above, u.slot ≠ v.slot)
    (hmem : v.entry ∈ s.tdChain v.slot) :
    ∃ front back, s.tdChain v.slot = front ++ v.entry :: back ∧ ∀ e ∈ front, e.2.offset ≠ off := by
  have hv : v ∈ s.versions off := by rw [hvs]; simp
  have hoff : v.urec.offset = off := (h.version_range off v hv).1
  have hpre := h.chain_versions v.slot off
  have hnone : above.filter (fun u => u.slot = v.slot) = [] := by
    rw [List.filter_eq_nil_iff]
    intro u hu
    simpa using habove u hu
  rw [hvs, List.filter_append, hnone, List.nil_append, filter_cons_of_pos (by simp),
    map_cons] at hpre
  have hin : v.entry ∈ (s.tdChain v.slot).filter (fun e => e.2.offset = off) :=
    List.mem_filter.mpr ⟨hmem, decide_eq_true hoff⟩
  cases hfil : (s.tdChain v.slot).filter (fun e => e.2.offset = off) with
  | nil =>
    rw [hfil] at hin
    cases hin
  | cons e es =>
    rw [hfil, cons_prefix_cons] at hpre
    rw [hpre.1] at hfil
    obtain ⟨front, back, hchain, hfront, -⟩ := List.filter_eq_cons_iff.mp hfil
    exact ⟨front, back, hchain, fun e he => by simpa using hfront e he⟩

/-- Aligning a prefix at an element that occurs once on each side. -/
theorem prefix_cut {α : Type} {a b x y : List α} {v : α} (ha : v ∉ a) (hb : v ∉ b)
    (hpre : a ++ v :: x <+: b ++ v :: y) : x <+: y := by
  induction a generalizing b with
  | nil =>
    cases b with
    | nil => exact (cons_prefix_cons.mp hpre).2
    | cons c b =>
      have hv := (cons_prefix_cons.mp hpre).1
      exact absurd (hv ▸ (.head _)) hb
  | cons c a ih =>
    cases b with
    | nil =>
      have hv := (cons_prefix_cons.mp hpre).1
      exact absurd (hv ▸ (.head _)) ha
    | cons d b =>
      refine ih (fun h => ha (.tail _ h)) (fun h => hb (.tail _ h)) ?_
      exact (cons_prefix_cons.mp hpre).2

/-- The version below one of the same slot is the first record of the row
behind that one's record. -/
theorem next_record (h : Inv n s) (hvs : s.versions off = above ++ v :: w :: rest)
    (hslot : w.slot = v.slot) (hv : v.entry ∈ s.tdChain v.slot) (hw : w.entry ∈ s.tdChain v.slot) :
    ∃ front back, chain blkprev s.log v.urec.blkprev = front ++ w.entry :: back ∧
      ∀ e ∈ front, e.2.offset ≠ off := by
  set older := chain blkprev s.log v.urec.blkprev
  have hlinked := h.slots.linked
  have hle := h.slots.urp_le v.slot
  obtain ⟨front, hchain⟩ := chain_split hlinked hle hv
  replace hchain : s.tdChain v.slot =
      front ++ v.entry :: older := hchain
  have hdec := chain_pairwise hlinked hle
  change (s.tdChain v.slot).Pairwise _ at hdec
  rw [hchain] at hdec
  have hord := h.version_order off
  rw [hvs] at hord
  -- pointers fall along the chain and along the versions
  have hfront : ∀ e ∈ front, v.urp < e.1 := fun e he =>
    (pairwise_append.mp hdec).2.2 e he _ (.head _)
  have hwv : w.urp < v.urp :=
    ((List.pairwise_cons.mp (pairwise_append.mp hord).2.1).1 w (.head _)).1
  have habove : ∀ u ∈ above, v.urp < u.urp := fun u hu =>
    ((pairwise_append.mp hord).2.2 u hu v (.head _)).1
  have hvmem : v ∈ s.versions off := by rw [hvs]; simp
  have hwmem : w ∈ s.versions off := by rw [hvs]; simp
  have hvoff : v.urec.offset = off := (h.version_range off v hvmem).1
  have hwoff : w.urec.offset = off := (h.version_range off w hwmem).1
  have hpre := h.chain_versions v.slot off
  have hkeep : ∀ l, (v.entry :: l).filter (fun e : Nat × UndoRecord => e.2.offset = off) =
      v.entry :: l.filter (fun e => e.2.offset = off) := fun l =>
    filter_cons_of_pos (decide_eq_true hvoff)
  rw [hvs, hchain, List.filter_append, List.filter_append, hkeep,
    filter_cons_of_pos (by simp), filter_cons_of_pos (by simpa using hslot),
    List.map_append, map_cons, map_cons] at hpre
  have hcut := prefix_cut (v := v.entry)
    (fun hin => by
      have hlt := hfront _ (List.mem_of_mem_filter hin)
      exact absurd hlt (lt_irrefl _))
    (fun hin => by
      obtain ⟨u, hu, heq⟩ := List.mem_map.mp hin
      have hlt := habove u (List.mem_of_mem_filter hu)
      have heq1 : u.urp = v.urp := congrArg Prod.fst heq
      omega) hpre
  have hbehind : w.entry ∈ older := by
    rw [hchain, List.mem_append, List.mem_cons] at hw
    rcases hw with hin | heq | hin
    · have hlt : v.urp < w.urp := hfront _ hin
      omega
    · have heq1 : w.urp = v.urp := congrArg Prod.fst heq
      omega
    · exact hin
  have hin : w.entry ∈ older.filter
      (fun e => e.2.offset = off) :=
    List.mem_filter.mpr ⟨hbehind, decide_eq_true hwoff⟩
  cases hfil : older.filter
      (fun e => e.2.offset = off) with
  | nil =>
    rw [hfil] at hin
    cases hin
  | cons e es =>
    rw [hfil, cons_prefix_cons] at hcut
    rw [hcut.1] at hfil
    obtain ⟨front', back, hchain', hfront', -⟩ := List.filter_eq_cons_iff.mp hfil
    exact ⟨front', back, hchain', fun e he => by simpa using hfront' e he⟩

/-- In another slot's chain nothing of the same writer and row comes before
the version's record. -/
theorem record_in_other_slot (h : Inv n s) (hvs : s.versions off = above ++ v :: w :: rest)
    (hslot : w.slot ≠ v.slot) (hw : w.entry ∈ s.tdChain w.slot) :
    ∃ front back, s.tdChain w.slot = front ++ w.entry :: back ∧
      ∀ e ∈ front, ¬(e.2.offset = off ∧ e.2.xid = w.writer) := by
  have hlinked := h.slots.linked
  have hle := h.slots.urp_le w.slot
  obtain ⟨front, hchain⟩ := chain_split hlinked hle hw
  replace hchain : s.tdChain w.slot =
      front ++ w.entry :: chain blkprev s.log w.urec.blkprev := hchain
  refine ⟨front, _, hchain, ?_⟩
  rintro e he ⟨heoff, hexid⟩
  have hdec := chain_pairwise hlinked hle
  change (s.tdChain w.slot).Pairwise _ at hdec
  rw [hchain] at hdec
  have hlt : w.urp < e.1 := (pairwise_append.mp hdec).2.2 e he _ (.head _)
  have hmem : e ∈ s.tdChain w.slot := by rw [hchain]; exact List.mem_append_left _ he
  obtain ⟨u, hu, huslot, hue⟩ := h.version_of_entry hmem heoff
  have hurp : u.urp = e.1 := congrArg Prod.fst hue
  have huw : u.writer = w.writer := by rw [← hexid, ← hue]; rfl
  have hord := h.version_order off
  rw [hvs] at hord hu
  obtain ⟨-, hvw, habove⟩ := pairwise_append.mp hord
  obtain ⟨hv, hwrest⟩ := List.pairwise_cons.mp hvw
  -- `u` is newer than `w`, so it is `v` or lies above it
  rcases List.mem_append.mp hu with hu | hu
  · have huv := (habove u hu v (.head _)).2
    rcases huv with ⟨-, hs⟩ | huv
    · exact hslot (by rw [← huslot, hs])
    rcases (hv w (.head _)).2 with ⟨-, hs⟩ | hvw
    · exact hslot hs.symm
    · rw [huw] at huv
      exact huv.asymm hvw
  · rcases List.mem_cons.mp hu with rfl | hu
    · exact hslot huslot.symm
    rcases List.mem_cons.mp hu with rfl | hu
    · omega
    · have := ((List.pairwise_cons.mp hwrest).1 u hu).1
      omega

end Inv

/-! ## The walk down a chain -/

/-- `FetchUndoRecord` over the chain as a list. -/
def walk (s : Store) (off xid : Nat) (needByPass : Bool) : List (Nat × UndoRecord) → UndoTraversal
  | [] => .endchain
  | (urp, urec) :: rest =>
    if s.discarded urp then .done
    else if needByPass && s.olderThanFrozenXid urec.xid then .stop
    else if urec.offset = off ∧ (xid = InvalidTransactionId ∨ urec.xid = xid) then .complete urec
    else walk s off xid needByPass rest

theorem fetchUndoRecord_eq_walk (h : SlotsOk s) (xid : Nat) (needByPass : Bool) {passes urp : Nat}
    (hle : urp ≤ s.log.length) (hpass : urp < passes) :
    fetchUndoRecord s off xid needByPass passes urp =
      walk s off xid needByPass (chain blkprev s.log urp) := by
  induction passes generalizing urp with
  | zero => omega
  | succ passes ih =>
    rcases chain_cases h.linked hle with rfl | ⟨urec, hne, hget, hchain, hlt⟩
    · simp [fetchUndoRecord, walk, INVALID_UNDO_REC_PTR]
    rw [hchain]
    simp only [fetchUndoRecord, walk, hget, INVALID_UNDO_REC_PTR, if_neg hne]
    rw [ih (by omega) (by omega)]

theorem fetchUndoRecord_slot (h : SlotsOk s) (slot xid : Nat) (needByPass : Bool) :
    fetchUndoRecord s off xid needByPass ((s.tds slot).undoRecordPtr + 1)
      (s.tds slot).undoRecordPtr = walk s off xid needByPass (s.tdChain slot) :=
  fetchUndoRecord_eq_walk h _ _ (h.urp_le slot) (Nat.lt_succ_self _)

/-- The walk stops at the first record that fits if nothing before it is
discarded or below the frozen horizon. -/
theorem walk_found {xid : Nat} {front back : List (Nat × UndoRecord)} (hoff : e.2.offset = off)
    (hxid : xid = InvalidTransactionId ∨ e.2.xid = xid)
    (hfront : ∀ e' ∈ front, ¬(e'.2.offset = off ∧ (xid = InvalidTransactionId ∨ e'.2.xid = xid)))
    (hclear : ∀ e' ∈ front ++ [e], s.discarded e'.1 = false ∧
      (needByPass = true → ¬e'.2.xid < s.globalFrozenXid)) :
    walk s off xid needByPass (front ++ e :: back) = .complete e.2 := by
  have hstop : ∀ e' ∈ front ++ [e],
      (needByPass && s.olderThanFrozenXid e'.2.xid) = false := by
    intro e' he'
    cases needByPass with
    | false => rfl
    | true => simpa [Store.olderThanFrozenXid] using (hclear e' he').2 rfl
  induction front with
  | nil =>
    have hmem : e ∈ [] ++ [e] := by simp
    simp [walk, (hclear e hmem).1, hstop e hmem, hoff, hxid]
  | cons e' front ih =>
    have hmem : e' ∈ (e' :: front) ++ [e] := by simp
    have hnot := hfront e' (.head _)
    rw [cons_append, walk, (hclear e' hmem).1, hstop e' hmem, if_neg hnot]
    exact ih (fun x hx => hfront x (.tail _ hx))
      (fun x hx => hclear x (.tail _ hx))
      (fun x hx => hstop x (.tail _ hx))

/-- Without a writer to look for, the walk ends with the row's first record. -/
theorem filter_of_walk_complete {l : List (Nat × UndoRecord)} {urec : UndoRecord}
    (hw : walk s off InvalidTransactionId needByPass l = .complete urec) :
    ∃ urp es, l.filter (fun e => e.2.offset = off) = (urp, urec) :: es := by
  induction l with
  | nil => simp [walk] at hw
  | cons e l ih =>
    rw [walk] at hw
    split_ifs at hw with hd hs hm
    · simp only [UndoTraversal.complete.injEq] at hw
      exact ⟨e.1, l.filter _, by rw [filter_cons_of_pos (by simpa using hm.1), ← hw]⟩
    · have hne : ¬e.2.offset = off := fun heq => hm ⟨heq, .inl rfl⟩
      rw [List.filter_cons_of_neg (by simpa using hne)]
      exact ih hw

/-! ## What a read should return -/

/-- The newest version whose writer is visible. -/
def newestVisible (s : Store) (snap : Snapshot) (vs : List Version) : Option Version :=
  vs.find? (fun v => s.xidVisible snap v.writer)

/-- The read ends with a row that holds the version's contents, or with none
if there is no version or it is a deletion. -/
def ReadOk (version : Option Version) (result : FetchResult) : Prop :=
  match version with
  | none => result = .found none
  | some v =>
    if v.contents.isSome then ∃ t, result = .found (some t) ∧ v.Fits t.body
    else result = .found none

theorem newestVisible_of_visible (rest : List Version) (hv : s.Visible snap.snapshotcsn v.writer) :
    newestVisible s snap (v :: rest) = some v := by
  have hx : s.xidVisible snap v.writer = true := (xidVisible_iff _).mpr hv
  simp [newestVisible, hx]

theorem newestVisible_of_invisible (rest : List Version) (hv : ¬s.Visible snap.snapshotcsn v.writer) :
    newestVisible s snap (v :: rest) = newestVisible s snap rest := by
  have hx : s.xidVisible snap v.writer = false := by
    rw [← Bool.not_eq_true, xidVisible_iff]
    exact hv
  simp [newestVisible, hx]

theorem ReadOk.of_fits {t : UHeapTuple} (hfit : v.Fits t.body) :
    ReadOk (some v) (.found (some t)) := by
  have hsome : v.contents.isSome = true := by
    obtain ⟨c, hc, -⟩ := hfit
    rw [hc]
    rfl
  simp only [ReadOk, hsome, if_true]
  exact ⟨t, rfl, hfit⟩

theorem ReadOk.of_gone (hnone : v.contents = none) : ReadOk (some v) (.found none) := by
  simp [ReadOk, hnone]

theorem LinkOk.gone (h : LinkOk vis v rest) (hop : v.op = .gone) : v.contents = none := by
  unfold LinkOk at h
  unfold op at hop
  cases hd : v.urec.data with
  | insert | inplaceUpdate => rw [hd] at hop; cases hop
  | delete hdr body => rw [hd] at h; exact h.1

theorem LinkOk.new (h : LinkOk vis v rest) (hop : v.op = .new) : Freed vis rest := by
  unfold LinkOk at h
  unfold op at hop
  cases hd : v.urec.data with
  | insert => rw [hd] at h; exact h.2
  | inplaceUpdate | delete => rw [hd] at hop; cases hop

theorem LinksOk.at (h : LinksOk vis (above ++ v :: rest)) : LinkOk vis v rest := by
  induction above with
  | nil => exact h.1
  | cons u above ih => exact ih h.2

/-- What lies below a new row is nothing a reader could see. -/
theorem Inv.readOk_freed (h : Inv snap.snapshotcsn s) (above : List Version) {vs : List Version}
    (hvs : s.versions off = above ++ vs) (hf : Freed (s.Visible snap.snapshotcsn) vs) :
    ReadOk (newestVisible s snap vs) (.found none) := by
  rcases hf with rfl | ⟨v, rest, rfl, hop, hvis⟩
  · rfl
  rw [newestVisible_of_visible rest hvis]
  have hl := h.version_links off
  rw [hvs] at hl
  exact ReadOk.of_gone (hl.at.gone hop)

/-! ## The records of invisible versions are found -/

theorem mem_incarnation (above : List Version) (habove : ∀ u ∈ above, u.op ≠ .new) :
    v ∈ incarnation (above ++ v :: rest) := by
  induction above with
  | nil =>
    simp only [List.nil_append, incarnation]
    split <;> exact .head _
  | cons u above ih =>
    simp only [cons_append, incarnation, if_neg (habove u (.head _))]
    exact .tail _ (ih (fun x hx => habove x (.tail _ hx)))

/-- The newest version's record is found if it is still in the chain and the
walk is not stopped before it. -/
theorem Inv.walk_kept (h : Inv n s) (hvs : s.versions off = v :: rest)
    (hmem : v.entry ∈ s.tdChain v.slot)
    (hclear : ∀ front back, s.tdChain v.slot = front ++ v.entry :: back →
      ∀ e ∈ front ++ [v.entry], s.discarded e.1 = false ∧
        (needByPass = true → ¬e.2.xid < s.globalFrozenXid)) :
    walk s off InvalidTransactionId needByPass (s.tdChain v.slot) = .complete v.urec := by
  obtain ⟨front, back, hchain, hfront⟩ := h.first_record [] hvs (by simp) hmem
  rw [hchain]
  exact walk_found (e := v.entry) (h.version_range off v (mem_of_cons hvs)).1 (.inl rfl)
    (fun e he hm => hfront e he hm.1) (hclear front back hchain)

theorem Inv.walk_first (h : Inv n s) (hvs : s.versions off = v :: rest)
    (hinv : ¬s.Visible n v.writer) (needByPass : Bool) :
    walk s off InvalidTransactionId needByPass (s.tdChain v.slot) = .complete v.urec := by
  refine h.walk_kept hvs (h.entry_mem (mem_of_cons hvs) hinv) fun front back hchain e he => ?_
  have hc := h.clear_of_invisible hchain hinv e he
  exact ⟨hc.1, fun _ => hc.2⟩

theorem Inv.walk_unrecycled (h : Inv n s) (hused : s.rows off ≠ .unused)
    (hvs : s.versions off = v :: rest) (hzero : s.globalRecycleXid = 0) :
    walk s off InvalidTransactionId false (s.tdChain v.slot) = .complete v.urec := by
  have hin : v ∈ incarnation (s.versions off) := by
    rw [hvs]
    exact mem_incarnation [] (by simp)
  refine h.walk_kept hvs (h.version_kept off v (mem_of_cons hvs) (.inr ⟨hzero, hused, hin⟩))
    fun front back hchain e he => ⟨?_, nofun⟩
  have hmem : e ∈ s.tdChain v.slot := by
    rw [hchain, append_cons]
    exact List.mem_append_left _ he
  by_contra hd
  obtain ⟨-, -, hget⟩ := mem_chain h.slots.linked (h.slots.urp_le v.slot) hmem
  obtain ⟨r, -, hlt⟩ := h.slots.discard_old e.1 (by simpa using hd)
  omega

/-- From the record of a version to that of the one below it, behind the
record itself or from the top of another slot. -/
theorem Inv.fetch_next (h : Inv n s) (hvs : s.versions off = above ++ v :: w :: rest)
    (hinv : ¬s.Visible n w.writer) {start : Nat}
    (hstart : start = if w.slot ≠ v.slot then (s.tds w.slot).undoRecordPtr else v.urec.blkprev) :
    fetchUndoRecord s off w.writer false (start + 1) start = .complete w.urec := by
  have hv : v ∈ s.versions off := by rw [hvs]; simp
  have hw : w ∈ s.versions off := by rw [hvs]; simp
  have hinv' : ¬s.Visible n v.writer := fun hvis =>
    hinv (h.visible_below _ hvs hvis (.head _))
  have hvmem := h.entry_mem hv hinv'
  have hwmem := h.entry_mem hw hinv
  have hwoff : w.entry.2.offset = off := (h.version_range off w hw).1
  have hlinked := h.slots.linked
  by_cases hslot : w.slot = v.slot
  · rw [if_neg (not_not_intro hslot)] at hstart
    subst hstart
    obtain ⟨front, back, hchain, hfront⟩ := h.next_record hvs hslot hvmem (hslot ▸ hwmem)
    obtain ⟨above', hsplit⟩ := chain_split hlinked (h.slots.urp_le v.slot) hvmem
    have hle : v.urec.blkprev ≤ s.log.length := by
      obtain ⟨h0, -, hget⟩ := mem_chain hlinked (h.slots.urp_le v.slot) hvmem
      have hlt := (List.getElem?_eq_some_iff.mp hget).1
      have := hlinked _ _ hget
      omega
    replace hsplit : s.tdChain v.slot = (above' ++ v.entry :: front) ++ w.entry :: back := by
      rw [List.append_assoc, cons_append, ← hchain]
      exact hsplit
    rw [fetchUndoRecord_eq_walk h.slots _ _ hle (Nat.lt_succ_self _), hchain]
    refine walk_found (e := w.entry) hwoff (.inr rfl) (fun e he hm => hfront e he hm.1) ?_
    intro e he
    have hc := h.clear_of_invisible hsplit hinv e (by
      rw [List.append_assoc, cons_append]
      exact List.mem_append_right _ (.tail _ he))
    exact ⟨hc.1, fun _ => hc.2⟩
  · rw [if_pos hslot] at hstart
    subst hstart
    obtain ⟨front, back, hchain, hfront⟩ := h.record_in_other_slot hvs hslot hwmem
    rw [fetchUndoRecord_slot h.slots, hchain]
    refine walk_found (e := w.entry) hwoff (.inr rfl) ?_ fun e he =>
      have hc := h.clear_of_invisible hchain hinv e he
      ⟨hc.1, fun _ => hc.2⟩
    rintro e he ⟨heoff, hzero | hxid⟩
    · exact absurd hzero (ne_invalid_of_normal (h.version_range off w hw).2.2.2.1)
    · exact hfront e he ⟨heoff, hxid⟩

/-- The record of a version that is not an insertion leads to the version
below. -/
theorem LinkOk.saved (h : LinkOk vis v rest) (hop : v.op ≠ .new) (hdr : TupleHeader) :
    ∃ w rest', rest = w :: rest' ∧
      SavedFrom vis (headerFromUndo v.urec hdr) v.urec.oldXactId w ∧
      ∀ body, (v.op = .modified → v.Fits body) → w.Fits (v.urec.data.oldBody body) := by
  unfold LinkOk at h
  unfold op at hop ⊢
  unfold headerFromUndo
  cases hd : v.urec.data with
  | insert => rw [hd] at hop; exact absurd rfl hop
  | inplaceUpdate =>
    rw [hd] at h
    obtain ⟨-, w, rest', hrest, hsaved, hfits⟩ := h
    exact ⟨w, rest', hrest, hsaved, fun body hb => hfits body (hb rfl)⟩
  | delete old body =>
    rw [hd] at h
    obtain ⟨-, w, rest', hrest, hsaved, hfits⟩ := h
    exact ⟨w, rest', hrest, hsaved, fun _ _ => hfits⟩

/-- An old writer below the recycle horizon is visible. -/
theorem Inv.saved_visible (h : Inv n s) (hvs : s.versions off = above ++ v :: w :: rest)
    (hinv : ¬s.Visible n v.writer) {hdr : TupleHeader} {oldXactId : Nat}
    (hsaved : SavedFrom (s.Visible n) hdr oldXactId w) (hold : oldXactId < s.globalRecycleXid) :
    s.Visible n w.writer := by
  have hv : v ∈ s.versions off := by rw [hvs]; simp
  have hw : w ∈ s.versions off := by rw [hvs]; simp
  rcases hsaved.xid with heq | hvis
  · rw [heq] at hold
    have hc : s.Committed w.writer := by
      rcases h.follows_version _ hvs (List.mem_cons_self (a := w) (l := rest)) with hsame | hb
      · rw [← hsame] at hold
        exact absurd (h.entry_visible (h.entry_mem hv hinv) (.inl hold)) hinv
      · exact hb.committed
    exact h.visible_of_old (h.version_range off w hw).2.2.2.1 hc (.inl hold)
  · exact hvis.1

/-- The loop of `GetTupleFromUndo`, started with the record of an invisible
version, returns the newest visible version below. -/
theorem Inv.getTupleFromUndo_spec (h : Inv snap.snapshotcsn s) (hused : s.rows off ≠ .unused)
    {passes urecAdd prevXid : Nat} {hdr : TupleHeader} {body : List UInt8} (above : List Version)
    (hvs : s.versions off = above ++ v :: rest) (habove : ∀ u ∈ above, u.op ≠ .new)
    (hinv : ¬s.Visible snap.snapshotcsn v.writer) (hpass : rest.length < passes) (hop : v.op ≠ .new)
    (hbody : v.op = .modified → v.Fits body)
    (hfetch : fetchUndoRecord s off prevXid false (urecAdd + 1) urecAdd = .complete v.urec) :
    ReadOk (newestVisible s snap rest)
      (getTupleFromUndo s snap off passes urecAdd prevXid v.slot hdr body) := by
  induction passes generalizing urecAdd prevXid hdr body above rest v with
  | zero => omega
  | succ passes ih =>
    have hlinks := h.version_links off
    rw [hvs] at hlinks
    obtain ⟨w, rest', rfl, hsaved, hfits⟩ := hlinks.at.saved hop hdr
    have hw : w ∈ s.versions off := by rw [hvs]; simp
    obtain ⟨-, -, hslot0, h3, -⟩ := h.version_range off w hw
    have hfit := hfits body hbody
    have hfound : s.Visible snap.snapshotcsn w.writer →
        ReadOk (newestVisible s snap (w :: rest')) (.found (some
          ⟨headerFromUndo v.urec hdr, FrozenTransactionId, v.urec.data.oldBody body⟩)) := by
      intro hvis
      rw [newestVisible_of_visible rest' hvis]
      exact ReadOk.of_fits (t := ⟨_, _, _⟩) hfit
    simp only [getTupleFromUndo, hfetch]
    by_cases hstop : (headerFromUndo v.urec hdr).tdSlot = UHEAPTUP_SLOT_FROZEN ∨
        s.olderThanAllUndo v.urec.oldXactId = true
    · -- the old writer is below the horizon or its slot is frozen
      rw [if_pos hstop]
      refine hfound ?_
      rcases hstop with h0 | hold
      · rcases hsaved.slot with heq | hvis
        · exact absurd (heq ▸ h0) hslot0
        · exact hvis.2
      · exact h.saved_visible hvs hinv hsaved (by simpa [Store.olderThanAllUndo] using hold)
    rw [if_neg hstop]
    have hslot : (headerFromUndo v.urec hdr).tdSlot = w.slot := by
      rcases hsaved.slot with heq | hvis
      · exact heq
      · exact absurd (.inl hvis.1) hstop
    have habove' : ∀ u ∈ above ++ [v], u.op ≠ .new := by
      exact List.forall_mem_append.mpr ⟨habove, List.forall_mem_singleton.mpr hop⟩
    have hrange : ¬s.tdCount < (headerFromUndo v.urec hdr).tdSlot := by
      have hin : w ∈ incarnation (s.versions off) := by
        rw [hvs, append_cons]
        exact mem_incarnation _ habove'
      have := h.version_slot off hused w hin
      omega
    rw [if_neg hrange]
    by_cases hfrozen : v.urec.oldXactId = FrozenTransactionId
    · rw [if_pos hfrozen]
      refine hfound ?_
      rcases hsaved.xid with heq | hvis
      · rw [hfrozen] at heq
        unfold FirstNormalTransactionId FrozenTransactionId at *
        omega
      · exact hvis.1
    rw [if_neg hfrozen]
    have hxid : v.urec.oldXactId = w.writer := by
      rcases hsaved.xid with heq | ⟨-, hfr | ⟨-, h0⟩⟩
      · exact heq
      · exact absurd hfr hfrozen
      · exact absurd (.inl h0) hstop
    unfold selectVersionMVCC
    rw [hxid, hsaved.op]
    by_cases hvis : s.Visible snap.snapshotcsn w.writer
    · rw [if_pos ((xidVisible_iff _).mpr hvis), if_neg hsaved.live]
      exact hfound hvis
    rw [if_neg (fun hx => hvis ((xidVisible_iff _).mp hx)), newestVisible_of_invisible rest' hvis]
    rw [append_cons] at hlinks
    by_cases hnew : w.op = .new
    · -- an invisible insertion: nothing is visible below it
      rw [if_pos hnew]
      have hvs' : s.versions off = (above ++ [v] ++ [w]) ++ rest' := by
        rw [hvs]; simp
      exact h.readOk_freed _ hvs' (hlinks.at.new hnew)
    · rw [if_neg hnew, hslot]
      have hvs' : s.versions off = (above ++ [v]) ++ w :: rest' := by
        rw [hvs, append_cons]
      refine ih _ hvs' habove' hvis (by simpa using hpass) hnew (fun _ => hfit) ?_
      refine h.fetch_next hvs hvis ?_
      rw [Store.tdSlotInfo_of_ne hslot0]

/-! ## Who wrote the row -/

/-- `FetchTransInfoFromUndo` for the row's slot: the last writer, or frozen if
the last writer is visible. -/
theorem Inv.fetchTransInfoFromUndo_spec (h : Inv n s) (hvs : s.versions off = v :: rest)
    (needByPass : Bool) (info : TransInfo) (hurp : info.urecAdd = (s.tds v.slot).undoRecordPtr) :
    fetchTransInfoFromUndo s off info needByPass =
      (.complete v.urec, { info with xid := v.writer }) ∨
    s.Visible n v.writer ∧ (fetchTransInfoFromUndo s off info needByPass).2 = .frozen ∧
      (∀ urec, (fetchTransInfoFromUndo s off info needByPass).1 ≠ .complete urec) ∧
      (needByPass = false → s.rows off ≠ .unused → 0 < s.globalRecycleXid) := by
  unfold fetchTransInfoFromUndo
  rw [hurp, fetchUndoRecord_slot h.slots]
  cases hres : walk s off InvalidTransactionId needByPass (s.tdChain v.slot) with
  | complete urec =>
    -- the first record of the row through its slot is the newest version's
    left
    obtain ⟨urp, es, hfil⟩ := filter_of_walk_complete hres
    have hpre := h.chain_versions v.slot off
    rw [hfil, hvs, filter_cons_of_pos (by simp), map_cons, cons_prefix_cons] at hpre
    have hrec : urec = v.urec := congrArg Prod.snd hpre.1
    rw [hrec]
    rfl
  | done | endchain | stop =>
    right
    have hvis : s.Visible n v.writer := by
      by_contra hinv
      rw [h.walk_first hvs hinv needByPass] at hres
      cases hres
    refine ⟨hvis, rfl, nofun, fun hb hused => ?_⟩
    subst hb
    by_contra hzero
    rw [h.walk_unrecycled hused hvs (by omega)] at hres
    cases hres

/-- What a lookup of the last writer found: that writer, or frozen if it is
visible. -/
def InfoOk (n : Nat) (s : Store) (v : Version) (info : TransInfo) : Prop :=
  info.tdSlot = UHEAPTUP_SLOT_FROZEN ∧ s.Visible n v.writer ∨
  info = ⟨v.slot, v.writer, (s.tds v.slot).undoRecordPtr⟩

theorem modifiedXid_eq {tds : Nat → TD} {t : UHeapTuple} (ht : TupleOk vis tds t v)
    (hne : t.modifiedXid ≠ InvalidTransactionId) : t.modifiedXid = v.writer := by
  unfold UHeapTuple.modifiedXid at hne ⊢
  split at hne
  · rename_i h3
    rw [if_pos h3]
    exact ht.xid h3
  · exact absurd rfl hne

/-- The slot's transaction below a horizon makes the row's version visible. -/
theorem Inv.visible_of_old_slot (h : Inv n s) (hv : v ∈ s.versions off)
    (hne : (s.tds v.slot).xactid ≠ InvalidTransactionId)
    (hold : (s.tds v.slot).xactid < s.globalRecycleXid ∨ (s.tds v.slot).xactid < s.globalFrozenXid) :
    s.Visible n v.writer := by
  have hc := h.slots.slot_old v.slot hne hold
  have hvis := h.visible_of_old (h.slots.slot_range v.slot hne).1 hc (by omega)
  exact h.visible_of_slot hv hne hvis.seen (fun heq => heq ▸ hc)

theorem Inv.fetchTransInfo_spec (h : Inv snap.snapshotcsn s) (hvs : s.versions off = v :: rest)
    {tupXid : Nat} (hstamp : StampedFrom (s.Visible snap.snapshotcsn) s.tds tdSlot invalidXact v)
    (htup : tupXid ≠ InvalidTransactionId → tupXid = v.writer) :
    InfoOk snap.snapshotcsn s v (fetchTransInfo s snap off tdSlot invalidXact tupXid).1 := by
  have hv := mem_of_cons hvs
  obtain ⟨-, -, hslot0, h3, -⟩ := h.version_range off v hv
  rcases hstamp.slot with rfl | ⟨rfl, hvis⟩
  · unfold fetchTransInfo
    simp only [Store.tdSlotInfo_of_ne hslot0, UHEAPTUP_SLOT_FROZEN, if_neg hslot0]
    by_cases hold : (s.tds v.slot).xactid ≠ InvalidTransactionId ∧
        s.olderThanFrozenXid (s.tds v.slot).xactid = true
    · rw [if_pos hold]
      exact .inl ⟨rfl, h.visible_of_old_slot hv hold.1
        (.inr (by simpa [Store.olderThanFrozenXid] using hold.2))⟩
    rw [if_neg hold]
    cases invalidXact with
    | false =>
      right
      rw [if_neg (by simp), hstamp.xid hslot0 rfl]
    | true =>
      rw [if_pos rfl]
      by_cases hseen : (s.tds v.slot).xactid ≠ InvalidTransactionId ∧
          s.uheapXidVisible snap (s.tds v.slot).xactid = true
      · -- the slot's present transaction is visible, so the one before it is
        rw [if_pos hseen]
        refine .inl ⟨rfl, ?_⟩
        obtain ⟨hne, hx⟩ := hseen
        unfold Store.uheapXidVisible at hx
        split at hx
        · rename_i hrec
          exact h.visible_of_old_slot hv hne (.inl (by simpa [Store.olderThanAllUndo] using hrec))
        · have hvis := (xidVisible_iff _).mp hx
          exact h.visible_of_slot hv hne hvis.seen (fun heq => heq ▸ hvis.committed)
      rw [if_neg hseen]
      by_cases htc : tupXid ≠ InvalidTransactionId ∧ s.didCommit tupXid = true
      · rw [if_pos htc]
        have heq := htup htc.1
        by_cases hfr : s.olderThanFrozenXid tupXid = true
        · rw [if_pos hfr]
          refine .inl ⟨rfl, h.visible_of_old h3 ?_ (.inr (.inl ?_))⟩
          · exact heq ▸ (didCommit_iff _).mp htc.2
          · rw [← heq]
            simpa [Store.olderThanFrozenXid] using hfr
        · rw [if_neg hfr, heq]
          exact .inr rfl
      rw [if_neg htc]
      rcases h.fetchTransInfoFromUndo_spec hvs true
        ⟨v.slot, (s.tds v.slot).xactid, (s.tds v.slot).undoRecordPtr⟩ rfl with
        heq | ⟨hvis, hfr, hnc, -⟩
      · rw [heq]
        simp only
        by_cases hrec : s.olderThanAllUndo v.writer = true
        · rw [if_pos hrec]
          refine .inl ⟨rfl, ?_⟩
          have hlt : v.writer < s.globalRecycleXid := by
            simpa [Store.olderThanAllUndo] using hrec
          by_contra hinv
          exact hinv (h.entry_visible (h.entry_mem hv hinv) (.inl hlt))
        · rw [if_neg hrec]
          exact .inr rfl
      · refine .inl ⟨?_, hvis⟩
        revert hfr hnc
        generalize fetchTransInfoFromUndo s off _ true = res
        obtain ⟨rc, info⟩ := res
        intro hfr hnc
        cases rc with
        | complete urec => exact absurd rfl (hnc urec)
        | done | endchain | stop => rfl
  · left
    unfold fetchTransInfo
    simp [Store.tdSlotInfo, TransInfo.frozen, UHEAPTUP_SLOT_FROZEN, hvis]

/-! ## `UHeapTupleFetch` -/

theorem length_le_of_decreasing {l : List Nat} {bound : Nat} (hl : l.Pairwise (fun a b => b < a))
    (hb : ∀ a ∈ l, a ≤ bound) : l.length ≤ bound + 1 := by
  have hnodup : l.Nodup := hl.imp (fun hlt => (Nat.ne_of_lt hlt).symm)
  have hsub : l.toFinset ⊆ Finset.range (bound + 1) := by
    intro a ha
    rw [List.mem_toFinset] at ha
    rw [Finset.mem_range]
    have := hb a ha
    omega
  have hcard := Finset.card_le_card hsub
  rwa [List.toFinset_card_of_nodup hnodup, Finset.card_range] at hcard

theorem Inv.length_versions (h : Inv n s) (off : Nat) :
    (s.versions off).length ≤ s.log.length + 1 := by
  have hdec : ((s.versions off).map urp).Pairwise (fun a b => b < a) := by
    rw [List.pairwise_map]
    exact (h.version_order off).imp (fun hab => hab.1)
  have hb : ∀ a ∈ (s.versions off).map urp, a ≤ s.log.length := by
    intro a ha
    obtain ⟨v, hv, rfl⟩ := List.mem_map.mp ha
    exact (h.version_range off v hv).2.1
  simpa using length_le_of_decreasing hdec hb

theorem Inv.not_fetchPanics (h : Inv n s) (hused : s.rows off ≠ .unused)
    (hvs : s.versions off = v :: rest)
    (hstamp : StampedFrom (s.Visible n) s.tds tdSlot invalidXact v) :
    ¬fetchPanics s tdSlot invalidXact := by
  have hv := mem_of_cons hvs
  obtain ⟨-, -, hslot0, h3, -⟩ := h.version_range off v hv
  unfold FirstNormalTransactionId at h3
  rcases hstamp.slot with rfl | ⟨rfl, -⟩
  · rintro (hrange | ⟨hxid, -, hvalid⟩)
    · have hin : v ∈ incarnation (s.versions off) := by
        rw [hvs]
        exact mem_incarnation [] (by simp)
      have := h.version_slot off hused v hin
      omega
    · rw [Store.tdSlotInfo_of_ne hslot0] at hxid
      have heq := hstamp.xid hslot0 hvalid
      simp only [InvalidTransactionId] at hxid
      omega
  · rintro (hrange | ⟨-, hurp, -⟩)
    · exact nomatch hrange
    · exact hurp rfl

/-- The part of `UHeapTupleFetch` behind the reading of the row pointer. -/
theorem Inv.fetchVersion_spec (h : Inv snap.snapshotcsn s) (hused : s.rows off ≠ .unused)
    (hvs : s.versions off = v :: rest)
    (hstamp : StampedFrom (s.Visible snap.snapshotcsn) s.tds tdSlot invalidXact v)
    {tuple : Option UHeapTuple}
    (htuple : ∀ t ∈ tuple, TupleOk (s.Visible snap.snapshotcsn) s.tds t v)
    (hnone : tuple = none → v.op = .gone) :
    ReadOk (newestVisible s snap (s.versions off))
      (fetchVersion s snap off tdSlot invalidXact tuple).1 := by
  set visible := s.Visible snap.snapshotcsn
  have hlinks := h.version_links off
  have hlen := h.length_versions off
  rw [hvs] at hlinks hlen ⊢
  have hlink := hlinks.1
  have hop : (tuple.map (fun t => t.hdr.tidOp)).getD .gone = v.op := by
    cases tuple with
    | none => exact (hnone rfl).symm
    | some t => exact (htuple t rfl).op
  have htup : (tuple.map UHeapTuple.modifiedXid).getD InvalidTransactionId ≠
      InvalidTransactionId →
      (tuple.map UHeapTuple.modifiedXid).getD InvalidTransactionId = v.writer := by
    cases tuple with
    | none => exact fun hne => absurd rfl hne
    | some t => exact modifiedXid_eq (htuple t rfl)
  have hinfo := h.fetchTransInfo_spec hvs hstamp htup
  -- the row itself, where its version is the one to be returned
  have hcurrent : visible v.writer → v.op ≠ .gone →
      ReadOk (newestVisible s snap (v :: rest)) (.found tuple) := by
    intro hvis hlive
    rw [newestVisible_of_visible rest hvis]
    cases tuple with
    | none => exact absurd (hnone rfl) hlive
    | some t => exact ReadOk.of_fits ((htuple t rfl).body hlive)
  have hgone : visible v.writer → v.op = .gone →
      ReadOk (newestVisible s snap (v :: rest)) (.found none) := by
    intro hvis hg
    rw [newestVisible_of_visible rest hvis]
    exact ReadOk.of_gone (hlink.gone hg)
  unfold fetchVersion
  rw [if_neg (h.not_fetchPanics hused hvs hstamp)]
  simp only [hop]
  generalize fetchTransInfo s snap off tdSlot invalidXact
    ((tuple.map UHeapTuple.modifiedXid).getD InvalidTransactionId) = res at hinfo ⊢
  obtain ⟨info, isFrozen⟩ := res
  unfold tupleSatisfies
  rcases hinfo with ⟨hzero, hvis⟩ | heq
  · rw [if_pos hzero]
    by_cases hg : v.op = .gone
    · rw [if_pos hg]
      exact hgone hvis hg
    · rw [if_neg hg]
      exact hcurrent hvis hg
  have hv := mem_of_cons hvs
  obtain ⟨-, -, hslot0, -, -⟩ := h.version_range off v hv
  simp only at heq
  subst heq
  change v.slot ≠ UHEAPTUP_SLOT_FROZEN at hslot0
  rw [if_neg hslot0, selectVersionMVCC]
  by_cases hvis : visible v.writer
  · rw [if_pos ((xidVisible_iff _).mpr hvis)]
    by_cases hg : v.op = .gone
    · rw [if_pos hg]
      exact hgone hvis hg
    · rw [if_neg hg]
      exact hcurrent hvis hg
  rw [if_neg (fun hx => hvis ((xidVisible_iff _).mp hx))]
  rw [newestVisible_of_invisible rest hvis]
  by_cases hnew : v.op = .new
  · rw [if_pos hnew]
    exact h.readOk_freed [v] hvs (hlink.new hnew)
  rw [if_neg hnew]
  refine h.getTupleFromUndo_spec hused [] hvs (by simp) hvis (by
    simp only [List.length_cons] at hlen
    omega) hnew ?_ ((fetchUndoRecord_slot h.slots ..).trans (h.walk_first hvs hvis false))
  intro hmod
  cases tuple with
  | none => rw [hnone rfl] at hmod; cases hmod
  | some t => exact (htuple t rfl).body (by rw [hmod]; simp)

/-- Under the invariant `UHeapTupleFetch` returns the newest version visible
to the snapshot. -/
theorem Inv.uheapTupleFetch_spec (h : Inv snap.snapshotcsn s) (off : Nat) :
    ReadOk (newestVisible s snap (s.versions off)) (uheapTupleFetch s snap off).1 := by
  have hrow := h.rows off
  unfold uheapTupleFetch
  cases hrp : s.rows off with
  | unused =>
    rw [hrp] at hrow
    exact h.readOk_freed [] rfl hrow
  | normal t =>
    rw [hrp] at hrow
    obtain ⟨v, rest, hvs, ht⟩ := hrow
    exact h.fetchVersion_spec (by rw [hrp]; simp) hvs ht.stamp
      (fun t' ht' => by rw [← Option.some.inj ht']; exact ht) (by simp)
  | deleted tdSlot invalidXact =>
    rw [hrp] at hrow
    obtain ⟨v, rest, hvs, hop, -, hstamp⟩ := hrow
    exact h.fetchVersion_spec (by rw [hrp]; simp) hvs hstamp (by simp) (fun _ => hop)

end OpenGauss.Visibility
