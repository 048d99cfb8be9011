import OpenGauss.Checkpoint.DirtyQueue

/-!
# Invariant of the dirty page queue

Every buffer of the queue is in one slot between head and tail, which its descriptor
names, and recovery positions never decrease towards the tail, the reserved slots
included. While the page writer moves buffers, every buffer up to the slot it fills next
is on its list.
-/

namespace OpenGauss.Checkpoint

open Lib

/-- The position carries a recovery position: that of its buffer, or of a push that has
reserved it. -/
def Queue.Carries (q : Queue) (loc lsn : Nat) : Prop :=
  (q.head ≤ loc ∧ loc < q.tail ∧ q.bufferAt loc ≠ 0 ∧ lsn = q.bufRecLsn (q.bufferAt loc)) ∨
    ∃ buffer, q.pushing buffer = .reserved loc lsn

/-- A push between reserving and filling its slot. -/
structure Reserved (q : Queue) (buffer loc lsn : Nat) : Prop where
  head_le : q.head ≤ loc
  lt_tail : loc < q.tail
  empty : q.bufferAt loc = 0
  unpublished : q.validAt loc = false
  unqueued : q.bufQueueLoc buffer = none
  buffer_ne : buffer ≠ 0
  lsn_pos : 0 < lsn
  lsn_le : lsn ≤ q.recLsn

/-- A push between filling and publishing its slot. -/
structure Filled (q : Queue) (buffer loc : Nat) : Prop where
  head_le : q.head ≤ loc
  lt_tail : loc < q.tail
  full : q.bufferAt loc = buffer
  buffer_ne : buffer ≠ 0
  unpublished : q.validAt loc = false

structure Base (q : Queue) : Prop where
  head_le : q.head ≤ q.tail
  room : q.tail + 2 ≤ q.head + q.size
  recLsn_pos : 0 < q.recLsn
  beyond_empty : ∀ p, q.tail ≤ p → p < q.head + q.size → q.bufferAt p = 0
  beyond_valid : ∀ p, q.tail ≤ p → p < q.head + q.size → q.validAt p = true →
    q.writer = .clearing (q.head - 1) ∧ p + 1 = q.head + q.size
  clearing : ∀ loc, q.writer = .clearing loc → loc + 1 = q.head
  names : ∀ p, q.head ≤ p → p < q.tail → q.bufferAt p ≠ 0 →
    q.bufQueueLoc (q.bufferAt p) = some (p % q.size)
  held : ∀ b s, q.bufQueueLoc b = some s →
    b ≠ 0 ∧ ∃ p, q.head ≤ p ∧ p < q.tail ∧ s = p % q.size ∧ q.bufferAt p = b
  clean : ∀ b, q.bufRecLsn b = 0 ↔ q.bufQueueLoc b = none
  reserved : ∀ b loc lsn, q.pushing b = .reserved loc lsn → Reserved q b loc lsn
  reserved_inj : ∀ b b' loc lsn lsn', q.pushing b = .reserved loc lsn →
    q.pushing b' = .reserved loc lsn' → b = b'
  filled : ∀ b loc, q.pushing b = .filled loc → Filled q b loc
  lsn_le : ∀ b, q.bufRecLsn b ≤ q.recLsn
  mono : ∀ p l p' l', q.Carries p l → q.Carries p' l' → p < p' → l ≤ l'

/-- The slots before `stop` are published, and the buffers in them are on the list, the
last one first. -/
structure Scanned (q : Queue) (valid : List Nat) (stop : Nat) : Prop where
  published : ∀ p, q.head ≤ p → p < stop → q.validAt p = true
  listed : ∀ p, q.head ≤ p → p < stop → q.bufferAt p ≠ 0 → p ∈ valid
  inside : ∀ p ∈ valid, q.head ≤ p ∧ p < q.tail
  sorted : valid.Pairwise (· > ·)

/-- The slot the next buffer moves to is empty and in the queue. -/
structure MoveOk (q : Queue) (valid : List Nat) (last : Nat) : Prop where
  scanned : Scanned q valid (last + 1)
  head_le : q.head ≤ last
  lt_tail : last < q.tail
  empty : q.bufferAt last = 0

structure ScanOk (q : Queue) (next stop : Nat) (valid : List Nat) (invalidNum last : Nat) :
    Prop where
  scanned : Scanned q valid next
  head_le : q.head ≤ next
  next_le : next ≤ stop
  stop_le : stop ≤ q.tail
  below : ∀ p ∈ valid, p < next
  last_ok : invalidNum ≠ 0 → q.head ≤ last ∧ last < next ∧ q.bufferAt last = 0

structure WriterOk (q : Queue) : Prop where
  scanning : ∀ next stop valid invalidNum last,
    q.writer = .scanning next stop valid invalidNum last → ScanOk q next stop valid invalidNum last
  readLoc : ∀ valid last, q.writer = .readLoc valid last → MoveOk q valid last
  writeLoc : ∀ valid last, q.writer = .writeLoc valid last → MoveOk q valid last
  moving : ∀ valid last, q.writer = .moving valid last → MoveOk q valid last

structure QueueInv (q : Queue) : Prop where
  base : Base q
  writer : WriterOk q

/-! ## Reading the invariant -/

section Reading

variable {q : Queue}

theorem Base.position_unique (hb : Base q) {p p' : Nat} (h1 : q.head ≤ p) (h2 : p < q.tail)
    (h1' : q.head ≤ p') (h2' : p' < q.tail) (hne : q.bufferAt p ≠ 0)
    (heq : q.bufferAt p = q.bufferAt p') : p = p' := by
  have hroom := hb.room
  have hn := hb.names p h1 h2 hne
  have hn' := hb.names p' h1' h2' (heq ▸ hne)
  rw [← heq, hn, Option.some.injEq] at hn'
  exact ring_inj h1 (by omega) h1' (by omega) hn'

theorem Base.lt_tail_of_ne (hb : Base q) {p : Nat} (h2 : p < q.head + q.size)
    (hne : q.bufferAt p ≠ 0) : p < q.tail := by
  by_contra hlt
  exact hne (hb.beyond_empty p (Nat.not_lt.mp hlt) h2)

theorem Base.left_empty (hb : Base q) {loc : Nat} (htail : q.tail ≤ loc + q.size)
    (hlt : loc < q.head) : q.bufferAt loc = 0 := by
  have hempty := hb.beyond_empty (loc + q.size) htail (by omega)
  unfold Queue.bufferAt at hempty ⊢
  rwa [Nat.add_mod_right] at hempty

theorem Base.head_le_of_ne (hb : Base q) {loc : Nat} (htail : q.tail ≤ loc + q.size)
    (hn : q.bufferAt loc ≠ 0) : q.head ≤ loc := by
  by_contra hlt
  exact hn (hb.left_empty htail (Nat.not_le.mp hlt))

theorem Base.recLsn_ne (hb : Base q) {p : Nat} (h1 : q.head ≤ p) (h2 : p < q.tail)
    (hne : q.bufferAt p ≠ 0) : q.bufRecLsn (q.bufferAt p) ≠ 0 := by
  intro hzero
  have hnone := (hb.clean _).mp hzero
  rw [hb.names p h1 h2 hne] at hnone
  cases hnone

theorem Queue.Carries.lt_tail (hb : Base q) {p l : Nat} (h : q.Carries p l) :
    q.head ≤ p ∧ p < q.tail := by
  rcases h with ⟨h1, h2, -⟩ | ⟨b, hb'⟩
  · exact ⟨h1, h2⟩
  · exact ⟨(hb.reserved b p l hb').head_le, (hb.reserved b p l hb').lt_tail⟩

theorem Queue.Carries.le_recLsn (hb : Base q) {p l : Nat} (h : q.Carries p l) : l ≤ q.recLsn := by
  rcases h with ⟨-, -, -, rfl⟩ | ⟨b, hb'⟩
  · exact hb.lsn_le _
  · exact (hb.reserved b p l hb').lsn_le

/-- What the page writer has found stays right as long as published slots stay so and get no
buffers. -/
theorem WriterOk.frame {q' : Queue} (h : WriterOk q) (hw : q'.writer = q.writer)
    (hhead : q'.head = q.head) (htail : q.tail ≤ q'.tail)
    (hslots : ∀ p, q.head ≤ p → p < q.tail → q.validAt p = true →
      q'.validAt p = true ∧ (q'.bufferAt p ≠ 0 → q.bufferAt p ≠ 0)) : WriterOk q' := by
  have hscan : ∀ {valid stop}, stop ≤ q.tail → Scanned q valid stop → Scanned q' valid stop := by
    intro valid stop hstop hs
    refine ⟨fun p h1 h2 => ?_, fun p h1 h2 hne => ?_, fun p hp => ?_, hs.sorted⟩
    · rw [hhead] at h1
      exact (hslots p h1 (by omega) (hs.published p h1 h2)).1
    · rw [hhead] at h1
      exact hs.listed p h1 h2 ((hslots p h1 (by omega) (hs.published p h1 h2)).2 hne)
    · have hin := hs.inside p hp
      rw [hhead]
      omega
  have hempty : ∀ {last}, q.head ≤ last → last < q.tail → q.validAt last = true →
      q.bufferAt last = 0 → q'.bufferAt last = 0 := by
    intro last h1 h2 hv he
    by_contra hne
    exact (hslots last h1 h2 hv).2 hne he
  have hmove : ∀ {valid last}, MoveOk q valid last → MoveOk q' valid last := by
    intro valid last hm
    have hv := hm.scanned.published last hm.head_le (Nat.lt_succ_self _)
    refine ⟨hscan hm.lt_tail hm.scanned, hhead ▸ hm.head_le, Nat.lt_of_lt_of_le hm.lt_tail htail,
      hempty hm.head_le hm.lt_tail hv hm.empty⟩
  refine ⟨fun next stop valid n last hq => ?_, fun valid last hq => hmove (h.readLoc _ _ (hw ▸ hq)),
    fun valid last hq => hmove (h.writeLoc _ _ (hw ▸ hq)),
    fun valid last hq => hmove (h.moving _ _ (hw ▸ hq))⟩
  have hs := h.scanning next stop valid n last (hw ▸ hq)
  refine ⟨hscan (Nat.le_trans hs.next_le hs.stop_le) hs.scanned, hhead ▸ hs.head_le, hs.next_le,
    Nat.le_trans hs.stop_le htail, hs.below, fun hn => ?_⟩
  obtain ⟨h1, h2, he⟩ := hs.last_ok hn
  have hlt : last < q.tail := by
    have h3 := hs.next_le
    have h4 := hs.stop_le
    omega
  exact ⟨hhead ▸ h1, h2, hempty h1 hlt (hs.scanned.published last h1 h2) he⟩

end Reading

end OpenGauss.Checkpoint
