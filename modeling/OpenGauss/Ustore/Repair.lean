import OpenGauss.Lib.Slide
import OpenGauss.Ustore.Prune

/-!
# Repairing a page's fragmentation

`UPageRepairFragmentation` on a well-formed page: it raises no error if the
rows, the target with the space asked for, fit behind the row pointers; each
row is moved with all its bytes, and what the target asked for lies behind it.

* `UPage.WellFormed`: the pages the engine builds
* `collectItems_eq`, `foldl_compactItem`: the two loops in closed form
* `upageRepairFragmentation_spec`: what the repaired page looks like
-/

namespace OpenGauss.Ustore

open Lib
open Function (update update_of_ne update_self)
open Block (placed slide total key)
open List (foldl_cons map_map)

variable {off : Nat}

/-! ## Well-formed pages -/

def RowPtr.hasRow (rp : RowPtr) : Bool := rp.isUsed ∧ rp.hasStorage

/-- A page as inserts, updates, deletes and earlier prunes leave it: rows
start at even offsets, do not overlap and lie between `pd_upper` and
`pd_special`; pointers of pruned rows have no storage and name a slot. -/
structure UPage.WellFormed (p : UPage) : Prop where
  lower_ge : p.rowPtrOffset ≤ p.pdLower
  lower_mod : (p.pdLower - p.rowPtrOffset) % sizeofRowPtr = 0
  lower_le : p.pdLower ≤ p.pdUpper
  upper_le : p.pdUpper ≤ p.pdSpecial
  special_le : p.pdSpecial ≤ BLCKSZ
  special_aligned : p.pdSpecial = maxAlign p.pdSpecial
  count_le : p.maxOffsetNumber ≤ MaxPossibleUHeapTuplesPerPage
  deleted_len : ∀ off ∈ p.offsetNumbers, (p.rowPtr off).isDeleted → (p.rowPtr off).len = 0
  deleted_slot : ∀ off ∈ p.offsetNumbers, (p.rowPtr off).isDeleted →
    0 < (p.rowPtr off).tdSlot ∧ (p.rowPtr off).tdSlot ≤ p.tdCount
  normal_len : ∀ off ∈ p.offsetNumbers, (p.rowPtr off).isNormal →
    SizeOfUHeapDiskTupleData ≤ (p.rowPtr off).len ∧ (p.rowPtr off).len ≤ MaxPossibleUHeapTupleSize
  normal_slot : ∀ off ∈ p.offsetNumbers, (p.rowPtr off).isNormal →
    (rowTdId (p.rowData (p.rowPtr off))).toNat ≤ p.tdCount
  even : ∀ off ∈ p.offsetNumbers, (p.rowPtr off).hasRow → 2 ∣ (p.rowPtr off).offset
  inside : ∀ off ∈ p.offsetNumbers, (p.rowPtr off).hasRow →
    p.pdUpper ≤ (p.rowPtr off).offset ∧ (p.rowPtr off).offset + (p.rowPtr off).len ≤ p.pdSpecial
  disjoint : ∀ off ∈ p.offsetNumbers, ∀ off' ∈ p.offsetNumbers, off ≠ off' →
    (p.rowPtr off).hasRow → (p.rowPtr off').hasRow →
      (p.rowPtr off).offset + (p.rowPtr off).len ≤ (p.rowPtr off').offset ∨
        (p.rowPtr off').offset + (p.rowPtr off').len ≤ (p.rowPtr off).offset

theorem two_dvd_shortAlign (n : Nat) : 2 ∣ shortAlign n := Dvd.intro_left _ rfl

theorem le_shortAlign (n : Nat) : n ≤ shortAlign n := by
  unfold shortAlign
  omega

theorem shortAlign_le_of_even {n k : Nat} (h : n ≤ k) (hk : 2 ∣ k) : shortAlign n ≤ k := by
  unfold shortAlign
  omega

theorem shortAlign_mono {n k : Nat} (h : n ≤ k) : shortAlign n ≤ shortAlign k := by
  unfold shortAlign
  omega

theorem UPage.mem_offsetNumbers {p : UPage} :
    off ∈ p.offsetNumbers ↔ 1 ≤ off ∧ off ≤ p.maxOffsetNumber := by
  rw [offsetNumbers, List.mem_range'_1]
  omega

theorem UPage.nodup_offsetNumbers (p : UPage) : p.offsetNumbers.Nodup := List.nodup_range'

namespace UPage.WellFormed

variable {p : UPage}

theorem special_even (h : p.WellFormed) : 2 ∣ p.pdSpecial := by
  have := h.special_aligned
  unfold maxAlign at this
  omega

theorem lower_even (h : p.WellFormed) : 2 ∣ p.pdLower := by
  have := h.lower_ge
  have := h.lower_mod
  simp only [rowPtrOffset, SizeOfUHeapPageHeaderData, sizeofTD, sizeofRowPtr] at *
  omega

theorem normal_hasRow (h : p.WellFormed) (hoff : off ∈ p.offsetNumbers)
    (hn : (p.rowPtr off).isNormal) : (p.rowPtr off).hasRow := by
  have hlen := (h.normal_len off hoff hn).1
  simp only [SizeOfUHeapDiskTupleData] at hlen
  simp only [RowPtr.isNormal, decide_eq_true_eq] at hn
  simp only [RowPtr.hasRow, RowPtr.isUsed, RowPtr.hasStorage, hn]
  simp
  omega

/-- With its alignment a row stays below `pd_special`. -/
theorem aligned_le (h : p.WellFormed) (hoff : off ∈ p.offsetNumbers) (hrow : (p.rowPtr off).hasRow) :
    (p.rowPtr off).offset + shortAlign (p.rowPtr off).len ≤ p.pdSpecial := by
  have := h.inside off hoff hrow
  have := h.even off hoff hrow
  have := h.special_even
  unfold shortAlign
  omega

/-- Rows start at even offsets, so they stay apart with their alignment. -/
theorem aligned_disjoint (h : p.WellFormed) {off' : Nat} (hoff : off ∈ p.offsetNumbers)
    (hoff' : off' ∈ p.offsetNumbers) (hne : off ≠ off') (hrow : (p.rowPtr off).hasRow)
    (hrow' : (p.rowPtr off').hasRow) (hle : (p.rowPtr off').offset ≤ (p.rowPtr off).offset) :
    (p.rowPtr off').offset + shortAlign (p.rowPtr off').len ≤ (p.rowPtr off).offset := by
  have hlen : 0 < (p.rowPtr off).len := by
    simp only [RowPtr.hasRow, RowPtr.hasStorage, decide_eq_true_eq, Bool.decide_and,
      Bool.and_eq_true] at hrow
    exact hrow.2
  have := h.disjoint off hoff off' hoff' hne hrow hrow'
  have := h.even off hoff hrow
  have := h.even off' hoff' hrow'
  unfold shortAlign
  omega

end UPage.WellFormed

/-! ## The two loops in closed form -/

/-- The bytes the row at `off` is to get: the target's row with the space
asked for, any other row as it is. -/
def rowExtent (target spaceRequired : Nat) (p : UPage) (off : Nat) : Nat :=
  if off = target then (p.rowPtr off).len + spaceRequired else (p.rowPtr off).len

def repairItem (target spaceRequired : Nat) (p : UPage) (off : Nat) : ItemIdSort :=
  ⟨off - 1, (p.rowPtr off).offset, shortAlign (rowExtent target spaceRequired p off)⟩

def repairItems (target spaceRequired : Nat) (p : UPage) (offs : List Nat) : List ItemIdSort :=
  (offs.filter fun off => (p.rowPtr off).hasRow).map (repairItem target spaceRequired p)

theorem collectItems_eq {target spaceRequired : Nat} {p : UPage} {offs : List Nat}
    (h : ∀ off ∈ offs, (p.rowPtr off).hasRow →
      p.pdUpper ≤ (p.rowPtr off).offset ∧ (p.rowPtr off).offset < p.pdSpecial) :
    collectItems target spaceRequired p offs = .ok (repairItems target spaceRequired p offs) := by
  induction offs with
  | nil => rfl
  | cons i is ih =>
    have hrest := ih fun off hoff => h off (.tail _ hoff)
    by_cases hrow : (p.rowPtr i).hasRow
    · have hin := h i (.head _) hrow
      have hcond : (p.rowPtr i).isUsed ∧ (p.rowPtr i).hasStorage := by
        simpa [RowPtr.hasRow] using hrow
      simp only [collectItems, repairItems]
      rw [if_pos hcond, if_neg (by omega), hrest, List.filter_cons_of_pos (by simpa using hrow),
        List.map_cons]
      rfl
    · have hcond : ¬ ((p.rowPtr i).isUsed ∧ (p.rowPtr i).hasStorage) := by
        simpa [RowPtr.hasRow] using hrow
      simp only [collectItems, repairItems]
      rw [if_neg hcond, hrest, List.filter_cons_of_neg (by simpa using hrow)]
      rfl

/-- The row pointers `offs` after the unused ones were written back empty. -/
def clearedPtr (p : UPage) (offs : List Nat) (off : Nat) : RowPtr :=
  if off ∈ offs ∧ ¬ (p.rowPtr off).isUsed then .setUnused else p.rowPtr off

theorem clearUnused_eq (p : UPage) :
    clearUnused p = { p with rowPtr := clearedPtr p p.offsetNumbers } := by
  have hfold : ∀ (offs : List Nat) (q : UPage),
      offs.foldl (fun p i => if (p.rowPtr i).isUsed then p else p.setRowPtr i .setUnused) q =
        { q with rowPtr := clearedPtr q offs } := by
    intro offs
    induction offs with
    | nil =>
      intro q
      have hnone : clearedPtr q [] = q.rowPtr := by
        funext off
        simp [clearedPtr]
      rw [hnone]
      rfl
    | cons i is ih =>
      intro q
      rw [foldl_cons, ih]
      by_cases hi : (q.rowPtr i).isUsed
      · rw [if_pos hi]
        congr 1
        funext off
        by_cases hoff : off = i
        · simp [clearedPtr, hoff, hi]
        · simp [clearedPtr, hoff]
      · rw [if_neg hi]
        congr 1
        funext off
        by_cases hoff : off = i
        · simp [clearedPtr, UPage.setRowPtr, hoff, hi]
        · simp [clearedPtr, UPage.setRowPtr, hoff]
  exact hfold p.offsetNumbers p

/-- The item as a block of bytes to be moved, named by its offset number. -/
def ItemIdSort.block (item : ItemIdSort) : Block Nat :=
  ⟨item.offsetindex + 1, item.itemoff, item.alignedlen⟩

/-- The blocks that are slid up: all but the target's. -/
def slidBlocks (target : Nat) (items : List ItemIdSort) : List (Block Nat) :=
  (items.filter fun item => target ≠ item.offsetindex + 1).map ItemIdSort.block

/-- Row pointers after the blocks went to their new places. -/
def placeRows (rowPtr : Nat → RowPtr) (xs : List (Block Nat × Nat)) : Nat → RowPtr :=
  xs.foldl (fun f x => update f x.1.key { f x.1.key with offset := x.2 % 2 ^ 15 }) rowPtr

def targetLen (target : Nat) (items : List ItemIdSort) (len : Nat) : Nat :=
  items.foldl
    (fun n item => if target = item.offsetindex + 1 then item.alignedlen % 2 ^ 16 else n) len

theorem foldl_compactItem (target : Nat) (items : List ItemIdSort) (s : CompactState) :
    items.foldl (compactItem target) s =
      { page := { s.page with
          rowPtr := placeRows s.page.rowPtr (placed s.curr (slidBlocks target items))
          data := slide s.page.data s.curr (slidBlocks target items) }
        curr := s.curr - total (slidBlocks target items)
        newTupleLen := targetLen target items s.newTupleLen } := by
  induction items generalizing s with
  | nil => simp [slidBlocks, placeRows, placed, slide, targetLen]
  | cons item items ih =>
    rw [foldl_cons, ih]
    by_cases ht : target = item.offsetindex + 1
    · have hb : slidBlocks target (item :: items) = slidBlocks target items := by
        simp [slidBlocks, ht]
      rw [hb]
      simp [compactItem, ht, targetLen]
    · have hb : slidBlocks target (item :: items) = item.block :: slidBlocks target items := by
        simp [slidBlocks, ht]
      rw [hb, placed, slide, Block.total_cons]
      simp [compactItem, ht, targetLen, placeRows, UPage.setRowPtr, ItemIdSort.block, Nat.sub_sub]

theorem placeRows_of_not_mem {rowPtr : Nat → RowPtr} {xs : List (Block Nat × Nat)}
    (h : ∀ x ∈ xs, x.1.key ≠ off) : placeRows rowPtr xs off = rowPtr off := by
  induction xs generalizing rowPtr with
  | nil => rfl
  | cons x xs ih =>
    rw [placeRows, foldl_cons]
    rw [← placeRows, ih fun y hy => h y (.tail _ hy)]
    exact update_of_ne (h x (.head _)).symm _ _

theorem placeRows_of_mem (rowPtr : Nat → RowPtr) {xs : List (Block Nat × Nat)}
    {x : Block Nat × Nat} (hnd : (xs.map fun y => y.1.key).Nodup) (h : x ∈ xs) :
    placeRows rowPtr xs x.1.key = { rowPtr x.1.key with offset := x.2 % 2 ^ 15 } := by
  induction xs generalizing rowPtr with
  | nil => cases h
  | cons y ys ih =>
    obtain ⟨hy, hys⟩ := List.nodup_cons.mp hnd
    rw [placeRows, foldl_cons, ← placeRows]
    rcases List.mem_cons.mp h with rfl | h
    · rw [placeRows_of_not_mem]
      · simp
      · intro z hz heq
        exact hy (List.mem_map.mpr ⟨z, hz, heq⟩)
    · rw [ih _ hys h, update_of_ne]
      intro heq
      exact hy (List.mem_map.mpr ⟨x, h, heq⟩)

theorem targetLen_of_mem {target len n : Nat} {items : List ItemIdSort}
    (hall : ∀ item ∈ items, target = item.offsetindex + 1 → item.alignedlen = len)
    (hlen : len < 2 ^ 16) (h : n = len ∨ ∃ item ∈ items, target = item.offsetindex + 1) :
    targetLen target items n = len := by
  induction items generalizing n with
  | nil =>
    rcases h with rfl | ⟨item, hitem, _⟩
    · rfl
    · cases hitem
  | cons item items ih =>
    rw [targetLen, foldl_cons, ← targetLen]
    apply ih fun i hi => hall i (.tail _ hi)
    by_cases ht : target = item.offsetindex + 1
    · rw [if_pos ht, hall item (.head _) ht, Nat.mod_eq_of_lt hlen]
      exact .inl rfl
    rw [if_neg ht]
    rcases h with h | ⟨i, hi, hti⟩
    · exact .inl h
    rcases List.mem_cons.mp hi with rfl | hi
    · exact absurd hti ht
    · exact .inr ⟨i, hi, hti⟩

/-! ## Where the rows go -/

section Compaction

variable {p : UPage} {target spaceRequired : Nat}

def UPage.rows (p : UPage) : List Nat := p.offsetNumbers.filter fun off => (p.rowPtr off).hasRow

/-- `totallen`: what all rows are to get, each aligned. -/
def repairTotal (target spaceRequired : Nat) (p : UPage) : Nat :=
  (p.rows.map fun off => shortAlign (rowExtent target spaceRequired p off)).sum

/-- The row at `off` as a block to be moved. -/
def rowBlock (target spaceRequired : Nat) (p : UPage) (off : Nat) : Block Nat :=
  ⟨off, (p.rowPtr off).offset, shortAlign (rowExtent target spaceRequired p off)⟩

/-- The items in the order in which they are moved. -/
def sortedItems (target spaceRequired : Nat) (p : UPage) : List ItemIdSort :=
  (repairItems target spaceRequired p p.offsetNumbers).insertionSort fun a b =>
    b.itemoff ≤ a.itemoff

abbrev rowBlocks (target spaceRequired : Nat) (p : UPage) : List (Block Nat) :=
  slidBlocks target (sortedItems target spaceRequired p)

theorem UPage.mem_rows :
    off ∈ p.rows ↔ off ∈ p.offsetNumbers ∧ (p.rowPtr off).hasRow := List.mem_filter

open UPage (mem_rows)

theorem UPage.nodup_rows (p : UPage) : p.rows.Nodup := p.nodup_offsetNumbers.filter _

theorem repairItem_offset (h : off ∈ p.offsetNumbers) :
    (repairItem target spaceRequired p off).offsetindex + 1 = off := by
  have := (UPage.mem_offsetNumbers.mp h).1
  simp only [repairItem]
  omega

theorem mem_sortedItems {item : ItemIdSort} : item ∈ sortedItems target spaceRequired p ↔
      ∃ off ∈ p.rows, repairItem target spaceRequired p off = item := by
  rw [sortedItems, List.mem_insertionSort, repairItems, List.mem_map]
  rfl

/-- The slid blocks are the rows other than the target, in some order. -/
theorem slidBlocks_perm : (rowBlocks target spaceRequired p).Perm
      ((p.rows.erase target).map (rowBlock target spaceRequired p)) := by
  have hperm : (sortedItems target spaceRequired p).Perm
      (p.rows.map (repairItem target spaceRequired p)) := List.perm_insertionSort _ _
  have hblocks := (hperm.filter fun item => target ≠ item.offsetindex + 1).map ItemIdSort.block
  refine hblocks.trans (List.Perm.of_eq ?_)
  rw [p.nodup_rows.erase_eq_filter, List.filter_map, map_map]
  have hpred : p.rows.filter ((fun item => decide (target ≠ item.offsetindex + 1)) ∘
      repairItem target spaceRequired p) = p.rows.filter fun off => off != target := by
    apply List.filter_congr
    intro off hoff
    simp only [Function.comp, repairItem_offset (mem_rows.mp hoff).1]
    by_cases hot : off = target
    · simp [hot]
    · simp [hot, Ne.symm hot]
  rw [hpred]
  apply List.map_congr_left
  intro off hoff
  have hmem := (mem_rows.mp (List.mem_of_mem_filter hoff)).1
  simp only [Function.comp, ItemIdSort.block, repairItem_offset hmem]
  rfl

theorem mem_slidBlocks {b : Block Nat} : b ∈ rowBlocks target spaceRequired p ↔
    ∃ off ∈ p.rows.erase target, rowBlock target spaceRequired p off = b := by
  rw [slidBlocks_perm.mem_iff, List.mem_map]

theorem mem_erase_rows : off ∈ p.rows.erase target ↔ off ≠ target ∧ off ∈ p.rows :=
  p.nodup_rows.mem_erase_iff

theorem total_slidBlocks : total (rowBlocks target spaceRequired p) =
      ((p.rows.erase target).map fun off =>
        shortAlign (rowExtent target spaceRequired p off)).sum := by
  rw [total, (slidBlocks_perm.map Block.len).sum_eq, map_map]
  rfl

/-- Slid rows and target together take up what was asked for. -/
theorem total_add_target (h : target ∈ p.rows) :
    total (rowBlocks target spaceRequired p) +
      shortAlign ((p.rowPtr target).len + spaceRequired) = repairTotal target spaceRequired p := by
  have hsplit := List.sum_map_erase (fun off => shortAlign (rowExtent target spaceRequired p off)) h
  rw [total_slidBlocks, repairTotal, ← hsplit, rowExtent, if_pos rfl, Nat.add_comm]

theorem total_of_not_mem (h : target ∉ p.rows) :
    total (rowBlocks target spaceRequired p) =
      repairTotal target spaceRequired p := by
  rw [total_slidBlocks, List.erase_of_not_mem h, repairTotal]

theorem nodup_slidKeys (target spaceRequired : Nat) (p : UPage) :
    ((rowBlocks target spaceRequired p).map key).Nodup := by
  have hkeys : ((p.rows.erase target).map (rowBlock target spaceRequired p)).map key =
      p.rows.erase target := by
    rw [map_map]
    exact List.map_id'' (fun _ => rfl) _
  rw [(slidBlocks_perm.map key).nodup_iff, hkeys]
  exact p.nodup_rows.erase _

/-- In the order of the loop each row ends before the one moved before it. -/
theorem stacked_slidBlocks (h : p.WellFormed) :
    Block.Stacked p.pdSpecial (rowBlocks target spaceRequired p) where
  below := by
    intro b hb
    obtain ⟨off, hoff, rfl⟩ := mem_slidBlocks.mp hb
    obtain ⟨hne, hoff⟩ := mem_erase_rows.mp hoff
    obtain ⟨hin, hrow⟩ := mem_rows.mp hoff
    have := h.aligned_le hin hrow
    simpa [rowBlock, rowExtent, hne] using this
  ordered := by
    have hsorted : (rowBlocks target spaceRequired p).Pairwise
        fun a b => b.start ≤ a.start := by
      have hitems : (sortedItems target spaceRequired p).Pairwise
          fun a b => b.itemoff ≤ a.itemoff := by
        have : Std.Total fun a b : ItemIdSort => b.itemoff ≤ a.itemoff :=
          ⟨fun a b => Nat.le_total b.itemoff a.itemoff⟩
        have : IsTrans ItemIdSort fun a b => b.itemoff ≤ a.itemoff :=
          ⟨fun a b c hab hbc => hbc.trans hab⟩
        exact List.pairwise_insertionSort _ _
      rw [rowBlocks, slidBlocks, List.pairwise_map]
      exact hitems.filter _
    have hdistinct := List.pairwise_map.mp (nodup_slidKeys target spaceRequired p)
    refine (hsorted.and hdistinct).imp_of_mem ?_
    rintro a b ha hb ⟨hle, hkey⟩
    obtain ⟨i, hi, rfl⟩ := mem_slidBlocks.mp ha
    obtain ⟨j, hj, rfl⟩ := mem_slidBlocks.mp hb
    obtain ⟨hit, hi⟩ := mem_erase_rows.mp hi
    obtain ⟨hjt, hj⟩ := mem_erase_rows.mp hj
    obtain ⟨hin, hirow⟩ := mem_rows.mp hi
    obtain ⟨hjn, hjrow⟩ := mem_rows.mp hj
    have := h.aligned_disjoint hin hjn hkey hirow hjrow hle
    simpa [rowBlock, rowExtent, hit, hjt] using this

/-! ## The repaired page -/

/-- What `UPageRepairFragmentation` makes of a page: the rows are where they
were in the row pointers' eyes, with all their bytes, each followed by the
space kept for it, and nothing but their places has changed. -/
structure Repaired (target spaceRequired : Nat) (p q : UPage) : Prop where
  frame : q = { p with
    pdUpper := q.pdUpper, hasFreeLinePointers := q.hasFreeLinePointers,
    rowPtr := q.rowPtr, data := q.data }
  lower_le : p.pdLower ≤ q.pdUpper
  upper_le : q.pdUpper ≤ p.pdSpecial
  flags : ∀ off, (q.rowPtr off).flags = (p.rowPtr off).flags
  moved : ∀ off ∈ p.rows, (q.rowPtr off).len = (p.rowPtr off).len
  kept : ∀ off, (p.rowPtr off).isUsed → off ∉ p.rows → q.rowPtr off = p.rowPtr off
  even : ∀ off ∈ p.rows, 2 ∣ (q.rowPtr off).offset
  inside : ∀ off ∈ p.rows, q.pdUpper ≤ (q.rowPtr off).offset ∧
    (q.rowPtr off).offset + shortAlign (rowExtent target spaceRequired p off) ≤ p.pdSpecial
  apart : ∀ off ∈ p.rows, ∀ off' ∈ p.rows, off ≠ off' →
    (q.rowPtr off).offset + shortAlign (rowExtent target spaceRequired p off) ≤
        (q.rowPtr off').offset ∨
      (q.rowPtr off').offset + shortAlign (rowExtent target spaceRequired p off') ≤
        (q.rowPtr off).offset
  bytes : ∀ off ∈ p.rows, q.data.read (q.rowPtr off).offset (p.rowPtr off).len =
    p.rowData (p.rowPtr off)

theorem clearedPtr_of_used {offs : List Nat} (h : (p.rowPtr off).isUsed) :
    clearedPtr p offs off = p.rowPtr off := by
  rw [clearedPtr, if_neg (fun hc => hc.2 h)]

theorem clearedPtr_flags (off : Nat) (offs : List Nat) :
    (clearedPtr p offs off).flags = (p.rowPtr off).flags := by
  rw [clearedPtr]
  split
  · rename_i hc
    simp only [RowPtr.isUsed, decide_eq_true_eq, not_not] at hc
    exact hc.2.symm
  · rfl

theorem UPage.invalid_not_mem_rows (p : UPage) : InvalidOffsetNumber ∉ p.rows := by
  intro hoff
  have := (UPage.mem_offsetNumbers.mp (mem_rows.mp hoff).1).1
  simp only [InvalidOffsetNumber] at this
  omega

theorem UPage.isUsed_of_mem_rows (h : off ∈ p.rows) : (p.rowPtr off).isUsed := by
  have := (mem_rows.mp h).2
  simp only [RowPtr.hasRow, decide_eq_true_eq] at this
  exact this.1

/-- The rows `offs` lie at `pos` from `upper` on, each with the space kept for it and with its
bytes. -/
structure Placed (target spaceRequired : Nat) (p : UPage) (offs : List Nat) (pos : Nat → Nat)
    (upper : Nat) (data : Mem) : Prop where
  even : ∀ off ∈ offs, 2 ∣ pos off
  inside : ∀ off ∈ offs, upper ≤ pos off ∧
    pos off + shortAlign (rowExtent target spaceRequired p off) ≤ p.pdSpecial
  apart : ∀ off ∈ offs, ∀ off' ∈ offs, off ≠ off' →
    pos off + shortAlign (rowExtent target spaceRequired p off) ≤ pos off' ∨
      pos off' + shortAlign (rowExtent target spaceRequired p off') ≤ pos off
  bytes : ∀ off ∈ offs, data.read (pos off) (p.rowPtr off).len = p.rowData (p.rowPtr off)

/-- A page whose rows went to `pos` and that is otherwise unchanged. -/
theorem Placed.repaired {q : UPage} {pos : Nat → Nat}
    (h : Placed target spaceRequired p p.rows pos q.pdUpper q.data) (hframe : q = { p with
      pdUpper := q.pdUpper, hasFreeLinePointers := q.hasFreeLinePointers,
      rowPtr := q.rowPtr, data := q.data })
    (hlower : p.pdLower ≤ q.pdUpper) (hupper : q.pdUpper ≤ p.pdSpecial)
    (hptr : ∀ off ∈ p.rows, q.rowPtr off = { p.rowPtr off with offset := pos off })
    (hother : ∀ off, off ∉ p.rows → q.rowPtr off = clearedPtr p p.offsetNumbers off) :
    Repaired target spaceRequired p q where
  frame := hframe
  lower_le := hlower
  upper_le := hupper
  flags := by
    intro off
    by_cases hoff : off ∈ p.rows
    · rw [hptr off hoff]
    · rw [hother off hoff, clearedPtr_flags]
  moved := fun off hoff => by rw [hptr off hoff]
  kept := fun off hused hoff => by rw [hother off hoff, clearedPtr_of_used hused]
  even := fun off hoff => by rw [hptr off hoff]; exact h.even off hoff
  inside := fun off hoff => by rw [hptr off hoff]; exact h.inside off hoff
  apart := fun off hoff off' hoff' hne => by
    rw [hptr off hoff, hptr off' hoff']
    exact h.apart off hoff off' hoff' hne
  bytes := fun off hoff => by rw [hptr off hoff]; exact h.bytes off hoff

/-- The target goes directly below the rows placed so far. -/
theorem Placed.add_target {pos : Nat → Nat} {upper : Nat} {data : Mem}
    (h : Placed target spaceRequired p (p.rows.erase target) pos upper data) (heven : 2 ∣ upper)
    (hupper : upper ≤ p.pdSpecial)
    (hroom : shortAlign ((p.rowPtr target).len + spaceRequired) ≤ upper) :
    Placed target spaceRequired p p.rows
      (update pos target (upper - shortAlign ((p.rowPtr target).len + spaceRequired)))
      (upper - shortAlign ((p.rowPtr target).len + spaceRequired))
      (data.write (upper - shortAlign ((p.rowPtr target).len + spaceRequired))
        (p.rowData (p.rowPtr target))) := by
  have hlen := (Nat.le_add_right _ _).trans (le_shortAlign ((p.rowPtr target).len + spaceRequired))
  have hdvd : 2 ∣ shortAlign ((p.rowPtr target).len + spaceRequired) := two_dvd_shortAlign _
  have hext : shortAlign (rowExtent target spaceRequired p target) =
      shortAlign ((p.rowPtr target).len + spaceRequired) := congrArg _ (if_pos rfl)
  have hslid : ∀ {off}, off ∈ p.rows → off ≠ target → off ∈ p.rows.erase target :=
    fun hoff hne => mem_erase_rows.mpr ⟨hne, hoff⟩
  generalize shortAlign ((p.rowPtr target).len + spaceRequired) = room at *
  refine ⟨fun off hoff => ?_, fun off hoff => ?_, fun off hoff off' hoff' hne => ?_,
    fun off hoff => ?_⟩
  · by_cases ht : off = target
    · rw [ht, update_self]
      omega
    · rw [update_of_ne ht]
      exact h.even off (hslid hoff ht)
  · by_cases ht : off = target
    · rw [ht, update_self, hext]
      omega
    · have := h.inside off (hslid hoff ht)
      rw [update_of_ne ht]
      omega
  · by_cases ht : off = target
    · have ht' : off' ≠ target := fun heq => hne (ht.trans heq.symm)
      have := h.inside off' (hslid hoff' ht')
      rw [ht, update_self, update_of_ne ht', hext]
      left
      omega
    · rw [update_of_ne ht]
      by_cases ht' : off' = target
      · have := h.inside off (hslid hoff ht)
        rw [ht', update_self, hext]
        right
        omega
      · rw [update_of_ne ht']
        exact h.apart off (hslid hoff ht) off' (hslid hoff' ht') hne
  · by_cases ht : off = target
    · rw [ht, update_self]
      have hself := Mem.read_write_self data (upper - room) (p.rowData (p.rowPtr target))
      rw [UPage.rowData, Mem.length_read] at hself
      exact hself
    · rw [update_of_ne ht, ← h.bytes off (hslid hoff ht)]
      -- the write ends where the slid rows begin
      have := h.inside off (hslid hoff ht)
      apply Mem.read_write_of_disjoint
      rw [UPage.rowData, Mem.length_read]
      omega

theorem placeRows_other (f : Nat → RowPtr) (h : off ∉ p.rows ∨ off = target) :
    placeRows f (placed p.pdSpecial (rowBlocks target spaceRequired p))
      off = f off := by
  apply placeRows_of_not_mem
  intro x hx hkey
  obtain ⟨i, hi, hb⟩ := mem_slidBlocks.mp (Block.mem_of_mem_placed hx)
  obtain ⟨hit, hi⟩ := mem_erase_rows.mp hi
  have hio : i = off := by
    rw [← hkey, ← hb]
    rfl
  rcases h with h | h
  · exact h (hio ▸ hi)
  · exact hit (hio.trans h)

/-- The page after the loop of `CompactifyTuples`. -/
def slidPage (target spaceRequired : Nat) (p : UPage) : UPage :=
  { p with
    rowPtr := placeRows (clearedPtr p p.offsetNumbers)
      (placed p.pdSpecial (rowBlocks target spaceRequired p))
    data := slide p.data p.pdSpecial
      (rowBlocks target spaceRequired p) }

theorem foldl_sortedItems (target spaceRequired : Nat) (p : UPage) :
    (sortedItems target spaceRequired p).foldl (compactItem target)
        ⟨clearUnused p, p.pdSpecial, 0⟩ =
      ⟨slidPage target spaceRequired p,
        p.pdSpecial - total (rowBlocks target spaceRequired p),
        targetLen target (sortedItems target spaceRequired p) 0⟩ := by
  rw [foldl_compactItem, clearUnused_eq]
  rfl

theorem even_slid (h : p.WellFormed) :
    2 ∣ p.pdSpecial - total (rowBlocks target spaceRequired p) := by
  refine Nat.dvd_sub h.special_even (Block.dvd_total fun b hb => ?_)
  obtain ⟨i, _, rfl⟩ := mem_slidBlocks.mp hb
  exact two_dvd_shortAlign _

/-- The loop slides all rows but the target up to the special space. -/
theorem exists_placed_slid (h : p.WellFormed)
    (hfit : total (rowBlocks target spaceRequired p) ≤ p.pdSpecial) :
    ∃ pos, Placed target spaceRequired p (p.rows.erase target) pos
        (p.pdSpecial - total (rowBlocks target spaceRequired p))
        (slidPage target spaceRequired p).data ∧
      ∀ off ∈ p.rows.erase target, (slidPage target spaceRequired p).rowPtr off =
        { p.rowPtr off with offset := pos off } := by
  have hex : ∀ off, ∃ pos, off ∈ p.rows.erase target →
      (rowBlock target spaceRequired p off, pos) ∈
        placed p.pdSpecial (rowBlocks target spaceRequired p) := by
    intro off
    by_cases hoff : off ∈ p.rows.erase target
    · obtain ⟨pos, hpos⟩ := Block.exists_placed (mem_slidBlocks.mpr ⟨off, hoff, rfl⟩)
      exact ⟨pos, fun _ => hpos⟩
    · exact ⟨0, fun hin => absurd hin hoff⟩
  choose pos hpos using hex
  have hbounds : ∀ off ∈ p.rows.erase target, _ := fun off hoff =>
    Block.placed_bounds hfit (hpos off hoff)
  refine ⟨pos, ⟨fun off hoff => ?_, hbounds, fun off hoff off' hoff' hne => ?_,
    fun off hoff => ?_⟩, fun off hoff => ?_⟩
  · refine Block.dvd_placed hfit h.special_even (fun b hb => ?_) (hpos off hoff)
    obtain ⟨i, _, rfl⟩ := mem_slidBlocks.mp hb
    exact two_dvd_shortAlign _
  · exact Block.placed_apart hfit (hpos off hoff) (hpos off' hoff')
      fun heq => hne (congrArg (fun x => x.1.key) heq)
  · -- a slid row has its bytes; the alignment byte behind it does not matter
    have hread := Block.slide_read (m := p.data) (stacked_slidBlocks h) le_rfl hfit (hpos off hoff)
    have hlen : min (p.rowPtr off).len (rowBlock target spaceRequired p off).len =
        (p.rowPtr off).len := by
      have := le_shortAlign (p.rowPtr off).len
      simp only [rowBlock, rowExtent, if_neg (mem_erase_rows.mp hoff).1]
      omega
    have htake := congrArg (List.take (p.rowPtr off).len) hread
    rw [Mem.take_read, Mem.take_read, hlen] at htake
    exact htake
  · have hnd : ((placed p.pdSpecial
        (rowBlocks target spaceRequired p)).map fun y => y.1.key).Nodup := by
      have hkeys := nodup_slidKeys target spaceRequired p
      rw [← Block.map_fst_placed p.pdSpecial (rowBlocks target spaceRequired p), map_map] at hkeys
      exact hkeys
    have hplace := placeRows_of_mem (clearedPtr p p.offsetNumbers) hnd (hpos off hoff)
    have hlt : pos off < 2 ^ 15 := by
      have := (hbounds off hoff).2
      have := h.special_le
      simp only [BLCKSZ] at this
      omega
    rw [Nat.mod_eq_of_lt hlt] at hplace
    refine hplace.trans ?_
    change { clearedPtr p p.offsetNumbers off with offset := pos off } = _
    rw [clearedPtr_of_used (UPage.isUsed_of_mem_rows (mem_erase_rows.mp hoff).2)]

/-- Without a target all rows are slid up. -/
theorem compactify_noTarget (h : p.WellFormed)
    (hfit : repairTotal InvalidOffsetNumber spaceRequired p ≤ p.pdSpecial - p.pdLower) :
    ∃ q, compactifyTuples (repairItems InvalidOffsetNumber spaceRequired p p.offsetNumbers)
        InvalidOffsetNumber (clearUnused p) = .ok q ∧
      Repaired InvalidOffsetNumber spaceRequired p q := by
  have hzero := p.invalid_not_mem_rows
  have htotal : total (rowBlocks _ spaceRequired p) = _ := total_of_not_mem hzero
  have hle : p.pdLower ≤ p.pdSpecial := h.lower_le.trans h.upper_le
  obtain ⟨pos, hplaced, hptr⟩ := exists_placed_slid h (htotal.trans_le (by omega))
  rw [List.erase_of_not_mem hzero] at hplaced hptr
  refine ⟨{ slidPage InvalidOffsetNumber spaceRequired p with pdUpper := p.pdSpecial - total _ }, ?_,
    hplaced.repaired rfl ?_ (Nat.sub_le _ _) hptr fun off hoff => placeRows_other _ (.inl hoff)⟩
  · have hspecial : (clearUnused p).pdSpecial = p.pdSpecial := by rw [clearUnused_eq]
    simp only [compactifyTuples, ne_eq, not_true_eq_false, false_and, if_false, hspecial]
    rw [← sortedItems, foldl_sortedItems]
  · change p.pdLower ≤ p.pdSpecial - _
    omega

/-- The loop leaves the space that the target is to have. -/
theorem targetLen_sortedItems (hrow : target ∈ p.rows)
    (hlt : shortAlign ((p.rowPtr target).len + spaceRequired) < 2 ^ 16) :
    targetLen target (sortedItems target spaceRequired p) 0 =
      shortAlign ((p.rowPtr target).len + spaceRequired) := by
  apply targetLen_of_mem
  · intro item hitem hidx
    obtain ⟨off, hoff, rfl⟩ := mem_sortedItems.mp hitem
    rw [repairItem_offset (mem_rows.mp hoff).1] at hidx
    rw [← hidx, repairItem, rowExtent, if_pos rfl]
  · exact hlt
  · refine .inr ⟨_, mem_sortedItems.mpr ⟨target, hrow, rfl⟩, ?_⟩
    exact (repairItem_offset (mem_rows.mp hrow).1).symm

/-- The target's row is copied back below all others, at the lower end of the
space kept for it. -/
theorem compactify_target (h : p.WellFormed) (htarget : target ∈ p.offsetNumbers)
    (hnormal : (p.rowPtr target).isNormal)
    (hfit : repairTotal target spaceRequired p ≤ p.pdSpecial - p.pdLower) :
    ∃ q, compactifyTuples (repairItems target spaceRequired p p.offsetNumbers) target
        (clearUnused p) = .ok q ∧ Repaired target spaceRequired p q := by
  have hrow : target ∈ p.rows := mem_rows.mpr ⟨htarget, h.normal_hasRow htarget hnormal⟩
  have hused := UPage.isUsed_of_mem_rows hrow
  have htotal : total (rowBlocks target spaceRequired p) + _ = _ := total_add_target hrow
  have hle : p.pdLower ≤ p.pdSpecial := h.lower_le.trans h.upper_le
  have hblck : p.pdSpecial ≤ 8192 := h.special_le
  have hlenroom := (Nat.le_add_right _ _).trans
    (le_shortAlign ((p.rowPtr target).len + spaceRequired))
  -- the other rows slide up first, then the target's is written below them
  have hslid : total (rowBlocks target spaceRequired p) ≤ p.pdSpecial := by omega
  obtain ⟨pos, hplaced, hptr⟩ := exists_placed_slid h hslid
  have hall := hplaced.add_target (even_slid h) (Nat.sub_le _ _) (by omega)
  have hnew : targetLen target (sortedItems target spaceRequired p) 0 = _ :=
    targetLen_sortedItems hrow (by omega)
  have hkeptptr : (slidPage target spaceRequired p).rowPtr target = p.rowPtr target :=
    (placeRows_other _ (.inr rfl)).trans (clearedPtr_of_used hused)
  set curr := p.pdSpecial - total (rowBlocks target spaceRequired p) -
    shortAlign ((p.rowPtr target).len + spaceRequired) with hcurr
  refine ⟨{ slidPage target spaceRequired p with
    rowPtr := update (slidPage target spaceRequired p).rowPtr target
      { p.rowPtr target with offset := curr }
    data := (slidPage target spaceRequired p).data.write curr (p.rowData (p.rowPtr target))
    pdUpper := curr }, ?_, hall.repaired rfl ?_ ?_ (fun off hoff => ?_) fun off hoff => ?_⟩
  · have hptr : (clearUnused p).rowPtr target = p.rowPtr target := by
      rw [clearUnused_eq]
      exact clearedPtr_of_used hused
    have hrowData : (clearUnused p).rowData (p.rowPtr target) = p.rowData (p.rowPtr target) := by
      rw [clearUnused_eq]
      rfl
    have hspecial : (clearUnused p).pdSpecial = p.pdSpecial := by rw [clearUnused_eq]
    have hne0 : target ≠ InvalidOffsetNumber := fun heq => p.invalid_not_mem_rows (heq ▸ hrow)
    have hmod : curr % 2 ^ 15 = curr := Nat.mod_eq_of_lt (by omega)
    have hlen := (h.normal_len target htarget hnormal).2
    rw [compactifyTuples]
    simp only [hptr, hrowData, hspecial]
    rw [if_neg (by simp [hnormal, hlen]), ← sortedItems, foldl_sortedItems]
    simp only [hnew, ← hcurr]
    rw [if_pos hne0, if_neg (by rw [UPage.rowData, Mem.length_read]; omega), hkeptptr, hmod]
    rfl
  · change p.pdLower ≤ curr
    omega
  · change curr ≤ p.pdSpecial
    omega
  · by_cases ht : off = target
    · subst ht
      simp
    · simp only [update_of_ne ht]
      exact hptr off (mem_erase_rows.mpr ⟨ht, hoff⟩)
  · have ht : off ≠ target := fun heq => hoff (heq ▸ hrow)
    exact (update_of_ne ht _ _).trans (placeRows_other _ (.inl hoff))

/-- Whether unused row pointers are left is only noted on the page. -/
theorem Repaired.setFree {q : UPage} (h : Repaired target spaceRequired p q) (free : Bool) :
    Repaired target spaceRequired p { q with hasFreeLinePointers := free } where
  frame := by
    have := h.frame
    rw [this]
  __ := h

theorem repaired_of_no_rows (h : p.WellFormed) (hrows : p.rows = []) :
    Repaired target spaceRequired p { clearUnused p with pdUpper := p.pdSpecial } := by
  have hnone : ∀ off, off ∉ p.rows := by simp [hrows]
  rw [clearUnused_eq]
  have hplaced : Placed target spaceRequired p p.rows id p.pdSpecial p.data := by
    refine ⟨?_, ?_, ?_, ?_⟩ <;> exact fun off hoff => absurd hoff (hnone off)
  exact hplaced.repaired rfl (h.lower_le.trans h.upper_le) le_rfl
    (fun off hoff => absurd hoff (hnone off)) fun off _ => rfl

/-- `UPageRepairFragmentation` on a well-formed page raises no error if the
rows fit, and repairs it. -/
theorem upageRepairFragmentation_spec (h : p.WellFormed) (htarget : target = InvalidOffsetNumber ∨
      target ∈ p.offsetNumbers ∧ (p.rowPtr target).isNormal)
    (hfit : repairTotal target spaceRequired p ≤ p.pdSpecial - p.pdLower) :
    ∃ q, upageRepairFragmentation target spaceRequired p = .ok q ∧
      Repaired target spaceRequired p q := by
  have hheader : ¬ (p.pdLower < p.rowPtrOffset ∨ p.pdLower > p.pdUpper ∨
      p.pdUpper > p.pdSpecial ∨ p.pdSpecial > BLCKSZ ∨ p.pdSpecial ≠ maxAlign p.pdSpecial) := by
    have := h.lower_ge
    have := h.lower_le
    have := h.upper_le
    have := h.special_le
    have := h.special_aligned
    omega
  have hitems : collectItems target spaceRequired p p.offsetNumbers =
      .ok (repairItems target spaceRequired p p.offsetNumbers) := by
    apply collectItems_eq
    intro off hoff hrow
    have hin := h.inside off hoff hrow
    have hlen : 0 < (p.rowPtr off).len := by
      simp only [RowPtr.hasRow, RowPtr.hasStorage, decide_eq_true_eq] at hrow
      exact hrow.2
    omega
  have hsum : ((repairItems target spaceRequired p p.offsetNumbers).map
      ItemIdSort.alignedlen).sum = repairTotal target spaceRequired p := by
    rw [repairItems, map_map]
    rfl
  rw [upageRepairFragmentation, if_neg hheader, hitems]
  simp only [bind, Except.bind, hsum]
  by_cases hnone : repairItems target spaceRequired p p.offsetNumbers = []
  · have hrows : p.rows = [] := List.map_eq_nil_iff.mp hnone
    rw [if_pos hnone]
    exact ⟨_, rfl, (repaired_of_no_rows h hrows).setFree _⟩
  rw [if_neg hnone, if_neg (by omega)]
  obtain ⟨q, hq, hrep⟩ : ∃ q, compactifyTuples
      (repairItems target spaceRequired p p.offsetNumbers) target (clearUnused p) = .ok q ∧
        Repaired target spaceRequired p q := by
    rcases htarget with rfl | ⟨hin, hnormal⟩
    · exact compactify_noTarget h hfit
    · exact compactify_target h hin hnormal hfit
  rw [hq]
  exact ⟨_, rfl, hrep.setFree _⟩

end Compaction

end OpenGauss.Ustore
