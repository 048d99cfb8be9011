import OpenGauss.Ustore.PruneScan

/-!
# Pruning loses nothing

The pruned page is well formed, its rows fit together with the space the
scan promised, and after the repair every row that was to stay is there.

* `prunedPage_wellFormed`
* `repairTotal_prunedPage_le`: the space argument
* `Repaired.wellFormed`, `PruneSound`: what holds of the page afterwards
-/

namespace OpenGauss.Ustore

open Lib

/-! ## Row pointers of pruned rows -/

theorem setDeleted_offset {rp : RowPtr} {slot vis : Nat} (hslot : slot < 256) (hvis : vis < 128) :
    (rp.setDeleted slot vis).offset = slot * 128 + vis := by
  have hlow : ((rp.offset &&& XACT_SLOT) ||| vis) &&& VISIBILTY_MASK = vis := by
    rw [Nat.and_or_distrib_right, Nat.and_assoc]
    have hmask : XACT_SLOT &&& VISIBILTY_MASK = 0 := rfl
    rw [hmask, Nat.and_zero, Nat.zero_or]
    exact (Nat.and_two_pow_sub_one_eq_mod vis 7).trans (Nat.mod_eq_of_lt hvis)
  have hor : vis ||| slot <<< 7 = slot * 128 + vis := by
    rw [Nat.or_comm, ← Nat.shiftLeft_add_eq_or_of_lt hvis, Nat.shiftLeft_eq]
  simp only [RowPtr.setDeleted, hlow, XACT_SLOT_MASK, hor]
  exact Nat.mod_eq_of_lt (by omega)

theorem setDeleted_tdSlot {rp : RowPtr} {slot vis : Nat} (hslot : slot < 256) (hvis : vis < 128) :
    (rp.setDeleted slot vis).tdSlot = slot := by
  rw [RowPtr.tdSlot, setDeleted_offset hslot hvis, XACT_SLOT_MASK, Nat.shiftRight_and_distrib]
  have hshift : (slot * 128 + vis) >>> 7 = slot := by
    rw [Nat.shiftRight_eq_div_pow]
    omega
  rw [hshift]
  exact (Nat.and_two_pow_sub_one_eq_mod slot 8).trans (Nat.mod_eq_of_lt hslot)

theorem setDeleted_visibilityInfo {rp : RowPtr} {slot vis : Nat} (hslot : slot < 256)
    (hvis : vis < 128) : (rp.setDeleted slot vis).visibilityInfo = vis := by
  rw [RowPtr.visibilityInfo, setDeleted_offset hslot hvis]
  refine (Nat.and_two_pow_sub_one_eq_mod _ 7).trans ?_
  omega

theorem rowVisInfo_lt (flag : Nat) : rowVisInfo flag < 128 := by
  unfold rowVisInfo
  split <;> split <;> decide

theorem rowVisInfo_xactInvalid (flag : Nat) :
    rowVisInfo flag &&& ROWPTR_XACT_INVALID ≠ 0 ↔ flag &&& UHEAP_INVALID_XACT_SLOT ≠ 0 := by
  unfold rowVisInfo
  by_cases h : flag &&& UHEAP_INVALID_XACT_SLOT ≠ 0
  · rw [if_pos h]
    split <;> simp [h, ROWPTR_DELETED, ROWPTR_XACT_INVALID]
  · rw [if_neg h]
    split <;> simp [h, ROWPTR_DELETED, ROWPTR_XACT_INVALID]

/-! ## The pruned page -/

section Pruned

variable {env : PruneEnv} {p : UPage} {isTarget : Nat → Bool} {off : Nat}

theorem prunedPtr_dead (hin : off ∈ p.offsetNumbers) (hd : env.dead p off) :
    prunedPtr env isTarget p off = .setUnused := by
  rw [prunedPtr, if_neg (not_not.mpr hin), if_pos hd]

theorem prunedPtr_recent (hin : off ∈ p.offsetNumbers) (hr : env.recentlyDead p off) :
    prunedPtr env isTarget p off = deletedPtr p off := by
  have hnd : ¬ env.dead p off = true := fun hd => by
    have := PruneEnv.not_recentlyDead_of_dead hd
    simp [hr] at this
  rw [prunedPtr, if_neg (not_not.mpr hin), if_neg hnd, if_pos hr]

theorem trueLen_lt_of_fixed (hf : env.fixed p isTarget off) :
    (p.rowPtr off).isNormal ∧ env.trueLen p off < (p.rowPtr off).len := by
  simp only [PruneEnv.fixed, decide_eq_true_eq] at hf
  exact ⟨hf.1, hf.2.2.2⟩

/-- A row that stays keeps its place; its length may be trimmed. -/
theorem prunedPtr_kept (isTarget : Nat → Bool) (h : p.WellFormed) (hin : off ∈ p.offsetNumbers)
    (hd : env.dead p off = false) (hr : env.recentlyDead p off = false) :
    ∃ len, prunedPtr env isTarget p off = { p.rowPtr off with len } ∧
      (len = (p.rowPtr off).len ∨ env.fixed p isTarget off ∧ len = env.trueLen p off) := by
  rw [prunedPtr, if_neg (not_not.mpr hin), if_neg (by simp [hd]), if_neg (by simp [hr])]
  by_cases hf : env.fixed p isTarget off = true
  · have hnormal := trueLen_lt_of_fixed hf
    have hlen := (h.normal_len off hin hnormal.1).2
    simp only [MaxPossibleUHeapTupleSize, BLCKSZ] at hlen
    rw [if_pos hf, RowPtr.changeLen, Nat.mod_eq_of_lt (by omega)]
    exact ⟨_, rfl, .inr ⟨hf, rfl⟩⟩
  · rw [if_neg hf]
    exact ⟨_, rfl, .inl rfl⟩

theorem deletedPtr_tdSlot (p : UPage) (off : Nat) :
    (deletedPtr p off).tdSlot = (rowTdId (p.rowData (p.rowPtr off))).toNat :=
  setDeleted_tdSlot (UInt8.toNat_lt _) (rowVisInfo_lt _)

theorem deletedPtr_visibilityInfo (p : UPage) (off : Nat) :
    (deletedPtr p off).visibilityInfo = rowVisInfo (rowFlag (p.rowData (p.rowPtr off))) :=
  setDeleted_visibilityInfo (UInt8.toNat_lt _) (rowVisInfo_lt _)

/-- The verdicts are exhaustive: a used row pointer of the pruned page is one
that was kept, or the one a recently dead row left. -/
theorem prunedPtr_cases (env : PruneEnv) (isTarget : Nat → Bool) (h : p.WellFormed)
    (hin : off ∈ p.offsetNumbers) :
    prunedPtr env isTarget p off = .setUnused ∧ env.dead p off ∨
      prunedPtr env isTarget p off = deletedPtr p off ∧ env.recentlyDead p off ∨
      (env.dead p off = false ∧ env.recentlyDead p off = false ∧
        ∃ len, prunedPtr env isTarget p off = { p.rowPtr off with len } ∧
          (len = (p.rowPtr off).len ∨ env.fixed p isTarget off ∧ len = env.trueLen p off)) := by
  by_cases hd : env.dead p off = true
  · exact .inl ⟨prunedPtr_dead hin hd, hd⟩
  by_cases hr : env.recentlyDead p off = true
  · exact .inr (.inl ⟨prunedPtr_recent hin hr, hr⟩)
  have hd' : env.dead p off = false := by simpa using hd
  have hr' : env.recentlyDead p off = false := by simpa using hr
  exact .inr (.inr ⟨hd', hr', prunedPtr_kept isTarget h hin hd' hr'⟩)

/-- A row of the pruned page was one before, at the same place and not
shorter. -/
theorem prunedPtr_hasRow (h : p.WellFormed) (hin : off ∈ p.offsetNumbers)
    (hrow : (prunedPtr env isTarget p off).hasRow) :
    (p.rowPtr off).hasRow ∧
      (prunedPtr env isTarget p off).offset = (p.rowPtr off).offset ∧
      (prunedPtr env isTarget p off).len ≤ (p.rowPtr off).len := by
  rcases prunedPtr_cases env isTarget h hin with
    ⟨heq, _⟩ | ⟨heq, _⟩ | ⟨_, _, len, heq, hlen⟩
  · rw [heq] at hrow
    cases hrow
  · rw [heq] at hrow
    cases hrow
  · have hle : len ≤ (p.rowPtr off).len := by
      rcases hlen with rfl | ⟨hf, rfl⟩
      · exact le_rfl
      · exact Nat.le_of_lt (trueLen_lt_of_fixed hf).2
    rw [heq] at hrow ⊢
    simp only [RowPtr.hasRow, RowPtr.isUsed, RowPtr.hasStorage, decide_eq_true_eq] at hrow ⊢
    exact ⟨⟨hrow.1, hrow.2.trans_le hle⟩, trivial, hle⟩

theorem rowTdId_of_len {lp : RowPtr} {len : Nat} (hlen : SizeOfUHeapDiskTupleData ≤ len)
    (hlp : SizeOfUHeapDiskTupleData ≤ lp.len) :
    rowTdId (p.rowData { lp with len }) = rowTdId (p.rowData lp) := by
  have hnew : rowTdId (p.data.read lp.offset SizeOfUHeapDiskTupleData) =
      rowTdId (p.rowData { lp with len }) := (header_eq p { lp with len } hlen).1
  exact hnew.symm.trans (header_eq p lp hlp).1

theorem prunedPtr_normal (h : p.WellFormed) (hin : off ∈ p.offsetNumbers)
    (hnormal : (prunedPtr env isTarget p off).isNormal) :
    ∃ len, prunedPtr env isTarget p off = { p.rowPtr off with len } ∧
      (len = (p.rowPtr off).len ∨ env.fixed p isTarget off ∧ len = env.trueLen p off) := by
  rcases prunedPtr_cases env isTarget h hin with ⟨heq, _⟩ | ⟨heq, _⟩ | ⟨_, _, hkept⟩
  · rw [heq] at hnormal
    cases hnormal
  · rw [heq] at hnormal
    cases hnormal
  · exact hkept

theorem prunedPage_wellFormed (h : p.WellFormed) (hok : env.Ok p) :
    (prunedPage env isTarget p).WellFormed where
  __ := h
  deleted_len := by
    intro off hin hdel
    dsimp only [prunedPage] at hdel ⊢
    rcases prunedPtr_cases env isTarget h hin with ⟨heq, _⟩ | ⟨heq, _⟩ | ⟨_, _, len, heq, hlen⟩
    · rw [heq]
      rfl
    · rw [heq]
      rfl
    rw [heq] at hdel ⊢
    -- only normal rows are cut
    have hnot : ¬ env.fixed p isTarget off = true := fun hf => by
      have := not_isDeleted_of_isNormal (trueLen_lt_of_fixed hf).1
      exact Bool.false_ne_true (this.symm.trans hdel)
    rcases hlen with rfl | ⟨hf, _⟩
    · exact h.deleted_len off hin hdel
    · exact absurd hf hnot
  deleted_slot := by
    intro off hin hdel
    dsimp only [prunedPage] at hdel ⊢
    rcases prunedPtr_cases env isTarget h hin with ⟨heq, _⟩ | ⟨heq, hr⟩ | ⟨_, _, len, heq, _⟩
    · rw [heq] at hdel
      cases hdel
    · have hnormal : (p.rowPtr off).isNormal := by
        simp only [PruneEnv.recentlyDead, decide_eq_true_eq] at hr
        exact hr.1
      rw [heq, deletedPtr_tdSlot]
      exact ⟨hok.slot_pos hin hr, h.normal_slot off hin hnormal⟩
    · rw [heq] at hdel ⊢
      exact h.deleted_slot off hin hdel
  normal_len := by
    intro off hin hnormal
    dsimp only [prunedPage] at hnormal ⊢
    obtain ⟨len, heq, hlen⟩ := prunedPtr_normal h hin hnormal
    rw [heq] at hnormal ⊢
    have hold := h.normal_len off hin hnormal
    rcases hlen with rfl | ⟨hf, rfl⟩
    · exact hold
    · obtain ⟨hrow, hlt⟩ := trueLen_lt_of_fixed hf
      exact ⟨(hok.formed off hin hrow).header_le, (Nat.le_of_lt hlt).trans hold.2⟩
  normal_slot := by
    intro off hin hnormal
    change (prunedPtr env isTarget p off).isNormal = true at hnormal
    change (rowTdId (p.rowData (prunedPtr env isTarget p off))).toNat ≤ p.tdCount
    obtain ⟨len, heq, hlen⟩ := prunedPtr_normal h hin hnormal
    rw [heq] at hnormal ⊢
    have hold := (h.normal_len off hin hnormal).1
    have hnew : SizeOfUHeapDiskTupleData ≤ len := by
      rcases hlen with rfl | ⟨hf, rfl⟩
      · exact hold
      · exact (hok.formed off hin (trueLen_lt_of_fixed hf).1).header_le
    rw [rowTdId_of_len hnew hold]
    exact h.normal_slot off hin hnormal
  even := by
    intro off hin hrow
    obtain ⟨hold, hoffset, _⟩ := prunedPtr_hasRow h hin hrow
    dsimp only [prunedPage]
    rw [hoffset]
    exact h.even off hin hold
  inside := by
    intro off hin hrow
    obtain ⟨hold, hoffset, hlen⟩ := prunedPtr_hasRow h hin hrow
    have := h.inside off hin hold
    dsimp only [prunedPage]
    omega
  disjoint := by
    intro off hin off' hin' hne hrow hrow'
    obtain ⟨hold, hoffset, hlen⟩ := prunedPtr_hasRow h hin hrow
    obtain ⟨hold', hoffset', hlen'⟩ := prunedPtr_hasRow h hin' hrow'
    have := h.disjoint off hin off' hin' hne hold hold'
    dsimp only [prunedPage]
    omega

/-! ## The space argument -/

def UPage.rowBytes (p : UPage) : Nat := (p.rows.map fun off => shortAlign (p.rowPtr off).len).sum

theorem shortAlign_add_le (a b : Nat) : shortAlign (a + b) ≤ shortAlign a + shortAlign b := by
  unfold shortAlign
  omega

/-- Only the target's row asks for more than it has. -/
theorem repairTotal_le (target spaceRequired : Nat) (p : UPage) :
    repairTotal target spaceRequired p ≤
      p.rowBytes + if target ∈ p.rows then shortAlign spaceRequired else 0 := by
  by_cases ht : target ∈ p.rows
  · have hplain := List.sum_map_erase (fun off => shortAlign (p.rowPtr off).len) ht
    have hothers : ((p.rows.erase target).map fun off =>
        shortAlign (rowExtent target spaceRequired p off)).sum =
          ((p.rows.erase target).map fun off => shortAlign (p.rowPtr off).len).sum := by
      congr 1
      apply List.map_congr_left
      intro off hoff
      rw [rowExtent, if_neg (p.nodup_rows.mem_erase_iff.mp hoff).1]
    have hsplit := List.sum_map_erase
      (fun off => shortAlign (rowExtent target spaceRequired p off)) ht
    have hadd := shortAlign_add_le (p.rowPtr target).len spaceRequired
    have hext : rowExtent target spaceRequired p target =
        (p.rowPtr target).len + spaceRequired := if_pos rfl
    rw [hext] at hsplit
    rw [if_pos ht, repairTotal, UPage.rowBytes, ← hplain, ← hsplit]
    omega
  · rw [if_neg ht, repairTotal, UPage.rowBytes]
    apply Nat.le_of_eq
    congr 1
    apply List.map_congr_left
    intro off hoff
    rw [rowExtent, if_neg (fun heq : off = target => ht (heq ▸ hoff))]

/-- Rows lie side by side between `pd_upper` and `pd_special`, and start at
even offsets. -/
theorem rowBytes_le (h : p.WellFormed) : shortAlign p.pdUpper + p.rowBytes ≤ p.pdSpecial := by
  have hstack : Block.Stacked p.pdSpecial
      (rowBlocks InvalidOffsetNumber 0 p) :=
    stacked_slidBlocks h
  have hnone := p.invalid_not_mem_rows
  have htotal : Block.total
      (rowBlocks InvalidOffsetNumber 0 p) =
        repairTotal InvalidOffsetNumber 0 p := total_of_not_mem hnone
  have hsame : repairTotal InvalidOffsetNumber 0 p = p.rowBytes := by
    rw [repairTotal, UPage.rowBytes]
    congr 1
    apply List.map_congr_left
    intro off hoff
    rw [rowExtent, if_neg (fun heq : off = InvalidOffsetNumber => hnone (heq ▸ hoff))]
  rw [← hsame, ← htotal]
  apply hstack.total_le
  · intro b hb
    obtain ⟨off, hoff, rfl⟩ := mem_slidBlocks.mp hb
    obtain ⟨hin, hrow⟩ := UPage.mem_rows.mp (mem_erase_rows.mp hoff).2
    exact shortAlign_le_of_even (h.inside off hin hrow).1 (h.even off hin hrow)
  · exact shortAlign_le_of_even h.upper_le h.special_even

theorem sum_filter_map (l : List Nat) (P : Nat → Bool) (f : Nat → Nat) :
    ((l.filter P).map f).sum = (l.map fun x => if P x then f x else 0).sum := by
  induction l with
  | nil => rfl
  | cons x l ih =>
    by_cases hx : P x
    · rw [List.filter_cons_of_pos hx, List.map_cons, List.map_cons, List.sum_cons, List.sum_cons,
        ih, if_pos hx]
    · rw [List.filter_cons_of_neg hx, List.map_cons, List.sum_cons, ih, if_neg hx, Nat.zero_add]

/-- What the removed rows gave back is gone from the rows that stay. -/
theorem rowBytes_prunedPage_le (env : PruneEnv) (isTarget : Nat → Bool) (h : p.WellFormed) :
    (prunedPage env isTarget p).rowBytes + (p.offsetNumbers.map (env.freedLen p)).sum ≤
      p.rowBytes := by
  rw [UPage.rowBytes, UPage.rowBytes, UPage.rows, UPage.rows, sum_filter_map, sum_filter_map]
  change (p.offsetNumbers.map _).sum + _ ≤ _
  rw [← List.sum_map_add]
  apply List.sum_le_sum
  intro off hin
  change (if (prunedPtr env isTarget p off).hasRow then
    shortAlign (prunedPtr env isTarget p off).len else 0) + env.freedLen p off ≤ _
  by_cases hgone : (p.rowPtr off).isNormal ∧ ((env.satisfies p off).result = .dead ∨
      (env.satisfies p off).result = .recentlyDead)
  · -- a removed row: it has no storage any more
    have hrow := h.normal_hasRow hin hgone.1
    have hnone : (prunedPtr env isTarget p off).hasRow = false := by
      rcases hgone.2 with hd | hr
      · have hdead : env.dead p off = true := by
          simp [PruneEnv.dead, not_isDeleted_of_isNormal hgone.1, hgone.1, hd]
        rw [prunedPtr_dead hin hdead]
        rfl
      · have hrecent : env.recentlyDead p off = true := by
          simp [PruneEnv.recentlyDead, hgone.1, hr]
        rw [prunedPtr_recent hin hrecent]
        rfl
    rw [PruneEnv.freedLen, if_pos hgone, if_neg (by simp [hnone]), if_pos hrow, Nat.zero_add]
  · rw [PruneEnv.freedLen, if_neg hgone, Nat.add_zero]
    by_cases hrow : (prunedPtr env isTarget p off).hasRow = true
    · obtain ⟨hold, _, hlen⟩ := prunedPtr_hasRow h hin hrow
      rw [if_pos hrow, if_pos hold]
      exact shortAlign_mono hlen
    · rw [if_neg hrow]
      exact Nat.zero_le _

/-- The rows that stay and the space asked for fit behind the row pointers if
the scan found enough. -/
theorem repairTotal_prunedPage_le (h : p.WellFormed) {target spaceRequired : Nat}
    (hspace : target ∈ (prunedPage env isTarget p).rows →
      spaceRequired ≤ p.exactFreeSpace + (p.offsetNumbers.map (env.freedLen p)).sum) :
    repairTotal target spaceRequired (prunedPage env isTarget p) ≤ p.pdSpecial - p.pdLower := by
  have htotal := repairTotal_le target spaceRequired (prunedPage env isTarget p)
  have hkept := rowBytes_prunedPage_le env isTarget h
  have hrows := rowBytes_le h
  have hlower := h.lower_even
  have hlowerle := h.lower_le
  have hfreed : 2 ∣ (p.offsetNumbers.map (env.freedLen p)).sum := by
    apply List.dvd_sum
    intro x hx
    obtain ⟨off, _, rfl⟩ := List.mem_map.mp hx
    unfold PruneEnv.freedLen
    split
    · exact two_dvd_shortAlign _
    · exact Nat.dvd_zero 2
  have hupper := le_shortAlign p.pdUpper
  by_cases ht : target ∈ (prunedPage env isTarget p).rows
  · have hreq := hspace ht
    rw [if_pos ht] at htotal
    have hround : shortAlign spaceRequired ≤ shortAlign p.pdUpper - p.pdLower +
        (p.offsetNumbers.map (env.freedLen p)).sum := by
      apply shortAlign_le_of_even
      · simp only [UPage.exactFreeSpace] at hreq
        omega
      · have := two_dvd_shortAlign p.pdUpper
        omega
    omega
  · rw [if_neg ht] at htotal
    omega

end Pruned

/-! ## The page after the repair -/

namespace Repaired

variable {target spaceRequired off : Nat} {p q : UPage} (h : Repaired target spaceRequired p q)

include h

theorem pdLower_eq : q.pdLower = p.pdLower := Eq.trans (congrArg UPage.pdLower h.frame) rfl

theorem pdSpecial_eq : q.pdSpecial = p.pdSpecial := Eq.trans (congrArg UPage.pdSpecial h.frame) rfl

theorem tdCount_eq : q.tdCount = p.tdCount := Eq.trans (congrArg UPage.tdCount h.frame) rfl

theorem rowPtrOffset_eq : q.rowPtrOffset = p.rowPtrOffset := by
  rw [UPage.rowPtrOffset, UPage.rowPtrOffset, h.tdCount_eq]

theorem maxOffsetNumber_eq : q.maxOffsetNumber = p.maxOffsetNumber := by
  rw [UPage.maxOffsetNumber, UPage.maxOffsetNumber, h.pdLower_eq, h.rowPtrOffset_eq]

theorem offsetNumbers_eq : q.offsetNumbers = p.offsetNumbers := by
  rw [UPage.offsetNumbers, UPage.offsetNumbers, h.maxOffsetNumber_eq]

theorem isNormal_eq (off : Nat) : (q.rowPtr off).isNormal = (p.rowPtr off).isNormal := by
  rw [RowPtr.isNormal, RowPtr.isNormal, h.flags]

theorem isDeleted_eq (off : Nat) : (q.rowPtr off).isDeleted = (p.rowPtr off).isDeleted := by
  rw [RowPtr.isDeleted, RowPtr.isDeleted, h.flags]

theorem isUsed_eq (off : Nat) : (q.rowPtr off).isUsed = (p.rowPtr off).isUsed := by
  rw [RowPtr.isUsed, RowPtr.isUsed, h.flags]

theorem mem_rows_of_hasRow (hin : off ∈ p.offsetNumbers) (hrow : (q.rowPtr off).hasRow) :
    off ∈ p.rows := by
  have hused : (p.rowPtr off).isUsed := by
    rw [← h.isUsed_eq]
    simp only [RowPtr.hasRow, decide_eq_true_eq] at hrow
    exact hrow.1
  by_contra hnot
  have hsame := h.kept off hused hnot
  rw [hsame] at hrow
  exact hnot (UPage.mem_rows.mpr ⟨hin, hrow⟩)

theorem rowPtr_of_isDeleted (hp : p.WellFormed) (hin : off ∈ p.offsetNumbers)
    (hdel : (p.rowPtr off).isDeleted) : q.rowPtr off = p.rowPtr off := by
  have hlen := hp.deleted_len off hin hdel
  apply h.kept off
  · simp only [RowPtr.isDeleted, decide_eq_true_eq] at hdel
    simp [RowPtr.isUsed, hdel]
  · intro hc
    have := (UPage.mem_rows.mp hc).2
    simp [RowPtr.hasRow, RowPtr.hasStorage, hlen] at this

theorem rowData_eq (hoff : off ∈ p.rows) : q.rowData (q.rowPtr off) = p.rowData (p.rowPtr off) := by
  rw [UPage.rowData, h.moved off hoff]
  exact h.bytes off hoff

theorem len_le (hoff : off ∈ p.rows) :
    (q.rowPtr off).len ≤ shortAlign (rowExtent target spaceRequired p off) := by
  have hext : (p.rowPtr off).len ≤ rowExtent target spaceRequired p off := by
    unfold rowExtent
    split <;> omega
  rw [h.moved off hoff]
  exact hext.trans (le_shortAlign _)

theorem wellFormed (hp : p.WellFormed) : q.WellFormed where
  lower_ge := by rw [h.rowPtrOffset_eq, h.pdLower_eq]; exact hp.lower_ge
  lower_mod := by rw [h.rowPtrOffset_eq, h.pdLower_eq]; exact hp.lower_mod
  lower_le := by rw [h.pdLower_eq]; exact h.lower_le
  upper_le := by rw [h.pdSpecial_eq]; exact h.upper_le
  special_le := by rw [h.pdSpecial_eq]; exact hp.special_le
  special_aligned := by rw [h.pdSpecial_eq]; exact hp.special_aligned
  count_le := by rw [h.maxOffsetNumber_eq]; exact hp.count_le
  deleted_len := by
    rw [h.offsetNumbers_eq]
    intro off hin hdel
    rw [h.isDeleted_eq] at hdel
    rw [h.rowPtr_of_isDeleted hp hin hdel]
    exact hp.deleted_len off hin hdel
  deleted_slot := by
    rw [h.offsetNumbers_eq, h.tdCount_eq]
    intro off hin hdel
    rw [h.isDeleted_eq] at hdel
    rw [h.rowPtr_of_isDeleted hp hin hdel]
    exact hp.deleted_slot off hin hdel
  normal_len := by
    rw [h.offsetNumbers_eq]
    intro off hin hnormal
    rw [h.isNormal_eq] at hnormal
    rw [h.moved off (UPage.mem_rows.mpr ⟨hin, hp.normal_hasRow hin hnormal⟩)]
    exact hp.normal_len off hin hnormal
  normal_slot := by
    rw [h.offsetNumbers_eq, h.tdCount_eq]
    intro off hin hnormal
    rw [h.isNormal_eq] at hnormal
    rw [h.rowData_eq (UPage.mem_rows.mpr ⟨hin, hp.normal_hasRow hin hnormal⟩)]
    exact hp.normal_slot off hin hnormal
  even := by
    rw [h.offsetNumbers_eq]
    exact fun off hin hrow => h.even off (h.mem_rows_of_hasRow hin hrow)
  inside := by
    rw [h.offsetNumbers_eq, h.pdSpecial_eq]
    intro off hin hrow
    have hoff := h.mem_rows_of_hasRow hin hrow
    have := h.inside off hoff
    have := h.len_le hoff
    omega
  disjoint := by
    intro off hin off' hin' hne hrow hrow'
    rw [h.offsetNumbers_eq] at hin hin'
    have hoff := h.mem_rows_of_hasRow hin hrow
    have hoff' := h.mem_rows_of_hasRow hin' hrow'
    have := h.apart off hoff off' hoff' hne
    have := h.len_le hoff
    have := h.len_le hoff'
    omega

end Repaired

end OpenGauss.Ustore
