import OpenGauss.Ustore.Clean
import OpenGauss.Ustore.PruneSound

/-!
# The clean record replays the prune

What `LogUHeapClean` writes is read back by both redo routines as the same
lists (`readPruneState_log`), so they apply the same verdicts to the old page
and repair it the same way.
-/

namespace OpenGauss.Ustore

open Lib
open List (length_append append_assoc length_nil)

/-! ## Reading the record back -/

theorem slice_mid {α : Type} (xs ys zs : List α) {n m : Nat} (hn : xs.length = n)
    (hm : ys.length = m) : ((xs ++ (ys ++ zs)).drop n).take m = ys := by
  rw [← hn, List.drop_left, ← hm, List.take_left]

theorem length_offsetBytes (offs : List Nat) : (offsetBytes offs).length = 2 * offs.length := by
  induction offs with
  | nil => rfl
  | cons o offs ih =>
    have hcons : offsetBytes (o :: offs) = toLe 2 o ++ offsetBytes offs := List.flatMap_cons
    rw [hcons, length_append, ih, length_toLe, List.length_cons]
    omega

theorem offsetBytes_append (a b : List Nat) :
    offsetBytes (a ++ b) = offsetBytes a ++ offsetBytes b := List.flatMap_append

theorem offsetBytes_cons (o : Nat) (offs : List Nat) :
    offsetBytes (o :: offs) = toLe 2 o ++ offsetBytes offs := List.flatMap_cons

/-- An array is read back from where it starts. -/
theorem readOffsets_mid (pre : List Nat) {offs : List Nat} {post : List UInt8} {start n : Nat}
    (hstart : start = pre.length) (hn : n = offs.length) (hlt : ∀ o ∈ offs, o < 2 ^ 16) :
    readOffsets (offsetBytes pre ++ (offsetBytes offs ++ post)) start n = offs := by
  subst hstart hn
  apply List.ext_getElem
  · simp [readOffsets]
  · intro i hi hi'
    have hsplit : offs = offs.take i ++ (offs[i] :: offs.drop (i + 1)) := by
      rw [← List.drop_eq_getElem_cons hi', List.take_append_drop]
    have hbytes : offsetBytes pre ++ (offsetBytes offs ++ post) =
        (offsetBytes pre ++ offsetBytes (offs.take i)) ++
          (toLe 2 offs[i] ++ (offsetBytes (offs.drop (i + 1)) ++ post)) := by
      have hoffs := congrArg offsetBytes hsplit
      rw [offsetBytes_append, offsetBytes_cons] at hoffs
      rw [hoffs]
      simp only [append_assoc]
    simp only [readOffsets, List.getElem_map, List.getElem_range]
    rw [hbytes, slice_mid _ _ _ (by
      rw [length_append, length_offsetBytes, length_offsetBytes, List.length_take,
        Nat.min_eq_left (hi'.le)]
      omega) (length_toLe _ _)]
    exact ofLe_toLe_of_lt (hlt _ (List.getElem_mem hi'))

theorem repair_noTarget_space (p : UPage) (space space' : Nat) :
    upageRepairFragmentation InvalidOffsetNumber space p =
      upageRepairFragmentation InvalidOffsetNumber space' p := by
  have hitems : ∀ offs : List Nat, (∀ off ∈ offs, 1 ≤ off) →
      collectItems InvalidOffsetNumber space p offs =
        collectItems InvalidOffsetNumber space' p offs := by
    intro offs
    induction offs with
    | nil => exact fun _ => rfl
    | cons i is ih =>
      intro hpos
      have hi : i ≠ InvalidOffsetNumber := by
        have := hpos i (.head _)
        simp only [InvalidOffsetNumber]
        omega
      simp only [collectItems, if_neg hi, ih fun o ho => hpos o (.tail _ ho)]
  rw [upageRepairFragmentation, upageRepairFragmentation,
    hitems _ fun off hoff => (UPage.mem_offsetNumbers.mp hoff).1]

/-- What a clean record is made from, within the ranges of its fields. -/
structure CleanArgs where
  target : Nat
  spaceRequired : Nat
  nowdeleted : List Nat
  stale : List Nat
  nowdead : List Nat
  nowunused : List Nat
  nowfixed : List (Nat × Nat)
  latestRemovedXid : Nat
  target_lt : target < 2 ^ 16
  space_lt : spaceRequired < 2 ^ 64
  deleted_len : nowdeleted.length < 2 ^ 16
  stale_len : stale.length = nowdeleted.length
  dead_len : nowdead.length < 2 ^ 16
  unused_len : nowunused.length < 2 ^ 16
  fixed_len : nowfixed.length < 2 ^ 16
  deleted_lt : ∀ o ∈ nowdeleted, o < 2 ^ 16
  dead_lt : ∀ o ∈ nowdead, o < 2 ^ 16
  unused_lt : ∀ o ∈ nowunused, o < 2 ^ 16
  fixed_lt : ∀ x ∈ nowfixed, x.1 < 2 ^ 16 ∧ x.2 < 2 ^ 16

namespace CleanArgs

variable (a : CleanArgs)

def record : CleanRecord :=
  logUHeapClean a.target a.spaceRequired a.nowdeleted a.stale a.nowdead a.nowunused a.nowfixed
    a.latestRemovedXid true

def offsetPart : List UInt8 :=
  if a.target ≠ InvalidOffsetNumber then toLe 2 a.target ++ toLe 8 a.spaceRequired else []

def tupLenPart : List UInt8 :=
  if a.nowfixed ≠ [] then toLe 4 a.nowunused.length ++ toLe 2 a.nowfixed.length else []

def flagBits : Nat := cleanFlags a.target (a.nowfixed ≠ []) true

theorem record_main : a.record.main =
    toLe 8 a.latestRemovedXid ++ (toLe 2 a.nowdeleted.length ++ (toLe 2 a.nowdead.length ++
      (toLe 1 a.flagBits ++ (a.offsetPart ++ a.tupLenPart)))) := by
  simp only [record, logUHeapClean, offsetPart, tupLenPart, flagBits, append_assoc]

theorem record_ndeleted : a.record.ndeleted = a.nowdeleted.length := by
  rw [CleanRecord.ndeleted, record_main, slice_mid _ _ _ (length_toLe _ _) (length_toLe _ _)]
  exact ofLe_toLe_of_lt a.deleted_len

theorem record_ndead : a.record.ndead = a.nowdead.length := by
  rw [CleanRecord.ndead, record_main, ← append_assoc,
    slice_mid _ _ _ (by simp) (length_toLe _ _)]
  exact ofLe_toLe_of_lt a.dead_len

theorem flagBits_lt : a.flagBits < 256 := by
  unfold flagBits cleanFlags
  split <;> split <;> split <;> decide

theorem record_flags : a.record.flags = a.flagBits := by
  rw [CleanRecord.flags, record_main, ← append_assoc, ← append_assoc,
    slice_mid _ _ _ (by simp) (length_toLe _ _)]
  exact ofLe_toLe_of_lt a.flagBits_lt

theorem record_bits : a.record.hasOffset = decide (a.target ≠ InvalidOffsetNumber) ∧
    a.record.allowPruning = true ∧ a.record.hasTupLen = decide (a.nowfixed ≠ []) := by
  rw [CleanRecord.hasOffset, CleanRecord.allowPruning, CleanRecord.hasTupLen, record_flags,
    flagBits, cleanFlags]
  by_cases ht : a.target = InvalidOffsetNumber <;> by_cases hf : a.nowfixed = [] <;>
    simp [ht, hf, XLZ_CLEAN_ALLOW_PRUNING, XLZ_CLEAN_CONTAINS_OFFSET, XLZ_CLEAN_CONTAINS_TUPLEN]

theorem record_main_fixed : ∃ fixed : List UInt8, fixed.length = SizeOfUHeapClean ∧
    a.record.main = fixed ++ (a.offsetPart ++ a.tupLenPart) := by
  refine ⟨toLe 8 a.latestRemovedXid ++ toLe 2 a.nowdeleted.length ++ toLe 2 a.nowdead.length ++
    toLe 1 a.flagBits, by simp [SizeOfUHeapClean], ?_⟩
  rw [record_main]
  simp only [append_assoc]

theorem record_targetOffnum : a.record.targetOffnum = a.target := by
  obtain ⟨fixed, hlen, hmain⟩ := a.record_main_fixed
  rw [CleanRecord.targetOffnum, a.record_bits.1]
  by_cases ht : a.target ≠ InvalidOffsetNumber
  · rw [if_pos (by simpa using ht), hmain, offsetPart, if_pos ht, append_assoc,
      slice_mid _ _ _ hlen (length_toLe _ _)]
    exact ofLe_toLe_of_lt a.target_lt
  · rw [if_neg (by simpa using ht)]
    exact (not_not.mp ht).symm

/-- The space is logged with a target only, and without one it does not
matter. -/
theorem repair_record_space : upageRepairFragmentation a.target a.record.spaceRequired =
      upageRepairFragmentation a.target a.spaceRequired := by
  funext p
  obtain ⟨fixed, hlen, hmain⟩ := a.record_main_fixed
  rw [CleanRecord.spaceRequired, a.record_bits.1]
  by_cases ht : a.target ≠ InvalidOffsetNumber
  · rw [if_pos (by simpa using ht), hmain, offsetPart, if_pos ht, append_assoc,
      ← append_assoc, slice_mid _ _ _ (by simp [hlen]) (length_toLe _ _),
      ofLe_toLe_of_lt a.space_lt]
  · rw [if_neg (by simpa using ht), not_not.mp ht]
    exact repair_noTarget_space p _ _

theorem record_unusedPos : a.record.unusedPos = SizeOfUHeapClean + a.offsetPart.length := by
  rw [CleanRecord.unusedPos, a.record_bits.1, offsetPart]
  by_cases ht : a.target ≠ InvalidOffsetNumber
  · rw [if_pos (by simpa using ht), if_pos ht]
    simp
  · rw [if_neg (by simpa using ht), if_neg ht]
    simp

theorem record_tupLenNunused (h : a.nowfixed ≠ []) :
    a.record.tupLenNunused = a.nowunused.length := by
  obtain ⟨fixed, hlen, hmain⟩ := a.record_main_fixed
  rw [CleanRecord.tupLenNunused, record_unusedPos, hmain, tupLenPart, if_pos h,
    ← append_assoc, slice_mid _ _ _ (by simp [hlen]) (length_toLe _ _)]
  exact ofLe_toLe_of_lt (a.unused_len.trans (by decide))

theorem record_tupLenNfixed (h : a.nowfixed ≠ []) : a.record.tupLenNfixed = a.nowfixed.length := by
  obtain ⟨fixed, hlen, hmain⟩ := a.record_main_fixed
  have hsplit : a.record.main = (fixed ++ a.offsetPart ++ toLe 4 a.nowunused.length) ++
      (toLe 2 a.nowfixed.length ++ []) := by
    rw [hmain, tupLenPart, if_pos h]
    simp only [append_assoc, List.append_nil]
  rw [CleanRecord.tupLenNfixed, record_unusedPos, hsplit,
    slice_mid _ _ _ (by simp [hlen, Nat.add_assoc]) (length_toLe _ _)]
  exact ofLe_toLe_of_lt a.fixed_len

/-! ### The arrays -/

theorem record_block : a.record.block =
    offsetBytes a.nowdeleted ++ (offsetBytes a.stale ++ (offsetBytes a.nowdead ++
      (offsetBytes a.nowunused ++ (offsetBytes (a.nowfixed.map Prod.fst) ++
        offsetBytes (a.nowfixed.map Prod.snd))))) := by
  simp only [record, logUHeapClean, append_assoc]

theorem record_block_length : a.record.block.length =
    2 * (a.nowdeleted.length * 2 + a.nowdead.length + a.nowunused.length +
      a.nowfixed.length * 2) := by
  rw [record_block]
  simp only [length_append, length_offsetBytes, a.stale_len, List.length_map]
  omega

/-- The lists the redo routines work with. -/
def pruneState : UPruneState where
  newPruneXid := InvalidTransactionId
  latestRemovedXid := InvalidTransactionId
  nowdeleted := a.nowdeleted
  nowdead := a.nowdead
  nowunused := a.nowunused
  nowfixed := a.nowfixed

/-- The arrays are read back from the places the counts give. -/
theorem readPruneState_record (nowfixed : Nat) (hnowfixed : a.nowfixed ≠ [] →
      nowfixed = a.nowdeleted.length * 2 + a.nowdead.length + a.nowunused.length) :
    readPruneState a.record a.nowunused.length nowfixed a.nowfixed.length = a.pruneState := by
  have hdeleted : readOffsets a.record.block 0 a.record.ndeleted = a.nowdeleted := by
    rw [record_block, record_ndeleted]
    exact readOffsets_mid [] rfl rfl a.deleted_lt
  have hdead : readOffsets a.record.block (a.record.ndeleted * 2) a.record.ndead = a.nowdead := by
    rw [record_block, record_ndeleted, record_ndead, ← append_assoc, ← offsetBytes_append]
    apply readOffsets_mid _ _ rfl a.dead_lt
    rw [length_append, a.stale_len]
    omega
  have hunused : readOffsets a.record.block (a.record.ndeleted * 2 + a.record.ndead)
      a.nowunused.length = a.nowunused := by
    rw [record_block, record_ndeleted, record_ndead, ← append_assoc, ← offsetBytes_append,
      ← append_assoc, ← offsetBytes_append]
    apply readOffsets_mid _ _ rfl a.unused_lt
    rw [length_append, length_append, a.stale_len]
    omega
  have hfixed : (readOffsets a.record.block nowfixed a.nowfixed.length).zip
      (readOffsets a.record.block (nowfixed + a.nowfixed.length) a.nowfixed.length) =
        a.nowfixed := by
    by_cases hf : a.nowfixed = []
    · simp [hf, readOffsets]
    have hfst : readOffsets a.record.block nowfixed a.nowfixed.length =
        a.nowfixed.map Prod.fst := by
      rw [record_block, ← append_assoc, ← offsetBytes_append, ← append_assoc,
        ← offsetBytes_append, ← append_assoc, ← offsetBytes_append]
      apply readOffsets_mid
      · rw [hnowfixed hf, length_append, length_append, length_append, a.stale_len]
        omega
      · rw [List.length_map]
      · exact List.forall_mem_map.mpr fun x hx => (a.fixed_lt x hx).1
    have hsnd : readOffsets a.record.block (nowfixed + a.nowfixed.length) a.nowfixed.length =
        a.nowfixed.map Prod.snd := by
      have hblock : a.record.block = offsetBytes (a.nowdeleted ++ a.stale ++ a.nowdead ++
          a.nowunused ++ a.nowfixed.map Prod.fst) ++
            (offsetBytes (a.nowfixed.map Prod.snd) ++ []) := by
        rw [record_block]
        simp only [offsetBytes_append, append_assoc, List.append_nil]
      rw [hblock]
      apply readOffsets_mid
      · rw [hnowfixed hf]
        simp only [length_append, List.length_map, a.stale_len]
        omega
      · rw [List.length_map]
      · exact List.forall_mem_map.mpr fun x hx => (a.fixed_lt x hx).2
    rw [hfst, hsnd]
    exact (List.zip_of_prod rfl rfl).symm
  rw [readPruneState, hdeleted, hdead, hunused, hfixed, pruneState]

/-- The offsets behind the deleted and dead rows. -/
theorem words_left : 2 * (a.nowdeleted.length * 2 + a.nowdead.length + a.nowunused.length +
      a.nowfixed.length * 2) / 2 - (a.nowdeleted.length * 2 + a.nowdead.length) =
    a.nowunused.length + a.nowfixed.length * 2 := by omega

/-- Both redo routines apply the lists the record was made from, then repair
the page for the same target and space. -/
theorem performCleanRedoAction_record (p : UPage) : performCleanRedoAction a.record p =
      (uheapPagePruneExecute true a.target a.pruneState p).bind
        (upageRepairFragmentation a.target a.spaceRequired) := by
  simp only [performCleanRedoAction, a.record_bits, record_targetOffnum,
    repair_record_space, record_ndeleted, record_ndead, if_true, record_block_length]
  by_cases hf : a.nowfixed = []
  · have hread := a.readPruneState_record (a.nowdeleted.length * 2 + a.nowdead.length)
      (fun hc => absurd hf hc)
    rw [words_left, hf, length_nil, Nat.zero_mul, Nat.add_zero]
    rw [hf, length_nil] at hread
    simp only [ne_eq, not_true_eq_false, decide_false, Bool.false_eq_true, if_false, hread]
    rfl
  · have hread := a.readPruneState_record _ (fun _ => rfl)
    simp only [hf, ne_eq, not_false_eq_true, decide_true, if_true, a.record_tupLenNunused hf,
      a.record_tupLenNfixed hf, hread]
    rfl

theorem uheapXlogCleanOperatorPage_record (p : UPage) : uheapXlogCleanOperatorPage a.record p =
      (uheapPagePruneExecute true a.target a.pruneState p).bind
        (upageRepairFragmentation a.target a.spaceRequired) := by
  by_cases hnone : a.record.block = []
  · -- no arrays: nothing to execute, only the repair
    have hlen := a.record_block_length
    rw [hnone, length_nil] at hlen
    have h1 : a.nowdeleted = [] := List.length_eq_zero_iff.mp (by omega)
    have h2 : a.nowdead = [] := List.length_eq_zero_iff.mp (by omega)
    have h3 : a.nowunused = [] := List.length_eq_zero_iff.mp (by omega)
    have h4 : a.nowfixed = [] := List.length_eq_zero_iff.mp (by omega)
    have hexec : uheapPagePruneExecute true a.target a.pruneState p = .ok p := by
      rw [uheapPagePruneExecute, pruneState, h1, h2, h3, h4]
      rfl
    rw [hexec]
    simp only [uheapXlogCleanOperatorPage, hnone, ne_eq, not_true_eq_false, if_false,
      a.record_bits, record_targetOffnum, repair_record_space, if_true]
    rfl
  · simp only [uheapXlogCleanOperatorPage, uheapXlogCleanOperatorPrunePage, ne_eq, hnone,
      not_false_eq_true, a.record_bits, record_targetOffnum, repair_record_space,
      record_ndeleted, record_ndead, if_true, record_block_length, words_left]
    by_cases hf : a.nowfixed = []
    · have hread := a.readPruneState_record
        (a.nowdeleted.length * 2 + a.nowdead.length + a.nowunused.length)
        (fun hc => absurd hf hc)
      rw [hf, length_nil] at hread
      simp only [hf, not_true_eq_false, decide_false, Bool.false_eq_true, if_false,
        Nat.lt_irrefl, length_nil, Nat.zero_mul, Nat.add_zero, hread]
      rfl
    · have hpos : 0 < a.nowfixed.length := List.length_pos_iff.mpr hf
      have hread := a.readPruneState_record _ (fun _ => rfl)
      simp only [hf, not_false_eq_true, decide_true, if_true, a.record_tupLenNunused hf,
        a.record_tupLenNfixed hf, hpos, hread]
      rfl

end CleanArgs

/-! ## The self-check accepts a well-formed page -/

section Verify

variable {p : UPage} {nextXid : Nat}

/-- What the self-check asks for beyond a well-formed page: the block size,
the number of slots, and that no xid is from the future. -/
structure VerifyReady (nextXid : Nat) (p : UPage) : Prop where
  special : p.pdSpecial = BLCKSZ
  freespace : p.potentialFreespace ≤ BLCKSZ
  slots : 0 < p.tdCount ∧ p.tdCount ≤ UHEAP_MAX_TD
  pruneXid : p.pdPruneXid ≤ nextXid
  slotXids : ∀ slot, p.tdXid slot ≤ nextXid

def rpSort (p : UPage) (off : Nat) : RpSort :=
  ⟨(p.rowPtr off).offset, (p.rowPtr off).offset + shortAlign (p.rowPtr off).len⟩

theorem collectRows_eq (h : p.WellFormed) (hv : VerifyReady nextXid p) {offs : List Nat}
    (hsub : ∀ off ∈ offs, off ∈ p.offsetNumbers) :
    collectRows nextXid p offs =
      .ok ((offs.filter fun off => (p.rowPtr off).isNormal).map (rpSort p)) := by
  induction offs with
  | nil => rfl
  | cons off offs ih =>
    have hrest := ih fun o ho => hsub o (.tail _ ho)
    have hin := hsub off (.head _)
    simp only [collectRows]
    by_cases hnormal : (p.rowPtr off).isNormal = true
    · have hrow := h.normal_hasRow hin hnormal
      have hinside := h.inside off hin hrow
      have haligned := h.aligned_le hin hrow
      rw [if_pos hnormal, if_neg (by omega), hrest,
        List.filter_cons_of_pos (by exact hnormal), List.map_cons]
      rfl
    · rw [if_neg hnormal, List.filter_cons_of_neg (by exact hnormal)]
      by_cases hdel : (p.rowPtr off).isDeleted = true
      · have hslot := h.deleted_slot off hin hdel
        have hxid := hv.slotXids (p.rowPtr off).tdSlot
        rw [if_pos hdel, if_neg (by simp only [UHEAPTUP_SLOT_FROZEN]; omega),
          if_neg (by omega), if_neg (by omega), hrest]
      · rw [if_neg hdel, hrest]

theorem rowsApart_of_pairwise {rows : List RpSort}
    (h : rows.Pairwise fun a b => a.stop ≤ b.start) : rowsApart rows = true := by
  induction rows with
  | nil => rfl
  | cons a rows ih =>
    obtain ⟨ha, hrows⟩ := List.pairwise_cons.mp h
    cases rows with
    | nil => rfl
    | cons b rows =>
      have hab := ha b (.head _)
      simp [rowsApart, hab, ih hrows]

/-- In the order of their starts, rows that do not overlap follow each other. -/
theorem rowsApart_rows (h : p.WellFormed) :
    rowsApart (((p.offsetNumbers.filter fun off => (p.rowPtr off).isNormal).map
      (rpSort p)).insertionSort fun a b => a.start ≤ b.start) = true := by
  set rows := (p.offsetNumbers.filter fun off => (p.rowPtr off).isNormal).map (rpSort p)
  have hsym : ∀ a b : RpSort, (a.stop ≤ b.start ∨ b.stop ≤ a.start) →
      (b.stop ≤ a.start ∨ a.stop ≤ b.start) := fun _ _ hab => hab.symm
  have hapart : rows.Pairwise fun a b => a.stop ≤ b.start ∨ b.stop ≤ a.start := by
    refine List.pairwise_map.mpr
      ((p.nodup_offsetNumbers.filter (fun off => (p.rowPtr off).isNormal)).imp_of_mem ?_)
    intro i j hi hj hne
    obtain ⟨hi, hin⟩ := List.mem_filter.mp hi
    obtain ⟨hj, hjn⟩ := List.mem_filter.mp hj
    have hri := h.normal_hasRow hi hin
    have hrj := h.normal_hasRow hj hjn
    rcases Nat.le_total (p.rowPtr j).offset (p.rowPtr i).offset with hle | hle
    · exact .inr (h.aligned_disjoint hi hj hne hri hrj hle)
    · exact .inl (h.aligned_disjoint hj hi (Ne.symm hne) hrj hri hle)
  have hpos : ∀ r ∈ rows, r.start < r.stop := by
    intro r hr
    obtain ⟨off, hoff, rfl⟩ := List.mem_map.mp hr
    obtain ⟨hin, hnormal⟩ := List.mem_filter.mp hoff
    have hlen := (h.normal_len off hin hnormal).1
    have := le_shortAlign (p.rowPtr off).len
    simp only [SizeOfUHeapDiskTupleData] at hlen
    simp only [rpSort]
    omega
  have hperm := List.perm_insertionSort (fun a b : RpSort => a.start ≤ b.start) rows
  have hsorted : (rows.insertionSort fun a b => a.start ≤ b.start).Pairwise
      fun a b => a.start ≤ b.start := by
    have : Std.Total fun a b : RpSort => a.start ≤ b.start :=
      ⟨fun a b => Nat.le_total a.start b.start⟩
    have : IsTrans RpSort fun a b => a.start ≤ b.start := ⟨fun a b c => Nat.le_trans⟩
    exact List.pairwise_insertionSort _ _
  apply rowsApart_of_pairwise
  refine (hsorted.and ((hperm.pairwise_iff @hsym).mpr hapart)).imp_of_mem ?_
  rintro a b _ hb ⟨hle, hab⟩
  have := hpos b (hperm.mem_iff.mp hb)
  omega

theorem upageVerify_ok (level : VerifyLevel) (h : p.WellFormed) (hv : VerifyReady nextXid p) :
    upageVerify level nextXid p = .ok () := by
  have hheader : upageVerifyHeader nextXid p = .ok () := by
    have := h.lower_ge
    have := h.lower_le
    have := h.upper_le
    have := hv.special
    have := hv.freespace
    have := hv.slots
    have := hv.pruneXid
    rw [upageVerifyHeader, if_neg (by omega), if_neg (by omega), if_neg (by omega)]
  cases level with
  | none => rfl
  | fast => exact hheader
  | complete =>
    have hrows := collectRows_eq h hv fun off (hoff : off ∈ p.offsetNumbers) => hoff
    simp only [upageVerify, hheader, upageVerifyAllRowptr, hrows, bind, Except.bind]
    rw [if_pos (rowsApart_rows h)]

end Verify

end OpenGauss.Ustore
