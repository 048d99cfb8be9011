import OpenGauss.Undo.RecordWrite
import OpenGauss.Undo.RecycleSafe

/-!
# Walking back through the undo log

A record ends with its length, so the record before a position is found by reading the
two bytes in front of it. `Prevurp` subtracts that length and the size of one page
header if the record did not begin on the same page. Two headers can lie inside a record
only if it has the part for a switched zone, which is never written: outside recovery a
switch of zones is an error, and recovery repeats what was logged.
-/

namespace OpenGauss.Undo

open Lib

variable {pages : UndoZonePages} {blk start k m n o : Nat} {bs : List UInt8}

/-! ## The source -/

/-- The loop of `GetPrevRecordLen`: the `n` bytes before `pageOffset`, of which those before
the first usable byte are at the end of the page before. -/
def readBack (pages : UndoZonePages) : Nat → Nat → Nat → List UInt8
  | 0, _, _ => []
  | n + 1, blk, pageOffset =>
    if UNDO_LOG_BLOCK_HEADER_SIZE ≤ pageOffset - 1 then
      readBack pages n blk (pageOffset - 1) ++ [pages blk (pageOffset - 1)]
    else
      readBack pages n (blk - 1) (BLCKSZ - 1) ++ [pages (blk - 1) (BLCKSZ - 1)]

/-- `GetPrevRecordLen`, a `uint16`; a length of zero is a panic. -/
def getPrevRecordLen (pages : UndoZonePages) (currUrp : Nat) : Option Nat :=
  let pageOffset := undoPtrGetPageOffset currUrp
  let prevLen := ofLe (readBack pages 2 (undoPtrGetBlockNum currUrp) pageOffset)
  let precRecLen :=
    if pageOffset - UNDO_LOG_BLOCK_HEADER_SIZE < prevLen then
      (prevLen + UNDO_LOG_BLOCK_HEADER_SIZE) % 2 ^ 16
    else prevLen
  if precRecLen = 0 then none else some precRecLen

/-- `UndoRecord::Prevurp` of the record at `currUrp`. -/
def UndoRecord.prevUrp (urec : UndoRecord) (pages : UndoZonePages) (currUrp : Nat) : Option Nat :=
  if urec.prevurp ≠ INVALID_UNDO_REC_PTR then some urec.prevurp.toNat
  else (getPrevRecordLen pages currUrp).map fun prevLen =>
    makeUndoPtr (undoPtrGetZoneId currUrp) (undoPtrGetOffset currUrp - prevLen)

/-! ## Usable bytes -/

theorem undoPage_sizes : UNDO_LOG_USABLE_BYTES_PER_PAGE = 8168 ∧
    UNDO_LOG_BLOCK_HEADER_SIZE = 24 ∧ BLCKSZ = 8192 :=
  ⟨rfl, rfl, rfl⟩

/-- The usable byte `k` of a zone. -/
def usableByte (pages : UndoZonePages) (k : Nat) : UInt8 :=
  pages (k / UNDO_LOG_USABLE_BYTES_PER_PAGE)
    (UNDO_LOG_BLOCK_HEADER_SIZE + k % UNDO_LOG_USABLE_BYTES_PER_PAGE)

theorem readBack_succ (pages : UndoZonePages) (n k : Nat) :
    readBack pages (n + 1) ((k + 1) / UNDO_LOG_USABLE_BYTES_PER_PAGE)
        (UNDO_LOG_BLOCK_HEADER_SIZE + (k + 1) % UNDO_LOG_USABLE_BYTES_PER_PAGE) =
      readBack pages n (k / UNDO_LOG_USABLE_BYTES_PER_PAGE)
        (UNDO_LOG_BLOCK_HEADER_SIZE + k % UNDO_LOG_USABLE_BYTES_PER_PAGE) ++
        [usableByte pages k] := by
  obtain ⟨husable, hheader, hsize⟩ := undoPage_sizes
  rw [readBack, usableByte, husable, hheader, hsize]
  by_cases h : 24 ≤ 24 + (k + 1) % 8168 - 1
  · have hblk : (k + 1) / 8168 = k / 8168 := by omega
    have hoff : 24 + (k + 1) % 8168 - 1 = 24 + k % 8168 := by omega
    rw [if_pos h, hblk, hoff]
  · have hblk : (k + 1) / 8168 - 1 = k / 8168 := by omega
    have hoff : 8192 - 1 = 24 + k % 8168 := by omega
    rw [if_neg h, hblk, hoff]

theorem usableByte_eq (pages : UndoZonePages) (blk i : Nat)
    (hge : UNDO_LOG_BLOCK_HEADER_SIZE ≤ start) (hi : start + i < BLCKSZ) :
    usableByte pages (blk * UNDO_LOG_USABLE_BYTES_PER_PAGE +
      (start - UNDO_LOG_BLOCK_HEADER_SIZE) + i) = pages blk (start + i) := by
  obtain ⟨husable, hheader, hsize⟩ := undoPage_sizes
  rw [hheader] at hge
  rw [hsize] at hi
  rw [usableByte, husable, hheader]
  congr 1 <;> omega

theorem Tiled.usableByte (h : Tiled pages blk start bs) (hge : UNDO_LOG_BLOCK_HEADER_SIZE ≤ start)
    (hle : start ≤ BLCKSZ) {i : Nat} (hi : i < bs.length) :
    some (usableByte pages (blk * UNDO_LOG_USABLE_BYTES_PER_PAGE +
      (start - UNDO_LOG_BLOCK_HEADER_SIZE) + i)) = bs[i]? := by
  induction h generalizing i with
  | @last blk start bs hfit hread =>
    rw [usableByte_eq pages blk i hge (by omega), ← hread, Mem.getElem?_read, if_pos hi]
  | @next blk start bs hlong hread htail ih =>
    by_cases hfirst : i < BLCKSZ - start
    · have hbyte := congrArg (fun l => l[i]?) hread
      simp only [Mem.getElem?_read, if_pos hfirst, List.getElem?_take] at hbyte
      rw [usableByte_eq pages blk i hge (by omega), hbyte]
    have hrest := ih le_rfl (by decide)
      (show i - (BLCKSZ - start) < _ by rw [List.length_drop]; omega)
    rw [List.getElem?_drop, Nat.add_sub_cancel' (Nat.not_lt.mp hfirst)] at hrest
    rw [← hrest]
    refine congrArg (fun k => some (Undo.usableByte pages k)) ?_
    obtain ⟨husable, hheader, hsize⟩ := undoPage_sizes
    rw [hheader] at hge
    rw [hsize] at hle hfirst
    rw [husable, hheader, hsize]
    omega

theorem usableByteNo_eq (urp : Nat) : undoPtrGetBlockNum urp * UNDO_LOG_USABLE_BYTES_PER_PAGE +
      (undoPtrGetPageOffset urp - UNDO_LOG_BLOCK_HEADER_SIZE) =
        undoLogOffsetToUsableByteNo (undoPtrGetOffset urp) :=
  Nat.add_comm _ _

/-- The length of a record is read in front of its end. -/
theorem readBack_length (r : StorableRecord) (pos : UndoPos) (pages : UndoZonePages) {v : Nat}
    (hv : undoLogOffsetToUsableByteNo (undoPtrGetOffset pos.urp) + r.urec.recordSize = v) :
    ofLe (readBack (insertPreparedUndo r.urec pos.urp pages).pages 2
      (v / UNDO_LOG_USABLE_BYTES_PER_PAGE)
      (UNDO_LOG_BLOCK_HEADER_SIZE + v % UNDO_LOG_USABLE_BYTES_PER_PAGE)) = r.urec.recordSize := by
  have hbyte := fun i hi => (insertPreparedUndo_spec r pos pages).1.tiled.usableByte pos.past_header
    ((undoPtrGetPageOffset_lt _).le) (show i < _ from hi)
  rw [usableByteNo_eq] at hbyte
  generalize undoLogOffsetToUsableByteNo (undoPtrGetOffset pos.urp) = u at hv hbyte
  have hlen := r.length_flat r.urec.recordSize
  rw [r.flat_eq, ← List.append_assoc] at hbyte hlen
  generalize r.urec.fixedBytes ++ r.urec.payloadBytes = front at hbyte hlen
  rw [List.length_append, length_toLe] at hbyte hlen
  obtain rfl : v = u + front.length + 1 + 1 := by omega
  rw [readBack_succ, readBack_succ, readBack, List.nil_append, List.singleton_append]
  have hlow := hbyte front.length (by omega)
  have hhigh := hbyte (front.length + 1) (by omega)
  rw [List.getElem?_append_right (by omega), Nat.sub_self] at hlow
  rw [List.getElem?_append_right (by omega), Nat.add_sub_cancel_left] at hhigh
  rw [Option.some.inj hlow, Nat.add_assoc u, Option.some.inj hhigh]
  exact ofLe_toLe_of_lt (show r.urec.recordSize < 256 ^ 2 from Nat.mod_lt _ (by decide))

/-! ## Positions -/

theorem undoLogOffset_round (i : Nat) :
    undoLogOffsetFromUsableByteNo i / BLCKSZ = i / UNDO_LOG_USABLE_BYTES_PER_PAGE ∧
      undoLogOffsetFromUsableByteNo i % BLCKSZ =
        UNDO_LOG_BLOCK_HEADER_SIZE + i % UNDO_LOG_USABLE_BYTES_PER_PAGE ∧
      undoLogOffsetToUsableByteNo (undoLogOffsetFromUsableByteNo i) = i := by
  simp only [undoLogOffsetToUsableByteNo, undoLogOffsetFromUsableByteNo,
    UNDO_LOG_USABLE_BYTES_PER_PAGE, BLCKSZ, UNDO_LOG_BLOCK_HEADER_SIZE, SizeOfPageHeaderData]
  omega

theorem UndoPos.offset_eq (pos : UndoPos) : undoLogOffsetFromUsableByteNo
    (undoLogOffsetToUsableByteNo (undoPtrGetOffset pos.urp)) = undoPtrGetOffset pos.urp := by
  have h := pos.past_header
  unfold undoPtrGetPageOffset at h
  generalize undoPtrGetOffset pos.urp = o at h ⊢
  simp only [undoLogOffsetToUsableByteNo, undoLogOffsetFromUsableByteNo,
    UNDO_LOG_USABLE_BYTES_PER_PAGE, BLCKSZ, UNDO_LOG_BLOCK_HEADER_SIZE, SizeOfPageHeaderData] at h ⊢
  omega

theorem makeUndoPtr_self (urp : Nat) :
    makeUndoPtr (undoPtrGetZoneId urp) (undoPtrGetOffset urp) = urp := by
  have hlt : undoPtrGetOffset urp < 2 ^ UNDO_LOG_OFFSET_BITS := Nat.mod_lt _ (Nat.two_pow_pos _)
  rw [makeUndoPtr_eq hlt]
  exact Nat.div_add_mod' urp _

theorem advanceUndoPtr_parts (hzone : undoLogOffsetPlusUsableBytes o n < 2 ^ UNDO_LOG_OFFSET_BITS)
    {urp : Nat} (ho : undoPtrGetOffset urp = o) :
    undoPtrGetZoneId (advanceUndoPtr urp n) = undoPtrGetZoneId urp ∧
      undoPtrGetOffset (advanceUndoPtr urp n) = undoLogOffsetPlusUsableBytes o n := by
  unfold advanceUndoPtr
  rw [ho]
  exact ⟨undoPtrGetZoneId_make hzone, undoPtrGetOffset_make hzone⟩

theorem undoLogOffsetFromUsableByteNo_lt {i j : Nat} (h : i < j) :
    undoLogOffsetFromUsableByteNo i < undoLogOffsetFromUsableByteNo j := by
  simp only [undoLogOffsetFromUsableByteNo, UNDO_LOG_USABLE_BYTES_PER_PAGE, BLCKSZ,
    UNDO_LOG_BLOCK_HEADER_SIZE, SizeOfPageHeaderData]
  omega

theorem StorableRecord.recordSize_bounds (r : StorableRecord) :
    38 ≤ r.urec.recordSize ∧ r.urec.recordSize ≤ 8174 := by
  have hlt := r.rawdata_lt
  unfold UndoRecord.recordSize
  simp only [UndoPart.size]
  split_ifs <;> omega

/-- The `n` usable bytes from a position on end inside its zone. -/
def UndoPos.InZone (pos : UndoPos) (n : Nat) : Prop :=
  undoLogOffsetPlusUsableBytes (undoPtrGetOffset pos.urp) n < 2 ^ UNDO_LOG_OFFSET_BITS

/-- At most one page header lies among the `n` usable bytes from a position on. -/
def UndoPos.OneHeader (pos : UndoPos) (n : Nat) : Prop :=
  n ≤ UNDO_LOG_USABLE_BYTES_PER_PAGE +
    (undoPtrGetPageOffset (advanceUndoPtr pos.urp n) - UNDO_LOG_BLOCK_HEADER_SIZE)

/-- Without the transaction part a record is shorter than the room of a page. -/
theorem StorableRecord.oneHeader (r : StorableRecord) (pos : UndoPos)
    (htxn : r.urec.hasInfo UNDO_UREC_INFO_TRANSAC = false) : pos.OneHeader r.urec.recordSize := by
  have hlt := r.rawdata_lt
  have hsize : r.urec.recordSize ≤ UNDO_LOG_USABLE_BYTES_PER_PAGE := by
    rw [undoPage_sizes.1]
    unfold UndoRecord.recordSize
    rw [htxn, if_neg Bool.false_ne_true]
    simp only [UndoPart.size]
    split_ifs <;> omega
  exact hsize.trans (Nat.le_add_right _ _)

variable (r : StorableRecord) (pos : UndoPos) (pages : UndoZonePages) (next : UndoRecord)

/-- One header is stepped over, so the way back is right if the record has no more inside. -/
theorem UndoRecord.prevUrp_iff (hnext : next.prevurp = INVALID_UNDO_REC_PTR)
    (hzone : pos.InZone r.urec.recordSize) :
    next.prevUrp (insertPreparedUndo r.urec pos.urp pages).pages
      (advanceUndoPtr pos.urp r.urec.recordSize) = some pos.urp ↔
        pos.OneHeader r.urec.recordSize := by
  obtain ⟨hzid, hoff⟩ := advanceUndoPtr_parts hzone rfl
  have hlen := readBack_length r pos pages rfl
  have hself := pos.offset_eq
  obtain ⟨hmin, hmax⟩ := r.recordSize_bounds
  unfold UndoPos.InZone undoLogOffsetPlusUsableBytes at hzone
  unfold undoLogOffsetPlusUsableBytes at hoff
  obtain ⟨hblk, hpage, -⟩ :=
    undoLogOffset_round (undoLogOffsetToUsableByteNo (undoPtrGetOffset pos.urp) + r.urec.recordSize)
  have hback (d : Nat) : makeUndoPtr (undoPtrGetZoneId pos.urp) (undoLogOffsetFromUsableByteNo
      (undoLogOffsetToUsableByteNo (undoPtrGetOffset pos.urp) + r.urec.recordSize) - d) = pos.urp ↔
      undoLogOffsetFromUsableByteNo (undoLogOffsetToUsableByteNo (undoPtrGetOffset pos.urp) +
        r.urec.recordSize) - d = undoPtrGetOffset pos.urp := by
    constructor
    · intro h
      rw [← undoPtrGetOffset_make ((Nat.sub_le _ d).trans_lt hzone), h]
    · intro h
      rw [h, makeUndoPtr_self]
  rw [UndoPos.OneHeader, UndoRecord.prevUrp, if_neg (not_not.mpr hnext), getPrevRecordLen,
    undoPtrGetPageOffset,
    undoPtrGetBlockNum, hoff, hzid, hblk, hpage, hlen]
  obtain ⟨husable, hheader, hsize⟩ := undoPage_sizes
  rw [if_neg (by rw [hheader]; split_ifs <;> omega), Option.map_some, Option.some_inj, hback]
  generalize undoLogOffsetToUsableByteNo (undoPtrGetOffset pos.urp) = u at hself ⊢
  generalize r.urec.recordSize = n at hmin hmax ⊢
  rw [← hself, Nat.add_sub_cancel_left, undoLogOffsetFromUsableByteNo,
    undoLogOffsetFromUsableByteNo, husable, hheader, hsize]
  clear hback
  split_ifs <;> omega

/-- The record before a position is found, however its length is split; and advancing adds up,
grows and stays off the headers. -/
theorem prevUrp_advance (htxn : r.urec.hasInfo UNDO_UREC_INFO_TRANSAC = false)
    (hnext : next.prevurp = INVALID_UNDO_REC_PTR) (hzone : pos.InZone r.urec.recordSize) :
    next.prevUrp (insertPreparedUndo r.urec pos.urp pages).pages
      (advanceUndoPtr pos.urp r.urec.recordSize) = some pos.urp ∧
      ∀ m k, pos.InZone (m + k) →
        advanceUndoPtr (advanceUndoPtr pos.urp m) k = advanceUndoPtr pos.urp (m + k) ∧
          (0 < k → advanceUndoPtr pos.urp m < advanceUndoPtr pos.urp (m + k)) ∧
          UNDO_LOG_BLOCK_HEADER_SIZE ≤ undoPtrGetPageOffset (advanceUndoPtr pos.urp (m + k)) := by
  refine ⟨(UndoRecord.prevUrp_iff r pos pages next hnext hzone).mpr (r.oneHeader pos htxn),
    fun m k hsum => ?_⟩
  have hm : pos.InZone m := by
    rcases Nat.eq_zero_or_pos k with rfl | hk
    · exact hsum
    · exact (undoLogOffsetFromUsableByteNo_lt (by omega)).trans hsum
  obtain ⟨hzid, hoff⟩ := advanceUndoPtr_parts hm rfl
  obtain ⟨-, hoff'⟩ := advanceUndoPtr_parts hsum rfl
  refine ⟨?_, fun hk => ?_, ?_⟩
  · rw [advanceUndoPtr, hzid, hoff, undoLogOffsetPlusUsableBytes, undoLogOffsetPlusUsableBytes,
      (undoLogOffset_round _).2.2, Nat.add_assoc]
    rfl
  · refine (makeUndoPtr_lt_iff hm hsum).mpr (undoLogOffsetFromUsableByteNo_lt ?_)
    omega
  · rw [undoPtrGetPageOffset, hoff', undoLogOffsetPlusUsableBytes, (undoLogOffset_round _).2.1]
    exact Nat.le_add_right _ _

/-- The shortest record, written so that the second byte of its length is on the next page. -/
theorem prevUrp_advance_split :
    UndoRecord.init.prevUrp (insertPreparedUndo UndoRecord.init 8155 fun _ _ => 0).pages
      (advanceUndoPtr 8155 UndoRecord.init.recordSize) = some 8155 := by
  have hsize : UndoRecord.init.recordSize = 38 := rfl
  refine (prevUrp_advance ⟨UndoRecord.init, by decide⟩ ⟨8155, by omega, by decide⟩ _ _ rfl rfl ?_).1
  unfold UndoPos.InZone
  rw [hsize]
  decide

end OpenGauss.Undo
