import OpenGauss.Undo.RecordIo

/-!
# What the undo writer leaves on the pages

One `Append` puts the next bytes of the record's flat form on the page, as
many as fit (`insertUndoParts_spec`). Over the reserved pages that is the
whole form, tiled over the usable bytes (`insertUndoPages_spec`), and the
writer stops at the usable byte that the division formula of
`AdvanceUndoPtr` names (`advanceUndoPtr_eq`).
-/

namespace OpenGauss.Undo

open Lib
open Function (update update_self update_of_ne)
open UndoPart (size stored)
open List (length_append length_drop)

/-! ## One page of writing -/

/-- One `Append` from byte `myBytesWritten` on: the page gets what fits of the
rest, and the answer says whether that was all. -/
theorem insertUndoParts_spec (parts : List (List UInt8)) (w : PageWriter)
    (hw : w.writeptr ≤ BLCKSZ) (hskip : w.myBytesWritten ≤ parts.flatten.length) :
    (insertUndoParts parts w).1 =
        decide ((parts.flatten.drop w.myBytesWritten).length ≤ BLCKSZ - w.writeptr) ∧
      (insertUndoParts parts w).2.page = w.page.write w.writeptr
        ((parts.flatten.drop w.myBytesWritten).take (BLCKSZ - w.writeptr)) ∧
      (insertUndoParts parts w).2.writeptr = w.writeptr +
        min (parts.flatten.drop w.myBytesWritten).length (BLCKSZ - w.writeptr) ∧
      (insertUndoParts parts w).2.alreadyWritten = w.alreadyWritten +
        min (parts.flatten.drop w.myBytesWritten).length (BLCKSZ - w.writeptr) := by
  induction parts generalizing w with
  | nil =>
    simp [insertUndoParts]
  | cons src rest ih =>
    rw [List.flatten_cons] at hskip ⊢
    rw [length_append] at hskip
    by_cases hdone : src.length ≤ w.myBytesWritten
    · -- the part was written on an earlier page
      have hstep : insertUndoBytes src w =
          (true, { w with myBytesWritten := w.myBytesWritten - src.length }) := by
        rw [insertUndoBytes, if_pos hdone]
      have hdrop : (src ++ rest.flatten).drop w.myBytesWritten =
          rest.flatten.drop (w.myBytesWritten - src.length) := by
        rw [List.drop_append, List.drop_of_length_le hdone, List.nil_append]
      rw [insertUndoParts, hstep, hdrop]
      exact ih { w with myBytesWritten := w.myBytesWritten - src.length } hw
        (show w.myBytesWritten - src.length ≤ rest.flatten.length by omega)
    have hdrop : (src ++ rest.flatten).drop w.myBytesWritten =
        src.drop w.myBytesWritten ++ rest.flatten :=
      List.drop_append_of_le_length (by omega)
    have hlen : (src.drop w.myBytesWritten).length = src.length - w.myBytesWritten :=
      length_drop
    rw [hdrop]
    generalize hd : src.drop w.myBytesWritten = d at hlen
    by_cases hfit : d.length ≤ BLCKSZ - w.writeptr
    · -- the part ends on this page
      have hstep : insertUndoBytes src w = (true,
          { page := w.page.write w.writeptr d
            writeptr := w.writeptr + d.length
            myBytesWritten := 0
            alreadyWritten := w.alreadyWritten + d.length }) := by
        rw [insertUndoBytes, if_neg hdone]
        simp only [hd, ← hlen, Nat.min_eq_left hfit]
        rw [if_neg (by omega), List.take_length]
        simp
      have hrest := ih (insertUndoBytes src w).2
      rw [hstep] at hrest
      obtain ⟨h1, h2, h3, h4⟩ := hrest (show w.writeptr + d.length ≤ BLCKSZ by omega) (Nat.zero_le _)
      simp only [List.drop_zero] at h1 h2 h3 h4
      have htake : (d ++ rest.flatten).take (BLCKSZ - w.writeptr) =
          d ++ rest.flatten.take (BLCKSZ - (w.writeptr + d.length)) := by
        rw [List.take_append, List.take_of_length_le hfit, Nat.sub_sub]
      rw [insertUndoParts, hstep]
      refine ⟨?_, ?_, ?_, ?_⟩
      · rw [h1, length_append]
        exact decide_eq_decide.mpr (by omega)
      · rw [h2, htake, ← Mem.write_write_append]
      · rw [h3, length_append]
        omega
      · rw [h4, length_append]
        omega
    · -- the page ends inside the part
      have hstop : insertUndoParts (src :: rest) w = insertUndoBytes src w := by
        have hfalse : (insertUndoBytes src w).1 = false := by
          rw [insertUndoBytes, if_neg hdone]
          simp only [← hlen, Nat.min_eq_right (Nat.le_of_not_le hfit)]
          split
          · rfl
          · exact beq_false_of_ne (by omega)
        rw [insertUndoParts]
        generalize insertUndoBytes src w = r at hfalse
        obtain ⟨done, w'⟩ := r
        cases hfalse
        rfl
      have htake : (d ++ rest.flatten).take (BLCKSZ - w.writeptr) = d.take (BLCKSZ - w.writeptr) :=
        List.take_append_of_le_length (by omega)
      have hmore := Nat.le_add_right d.length rest.flatten.length
      rw [← length_append] at hmore
      rw [hstop, htake, Nat.min_eq_right (by omega), decide_eq_false (by omega), insertUndoBytes,
        if_neg hdone]
      simp only [hd, ← hlen, Nat.min_eq_right (Nat.le_of_not_le hfit)]
      by_cases hroom : BLCKSZ - w.writeptr = 0
      · rw [if_pos hroom, hroom]
        simp
      · rw [if_neg hroom]
        exact ⟨beq_false_of_ne (by omega), rfl, rfl, rfl⟩

/-! ## Records on pages -/

/-- `bs` lies on the usable bytes of the zone from `start` on page `blk` on. -/
inductive Tiled (pages : UndoZonePages) : Nat → Nat → List UInt8 → Prop
  | last {blk start bs} : bs.length ≤ BLCKSZ - start →
      (pages blk).read start bs.length = bs → Tiled pages blk start bs
  | next {blk start bs} : BLCKSZ - start < bs.length →
      (pages blk).read start (BLCKSZ - start) = bs.take (BLCKSZ - start) →
      Tiled pages (blk + 1) UNDO_LOG_BLOCK_HEADER_SIZE (bs.drop (BLCKSZ - start)) →
      Tiled pages blk start bs

theorem Tiled.read_front {pages : UndoZonePages} {blk start n : Nat} {bs : List UInt8}
    (h : Tiled pages blk start bs) (hn : n ≤ BLCKSZ - start) (hlen : n ≤ bs.length) :
    (pages blk).read start n = bs.take n := by
  have hcut : ∀ k, n ≤ k → (pages blk).read start n = ((pages blk).read start k).take n := by
    intro k hk
    rw [Mem.take_read, Nat.min_eq_left hk]
  cases h with
  | last hfit hread => rw [hcut _ hlen, hread]
  | next hfit hread _ => rw [hcut _ hn, hread, List.take_take, Nat.min_eq_left hn]

theorem Tiled.tail {pages : UndoZonePages} {blk start : Nat} {bs : List UInt8}
    (h : Tiled pages blk start bs) (hlong : BLCKSZ - start < bs.length) :
    Tiled pages (blk + 1) UNDO_LOG_BLOCK_HEADER_SIZE (bs.drop (BLCKSZ - start)) := by
  cases h with
  | last hfit _ => omega
  | next _ _ htail => exact htail

variable (urec : UndoRecord)

/-- The bytes of a record as `Append` stores them. -/
def UndoRecord.flat (undoLen : Nat) : List UInt8 :=
  (urec.appendParts undoLen).flatten

/-- What one call of `Append` from byte `already` on leaves. -/
theorem appendToPage_spec (page : Mem) {start already undoLen : Nat}
    (hstart : start ≤ BLCKSZ) (halready : already ≤ (urec.flat undoLen).length) :
    (urec.appendToPage page start already undoLen).1 =
        decide ((urec.flat undoLen).length - already ≤ BLCKSZ - start) ∧
      (urec.appendToPage page start already undoLen).2.page =
        page.write start (((urec.flat undoLen).drop already).take (BLCKSZ - start)) ∧
      (urec.appendToPage page start already undoLen).2.writeptr =
        start + min ((urec.flat undoLen).length - already) (BLCKSZ - start) ∧
      (urec.appendToPage page start already undoLen).2.alreadyWritten =
        already + min ((urec.flat undoLen).length - already) (BLCKSZ - start) := by
  have h := insertUndoParts_spec (urec.appendParts undoLen) ⟨page, start, already, already⟩
    hstart halready
  simp only [length_drop] at h
  exact h

/-- What the page loop leaves of a zone: the rest of the record from
`already` on is tiled from the starting byte, no page header and no earlier
page is touched, and the loop stops at the usable byte behind the record. -/
structure Inserted (pages : UndoZonePages) (blk start : Nat) (rest : List UInt8)
    (r : InsertResult) : Prop where
  complete : r.complete = true
  tiled : Tiled r.pages blk start rest
  header : ∀ b i, i < UNDO_LOG_BLOCK_HEADER_SIZE → r.pages b i = pages b i
  earlier : ∀ b, b < blk → r.pages b = pages b
  writeptr_ge : UNDO_LOG_BLOCK_HEADER_SIZE ≤ r.writeptr
  writeptr_le : r.writeptr ≤ BLCKSZ
  usable : r.blk * UNDO_LOG_USABLE_BYTES_PER_PAGE + (r.writeptr - UNDO_LOG_BLOCK_HEADER_SIZE) =
    blk * UNDO_LOG_USABLE_BYTES_PER_PAGE + (start - UNDO_LOG_BLOCK_HEADER_SIZE) + rest.length

theorem update_page_header (pages : UndoZonePages) (blk start : Nat) (bs : List UInt8)
    (hge : UNDO_LOG_BLOCK_HEADER_SIZE ≤ start) (b i : Nat) (hi : i < UNDO_LOG_BLOCK_HEADER_SIZE) :
    update pages blk ((pages blk).write start bs) b i = pages b i := by
  by_cases hb : b = blk
  · subst hb
    rw [update_self]
    exact Mem.write_of_not_mem (.inl (by omega))
  · rw [update_of_ne hb]

theorem insertUndoPages_last (undoLen buffers : Nat) (pages : UndoZonePages)
    (blk : Nat) {start already : Nat} (hge : UNDO_LOG_BLOCK_HEADER_SIZE ≤ start)
    (hle : start ≤ BLCKSZ) (halready : already ≤ (urec.flat undoLen).length)
    (hfit : (urec.flat undoLen).length - already ≤ BLCKSZ - start) :
    Inserted pages blk start ((urec.flat undoLen).drop already)
        (insertUndoPages urec undoLen (buffers + 1) pages blk start already) ∧
      (insertUndoPages urec undoLen (buffers + 1) pages blk start already).alreadyWritten =
        (urec.flat undoLen).length := by
  obtain ⟨hdone, hpage, hptr, hcount⟩ := appendToPage_spec urec (pages blk) hle halready
  have hlen : ((urec.flat undoLen).drop already).length = (urec.flat undoLen).length - already :=
    length_drop
  rw [decide_eq_true hfit] at hdone
  rw [List.take_of_length_le (by omega)] at hpage
  rw [Nat.min_eq_left hfit] at hptr hcount
  rw [insertUndoPages]
  generalize urec.appendToPage (pages blk) start already undoLen = out at *
  obtain ⟨done, w⟩ := out
  simp only at hdone hpage hptr hcount
  subst hdone
  refine ⟨⟨rfl, .last (by omega) ?_, ?_, ?_, ?_, ?_, ?_⟩, ?_⟩
  · simp only [update_self, hpage, Mem.read_write_self]
  · simp only [hpage]
    exact update_page_header pages blk start _ hge
  · intro b hb
    exact update_of_ne (by omega) _ _
  · simp only [hptr]
    omega
  · simp only [hptr]
    omega
  · simp only [hptr, hlen]
    omega
  · simp only [hcount]
    omega

/-- The run of the page loop, by induction on the buffers left. -/
theorem insertUndoPages_spec (undoLen : Nat) (buffers : Nat) :
    ∀ (pages : UndoZonePages) (blk start already : Nat),
    UNDO_LOG_BLOCK_HEADER_SIZE ≤ start → start ≤ BLCKSZ →
    already ≤ (urec.flat undoLen).length →
    (urec.flat undoLen).length - already ≤
      BLCKSZ - start + buffers * UNDO_LOG_USABLE_BYTES_PER_PAGE →
    Inserted pages blk start ((urec.flat undoLen).drop already)
        (insertUndoPages urec undoLen (buffers + 1) pages blk start already) ∧
      (insertUndoPages urec undoLen (buffers + 1) pages blk start already).alreadyWritten =
        (urec.flat undoLen).length := by
  set hdr := UNDO_LOG_BLOCK_HEADER_SIZE
  induction buffers with
  | zero =>
    intro pages blk start already hge hle halready henough
    have hfit : (urec.flat undoLen).length - already ≤ BLCKSZ - start := by omega
    exact insertUndoPages_last urec undoLen 0 pages blk hge hle halready hfit
  | succ buffers ih =>
    intro pages blk start already hge hle halready henough
    by_cases hfit : (urec.flat undoLen).length - already ≤ BLCKSZ - start
    · exact insertUndoPages_last urec undoLen (buffers + 1) pages blk hge hle halready hfit
    -- the page is filled to its end and the loop goes on behind the next header
    obtain ⟨hdone, hpage, hptr, hcount⟩ := appendToPage_spec urec (pages blk) hle halready
    rw [decide_eq_false hfit] at hdone
    rw [Nat.min_eq_right (Nat.le_of_not_le hfit)] at hcount
    have hfull : (((urec.flat undoLen).drop already).take (BLCKSZ - start)).length =
        BLCKSZ - start := by
      rw [List.length_take, length_drop]
      omega
    rw [insertUndoPages]
    generalize urec.appendToPage (pages blk) start already undoLen = out at *
    obtain ⟨done, w⟩ := out
    simp only at hdone hpage hptr hcount
    subst hdone
    have hblock : hdr ≤ BLCKSZ := by decide
    have husable : BLCKSZ - hdr = UNDO_LOG_USABLE_BYTES_PER_PAGE := rfl
    obtain ⟨hrest, hall⟩ := ih (update pages blk w.page) (blk + 1)
      hdr w.alreadyWritten (Nat.le_refl _) hblock (by omega)
      (by rw [Nat.succ_mul] at henough; omega)
    simp only
    generalize insertUndoPages urec undoLen (buffers + 1) (update pages blk w.page)
      (blk + 1) hdr w.alreadyWritten = r at *
    have hdrop : (urec.flat undoLen).drop w.alreadyWritten =
        ((urec.flat undoLen).drop already).drop (BLCKSZ - start) := by
      rw [List.drop_drop, hcount]
    have hthis : r.pages blk = w.page := by
      rw [hrest.earlier blk (Nat.lt_succ_self blk), update_self]
    refine ⟨⟨hrest.complete, .next ?_ ?_ ?_, ?_, ?_, hrest.writeptr_ge, hrest.writeptr_le, ?_⟩,
      hall⟩
    · rw [length_drop]
      omega
    · have hread := Mem.read_write_self (pages blk) start
        (((urec.flat undoLen).drop already).take (BLCKSZ - start))
      rw [hfull, ← hpage] at hread
      rw [hthis, hread]
    · rw [← hdrop]
      exact hrest.tiled
    · intro b i hi
      rw [hrest.header b i hi, hpage]
      exact update_page_header pages blk start _ hge b i hi
    · intro b hb
      rw [hrest.earlier b (by omega)]
      exact update_of_ne (by omega) _ _
    · have hend := hrest.usable
      rw [Nat.succ_mul, length_drop] at hend
      rw [hend, length_drop, hcount, ← husable]
      omega

/-! ## Sizes -/

theorem UndoRecord.length_partBytes (p : UndoPart) :
    (urec.partBytes p).length = p.size := by
  cases p <;> simp [UndoRecord.partBytes, size]

def UndoRecord.fixedBytes : List UInt8 :=
  ((undoParts.filter (stored urec.whdr.uinfo)).map urec.partBytes).flatten

def UndoRecord.payloadBytes : List UInt8 :=
  if urec.hasInfo UNDO_UREC_INFO_PAYLOAD then urec.rawdata else []

variable (r : StorableRecord)

theorem StorableRecord.rawdata_lt : r.urec.rawdata.length < 8111 := by
  have h := r.payload_le
  simp only [MaxPossibleUHeapTupleSize, sizeofItemPointerData, sizeofSubTransactionId] at h
  omega

theorem StorableRecord.flat_eq (undoLen : Nat) :
    r.urec.flat undoLen = r.urec.fixedBytes ++ (r.urec.payloadBytes ++ toLe 2 undoLen) := by
  have hlt := r.rawdata_lt
  have hmod : r.urec.rawdata.length % 2 ^ 16 = r.urec.rawdata.length := Nat.mod_eq_of_lt (by omega)
  have hpay : (if r.urec.hasInfo UNDO_UREC_INFO_PAYLOAD ∧ r.urec.rawdata.length > 0 then
      [r.urec.rawdata] else []).flatten = r.urec.payloadBytes := by
    unfold UndoRecord.payloadBytes
    cases r.urec.hasInfo UNDO_UREC_INFO_PAYLOAD with
    | false => simp
    | true =>
      by_cases hpos : r.urec.rawdata.length > 0
      · simp [hpos]
      · have hnil : r.urec.rawdata = [] := List.length_eq_zero_iff.mp (by omega)
        simp [hnil]
  unfold UndoRecord.flat UndoRecord.appendParts UndoRecord.fixedBytes
  rw [hmod, List.flatten_append, List.flatten_append, hpay]
  simp

theorem sum_size_filter (f : UndoPart → Bool) (ps : List UndoPart) :
    ((ps.filter f).map size).sum = (ps.map fun p => if f p then p.size else 0).sum := by
  induction ps with
  | nil => rfl
  | cons p ps ih =>
    cases hp : f p with
    | true | false => simp [hp, ih]

/-- The stored parts add up to what `RecordSize` counts. -/
theorem UndoRecord.length_fixedBytes : urec.fixedBytes.length = 36 +
      (if urec.hasInfo UNDO_UREC_INFO_PAYLOAD then 2 else 0) +
      (if urec.hasInfo UNDO_UREC_INFO_TRANSAC then 8 else 0) +
      (if urec.hasInfo UNDO_UREC_INFO_OLDTD then 8 else 0) +
      (if urec.hasInfo UNDO_UREC_INFO_HAS_PARTOID then 4 else 0) +
      (if urec.hasInfo UNDO_UREC_INFO_HAS_TABLESPACEOID then 4 else 0) := by
  have hsum : urec.fixedBytes.length =
      ((undoParts.filter (stored urec.whdr.uinfo)).map size).sum := by
    rw [UndoRecord.fixedBytes, List.length_flatten, List.map_map]
    congr 1
    exact List.map_congr_left fun p _ => urec.length_partBytes p
  rw [hsum, sum_size_filter]
  simp [undoParts, stored, UndoRecord.hasInfo, size]
  omega

/-- All that the reader reads fits in the `BLCKSZ` bytes it allows itself. -/
theorem StorableRecord.read_le :
    r.urec.fixedBytes.length + r.urec.payloadBytes.length ≤ BLCKSZ := by
  have hlt := r.rawdata_lt
  have hpay : r.urec.payloadBytes.length ≤ r.urec.rawdata.length := by
    unfold UndoRecord.payloadBytes
    split <;> simp
  have hfix : r.urec.fixedBytes.length ≤ 62 := by
    rw [r.urec.length_fixedBytes]
    split <;> split <;> split <;> split <;> split <;> omega
  simp only [BLCKSZ]
  omega

theorem StorableRecord.length_flat (undoLen : Nat) :
    (r.urec.flat undoLen).length = r.urec.recordSize := by
  have hlt := r.rawdata_lt
  rw [r.flat_eq, length_append, length_append, length_toLe, r.urec.length_fixedBytes]
  unfold UndoRecord.recordSize UndoRecord.payloadBytes
  simp only [size]
  cases r.urec.hasInfo UNDO_UREC_INFO_PAYLOAD <;> cases r.urec.hasInfo UNDO_UREC_INFO_TRANSAC <;>
    cases r.urec.hasInfo UNDO_UREC_INFO_OLDTD <;>
    cases r.urec.hasInfo UNDO_UREC_INFO_HAS_PARTOID <;>
    cases r.urec.hasInfo UNDO_UREC_INFO_HAS_TABLESPACEOID <;>
    simp only [if_true, if_false, Bool.false_eq_true, List.length_nil] <;> omega

/-! ## The whole write -/

/-- The reserved buffers hold the record. -/
theorem reserveUndoBuffers_enough (undoSize : Nat) : ∀ turns curSize,
    undoSize ≤ curSize + turns * UNDO_LOG_USABLE_BYTES_PER_PAGE →
    undoSize ≤ curSize +
      reserveUndoBuffers undoSize turns curSize * UNDO_LOG_USABLE_BYTES_PER_PAGE := by
  intro turns
  induction turns with
  | zero => exact fun _ h => h
  | succ turns ih =>
    intro curSize h
    unfold reserveUndoBuffers
    split
    · have hnext := ih (curSize + (BLCKSZ - UNDO_LOG_BLOCK_HEADER_SIZE))
        (by rw [Nat.succ_mul] at h; simp only [UNDO_LOG_USABLE_BYTES_PER_PAGE] at h ⊢; omega)
      rw [Nat.succ_mul]
      simp only [UNDO_LOG_USABLE_BYTES_PER_PAGE] at hnext ⊢
      omega
    · omega

theorem undoPtrGetPageOffset_lt (urp : Nat) : undoPtrGetPageOffset urp < BLCKSZ :=
  Nat.mod_lt _ (by decide)

theorem insertPreparedUndo_spec (pos : UndoPos) (pages : UndoZonePages) :
    Inserted pages (undoPtrGetBlockNum pos.urp) (undoPtrGetPageOffset pos.urp)
        (r.urec.flat r.urec.recordSize) (insertPreparedUndo r.urec pos.urp pages) ∧
      (insertPreparedUndo r.urec pos.urp pages).alreadyWritten = r.urec.recordSize := by
  have hlt := undoPtrGetPageOffset_lt pos.urp
  have hlen := r.length_flat r.urec.recordSize
  have henough := reserveUndoBuffers_enough r.urec.recordSize r.urec.recordSize
    (BLCKSZ - undoPtrGetPageOffset pos.urp)
    (by simp only [UNDO_LOG_USABLE_BYTES_PER_PAGE, BLCKSZ, UNDO_LOG_BLOCK_HEADER_SIZE,
          SizeOfPageHeaderData]; omega)
  have h := insertUndoPages_spec r.urec r.urec.recordSize _ pages (undoPtrGetBlockNum pos.urp)
    (undoPtrGetPageOffset pos.urp) 0 pos.past_header (Nat.le_of_lt hlt) (Nat.zero_le _)
    (by rw [hlen, Nat.sub_zero]; exact henough)
  rw [List.drop_zero, hlen] at h
  exact h

/-- The offset behind the last byte written; a page that is full to its end
is left for the first usable byte of the next. -/
def InsertResult.endOffset (r : InsertResult) : Nat :=
  if r.writeptr = BLCKSZ then (r.blk + 1) * BLCKSZ + UNDO_LOG_BLOCK_HEADER_SIZE
  else r.blk * BLCKSZ + r.writeptr

/-- Page and offset back from a usable byte number, the end of a page being
the start of the next. -/
theorem undoLogOffsetFromUsableByteNo_eq (blk ptr : Nat)
    (hge : UNDO_LOG_BLOCK_HEADER_SIZE ≤ ptr) (hle : ptr ≤ BLCKSZ) :
    undoLogOffsetFromUsableByteNo
      (blk * UNDO_LOG_USABLE_BYTES_PER_PAGE + (ptr - UNDO_LOG_BLOCK_HEADER_SIZE)) =
      if ptr = BLCKSZ then (blk + 1) * BLCKSZ + UNDO_LOG_BLOCK_HEADER_SIZE
      else blk * BLCKSZ + ptr := by
  unfold undoLogOffsetFromUsableByteNo
  by_cases hend : ptr = BLCKSZ
  · rw [if_pos hend]
    simp only [UNDO_LOG_USABLE_BYTES_PER_PAGE, BLCKSZ, UNDO_LOG_BLOCK_HEADER_SIZE,
      SizeOfPageHeaderData] at hend ⊢
    omega
  · rw [if_neg hend]
    simp only [UNDO_LOG_USABLE_BYTES_PER_PAGE, BLCKSZ, UNDO_LOG_BLOCK_HEADER_SIZE,
      SizeOfPageHeaderData] at hge hle hend ⊢
    omega

/-- The division formula names the byte at which the writer stopped. -/
theorem advanceUndoPtr_eq (pos : UndoPos) (pages : UndoZonePages) :
    advanceUndoPtr pos.urp r.urec.recordSize = makeUndoPtr (undoPtrGetZoneId pos.urp)
      (insertPreparedUndo r.urec pos.urp pages).endOffset := by
  obtain ⟨hins, _⟩ := insertPreparedUndo_spec r pos pages
  have hend := undoLogOffsetFromUsableByteNo_eq (insertPreparedUndo r.urec pos.urp pages).blk _
    hins.writeptr_ge hins.writeptr_le
  rw [hins.usable, r.length_flat] at hend
  unfold advanceUndoPtr undoLogOffsetPlusUsableBytes undoLogOffsetToUsableByteNo
  rw [Nat.add_comm (undoPtrGetOffset pos.urp % BLCKSZ - UNDO_LOG_BLOCK_HEADER_SIZE)]
  exact congrArg (makeUndoPtr (undoPtrGetZoneId pos.urp)) hend

end OpenGauss.Undo
