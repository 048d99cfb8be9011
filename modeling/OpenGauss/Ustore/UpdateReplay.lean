import OpenGauss.Ustore.UpdateRedo

/-!
# Replay rebuilds the updated row

The block data leaves out what the new row shares with the old one, and
replay takes it from the old row on its own page. The two meet in
`newTupleBody_log`, which holds for every pair of affix lengths the rows have
in common; the rest is that replay finds the lengths the primary used, in the
undo delta (`affixLens_inplace`) or in front of the block data
(`readBlockAffixLens_nonInplace`). Where the record has nothing of the new
row besides its header, replay ends with an error.

The short xid is not logged: replay always writes the frozen one.
-/

namespace OpenGauss.Ustore

open Lib Undo
open Mem (drop_read write_of_not_mem)
open XlUHeapHeader (encode decode)

/-! ## The logged header -/

/-- `row'` is `row` as replay rebuilds it: same length, logged header fields,
bitmap and data; the short xid is frozen and `reserved` is zero. -/
structure Rebuilt (row row' : List UInt8) : Prop where
  length_eq : row'.length = row.length
  header : uheapFillHeader row' = { uheapFillHeader row with reserved := 0 }
  body : row'.drop SizeOfUHeapDiskTupleData = row.drop SizeOfUHeapDiskTupleData
  xid : row'.take OffsetTdId = toLe 4 FrozenTransactionId.toNat

theorem exists_header {row : List UInt8} (h : SizeOfUHeapDiskTupleData ≤ row.length) :
    ∃ x0 x1 x2 x3 td res f0 f1 g0 g1 hoff body,
      row = x0 :: x1 :: x2 :: x3 :: td :: res :: f0 :: f1 :: g0 :: g1 :: hoff :: body := by
  match row, h with
  | x0 :: x1 :: x2 :: x3 :: td :: res :: f0 :: f1 :: g0 :: g1 :: hoff :: body, _ =>
    exact ⟨x0, x1, x2, x3, td, res, f0, f1, g0, g1, hoff, body, rfl⟩

theorem toLe_ofLe_pair (a b : UInt8) : toLe 2 (ofLe [a, b]) = [a, b] := toLe_ofLe [a, b]

theorem length_encode (hd : XlUHeapHeader) : hd.encode.length = SizeOfUHeapHeader := by
  simp [encode, SizeOfUHeapHeader]

theorem decode_encode_fillHeader {row : List UInt8} (h : SizeOfUHeapDiskTupleData ≤ row.length) :
    decode (uheapFillHeader row).encode = uheapFillHeader row := by
  obtain ⟨x0, x1, x2, x3, td, res, f0, f1, g0, g1, hoff, body, rfl⟩ := exists_header h
  simp [uheapFillHeader, encode, decode, rowTdId, rowReserved,
    rowFlag, rowFlag2, OffsetTdId, offsetReserved, offsetFlag, offsetFlag2, offsetTHoff,
    toLe_ofLe_pair]

theorem rebuilt_of_parts {row : List UInt8} (h : SizeOfUHeapDiskTupleData ≤ row.length) :
    Rebuilt row (toLe 4 FrozenTransactionId.toNat ++
      ({ uheapFillHeader row with reserved := 0 }.encode ++
        row.drop SizeOfUHeapDiskTupleData)) := by
  obtain ⟨x0, x1, x2, x3, td, res, f0, f1, g0, g1, hoff, body, rfl⟩ := exists_header h
  have hx : toLe 4 FrozenTransactionId.toNat = [2, 0, 0, 0] := by decide
  rw [hx]
  constructor <;>
    simp [uheapFillHeader, encode, rowTdId, rowReserved, rowFlag, rowFlag2,
      OffsetTdId, offsetReserved, offsetFlag, offsetFlag2, offsetTHoff,
      SizeOfUHeapDiskTupleData, toLe_ofLe_pair, hx]

/-! ## The body -/

section Body

variable {row old : List UInt8} {p q : Nat}

theorem suffix_of_old (hold : RowOk old) (hq : q ≤ (rowData old).length) :
    (if q > 0 then (old.drop (old.length - q)).take q else []) =
      (rowData old).drop ((rowData old).length - q) := by
  have hle := hold.hoff_le
  have hlen : (rowData old).length = old.length - tHoff old := by simp [rowData]
  have hdrop : (rowData old).drop ((rowData old).length - q) = old.drop (old.length - q) := by
    rw [rowData, List.drop_drop, ← rowData, hlen]
    congr 1
    omega
  rw [hdrop]
  split
  · exact List.take_of_length_le (by rw [List.length_drop]; omega)
  · rw [List.drop_of_length_le (by omega)]

theorem drop_header_split (hrow : RowOk row) :
    (row.drop SizeOfUHeapDiskTupleData).take (tHoff row - SizeOfUHeapDiskTupleData) ++
      rowData row = row.drop SizeOfUHeapDiskTupleData := by
  have hge := hrow.hoff_ge
  have hdata : rowData row =
      (row.drop SizeOfUHeapDiskTupleData).drop (tHoff row - SizeOfUHeapDiskTupleData) := by
    rw [List.drop_drop, rowData]
    congr 1
    omega
  rw [hdata, List.take_append_drop]

/-- Logged bitmap and data with the old row's affixes give the new row's
bitmap and data, for any header sizes of the two rows. -/
theorem newTupleBody_log (hrow : RowOk row) (hold : RowOk old)
    (h : CommonAffixes (rowData row) (rowData old) p q) :
    newTupleBody ⟨p, q⟩ (tHoff row - SizeOfUHeapDiskTupleData) (logTupleData row p q) old =
      row.drop SizeOfUHeapDiskTupleData := by
  set hdr := SizeOfUHeapDiskTupleData
  have hge := hrow.hoff_ge
  have hle := hrow.hoff_le
  have hpq := h.le_left
  have hlen : (rowData row).length = row.length - tHoff row := by simp [rowData]
  have hq : q ≤ (rowData old).length := by have := h.le_right; omega
  unfold newTupleBody logTupleData
  simp only [suffix_of_old hold hq]
  by_cases hp : p = 0
  · -- bitmap and data are logged in one piece
    subst hp
    rw [if_neg (by omega), if_pos rfl, ← h.back]
    have hsuf : (rowData row).drop ((rowData row).length - q) =
        (row.drop hdr).drop (row.length - hdr - q) := by
      rw [rowData, List.drop_drop, List.drop_drop, ← rowData, hlen]
      congr 1
      omega
    rw [hsuf, List.take_append_drop]
  · rw [if_pos (by omega), if_neg hp]
    have hbm : ((row.drop hdr).take
        (tHoff row - hdr)).length = tHoff row - hdr := by
      rw [List.length_take, List.length_drop]
      omega
    have hmid : (row.drop (tHoff row + p)).take (row.length - tHoff row - p - q) =
        ((rowData row).drop p).take ((rowData row).length - p - q) := by
      rw [hlen, rowData, List.drop_drop]
    -- everything behind the logged bitmap is data
    have hrest : ∀ m : List UInt8, m.take
        (((row.drop hdr).take (tHoff row - hdr) ++
          m).length - (tHoff row - hdr)) = m := by
      intro m
      rw [List.length_append, hbm, Nat.add_sub_cancel_left, List.take_length]
    rw [List.take_left' hbm, List.drop_left' hbm, hmid, hrest]
    have hold' : old.drop (tHoff old) = rowData old := rfl
    rw [hold', List.append_assoc, List.append_assoc, h.join, drop_header_split hrow]

end Body

/-! ## The lengths replay finds -/

section Lens

variable (w : UpdateWalInfo)

/-- Which of the flags replay tests are set. -/
theorem logUHeapUpdate_flags :
    ((logUHeapUpdate w).flags &&& XLZ_NON_INPLACE_UPDATE != 0) = !w.isInplaceUpdate ∧
      ((logUHeapUpdate w).flags &&& XLZ_UPDATE_PREFIX_FROM_OLD != 0) =
        decide (0 < (logAffixLens w).1) ∧
      ((logUHeapUpdate w).flags &&& XLZ_UPDATE_SUFFIX_FROM_OLD != 0) =
        decide (0 < (logAffixLens w).2) := by
  simp only [logUHeapUpdate]
  generalize (logAffixLens w).1 = p
  generalize (logAffixLens w).2 = q
  by_cases hp : 0 < p <;> by_cases hq : 0 < q <;> cases w.logicallyLogged <;>
    cases w.isInplaceUpdate <;> simp only [hp, hq, if_true, if_false] <;> decide

/-- The block data behind the lengths. -/
def blockTuple : List UInt8 :=
  (uheapFillHeader w.difftup).encode ++ logTupleData w.difftup (logAffixLens w).1 (logAffixLens w).2

theorem readBlockAffixLens_inplace (hin : w.isInplaceUpdate = true) (lens : UpdateRedoAffixLens) :
    readBlockAffixLens (logUHeapUpdate w) lens = (lens, blockTuple w) := by
  have hf := (logUHeapUpdate_flags w).1
  rw [readBlockAffixLens, hf, hin]
  simp [logUHeapUpdate, blockTuple, hin]

theorem readBlockAffixLens_nonInplace (hin : w.isInplaceUpdate = false)
    (hp : (logAffixLens w).1 < 256 ^ 2) (hq : (logAffixLens w).2 < 256 ^ 2) :
    readBlockAffixLens (logUHeapUpdate w) ⟨0, 0⟩ =
      (⟨(logAffixLens w).1, (logAffixLens w).2⟩, blockTuple w) := by
  obtain ⟨hf, hfp, hfq⟩ := logUHeapUpdate_flags w
  have hdata : (logUHeapUpdate w).blockData =
      (if (logAffixLens w).1 > 0 then toLe 2 (logAffixLens w).1 else []) ++
        ((if (logAffixLens w).2 > 0 then toLe 2 (logAffixLens w).2 else []) ++ blockTuple w) := by
    simp [logUHeapUpdate, blockTuple, hin]
  have htake : ∀ (n : Nat) (t : List UInt8), (toLe 2 n ++ t).take 2 = toLe 2 n :=
    fun n t => List.take_left' (length_toLe 2 n)
  have hdrop : ∀ (n : Nat) (t : List UInt8), (toLe 2 n ++ t).drop 2 = t :=
    fun n t => List.drop_left' (length_toLe 2 n)
  simp only [readBlockAffixLens, hf, hfp, hfq, hin, hdata]
  generalize (logAffixLens w).1 = p at *
  generalize (logAffixLens w).2 = q at *
  rcases Nat.eq_zero_or_pos p with rfl | hp0 <;> rcases Nat.eq_zero_or_pos q with rfl | hq0
  · simp
  · simp [hq0, htake, hdrop, ofLe_toLe_of_lt hq]
  · simp [hp0, htake, hdrop, ofLe_toLe_of_lt hp]
  · simp [hp0, hq0, htake, hdrop, ofLe_toLe_of_lt hp, ofLe_toLe_of_lt hq]

/-- Nothing of the new row is logged but its header: it has no bitmap, and all its data
is the end of the old row's. -/
def UpdateWalInfo.LogsHeaderOnly : Prop :=
  tHoff w.difftup = SizeOfUHeapDiskTupleData ∧ (logAffixLens w).1 = 0 ∧
    (logAffixLens w).2 = (rowData w.difftup).length

theorem logsHeaderOnly_iff (hrow : RowOk w.difftup)
    (hq : (logAffixLens w).2 ≤ (rowData w.difftup).length) : w.LogsHeaderOnly ↔
      (logAffixLens w).1 = 0 ∧
        (logTupleData w.difftup (logAffixLens w).1 (logAffixLens w).2).length = 0 := by
  have hge := hrow.hoff_ge
  have hle := hrow.hoff_le
  unfold UpdateWalInfo.LogsHeaderOnly logTupleData
  simp only [rowData, List.length_drop] at hq ⊢
  generalize (logAffixLens w).1 = p
  generalize (logAffixLens w).2 = q at hq ⊢
  constructor
  · rintro ⟨hhoff, hp, rfl⟩
    rw [hhoff, if_pos hp, List.length_take, List.length_drop]
    omega
  · rintro ⟨hp, hlen⟩
    rw [if_pos hp, List.length_take, List.length_drop] at hlen
    omega

/-- Once replay has the lengths, it rebuilds the row, unless there is nothing to copy. -/
theorem rebuilt_iff_of_lens {lens : UpdateRedoAffixLens} {old : List UInt8}
    (hread : readBlockAffixLens (logUHeapUpdate w) lens =
      (⟨(logAffixLens w).1, (logAffixLens w).2⟩, blockTuple w))
    (hrow : RowOk w.difftup) (hold : RowOk old)
    (haff : CommonAffixes (rowData w.difftup) (rowData old) (logAffixLens w).1 (logAffixLens w).2) :
    (∃ row, getUHeapDiskTupleFromUpdateNewRedoData (logUHeapUpdate w) lens old = some row ∧
      Rebuilt w.difftup row) ↔ ¬ w.LogsHeaderOnly := by
  have hlen := length_encode (uheapFillHeader w.difftup)
  have hle := haff.le_left
  have htake : (blockTuple w).take SizeOfUHeapHeader = (uheapFillHeader w.difftup).encode :=
    List.take_left' hlen
  have hdrop : (blockTuple w).drop SizeOfUHeapHeader =
      logTupleData w.difftup (logAffixLens w).1 (logAffixLens w).2 := List.drop_left' hlen
  have hhoff : (uheapFillHeader w.difftup).t_hoff.toNat = tHoff w.difftup := rfl
  rw [getUHeapDiskTupleFromUpdateNewRedoData, hread, logsHeaderOnly_iff w hrow (by omega)]
  simp only [htake, hdrop, decode_encode_fillHeader hrow.length_ge, hhoff,
    newTupleBody_log hrow hold haff]
  split
  next h => exact ⟨fun ⟨_, hnone, _⟩ => (Option.some_ne_none _ hnone.symm).elim, fun hn => (hn h).elim⟩
  next h => exact ⟨fun _ => h, fun _ => ⟨_, rfl, rebuilt_of_parts hrow.length_ge⟩⟩

end Lens

/-! ## The old row on the two pages -/

/-- Same length, header size, bitmap and data: all that replay takes from
the old row. The fixed header may differ. -/
structure SameBody (a b : List UInt8) : Prop where
  length_eq : a.length = b.length
  hoff_eq : tHoff a = tHoff b
  body_eq : a.drop SizeOfUHeapDiskTupleData = b.drop SizeOfUHeapDiskTupleData

namespace SameBody

variable {a b c : List UInt8}

protected theorem trans (h : SameBody a b) (h' : SameBody b c) : SameBody a c :=
  ⟨h.1.trans h'.1, h.2.trans h'.2, h.3.trans h'.3⟩

theorem rowOk (h : SameBody a b) (ha : RowOk a) : RowOk b where
  hoff_ge := h.hoff_eq ▸ ha.hoff_ge
  hoff_le := h.hoff_eq ▸ h.length_eq ▸ ha.hoff_le
  len_lt := h.length_eq ▸ ha.len_lt
  body_pos := h.length_eq ▸ ha.body_pos

theorem drop_eq (h : SameBody a b) {n : Nat} (hn : SizeOfUHeapDiskTupleData ≤ n) :
    a.drop n = b.drop n := by
  have hd := congrArg (List.drop (n - SizeOfUHeapDiskTupleData)) h.body_eq
  rw [List.drop_drop, List.drop_drop] at hd
  rwa [show SizeOfUHeapDiskTupleData + (n - SizeOfUHeapDiskTupleData) = n by omega] at hd

theorem rowData_eq (h : SameBody a b) (ha : RowOk a) : rowData a = rowData b := by
  unfold rowData
  rw [← h.hoff_eq]
  exact h.drop_eq ha.hoff_ge

/-- Pages that agree from the row's `t_hoff` on hold the same body. -/
theorem of_agree {m m' : Mem} {off len : Nat} (h : ∀ i, off + offsetTHoff ≤ i → m' i = m i) :
    SameBody (m.read off len) (m'.read off len) where
  length_eq := by simp
  hoff_eq := by
    unfold tHoff
    simp only [List.getD_eq_getElem?_getD, Mem.getElem?_read, h _ (Nat.le_refl _)]
  body_eq := by
    rw [drop_read, drop_read]
    apply Mem.read_congr
    intro i _
    exact (h _ (by simp only [SizeOfUHeapDiskTupleData, offsetTHoff]; omega)).symm

end SameBody

/-- Stamping the old row leaves `t_hoff` and what is behind it. -/
theorem sameBody_stampHeader (page : Mem) (off len : Nat) (tdSlot : UInt8) (infomask : Nat)
    (tupleXid : UInt32) :
    SameBody (page.read off len) ((stampHeader page off tdSlot infomask tupleXid).read off len) := by
  apply SameBody.of_agree
  intro i hi
  simp only [offsetTHoff] at hi
  unfold stampHeader
  rw [write_of_not_mem (by right; simp only [length_toLe]; omega),
    write_of_not_mem (by right; simp only [length_toLe, offsetFlag]; omega),
    write_of_not_mem (by right; simp only [List.length_singleton, OffsetTdId]; omega)]

theorem performUpdateOldRedoAction_agree (x : XlUpdate) (page : Mem) (rp : RowPtr) {i : Nat}
    (hi : rp.offset + offsetTHoff ≤ i) : performUpdateOldRedoAction x page rp i = page i := by
  simp only [offsetTHoff] at hi
  unfold performUpdateOldRedoAction
  rw [write_of_not_mem (by right; simp only [List.length_singleton, OffsetTdId]; omega),
    write_of_not_mem (by right; simp only [length_toLe]; omega),
    write_of_not_mem (by right; simp only [length_toLe, offsetFlag]; omega)]

/-- A standby's page for the row `s` of the primary: the same row pointer
locates the same old row. -/
structure StandbyPage (s : RowOnPage) where
  page : Mem
  same : SameBody s.image (page.read s.rp.offset s.rp.len)

/-- The old row as replay sees it when it rebuilds the new one. -/
theorem StandbyPage.old_same {s : RowOnPage} (b : StandbyPage s) (x : XlUpdate) : SameBody s.image
      ((performUpdateOldRedoAction x b.page s.rp).read s.rp.offset s.rp.len) :=
  b.same.trans (SameBody.of_agree fun _ hi => performUpdateOldRedoAction_agree x b.page s.rp hi)

/-! ## Non-in-place updates -/

theorem sameBody_stampNewTuple (u : NonInplaceUpdate) :
    SameBody u.uheaptup.bytes (stampNewTuple u) := by
  obtain ⟨x0, x1, x2, x3, td, res, f0, f1, g0, g1, hoff, body, hrow⟩ :=
    exists_header u.uheaptup.ok.length_ge
  obtain ⟨y0, y1, y2, y3, hxid⟩ : ∃ y0 y1 y2 y3, toLe 4 u.tupleXid.toNat = [y0, y1, y2, y3] :=
    ⟨_, _, _, _, rfl⟩
  unfold stampNewTuple
  rw [hrow, hxid]
  constructor <;> simp [toLe, tHoff, offsetTHoff, offsetFlag2, SizeOfUHeapDiskTupleData]

/-- The new data is all an end of the old data, which begins with other bytes. -/
def EndsOld (oldp newp : List UInt8) : Prop :=
  MIN_SAVING_LEN ≤ newp.length ∧ newp <:+ oldp ∧
    oldp.take MIN_SAVING_LEN ≠ newp.take MIN_SAVING_LEN

theorem affixLens_eq_iff {oldp newp : List UInt8} (hne : 0 < newp.length) :
    affixLens oldp newp = (0, newp.length) ↔ EndsOld oldp newp := by
  have hsave : ∀ n, savingLen n = 0 ↔ n < MIN_SAVING_LEN := by
    intro n
    unfold savingLen MIN_SAVING_LEN
    split <;> omega
  have hbound := matchLen_le_bound (min oldp.length newp.length) oldp.reverse newp.reverse
  constructor
  · intro h
    obtain ⟨h1, h2⟩ := Prod.ext_iff.mp h
    simp only [affixLens] at h1 h2
    rw [h1, Nat.sub_zero] at h2
    have hmin := (hsave _).not.mp (h2.trans_ne hne.ne')
    rw [savingLen, if_neg hmin] at h2
    have hdrop := drop_of_le_matchLen_reverse h2.ge
    rw [Nat.sub_self, List.drop_zero] at hdrop
    refine ⟨by omega, ⟨_, hdrop ▸ List.take_append_drop (oldp.length - newp.length) oldp⟩, ?_⟩
    intro htake
    exact Nat.not_le.mpr ((hsave _).mp h1) (le_matchLen (by omega) (by omega) htake)
  · rintro ⟨hmin, ⟨front, rfl⟩, htake⟩
    have hlen : min (front ++ newp).length newp.length = newp.length := by simp
    rw [hlen] at hbound
    -- the loops: the first stops before the third byte, the second at the front of the new row
    have h1 : savingLen (matchLen newp.length (front ++ newp) newp) = 0 :=
      (hsave _).mpr (Nat.lt_of_not_le fun h => htake (take_of_le_matchLen h))
    have h2 : newp.length ≤ matchLen newp.length (front ++ newp).reverse newp.reverse :=
      le_matchLen le_rfl (by simp) (by simp)
    unfold affixLens
    simp only [hlen, h1, Nat.sub_zero, Nat.le_antisymm hbound h2]
    rw [savingLen, if_neg (by omega)]

/-- The updates that replay cannot follow. -/
theorem logsHeaderOnly_nonInplace (s : RowOnPage) (u : NonInplaceUpdate) :
    (nonInplaceWalInfo s u).LogsHeaderOnly ↔ u.logicallyLogged = false ∧
      tHoff u.uheaptup.bytes = SizeOfUHeapDiskTupleData ∧
      EndsOld (rowData s.image) (rowData u.uheaptup.bytes) := by
  have hnew := sameBody_stampNewTuple u
  have hpos := u.uheaptup.ok.body_pos
  have hold := (sameBody_stampHeader s.page s.rp.offset s.rp.len u.oldSlot
    (UHEAP_XID_EXCL_LOCK ||| UHEAP_UPDATED) u.tupleXid).rowData_eq s.ok
  have hdata : tHoff u.uheaptup.bytes = SizeOfUHeapDiskTupleData →
      0 < (rowData u.uheaptup.bytes).length := by
    intro hhoff
    rw [rowData, List.length_drop, hhoff]
    omega
  unfold UpdateWalInfo.LogsHeaderOnly logAffixLens nonInplaceWalInfo
  simp only [← hnew.hoff_eq, ← hnew.rowData_eq u.uheaptup.ok, ← hold, true_and, Bool.false_eq_true,
    if_false]
  cases u.logicallyLogged with
  | true =>
    refine iff_of_false ?_ fun h => Bool.noConfusion h.1
    rintro ⟨hhoff, -, hzero⟩
    exact (hdata hhoff).ne hzero
  | false =>
    simp only [true_and, if_true]
    refine and_congr_right fun hhoff => ?_
    rw [← affixLens_eq_iff (hdata hhoff), Prod.ext_iff]
    rfl

theorem replay_nonInplace_iff (s : RowOnPage) (u : NonInplaceUpdate) (b : StandbyPage s) :
    (∃ row, replayNewTuple (logNonInplaceUpdate s u) b.page s.rp = some row ∧
      Rebuilt (stampNewTuple u) row) ↔ ¬ (nonInplaceWalInfo s u).LogsHeaderOnly := by
  set x := nonInplaceWalInfo s u
  have hnew : RowOk (stampNewTuple u) := (sameBody_stampNewTuple u).rowOk u.uheaptup.ok
  have hold := b.old_same (logNonInplaceUpdate s u)
  have hdata : rowData x.oldRow =
      rowData ((performUpdateOldRedoAction (logNonInplaceUpdate s u) b.page s.rp).read
        s.rp.offset s.rp.len) :=
    ((sameBody_stampHeader s.page s.rp.offset s.rp.len _ _ _).rowData_eq s.ok).symm.trans
      (hold.rowData_eq s.ok)
  have haff : CommonAffixes (rowData (stampNewTuple u))
      (rowData ((performUpdateOldRedoAction (logNonInplaceUpdate s u) b.page s.rp).read
        s.rp.offset s.rp.len))
      (logAffixLens x).1 (logAffixLens x).2 := by
    rw [← hdata]
    unfold logAffixLens
    split
    · exact (commonAffixes_affixLens _ _).symm
    · exact CommonAffixes.zero _ _
  have hbound : (logAffixLens x).1 +
      (logAffixLens x).2 < 2 ^ 15 := by
    have hle := haff.le_left
    have hlt := hnew.len_lt
    have hsub : (rowData (stampNewTuple u)).length ≤ (stampNewTuple u).length := by
      simp [rowData]
    omega
  have hzero : getXidbaseAndAffixLensFromUpdateRedo (logNonInplaceUpdate s u) = ⟨0, 0⟩ := by
    have hf := (logUHeapUpdate_flags x).1
    rw [getXidbaseAndAffixLensFromUpdateRedo, logNonInplaceUpdate, hf]
    rfl
  unfold replayNewTuple
  rw [hzero]
  have hread := readBlockAffixLens_nonInplace x rfl (by omega) (by omega)
  exact rebuilt_iff_of_lens x hread hnew (hold.rowOk s.ok) haff

/-! ## In-place updates -/

section Inplace

variable (s : RowOnPage) (u : InplaceUpdate)

theorem sameBody_inplaceDifftup : SameBody u.uheaptup.bytes (inplaceDifftup s u) where
  length_eq := by simp [inplaceDifftup]
  hoff_eq := by
    have hlen := u.uheaptup.ok.length_ge
    simp only [SizeOfUHeapDiskTupleData] at hlen
    have hbyte : (inplaceDifftup s u).getD offsetTHoff 0 =
        UInt8.ofNat (tHoff u.uheaptup.bytes) := by
      rw [List.getD_eq_getElem?_getD, inplaceDifftup, (inplacePage_rp s u).1, Mem.getElem?_read,
        if_pos (by simp only [offsetTHoff]; omega), inplacePage_hoff]
      rfl
    rw [tHoff.eq_def (inplaceDifftup s u), hbyte]
    simpa using (Nat.mod_eq_of_lt (tHoff_lt u.uheaptup.bytes)).symm
  body_eq := by
    rw [inplaceDifftup, (inplacePage_rp s u).1, drop_read, inplacePage_body]

def inplaceDelta : XorDelta :=
  xorDelta s.image u.uheaptup.bytes u.logicallyLogged

theorem inplaceDelta_sound : XorDelta.Sound s.image u.uheaptup.bytes (inplaceDelta s u) :=
  xorDelta_sound _ _ _

/-- The lengths the block data was cut with are those of the undo delta. -/
theorem logAffixLens_inplace (delta : List UInt8) : logAffixLens (inplaceWalInfo s u delta) =
    ((inplaceDelta s u).prefixlen, (inplaceDelta s u).suffixlen) := by
  unfold logAffixLens inplaceWalInfo inplaceDelta
  cases hlog : u.logicallyLogged with
  | false => simp
  | true => simp [xorDelta]

/-- The record is written, with the undo payload as its delta. -/
theorem logInplaceUpdate_eq : logInplaceUpdate s u = some (logUHeapUpdate (inplaceWalInfo s u
    (inplacePayload s.image (inplaceDelta s u)))) := by
  obtain ⟨urec, hw, hraw, _⟩ := writeInplaceUndo_spec s.image_ok u
  rw [logInplaceUpdate, hw]
  simp only [Option.map_some]
  rw [hraw, List.take_left' (length_inplacePayload s.image_ok _), inplaceDelta]

/-- Replay reads the lengths back from the logged delta. -/
theorem affixLens_inplace : getXidbaseAndAffixLensFromUpdateRedo (logUHeapUpdate (inplaceWalInfo s u
      (inplacePayload s.image (inplaceDelta s u)))) =
      ⟨(inplaceDelta s u).prefixlen, (inplaceDelta s u).suffixlen⟩ := by
  have hf := (logUHeapUpdate_flags (inplaceWalInfo s u (inplacePayload s.image (inplaceDelta s u)))).1
  rw [getXidbaseAndAffixLensFromUpdateRedo, hf]
  have hsound := inplaceDelta_sound s u
  generalize inplaceDelta s u = d at *
  obtain ⟨t, ht⟩ : ∃ t, (logUHeapUpdate (inplaceWalInfo s u (inplacePayload s.image d))).mainTail =
      toLe 4 (inplacePayload s.image d).length ++ (inplacePayload s.image d ++ t) := by
    simp only [logUHeapUpdate, inplaceWalInfo, if_true, List.append_assoc]
    exact ⟨_, rfl⟩
  obtain ⟨_, _, hp, hs, _⟩ := parse_inplacePayload s.image_ok d t hsound
  simp only [ht, List.drop_left' (length_toLe 4 _), hp, hs]
  rfl

/-- An update in place shares affixes only with a row of its own size, so an end that is all
of the new data would be the whole row. -/
theorem not_logsHeaderOnly_inplace (delta : List UInt8) :
    ¬ (inplaceWalInfo s u delta).LogsHeaderOnly := by
  have hnew := sameBody_inplaceDifftup s u
  have hpos := u.uheaptup.ok.body_pos
  have hge := s.ok.hoff_ge
  rintro ⟨hhoff, hp, hq⟩
  rw [logAffixLens_inplace] at hp hq
  replace hhoff : tHoff u.uheaptup.bytes = SizeOfUHeapDiskTupleData := hnew.hoff_eq.trans hhoff
  replace hq : (inplaceDelta s u).suffixlen = (rowData u.uheaptup.bytes).length :=
    hq.trans (congrArg _ (hnew.rowData_eq u.uheaptup.ok)).symm
  have hlen : (rowData u.uheaptup.bytes).length = u.uheaptup.bytes.length - tHoff u.uheaptup.bytes := by
    simp [rowData]
  have hsize := (inplaceDelta_sound s u).same_size (by omega)
  unfold inplaceDelta xorDelta at hp hq
  split at hp
  next hcond =>
    rw [if_pos hcond] at hq
    dsimp only at hp hq
    have hlens : affixLens (rowData s.image) (rowData u.uheaptup.bytes) =
      (0, (rowData u.uheaptup.bytes).length) := Prod.ext hp hq
    obtain ⟨-, hend, htake⟩ := (affixLens_eq_iff (by omega)).mp hlens
    have hsub := hend.length_le
    have himage : (rowData s.image).length = s.image.length - tHoff s.image := by simp [rowData]
    have hge' : SizeOfUHeapDiskTupleData ≤ tHoff s.image := hge
    have heq := hend.eq_of_length (by omega)
    exact htake (by rw [heq])
  next hcond =>
    rw [if_neg hcond] at hq
    simp only at hq
    omega

theorem replay_inplace (b : StandbyPage s) {x : XlUpdate} (hx : logInplaceUpdate s u = some x) :
    ∃ row, replayNewTuple x b.page s.rp = some row ∧ Rebuilt (inplaceDifftup s u) row := by
  rw [logInplaceUpdate_eq] at hx
  cases hx
  have hlens := affixLens_inplace s u
  have hlog := logAffixLens_inplace s u (inplacePayload s.image (inplaceDelta s u))
  have hnew := sameBody_inplaceDifftup s u
  have hsound := inplaceDelta_sound s u
  have hlogs := not_logsHeaderOnly_inplace s u (inplacePayload s.image (inplaceDelta s u))
  generalize inplacePayload s.image (inplaceDelta s u) = delta at *
  have hold := b.old_same (logUHeapUpdate (inplaceWalInfo s u delta))
  have haff := hsound.affixes.symm
  rw [hnew.rowData_eq u.uheaptup.ok, hold.rowData_eq s.ok] at haff
  unfold replayNewTuple
  rw [hlens]
  have hread := readBlockAffixLens_inplace (inplaceWalInfo s u delta) rfl
    ⟨(logAffixLens (inplaceWalInfo s u delta)).1, (logAffixLens (inplaceWalInfo s u delta)).2⟩
  rw [hlog] at hread
  exact (rebuilt_iff_of_lens (inplaceWalInfo s u delta) (by rw [hlog]; exact hread)
    (hnew.rowOk u.uheaptup.ok) (hold.rowOk s.ok) (by rw [hlog]; exact haff)).mpr hlogs

/-- Replay shortens the row pointer only when an affix flag is set, and then
the sizes agree; so its length ends as `PutInplaceUpdateTuple` left it. -/
theorem replay_inplace_rp (page : Mem) {x : XlUpdate} (hx : logInplaceUpdate s u = some x)
    {new : List UInt8} (hnew : Rebuilt (inplaceDifftup s u) new) :
    (performUpdateNewRedoAction x page s.rp new).2 = (inplacePage s u).2 := by
  have hlen : new.length = u.uheaptup.bytes.length :=
    hnew.length_eq.trans (sameBody_inplaceDifftup s u).length_eq.symm
  have hsame := (inplaceDelta_sound s u).same_size
  have himg : s.image.length = s.rp.len := Mem.length_read _ _ _
  have hlt : s.rp.len < 2 ^ 15 := himg ▸ s.ok.len_lt
  rw [logInplaceUpdate_eq] at hx
  cases hx
  obtain ⟨_, hfp, hfq⟩ :=
    logUHeapUpdate_flags (inplaceWalInfo s u (inplacePayload s.image (inplaceDelta s u)))
  rw [logAffixLens_inplace] at hfp hfq
  rw [himg] at hsame
  have hkeep : s.rp.changeLen s.rp.len = s.rp := by
    rw [RowPtr.changeLen, Nat.mod_eq_of_lt hlt]
  unfold performUpdateNewRedoAction inplacePage putInplaceUpdateTuple
  simp only [hlen]
  rcases Nat.lt_trichotomy u.uheaptup.bytes.length s.rp.len with hshort | heq | hlong
  · -- a shorter row has no affixes
    have hp : ¬ 0 < (inplaceDelta s u).prefixlen :=
      fun hp => by have := hsame (by omega); omega
    have hq : ¬ 0 < (inplaceDelta s u).suffixlen :=
      fun hq => by have := hsame (by omega); omega
    simp only [hp, hq, decide_false, bne_eq_false_iff_eq] at hfp hfq
    rw [if_neg, if_neg (by omega)]
    rintro (hge | hflag | hflag)
    · omega
    · exact hflag hfp
    · exact hflag hfq
  · rw [if_pos (.inl (by omega)), if_neg (by omega), heq, hkeep]
  · rw [if_pos (.inl (by omega)), if_pos hlong]

/-- The row pair of primary and standby stays one: the next update can be
replayed against the page this one left. -/
theorem performUpdateNewRedoAction_sameBody (b : StandbyPage s) (x : XlUpdate)
    {new : List UInt8} (hreb : Rebuilt (inplaceDifftup s u) new) :
    SameBody (inplaceImage s u)
      ((performUpdateNewRedoAction x (performUpdateOldRedoAction x b.page s.rp) s.rp new).1.read
        (inplacePage s u).2.offset (inplacePage s u).2.len) := by
  set len := u.uheaptup.bytes.length
  obtain ⟨hoff, _, hmax⟩ := inplacePage_rp s u
  have hdiff := sameBody_inplaceDifftup s u
  have hlen := hreb.length_eq.trans hdiff.length_eq.symm
  have hge := u.uheaptup.ok.length_ge
  have hpage : (performUpdateNewRedoAction x (performUpdateOldRedoAction x b.page s.rp) s.rp new).1 =
      (performUpdateOldRedoAction x b.page s.rp).write s.rp.offset new := by
    unfold performUpdateNewRedoAction
    split <;> rfl
  rw [hpage, hoff, hmax]
  have hread : ((performUpdateOldRedoAction x b.page s.rp).write s.rp.offset new).read
      s.rp.offset (max len s.rp.len) = new ++ s.image.drop len := by
    rw [show max len s.rp.len = new.length + (s.rp.len - len) by omega, Mem.read_add,
      Mem.read_write_self, Mem.read_write_of_disjoint (.inr le_rfl),
      (b.old_same x).drop_eq hge, drop_read, hlen]
  have hhoff : tHoff new = tHoff u.uheaptup.bytes :=
    (congrArg (fun h => h.t_hoff.toNat) hreb.header).trans hdiff.hoff_eq.symm
  rw [hread]
  constructor
  · simp [length_inplaceImage, hlen, RowOnPage.image]
    omega
  · have hlt : offsetTHoff < new.length := hlen ▸ Nat.lt_of_lt_of_le (by decide) hge
    rw [tHoff_inplaceImage, ← hhoff]
    simp only [tHoff, List.getD_eq_getElem?_getD, List.getElem?_append_left hlt]
  · rw [inplaceImage_body, List.drop_append_of_le_length (by omega), hreb.body, ← hdiff.body_eq]

/-- Replay of an update in place raises no error. -/
theorem replayInplaceUpdate_ok (b : StandbyPage s) {x : XlUpdate}
    (hx : logInplaceUpdate s u = some x) :
    ∃ page, replayInplaceUpdate x b.page s.rp = some (page, (inplacePage s u).2) ∧
      SameBody (inplaceImage s u) (page.read (inplacePage s u).2.offset (inplacePage s u).2.len) := by
  obtain ⟨new, hnew, hreb⟩ := replay_inplace s u b hx
  refine ⟨_, ?_, performUpdateNewRedoAction_sameBody s u b x hreb⟩
  rw [replayInplaceUpdate, hnew, Option.map_some, ← replay_inplace_rp s u _ hx hreb]

end Inplace

/-! ## Runs -/

/-- A run of in-place updates on the primary: the row it leaves and the
records, oldest first. -/
def logInplaceUpdates : RowOnPage → List InplaceUpdate → Option (RowOnPage × List XlUpdate)
  | s, [] => some (s, [])
  | s, u :: us =>
    match uheapUpdateInplace s u, logInplaceUpdate s u with
    | some (s', _), some x => (logInplaceUpdates s' us).map fun r => (r.1, x :: r.2)
    | _, _ => none

/-- The standby's row pointer and page after the records. -/
def replayInplaceUpdates : Mem × RowPtr → List XlUpdate → Option (Mem × RowPtr)
  | r, [] => some r
  | r, x :: xs => (replayInplaceUpdate x r.1 r.2).bind fun r => replayInplaceUpdates r xs

/-- Run lemma: any run of in-place updates is replayed without an error, and
after it the standby's row pointer is the primary's and locates the same row. -/
theorem replayInplaceUpdates_follows (us : List InplaceUpdate) :
    ∀ (s : RowOnPage) (b : StandbyPage s), ∃ s' xs, logInplaceUpdates s us = some (s', xs) ∧
      xs.length = us.length ∧ ∃ r, replayInplaceUpdates (b.page, s.rp) xs = some r ∧ r.2 = s'.rp ∧
      SameBody s'.image (r.1.read s'.rp.offset s'.rp.len) := by
  induction us with
  | nil => exact fun s b => ⟨s, [], rfl, rfl, _, rfl, rfl, b.same⟩
  | cons u us ih =>
    intro s b
    have hlog := logInplaceUpdate_eq s u
    generalize logUHeapUpdate _ = x at hlog
    obtain ⟨urec, hw, _⟩ := writeInplaceUndo_spec s.image_ok u
    set s₁ : RowOnPage := ⟨(inplacePage s u).1, (inplacePage s u).2,
      (inplacePage_rp s u).2.1.trans s.normal, rowOk_inplaceImage s u⟩
    have hup : uheapUpdateInplace s u = some (s₁, urec, urec.rawdata.length) := by
      rw [uheapUpdateInplace, hw]
      rfl
    obtain ⟨page, hreplay, hbody⟩ := replayInplaceUpdate_ok s u b hlog
    obtain ⟨s', xs, hrun, hlen, r, hr, hrp, hsame⟩ := ih s₁ ⟨page, hbody⟩
    refine ⟨s', x :: xs, ?_, by simp [hlen], r, ?_, hrp, hsame⟩
    · rw [logInplaceUpdates, hup, hlog]
      simp only [hrun, Option.map_some]
    · rw [replayInplaceUpdates, hreplay]
      exact hr

/-! ## One update -/

/-- **Replay of an update rebuilds the primary's row.** Against the same old
row, the record of an in-place update gives the new row's length, logged header
fields, bitmap and data, and the row pointer ends as `PutInplaceUpdateTuple`
left it. The record of a same-page non-in-place update does so too, unless all
that is logged of the new row is its header: then redo ends with an error. -/
theorem updateReplay_rebuilds_row_iff (s : RowOnPage) (b : StandbyPage s) :
    (∀ u : InplaceUpdate, ∃ x row page, logInplaceUpdate s u = some x ∧
      replayNewTuple x b.page s.rp = some row ∧ Rebuilt (inplaceDifftup s u) row ∧
      replayInplaceUpdate x b.page s.rp = some (page, (inplacePage s u).2)) ∧
    ∀ u : NonInplaceUpdate,
      (∃ row, replayNewTuple (logNonInplaceUpdate s u) b.page s.rp = some row ∧
        Rebuilt (stampNewTuple u) row) ↔
      ¬ (u.logicallyLogged = false ∧ tHoff u.uheaptup.bytes = SizeOfUHeapDiskTupleData ∧
        EndsOld (rowData s.image) (rowData u.uheaptup.bytes)) := by
  refine ⟨fun u => ?_, fun u => ?_⟩
  · have hlog := logInplaceUpdate_eq s u
    obtain ⟨row, hrow, hreb⟩ := replay_inplace s u b hlog
    obtain ⟨page, hpage, -⟩ := replayInplaceUpdate_ok s u b hlog
    exact ⟨_, row, page, hlog, hrow, hreb, hpage⟩
  · rw [replay_nonInplace_iff, logsHeaderOnly_nonInplace]

/-- A row with the text `ab<TAB>XYZ`: the length byte of a text of three letters is a tab. -/
def tabRowOnPage : RowOnPage :=
  ⟨Mem.write (fun _ => 0) 0 [0, 0, 0, 0, 0, 0, 0, 0, 0, 0, 11, 15, 97, 98, 9, 88, 89, 90],
    ⟨0, .normal, 18⟩, rfl, ⟨by decide, by decide, by decide, by decide⟩⟩

/-- A row with the text `XYZ`. -/
def xyzRow : DiskTuple :=
  ⟨[0, 0, 0, 0, 0, 0, 0, 0, 0, 0, 11, 9, 88, 89, 90],
    ⟨by decide, by decide, by decide, by decide⟩⟩

/-- The one text replaced by the other, not in place: replay raises an error. -/
theorem updateReplay_fails :
    replayNewTuple (logNonInplaceUpdate tabRowOnPage ⟨xyzRow, 1, 1, 100, false⟩)
      tabRowOnPage.page tabRowOnPage.rp = none := by
  decide

end OpenGauss.Ustore
