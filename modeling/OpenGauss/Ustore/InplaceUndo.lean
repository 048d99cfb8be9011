import OpenGauss.Ustore.InplaceUpdate

/-!
# In-place updates are undone exactly

The argument has three parts that meet in `uheapUpdateInplace_undo`:

* the comparison loops only report bytes that old and new row share
  (`xorDelta_sound`);
* the payload is parsed back field by field (`parse_inplacePayload`), so the
  old row is rebuilt from it and any row that agrees with the new one from
  the td id on (`rebuildOldDiskTuple_eq`);
* the row left on the page is such a row whenever the delta uses it
  (`rowData_inplaceImage`).

A run of updates is then walked back record by record, each step using only
that the step before restored the row that was compared.
-/

namespace OpenGauss.Ustore

open Lib Undo

/-! ## The comparison loops -/

/-- What the rebuilders need to know about a delta. -/
structure XorDelta.Sound (old new : List UInt8) (d : XorDelta) : Prop where
  affixes : CommonAffixes (rowData old) (rowData new) d.prefixlen d.suffixlen
  flag_prefix : (d.flags &&& UREC_INPLACE_UPDATE_XOR_PREFIX != 0) = decide (0 < d.prefixlen)
  flag_suffix : (d.flags &&& UREC_INPLACE_UPDATE_XOR_SUFFIX != 0) = decide (0 < d.suffixlen)
  same_size : 0 < d.prefixlen + d.suffixlen → new.length = old.length

theorem savingLen_le (n : Nat) : savingLen n ≤ n := by
  unfold savingLen
  split <;> omega

theorem deltaFlags_bits (p q : Nat) {flags : UInt8}
    (h : flags = (if p = 0 then 0 else UREC_INPLACE_UPDATE_XOR_PREFIX) |||
      (if q = 0 then 0 else UREC_INPLACE_UPDATE_XOR_SUFFIX)) :
    (flags &&& UREC_INPLACE_UPDATE_XOR_PREFIX != 0) = decide (0 < p) ∧
      (flags &&& UREC_INPLACE_UPDATE_XOR_SUFFIX != 0) = decide (0 < q) := by
  subst h
  rcases Nat.eq_zero_or_pos p with rfl | hp <;> rcases Nat.eq_zero_or_pos q with rfl | hq
  · decide
  · rw [if_neg (Nat.pos_iff_ne_zero.mp hq), decide_eq_true hq]; decide
  · rw [if_neg (Nat.pos_iff_ne_zero.mp hp), decide_eq_true hp]; decide
  · rw [if_neg (Nat.pos_iff_ne_zero.mp hp), if_neg (Nat.pos_iff_ne_zero.mp hq),
      decide_eq_true hp, decide_eq_true hq]; decide

/-- The prefix loop stops at the shorter row, the suffix loop at what the
prefix left of it, so prefix and suffix never overlap in either row. -/
theorem commonAffixes_affixLens (oldp newp : List UInt8) :
    CommonAffixes oldp newp (affixLens oldp newp).1 (affixLens oldp newp).2 := by
  unfold affixLens
  apply CommonAffixes.of_matchLen (savingLen_le _) (savingLen_le _)
  have hp := Nat.le_trans (savingLen_le _)
    (matchLen_le_bound (min oldp.length newp.length) oldp newp)
  have hq := Nat.le_trans (savingLen_le _)
    (matchLen_le_bound (min oldp.length newp.length -
      savingLen (matchLen (min oldp.length newp.length) oldp newp)) oldp.reverse newp.reverse)
  omega

theorem xorDelta_sound (old new : List UInt8) (logged : Bool) :
    XorDelta.Sound old new (xorDelta old new logged) := by
  unfold xorDelta
  split
  · rename_i hcond
    have haff := commonAffixes_affixLens (rowData old) (rowData new)
    generalize affixLens (rowData old) (rowData new) = lens at haff
    obtain ⟨hpre, hsuf⟩ := deltaFlags_bits lens.1 lens.2 rfl
    exact ⟨haff, hpre, hsuf, fun _ => hcond.1⟩
  · exact ⟨CommonAffixes.zero _ _, by decide, by decide, by simp⟩

/-! ## The payload -/

/-- The stored middle of the old data. -/
def payloadMiddle (old : List UInt8) (d : XorDelta) : List UInt8 :=
  ((rowData old).drop d.prefixlen).take ((rowData old).length - d.prefixlen - d.suffixlen)

/-- The payload behind the flags byte. -/
def payloadTail (old : List UInt8) (d : XorDelta) : List UInt8 :=
  (if d.prefixlen > 0 then toLe 2 d.prefixlen else []) ++
    ((if d.suffixlen > 0 then toLe 2 d.suffixlen else []) ++ payloadMiddle old d)

def inplacePayload (old : List UInt8) (d : XorDelta) : List UInt8 :=
  UInt8.ofNat (tHoff old) :: ((old.drop OffsetTdId).take (tHoff old - OffsetTdId) ++
    (d.flags :: payloadTail old d))

def subxidTrailer (u : InplaceUpdate) : List UInt8 :=
  match u.subxid with
  | none => []
  | some x => toLe 8 x.1.toNat

theorem length_header {old : List UInt8} (h : RowOk old) :
    ((old.drop OffsetTdId).take (tHoff old - OffsetTdId)).length = tHoff old - OffsetTdId := by
  have h1 := h.hoff_le
  rw [List.length_take, List.length_drop]
  omega

theorem length_inplacePayload {old : List UInt8} (h : RowOk old) (d : XorDelta) :
    (inplacePayload old d).length = undoXorDeltaSize old d := by
  have hge := h.hoff_ge
  have hle := h.hoff_le
  simp only [SizeOfUHeapDiskTupleData] at hge
  unfold inplacePayload undoXorDeltaSize payloadTail payloadMiddle
  simp only [List.length_cons, List.length_append, List.length_take, List.length_drop, OffsetTdId]
  split <;> split <;> simp only [length_toLe, List.length_nil] <;> omega

theorem containSubXact_prepare (i : UndoUpdateInfo) (subxid : UInt64) (n : Nat) :
    (uheapPrepareUndoUpdate i subxid n).1.containSubXact = false := by
  simp only [uheapPrepareUndoUpdate, undoRecordSetUInfo]
  split <;> split <;> split <;>
    simp only [UndoRecord.containSubXact, UndoRecord.hasInfo, UndoRecord.setUinfo] <;> decide

theorem uheapPrepareUndoUpdate_fields (i : UndoUpdateInfo) (subxid : UInt64) (n : Nat) :
    (uheapPrepareUndoUpdate i subxid n).1.utype = UNDO_INPLACE_UPDATE ∧
      (uheapPrepareUndoUpdate i subxid n).1.wblk.offset = i.offnum ∧
      (uheapPrepareUndoUpdate i subxid n).1.rawdata = [] := by
  simp only [uheapPrepareUndoUpdate, undoRecordSetUInfo]
  split <;> split <;> split <;> exact ⟨rfl, rfl, rfl⟩

/-- The pieces appended one after the other are the payload. -/
theorem appendDelta_eq {base : UndoRecord} (old : List UInt8) (d : XorDelta)
    (hraw : base.rawdata = []) :
    let urec := base.append [UInt8.ofNat (tHoff old)]
    let urec := urec.append ((old.drop OffsetTdId).take (tHoff old - OffsetTdId))
    let urec := urec.append [d.flags]
    let urec := if d.prefixlen > 0 then urec.append (toLe 2 d.prefixlen) else urec
    let urec := if d.suffixlen > 0 then urec.append (toLe 2 d.suffixlen) else urec
    urec.append (((rowData old).drop d.prefixlen).take
      ((rowData old).length - d.prefixlen - d.suffixlen)) = base.append (inplacePayload old d) := by
  by_cases hp : d.prefixlen > 0 <;> by_cases hs : d.suffixlen > 0 <;>
    simp [UndoRecord.append, inplacePayload, payloadTail, payloadMiddle, hraw, hp, hs]

/-- What `UHeapUpdate` writes: no PANIC, the payload has the allocated size,
and the record says whether the trailer is there. -/
theorem writeInplaceUndo_spec {old : List UInt8} (h : RowOk old) (u : InplaceUpdate) :
    ∃ urec, writeInplaceUndo old u = some (urec, urec.rawdata.length) ∧
      urec.rawdata = inplacePayload old (xorDelta old u.uheaptup.bytes u.logicallyLogged) ++
        subxidTrailer u ∧
      urec.utype = UNDO_INPLACE_UPDATE ∧ urec.wblk.offset = u.undo.offnum ∧
      urec.containSubXact = u.subxid.isSome := by
  obtain ⟨hut, hoff, hraw⟩ := uheapPrepareUndoUpdate_fields u.undo u.subxidVal
    (undoXorDeltaSize old (xorDelta old u.uheaptup.bytes u.logicallyLogged))
  have hsub := containSubXact_prepare u.undo u.subxidVal
    (undoXorDeltaSize old (xorDelta old u.uheaptup.bytes u.logicallyLogged))
  have hlen := length_inplacePayload h (xorDelta old u.uheaptup.bytes u.logicallyLogged)
  unfold writeInplaceUndo
  generalize xorDelta old u.uheaptup.bytes u.logicallyLogged = d at *
  simp only
  rw [appendDelta_eq _ _ hraw, if_neg (by simp [hraw, hlen])]
  have hsize : (uheapPrepareUndoUpdate u.undo u.subxidVal (undoXorDeltaSize old d)).2 =
      (inplacePayload old d).length + (subxidTrailer u).length := by
    unfold uheapPrepareUndoUpdate subxidTrailer InplaceUpdate.subxidVal
    rw [hlen]
    cases u.subxid with
    | none => simp
    | some x => simp [x.2, sizeofSubTransactionId]
  generalize uheapPrepareUndoUpdate u.undo u.subxidVal (undoXorDeltaSize old d) = r at *
  have htrailer : subxidTrailer u = match u.subxid with
    | none => []
    | some x => toLe 8 x.1.toNat := rfl
  cases hx : u.subxid with
  | none =>
    rw [hx] at htrailer
    refine ⟨r.1.append (inplacePayload old d), ?_, ?_, hut, hoff, hsub⟩
    · simp [hraw, hsize, htrailer]
    · simp [hraw, htrailer]
  | some x =>
    rw [hx] at htrailer
    refine ⟨((r.1.append (inplacePayload old d)).setUinfo
      UNDO_UREC_INFO_CONTAINS_SUBXACT).append (toLe 8 x.1.toNat), ?_, ?_, hut, hoff, ?_⟩
    · simp [hraw, hsize, htrailer]
    · simp [hraw, htrailer]
    · simp [UndoRecord.containSubXact_setUinfo]

/-! ## Reading the payload -/

variable {old : List UInt8} (h : RowOk old) (d : XorDelta) (t : List UInt8)
include h

theorem payload_flags :
    (inplacePayload old d ++ t).getD (1 + tHoff old - OffsetTdId) 0 = d.flags ∧
      (inplacePayload old d ++ t).drop (1 + tHoff old - OffsetTdId + 1) = payloadTail old d ++ t := by
  have hlen := length_header h
  have hge := h.hoff_ge
  simp only [SizeOfUHeapDiskTupleData] at hge
  rw [show 1 + tHoff old - OffsetTdId =
    ((old.drop OffsetTdId).take (tHoff old - OffsetTdId)).length + 1 by
      rw [hlen]; simp only [OffsetTdId]; omega]
  simp [inplacePayload, payloadTail, List.getD_eq_getElem?_getD, List.drop_append]

theorem payload_header : ((inplacePayload old d ++ t).drop 1).take (tHoff old - OffsetTdId) =
      (old.drop OffsetTdId).take (tHoff old - OffsetTdId) := by
  rw [inplacePayload, List.cons_append, List.drop_succ_cons, List.drop_zero, List.append_assoc]
  exact List.take_left' (length_header h)

theorem parse_inplacePayload {new : List UInt8} (hd : d.Sound old new) :
    let p := parseInplacePayload (inplacePayload old d ++ t)
    p.tHoff = tHoff old ∧ p.flags = d.flags ∧ p.prefixlen = d.prefixlen ∧
      p.suffixlen = d.suffixlen ∧
      (inplacePayload old d ++ t).drop p.readSize = payloadMiddle old d ++ t := by
  have hoff : ((inplacePayload old d ++ t).getD 0 0).toNat = tHoff old := by
    have := tHoff_lt old
    simp [inplacePayload, Nat.mod_eq_of_lt this]
  obtain ⟨hflags, htail⟩ := payload_flags h d t
  have hlen := h.len_lt
  have hle := hd.affixes.le_left
  have hrow : (rowData old).length ≤ old.length := by simp [rowData]
  have hp2 : ofLe (toLe 2 d.prefixlen) = d.prefixlen := ofLe_toLe_of_lt (by omega)
  have hs2 : ofLe (toLe 2 d.suffixlen) = d.suffixlen := ofLe_toLe_of_lt (by omega)
  -- two bytes are skipped for each length field that is there
  have hskip : ∀ (w r : Nat) (x : List UInt8),
      (inplacePayload old d ++ t).drop r = toLe 2 w ++ x →
      (inplacePayload old d ++ t).drop (r + 2) = x := by
    intro w r x hx
    rw [← List.drop_drop, hx, List.drop_left' (length_toLe 2 w)]
  have htake : ∀ (w : Nat) (x : List UInt8), (toLe 2 w ++ x).take 2 = toLe 2 w :=
    fun w x => List.take_left' (length_toLe 2 w)
  simp only [parseInplacePayload, hoff, hflags, hd.flag_prefix, hd.flag_suffix]
  refine ⟨trivial, trivial, ?_⟩
  by_cases hp : 0 < d.prefixlen <;> by_cases hs : 0 < d.suffixlen
  · simp only [payloadTail, hp, hs, if_true, List.append_assoc] at htail
    have h2 := hskip _ _ _ htail
    have h3 := hskip _ _ _ h2
    simp only [hp, hs, decide_true, if_true, htail, h2, h3, htake, hp2, hs2, payloadMiddle]
    exact ⟨trivial, trivial, trivial⟩
  · simp only [payloadTail, hp, hs, if_true, if_false, List.append_assoc, List.nil_append] at htail
    have h2 := hskip _ _ _ htail
    have hs0 : d.suffixlen = 0 := by omega
    simp [hp, hs0, htail, h2, htake, hp2, payloadMiddle]
  · simp only [payloadTail, hp, hs, if_true, if_false, List.append_assoc, List.nil_append] at htail
    have h2 := hskip _ _ _ htail
    have hp0 : d.prefixlen = 0 := by omega
    simp [hs, hp0, htail, h2, htake, hs2, payloadMiddle]
  · simp only [payloadTail, hp, hs, if_false, List.nil_append] at htail
    have hs0 : d.suffixlen = 0 := by omega
    have hp0 : d.prefixlen = 0 := by omega
    simp [hs0, hp0, htail, payloadMiddle]

/-- The old row is rebuilt from its record and any row `cur` with the data
that was compared. -/
theorem rebuildOldDiskTuple_eq {new cur : List UInt8} (hd : d.Sound old new)
    (hcur : 0 < d.prefixlen + d.suffixlen → rowData cur = rowData new)
    (urec : UndoRecord) (hraw : urec.rawdata = inplacePayload old d ++ t)
    (hsub : (if urec.containSubXact then sizeofSubTransactionId else 0) = t.length) :
    rebuildOldDiskTuple urec cur cur.length =
      toLe 4 FrozenTransactionId.toNat ++ old.drop OffsetTdId := by
  obtain ⟨hoff, hflags, hp, hs, hmid⟩ := parse_inplacePayload h d t hd
  have hheader := payload_header h d t
  have hrest : (inplacePayload old d ++ t).length -
      (parseInplacePayload (inplacePayload old d ++ t)).readSize - t.length =
      (payloadMiddle old d).length := by
    rw [← List.length_drop, hmid, List.length_append, Nat.add_sub_cancel]
  unfold rebuildOldDiskTuple
  simp only [hraw, hsub, hoff, hflags, hp, hs, hmid, hrest, hheader, hd.flag_prefix, hd.flag_suffix]
  have htake : (payloadMiddle old d ++ t).take ((payloadMiddle old d).length + d.prefixlen +
      d.suffixlen - d.prefixlen - d.suffixlen) = payloadMiddle old d := by
    rw [show (payloadMiddle old d).length + d.prefixlen + d.suffixlen - d.prefixlen -
      d.suffixlen = (payloadMiddle old d).length by omega]
    exact List.take_left' rfl
  -- prefix and suffix come from the newer row
  have hpre : (if decide (0 < d.prefixlen) = true then
      (cur.drop (tHoff cur)).take d.prefixlen else []) = (rowData new).take d.prefixlen := by
    by_cases hpos : 0 < d.prefixlen
    · have hdata : cur.drop (tHoff cur) = rowData new := hcur (by omega)
      rw [if_pos (decide_eq_true hpos), hdata]
    · have h0 : d.prefixlen = 0 := by omega
      simp [h0]
  have hsuf : (if decide (0 < d.suffixlen) = true then
      (cur.drop (tHoff cur + d.prefixlen + (cur.length - tHoff cur) - d.prefixlen -
        d.suffixlen)).take d.suffixlen else []) =
      (rowData new).drop ((rowData new).length - d.suffixlen) := by
    by_cases hpos : 0 < d.suffixlen
    · have hdata : cur.drop (tHoff cur) = rowData new := hcur (by omega)
      have hlen : cur.length - tHoff cur = (rowData new).length := by
        rw [← hdata, List.length_drop]
      have hle := hd.affixes.le_right
      have hstart : tHoff cur + d.prefixlen + (rowData new).length - d.prefixlen - d.suffixlen =
          tHoff cur + ((rowData new).length - d.suffixlen) := by omega
      rw [if_pos (decide_eq_true hpos), hlen, hstart, ← List.drop_drop, hdata]
      apply List.take_of_length_le
      rw [List.length_drop]
      omega
    · have h0 : d.suffixlen = 0 := by omega
      simp [h0]
  rw [htake, hpre, hsuf]
  have hjoin : (old.drop OffsetTdId).take (tHoff old - OffsetTdId) ++ rowData old =
      old.drop OffsetTdId := by
    have hge := h.hoff_ge
    simp only [SizeOfUHeapDiskTupleData] at hge
    have hdata : rowData old = (old.drop OffsetTdId).drop (tHoff old - OffsetTdId) := by
      rw [List.drop_drop, rowData]
      congr 1
      simp only [OffsetTdId]
      omega
    rw [hdata, List.take_append_drop]
  simp only [payloadMiddle, List.append_assoc]
  rw [hd.affixes.join, hjoin]

theorem sameFromTdId_frozen :
    SameFromTdId (toLe 4 FrozenTransactionId.toNat ++ old.drop OffsetTdId) old := by
  have hge := h.length_ge
  simp only [SizeOfUHeapDiskTupleData] at hge
  refine ⟨?_, List.drop_left' (length_toLe 4 _)⟩
  simp [OffsetTdId]
  omega

omit h

/-! ## The row left on the page -/

section Page

variable (s : RowOnPage) (u : InplaceUpdate)

theorem inplacePage_rp :
    (inplacePage s u).2.offset = s.rp.offset ∧ (inplacePage s u).2.flags = s.rp.flags ∧
      (inplacePage s u).2.len = max u.uheaptup.bytes.length s.rp.len := by
  have hlt := u.uheaptup.ok.len_lt
  unfold inplacePage putInplaceUpdateTuple
  by_cases hgt : u.uheaptup.bytes.length > s.rp.len
  · simp only [hgt, if_true, RowPtr.changeLen_len hlt]
    exact ⟨rfl, rfl, by omega⟩
  · simp only [hgt, if_false]
    exact ⟨trivial, trivial, by omega⟩

theorem grownPtr_offset : (if u.uheaptup.bytes.length > s.rp.len then
    s.rp.changeLen u.uheaptup.bytes.length else s.rp).offset = s.rp.offset := by
  split <;> rfl

theorem inplacePage_hoff :
    (inplacePage s u).1 (s.rp.offset + offsetTHoff) = UInt8.ofNat (tHoff u.uheaptup.bytes) := by
  unfold inplacePage putInplaceUpdateTuple
  simp only [grownPtr_offset]
  have hlt : 0 < [UInt8.ofNat (tHoff u.uheaptup.bytes)].length := by simp
  exact Mem.write_add hlt

theorem inplacePage_body : (inplacePage s u).1.read (s.rp.offset + SizeOfUHeapDiskTupleData)
      (u.uheaptup.bytes.length - SizeOfUHeapDiskTupleData) =
      u.uheaptup.bytes.drop SizeOfUHeapDiskTupleData := by
  unfold inplacePage putInplaceUpdateTuple
  simp only [grownPtr_offset]
  -- flag, flag2 and t_hoff lie in front of the data
  rw [Mem.read_write_of_disjoint (by simp [offsetTHoff, SizeOfUHeapDiskTupleData]),
    Mem.read_write_of_disjoint (by simp [offsetFlag2, SizeOfUHeapDiskTupleData]),
    Mem.read_write_of_disjoint (by simp [offsetFlag, SizeOfUHeapDiskTupleData]),
    ← List.length_drop]
  exact Mem.read_write_self _ _ _

def inplaceImage : List UInt8 :=
  (inplacePage s u).1.read (inplacePage s u).2.offset (inplacePage s u).2.len

theorem length_inplaceImage : (inplaceImage s u).length = max u.uheaptup.bytes.length s.rp.len := by
  simp [inplaceImage, (inplacePage_rp s u).2.2]

theorem tHoff_inplaceImage : tHoff (inplaceImage s u) = tHoff u.uheaptup.bytes := by
  have hlen := u.uheaptup.ok.length_ge
  obtain ⟨hoff, _, hmax⟩ := inplacePage_rp s u
  simp only [SizeOfUHeapDiskTupleData] at hlen
  have hlt : offsetTHoff < max u.uheaptup.bytes.length s.rp.len := by
    simp only [offsetTHoff]
    omega
  have hbyte : (inplaceImage s u).getD offsetTHoff 0 = UInt8.ofNat (tHoff u.uheaptup.bytes) := by
    rw [List.getD_eq_getElem?_getD, inplaceImage, hoff, hmax, Mem.getElem?_read, if_pos hlt,
      inplacePage_hoff]
    rfl
  rw [tHoff, hbyte]
  simpa using Nat.mod_eq_of_lt (tHoff_lt u.uheaptup.bytes)

theorem rowOk_inplaceImage : RowOk (inplaceImage s u) where
  hoff_ge := by rw [tHoff_inplaceImage]; exact u.uheaptup.ok.hoff_ge
  hoff_le := by
    have := u.uheaptup.ok.hoff_le
    rw [tHoff_inplaceImage, length_inplaceImage]
    omega
  len_lt := by
    have h1 := u.uheaptup.ok.len_lt
    have h2 := s.ok.len_lt
    rw [Mem.length_read] at h2
    rw [length_inplaceImage]
    omega
  body_pos := by
    have := u.uheaptup.ok.body_pos
    rw [length_inplaceImage]
    omega

/-- The row `PutInplaceUpdateTuple` leaves: the new bytes, and what a longer
old row had behind them. -/
theorem inplaceImage_body : (inplaceImage s u).drop SizeOfUHeapDiskTupleData =
    u.uheaptup.bytes.drop SizeOfUHeapDiskTupleData ++ s.image.drop u.uheaptup.bytes.length := by
  have hlen := u.uheaptup.ok.length_ge
  obtain ⟨hoff, _, hmax⟩ := inplacePage_rp s u
  set len := u.uheaptup.bytes.length
  have htail : (inplacePage s u).1.read (s.rp.offset + len) (s.rp.len - len) = s.image.drop len := by
    rw [RowOnPage.image, Mem.drop_read]
    apply Mem.read_congr
    intro i _
    unfold inplacePage putInplaceUpdateTuple stampHeader
    simp only [SizeOfUHeapDiskTupleData] at hlen
    simp only [grownPtr_offset]
    iterate 7 rw [Mem.write_of_not_mem]
    all_goals
      right
      simp only [length_toLe, List.length_singleton, List.length_drop, OffsetTdId, offsetFlag,
        offsetFlag2, offsetTHoff, SizeOfUHeapDiskTupleData]
      omega
  rw [inplaceImage, Mem.drop_read, hoff, hmax,
    show max len s.rp.len - SizeOfUHeapDiskTupleData =
      (len - SizeOfUHeapDiskTupleData) + (s.rp.len - len) by omega,
    Mem.read_add, inplacePage_body,
    show s.rp.offset + SizeOfUHeapDiskTupleData + (len - SizeOfUHeapDiskTupleData) =
      s.rp.offset + len by omega, htail]

/-- When the sizes agree the page holds the new data and nothing else behind
the header. -/
theorem rowData_inplaceImage (hsize : u.uheaptup.bytes.length = s.image.length) :
    rowData (inplaceImage s u) = rowData u.uheaptup.bytes := by
  have hge := u.uheaptup.ok.hoff_ge
  have hdrop := inplaceImage_body s u
  rw [hsize, List.drop_length, List.append_nil] at hdrop
  unfold rowData
  rw [tHoff_inplaceImage,
    show tHoff u.uheaptup.bytes = SizeOfUHeapDiskTupleData +
      (tHoff u.uheaptup.bytes - SizeOfUHeapDiskTupleData) by omega,
    ← List.drop_drop, ← List.drop_drop, hdrop]

/-- `UHeapUpdate` on the in-place path: the row it leaves, its undo record
and the payload size the record was allocated for. -/
def uheapUpdateInplace : Option (RowOnPage × UndoRecord × Nat) :=
  (writeInplaceUndo s.image u).map fun r =>
    (⟨(inplacePage s u).1, (inplacePage s u).2, (inplacePage_rp s u).2.1.trans s.normal,
      rowOk_inplaceImage s u⟩, r.1, r.2)

end Page

/-! ## Going back over a run -/

/-- The record takes every row that agrees with `new` from the td id on back
to `old`. -/
def Undoes (urec : UndoRecord) (old new : List UInt8) : Prop :=
  ∀ cur, SameFromTdId cur new → SameFromTdId (getTupleFromUndoRecord urec cur) old

/-- One update and its record. -/
theorem uheapUpdateInplace_undo (s : RowOnPage) (u : InplaceUpdate) :
    ∃ s' urec, uheapUpdateInplace s u = some (s', urec, urec.rawdata.length) ∧
      Undoes urec s.image s'.image ∧ urec.utype = UNDO_INPLACE_UPDATE ∧
      urec.wblk.offset ≠ InvalidOffsetNumber := by
  obtain ⟨urec, hw, hraw, hut, hoff, hsub⟩ := writeInplaceUndo_spec s.ok u
  refine ⟨_, urec, by rw [uheapUpdateInplace, RowOnPage.image, hw]; rfl, ?_, hut,
    hoff ▸ u.undo.offnum_ne⟩
  intro cur hcur
  have hd := xorDelta_sound s.image u.uheaptup.bytes u.logicallyLogged
  have htrail : (if urec.containSubXact then sizeofSubTransactionId else 0) =
      (subxidTrailer u).length := by
    rw [hsub, subxidTrailer]
    cases u.subxid <;> simp [sizeofSubTransactionId]
  have hdata : 0 < (xorDelta s.image u.uheaptup.bytes u.logicallyLogged).prefixlen +
      (xorDelta s.image u.uheaptup.bytes u.logicallyLogged).suffixlen →
      rowData cur = rowData u.uheaptup.bytes := by
    intro hpos
    rw [hcur.rowData_eq (rowOk_inplaceImage s u)]
    exact rowData_inplaceImage s u (hd.same_size hpos)
  have hreb := rebuildOldDiskTuple_eq s.ok _ (subxidTrailer u) hd hdata urec hraw htrail
  rw [getTupleFromUndoRecord, hut, if_neg (by decide), if_pos rfl, hreb]
  exact sameFromTdId_frozen s.ok

/-- Rolling a record back writes what the reader's walk computes from the
row on the page. -/
theorem copyTupleFromUndoRecord_spec {urec : UndoRecord} {s : RowOnPage} {old : List UInt8}
    (hut : urec.utype = UNDO_INPLACE_UPDATE) (hoff : urec.wblk.offset ≠ InvalidOffsetNumber)
    (hundo : Undoes urec old s.image) (hold : RowOk old) :
    ∃ page' rp', copyTupleFromUndoRecord urec s.page s.rp = some (page', rp') ∧
      rp'.offset = s.rp.offset ∧ rp'.len = old.length ∧
      SameFromTdId (page'.read rp'.offset rp'.len) old := by
  set row := rebuildOldDiskTuple urec (s.page.read s.rp.offset s.rp.len) s.rp.len
  have hsame := hundo s.image (SameFromTdId.refl _)
  have hget : getTupleFromUndoRecord urec s.image =
      row := by
    rw [getTupleFromUndoRecord, hut, if_neg (by decide), if_pos rfl, RowOnPage.image,
      Mem.length_read]
  rw [hget] at hsame
  have hlt : row.length
      < 2 ^ 15 := hsame.1 ▸ hold.len_lt
  refine ⟨s.page.write s.rp.offset
      row, _, ?_,
    RowPtr.changeLen_offset _ _, (RowPtr.changeLen_len hlt).trans hsame.1, ?_⟩
  · rw [copyTupleFromUndoRecord, hut, if_neg (by simp [hoff, s.normal]), if_neg (by decide),
      if_pos rfl]
  · rw [RowPtr.changeLen_len hlt, RowPtr.changeLen_offset, Mem.read_write_self]
    exact hsame

/-- What a run of in-place updates of one row leaves behind: the row, the
undo records with their allocated payload sizes, and the row images before
each update, all newest first. -/
structure UpdateTrail where
  row : RowOnPage
  records : List (UndoRecord × Nat)
  images : List (List UInt8)

def uheapUpdates : UpdateTrail → List InplaceUpdate → Option UpdateTrail
  | tr, [] => some tr
  | tr, u :: us =>
    match uheapUpdateInplace tr.row u with
    | none => none
    | some (row, urec, allocated) =>
      uheapUpdates ⟨row, (urec, allocated) :: tr.records, tr.row.image :: tr.images⟩ us

/-- The reader's walk: each record is applied to the version the record
before it gave. -/
def undoWalk : List UInt8 → List UndoRecord → List (List UInt8)
  | _, [] => []
  | tuple, urec :: rest =>
    getTupleFromUndoRecord urec tuple :: undoWalk (getTupleFromUndoRecord urec tuple) rest

/-- Each record of a trail undoes the image it was written for. -/
inductive TrailOk : List UInt8 → List (UndoRecord × Nat) → List (List UInt8) → Prop
  | nil {cur} : TrailOk cur [] []
  | cons {cur old urec allocated rest images} : Undoes urec old cur → RowOk old →
      urec.utype = UNDO_INPLACE_UPDATE → urec.wblk.offset ≠ InvalidOffsetNumber →
      urec.rawdata.length = allocated → TrailOk old rest images →
      TrailOk cur ((urec, allocated) :: rest) (old :: images)

/-- Run lemma: every update extends a good trail to a good trail. -/
theorem uheapUpdates_trailOk (us : List InplaceUpdate) : ∀ tr : UpdateTrail,
    TrailOk tr.row.image tr.records tr.images →
    ∃ tr', uheapUpdates tr us = some tr' ∧ TrailOk tr'.row.image tr'.records tr'.images ∧
      tr'.records.length = tr.records.length + us.length := by
  induction us with
  | nil => exact fun tr htr => ⟨tr, rfl, htr, rfl⟩
  | cons u us ih =>
    intro tr htr
    obtain ⟨row, urec, hup, hundo, hut, hoff⟩ := uheapUpdateInplace_undo tr.row u
    obtain ⟨tr', hrun, hok, hlen⟩ := ih
      ⟨row, (urec, urec.rawdata.length) :: tr.records, tr.row.image :: tr.images⟩
      (.cons hundo tr.row.ok hut hoff rfl htr)
    refine ⟨tr', by rw [uheapUpdates, hup]; exact hrun, hok, ?_⟩
    rw [hlen, List.length_cons, List.length_cons]
    omega

theorem TrailOk.walk {cur : List UInt8} {records : List (UndoRecord × Nat)}
    {images : List (List UInt8)} (h : TrailOk cur records images) :
    ∀ tuple, SameFromTdId tuple cur →
      List.Forall₂ SameFromTdId (undoWalk tuple (records.map (·.1))) images := by
  induction h with
  | nil => exact fun _ _ => .nil
  | cons hundo _ _ _ _ _ ih => exact fun tuple ht => .cons (hundo tuple ht) (ih _ (hundo tuple ht))

theorem TrailOk.allocated {cur : List UInt8} {records : List (UndoRecord × Nat)}
    {images : List (List UInt8)} (h : TrailOk cur records images) :
    ∀ r ∈ records, r.1.rawdata.length = r.2 := by
  induction h with
  | nil => simp
  | cons _ _ _ _ hlen _ ih =>
    exact List.forall_mem_cons.mpr ⟨hlen, ih⟩

/-- **In-place updates are undone exactly.** After any run of in-place
updates of a row, the walk from the row on the page over the undo records,
newest first, yields the earlier images in turn; rolling the newest record
back leaves the previous image and its length on the page; and every payload
has the size its record was allocated for. -/
theorem inplaceUpdates_undone (s : RowOnPage) (us : List InplaceUpdate) :
    ∃ tr, uheapUpdates ⟨s, [], []⟩ us = some tr ∧ tr.records.length = us.length ∧
      List.Forall₂ SameFromTdId (undoWalk tr.row.image (tr.records.map (·.1))) tr.images ∧
      (∀ r ∈ tr.records, r.1.rawdata.length = r.2) ∧
      (∀ r rest img imgs, tr.records = r :: rest → tr.images = img :: imgs →
        ∃ page' rp', copyTupleFromUndoRecord r.1 tr.row.page tr.row.rp = some (page', rp') ∧
          rp'.offset = tr.row.rp.offset ∧ rp'.len = img.length ∧
          SameFromTdId (page'.read rp'.offset rp'.len) img) := by
  obtain ⟨tr, hrun, hok, hlen⟩ := uheapUpdates_trailOk us ⟨s, [], []⟩ .nil
  refine ⟨tr, hrun, by simpa using hlen, hok.walk _ (SameFromTdId.refl _), hok.allocated, ?_⟩
  intro r rest img imgs hr hi
  rw [hr, hi] at hok
  cases hok with
  | cons hundo hold hut hoff _ _ => exact copyTupleFromUndoRecord_spec hut hoff hundo hold

end OpenGauss.Ustore
