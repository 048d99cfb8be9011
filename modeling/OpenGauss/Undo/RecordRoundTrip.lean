import OpenGauss.Lib.Overlay
import OpenGauss.Undo.RecordWrite

/-!
# Undo records are read back as they were written

One `ReadUndoRecord` fills the parts with the next bytes of the record's
tiled form (`readUndoRecord_spec`). Which parts there are is known from the
header only; the reader tests it only after the header
is complete, so it walks over the parts the writer stored
(`readUndoParts_stored`).
-/

namespace OpenGauss.Undo

open Lib
open List (mem_filter append_assoc length_append length_drop drop_drop replicate map_cons
  take_of_length_le append_nil)
open UndoRecord (init partBytes load)
open UndoPart (whdr stored wblk size)
open UInt64 (ofNat ofNat_toNat)

variable {dest : List UInt8} {ps : List UndoPart} {page : Mem} {n : Nat} {c c' : ReadCursor}
  {buf : RecordBuf} {r : StorableRecord} {p : UndoPart}

/-! ## One part -/

/-- What `ReadUndoBytes` leaves: `n` bytes of the page in the destination. -/
structure BytesRead (page : Mem) (dest : List UInt8) (c : ReadCursor)
    (out : Bool × List UInt8 × ReadCursor) : Prop where
  done : out.1 = decide (dest.length - c.myBytesRead ≤ BLCKSZ - c.readptr)
  bytes : out.2.1 = overlay dest c.myBytesRead
    (page.read c.readptr (min (dest.length - c.myBytesRead) (BLCKSZ - c.readptr)))
  readptr : out.2.2.readptr = c.readptr + min (dest.length - c.myBytesRead) (BLCKSZ - c.readptr)
  alreadyRead : out.2.2.alreadyRead =
    c.alreadyRead + min (dest.length - c.myBytesRead) (BLCKSZ - c.readptr)
  myBytesRead : out.1 = true → out.2.2.myBytesRead = c.myBytesRead - dest.length

theorem readUndoBytes_spec (page : Mem) (dest : List UInt8) (c : ReadCursor) :
    BytesRead page dest c (readUndoBytes page dest c) := by
  unfold readUndoBytes
  by_cases hdone : c.myBytesRead ≥ dest.length
  · have hzero : min (dest.length - c.myBytesRead) (BLCKSZ - c.readptr) = 0 := by omega
    rw [if_pos hdone]
    refine ⟨?_, ?_, ?_, ?_, fun _ => rfl⟩
    · exact (decide_eq_true (by omega)).symm
    · simp [hzero]
    · simp [hzero]
    · simp [hzero]
  rw [if_neg hdone]
  by_cases hroom : min (dest.length - c.myBytesRead) (BLCKSZ - c.readptr) = 0
  · simp only [hroom, if_true]
    refine ⟨?_, ?_, ?_, ?_, fun h => Bool.noConfusion h⟩
    · exact (decide_eq_false (by omega)).symm
    · simp [hroom]
    · simp [hroom]
    · simp [hroom]
  · simp only [hroom, if_false]
    refine ⟨?_, ?_, rfl, rfl, ?_⟩
    · rw [Bool.eq_iff_iff, beq_iff_eq, decide_eq_true_eq]
      omega
    · simp only [overlay, Mem.length_read]
    · intro _
      show 0 = _
      omega

theorem BytesRead.length_eq {out : Bool × List UInt8 × ReadCursor} (h : BytesRead page dest c out) :
    out.2.1.length = dest.length := by
  by_cases hdone : dest.length ≤ c.myBytesRead
  · have hzero : min (dest.length - c.myBytesRead) (BLCKSZ - c.readptr) = 0 := by omega
    rw [h.bytes, hzero, Mem.read_zero, overlay_nil]
  rw [h.bytes]
  apply length_overlay
  rw [Mem.length_read]
  omega

/-! ## The fixed-size parts -/

/-- The memory of the parts `ps`, in order. -/
def RecordBuf.flatParts (buf : RecordBuf) (ps : List UndoPart) : List UInt8 :=
  (ps.map buf.part).flatten

/-- What the walk over `ps` leaves. -/
structure PartsRead (page : Mem) (ps : List UndoPart) (buf : RecordBuf) (c : ReadCursor)
    (out : Bool × RecordBuf × ReadCursor) : Prop where
  done : out.1 = decide ((buf.flatParts ps).length - c.myBytesRead ≤ BLCKSZ - c.readptr)
  bytes : out.2.1.flatParts ps = overlay (buf.flatParts ps) c.myBytesRead
    (page.read c.readptr (min ((buf.flatParts ps).length - c.myBytesRead) (BLCKSZ - c.readptr)))
  readptr : out.2.2.readptr = c.readptr +
    min ((buf.flatParts ps).length - c.myBytesRead) (BLCKSZ - c.readptr)
  alreadyRead : out.2.2.alreadyRead = c.alreadyRead +
    min ((buf.flatParts ps).length - c.myBytesRead) (BLCKSZ - c.readptr)
  myBytesRead : out.1 = true → out.2.2.myBytesRead = c.myBytesRead - (buf.flatParts ps).length
  length_part : ∀ q, (out.2.1.part q).length = (buf.part q).length
  other : ∀ q, q ∉ ps → out.2.1.part q = buf.part q
  rawdata : out.2.1.rawdata = buf.rawdata

theorem PartsRead.nil (page : Mem) (buf : RecordBuf) (c : ReadCursor) :
    PartsRead page [] buf c (true, buf, c) := by
  constructor <;> simp [RecordBuf.flatParts]

/-- The memory after one part was read into. -/
def RecordBuf.setPart (buf : RecordBuf) (p : UndoPart) (dest : List UInt8) : RecordBuf :=
  { buf with part := Function.update buf.part p dest }

@[simp] theorem RecordBuf.setPart_self (buf : RecordBuf) (p : UndoPart) (dest : List UInt8) :
    (buf.setPart p dest).part p = dest := Function.update_self _ _ _

theorem RecordBuf.setPart_of_ne {q : UndoPart} (hq : q ≠ p) (dest : List UInt8) :
    (buf.setPart p dest).part q = buf.part q := Function.update_of_ne hq _ _

theorem RecordBuf.flatParts_setPart (hp : p ∉ ps) (dest : List UInt8) :
    (buf.setPart p dest).flatParts ps = buf.flatParts ps := by
  unfold RecordBuf.flatParts
  congr 1
  apply List.map_congr_left
  intro q hq
  exact RecordBuf.setPart_of_ne (ne_of_mem_of_not_mem hq hp) dest

theorem RecordBuf.length_setPart (h : dest.length = (buf.part p).length) (q : UndoPart) :
    ((buf.setPart p dest).part q).length = (buf.part q).length := by
  by_cases hq : q = p
  · rw [hq, RecordBuf.setPart_self, h]
  · rw [RecordBuf.setPart_of_ne hq]

theorem RecordBuf.flatParts_cons (buf : RecordBuf) (p : UndoPart) (ps : List UndoPart) :
    buf.flatParts (p :: ps) = buf.part p ++ buf.flatParts ps := rfl

open RecordBuf (flatParts setPart_of_ne setPart_self flatParts_cons)

theorem RecordBuf.length_flatParts_cons (buf : RecordBuf) (p : UndoPart) (ps : List UndoPart) :
    (buf.flatParts (p :: ps)).length = (buf.part p).length + (buf.flatParts ps).length := by
  rw [buf.flatParts_cons, length_append]

theorem PartsRead.stop (hp : p ∉ ps) (h : BytesRead page (buf.part p) c (false, dest, c')) :
    PartsRead page (p :: ps) buf c (false, buf.setPart p dest, c') := by
  have hlong : BLCKSZ - c.readptr < (buf.part p).length - c.myBytesRead := by
    have hd := h.done
    simp only at hd
    have := of_decide_eq_false hd.symm
    omega
  have hlen := buf.length_flatParts_cons p ps
  have hmin : min ((buf.flatParts (p :: ps)).length - c.myBytesRead) (BLCKSZ - c.readptr) =
      min ((buf.part p).length - c.myBytesRead) (BLCKSZ - c.readptr) := by omega
  refine ⟨?_, ?_, ?_, ?_, fun hf => Bool.noConfusion hf,
    buf.length_setPart h.length_eq,
    fun q hq => setPart_of_ne (List.ne_of_not_mem_cons hq) dest, rfl⟩
  · exact (decide_eq_false (by omega)).symm
  · have hdest : dest = _ := h.bytes
    rw [flatParts_cons, setPart_self, RecordBuf.flatParts_setPart hp, hmin, hdest,
      buf.flatParts_cons]
    refine (overlay_append_left ?_ _).symm
    rw [Mem.length_read]
    omega
  · rw [hmin]
    exact h.readptr
  · rw [hmin]
    exact h.alreadyRead

theorem PartsRead.cons {out : Bool × RecordBuf × ReadCursor} (hp : p ∉ ps)
    (h : BytesRead page (buf.part p) c (true, dest, c'))
    (hrest : PartsRead page ps (buf.setPart p dest) c' out) :
    PartsRead page (p :: ps) buf c out := by
  have hfit : (buf.part p).length - c.myBytesRead ≤ BLCKSZ - c.readptr := by
    have hd := h.done
    simp only at hd
    exact of_decide_eq_true hd.symm
  have hdest : dest = _ := h.bytes
  have hptr : c'.readptr = _ := h.readptr
  have hcount : c'.alreadyRead = _ := h.alreadyRead
  have hmy : c'.myBytesRead = c.myBytesRead - (buf.part p).length := h.myBytesRead rfl
  rw [Nat.min_eq_left hfit] at hdest hptr hcount
  have hflat := buf.flatParts_setPart hp dest
  have hlen := buf.length_flatParts_cons p ps
  obtain ⟨h1, h2, h3, h4, h5, h6, h7, h8⟩ := hrest
  rw [hflat, hmy, hptr] at h1 h2
  rw [hflat, hmy, hptr] at h3
  rw [hflat, hmy, hptr, hcount] at h4
  rw [hflat, hmy] at h5
  have hmin : min ((buf.flatParts (p :: ps)).length - c.myBytesRead) (BLCKSZ - c.readptr) =
      (buf.part p).length - c.myBytesRead +
        min ((buf.flatParts ps).length - (c.myBytesRead - (buf.part p).length))
          (BLCKSZ - (c.readptr + ((buf.part p).length - c.myBytesRead))) := by omega
  refine ⟨?_, ?_, ?_, ?_, ?_, fun q => (h6 q).trans (buf.length_setPart h.length_eq q), ?_, h8⟩
  · rw [h1]
    exact decide_eq_decide.mpr (by omega)
  · have hfirst : out.2.1.part p = dest := by
      rw [h7 p hp, setPart_self]
    rw [flatParts_cons, hfirst, h2, hmin, buf.flatParts_cons, Mem.read_add, hdest]
    by_cases hskip : (buf.part p).length ≤ c.myBytesRead
    · -- the part was complete before this page
      have hzero : (buf.part p).length - c.myBytesRead = 0 := by omega
      rw [hzero, Mem.read_zero, overlay_nil, List.nil_append, overlay_append_right hskip]
    have hzero : c.myBytesRead - (buf.part p).length = 0 := by omega
    rw [hzero]
    refine (overlay_append_both ?_ _ _).symm
    rw [Mem.length_read]
    omega
  · rw [h3, hmin]
    omega
  · rw [h4, hmin]
    omega
  · intro hdone
    rw [h5 hdone, hlen]
    omega
  · intro q hq
    rw [h7 q (List.not_mem_of_not_mem_cons hq)]
    exact setPart_of_ne (List.ne_of_not_mem_cons hq) dest

/-- A later part leaves the header, so the tests of `uinfo` keep their
answers. -/
theorem RecordBuf.uinfo_setPart (hp : p ≠ .whdr) (dest : List UInt8) :
    (buf.setPart p dest).uinfo = buf.uinfo := by
  rw [RecordBuf.uinfo, RecordBuf.uinfo, setPart_of_ne (Ne.symm hp)]

/-- Behind the header the walk is over the parts that `uinfo` names. -/
theorem readUndoParts_tail (page : Mem) (ps : List UndoPart) : ∀ (buf : RecordBuf)
    (c : ReadCursor), ps.Nodup → whdr ∉ ps →
    PartsRead page (ps.filter (stored buf.uinfo)) buf c (readUndoParts page ps buf c) := by
  induction ps with
  | nil => exact fun buf c _ _ => PartsRead.nil page buf c
  | cons p ps ih =>
    intro buf c hnodup hhdr
    obtain ⟨hp, hnodup'⟩ := List.nodup_cons.mp hnodup
    have hhdr' : whdr ∉ ps := List.not_mem_of_not_mem_cons hhdr
    have hpf : p ∉ ps.filter (stored buf.uinfo) :=
      fun hmem => hp (mem_filter.mp hmem).1
    by_cases hstored : p.stored buf.uinfo = true
    · have hspec := readUndoBytes_spec page (buf.part p) c
      rw [List.filter_cons_of_pos hstored, readUndoParts, if_pos hstored]
      generalize readUndoBytes page (buf.part p) c = out at hspec
      obtain ⟨done, dest, c'⟩ := out
      cases done with
      | false => exact PartsRead.stop hpf hspec
      | true =>
        have hrest := ih (buf.setPart p dest) c' hnodup' hhdr'
        rw [RecordBuf.uinfo_setPart (List.ne_of_not_mem_cons hhdr).symm] at hrest
        exact PartsRead.cons hpf hspec hrest
    · rw [List.filter_cons_of_neg hstored, readUndoParts, if_neg hstored]
      exact ih buf c hnodup' hhdr'

/-- The whole walk, when the header is the record's as soon as it is
complete. -/
theorem readUndoParts_stored {uinfo : UInt8}
    (hhdr : ∀ dest c', readUndoBytes page (buf.part .whdr) c = (true, dest, c') →
      dest.getD 21 0 = uinfo) :
    PartsRead page (undoParts.filter (stored uinfo)) buf c
      (readUndoParts page undoParts buf c) := by
  have hspec := readUndoBytes_spec page (buf.part .whdr) c
  have hlist : undoParts.filter (stored uinfo) = .whdr ::
      [wblk, .wtxn, .wtd, .wpart, .wtspc, .wpay].filter (stored uinfo) :=
    List.filter_cons_of_pos rfl
  have hnot : whdr ∉
      [wblk, .wtxn, .wtd, .wpart, .wtspc, .wpay].filter (stored uinfo) :=
    fun hmem => absurd (mem_filter.mp hmem).1 (by decide)
  rw [hlist]
  change PartsRead page _ buf c
    (readUndoParts page (.whdr :: [.wblk, .wtxn, .wtd, .wpart, .wtspc, .wpay]) buf c)
  rw [readUndoParts]
  simp only [stored]
  generalize readUndoBytes page (buf.part .whdr) c = out at hspec hhdr
  obtain ⟨done, dest, c'⟩ := out
  cases done with
  | false => exact PartsRead.stop hnot hspec
  | true =>
    have huinfo : (buf.setPart .whdr dest).uinfo = uinfo := by
      rw [RecordBuf.uinfo, setPart_self]
      exact hhdr dest c' rfl
    have hrest := readUndoParts_tail page [.wblk, .wtxn, .wtd, .wpart, .wtspc, .wpay]
      (buf.setPart .whdr dest) c' (by decide) (by decide)
    rw [huinfo] at hrest
    exact PartsRead.cons hnot hspec hrest

/-! ## A record that is partly read -/

theorem Tiled.read_at {pages : UndoZonePages} {blk start k : Nat} {bs bs' : List UInt8} (a : Nat)
    (h : Tiled pages blk start ((bs ++ bs').drop n)) (hpage : a + k ≤ BLCKSZ - start)
    (hlen : k ≤ bs.length - (n + a)) :
    (pages blk).read (start + a) k = (bs.drop (n + a)).take k := by
  rcases Nat.eq_zero_or_pos k with rfl | hk
  · rw [Mem.read_zero, List.take_zero]
  rw [List.drop_append_of_le_length (by omega)] at h
  have hfront := h.read_front hpage (by rw [length_append, length_drop]; omega)
  have hsub : (pages blk).read (start + a) k = ((pages blk).read start (a + k)).drop a := by
    rw [Mem.drop_read, Nat.add_sub_cancel_left]
  rw [hsub, hfront, List.take_append_of_le_length (by rw [length_drop]; omega),
    List.drop_take, drop_drop, Nat.add_sub_cancel_left]

def StorableRecord.parts (r : StorableRecord) : List UndoPart :=
  undoParts.filter (stored r.urec.whdr.uinfo)

/-- All stored bytes with whatever follows them. -/
def StorableRecord.stream (r : StorableRecord) (t : List UInt8) : List UInt8 :=
  r.urec.fixedBytes ++ (r.urec.payloadBytes ++ t)

/-- The reader's memory when `n` bytes of the record have been read. -/
structure Filled (r : StorableRecord) (n : Nat) (buf : RecordBuf) : Prop where
  length_part : ∀ q, (buf.part q).length = q.size
  fixed : buf.flatParts r.parts =
    r.urec.fixedBytes.take n ++ (RecordBuf.init.flatParts r.parts).drop n
  other : ∀ q, q ∉ r.parts → buf.part q = RecordBuf.init.part q
  rawdata : buf.rawdata.getD (replicate r.urec.payloadBytes.length 0) =
    r.urec.payloadBytes.take (n - r.urec.fixedBytes.length) ++
      (replicate r.urec.payloadBytes.length 0).drop (n - r.urec.fixedBytes.length)

/-- The reader's memory when the record is complete. -/
structure Loaded (r : StorableRecord) (buf : RecordBuf) : Prop where
  stored : ∀ p ∈ r.parts, buf.part p = r.urec.partBytes p
  other : ∀ p, p ∉ r.parts → buf.part p = RecordBuf.init.part p
  rawdata : buf.rawdata.getD [] = r.urec.payloadBytes

theorem filled_init (r : StorableRecord) : Filled r 0 RecordBuf.init where
  length_part q := init.length_partBytes q
  fixed := by simp
  other _ _ := rfl
  rawdata := by simp [RecordBuf.init]

/-- Equal memory of equally long parts is equal part by part. -/
theorem part_eq_of_flatten {f g : UndoPart → List UInt8} (hlen : ∀ p, (f p).length = (g p).length)
    (ps : List UndoPart) (h : (ps.map f).flatten = (ps.map g).flatten) : ∀ p ∈ ps, f p = g p := by
  induction ps with
  | nil => exact nofun
  | cons q qs ih =>
    rw [map_cons, map_cons, List.flatten_cons, List.flatten_cons] at h
    obtain ⟨hq, hqs⟩ := List.append_inj h (hlen q)
    exact List.forall_mem_cons.mpr ⟨hq, ih hqs⟩

theorem Filled.length_flat (h : Filled r n buf) :
    (buf.flatParts r.parts).length = r.urec.fixedBytes.length := by
  unfold flatParts UndoRecord.fixedBytes StorableRecord.parts
  rw [List.length_flatten, List.length_flatten, List.map_map, List.map_map]
  congr 1
  apply List.map_congr_left
  intro q _
  exact (h.length_part q).trans (r.urec.length_partBytes q).symm

/-- Once the fixed part is behind the reader, the parts are the record's. -/
theorem Filled.stored (h : Filled r n buf) (hn : r.urec.fixedBytes.length ≤ n) :
    ∀ p ∈ r.parts, buf.part p = r.urec.partBytes p := by
  have hinit := (filled_init r).length_flat
  have hflat := h.fixed
  rw [take_of_length_le hn, List.drop_of_length_le (by omega), append_nil] at hflat
  exact part_eq_of_flatten
    (fun p => (h.length_part p).trans (r.urec.length_partBytes p).symm) r.parts hflat

/-- The header is the first part; its last byte is `uinfo`. -/
theorem StorableRecord.fixedBytes_header (r : StorableRecord) :
    ∃ rest, r.urec.fixedBytes = r.urec.partBytes .whdr ++ rest :=
  ⟨_, by
    unfold UndoRecord.fixedBytes undoParts
    rw [List.filter_cons_of_pos rfl, map_cons, List.flatten_cons]⟩

theorem UndoRecord.header_uinfo (urec : UndoRecord) :
    (urec.partBytes .whdr).getD 21 0 = urec.whdr.uinfo := by
  rw [partBytes, ← append_assoc, ← append_assoc, ← append_assoc,
    List.getD_eq_getElem?_getD, List.getElem?_append_right (by simp)]
  simp

/-! ## One page of reading -/

section Page

variable {r : StorableRecord} {pages : UndoZonePages} {blk start n : Nat} {t : List UInt8}
  {buf : RecordBuf}

/-- The header the reader has when it first looks at `uinfo`. -/
theorem header_complete (hf : Filled r n buf) (ht : Tiled pages blk start ((r.stream t).drop n))
    (hread : readUndoBytes (pages blk) (buf.part .whdr) ⟨start, n, n⟩ = (true, dest, c')) :
    dest.getD 21 0 = r.urec.whdr.uinfo := by
  have hspec := readUndoBytes_spec (pages blk) (buf.part .whdr) ⟨start, n, n⟩
  rw [hread] at hspec
  obtain ⟨hdone, hdest, -⟩ := hspec
  simp only [hf.length_part] at hdone hdest
  have hfit : size .whdr - n ≤ BLCKSZ - start := of_decide_eq_true hdone.symm
  have hhdr := r.urec.length_partBytes .whdr
  have hinit := init.length_partBytes .whdr
  obtain ⟨rest, hrest⟩ := r.fixedBytes_header
  have hpart : buf.part .whdr = (r.urec.partBytes .whdr).take n ++
      (init.partBytes .whdr).drop n := by
    have hparts : r.parts = .whdr :: r.parts.tail := by
      unfold StorableRecord.parts undoParts
      rw [List.filter_cons_of_pos rfl, List.tail_cons]
    have hfixed := hf.fixed
    rw [hparts, flatParts_cons, flatParts_cons, hrest] at hfixed
    have hcut := congrArg (List.take (r.urec.partBytes .whdr).length) hfixed
    rw [List.take_left' ((hf.length_part .whdr).trans hhdr.symm)] at hcut
    exact hcut.trans (take_fill (hinit.trans hhdr.symm) n)
  rw [StorableRecord.stream, hrest, append_assoc] at ht
  have hbytes := ht.read_at 0 (k := size .whdr - n) (by omega) (by omega)
  have hfull : dest = r.urec.partBytes .whdr := by
    rw [hdest, Nat.min_eq_left hfit]
    refine (congrArg (overlay (buf.part .whdr) n) hbytes).trans ?_
    rw [hpart, Nat.add_zero, overlay_fill (by omega), take_of_length_le (by omega),
      List.drop_of_length_le (by omega), append_nil]
  rw [hfull, r.urec.header_uinfo]

/-- What the walk over the fixed-size parts leaves: `k` more bytes of them. -/
structure FixedRead (r : StorableRecord) (buf : RecordBuf) (start n k : Nat)
    (out : Bool × RecordBuf × ReadCursor) : Prop where
  done : out.1 = decide (r.urec.fixedBytes.length - n ≤ BLCKSZ - start)
  fixed : out.2.1.flatParts r.parts = r.urec.fixedBytes.take (n + k) ++
    (RecordBuf.init.flatParts r.parts).drop (n + k)
  length_part : ∀ q, (out.2.1.part q).length = q.size
  other : ∀ q, q ∉ r.parts → out.2.1.part q = RecordBuf.init.part q
  rawdata : out.2.1.rawdata = buf.rawdata
  readptr : out.2.2.readptr = start + k
  alreadyRead : out.2.2.alreadyRead = n + k
  myBytesRead : out.1 = true → out.2.2.myBytesRead = n - r.urec.fixedBytes.length

theorem readUndoParts_filled (hf : Filled r n buf)
    (ht : Tiled pages blk start ((r.stream t).drop n)) :
    FixedRead r buf start n (min (r.urec.fixedBytes.length - n) (BLCKSZ - start))
      (readUndoParts (pages blk) undoParts buf ⟨start, n, n⟩) := by
  have hwalk : PartsRead (pages blk) r.parts buf ⟨start, n, n⟩
      (readUndoParts (pages blk) undoParts buf ⟨start, n, n⟩) :=
    readUndoParts_stored fun dest c' hread => header_complete hf ht hread
  obtain ⟨h1, h2, h3, h4, h5, h6, h7, h8⟩ := hwalk
  rw [hf.length_flat] at h1 h2 h3 h4 h5
  simp only at h1 h2 h3 h4 h5
  refine ⟨h1, ?_, fun q => (h6 q).trans (hf.length_part q), fun q hq => (h7 q hq).trans
    (hf.other q hq), h8, h3, h4, h5⟩
  have hbytes := ht.read_at 0 (k := min (r.urec.fixedBytes.length - n) (BLCKSZ - start))
    (by omega) (by omega)
  rw [h2, hf.fixed]
  exact (congrArg (overlay _ n) hbytes).trans (overlay_fill (Nat.min_le_left _ _) _)

/-- The payload length the reader finds is the length of what was stored. -/
theorem payload_test {buf : RecordBuf} (hstored : ∀ p ∈ r.parts, buf.part p = r.urec.partBytes p) :
    (buf.uinfo &&& UNDO_UREC_INFO_PAYLOAD != 0 ∧ ofLe (buf.part .wpay) > 0 ↔
      r.urec.payloadBytes ≠ []) ∧
    (r.urec.payloadBytes ≠ [] → ofLe (buf.part .wpay) = r.urec.payloadBytes.length) := by
  have hwhdr : whdr ∈ r.parts := mem_filter.mpr ⟨by decide, rfl⟩
  have huinfo : buf.uinfo = r.urec.whdr.uinfo := by
    rw [RecordBuf.uinfo, hstored _ hwhdr, r.urec.header_uinfo]
  have hlt := r.rawdata_lt
  rw [huinfo]
  unfold UndoRecord.payloadBytes UndoRecord.hasInfo
  cases hbit : (r.urec.whdr.uinfo &&& UNDO_UREC_INFO_PAYLOAD != 0) with
  | false => simp
  | true =>
    have hwpay : UndoPart.wpay ∈ r.parts := mem_filter.mpr ⟨by decide, hbit⟩
    have hlen : ofLe (buf.part .wpay) = r.urec.rawdata.length := by
      rw [hstored _ hwpay]
      exact ofLe_toLe_of_lt (by omega)
    rw [hlen]
    simp [List.length_pos_iff]

/-- What is left of the record after a page: nothing, or what the next page
goes on with. -/
structure PageRead (r : StorableRecord) (n room : Nat) (out : Bool × RecordBuf × ReadCursor) :
    Prop where
  last : r.urec.fixedBytes.length + r.urec.payloadBytes.length - n ≤ room →
    out.1 = true ∧ Loaded r out.2.1
  more : ¬ r.urec.fixedBytes.length + r.urec.payloadBytes.length - n ≤ room →
    out.1 = false ∧ Filled r (n + room) out.2.1 ∧ out.2.2.alreadyRead = n + room

theorem readUndoPayload_spec (page : Mem) {buf : RecordBuf} {m : Nat}
    (hf : Filled r (r.urec.fixedBytes.length + m) buf) (hmy : c.myBytesRead = m)
    (hcount : c.alreadyRead = r.urec.fixedBytes.length + m) (copyData isUndoSplited : Bool)
    (hsplit : isUndoSplited = false → m = 0)
    (hbytes : ∀ k, k ≤ r.urec.payloadBytes.length - m → k ≤ BLCKSZ - c.readptr →
      page.read c.readptr k = (r.urec.payloadBytes.drop m).take k) :
    PageRead r (r.urec.fixedBytes.length + m) (BLCKSZ - c.readptr)
      (readUndoPayload page copyData isUndoSplited buf c) := by
  set len := r.urec.payloadBytes.length
  have hstored := hf.stored (Nat.le_add_right _ _)
  obtain ⟨htest, hlen⟩ := payload_test hstored
  have hraw := hf.rawdata
  rw [Nat.add_sub_cancel_left] at hraw
  unfold readUndoPayload
  simp only
  by_cases hP : r.urec.payloadBytes = []
  · -- nothing was stored behind the fixed part
    rw [if_neg (fun hc => htest.mp hc hP)]
    rw [hP] at hraw
    refine ⟨fun _ => ⟨rfl, hstored, hf.other, ?_⟩, fun hmore => absurd ?_ hmore⟩
    · rw [hP]
      simpa using hraw
    · rw [hP, List.length_nil]
      omega
  rw [if_pos (htest.mpr hP), hlen hP]
  by_cases halias : copyData = false ∧ isUndoSplited = false ∧
      len ≤ BLCKSZ - c.readptr
  · -- the payload is used where it lies
    rw [if_pos halias]
    have hm := hsplit halias.2.1
    subst hm
    have hread := hbytes len (by omega) halias.2.2
    rw [List.drop_zero, List.take_length] at hread
    exact ⟨fun _ => ⟨rfl, hstored, hf.other, hread⟩, fun hmore => absurd (by omega) hmore⟩
  · rw [if_neg halias]
    have hspec := readUndoBytes_spec page
      (buf.rawdata.getD (replicate len 0)) c
    have hdest : (buf.rawdata.getD
        (replicate len 0)).length =
        len := by
      rw [hraw, length_append, List.length_take, length_drop, List.length_replicate]
      omega
    obtain ⟨h1, h2, _, h4, _⟩ := hspec
    rw [hdest, hmy] at h1 h2
    rw [hdest, hmy, hcount] at h4
    rw [hbytes _ (Nat.min_le_left _ _) (Nat.min_le_right _ _)] at h2
    generalize readUndoBytes page
      (buf.rawdata.getD (replicate len 0)) c = out at *
    obtain ⟨done, dest, c'⟩ := out
    simp only at h1 h2 h4 ⊢
    rw [hraw] at h2
    refine ⟨fun hlast => ?_, fun hmore => ?_⟩
    · have hfit : len - m ≤ BLCKSZ - c.readptr := by omega
      refine ⟨h1.trans (decide_eq_true hfit), hstored, hf.other, ?_⟩
      rw [Nat.min_eq_left hfit] at h2
      show dest = _
      rw [h2]
      rw [overlay_fill (Nat.le_refl _), take_of_length_le (by omega),
        List.drop_of_length_le (by rw [List.length_replicate]; omega), append_nil]
    · have hlong : BLCKSZ - c.readptr < len - m := by omega
      rw [Nat.min_eq_right (Nat.le_of_lt hlong)] at h2 h4
      rw [overlay_fill (by omega)] at h2
      refine ⟨h1.trans (decide_eq_false (by omega)), ⟨hf.length_part, ?_, hf.other, ?_⟩, h4⟩
      · have hfixed := hf.fixed
        have hinit := (filled_init r).length_flat
        rw [take_of_length_le (by omega), List.drop_of_length_le (by omega)] at hfixed ⊢
        exact hfixed
      · show dest = _
        rw [h2, Nat.add_assoc, Nat.add_sub_cancel_left]

/-- One call of `ReadUndoRecord`. -/
theorem readUndoRecord_spec (hf : Filled r n buf)
    (ht : Tiled pages blk start ((r.stream t).drop n)) (copyData : Bool) :
    PageRead r n (BLCKSZ - start) (readUndoRecord (pages blk) start n copyData buf) := by
  set fixed := r.urec.fixedBytes.length
  have hfix := readUndoParts_filled hf ht
  unfold readUndoRecord
  generalize readUndoParts (pages blk) undoParts buf ⟨start, n, n⟩ = out at hfix
  obtain ⟨done, buf', c⟩ := out
  obtain ⟨h1, h2, h3, h4, h5, h6, h7, h8⟩ := hfix
  simp only at h1 h2 h3 h4 h5 h6 h7 h8
  have hraw := hf.rawdata
  rw [← h5] at hraw
  cases done with
  | false =>
    have hlong := of_decide_eq_false h1.symm
    rw [Nat.min_eq_right (by omega)] at h2 h7
    refine ⟨fun hlast => absurd (by omega) hlong, fun _ => ⟨rfl, ⟨h3, h2, h4, ?_⟩, h7⟩⟩
    rw [show n + (BLCKSZ - start) - fixed =
      n - fixed by omega]
    exact hraw
  | true =>
    have hfit := of_decide_eq_true h1.symm
    rw [Nat.min_eq_left hfit] at h2 h6 h7
    -- the position behind the fixed part, or where an earlier page stopped in the payload
    have hpos : n + (fixed - n) =
        fixed + (n - fixed) := by omega
    rw [hpos] at h2 h7
    have hfilled : Filled r (fixed + (n - fixed)) buf' :=
      ⟨h3, h2, h4, by rw [Nat.add_sub_cancel_left]; exact hraw⟩
    have hpay := readUndoPayload_spec (pages blk) hfilled (h8 rfl) h7 copyData (decide (n > 0))
      (fun hs => by have := of_decide_eq_false hs; omega) (by
        intro k hk hroom
        unfold StorableRecord.stream at ht
        rw [← append_assoc] at ht
        rw [h6] at hroom ⊢
        rw [ht.read_at _ (by omega) (by rw [length_append]; omega), hpos,
          ← drop_drop, List.drop_left' rfl])
    obtain ⟨hlast, hmore⟩ := hpay
    rw [h6] at hlast hmore
    refine ⟨fun h => hlast (by omega), fun h => ?_⟩
    obtain ⟨hd, hfil, hcnt⟩ := hmore (by omega)
    have hsum : fixed + (n - fixed) +
        (BLCKSZ - (start + (fixed - n))) = n + (BLCKSZ - start) := by omega
    rw [hsum] at hfil hcnt
    exact ⟨hd, hfil, hcnt⟩

end Page

/-! ## The whole read -/

/-- Run lemma of `Load`: with enough pages left the record is completed, and
it never has more than `BLCKSZ` bytes behind it when it turns a page. -/
theorem loadUndoPages_spec {pages : UndoZonePages} {t : List UInt8} (copyData : Bool)
    (turns blk start n : Nat) (buf : RecordBuf) (hf : Filled r n buf)
    (ht : Tiled pages blk start ((r.stream t).drop n)) (hn : n ≤ BLCKSZ)
    (henough : r.urec.fixedBytes.length + r.urec.payloadBytes.length - n ≤
      BLCKSZ - start + turns * UNDO_LOG_USABLE_BYTES_PER_PAGE) :
    ∃ buf', loadUndoPages pages copyData (turns + 1) blk start n buf = some buf' ∧
      Loaded r buf' := by
  have hall := r.read_le
  have hlen : (r.stream t).length = r.urec.fixedBytes.length +
      (r.urec.payloadBytes.length + t.length) := by
    simp [StorableRecord.stream]
  induction turns generalizing blk start n buf with
  | zero =>
    obtain ⟨hlast, _⟩ := readUndoRecord_spec hf ht copyData
    obtain ⟨hdone, hloaded⟩ := hlast (by omega)
    rw [loadUndoPages, if_neg (by omega)]
    generalize readUndoRecord (pages blk) start n copyData buf = out at *
    obtain ⟨done, buf', c⟩ := out
    cases hdone
    exact ⟨buf', rfl, hloaded⟩
  | succ turns ih =>
    obtain ⟨hlast, hmore⟩ := readUndoRecord_spec hf ht copyData
    rw [loadUndoPages, if_neg (by omega)]
    generalize readUndoRecord (pages blk) start n copyData buf = out at *
    obtain ⟨done, buf', c⟩ := out
    by_cases hfit : r.urec.fixedBytes.length + r.urec.payloadBytes.length - n ≤ BLCKSZ - start
    · obtain ⟨hdone, hloaded⟩ := hlast hfit
      cases hdone
      exact ⟨buf', rfl, hloaded⟩
    obtain ⟨hdone, hfilled, hcount⟩ := hmore hfit
    cases hdone
    simp only at hfilled hcount ⊢
    have htail := ht.tail (by rw [length_drop]; omega)
    rw [drop_drop] at htail
    rw [hcount]
    have husable : BLCKSZ - UNDO_LOG_BLOCK_HEADER_SIZE = UNDO_LOG_USABLE_BYTES_PER_PAGE := rfl
    refine ih (blk + 1) UNDO_LOG_BLOCK_HEADER_SIZE (n + (BLCKSZ - start)) buf' hfilled htail
      (by omega) ?_
    rw [Nat.succ_mul] at henough
    omega

/-- The record that is kept on the undo pages: parts that `uinfo` does not
name have the values a fresh record has. -/
def UndoRecord.storedFields (urec : UndoRecord) : UndoRecord where
  whdr := urec.whdr
  wblk := urec.wblk
  prevurp := if urec.hasInfo UNDO_UREC_INFO_TRANSAC then urec.prevurp
    else init.prevurp
  oldxactid := if urec.hasInfo UNDO_UREC_INFO_OLDTD then urec.oldxactid
    else init.oldxactid
  partitionoid := if urec.hasInfo UNDO_UREC_INFO_HAS_PARTOID then urec.partitionoid
    else init.partitionoid
  tablespace := if urec.hasInfo UNDO_UREC_INFO_HAS_TABLESPACEOID then urec.tablespace
    else init.tablespace
  rawdata := urec.payloadBytes

theorem ofLe_field (pre rest : List UInt8) {off w : Nat} (hoff : pre.length = off)
    (hn : n < 256 ^ w) : ofLe (((pre ++ (toLe w n ++ rest)).drop off).take w) = n := by
  rw [List.drop_left' hoff, List.take_left' (length_toLe w n), ofLe_toLe_of_lt hn]

theorem ofLe_whole {w : Nat} (hn : n < 256 ^ w) : ofLe (((toLe w n).drop 0).take w) = n := by
  rw [List.drop_zero, take_of_length_le (Nat.le_of_eq (length_toLe w n)), ofLe_toLe_of_lt hn]

theorem decode_header (urec : UndoRecord) :
    ofLe (((urec.partBytes .whdr).drop 0).take 8) = urec.whdr.xid.toNat ∧
      ofLe (((urec.partBytes .whdr).drop 8).take 4) = urec.whdr.cid.toNat ∧
      ofLe (((urec.partBytes .whdr).drop 12).take 4) = urec.whdr.reloid.toNat ∧
      ofLe (((urec.partBytes .whdr).drop 16).take 4) = urec.whdr.relfilenode.toNat ∧
      (urec.partBytes .whdr).getD 20 0 = urec.whdr.utype := by
  have hx := urec.whdr.xid.toNat_lt
  have hc := urec.whdr.cid.toNat_lt
  have ho := urec.whdr.reloid.toNat_lt
  have hf := urec.whdr.relfilenode.toNat_lt
  rw [partBytes]
  refine ⟨ofLe_field [] _ rfl hx, ofLe_field _ _ (length_toLe 8 _) hc, ?_, ?_, ?_⟩
  · rw [← append_assoc]
    exact ofLe_field _ _ (by simp) ho
  · rw [← append_assoc, ← append_assoc]
    exact ofLe_field _ _ (by simp) hf
  · rw [← append_assoc, ← append_assoc, ← append_assoc,
      List.getD_eq_getElem?_getD, List.getElem?_append_right (by simp)]
    simp

theorem decode_block (urec : UndoRecord) :
    ofLe (((urec.partBytes .wblk).drop 0).take 8) = urec.wblk.blkprev.toNat ∧
      ofLe (((urec.partBytes .wblk).drop 8).take 4) = urec.wblk.blkno.toNat ∧
      ofLe (((urec.partBytes .wblk).drop 12).take 2) = urec.wblk.offset.toNat := by
  have hp := urec.wblk.blkprev.toNat_lt
  have hb := urec.wblk.blkno.toNat_lt
  have ho := urec.wblk.offset.toNat_lt
  rw [partBytes]
  refine ⟨ofLe_field [] _ rfl hp, ofLe_field _ _ (length_toLe 8 _) hb, ?_⟩
  rw [← append_assoc, ← append_nil (toLe 2 _)]
  exact ofLe_field _ _ (by simp) ho

/-- What a part holds: the record's bytes, or a fresh record's. -/
theorem Loaded.part_eq (h : Loaded r buf) (p : UndoPart) :
    buf.part p = if p.stored r.urec.whdr.uinfo then r.urec.partBytes p
      else init.partBytes p := by
  have hall : p ∈ undoParts := by cases p <;> decide
  by_cases hs : p.stored r.urec.whdr.uinfo = true
  · rw [if_pos hs]
    exact h.stored p (mem_filter.mpr ⟨hall, hs⟩)
  · rw [if_neg hs]
    exact h.other p fun hmem => hs (mem_filter.mp hmem).2

/-- A part of `w` bytes, from the record or from a fresh one. -/
theorem ofLe_part {w x y : Nat} (b : Bool) (hx : x < 256 ^ w) (hy : y < 256 ^ w) :
    ofLe (((if b then toLe w x else toLe w y).drop 0).take w) = if b then x else y := by
  cases b with
  | false => exact ofLe_whole hy
  | true => exact ofLe_whole hx

theorem ofLe_part64 (b : Bool) (x y : UInt64) :
    ofNat (ofLe (((if b then toLe 8 x.toNat else toLe 8 y.toNat).drop 0).take 8)) =
      if b then x else y := by
  rw [ofLe_part b x.toNat_lt y.toNat_lt, apply_ite ofNat, ofNat_toNat,
    ofNat_toNat]

theorem ofLe_part32 (b : Bool) (x y : UInt32) :
    UInt32.ofNat (ofLe (((if b then toLe 4 x.toNat else toLe 4 y.toNat).drop 0).take 4)) =
      if b then x else y := by
  rw [ofLe_part b x.toNat_lt y.toNat_lt, apply_ite UInt32.ofNat, UInt32.ofNat_toNat,
    UInt32.ofNat_toNat]

theorem Loaded.decode_eq (h : Loaded r buf) : buf.decode = r.urec.storedFields := by
  have hwhdr : buf.part .whdr = r.urec.partBytes .whdr := h.part_eq .whdr
  have hwblk : buf.part .wblk = r.urec.partBytes .wblk := h.part_eq .wblk
  obtain ⟨h1, h2, h3, h4, h5⟩ := decode_header r.urec
  obtain ⟨h6, h7, h8⟩ := decode_block r.urec
  have huinfo : buf.uinfo = r.urec.whdr.uinfo := by
    rw [RecordBuf.uinfo, hwhdr, r.urec.header_uinfo]
  have htxn : ofNat (ofLe (((buf.part .wtxn).drop 0).take 8)) =
      r.urec.storedFields.prevurp := by
    rw [h.part_eq .wtxn]
    exact ofLe_part64 (r.urec.hasInfo UNDO_UREC_INFO_TRANSAC) r.urec.prevurp _
  have htd : ofNat (ofLe (((buf.part .wtd).drop 0).take 8)) =
      r.urec.storedFields.oldxactid := by
    rw [h.part_eq .wtd]
    exact ofLe_part64 (r.urec.hasInfo UNDO_UREC_INFO_OLDTD) r.urec.oldxactid _
  have hpart : UInt32.ofNat (ofLe (((buf.part .wpart).drop 0).take 4)) =
      r.urec.storedFields.partitionoid := by
    rw [h.part_eq .wpart]
    exact ofLe_part32 (r.urec.hasInfo UNDO_UREC_INFO_HAS_PARTOID) r.urec.partitionoid _
  have htspc : UInt32.ofNat (ofLe (((buf.part .wtspc).drop 0).take 4)) =
      r.urec.storedFields.tablespace := by
    rw [h.part_eq .wtspc]
    exact ofLe_part32 (r.urec.hasInfo UNDO_UREC_INFO_HAS_TABLESPACEOID) r.urec.tablespace _
  unfold RecordBuf.decode
  simp only [htxn, htd, hpart, htspc, huinfo, hwhdr, hwblk, h1, h2, h3, h4, h5, h6, h7, h8,
    h.rawdata, ofNat_toNat, UInt32.ofNat_toNat, UInt16.ofNat_toNat]
  rfl

theorem load_insertPreparedUndo (r : StorableRecord) (pos : UndoPos) (pages : UndoZonePages)
    (keepBuffer : Bool) :
    load (insertPreparedUndo r.urec pos.urp pages).pages pos.urp keepBuffer =
      some r.urec.storedFields := by
  have htiled := (insertPreparedUndo_spec r pos pages).1.tiled
  rw [r.flat_eq] at htiled
  have hlt := undoPtrGetPageOffset_lt pos.urp
  have hall := r.read_le
  obtain ⟨buf, hload, hloaded⟩ := loadUndoPages_spec (t := toLe 2 r.urec.recordSize) keepBuffer 3
    _ _ 0 _ (filled_init r) htiled (Nat.zero_le _)
    (by simp only [UNDO_LOG_USABLE_BYTES_PER_PAGE, BLCKSZ, UNDO_LOG_BLOCK_HEADER_SIZE,
          SizeOfPageHeaderData] at hlt hall ⊢; omega)
  rw [load, hload, Option.map_some, hloaded.decode_eq]

/-- **Undo records are read back as they were written.** From every position
behind a page header, a record of any parts and any payload a row can have is
read back with the fields its `uinfo` names and its payload, whether or not
the reader keeps its buffer; the write took `RecordSize` bytes, touched no
page header and ended where `AdvanceUndoPtr` puts the next record. -/
theorem undoRecord_roundTrip (r : StorableRecord) (pos : UndoPos) (pages : UndoZonePages)
    (keepBuffer : Bool) :
    let w := insertPreparedUndo r.urec pos.urp pages
    w.complete = true ∧
      load w.pages pos.urp keepBuffer = some r.urec.storedFields ∧
      w.alreadyWritten = r.urec.recordSize ∧
      (∀ blk i, i < UNDO_LOG_BLOCK_HEADER_SIZE → w.pages blk i = pages blk i) ∧
      makeUndoPtr (undoPtrGetZoneId pos.urp) w.endOffset =
        advanceUndoPtr pos.urp r.urec.recordSize := by
  obtain ⟨hins, hcount⟩ := insertPreparedUndo_spec r pos pages
  exact ⟨hins.complete, load_insertPreparedUndo r pos pages keepBuffer, hcount, hins.header,
    (advanceUndoPtr_eq r pos pages).symm⟩

/-- The record of a transaction's second update: it points to the first one's
record, and no bit says so. -/
def secondRecord : StorableRecord :=
  ⟨{ init with
      whdr := ⟨100, 0, 16384, 16384, UNDO_INPLACE_UPDATE, UNDO_UREC_INFO_PAYLOAD⟩
      wblk := ⟨INVALID_UNDO_REC_PTR, 0, 1⟩
      prevurp := 24 }, by decide⟩

def firstPos : UndoPos := ⟨24, by decide, by decide⟩

/-- A part that `uinfo` does not name is lost: `prevurp` is read back as
invalid. -/
theorem undoRecord_drops_unnamed :
    ¬ ∀ (r : StorableRecord) (pos : UndoPos) (pages : UndoZonePages) (keepBuffer : Bool),
      load (insertPreparedUndo r.urec pos.urp pages).pages pos.urp keepBuffer =
        some r.urec := by
  intro h
  have hread := h secondRecord firstPos (fun _ _ => 0) false
  rw [load_insertPreparedUndo] at hread
  have hprev := congrArg UndoRecord.prevurp (Option.some.inj hread)
  exact absurd hprev (by decide)

end OpenGauss.Undo
