import OpenGauss.Lib.Update
import OpenGauss.Cfs.ChunkAlloc
import OpenGauss.Cfs.ChunkIo

/-!
# Pages of a compressed relation

Writing, reading and recycling the pages of a compressed relation without
fragment reuse, over the bytes of its files and the address pages of its
extents. The relation behaves like a table from block numbers to pages: a
read returns what was written last, and a recycle is not visible.
-/

namespace OpenGauss.Cfs

open Lib
open List (replicate length_append mem_of_mem_take)
open Function (update update_of_ne update_self)
open Extent (appendChunksOfBlock setNchunks raiseNblocks)

variable {o : CompressOption} {b : Nat} {content : Nat → Option Page} {r : Relation}

/-- `CFS_EXTENT_SIZE`. -/
def extentSize : Nat := 128

/-- `CFS_EXTENT_COUNT_PER_FILE`. -/
def extentCountPerFile : Nat := 1024

/-- `CFS_MAX_BLOCK_PER_FILE`. -/
def maxBlockPerFile : Nat := extentCountPerFile * extentSize

abbrev Page := { bytes : List UInt8 // bytes.length = blcksz }

/-- `PageIsNew`: `pd_upper`, the two bytes at offset 14, is zero. -/
def pageIsNew (page : Page) : Bool := page.val[14]? == some 0 && page.val[15]? == some 0

/-- The compression options of a relation with the page compression they stand for. An output
with zeros behind it decompresses to the page, and the preallocated chunks are fewer than a page
has. -/
structure CompressOption where
  chunkSize : ChunkSize
  compressPreallocChunks : Nat
  compressPage : List UInt8 → Option (List UInt8)
  decompressPage : List UInt8 → Option (List UInt8)
  prealloc_lt : compressPreallocChunks < chunkSize.chunksPerBlock
  compress_pos : ∀ {page out}, compressPage page = some out → 0 < out.length
  compress_le : ∀ {page out}, compressPage page = some out → out.length ≤ blcksz
  lossless : ∀ (page : Page) {out} (n : Nat), compressPage page.val = some out →
    decompressPage (out ++ replicate n 0) = some page.val

/-- A compression that knows the page of zeros only. -/
def compressZeros (page : List UInt8) : Option (List UInt8) :=
  if page = replicate blcksz 0 then some [1] else none

theorem compressZeros_cases {page out : List UInt8} (h : compressZeros page = some out) :
    page = replicate blcksz 0 ∧ out.length = 1 := by
  unfold compressZeros at h
  split at h
  case isTrue hp =>
    cases h
    exact ⟨hp, rfl⟩
  case isFalse => cases h

instance : Inhabited CompressOption where
  default :=
    { chunkSize := .half
      compressPreallocChunks := 1
      compressPage := compressZeros
      decompressPage := fun _ => some (replicate blcksz 0)
      prealloc_lt := of_decide_eq_true rfl
      compress_pos := fun h => Nat.lt_of_lt_of_eq Nat.one_pos (compressZeros_cases h).2.symm
      compress_le := fun h => Nat.le_trans (Nat.le_of_eq (compressZeros_cases h).2)
        (of_decide_eq_true rfl)
      lossless := fun _ _ _ h => congrArg some (compressZeros_cases h).1.symm }

/-- `ExtentLocation`, with the segment file instead of its descriptor. -/
structure ExtentLocation where
  file : Nat
  extentNumber : Nat
  extentStart : Nat
  extentOffset : Nat
  deriving DecidableEq

/-- `StorageConvert`; the file is the one the caller has opened for the block. -/
def storageConvert (block : Nat) : ExtentLocation where
  file := block / (logicBlocksPerExtent * extentCountPerFile)
  extentNumber := block / logicBlocksPerExtent
  extentStart := block / logicBlocksPerExtent * extentSize % maxBlockPerFile
  extentOffset := block % logicBlocksPerExtent

structure Relation where
  files : Nat → Mem
  pca : Nat → Extent

/-- `CfsCompressPage`: the buffer to write and the number of its chunks. -/
def cfsCompressPage (o : CompressOption) (page : Page) : List UInt8 × Nat :=
  let compressed := o.compressPage page.val
  -- an error stores the original page
  let size := compressed.elim blcksz List.length
  let nchunks := (size - 1) / o.chunkSize.bytes + 1
  if blcksz ≤ o.chunkSize.bytes * nchunks then (page.val, blcksz / o.chunkSize.bytes)
  else (compressed.getD page.val ++ replicate (o.chunkSize.bytes * nchunks - size) 0, nchunks)

/-- `CfsWritePage` without fragment reuse. -/
def cfsWritePage (o : CompressOption) (r : Relation) (block : Nat) (page : Page) : Relation :=
  if pageIsNew page then r
  else
    let loc := storageConvert block
    let buffer := (cfsCompressPage o page).1
    let nchunks := (cfsCompressPage o page).2
    let needChunks := if nchunks < o.compressPreallocChunks then o.compressPreallocChunks else nchunks
    let x := (r.pca loc.extentNumber).appendChunksOfBlock loc.extentOffset needChunks nchunks
    { files := update r.files loc.file
        (writeChunks (r.files loc.file) (loc.extentStart * blcksz) x.chunkSize.bytes
          ((x.address loc.extentOffset).chunknos.take nchunks) buffer)
      pca := update r.pca loc.extentNumber (x.raiseNblocks loc.extentOffset) }

/-- `CfsReadPage`; `none` is a page that cannot be read. -/
def cfsReadPage (o : CompressOption) (r : Relation) (block : Nat) : Option (List UInt8) :=
  let loc := storageConvert block
  let a := (r.pca loc.extentNumber).address loc.extentOffset
  if a.nchunks = 0 then some (replicate blcksz 0)
  else
    let buffer := readChunks (r.files loc.file) (loc.extentStart * blcksz) o.chunkSize.bytes
      (a.chunknos.take a.nchunks)
    if a.nchunks = blcksz / o.chunkSize.bytes then some buffer else o.decompressPage buffer

/-- The data area `CfsSortOutChunk` builds: the chunks in use in block order, then zeros. -/
def sortedArea (m : Mem) (start : Nat) (x : Extent) : List UInt8 :=
  let used := (List.range x.nblocks).flatMap fun b =>
    chunkBytes m start x.chunkSize.bytes ((x.address b).chunknos.take (x.address b).nchunks)
  used ++ replicate (logicBlocksPerExtent * blcksz - used.length) 0

/-- `CfsRecycleChunkInExt` on extent `e`: data area and address page are rewritten, and the page
is checked when it is read again. -/
def cfsRecycleExtent (r : Relation) (e : Nat) : Option Relation :=
  let x := r.pca e
  let file := e / extentCountPerFile
  let extentStart := e % extentCountPerFile * extentSize
  if x.recycleInOrder then some r
  else if x.sortOutChunk.addressesOk then
    some
      { files := update r.files file
          ((r.files file).write (extentStart * blcksz)
            (sortedArea (r.files file) (extentStart * blcksz) x))
        pca := update r.pca e x.sortOutChunk.repaired }
  else none

def Relation.empty (o : CompressOption) : Relation where
  files := fun _ _ => 0
  pca := fun _ => Extent.empty o.chunkSize

inductive PageEvent where
  | writePage (block : Nat) (page : Page)
  | recycle (extent : Nat)

def Relation.step (o : CompressOption) (r : Relation) : PageEvent → Option Relation
  | .writePage block page => some (cfsWritePage o r block page)
  | .recycle e => cfsRecycleExtent r e

def Relation.run (o : CompressOption) (r : Relation) : List PageEvent → Option Relation
  | [] => some r
  | ev :: evs => (r.step o ev).bind fun r' => r'.run o evs

/-- The abstract relation: the last initialised page written to each block. -/
def applyEvent (content : Nat → Option Page) : PageEvent → Nat → Option Page
  | .writePage block page =>
    if pageIsNew page then content else update content block (some page)
  | .recycle _ => content

/-- The bytes a block of the abstract relation reads as. -/
def blockBytes (content : Option Page) : List UInt8 :=
  content.elim (replicate blcksz 0) Subtype.val

/-- Every list is a run, and the runs follow each other from chunk 1 on in block order. -/
def InOrder (x : Extent) : Prop :=
  ∀ b, b < logicBlocksPerExtent →
    (x.address b).chunknos = chunkRun (x.ownedBefore b + 1) (x.address b).chunknos.length

/-! ## Compressing a page -/

theorem bytes_mul_chunksPerBlock (size : ChunkSize) : size.bytes * size.chunksPerBlock = blcksz := by
  cases size <;> rfl

theorem bytes_pos (size : ChunkSize) : 0 < size.bytes := by
  cases size <;> decide

theorem cfsCompressPage_cases (o : CompressOption) (page : Page) :
    cfsCompressPage o page = (page.val, o.chunkSize.chunksPerBlock) ∨
      ∃ out nchunks, o.compressPage page.val = some out ∧
        out.length ≤ o.chunkSize.bytes * nchunks ∧ 0 < nchunks ∧
        nchunks < o.chunkSize.chunksPerBlock ∧
        cfsCompressPage o page =
          (out ++ replicate (o.chunkSize.bytes * nchunks - out.length) 0, nchunks) := by
  have hmul := bytes_mul_chunksPerBlock o.chunkSize
  have hk := bytes_pos o.chunkSize
  cases hc : o.compressPage page.val with
  | none =>
    refine .inl ?_
    unfold cfsCompressPage
    rw [hc]
    exact if_pos (Nat.le_of_pred_lt (Nat.lt_mul_div_succ (blcksz - 1) hk))
  | some out =>
    by_cases hraw : blcksz ≤ o.chunkSize.bytes * ((out.length - 1) / o.chunkSize.bytes + 1)
    · refine .inl ?_
      unfold cfsCompressPage
      rw [hc]
      exact if_pos hraw
    refine .inr ⟨out, (out.length - 1) / o.chunkSize.bytes + 1, rfl, ?_, Nat.succ_pos _, ?_, ?_⟩
    · exact Nat.le_of_pred_lt (Nat.lt_mul_div_succ (out.length - 1) hk)
    · rw [← hmul] at hraw
      exact Nat.lt_of_mul_lt_mul_left (Nat.lt_of_not_le hraw)
    · unfold cfsCompressPage
      rw [hc]
      exact if_neg hraw

/-- The buffer fills its chunks, and the number of chunks tells how to read it. -/
theorem cfsCompressPage_spec (o : CompressOption) (page : Page) :
    (cfsCompressPage o page).1.length = o.chunkSize.bytes * (cfsCompressPage o page).2 ∧
      0 < (cfsCompressPage o page).2 ∧
      (cfsCompressPage o page).2 ≤ o.chunkSize.chunksPerBlock ∧
      (if (cfsCompressPage o page).2 = blcksz / o.chunkSize.bytes then
        some (cfsCompressPage o page).1
      else o.decompressPage (cfsCompressPage o page).1) = some page.val := by
  have hdiv : blcksz / o.chunkSize.bytes = o.chunkSize.chunksPerBlock := rfl
  rw [hdiv]
  rcases cfsCompressPage_cases o page with heq | ⟨out, nchunks, hc, hle, hpos, hlt, heq⟩
  · rw [heq]
    refine ⟨page.property.trans (bytes_mul_chunksPerBlock _).symm, ?_, le_rfl, if_pos rfl⟩
    exact (Nat.zero_le _).trans_lt o.prealloc_lt
  rw [heq]
  refine ⟨?_, hpos, hlt.le, ?_⟩
  · rw [length_append, List.length_replicate]
    dsimp only
    omega
  · rw [if_neg (Nat.ne_of_lt hlt)]
    exact o.lossless page _ hc

/-! ## Where the extents lie -/

def extentBase (e : Nat) : Nat := e % extentCountPerFile * extentSize * blcksz

theorem storageConvert_block (e off : Nat) (hoff : off < logicBlocksPerExtent) :
    (storageConvert (e * logicBlocksPerExtent + off)).extentNumber = e ∧
      (storageConvert (e * logicBlocksPerExtent + off)).extentOffset = off ∧
      (storageConvert (e * logicBlocksPerExtent + off)).file = e / extentCountPerFile ∧
      (storageConvert (e * logicBlocksPerExtent + off)).extentStart * blcksz = extentBase e := by
  unfold logicBlocksPerExtent at hoff
  have hdiv : (e * 127 + off) / 127 = e := by omega
  refine ⟨hdiv, ?_, ?_, ?_⟩
  · show (e * 127 + off) % 127 = off
    omega
  · show (e * 127 + off) / (127 * 1024) = e / 1024
    rw [← Nat.div_div_eq_div_mul, hdiv]
  · show (e * 127 + off) / 127 * extentSize % (extentCountPerFile * extentSize) * blcksz = _
    rw [hdiv, Nat.mul_mod_mul_right]
    rfl

theorem extents_apart {e e' : Nat} (hne : e ≠ e')
    (hfile : e / extentCountPerFile = e' / extentCountPerFile) :
    extentBase e + extentSize * blcksz ≤ extentBase e' ∨
      extentBase e' + extentSize * blcksz ≤ extentBase e := by
  unfold extentBase extentCountPerFile extentSize blcksz at *
  omega

/-! ## The invariant -/

/-- The address page of an extent without fragment reuse. -/
structure ExtentOk (o : CompressOption) (x : Extent) : Prop where
  lists : x.ListsOk
  chunkSize : x.chunkSize = o.chunkSize
  total : x.allocatedChunks ≤ x.ownedBefore logicBlocksPerExtent
  order : x.recycleInOrder = true → InOrder x

/-- The chunks of a block hold the compressed content of a page, or none are in use. -/
def Stored (o : CompressOption) (m : Mem) (start : Nat) (a : ExtentAddress) : Option Page → Prop
  | none => a.nchunks = 0
  | some page => a.nchunks = (cfsCompressPage o page).2 ∧
      chunkBytes m start o.chunkSize.bytes (a.chunknos.take a.nchunks) = (cfsCompressPage o page).1

/-- The relation stands for the abstract content. -/
structure Represents (o : CompressOption) (r : Relation) (content : Nat → Option Page) : Prop where
  extent : ∀ e, ExtentOk o (r.pca e)
  stored : ∀ e off, off < logicBlocksPerExtent →
    Stored o (r.files (e / extentCountPerFile)) (extentBase e) ((r.pca e).address off)
      (content (e * logicBlocksPerExtent + off))

theorem ownedBefore_le {x : Extent} (h : x.ListsOk) :
    x.ownedBefore logicBlocksPerExtent ≤ x.chunkSize.maxLogicChunksNumber := by
  have hbound : ∀ n, n ≤ logicBlocksPerExtent → x.ownedBefore n ≤ x.chunkSize.chunksPerBlock * n := by
    intro n
    induction n with
    | zero => intro _; exact Nat.zero_le _
    | succ n ih =>
      intro hn
      have hprev := ih (by omega)
      have hlen := h.length_le n hn
      unfold Extent.ownedBefore at hprev ⊢
      rw [List.range_succ, List.map_append, List.sum_append, List.map_singleton, List.sum_singleton,
        Nat.mul_add, Nat.mul_one]
      omega
  exact hbound _ le_rfl

theorem ExtentOk.allocated_le {x : Extent} (h : ExtentOk o x) :
    x.allocatedChunks ≤ x.chunkSize.maxLogicChunksNumber :=
  h.total.trans (ownedBefore_le h.lists)

theorem maxLogicChunks_bytes (size : ChunkSize) :
    size.bytes * size.maxLogicChunksNumber = logicBlocksPerExtent * blcksz := by
  cases size <;> rfl

theorem ExtentOk.offset_le {x : Extent} (h : ExtentOk o x) {c : Nat} (hb : b < logicBlocksPerExtent)
    (hc : c ∈ (x.address b).chunknos) :
    0 < c ∧ offsetOfPageCompressChunk o.chunkSize.bytes c + o.chunkSize.bytes ≤
      logicBlocksPerExtent * blcksz := by
  have ho : x.Owns b c := ⟨hb, hc⟩
  refine ⟨h.lists.pos ho, ?_⟩
  rw [← maxLogicChunks_bytes o.chunkSize]
  apply offset_add_le (h.lists.pos ho)
  rw [← h.chunkSize]
  exact (h.lists.le_allocated ho).trans h.allocated_le

theorem Stored.congr {m m' : Mem} {start start' : Nat} {a a' : ExtentAddress} {c : Option Page}
    (h : Stored o m start a c) (hn : a'.nchunks = a.nchunks)
    (hbytes : chunkBytes m' start' o.chunkSize.bytes (a'.chunknos.take a.nchunks) =
      chunkBytes m start o.chunkSize.bytes (a.chunknos.take a.nchunks)) :
    Stored o m' start' a' c := by
  cases c with
  | none => exact hn.trans h
  | some page =>
    obtain ⟨hcount, hread⟩ := h
    refine ⟨hn.trans hcount, ?_⟩
    rw [hn, hbytes]
    exact hread

theorem exists_block (block : Nat) : ∃ e off, off < logicBlocksPerExtent ∧
    block = e * logicBlocksPerExtent + off :=
  ⟨_, _, Nat.mod_lt _ (Nat.succ_pos 126), (Nat.div_add_mod' _ _).symm⟩

/-- Every block reads as the abstract relation says. -/
theorem Represents.cfsReadPage (h : Represents o r content) (block : Nat) :
    cfsReadPage o r block = some (blockBytes (content block)) := by
  obtain ⟨e, off, hoff, rfl⟩ := exists_block block
  obtain ⟨hext, hoffset, hfile, hstart⟩ := storageConvert_block e off hoff
  have hstored := h.stored e off hoff
  unfold Cfs.cfsReadPage
  dsimp only
  rw [hext, hoffset, hfile, hstart]
  generalize content (e * logicBlocksPerExtent + off) = c at hstored
  cases c with
  | none => exact if_pos hstored
  | some page =>
    obtain ⟨hcount, hbytes⟩ := hstored
    obtain ⟨-, hpos, -, hread⟩ := cfsCompressPage_spec o page
    have hne : ((r.pca e).address off).nchunks ≠ 0 := by omega
    rw [if_neg hne, readChunks_eq, hbytes, hcount]
    · exact hread
    · intro c hc
      exact ((h.extent e).offset_le hoff (mem_of_mem_take hc)).1

/-! ## Writing -/

section Write

variable {o : CompressOption} {x : Extent} {off needChunks nchunks : Nat}

/-- What a write leaves of the address page; an extent still in order has not grown. -/
theorem appendChunksOfBlock_spec (x : Extent) (off needChunks nchunks : Nat) {y : Extent}
    (hy : (x.appendChunksOfBlock off needChunks nchunks).raiseNblocks off = y) :
    y.address = update x.address off ⟨nchunks, (x.address off).chunknos ++
        chunkRun (x.allocatedChunks + 1) (needChunks - (x.address off).chunknos.length)⟩ ∧
      y.allocatedChunks = x.allocatedChunks + (needChunks - (x.address off).chunknos.length) ∧
      y.nblocks = max x.nblocks (off + 1) ∧ y.chunkSize = x.chunkSize ∧
      (y.recycleInOrder = true →
        x.recycleInOrder = true ∧ needChunks ≤ (x.address off).chunknos.length) := by
  subst hy
  unfold appendChunksOfBlock setNchunks raiseNblocks
  dsimp only
  split
  · exact ⟨by simp only [update_self, Function.update_idem], rfl, rfl, rfl, nofun⟩
  have hzero : needChunks - (x.address off).chunknos.length = 0 := by omega
  rw [hzero]
  refine ⟨?_, rfl, rfl, rfl, fun h => ⟨h, by omega⟩⟩
  show _ = update x.address off ⟨nchunks, (x.address off).chunknos ++ []⟩
  rw [List.append_nil]

theorem InOrder.congr {y : Extent} (h : InOrder x)
    (hlists : ∀ b, (y.address b).chunknos = (x.address b).chunknos) : InOrder y := by
  intro b hb
  have howned : y.ownedBefore b = x.ownedBefore b := by
    unfold Extent.ownedBefore
    simp only [hlists]
  rw [hlists, howned]
  exact h b hb

/-- Appending chunks to a block keeps the address page sound. -/
theorem ExtentOk.append (h : ExtentOk o x) (hoff : off < logicBlocksPerExtent)
    (hneed : needChunks ≤ o.chunkSize.chunksPerBlock) (hle : nchunks ≤ needChunks) :
    ExtentOk o ((x.appendChunksOfBlock off needChunks nchunks).raiseNblocks off) := by
  generalize hy : (x.appendChunksOfBlock off needChunks nchunks).raiseNblocks off = y
  obtain ⟨haddr, hA, hnblocks, hsize, horder⟩ := appendChunksOfBlock_spec x off needChunks nchunks hy
  have hold : ∀ c ∈ (x.address off).chunknos, c ≤ x.allocatedChunks :=
    fun c hc => h.lists.le_allocated ⟨hoff, hc⟩
  have hlength := h.lists.length_le off hoff
  rw [h.chunkSize] at hlength
  refine ⟨h.lists.change haddr hsize hnblocks hoff (by omega) ?_ ?_ ?_ ?_, hsize.trans h.chunkSize,
    ?_, ?_⟩
  · refine List.Nodup.append (h.lists.nodup off hoff) (nodup_chunkRun _ _) ?_
    intro c hc hrun
    have h1 := hold c hc
    have h2 := mem_chunkRun.mp hrun
    omega
  · intro c hc
    rcases List.mem_append.mp hc with hc | hc
    · have ho : x.Owns off c := ⟨hoff, hc⟩
      refine ⟨h.lists.pos ho, by have := hold c hc; omega, ?_⟩
      intro b' hne ho'
      exact hne (h.lists.disjoint ho' ho)
    · have hrun := mem_chunkRun.mp hc
      refine ⟨by omega, by omega, ?_⟩
      intro b' _ ho'
      have := h.lists.le_allocated ho'
      omega
  · rw [length_append, length_chunkRun, h.chunkSize]
    omega
  · rw [length_append, length_chunkRun]
    dsimp only
    omega
  · have hsum := Extent.ownedBefore_change haddr hoff
    rw [length_append, length_chunkRun] at hsum
    have := h.total
    omega
  · intro hflag
    obtain ⟨hflag', hsame⟩ := horder hflag
    apply (h.order hflag').congr
    intro b
    rw [haddr]
    by_cases hb : b = off
    · have hzero : needChunks - (x.address off).chunknos.length = 0 := by omega
      rw [hb, update_self, hzero]
      exact List.append_nil _
    · rw [update_of_ne hb]

end Write

/-- A write is an update of the abstract relation. -/
theorem Represents.cfsWritePage (h : Represents o r content) (block : Nat) (page : Page) :
    Represents o (cfsWritePage o r block page) (applyEvent content (.writePage block page)) := by
  show Represents o (Cfs.cfsWritePage o r block page)
    (if pageIsNew page then content else update content block (some page))
  unfold Cfs.cfsWritePage
  by_cases hnew : pageIsNew page = true
  · rw [if_pos hnew, if_pos hnew]
    exact h
  rw [if_neg hnew, if_neg hnew]
  obtain ⟨e, off, hoff, rfl⟩ := exists_block block
  obtain ⟨hext, hoffset, hfile, hstart⟩ := storageConvert_block e off hoff
  dsimp only
  rw [hext, hoffset, hfile, hstart]
  obtain ⟨hbuffer, hpos, hmax, -⟩ := cfsCompressPage_spec o page
  generalize hnchunks : (Cfs.cfsCompressPage o page).2 = nchunks at hbuffer hpos hmax
  generalize hbuf : (Cfs.cfsCompressPage o page).1 = buffer at hbuffer
  generalize hneed : (if nchunks < o.compressPreallocChunks then o.compressPreallocChunks
    else nchunks) = needChunks
  have hneed_le : needChunks ≤ o.chunkSize.chunksPerBlock := by
    have := o.prealloc_lt
    split at hneed <;> omega
  have hneed_ge : nchunks ≤ needChunks := by
    split at hneed <;> omega
  have hx := (h.extent e).append hoff hneed_le hneed_ge
  obtain ⟨haddr, -, -, hsize, -⟩ := appendChunksOfBlock_spec (r.pca e) off needChunks nchunks rfl
  generalize (r.pca e).appendChunksOfBlock off needChunks nchunks = z at *
  have hself : z.address off = (z.raiseNblocks off).address off := rfl
  rw [show z.chunkSize = (r.pca e).chunkSize from hsize, (h.extent e).chunkSize, hself]
  generalize z.raiseNblocks off = y at *
  have hyself : (y.address off).nchunks = nchunks := by rw [haddr, update_self]
  have hlen : ((y.address off).chunknos.take nchunks).length = nchunks := by
    have := hx.lists.nchunks_le off hoff
    rw [List.length_take]
    omega
  have hchunks : ∀ c ∈ (y.address off).chunknos.take nchunks, c ∈ (y.address off).chunknos :=
    fun c hc => mem_of_mem_take hc
  rw [writeChunks_eq _ _ _ (fun c hc => (hx.offset_le hoff (hchunks c hc)).1) buffer
    (by rw [hlen]; exact hbuffer)]
  refine ⟨?_, ?_⟩
  · dsimp only
    exact update_cases hx fun e' _ => h.extent e'
  · intro e' off' hoff'
    show Stored o (update r.files (e / extentCountPerFile) _ (e' / extentCountPerFile))
      (extentBase e') ((update r.pca e y e').address off')
      (update content (e * logicBlocksPerExtent + off) (some page)
        (e' * logicBlocksPerExtent + off'))
    by_cases he : e' = e
    · subst he
      rw [update_self, update_self]
      by_cases ho : off' = off
      · -- the block written reads back as the buffer
        subst ho
        rw [update_self]
        refine ⟨hyself.trans hnchunks.symm, ?_⟩
        rw [hyself, hbuf]
        apply chunkBytes_writeEach _ _ _ _ (by rw [hlen]; exact hbuffer)
        · intro c hc
          exact (hx.offset_le hoff (hchunks c hc)).1
        · exact (hx.lists.nodup off' hoff).sublist (List.take_sublist _ _)
      · -- the other blocks of the extent own other chunks
        have hblock : e' * logicBlocksPerExtent + off' ≠ e' * logicBlocksPerExtent + off := by omega
        have hsame : y.address off' = (r.pca e').address off' := by
          rw [haddr, update_of_ne ho]
        rw [update_of_ne hblock, hsame]
        apply (h.stored e' off' hoff').congr rfl
        apply chunkBytes_writeEach_of_disjoint
        · intro c hc
          exact (hx.offset_le hoff (hchunks c hc)).1
        · intro d hd
          exact ((h.extent e').offset_le hoff' (mem_of_mem_take hd)).1
        · intro d hd hd'
          have hown : y.Owns off' d := ⟨hoff', by rw [hsame]; exact mem_of_mem_take hd⟩
          exact ho (hx.lists.disjoint hown ⟨hoff, hchunks d hd'⟩)
    · -- another extent lies elsewhere
      have hblock : e' * logicBlocksPerExtent + off' ≠ e * logicBlocksPerExtent + off := by
        unfold logicBlocksPerExtent at hoff hoff' ⊢
        omega
      rw [update_of_ne he, update_of_ne hblock]
      by_cases hf : e' / extentCountPerFile = e / extentCountPerFile
      · rw [hf, update_self, ← hf]
        apply (h.stored e' off' hoff').congr rfl
        apply List.flatMap_congr
        intro d hd
        rw [hf]
        apply read_writeEach_of_apart
        intro c hc
        have h1 := (hx.offset_le hoff (hchunks c hc)).2
        have h2 := ((h.extent e').offset_le hoff' (mem_of_mem_take hd)).2
        have h3 := extents_apart he hf
        unfold logicBlocksPerExtent at h1 h2
        unfold extentSize at h3
        omega
      · rw [update_of_ne hf]
        exact h.stored e' off' hoff'

/-! ## Recycling -/

theorem flatMap_range_slice {α : Type} (f : Nat → List α) {n : Nat} (hb : b < n) (rest : List α) :
    ((((List.range n).flatMap f ++ rest).drop ((List.range b).flatMap f).length).take
      (f b).length) = f b := by
  obtain ⟨k, hk⟩ := Nat.exists_eq_add_of_lt hb
  have hn : n = b + (k + 1) := by omega
  rw [hn, List.range_add, List.flatMap_append, List.append_assoc, List.drop_left,
    List.range_succ_eq_map, List.map_cons, List.flatMap_cons, List.append_assoc, Nat.add_zero,
    List.take_left]

section Recycle

variable {o : CompressOption} {x : Extent} (m : Mem) (start : Nat)

/-- The bytes of block `b`, as `CfsSortOutChunk` copies them. -/
def usedBytes (x : Extent) (b : Nat) : List UInt8 :=
  chunkBytes m start x.chunkSize.bytes ((x.address b).chunknos.take (x.address b).nchunks)

theorem length_usedBytes (h : x.ListsOk) (hb : b < logicBlocksPerExtent) :
    (usedBytes m start x b).length = x.chunkSize.bytes * (x.address b).nchunks := by
  unfold usedBytes
  rw [length_chunkBytes, List.length_take, Nat.min_eq_left (h.nchunks_le b hb)]

theorem length_usedBytes_before (h : x.ListsOk) {n : Nat} (hn : n ≤ logicBlocksPerExtent) :
    ((List.range n).flatMap (usedBytes m start x)).length = x.chunkSize.bytes * x.usedBefore n := by
  induction n with
  | zero => rfl
  | succ n ih =>
    rw [List.range_succ, List.flatMap_append, length_append, ih (by omega),
      List.flatMap_singleton, length_usedBytes m start h hn, Extent.usedBefore_succ, Nat.mul_add]

theorem length_sortedArea (h : ExtentOk o x) :
    (sortedArea m start x).length = logicBlocksPerExtent * blcksz := by
  have hlen := length_usedBytes_before m start h.lists h.lists.nblocks_le
  have hle : x.chunkSize.bytes * x.usedBefore x.nblocks ≤ logicBlocksPerExtent * blcksz := by
    rw [← maxLogicChunks_bytes x.chunkSize]
    exact Nat.mul_le_mul_left _ (h.lists.usedBefore_le.trans h.allocated_le)
  rw [← hlen] at hle
  show ((List.range x.nblocks).flatMap (usedBytes m start x) ++ replicate
    (logicBlocksPerExtent * blcksz - ((List.range x.nblocks).flatMap (usedBytes m start x)).length)
    0).length = _
  rw [length_append, List.length_replicate]
  omega

/-- After the area has been written back, the new chunks of a block hold its old bytes. -/
theorem chunkBytes_sortedArea (h : ExtentOk o x) (hb : b < x.nblocks) :
    chunkBytes (m.write start (sortedArea m start x)) start x.chunkSize.bytes
      (chunkRun (x.usedBefore b + 1) (x.address b).nchunks) = usedBytes m start x b := by
  have hb' : b < logicBlocksPerExtent := hb.trans_le h.lists.nblocks_le
  have hlen := length_usedBytes m start h.lists hb'
  have hbefore := length_usedBytes_before m start h.lists (hb'.le)
  have hend : x.usedBefore b + (x.address b).nchunks ≤ x.usedBefore x.nblocks := by
    rw [← Extent.usedBefore_succ]
    exact Extent.usedBefore_mono x hb
  have harea : x.chunkSize.bytes * x.usedBefore b + x.chunkSize.bytes * (x.address b).nchunks ≤
      (sortedArea m start x).length := by
    rw [length_sortedArea m start h, ← maxLogicChunks_bytes x.chunkSize, ← Nat.mul_add]
    exact Nat.mul_le_mul_left _ (hend.trans (h.lists.usedBefore_le.trans h.allocated_le))
  rw [← read_chunkRun _ _ _ _ (Nat.succ_pos _)]
  show (m.write start (sortedArea m start x)).read (start + x.chunkSize.bytes * x.usedBefore b)
    (x.chunkSize.bytes * (x.address b).nchunks) = _
  rw [Mem.read_write_inside (Nat.le_add_right _ _) (by omega), Nat.add_sub_cancel_left, ← hbefore,
    ← hlen]
  exact flatMap_range_slice (usedBytes m start x) hb _

theorem sortOutChunk_ownedBefore (x : Extent) (hb : b ≤ x.nblocks) :
    x.sortOutChunk.ownedBefore b = x.usedBefore b := by
  unfold Extent.ownedBefore Extent.usedBefore
  congr 1
  apply List.map_congr_left
  intro i hi
  have hlt : i < x.nblocks := (List.mem_range.mp hi).trans_le hb
  have haddr : x.sortOutChunk.address i =
    ⟨(x.address i).nchunks, chunkRun (x.usedBefore i + 1) (x.address i).nchunks⟩ := if_pos hlt
  rw [haddr, length_chunkRun]

/-- The packed page is in order. -/
theorem sortOutChunk_inOrder (x : Extent) : InOrder x.sortOutChunk := by
  intro b _
  by_cases hlt : b < x.nblocks
  · have haddr : x.sortOutChunk.address b =
      ⟨(x.address b).nchunks, chunkRun (x.usedBefore b + 1) (x.address b).nchunks⟩ := if_pos hlt
    rw [sortOutChunk_ownedBefore x (hlt.le), haddr, length_chunkRun]
  · have haddr : x.sortOutChunk.address b = ⟨0, []⟩ := if_neg hlt
    rw [haddr]
    rfl

/-- The packed page, loaded again, is sound. -/
theorem ExtentOk.sortOutChunk (h : ExtentOk o x) :
    x.sortOutChunk.addressesOk = true ∧ ExtentOk o x.sortOutChunk.repaired := by
  have hlists := h.lists.sortOutChunk
  refine ⟨hlists.addressesOk (h.lists.usedBefore_le.trans h.allocated_le),
    hlists.repaired, h.chunkSize, ?_, fun _ => sortOutChunk_inOrder x⟩
  have hno : x.sortOutChunk.NoDropped :=
    Extent.noDropped_iff.mpr fun b c ho => (Extent.owns_sortOutChunk ho).1
  have howned := Extent.ownedBefore_of_noDropped hlists hno
  have hused : x.sortOutChunk.ownedBefore x.sortOutChunk.nblocks = x.usedBefore x.nblocks :=
    sortOutChunk_ownedBefore x le_rfl
  show x.sortOutChunk.maxAllocatedChunkno ≤ x.sortOutChunk.ownedBefore logicBlocksPerExtent
  rw [← howned, hused]
  exact hlists.maxAllocatedChunkno_le

end Recycle

/-- A recycle succeeds, is not visible, and puts the extent in order. -/
theorem Represents.cfsRecycleExtent (h : Represents o r content) (e : Nat) :
    ∃ r', cfsRecycleExtent r e = some r' ∧ Represents o r' content ∧ InOrder (r'.pca e) := by
  set count := extentCountPerFile
  have hx := h.extent e
  by_cases hflag : (r.pca e).recycleInOrder = true
  · exact ⟨r, if_pos hflag, h, hx.order hflag⟩
  obtain ⟨hok, hy⟩ := hx.sortOutChunk
  refine ⟨_, (if_neg hflag).trans (if_pos hok), ⟨?_, ?_⟩, ?_⟩
  · dsimp only
    exact update_cases hy fun e' _ => h.extent e'
  · intro e' off hoff
    show Stored o (update r.files (e / count)
        ((r.files (e / count)).write (extentBase e)
          (sortedArea (r.files (e / count)) (extentBase e) (r.pca e)))
        (e' / count)) (extentBase e')
      ((update r.pca e (r.pca e).sortOutChunk.repaired e').address off)
      (content (e' * logicBlocksPerExtent + off))
    by_cases he : e' = e
    · subst he
      rw [update_self, update_self]
      have hstored := h.stored e' off hoff
      by_cases hlt : off < (r.pca e').nblocks
      · have haddr : (r.pca e').sortOutChunk.repaired.address off =
          ⟨((r.pca e').address off).nchunks,
            chunkRun ((r.pca e').usedBefore off + 1) ((r.pca e').address off).nchunks⟩ := if_pos hlt
        apply hstored.congr
        · rw [haddr]
        · rw [haddr, ← hx.chunkSize]
          show chunkBytes _ _ _ (List.take _ (chunkRun _ _)) = _
          rw [List.take_of_length_le (by rw [length_chunkRun]), chunkBytes_sortedArea _ _ hx hlt]
          rfl
      · -- a block behind `nblocks` has no content
        have haddr : (r.pca e').sortOutChunk.repaired.address off = ⟨0, []⟩ := if_neg hlt
        have hzero : ((r.pca e').address off).nchunks = 0 := by
          by_contra hne
          exact hlt (hx.lists.live off hoff (Nat.pos_of_ne_zero hne))
        rw [haddr]
        apply hstored.congr
        · exact hzero.symm
        · rw [hzero]
          rfl
    · rw [update_of_ne he]
      by_cases hf : e' / count = e / count
      · rw [hf, update_self, ← hf]
        apply (h.stored e' off hoff).congr rfl
        apply List.flatMap_congr
        intro d hd
        rw [hf]
        apply Mem.read_write_of_disjoint
        rw [length_sortedArea _ _ hx]
        have h2 := ((h.extent e').offset_le hoff (mem_of_mem_take hd)).2
        have h3 := extents_apart he hf
        unfold logicBlocksPerExtent at h2 ⊢
        unfold extentSize at h3
        omega
      · rw [update_of_ne hf]
        exact h.stored e' off hoff
  · show InOrder (update r.pca e (r.pca e).sortOutChunk.repaired e)
    rw [update_self]
    exact sortOutChunk_inOrder (r.pca e)

/-! ## Runs -/

theorem represents_empty (o : CompressOption) : Represents o (Relation.empty o) fun _ => none where
  extent e := by
    have hinv := Extent.inv_empty o.chunkSize
    refine ⟨hinv.toListsOk, rfl, Nat.zero_le _, ?_⟩
    intro hflag
    cases hflag
  stored _ _ _ := rfl

/-- One step of the relation is one step of the table. -/
theorem Represents.step (h : Represents o r content) (ev : PageEvent) :
    ∃ r', r.step o ev = some r' ∧ Represents o r' (applyEvent content ev) := by
  cases ev with
  | writePage block page => exact ⟨_, rfl, h.cfsWritePage block page⟩
  | recycle e =>
    obtain ⟨r', hr', hrep, -⟩ := h.cfsRecycleExtent e
    exact ⟨r', hr', hrep⟩

theorem Represents.run (h : Represents o r content) (evs : List PageEvent) :
    ∃ r', r.run o evs = some r' ∧ Represents o r' (evs.foldl applyEvent content) := by
  induction evs generalizing r content with
  | nil => exact ⟨r, rfl, h⟩
  | cons ev evs ih =>
    obtain ⟨r₁, hstep, hrep⟩ := h.step ev
    obtain ⟨r', hrun, hrep'⟩ := ih hrep
    refine ⟨r', ?_, hrep'⟩
    rw [Relation.run, hstep]
    exact hrun

/-- After any sequence of writes and recycles every block reads as the last initialised page
written to it, or as zeros; and a recycle of any extent changes no block and leaves the chunks of
the extent in block order from chunk 1 on. -/
theorem compressedRelation_readAfterWrite (o : CompressOption) (evs : List PageEvent) :
    ∃ r, (Relation.empty o).run o evs = some r ∧
      (∀ block, cfsReadPage o r block =
        some (blockBytes (evs.foldl applyEvent (fun _ => none) block))) ∧
      ∀ e, ∃ r', cfsRecycleExtent r e = some r' ∧
        (∀ block, cfsReadPage o r' block = cfsReadPage o r block) ∧ InOrder (r'.pca e) := by
  obtain ⟨r, hrun, hrep⟩ := (represents_empty o).run evs
  refine ⟨r, hrun, hrep.cfsReadPage, ?_⟩
  intro e
  obtain ⟨r', hrecycle, hrep', horder⟩ := hrep.cfsRecycleExtent e
  refine ⟨r', hrecycle, ?_, horder⟩
  intro block
  rw [hrep'.cfsReadPage block, hrep.cfsReadPage block]

end OpenGauss.Cfs
