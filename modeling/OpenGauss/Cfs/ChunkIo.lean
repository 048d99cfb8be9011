import Mathlib.Data.List.SplitBy
import OpenGauss.Cfs.Extent
import OpenGauss.Lib.Mem

/-!
# Reading and writing the chunks of a page

A page is read and written chunk by chunk, with neighbouring chunks merged
into one transfer. The merged loops are shown to do what one transfer a chunk
does, and from that what a page reads back after writes to its own and to
other chunks.
-/

namespace OpenGauss.Cfs

open Lib

variable {cs : List Nat} {k start : Nat}

/-- `OffsetOfPageCompressChunk`. -/
def offsetOfPageCompressChunk (chunkSize chunkno : Nat) : Nat := chunkSize * (chunkno - 1)

/-- The runs of neighbouring chunks the inner loops of `CfsReadPage` and `CfsWritePage` find. -/
def mergedRuns (chunknos : List Nat) : List (List Nat) :=
  chunknos.splitBy fun c next => next == c + 1

/-- The loop of `CfsReadPage` over the chunks of a page. -/
def readChunks (m : Mem) (start chunkSize : Nat) (chunknos : List Nat) : List UInt8 :=
  (mergedRuns chunknos).flatMap fun run =>
    m.read (start + offsetOfPageCompressChunk chunkSize (run.headD 0)) (chunkSize * run.length)

/-- One transfer per run, each taking its part of the buffer. -/
def writeRuns (start chunkSize : Nat) (m : Mem) : List (List Nat) → List UInt8 → Mem
  | [], _ => m
  | run :: rest, buffer =>
    writeRuns start chunkSize
      (m.write (start + offsetOfPageCompressChunk chunkSize (run.headD 0))
        (buffer.take (chunkSize * run.length)))
      rest (buffer.drop (chunkSize * run.length))

/-- The loop of `CfsWritePage` over the chunks of a page. -/
def writeChunks (m : Mem) (start chunkSize : Nat) (chunknos : List Nat) (buffer : List UInt8) : Mem :=
  writeRuns start chunkSize m (mergedRuns chunknos) buffer

/-! ## One transfer a chunk -/

def chunkBytes (m : Mem) (start k : Nat) (cs : List Nat) : List UInt8 :=
  cs.flatMap fun c => m.read (start + offsetOfPageCompressChunk k c) k

def writeEach (start k : Nat) (m : Mem) : List Nat → List UInt8 → Mem
  | [], _ => m
  | c :: cs, buffer =>
    writeEach start k (m.write (start + offsetOfPageCompressChunk k c) (buffer.take k)) cs
      (buffer.drop k)

theorem chunkRun_succ (a n : Nat) : chunkRun a (n + 1) = a :: chunkRun (a + 1) n := by
  unfold chunkRun
  rw [List.range_succ_eq_map, List.map_cons, List.map_map]
  congr 1
  apply List.map_congr_left
  intro i _
  show a + (i + 1) = a + 1 + i
  omega

theorem eq_chunkRun_of_isChain {run : List Nat}
    (h : run.IsChain fun c next => (next == c + 1) = true) :
    run = chunkRun (run.headD 0) run.length := by
  induction run with
  | nil => rfl
  | cons a run ih =>
    rw [List.length_cons, List.headD_cons, chunkRun_succ]
    cases run with
    | nil => rfl
    | cons b run =>
      obtain ⟨hab, htail⟩ := List.isChain_cons_cons.mp h
      have hb : b = a + 1 := of_decide_eq_true hab
      rw [← hb]
      exact congrArg (a :: ·) (ih htail)

theorem offset_succ {a : Nat} (ha : 0 < a) (start : Nat) :
    start + offsetOfPageCompressChunk k (a + 1) = start + offsetOfPageCompressChunk k a + k := by
  unfold offsetOfPageCompressChunk
  obtain ⟨a, rfl⟩ := Nat.exists_eq_succ_of_ne_zero (Nat.pos_iff_ne_zero.mp ha)
  rw [Nat.succ_eq_add_one, Nat.add_sub_cancel, Nat.add_sub_cancel, Nat.mul_add, Nat.mul_one]
  omega

theorem read_chunkRun (m : Mem) (start k n : Nat) {a : Nat} (ha : 0 < a) :
    m.read (start + offsetOfPageCompressChunk k a) (k * n) =
      chunkBytes m start k (chunkRun a n) := by
  induction n generalizing a with
  | zero => rfl
  | succ n ih =>
    have hlen : k * (n + 1) = k + k * n := by rw [Nat.mul_add, Nat.mul_one, Nat.add_comm]
    rw [chunkRun_succ, hlen, Mem.read_add, ← offset_succ ha, ih (Nat.succ_pos a)]
    rfl

/-- What a member of the merged runs looks like. -/
theorem mem_mergedRuns {run : List Nat} (hpos : ∀ c ∈ cs, 0 < c) (h : run ∈ mergedRuns cs) :
    run = chunkRun (run.headD 0) run.length ∧ 0 < run.headD 0 := by
  refine ⟨eq_chunkRun_of_isChain (List.isChain_of_mem_splitBy h), ?_⟩
  cases run with
  | nil => exact absurd h (List.nil_notMem_splitBy _ _)
  | cons a run =>
    apply hpos
    rw [← List.flatten_splitBy (fun c next => next == c + 1) cs]
    exact List.mem_flatten.mpr ⟨a :: run, h, .head _⟩

/-- The merged reads are the chunks' bytes. -/
theorem readChunks_eq (m : Mem) (start k : Nat) (hpos : ∀ c ∈ cs, 0 < c) :
    readChunks m start k cs = chunkBytes m start k cs := by
  have hruns : readChunks m start k cs =
      (mergedRuns cs).flatMap fun run => chunkBytes m start k run := by
    apply List.flatMap_congr
    intro run hrun
    obtain ⟨heq, hhead⟩ := mem_mergedRuns hpos hrun
    rw [read_chunkRun m start k run.length hhead, ← heq]
  rw [hruns]
  unfold chunkBytes
  rw [← List.flatMap_assoc, List.flatMap_id']
  exact congrArg _ (List.flatten_splitBy _ cs)

theorem writeEach_chunkRun (start k n : Nat) {a : Nat} (ha : 0 < a) (m : Mem) (rest : List Nat)
    (buffer : List UInt8) (hlen : k * n ≤ buffer.length) :
    writeEach start k m (chunkRun a n ++ rest) buffer =
      writeEach start k (m.write (start + offsetOfPageCompressChunk k a) (buffer.take (k * n))) rest
        (buffer.drop (k * n)) := by
  induction n generalizing a m buffer with
  | zero =>
    rw [Nat.mul_zero, List.take_zero, List.drop_zero, Mem.write_nil]
    rfl
  | succ n ih =>
    have hsplit : k * (n + 1) = k + k * n := by rw [Nat.mul_add, Nat.mul_one, Nat.add_comm]
    rw [hsplit] at hlen ⊢
    have hk : (buffer.take k).length = k := by
      rw [List.length_take]
      omega
    have hdrop : k * n ≤ (buffer.drop k).length := by
      rw [List.length_drop]
      omega
    rw [chunkRun_succ, List.cons_append, writeEach, ih (Nat.succ_pos a) _ _ hdrop, offset_succ ha]
    have htwo := Mem.write_write_append m (start + offsetOfPageCompressChunk k a) (buffer.take k)
      ((buffer.drop k).take (k * n))
    rw [hk] at htwo
    rw [htwo, List.drop_drop, List.take_add]

theorem writeChunks_eq (m : Mem) (start k : Nat) (hpos : ∀ c ∈ cs, 0 < c) (buffer : List UInt8)
    (hlen : buffer.length = k * cs.length) :
    writeChunks m start k cs buffer = writeEach start k m cs buffer := by
  have hruns : ∀ (runs : List (List Nat)) (m : Mem) (buffer : List UInt8),
      (∀ run ∈ runs, run = chunkRun (run.headD 0) run.length ∧ 0 < run.headD 0) →
      k * runs.flatten.length ≤ buffer.length →
      writeRuns start k m runs buffer = writeEach start k m runs.flatten buffer := by
    intro runs
    induction runs with
    | nil =>
      intro m buffer _ _
      rfl
    | cons run runs ih =>
      intro m buffer hall hle
      obtain ⟨heq, hhead⟩ := hall run (.head _)
      rw [List.flatten_cons, List.length_append, Nat.mul_add] at hle
      have hrest : k * runs.flatten.length ≤ (buffer.drop (k * run.length)).length := by
        rw [List.length_drop]
        omega
      rw [writeRuns, ih _ _ (fun r hr => hall r (.tail _ hr)) hrest, List.flatten_cons]
      have hrun := writeEach_chunkRun start k run.length hhead m runs.flatten buffer (by omega)
      rw [← heq] at hrun
      exact hrun.symm
  have hflat : (mergedRuns cs).flatten = cs := List.flatten_splitBy _ cs
  unfold writeChunks
  rw [hruns (mergedRuns cs) m buffer (fun run hrun => mem_mergedRuns hpos hrun)
    (by rw [hflat, hlen]), hflat]

/-! ## What a page reads back -/

theorem chunks_apart {c d : Nat} (hc : 0 < c) (hd : 0 < d) (hne : c ≠ d) :
    offsetOfPageCompressChunk k c + k ≤ offsetOfPageCompressChunk k d ∨
      offsetOfPageCompressChunk k d + k ≤ offsetOfPageCompressChunk k c := by
  unfold offsetOfPageCompressChunk
  rcases Nat.lt_or_gt_of_ne hne with hlt | hgt
  · have := Nat.mul_le_mul_left k (show c - 1 + 1 ≤ d - 1 by omega)
    rw [Nat.mul_add] at this
    omega
  · have := Nat.mul_le_mul_left k (show d - 1 + 1 ≤ c - 1 by omega)
    rw [Nat.mul_add] at this
    omega

theorem read_writeEach_of_apart {off len : Nat} (m : Mem) (buffer : List UInt8)
    (hapart : ∀ c ∈ cs, off + len ≤ start + offsetOfPageCompressChunk k c ∨
      start + offsetOfPageCompressChunk k c + k ≤ off) :
    (writeEach start k m cs buffer).read off len = m.read off len := by
  induction cs generalizing m buffer with
  | nil => rfl
  | cons c cs ih =>
    rw [writeEach, ih _ _ fun d hd => hapart d (.tail _ hd)]
    apply Mem.read_write_of_disjoint
    have hlen : (buffer.take k).length ≤ k := List.length_take_le _ _
    have := hapart c (.head _)
    omega

theorem chunkBytes_writeEach_of_disjoint {ds : List Nat} (m : Mem) (buffer : List UInt8)
    (hcs : ∀ c ∈ cs, 0 < c) (hds : ∀ d ∈ ds, 0 < d) (hne : ∀ d ∈ ds, d ∉ cs) :
    chunkBytes (writeEach start k m cs buffer) start k ds = chunkBytes m start k ds := by
  apply List.flatMap_congr
  intro d hd
  apply read_writeEach_of_apart
  intro c hc
  have := chunks_apart (k := k) (hcs c hc) (hds d hd) (by rintro rfl; exact hne c hd hc)
  omega

theorem chunkBytes_writeEach (m : Mem) (buffer : List UInt8) (hpos : ∀ c ∈ cs, 0 < c)
    (hnodup : cs.Nodup) (hlen : buffer.length = k * cs.length) :
    chunkBytes (writeEach start k m cs buffer) start k cs = buffer := by
  induction cs generalizing m buffer with
  | nil =>
    rw [List.length_nil, Nat.mul_zero] at hlen
    exact (List.length_eq_zero_iff.mp hlen).symm
  | cons c cs ih =>
    rw [List.length_cons, Nat.mul_add, Nat.mul_one] at hlen
    obtain ⟨hc, hnodup'⟩ := List.nodup_cons.mp hnodup
    have htake : (buffer.take k).length = k := by
      rw [List.length_take]
      omega
    have hrest := ih (m.write (start + offsetOfPageCompressChunk k c) (buffer.take k))
      (buffer.drop k) (fun d hd => hpos d (.tail _ hd)) hnodup'
      (by rw [List.length_drop]; omega)
    have hfirst : (writeEach start k (m.write (start + offsetOfPageCompressChunk k c)
        (buffer.take k)) cs (buffer.drop k)).read (start + offsetOfPageCompressChunk k c) k =
        buffer.take k := by
      rw [read_writeEach_of_apart]
      · have hself := Mem.read_write_self m (start + offsetOfPageCompressChunk k c) (buffer.take k)
        rw [htake] at hself
        exact hself
      · intro d hd
        have := chunks_apart (k := k) (hpos c (.head _))
          (hpos d (.tail _ hd)) (by rintro rfl; exact hc hd)
        omega
    unfold chunkBytes at hrest ⊢
    rw [List.flatMap_cons, writeEach, hfirst, hrest, List.take_append_drop]

/-- The chunks of a page lie inside the data area of the extent. -/
theorem offset_add_le {c n : Nat} (hpos : 0 < c) (hle : c ≤ n) :
    offsetOfPageCompressChunk k c + k ≤ k * n := by
  unfold offsetOfPageCompressChunk
  have := Nat.mul_le_mul_left k (show c - 1 + 1 ≤ n by omega)
  rw [Nat.mul_add] at this
  omega

theorem length_chunkBytes (m : Mem) (start k : Nat) (cs : List Nat) :
    (chunkBytes m start k cs).length = k * cs.length := by
  induction cs with
  | nil => rfl
  | cons c cs ih =>
    unfold chunkBytes at ih ⊢
    rw [List.flatMap_cons, List.length_append, ih, Mem.length_read, List.length_cons, Nat.mul_add,
      Nat.mul_one, Nat.add_comm]

end OpenGauss.Cfs
