import Mathlib.Algebra.Ring.Nat
import Mathlib.Data.List.Basic
import Mathlib.Tactic

/-!
# The address page of a compressed extent

A compressed extent keeps 127 blocks. Its last page, the address page, lists
for every block the chunks that hold the block's compressed content, counts
the chunks handed out so far, and, when fragment reuse is enabled, keeps a
bitmap of the used chunks and the number of fragments between them. This
module translates the operations on that page: giving chunks to a block in
each of the two modes, dropping the blocks behind a truncation point, loading
the page from disk and packing its chunks again.
-/

namespace OpenGauss.Cfs

/-- `BLCKSZ`. -/
def blcksz : Nat := 8192

/-- `CFS_LOGIC_BLOCKS_PER_EXTENT`. -/
def logicBlocksPerExtent : Nat := 127

/-- `ALLOCATE_CHUNK_USAGE_LEN`: the bytes of the usage bitmap. -/
def allocateChunkUsageLen : Nat := 127

/-- The entries of `CHUNK_SIZE_LIST`. -/
inductive ChunkSize where
  | half
  | quarter
  | eighth
  | sixteenth
  deriving DecidableEq

namespace ChunkSize

def bytes : ChunkSize → Nat
  | half => blcksz / 2
  | quarter => blcksz / 4
  | eighth => blcksz / 8
  | sixteenth => blcksz / 16

/-- `BLCKSZ / chunk_size`. -/
def chunksPerBlock (size : ChunkSize) : Nat := blcksz / size.bytes

/-- `CFS_MAX_LOGIC_CHUNKS_NUMBER`. -/
def maxLogicChunksNumber (size : ChunkSize) : Nat := size.chunksPerBlock * logicBlocksPerExtent

end ChunkSize

/-- `CfsExtentAddress`: the chunks allocated to a block, of which the first `nchunks` hold its
content. -/
structure ExtentAddress where
  nchunks : Nat
  chunknos : List Nat
  deriving DecidableEq

/-- `CfsExtentHeader`. The bitmap is indexed by chunk number; a number whose byte lies behind the
array has no bit of its own there, so the bounds are kept as part of what is proved. -/
structure Extent where
  chunkSize : ChunkSize
  nblocks : Nat
  allocatedChunks : Nat
  recycleInOrder : Bool
  nFragmentChunks : Nat
  allocatedChunkUsages : Nat → Bool
  address : Nat → ExtentAddress

def Extent.empty (size : ChunkSize) : Extent where
  chunkSize := size
  nblocks := 0
  allocatedChunks := 0
  recycleInOrder := false
  nFragmentChunks := 0
  allocatedChunkUsages := fun _ => false
  address := fun _ => ⟨0, []⟩

/-- `n` chunk numbers from `start` on. -/
def chunkRun (start n : Nat) : List Nat := (List.range n).map (start + ·)

/-- Subtraction in `uint16`. -/
def sub16 (a b : Nat) : Nat := (a + 2 ^ 16 - b) % 2 ^ 16

/-! ## Searching the bitmap -/

/-- The free chunks in front of a block: from `i` downwards, at most `target`, never chunk 0. -/
def countFront (map : Nat → Bool) : Nat → Nat → Nat
  | 0, _ => 0
  | target + 1, i => if 0 < i ∧ map i = false then countFront map target (i - 1) + 1 else 0

/-- The free chunks behind a block: from `j` upwards to `maxPos`, at most `target`. -/
def countRear (map : Nat → Bool) (maxPos : Nat) : Nat → Nat → Nat
  | 0, _ => 0
  | target + 1, j => if j ≤ maxPos ∧ map j = false then countRear map maxPos target (j + 1) + 1 else 0

/-- `CfsFindAdjacentEmptyChunkNo`; 0 is `INVALID_CHUNK_NUM`. -/
def findAdjacentEmptyChunkNo (map : Nat → Bool) (target frontPos rearPos maxPos : Nat) : Nat :=
  let frontCount := countFront map target (frontPos - 1)
  let rearCount := countRear map maxPos (target - frontCount) (rearPos + 1)
  if target ≤ frontCount + rearCount then frontPos - frontCount else 0

/-- The loop of `CfsFindEmptyChunkNo` at position `i` with `left` positions to go, after
`sequenceLength` free chunks in a row. -/
def findEmptyLoop (map : Nat → Bool) (target : Nat) : Nat → Nat → Nat → Nat
  | 0, _, _ => 0
  | left + 1, i, sequenceLength =>
    if map i = false then
      if sequenceLength + 1 = target then i + 1 - target
      else findEmptyLoop map target left (i + 1) (sequenceLength + 1)
    else findEmptyLoop map target left (i + 1) 0

/-- `CfsFindEmptyChunkNo` from `CHUNK_START_NUM` on. -/
def findEmptyChunkNo (map : Nat → Bool) (maxPos target : Nat) : Nat :=
  findEmptyLoop map target maxPos 1 0

/-! ## Chunks for a block -/

namespace Extent

variable (x : Extent)

/-- `CfsAllocateChunks` and the new `allocated_chunks` of the block. -/
def allocateChunks (b chunkno need : Nat) : Extent :=
  { x with
    allocatedChunkUsages := fun c =>
      if chunkno ≤ c ∧ c < chunkno + need then true else x.allocatedChunkUsages c
    address := Function.update x.address b ⟨(x.address b).nchunks, chunkRun chunkno need⟩ }

/-- The block gives its chunks back before it looks for a longer run. -/
def cleanUp (b : Nat) : Extent :=
  { x with
    recycleInOrder := false
    allocatedChunkUsages := fun c =>
      if c ∈ (x.address b).chunknos then false else x.allocatedChunkUsages c
    nFragmentChunks := (x.nFragmentChunks + (x.address b).chunknos.length) % 2 ^ 16 }

/-- `ReuseAdjacentChunks`, `ReuseChunksFromHead`: the run found is made of fragments. -/
def reuseChunks (b chunkno need : Nat) : Extent :=
  { x.allocateChunks b chunkno need with nFragmentChunks := sub16 x.nFragmentChunks need }

/-- `ExtendDeltaChunksAtTail`, after the exchange of `allocated_chunks`: the block is the last one
and grows where it stands. -/
def extendDeltaChunksAtTail (b first have_ need : Nat) : Extent :=
  { x.allocateChunks b first need with
    allocatedChunks := x.allocatedChunks + (need - have_)
    nFragmentChunks := sub16 x.nFragmentChunks have_ }

/-- `ExtendNewChunksAtTail`. -/
def extendNewChunksAtTail (b need : Nat) : Extent :=
  { x.allocateChunks b (x.allocatedChunks + 1) need with
    allocatedChunks := x.allocatedChunks + need }

/-- The search of `ReuseAdjacentChunks`: free chunks next to the place of the chunks `old`. -/
def adjacentRun (old : List Nat) (need : Nat) : Nat :=
  if old ≠ [] then
    findAdjacentEmptyChunkNo x.allocatedChunkUsages (need - old.length) (old.headD 0)
      (old.getLastD 0) x.allocatedChunks
  else 0

/-- The search of `ReuseChunksFromHead`. -/
def headRun (need : Nat) : Nat :=
  if need ≤ x.nFragmentChunks then
    findEmptyChunkNo x.allocatedChunkUsages x.allocatedChunks need
  else 0

/-- The four situations of `ExtendChunksOfBlockCore`, tried in turn on the page `x` from which the
chunks `old` of the block have been cleaned up. -/
def findChunks (b : Nat) (old : List Nat) (need : Nat) : Extent :=
  let first := old.headD 0
  let rear := old.getLastD 0
  if old ≠ [] ∧ rear = x.allocatedChunks ∧ first ≠ 0 then
    x.extendDeltaChunksAtTail b first old.length need
  else
    -- the exchange of the first situation is made before its chunk number is looked at
    let y := if old ≠ [] ∧ rear = x.allocatedChunks then
        { x with allocatedChunks := x.allocatedChunks + (need - old.length) }
      else x
    if y.adjacentRun old need ≠ 0 then y.reuseChunks b (y.adjacentRun old need) need
    else if y.headRun need ≠ 0 then y.reuseChunks b (y.headRun need) need
    else y.extendNewChunksAtTail b need

/-- The last step of `ExtendChunksOfBlockCore`: record how many chunks are in use. -/
def setNchunks (b actualUse : Nat) : Extent :=
  { x with address := Function.update x.address b ⟨actualUse, (x.address b).chunknos⟩ }

/-- `ExtendChunksOfBlockCore` with `enable_tpc_fragment_chunks`. -/
def extendChunksOfBlock (b need actualUse : Nat) : Extent :=
  let old := (x.address b).chunknos
  let grown := if old.length < need then (x.cleanUp b).findChunks b old need else x
  grown.setNchunks b actualUse

/-- `ExtendChunksOfBlockCore` without `enable_tpc_fragment_chunks`: the missing chunks are
appended to the extent and to the block's list. -/
def appendChunksOfBlock (b need actualUse : Nat) : Extent :=
  let old := (x.address b).chunknos
  let grown := if old.length < need then
      { x with
        recycleInOrder := false
        allocatedChunks := x.allocatedChunks + (need - old.length)
        address := Function.update x.address b
          ⟨(x.address b).nchunks, old ++ chunkRun (x.allocatedChunks + 1) (need - old.length)⟩ }
    else x
  grown.setNchunks b actualUse

/-- `CfsWritePage` keeps `nblocks` above every block written. -/
def raiseNblocks (b : Nat) : Extent := { x with nblocks := max x.nblocks (b + 1) }

/-! ## Truncating, loading and packing -/

/-- `CfsMdTruncate` at block `off` of the extent; at the first block the page is left alone. -/
def mdTruncate (off : Nat) : Extent :=
  if off = 0 then x
  else
    { x with
      nblocks := off
      address := fun b =>
        if off ≤ b ∧ b < logicBlocksPerExtent then ⟨0, (x.address b).chunknos⟩ else x.address b }

def blocks : List Nat := List.range logicBlocksPerExtent

/-- The largest chunk number in the lists of all blocks. -/
def maxAllocatedChunkno : Nat :=
  blocks.foldl (fun m b => (x.address b).chunknos.foldl max m) 0

/-- One past the last block with content. -/
def lastNonzeroBlock : Nat :=
  blocks.foldl (fun m b => if 0 < (x.address b).nchunks then b + 1 else m) 0

/-- What `CheckAndRepairCompressAddress` accepts: chunk numbers inside the extent, no chunk in two
blocks, and no more chunks in use than allocated. -/
def addressesOk : Bool :=
  blocks.all fun b =>
    decide ((x.address b).nchunks ≤ (x.address b).chunknos.length) &&
    decide ((x.address b).chunknos.length ≤ x.chunkSize.chunksPerBlock) &&
    (x.address b).chunknos.all fun c =>
      decide (0 < c ∧ c ≤ x.chunkSize.maxLogicChunksNumber) &&
      (List.range b).all fun b' => decide (c ∉ (x.address b').chunknos)

/-- The chunks of the blocks before `n`. -/
def ownedBefore (n : Nat) : Nat :=
  ((List.range n).map fun b => (x.address b).chunknos.length).sum

/-- `CheckAndRepairCompressAddress` on an accepted page: the counters are set from the lists. -/
def repaired : Extent :=
  { x with
    nblocks := max x.nblocks x.lastNonzeroBlock
    allocatedChunks := x.maxAllocatedChunkno }

/-- `pca_buf_load_page` builds the bitmap and the fragment count from the blocks in use. -/
def rebuilt : Extent :=
  { x with
    allocatedChunkUsages := fun c =>
      (List.range x.nblocks).any fun b => decide (c ∈ (x.address b).chunknos)
    nFragmentChunks := sub16 x.allocatedChunks (x.ownedBefore x.nblocks % 2 ^ 16) }

/-- `pca_buf_load_page`; `none` is `CTRL_PAGE_LOADED_ERROR`. -/
def loadPage : Option Extent :=
  if x.addressesOk then some x.repaired.rebuilt else none

/-- The chunks in use of the blocks before `n`. -/
def usedBefore (n : Nat) : Nat := ((List.range n).map fun b => (x.address b).nchunks).sum

/-- `CfsSortOutChunk`: number the chunks in use from 1 on in block order. -/
def sortOutChunk : Extent :=
  { x with
    allocatedChunks := x.usedBefore x.nblocks
    recycleInOrder := true
    address := fun b =>
      if b < x.nblocks then ⟨(x.address b).nchunks, chunkRun (x.usedBefore b + 1) (x.address b).nchunks⟩
      else ⟨0, []⟩ }

/-- `CfsRecycleChunkInExt`: an extent in order is left alone, otherwise the packed page is written
out and read again before the next use. -/
def recycleChunk : Option Extent :=
  if x.recycleInOrder then some x else x.sortOutChunk.loadPage

/-- The condition on which `CfsWritePage` recycles the extent. -/
def recycleWanted : Bool :=
  decide (logicBlocksPerExtent * blcksz / x.chunkSize.bytes / 4 < x.nFragmentChunks) ||
  decide ((logicBlocksPerExtent - 1) * blcksz / x.chunkSize.bytes ≤ x.allocatedChunks ∧
    blcksz / x.chunkSize.bytes ≤ x.nFragmentChunks)

end Extent

/-! ## Searching finds free runs -/

theorem mem_chunkRun {start n c : Nat} : c ∈ chunkRun start n ↔ start ≤ c ∧ c < start + n := by
  unfold chunkRun
  rw [List.mem_map]
  constructor
  · rintro ⟨i, hi, rfl⟩
    have hlt := List.mem_range.mp hi
    omega
  · rintro ⟨hlo, hhi⟩
    exact ⟨c - start, List.mem_range.mpr (by omega), by omega⟩

@[simp] theorem length_chunkRun (start n : Nat) : (chunkRun start n).length = n := by
  simp [chunkRun]

theorem nodup_chunkRun (start n : Nat) : (chunkRun start n).Nodup := by
  apply List.Nodup.map _ List.nodup_range
  intro a b h
  exact Nat.add_left_cancel h

theorem countFront_le (map : Nat → Bool) (target i : Nat) :
    countFront map target i ≤ target ∧ countFront map target i ≤ i := by
  induction target generalizing i with
  | zero => exact ⟨Nat.le_refl _, Nat.zero_le _⟩
  | succ target ih =>
    rw [countFront]
    split
    · have := ih (i - 1)
      omega
    · omega

theorem countFront_free (map : Nat → Bool) (target i c : Nat)
    (hlo : i - countFront map target i < c) (hhi : c ≤ i) : map c = false := by
  induction target generalizing i with
  | zero => rw [countFront] at hlo; omega
  | succ target ih =>
    rw [countFront] at hlo
    split at hlo
    case isTrue h =>
      by_cases hc : c = i
      · rw [hc]; exact h.2
      · exact ih (i - 1) (by omega) (by omega)
    case isFalse => omega

theorem countRear_free (map : Nat → Bool) (maxPos target j c : Nat)
    (hlo : j ≤ c) (hhi : c < j + countRear map maxPos target j) : c ≤ maxPos ∧ map c = false := by
  induction target generalizing j with
  | zero => rw [countRear] at hhi; omega
  | succ target ih =>
    rw [countRear] at hhi
    split at hhi
    case isTrue h =>
      by_cases hc : c = j
      · rw [hc]; exact h
      · exact ih (j + 1) (by omega) (by omega)
    case isFalse => omega

variable {map : Nat → Bool} {target : Nat}

/-- The run found next to a block: `frontPos .. rearPos` was the block's own run and is free. -/
theorem findAdjacentEmptyChunkNo_spec {have_ frontPos maxPos r : Nat}
    (hr : findAdjacentEmptyChunkNo map target frontPos (frontPos + have_ - 1) maxPos = r)
    (hne : r ≠ 0) (hhave : 0 < have_) (hpos : 0 < frontPos) (hmax : frontPos + have_ ≤ maxPos + 1)
    (hown : ∀ c, frontPos ≤ c → c < frontPos + have_ → map c = false) :
    ∀ c, r ≤ c → c < r + (have_ + target) → 0 < c ∧ c ≤ maxPos ∧ map c = false := by
  unfold findAdjacentEmptyChunkNo at hr
  dsimp only at hr
  generalize hf : countFront map target (frontPos - 1) = front at hr
  generalize hb : countRear map maxPos (target - front) (frontPos + have_ - 1 + 1) = rear at hr
  have hfront := countFront_le map target (frontPos - 1)
  rw [hf] at hfront
  split at hr
  case isFalse => exact absurd hr.symm hne
  case isTrue henough =>
    intro c hlo hhi
    rcases Nat.lt_or_ge c frontPos with hc | hc
    · have hfree := countFront_free map target (frontPos - 1) c (by omega) (by omega)
      exact ⟨by omega, by omega, hfree⟩
    rcases Nat.lt_or_ge c (frontPos + have_) with hc' | hc'
    · exact ⟨by omega, by omega, hown c hc hc'⟩
    have hfree := countRear_free map maxPos (target - front) (frontPos + have_ - 1 + 1) c
      (by omega) (by omega)
    exact ⟨by omega, hfree⟩

theorem findEmptyLoop_spec (left i sequenceLength : Nat)
    (hseq : sequenceLength < target) (hi : sequenceLength < i)
    (hrun : ∀ c, i - sequenceLength ≤ c → c < i → map c = false)
    (hne : findEmptyLoop map target left i sequenceLength ≠ 0) :
    ∀ c, findEmptyLoop map target left i sequenceLength ≤ c →
      c < findEmptyLoop map target left i sequenceLength + target →
      0 < c ∧ c < i + left ∧ map c = false := by
  induction left generalizing i sequenceLength with
  | zero => exact absurd rfl hne
  | succ left ih =>
    rw [findEmptyLoop] at hne ⊢
    by_cases hfree : map i = false
    · rw [if_pos hfree] at hne ⊢
      have hrun' : ∀ c, i + 1 - (sequenceLength + 1) ≤ c → c < i + 1 → map c = false := by
        intro c hlo hhi
        by_cases hc : c = i
        · rw [hc]; exact hfree
        · exact hrun c (by omega) (by omega)
      by_cases hfull : sequenceLength + 1 = target
      · rw [if_pos hfull] at hne ⊢
        intro c hlo hhi
        exact ⟨by omega, by omega, hrun' c (by omega) (by omega)⟩
      rw [if_neg hfull] at hne ⊢
      intro c hlo hhi
      have := ih (i + 1) (sequenceLength + 1) (by omega) (by omega) hrun' hne c hlo hhi
      exact ⟨this.1, by omega, this.2.2⟩
    · rw [if_neg hfree] at hne ⊢
      intro c hlo hhi
      have := ih (i + 1) 0 (by omega) (by omega) (fun c _ _ => by omega) hne c hlo hhi
      exact ⟨this.1, by omega, this.2.2⟩

/-- The run found from the head of the extent. -/
theorem findEmptyChunkNo_spec {maxPos r : Nat}
    (hr : findEmptyChunkNo map maxPos target = r) (hne : r ≠ 0) (htarget : 0 < target) :
    ∀ c, r ≤ c → c < r + target → 0 < c ∧ c ≤ maxPos ∧ map c = false := by
  unfold findEmptyChunkNo at hr
  subst hr
  intro c hlo hhi
  have := findEmptyLoop_spec maxPos 1 0 htarget Nat.one_pos (fun c _ _ => by omega) hne c hlo hhi
  exact ⟨this.1, by omega, this.2.2⟩

end OpenGauss.Cfs
