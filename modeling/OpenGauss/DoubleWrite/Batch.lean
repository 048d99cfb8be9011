import OpenGauss.Lib.Sector

/-!
# The batch double write file

What `double_write.cpp` writes into a batch file and how
`dw_recover_partial_write_batch` reads it back. Page 0 of the file holds three
copies of the file head, a sector each; the batches follow from page
`file_head->start` on, every one a head page, its data pages and a tail page,
which the head of the next batch overwrites.

A page in a file is `Sectors 15 _`, the sixteen 512-byte sectors of 8 kB.
-/

namespace OpenGauss.DoubleWrite

open Lib

/-- Which block of which relation file a page is. -/
structure BufferTag where
  relNode : Nat
  blockNum : Nat
deriving DecidableEq

/-- A complete version of a data page. -/
structure PageImage where
  tag : BufferTag
  lsn : Nat
  body : Nat
deriving DecidableEq

/-- A batch head or tail page, `dw_batch_t`. -/
structure BatchPage where
  pageId : Nat
  dwn : Nat
  pageNum : Nat
  bufTag : List BufferTag
deriving DecidableEq

/-- What one page of the batch file was written from. -/
inductive FilePage where
  | zero
  | batch (b : BatchPage)
  | data (img : PageImage)
deriving DecidableEq

abbrev DwPage := Sectors 15 FilePage

abbrev DataFiles := BufferTag → Sectors 15 PageImage

/-- `dw_file_head_t` -/
structure FileHead where
  start : Nat
  dwn : Nat
deriving DecidableEq

/-- `dw_file_size` in pages: 32 to 256 MB. -/
structure DwFileSize where
  pages : Nat
  pages_ge : 4096 ≤ pages
  pages_le : pages ≤ 32768

def dwBatchFileStart : Nat := 1

def dwExtraForOneBatch : Nat := 2

def dwExtraForTwoBatch : Nat := 3

/-- `GET_DW_BATCH_DATA_PAGE_MAX`: a head page has room for so many tags. -/
def dwBatchDataPageMax (isNewRelfilenode : Bool) : Nat := if isNewRelfilenode then 340 else 409

/-- `GET_DW_DIRTY_PAGE_MAX` -/
def dwDirtyPageMax (isNewRelfilenode : Bool) : Nat := 2 * dwBatchDataPageMax isNewRelfilenode

def dwBufMax : Nat := dwDirtyPageMax true + dwExtraForTwoBatch

def dwBatchMaxForNohbk : Nat := dwBatchDataPageMax false + dwExtraForOneBatch

/-- The last page of the recovery buffer, `max_page_addr`. -/
def maxPageIdx : Nat := dwDirtyPageMax false + dwExtraForTwoBatch

def u16 (n : Nat) : Nat := n % 2 ^ 16

/-! ## Writing a batch -/

/-- `dw_prepare_page` -/
def dwPreparePage (pages : List PageImage) (pageId dwn : Nat) : FilePage :=
  .batch ⟨pageId, dwn, pages.length, pages.map PageImage.tag⟩

/-- `dw_batch_add_extra`: data pages with the heads and tails around them. -/
def dwBatchAddExtra (pageNum : Nat) (isNew : Bool) : Nat :=
  if pageNum ≤ dwBatchDataPageMax isNew then pageNum + dwExtraForOneBatch
  else pageNum + dwExtraForTwoBatch

/-- `dw_assemble_batch`: more pages than one head can name make a second batch,
whose head is the tail of the first. -/
def dwAssembleBatch (isNew : Bool) (pageId dwn : Nat) (pages : List PageImage) : List FilePage :=
  let first := pages.take (dwBatchDataPageMax isNew)
  let second := pages.drop (dwBatchDataPageMax isNew)
  let tailId := pageId + 1 + first.length
  dwPreparePage first pageId dwn :: first.map FilePage.data ++
    dwPreparePage second tailId dwn ::
      if second = [] then []
      else second.map FilePage.data ++ [dwPreparePage [] (tailId + 1 + second.length) dwn]

/-! ## Checking pages -/

/-- `dw_verify_page`: the page when head, tail and checksum agree. -/
def dwVerifyPage (p : DwPage) : Option BatchPage :=
  match p.image? with
  | some (.batch b) => some b
  | _ => none

/-- A good head or tail page that carries the number `dwn`. -/
def carriesDwn (p : DwPage) (dwn : Nat) : Bool :=
  match dwVerifyPage p with
  | some b => b.dwn = dwn
  | none => false

/-- `dw_verify_batch` at page `head` of the buffer: its head and its tail page
are good and carry the number of the file. -/
def dwVerifyBatch (buf : Nat → DwPage) (head dwn : Nat) : Bool :=
  match dwVerifyPage (buf head) with
  | some b =>
    b.dwn = dwn ∧ head + b.pageNum + 1 ≤ maxPageIdx ∧
      carriesDwn (buf (head + b.pageNum + 1)) dwn = true
  | none => false

/-- `dw_verify_pg_checksum` of a page in the batch file. The checksum mixes in
the block number, not the relation. -/
def dwVerifyPgChecksum (p : DwPage) (blockNum : Nat) : Option PageImage :=
  match p.image? with
  | some (.data img) => if img.tag.blockNum = blockNum then some img else none
  | _ => none

/-- `dw_batch_head_broken` -/
def dwBatchHeadBroken (p : DwPage) : Bool :=
  match dwVerifyPage p with
  | some b => b.pageNum ≠ 0 ∧ b.pageId ≠ dwBatchFileStart
  | none => true

/-! ## Reading the batches back -/

/-- One page of `dw_recover_pages`. -/
def dwRecoverPage (d : DataFiles) (tag : BufferTag) (dwPage : DwPage) : DataFiles :=
  match dwVerifyPgChecksum dwPage tag.blockNum with
  | none => d
  | some img => Sectors.restore PageImage.lsn d tag img

/-- `dw_recover_pages` of the batch whose first data page is at `first`. -/
def dwRecoverPages (buf : Nat → DwPage) : Nat → List BufferTag → DataFiles → DataFiles
  | _, [], d => d
  | first, tag :: tags, d => dwRecoverPages buf (first + 1) tags (dwRecoverPage d tag (buf first))

/-- `dw_read_asst_t`: the pages `bufStart` to `bufEnd` of the buffer are the
pages of the file before `fileStart`. -/
structure ReadAsst where
  fileStart : Nat
  bufStart : Nat
  bufEnd : Nat
  buf : Nat → DwPage

/-- `dw_read_pages` -/
def dwReadPages (file : Nat → DwPage) (r : ReadAsst) (readingPages : Nat) : ReadAsst :=
  { r with
    fileStart := r.fileStart + readingPages
    bufEnd := r.bufEnd + readingPages
    buf := fun i =>
      if r.bufEnd ≤ i ∧ i < r.bufEnd + readingPages then file (r.fileStart + (i - r.bufEnd))
      else r.buf i }

/-- `dw_discard_pages` -/
def dwDiscardPages (r : ReadAsst) (pageNum : Nat) : ReadAsst :=
  { r with bufStart := r.bufStart + pageNum }

/-- `dw_calc_reading_pages`: the pages still missing of the batch `bufStart` is
the head of; what is left in the buffer moves to its front when there is no room. -/
def dwCalcReadingPages (r : ReadAsst) (pageNum : Nat) : ReadAsst × Nat :=
  let remainPages := r.bufEnd - r.bufStart
  let batchPages := pageNum + dwExtraForOneBatch
  if batchPages ≤ remainPages then (r, 0)
  else if dwBufMax ≤ r.bufStart + batchPages then
    ({ r with
        bufStart := 0
        bufEnd := remainPages
        buf := fun i => if i < remainPages then r.buf (r.bufStart + i) else r.buf i },
      batchPages - remainPages)
  else (r, batchPages - remainPages)

/-- What the loop of `dw_recover_partial_write_batch` leaves. -/
structure LoopEnd where
  data : DataFiles
  flushPage : Nat
  broken : Bool

/-- The loop of `dw_recover_partial_write_batch`, from a head page on. -/
def recoverBatches (file : Nat → DwPage) (dwn : Nat) :
    Nat → ReadAsst → Nat → DataFiles → Nat → LoopEnd
  | 0, _, _, d, flushPage => ⟨d, flushPage, false⟩
  | fuel + 1, r, readingPages, d, flushPage =>
    let r := dwReadPages file r readingPages
    if dwVerifyBatch r.buf r.bufStart dwn then
      match dwVerifyPage (r.buf r.bufStart) with
      | none => ⟨d, flushPage, true⟩
      | some head =>
        let d := dwRecoverPages r.buf (r.bufStart + 1) head.bufTag d
        let r := dwDiscardPages r (1 + head.pageNum)
        let flushPage := flushPage + (1 + head.pageNum)
        -- the tail page, which may be the head of the next batch
        match dwVerifyPage (r.buf r.bufStart) with
        | none => ⟨d, flushPage, true⟩
        | some tail =>
          if tail.pageNum = 0 then ⟨d, flushPage, false⟩
          else
            let (r, readingPages) := dwCalcReadingPages r tail.pageNum
            recoverBatches file dwn fuel r readingPages d flushPage
    else ⟨d, flushPage, dwBatchHeadBroken (r.buf r.bufStart)⟩

/-! ## The file context -/

/-- `dw_batch_file_context`: the file head in memory and the pages flushed since
its start. -/
structure FileCxt where
  head : FileHead
  flushPage : Nat

/-- Room test of `dw_batch_file_recycle`. -/
def fileFull (size : DwFileSize) (cxt : FileCxt) (pagesToWrite : Nat) : Bool :=
  size.pages ≤ cxt.head.start + cxt.flushPage + pagesToWrite

/-- A full recycle starts over at the first page ... -/
def FileCxt.resetStart (cxt : FileCxt) : FileCxt :=
  ⟨⟨dwBatchFileStart, cxt.head.dwn⟩, 0⟩

/-- ... and, once all data pages are synced, under the next number. -/
def FileCxt.nextDwn (cxt : FileCxt) : FileHead :=
  ⟨cxt.head.start, u16 (cxt.head.dwn + 1)⟩

/-- The truncation of `dw_batch_file_recycle`. -/
def FileCxt.truncate (cxt : FileCxt) (minIdx lastFlushPage : Nat) : FileCxt :=
  if minIdx = 0 then
    ⟨⟨u16 (cxt.head.start + lastFlushPage), cxt.head.dwn⟩,
      u16 (cxt.flushPage + 2 ^ 16 - lastFlushPage)⟩
  else
    ⟨⟨minIdx, cxt.head.dwn⟩, u16 (cxt.flushPage + 2 ^ 16 - u16 (minIdx + 2 ^ 16 - cxt.head.start))⟩

/-- One thread in the loop of `get_dw_page_min_idx`. -/
def minDwPageIdx (minIdx : Nat) : Option Nat → Nat
  | some i => if minIdx = 0 ∨ i < minIdx then i else minIdx
  | none => minIdx

/-- `get_dw_page_min_idx`: 0 when no thread is writing data pages. -/
def getDwPageMinIdx (idxs : List (Option Nat)) : Nat := idxs.foldl minDwPageIdx 0

/-! ## Recovery -/

structure Disk where
  heads : Fin 3 → FileHead
  file : Nat → DwPage
  data : DataFiles

/-- `dw_recover_batch_file_head`: every copy fills one sector, so it is an old or
a new head but never a mix, and the first copy is the one found good. -/
def dwRecoverBatchFileHead (heads : Fin 3 → FileHead) : FileHead := heads 0

/-- What `dw_recover_partial_write_batch` leaves on disk and in memory. -/
structure Recovered where
  disk : Disk
  cxt : FileCxt

/-- `dw_recover_partial_write_batch`, after the file head was read: its loop over the batches. -/
def Disk.recoverAll (size : DwFileSize) (disk : Disk) : LoopEnd :=
  let head := dwRecoverBatchFileHead disk.heads
  let r : ReadAsst := ⟨head.start, 0, 0, fun _ => Sectors.whole .zero⟩
  let readingPages := min dwBatchMaxForNohbk (size.pages - head.start)
  recoverBatches disk.file head.dwn size.pages r readingPages disk.data 0

/-- The file's context behind the batches. -/
def Disk.cxtBehind (size : DwFileSize) (disk : Disk) : FileCxt :=
  ⟨dwRecoverBatchFileHead disk.heads, (disk.recoverAll size).flushPage⟩

/-- `dw_recover_partial_write_batch` -/
def dwRecoverPartialWriteBatch (size : DwFileSize) (disk : Disk) : Recovered :=
  let done := disk.recoverAll size
  let cxt := disk.cxtBehind size
  -- no room for another batch: start over, else forget what was read
  let cxt : FileCxt :=
    if fileFull size cxt dwBufMax then ⟨cxt.resetStart.nextDwn, 0⟩
    else if 0 < cxt.flushPage then cxt.truncate 0 cxt.flushPage
    else cxt
  -- `dw_recover_batch_head`
  let file :=
    if done.broken then
      Sectors.write disk.file cxt.head.start [dwPreparePage [] cxt.head.start cxt.head.dwn]
    else disk.file
  ⟨⟨fun _ => cxt.head, file, done.data⟩, cxt⟩

end OpenGauss.DoubleWrite
