import Mathlib.Data.List.Sort
import OpenGauss.DoubleWrite.Batch

/-!
# The single flush double write file

What backends write to the single flush file before they write one data page,
and how `dw_recovery_partial_write_single` reads it back. The file has two
parts, each with a file head and slots of one page. A slot of the first part
keeps the tag of its page in the free space of the page; the second part, for
pages without room, keeps the tags in four pages of their own.
-/

namespace OpenGauss.SingleWrite

open Lib
open DoubleWrite (FileHead u16)

/-- The physical `BufferTag` of a page, `phy_tag`. -/
structure PhyTag where
  spcNode : Nat
  dbNode : Nat
  relNode : Nat
  bucketNode : Int
  forkNum : Int
  blockNum : Nat
deriving DecidableEq

def invalidForkNumber : Int := -1

def invalidBlockNumber : Nat := 2 ^ 32 - 1

def invalidOid : Nat := 0

def PhyTag.Valid (tag : PhyTag) : Prop :=
  tag.forkNum ≠ invalidForkNumber ∧ tag.blockNum ≠ invalidBlockNumber ∧ tag.relNode ≠ invalidOid

instance (tag : PhyTag) : Decidable tag.Valid := inferInstanceAs (Decidable (_ ∧ _ ∧ _))

structure PageVersion where
  tag : PhyTag
  lsn : Nat
  body : Nat
deriving DecidableEq

/-- What a sector of a data file was written from: a version of its page, or the
zeros the block was extended with. -/
inductive BlockImage where
  | zero (tag : PhyTag)
  | page (v : PageVersion)
deriving DecidableEq

def BlockImage.tag : BlockImage → PhyTag
  | .zero tag => tag
  | .page v => v.tag

/-- A block of zeros is older than every version of the page. -/
def BlockImage.age : BlockImage → Nat
  | .zero _ => 0
  | .page v => v.lsn + 1

/-- The data files; a block that is not `present` is behind the end of its file. -/
structure DataFiles where
  present : PhyTag → Bool
  page : PhyTag → Sectors 15 BlockImage

/-- `dw_first_flush_item` -/
structure FirstFlushItem where
  dwn : Nat
  bufTag : PhyTag
deriving DecidableEq

/-- `dw_single_flush_item`. An item lies within one sector, so it is never torn
and its CRC always fits. -/
structure FlushItem where
  dataPageIdx : Nat
  dwn : Nat
  bufTag : PhyTag
deriving DecidableEq

/-- What the pages of the file hold before they are first written. -/
def FlushItem.zero : FlushItem := ⟨0, 0, ⟨0, 0, 0, 0, 0, 0⟩⟩

/-- What a slot was written from; the item is the one in the free space of the
page, in the first part only. -/
inductive SlotPage where
  | zero
  | saved (v : PageVersion) (item : Option FirstFlushItem)
deriving DecidableEq

abbrev Slot := Sectors 15 SlotPage

inductive Part where
  | first
  | second
deriving DecidableEq

/-- `BLCKSZ / sizeof(dw_single_flush_item)` -/
def singleBlockTagNum : Nat := 256

def dwSecondBuftagPageNum : Nat := 4

def dwSecondDataPageNum : Nat := singleBlockTagNum * dwSecondBuftagPageNum

def dwFirstDataPageNum : Nat := 32768 - dwSecondDataPageNum - dwSecondBuftagPageNum - 2

def Part.pageNum : Part → Nat
  | .first => dwFirstDataPageNum
  | .second => dwSecondDataPageNum

structure Disk where
  heads : Part → Sectors 2 FileHead
  slots : Part → Nat → Slot
  items : Nat → FlushItem
  data : DataFiles

/-! ## Putting a page back -/

/-- `dw_verify_pg_checksum` of a page in a data file: a new page fails it, and
the checksum mixes in the block number. -/
def dwVerifyDataPage (page : Sectors 15 BlockImage) (blockNum : Nat) : Option PageVersion :=
  match page.image? with
  | some (.page v) => if v.tag.blockNum = blockNum then some v else none
  | _ => none

def DataFiles.smgrwrite (d : DataFiles) (tag : PhyTag) (v : PageVersion) : DataFiles :=
  { d with page := Function.update d.page tag (Sectors.whole (.page v)) }

/-- A good page `v` of the file is put back at `tag` if the block is there and
its page broken or older. -/
def DataFiles.putBack (d : DataFiles) (tag : PhyTag) (v : PageVersion) : DataFiles :=
  -- `dw_read_data_page`
  if d.present tag then
    match dwVerifyDataPage (d.page tag) tag.blockNum with
    | some cur => if cur.lsn < v.lsn then d.smgrwrite tag v else d
    | none => d.smgrwrite tag v
  else d

/-! ## The first part -/

/-- `PageIsNew`: `pd_upper` is in the first sector. -/
def pageIsNew (slot : Slot) : Bool := slot.first = .zero

/-- The item in a slot of the first part and its page, if `dw_verify_pg_checksum`
accepts it. -/
def dwVerifyFirstSlot (slot : Slot) : Option (FirstFlushItem × PageVersion) :=
  match slot.image? with
  | some (.saved v (some item)) =>
    if v.tag.blockNum = item.bufTag.blockNum then some (item, v) else none
  | _ => none

/-- The loop of `dw_recovery_first_version_page`, with `count` slots left from
`i` on. A slot that is broken is skipped, one that is new ends the loop. -/
def recoverSlots (slots : Nat → Slot) : Nat → Nat → DataFiles → DataFiles
  | 0, _, d => d
  | count + 1, i, d =>
    match dwVerifyFirstSlot (slots i) with
    | some (item, v) => recoverSlots slots count (i + 1) (d.putBack item.bufTag v)
    | none => if pageIsNew (slots i) then d else recoverSlots slots count (i + 1) d

def dwRecoveryFirstVersionPage (slots : Nat → Slot) (head : FileHead) (d : DataFiles) : DataFiles :=
  recoverSlots slots (dwFirstDataPageNum - head.start) head.start d

/-! ## The second part -/

/-- `dw_verify_item` -/
def dwVerifyItem (item : FlushItem) (dwn : Nat) : Bool :=
  decide (item.dwn = dwn ∧ item.bufTag.Valid)

/-- `dw_verify_pg_checksum` of a slot of the second part. -/
def dwVerifySecondSlot (slot : Slot) (blockNum : Nat) : Option PageVersion :=
  match slot.image? with
  | some (.saved v _) => if v.tag.blockNum = blockNum then some v else none
  | _ => none

/-- `buftag_compare`; it does not look at the database. -/
def buftagCompare (a b : FlushItem) : Ordering :=
  (compare a.bufTag.spcNode b.bufTag.spcNode).then <|
    (compare a.bufTag.relNode b.bufTag.relNode).then <|
      (compare a.bufTag.bucketNode b.bufTag.bucketNode).then <|
        (compare a.bufTag.forkNum b.bufTag.forkNum).then <|
          (compare a.bufTag.blockNum b.bufTag.blockNum).then <|
            if a.dataPageIdx < b.dataPageIdx then .lt else .gt

/-- The valid items in the order `qsort` leaves them. -/
def sortedItems (items : Nat → FlushItem) (head : FileHead) : List FlushItem :=
  let valid := ((List.range' head.start (dwSecondDataPageNum - head.start)).map items).filter
    fun item => dwVerifyItem item head.dwn
  valid.insertionSort fun a b => buftagCompare a b = .lt

/-- `dw_recovery_single_page` -/
def dwRecoverySinglePage (slots : Nat → Slot) : List FlushItem → DataFiles → DataFiles
  | [], d => d
  | item :: items, d =>
    match dwVerifySecondSlot (slots item.dataPageIdx) item.bufTag.blockNum with
    | some v => dwRecoverySinglePage slots items (d.putBack item.bufTag v)
    | none => dwRecoverySinglePage slots items d

def dwRecoverySecondVersionPage (slots : Nat → Slot) (items : Nat → FlushItem)
    (head : FileHead) (d : DataFiles) : DataFiles :=
  dwRecoverySinglePage slots (sortedItems items head) d

/-! ## Recovery -/

/-- `dw_recover_file_head`: each copy of a head fills a sector and is never torn,
so the first one is good. -/
def dwRecoverFileHead (heads : Sectors 2 FileHead) : FileHead := heads.first

/-- The head `dw_force_reset_single_file` and a full recycle write. -/
def nextHead (head : FileHead) : FileHead := ⟨0, u16 (head.dwn + 1)⟩

/-- `dw_recovery_partial_write_single` with both parts in use. -/
def dwRecoveryPartialWriteSingle (disk : Disk) : Disk :=
  let head := fun part => dwRecoverFileHead (disk.heads part)
  let d := dwRecoveryFirstVersionPage (disk.slots .first) (head .first) disk.data
  let d := dwRecoverySecondVersionPage (disk.slots .second) disk.items (head .second) d
  -- `dw_force_reset_single_file`
  { disk with
    heads := fun part => Sectors.whole (nextHead (head part))
    data := d }

end OpenGauss.SingleWrite
