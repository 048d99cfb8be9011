import OpenGauss.SingleWrite.File

/-!
# Backends, truncation and crashes

Any number of backends flush single pages. A backend copies the page, takes a
slot of one part of the file by moving its write position, writes the copy there
(and in the second part then the tag), writes the data page from its buffer and
marks the slot flushed. A backend that finds no slot left starts the part over
under its `flush_lock`, once all slots are flushed and the data pages synced.
The checkpointer moves the start of a part behind slots whose data pages it has
synced; it gives up the lock while it syncs.

A crash can come after any step. Writes to the file are durable when they
return, and those under way may be torn; data pages hold for every sector what
was last synced or any write since.
-/

namespace OpenGauss.SingleWrite

open Lib
open DoubleWrite (FileHead)
open Function (update)
open Sectors (whole)

/-- What a backend is doing, with the page in its `dw_buf`. From `waiting` to
`heading` it holds the `flush_lock` of the part. -/
inductive Backend where
  | idle
  /-- in `atomic_get_dw_write_pos` -/
  | copied (part : Part) (v : PageVersion)
  /-- in `wait_all_single_dw_finish_flush` -/
  | waiting (part : Part) (v : PageVersion)
  /-- syncing the files of `todo` for a full recycle -/
  | syncing (part : Part) (v : PageVersion) (todo : List PhyTag)
  /-- writing the file head of a full recycle -/
  | heading (part : Part) (v : PageVersion)
  | slotted (part : Part) (v : PageVersion) (pos : Nat)
  /-- the slot of the second part is written, its tag is not -/
  | paged (v : PageVersion) (pos : Nat)
  /-- writing the tag under `second_buftag_lock` -/
  | tagging (v : PageVersion) (pos : Nat)
  | saved (part : Part) (v : PageVersion) (pos : Nat)
  | flushed (part : Part) (pos : Nat)

/-- The page the backend has copied and not yet written to its data file. -/
def Backend.copy? : Backend → Option PageVersion
  | .copied _ v | .waiting _ v | .syncing _ v _ | .heading _ v | .slotted _ v _ | .paged v _
  | .tagging v _ | .saved _ v _ => some v
  | .idle | .flushed _ _ => none

/-- The slot the backend has taken and not yet marked flushed. -/
def Backend.slot? : Backend → Option (Part × Nat)
  | .slotted part _ pos | .saved part _ pos | .flushed part pos => some (part, pos)
  | .paged _ pos | .tagging _ pos => some (.second, pos)
  | .idle | .copied _ _ | .waiting _ _ | .syncing _ _ _ | .heading _ _ => none

inductive Holder (n : Nat) where
  | backend (t : Fin n)
  | ckpt
deriving DecidableEq

/-- What a truncation remembers while the lock is released. -/
structure TruncInfo where
  orgStart : Nat
  orgDwn : Nat
  maxIdx : Nat

inductive Trunc where
  | none
  /-- syncing the files of `todo` -/
  | syncing (info : TruncInfo) (todo : List PhyTag)
  | heading

/-- A write of a data page and the slot its copy went to. -/
structure DataWrite extends PageVersion where
  part : Part
  pos : Nat
deriving DecidableEq

structure St (n : Nat) where
  heads : Part → Sectors 2 FileHead
  slots : Part → Nat → Slot
  /-- the tags of the second part -/
  items : Nat → FlushItem
  head : Part → FileHead
  writePos : Part → Nat
  flushState : Part → Nat → Bool
  flushLock : Part → Option (Holder n)
  buftagLock : Option (Fin n)
  trunc : Part → Trunc
  present : PhyTag → Bool
  synced : PhyTag → Sectors 15 BlockImage
  unsynced : List DataWrite
  buf : PhyTag → Option PageVersion
  /-- the end of the log -/
  insertPos : Nat
  backend : Fin n → Backend

variable {n : Nat} (s : St n)

variable (t : Fin n)

def St.setBackend (b : Backend) : St n :=
  { s with backend := update s.backend t b }

variable (part : Part)

def St.setTrunc (t : Trunc) : St n :=
  { s with trunc := update s.trunc part t }

/-- The synced pages after the last write to `p` is synced too. -/
def syncPage (synced : PhyTag → Sectors 15 BlockImage) (unsynced : List DataWrite)
    (p : PhyTag) : PhyTag → Sectors 15 BlockImage :=
  match unsynced.find? (fun w => w.tag = p) with
  | some w => update synced p (whole (.page w.toPageVersion))
  | none => synced

def St.sync (p : PhyTag) : St n :=
  { s with
    synced := syncPage s.synced s.unsynced p
    unsynced := s.unsynced.filter fun w => w.tag ≠ p }

/-- No backend is busy with the page. -/
def St.Free (p : PhyTag) : Prop := ∀ t, ∀ v ∈ (s.backend t).copy?, v.tag ≠ p

instance (p : PhyTag) : Decidable (s.Free p) :=
  inferInstanceAs (Decidable (∀ t, ∀ v ∈ (s.backend t).copy?, v.tag ≠ p))

/-! ## Pages -/

/-- A page is changed in its buffer: under a new log position, or only its hints. -/
def St.modify (v : PageVersion) : Option (St n) :=
  if s.present v.tag ∧ (s.insertPos < v.lsn ∨ (s.buf v.tag).map PageVersion.lsn = some v.lsn) then
    some { s with buf := update s.buf v.tag (some v), insertPos := max s.insertPos v.lsn }
  else none

def St.truncateBlock (p : PhyTag) : Option (St n) :=
  if s.Free p then
    some { s with
      present := update s.present p false
      synced := update s.synced p (whole (.zero p))
      unsynced := s.unsynced.filter fun w => w.tag ≠ p
      buf := update s.buf p none }
  else none

def St.extendBlock (p : PhyTag) : Option (St n) :=
  if s.present p then none
  else
    some { s with
      present := update s.present p true
      synced := update s.synced p (whole (.zero p)) }

/-! ## Flushing a page -/

/-- A backend copies a page that no other backend is busy with. -/
def St.copyPage (p : PhyTag) : Option (St n) :=
  match s.backend t, s.buf p with
  | .idle, some v =>
    if p.Valid ∧ s.Free p then some (s.setBackend t (.copied part v)) else none
  | _, _ => none

/-- `atomic_get_dw_write_pos`: the compare-and-swap that takes a slot. -/
def St.takeSlot : Option (St n) :=
  match s.backend t with
  | .copied part v =>
    if s.writePos part + 1 < part.pageNum then
      some ({ s with
        writePos := update s.writePos part (s.writePos part + 1) }.setBackend t
          (.slotted part v (s.writePos part)))
    else none
  | _ => none

/-- The page in a slot: the first part has the tag in its free space. -/
def savedPage (dwn : Nat) (v : PageVersion) : SlotPage :=
  match part with
  | .first => .saved v (some ⟨dwn, v.tag⟩)
  | .second => .saved v none

/-- What is left to do after the slot is written: the second part has a tag. -/
def Backend.slotWritten (v : PageVersion) (pos : Nat) : Backend :=
  match part with
  | .first => .saved .first v pos
  | .second => .paged v pos

def writeSlot (slots : Part → Nat → Slot) (part : Part) (pos : Nat) (page : SlotPage) :
    Part → Nat → Slot :=
  update slots part (update (slots part) pos (whole page))

def St.pwriteSlot : Option (St n) :=
  match s.backend t with
  | .slotted part v pos =>
    some ({ s with
      slots := writeSlot s.slots part pos (savedPage part (s.head part).dwn v) }.setBackend t
        (.slotWritten part v pos))
  | _ => none

def St.lockBuftag : Option (St n) :=
  match s.backend t, s.buftagLock with
  | .paged v pos, none => some ({ s with buftagLock := some t }.setBackend t (.tagging v pos))
  | _, _ => none

def St.flushItem (v : PageVersion) (pos : Nat) : FlushItem := ⟨pos, (s.head .second).dwn, v.tag⟩

/-- The tag page is written with the new item; the other items are as they were
read under the lock. -/
def St.pwriteTag : Option (St n) :=
  match s.backend t with
  | .tagging v pos =>
    some ({ s with
      items := update s.items pos (s.flushItem v pos)
      buftagLock := none }.setBackend t (.saved .second v pos))
  | _ => none

/-- `FlushBuffer` writes the data page. -/
def St.flushBuffer : Option (St n) :=
  match s.backend t with
  | .saved part v pos =>
    match s.buf v.tag with
    | some w =>
      some ({ s with unsynced := ⟨w, part, pos⟩ :: s.unsynced }.setBackend t (.flushed part pos))
    | none => none
  | _ => none

/-- `single_flush_state[pos] = true` -/
def St.setFlushState : Option (St n) :=
  match s.backend t with
  | .flushed part pos =>
    some ({ s with
      flushState := update s.flushState part
        (update (s.flushState part) pos true) }.setBackend t .idle)
  | _ => none

/-! ## Starting a part over -/

/-- A backend that finds no slot left takes `flush_lock` for
`dw_single_file_recycle`. -/
def St.lockRecycle : Option (St n) :=
  match s.backend t with
  | .copied part v =>
    if part.pageNum ≤ s.writePos part + 1 ∧ s.flushLock part = none then
      some ({ s with flushLock := update s.flushLock part (some (.backend t)) }.setBackend t
        (.waiting part v))
    else none
  | _ => none

/-- `wait_all_single_dw_finish_flush`; then `PageWriterSync` begins. -/
def St.waitAllFlush : Option (St n) :=
  match s.backend t with
  | .waiting part v =>
    if ∀ i < s.writePos part, (s.head part).start ≤ i → s.flushState part i = true then
      some (s.setBackend t (.syncing part v (s.unsynced.map fun w => w.tag)))
    else none
  | _ => none

def St.recycleSync : Option (St n) :=
  match s.backend t with
  | .syncing part v (p :: todo) => some ((s.sync p).setBackend t (.syncing part v todo))
  | _ => none

/-- All is synced: the flush states are cleared and the file head prepared. -/
def St.recycleReset : Option (St n) :=
  match s.backend t with
  | .syncing part v [] =>
    some ({ s with
      flushState := update s.flushState part fun _ => false
      head := update s.head part (nextHead (s.head part)) }.setBackend t (.heading part v))
  | _ => none

/-- The file head is written; the write position goes back last. -/
def St.recycleHead : Option (St n) :=
  match s.backend t with
  | .heading part v =>
    some ({ s with
      heads := update s.heads part (whole (s.head part))
      writePos := update s.writePos part 0
      flushLock := update s.flushLock part none }.setBackend t (.copied part v))
  | _ => none

/-! ## Truncation by the checkpointer -/

/-- The loop of `get_max_single_write_pos` over `count` slots from `i` on. -/
def scanFlushed (flushState : Nat → Bool) : Nat → Nat → Nat
  | 0, i => i
  | count + 1, i => if flushState i then scanFlushed flushState count (i + 1) else i

def St.getMaxSingleWritePos : Nat :=
  scanFlushed (s.flushState part) (s.writePos part - (s.head part).start) (s.head part).start

/-- `dw_single_file_truncate`: under the lock remember how far the slots are
flushed, then release it to sync. -/
def St.truncBegin : Option (St n) :=
  match s.trunc part, s.flushLock part with
  | .none, none =>
    if s.getMaxSingleWritePos part = (s.head part).start then none
    else
      some (s.setTrunc part (.syncing
        ⟨(s.head part).start, (s.head part).dwn, s.getMaxSingleWritePos part⟩
        (s.unsynced.map fun w => w.tag)))
  | _, _ => none

def St.truncSync : Option (St n) :=
  match s.trunc part with
  | .syncing info (p :: todo) => some ((s.sync p).setTrunc part (.syncing info todo))
  | _ => none

/-- After the sync: nothing happens if the lock is taken or the part was started
over meanwhile; else the start moves. -/
def St.truncEnd : Option (St n) :=
  match s.trunc part with
  | .syncing info [] =>
    if s.flushLock part ≠ none ∨ info.orgStart ≠ (s.head part).start ∨
        info.orgDwn ≠ (s.head part).dwn then
      some (s.setTrunc part .none)
    else
      some ({ s with
        head := update s.head part ⟨info.maxIdx, (s.head part).dwn⟩
        flushLock := update s.flushLock part (some .ckpt) }.setTrunc part .heading)
  | _ => none

def St.truncHead : Option (St n) :=
  match s.trunc part with
  | .heading =>
    some ({ s with
      heads := update s.heads part (whole (s.head part))
      flushLock := update s.flushLock part none }.setTrunc part .none)
  | _ => none

/-! ## Crashes -/

/-- How a crash tears what is being written: which sectors of slots and of the
tag page and which copies of a file head got written, and for every sector of a
data page which of the writes since the last sync it shows, none if there are
not so many. -/
structure Crash where
  slot : Part → Nat → Fin 16 → Bool
  tag : Nat → Bool
  head : Part → Fin 3 → Bool
  data : PhyTag → Fin 16 → Nat

/-- What a backend is writing to the slot `pos` of `part`, if anything. -/
def Backend.slotWrite (dwn : Nat) (part : Part) (pos : Nat) : Backend → Option SlotPage
  | .slotted part' v pos' =>
    if part' = part ∧ pos' = pos then some (savedPage part dwn v) else none
  | _ => none

/-- What is being written to a slot. -/
def St.slotWrite (pos : Nat) : Option SlotPage :=
  (List.finRange n).findSome? fun t =>
    (s.backend t).slotWrite (s.head part).dwn part pos

def St.tagWrite : Option (Nat × FlushItem) :=
  match s.buftagLock with
  | some t =>
    match s.backend t with
    | .tagging v pos => some (pos, s.flushItem v pos)
    | _ => none
  | none => none

def St.headWrite : Option FileHead :=
  match s.flushLock part with
  | some (.backend t) =>
    match s.backend t with
    | .heading _ _ => some (s.head part)
    | _ => none
  | some .ckpt => some (s.head part)
  | none => none

/-- The items after the write of a tag page was interrupted: 16 items make a
sector. -/
def tornItems (items : Nat → FlushItem) (done : Nat → Bool) : Option (Nat × FlushItem) →
    Nat → FlushItem
  | none, i => items i
  | some (pos, item), i =>
    if i / singleBlockTagNum = pos / singleBlockTagNum ∧ done (i % singleBlockTagNum / 16) = true
    then update items pos item i
    else items i

def St.crashDisk (c : Crash) : Disk where
  heads := fun part j =>
    if c.head part j then (s.headWrite part).getD (s.heads part j) else s.heads part j
  slots := fun part i j =>
    if c.slot part i j then (s.slotWrite part i).getD (s.slots part i j) else s.slots part i j
  items := tornItems s.items c.tag s.tagWrite
  data := {
    present := s.present
    page := fun p j =>
      (((s.unsynced.filter fun w => w.tag = p)[c.data p j]?).map fun w => .page w.toPageVersion).getD
        (s.synced p j) }

/-- The state after a restart: what is on disk is all there is. -/
def St.restart (n : Nat) (disk : Disk) (insertPos : Nat) : St n where
  heads := disk.heads
  slots := disk.slots
  items := disk.items
  head := fun part => dwRecoverFileHead (disk.heads part)
  writePos := fun _ => 0
  flushState := fun _ _ => false
  flushLock := fun _ => none
  buftagLock := none
  trunc := fun _ => .none
  present := disk.data.present
  synced := disk.data.page
  unsynced := []
  buf := fun _ => none
  insertPos := insertPos
  backend := fun _ => .idle

/-! ## Runs -/

inductive Event (n : Nat) where
  | modify (v : PageVersion)
  | truncateBlock (p : PhyTag)
  | extendBlock (p : PhyTag)
  | fsync (p : PhyTag)
  | copyPage (t : Fin n) (part : Part) (p : PhyTag)
  | takeSlot (t : Fin n)
  | pwriteSlot (t : Fin n)
  | lockBuftag (t : Fin n)
  | pwriteTag (t : Fin n)
  | flushBuffer (t : Fin n)
  | setFlushState (t : Fin n)
  | lockRecycle (t : Fin n)
  | waitAllFlush (t : Fin n)
  | recycleSync (t : Fin n)
  | recycleReset (t : Fin n)
  | recycleHead (t : Fin n)
  | truncBegin (part : Part)
  | truncSync (part : Part)
  | truncEnd (part : Part)
  | truncHead (part : Part)
  | crash (c : Crash)

def St.step : Event n → Option (St n)
  | .modify v => s.modify v
  | .truncateBlock p => s.truncateBlock p
  | .extendBlock p => s.extendBlock p
  | .fsync p => some (s.sync p)
  | .copyPage t part p => s.copyPage t part p
  | .takeSlot t => s.takeSlot t
  | .pwriteSlot t => s.pwriteSlot t
  | .lockBuftag t => s.lockBuftag t
  | .pwriteTag t => s.pwriteTag t
  | .flushBuffer t => s.flushBuffer t
  | .setFlushState t => s.setFlushState t
  | .lockRecycle t => s.lockRecycle t
  | .waitAllFlush t => s.waitAllFlush t
  | .recycleSync t => s.recycleSync t
  | .recycleReset t => s.recycleReset t
  | .recycleHead t => s.recycleHead t
  | .truncBegin part => s.truncBegin part
  | .truncSync part => s.truncSync part
  | .truncEnd part => s.truncEnd part
  | .truncHead part => s.truncHead part
  | .crash c => some (.restart n (dwRecoveryPartialWriteSingle (s.crashDisk c)) s.insertPos)

/-- `dw_generate_new_single_file`, with the blocks of the data files and the end
of the log as given. -/
def St.created (n : Nat) (present : PhyTag → Bool) (pages : PhyTag → BlockImage)
    (insertPos : Nat) : St n where
  heads := fun _ => whole ⟨0, 0⟩
  slots := fun _ _ => whole .zero
  items := fun _ => .zero
  head := fun _ => ⟨0, 0⟩
  writePos := fun _ => 0
  flushState := fun _ _ => false
  flushLock := fun _ => none
  buftagLock := none
  trunc := fun _ => .none
  present := present
  synced := fun p => whole (pages p)
  unsynced := []
  buf := fun _ => none
  insertPos := insertPos
  backend := fun _ => .idle

/-- The states reached from a new file by steps that satisfy `allowed`. -/
inductive Reach (allowed : St n → Event n → Prop) : St n → Prop where
  | created (present : PhyTag → Bool) (pages : PhyTag → BlockImage) (insertPos : Nat)
      (own : ∀ p, (pages p).tag = p) (logged : ∀ p, (pages p).age ≤ insertPos + 1) :
      Reach allowed (.created n present pages insertPos)
  | step {s s' : St n} (e : Event n) (h : Reach allowed s) (ok : allowed s e)
      (hstep : s.step e = some s') : Reach allowed s'

/-- The copies a recovery may find in a slot: in the first part every complete
page, in the second those whose item has the number of the file head. -/
def Copy (slots : Part → Nat → Slot) (items : Nat → FlushItem) (dwn : Nat) :
    Part → Nat → PageVersion → Prop
  | .first, i, v => ∃ d, slots .first i = whole (savedPage .first d v)
  | .second, i, v =>
    items i = ⟨i, dwn, v.tag⟩ ∧ v.tag.Valid ∧
      slots .second i = whole (savedPage .second dwn v)

abbrev St.Copy : Part → Nat → PageVersion → Prop :=
  SingleWrite.Copy s.slots s.items (s.heads .second).first.dwn

/-- The crash leaves no new page in a slot of the first part that was taken. -/
def St.NoGap (c : Crash) : Prop :=
  ∀ i, (dwRecoverFileHead ((s.crashDisk c).heads .first)).start ≤ i → i < s.writePos .first →
    pageIsNew ((s.crashDisk c).slots .first i) = false

/-- The steps recovery can cope with: a block is not extended again while a slot
still has a copy of it, a number is not taken that a waiting truncation remembers
or an item still carries, and a crash leaves no new page among the slots taken. -/
def St.Disciplined : Event n → Prop
  | .extendBlock p => ∀ part i v, s.Copy part i v → v.tag ≠ p
  | .recycleReset t =>
    ∀ part v, s.backend t = .syncing part v [] → ∀ info todo, s.trunc part = .syncing info todo →
      info.orgDwn ≠ (nextHead (s.head part)).dwn
  | .crash c =>
    s.NoGap c ∧ ∀ i, dwVerifyItem ((s.crashDisk c).items i)
      (nextHead (dwRecoverFileHead ((s.crashDisk c).heads .second))).dwn = false
  | _ => True

end OpenGauss.SingleWrite
