import OpenGauss.DoubleWrite.Batch

/-!
# Page writers, truncation and crashes

Any number of page writer threads share one batch file. A thread copies dirty
pages out of their buffers, writes them to the file as a batch under
`flush_lock`, starting the file over first when it is full, and then writes the
data pages from their buffers. The checkpointer moves the start of the file
past batches whose data pages are synced; it gives up the lock while it syncs.

A crash can come after any step. Writes to the file are durable when they
return, and the write a lock holder is busy with may be torn; data pages hold
for every sector what was last synced or any write since. After the crash
`dw_recover_partial_write_batch` runs and the threads start over.
-/

namespace OpenGauss.DoubleWrite

open Lib

/-- What a page writer is doing, with the pages in its `thrd_dw_cxt`. From
`recycling` to `writing` it holds `flush_lock`. -/
inductive Pgwr where
  | idle
  | copying (isNew : Bool) (pages : List PageImage)
  /-- waiting for the other threads' data pages, then for the sync -/
  | recycling (isNew : Bool) (pages : List PageImage)
  /-- writing the file head of a full recycle -/
  | heading (isNew : Bool) (pages : List PageImage)
  | writing (isNew : Bool) (pages : List PageImage)
  | flushing (dwPageIdx : Nat) (pending : List BufferTag)

/-- `dw_page_idx`; `none` is -1. -/
def Pgwr.dwPageIdx : Pgwr → Option Nat
  | .flushing idx _ => some idx
  | _ => none

def Pgwr.pages : Pgwr → List PageImage
  | .copying _ pages | .recycling _ pages | .heading _ pages | .writing _ pages => pages
  | .idle | .flushing _ _ => []

/-- The pages the thread has copied and not yet written to their data files. -/
def Pgwr.outstanding : Pgwr → List BufferTag
  | .flushing _ pending => pending
  | p => p.pages.map PageImage.tag

inductive Holder (n : Nat) where
  | pgwr (t : Fin n)
  | ckpt
deriving DecidableEq

/-- What a truncation remembers while the lock is released. -/
structure TruncInfo where
  orgStart : Nat
  orgDwn : Nat
  minIdx : Nat
  lastFlushPage : Nat

inductive Trunc where
  | none
  /-- syncing the files of `todo` -/
  | syncing (info : TruncInfo) (todo : List BufferTag)
  | heading

structure St (n : Nat) where
  heads : Fin 3 → FileHead
  file : Nat → DwPage
  synced : DataFiles
  /-- data page writes not synced, the last one first -/
  unsynced : List PageImage
  /-- the shared buffers -/
  buf : BufferTag → PageImage
  cxt : FileCxt
  flushLock : Option (Holder n)
  pgwr : Fin n → Pgwr
  trunc : Trunc

variable {n : Nat} (size : DwFileSize) (s : St n)

def St.setPgwr (t : Fin n) (p : Pgwr) : St n := { s with pgwr := Function.update s.pgwr t p }

def St.sync (which : BufferTag → Bool) : St n :=
  { s with
    synced := fun p =>
      match s.unsynced.find? (fun w => w.tag = p) with
      | some w => if which p then Sectors.whole w else s.synced p
      | none => s.synced p
    unsynced := s.unsynced.filter fun w => !which w.tag }

/-! ## Page writers -/

def St.modify (img : PageImage) : Option (St n) :=
  if (s.buf img.tag).lsn ≤ img.lsn then some { s with buf := Function.update s.buf img.tag img }
  else none

/-- `dw_perform_batch_flush` starts on the pages it was given. -/
def St.beginBatch (t : Fin n) (isNew : Bool) : Option (St n) :=
  match s.pgwr t with
  | .idle => some (s.setPgwr t (.copying isNew []))
  | _ => none

/-- `dw_copy_page` -/
def St.dwCopyPage (t : Fin n) (p : BufferTag) : Option (St n) :=
  match s.pgwr t with
  | .copying isNew pages =>
    if pages.length < dwDirtyPageMax isNew then
      some (s.setPgwr t (.copying isNew (pages ++ [s.buf p])))
    else none
  | _ => none

/-- `dw_batch_flush` takes `flush_lock`; a full recycle begins if there is no room. -/
def St.lockFlush (t : Fin n) : Option (St n) :=
  match s.pgwr t, s.flushLock with
  | .copying isNew pages, none =>
    if pages = [] then none
    else
      let s := { s with flushLock := some (.pgwr t) }
      if fileFull size s.cxt (dwBatchAddExtra pages.length isNew) then
        some ({ s with cxt := s.cxt.resetStart }.setPgwr t (.recycling isNew pages))
      else some (s.setPgwr t (.writing isNew pages))
  | _, _ => none

/-- `wait_dw_page_finish_flush` and the sync of a full recycle. -/
def St.recycleSync (t : Fin n) : Option (St n) :=
  match s.pgwr t with
  | .recycling isNew pages =>
    if ∀ u, (s.pgwr u).dwPageIdx = none then
      some ((s.sync fun _ => true).setPgwr t (.heading isNew pages))
    else none
  | _ => none

def St.recycleHead (t : Fin n) : Option (St n) :=
  match s.pgwr t with
  | .heading isNew pages =>
    some ({ s with
      heads := fun _ => s.cxt.nextDwn
      cxt := ⟨s.cxt.nextDwn, s.cxt.flushPage⟩ }.setPgwr t (.writing isNew pages))
  | _ => none

def St.offsetPage : Nat := u16 (s.cxt.head.start + s.cxt.flushPage)

/-- The batch is written and `flush_lock` released. -/
def St.pwriteBatch (t : Fin n) : Option (St n) :=
  match s.pgwr t with
  | .writing isNew pages =>
    some ({ s with
      file := Sectors.write s.file s.offsetPage
        (dwAssembleBatch isNew s.offsetPage s.cxt.head.dwn pages)
      cxt := ⟨s.cxt.head, u16 (s.cxt.flushPage + (dwBatchAddExtra pages.length isNew - 1))⟩
      flushLock := none }.setPgwr t (.flushing s.offsetPage (pages.map PageImage.tag)))
  | _ => none

/-- `incre_ckpt_pgwr_flush_dirty_page` writes the next page from its buffer, or
skips it when it is no longer dirty. -/
def St.flushDirtyPage (t : Fin n) (dirty : Bool) : Option (St n) :=
  match s.pgwr t with
  | .flushing idx (p :: pending) =>
    some ({ s with
      unsynced := if dirty then s.buf p :: s.unsynced else s.unsynced }.setPgwr t
        (.flushing idx pending))
  | _ => none

/-- All data pages of the batch are written: `dw_page_idx` goes back to -1. -/
def St.clearDwPageIdx (t : Fin n) : Option (St n) :=
  match s.pgwr t with
  | .flushing _ [] => some (s.setPgwr t .idle)
  | _ => none

/-! ## Truncation by the checkpointer -/

/-- Under the lock: remember the position; then release it to sync. -/
def St.truncBegin : Option (St n) :=
  match s.trunc, s.flushLock with
  | .none, none =>
    some { s with
      trunc := .syncing
        ⟨s.cxt.head.start, s.cxt.head.dwn,
          getDwPageMinIdx ((List.finRange n).map fun t => (s.pgwr t).dwPageIdx),
          s.cxt.flushPage⟩
        (s.unsynced.map PageImage.tag) }
  | _, _ => none

def St.truncSync : Option (St n) :=
  match s.trunc with
  | .syncing info (p :: todo) => some { s.sync (fun q => q = p) with trunc := .syncing info todo }
  | _ => none

/-- After the sync: nothing happens if the lock is taken or the file was started
over or truncated meanwhile; else the start moves. -/
def St.truncEnd : Option (St n) :=
  match s.trunc with
  | .syncing info [] =>
    match s.flushLock with
    | some _ => some { s with trunc := .none }
    | none =>
      if info.orgStart ≠ s.cxt.head.start ∨ info.orgDwn ≠ s.cxt.head.dwn then
        some { s with trunc := .none }
      else
        some { s with
          cxt := s.cxt.truncate info.minIdx info.lastFlushPage
          flushLock := some .ckpt
          trunc := .heading }
  | _ => none

def St.truncHead : Option (St n) :=
  match s.trunc with
  | .heading => some { s with heads := fun _ => s.cxt.head, flushLock := none, trunc := .none }
  | _ => none

/-! ## Crashes -/

/-- How a crash tears what is being written: which sectors of a batch and which
copies of a file head got written, and for every sector of a data page which of
the writes since the last sync it shows, none if there are not so many. -/
structure Crash where
  file : Nat → Fin 16 → Bool
  head : Fin 3 → Bool
  data : BufferTag → Fin 16 → Nat

def St.headWrite : Option FileHead :=
  match s.flushLock with
  | some (.pgwr t) =>
    match s.pgwr t with
    | .heading _ _ => some s.cxt.nextDwn
    | _ => none
  | some .ckpt => some s.cxt.head
  | none => none

def St.batchWrite : List FilePage :=
  match s.flushLock with
  | some (.pgwr t) =>
    match s.pgwr t with
    | .writing isNew pages => dwAssembleBatch isNew s.offsetPage s.cxt.head.dwn pages
    | _ => []
  | _ => []

def St.crashDisk (c : Crash) : Disk where
  heads := fun i => if c.head i then s.headWrite.getD (s.heads i) else s.heads i
  file := Sectors.writeTorn s.file s.offsetPage s.batchWrite c.file
  data := fun p j => ((s.unsynced.filter fun w => w.tag = p)[c.data p j]?).getD (s.synced p j)

/-- The state after a restart: what is on disk is all there is. -/
def St.restart (n : Nat) (r : Recovered) : St n where
  heads := r.disk.heads
  file := r.disk.file
  synced := r.disk.data
  unsynced := []
  buf := fun p => (r.disk.data p).first
  cxt := r.cxt
  flushLock := none
  pgwr := fun _ => .idle
  trunc := .none

/-! ## Runs -/

inductive Event (n : Nat) where
  | modify (img : PageImage)
  | beginBatch (t : Fin n) (isNew : Bool)
  | copy (t : Fin n) (p : BufferTag)
  | lock (t : Fin n)
  | recycleSync (t : Fin n)
  | recycleHead (t : Fin n)
  | pwrite (t : Fin n)
  | flush (t : Fin n) (dirty : Bool)
  | clear (t : Fin n)
  | truncBegin
  | truncSync
  | truncEnd
  | truncHead
  | crash (c : Crash)

def St.step : Event n → Option (St n)
  | .modify img => s.modify img
  | .beginBatch t isNew => s.beginBatch t isNew
  | .copy t p => s.dwCopyPage t p
  | .lock t => s.lockFlush size t
  | .recycleSync t => s.recycleSync t
  | .recycleHead t => s.recycleHead t
  | .pwrite t => s.pwriteBatch t
  | .flush t dirty => s.flushDirtyPage t dirty
  | .clear t => s.clearDwPageIdx t
  | .truncBegin => s.truncBegin
  | .truncSync => s.truncSync
  | .truncEnd => s.truncEnd
  | .truncHead => s.truncHead
  | .crash c => some (.restart n (dwRecoverPartialWriteBatch size (s.crashDisk c)))

/-- `dw_generate_batch_file`, with the data pages as `pages` says. -/
def St.created (n : Nat) (pages : BufferTag → PageImage) : St n where
  heads := fun _ => ⟨dwBatchFileStart, 0⟩
  file := fun i =>
    Sectors.whole (if i = dwBatchFileStart then dwPreparePage [] dwBatchFileStart 0 else .zero)
  synced := fun p => Sectors.whole (pages p)
  unsynced := []
  buf := pages
  cxt := ⟨⟨dwBatchFileStart, 0⟩, 0⟩
  flushLock := none
  pgwr := fun _ => .idle
  trunc := .none

/-- The states reached from a new file by steps that satisfy `allowed`. -/
inductive Reach (allowed : St n → Event n → Prop) : St n → Prop where
  | created (pages : BufferTag → PageImage) (own : ∀ p, (pages p).tag = p) :
      Reach allowed (.created n pages)
  | step {s s' : St n} (e : Event n) (h : Reach allowed s) (ok : allowed s e)
      (hstep : s.step size e = some s') : Reach allowed s'

/-- The crash tears a batch in order: its sectors reached the file in ascending
order and its first page, which is also the tail of the batch before it, is all
old or all new. -/
def Crash.InOrder (c : Crash) : Prop :=
  ∃ m, (m = 0 ∨ 16 ≤ m) ∧ c.file = Sectors.firstSectors m

/-- No head or tail page in the file and no waiting truncation carries `dwn`. -/
structure St.DwnUnused (file : Nat → DwPage) (trunc : Trunc) (dwn : Nat) : Prop where
  file : ∀ i, carriesDwn (file i) dwn = false
  trunc : ∀ info todo, trunc = .syncing info todo → info.orgDwn ≠ dwn

/-- The steps recovery can cope with: a page is in the hands of one thread at a
time, a crash tears in order, and the next number is not in use when the file is
started over, by a full recycle or after a crash for want of room. -/
def St.Disciplined : Event n → Prop
  | .copy _ p => ∀ t, p ∉ (s.pgwr t).outstanding
  | .recycleSync _ => St.DwnUnused s.file s.trunc s.cxt.nextDwn.dwn
  | .crash c =>
    c.InOrder ∧ (fileFull size ((s.crashDisk c).cxtBehind size) dwBufMax →
      St.DwnUnused (s.crashDisk c).file .none ((s.crashDisk c).cxtBehind size).nextDwn.dwn)
  | _ => True

end OpenGauss.DoubleWrite
