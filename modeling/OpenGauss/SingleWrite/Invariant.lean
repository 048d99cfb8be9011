import OpenGauss.Lib.Update
import OpenGauss.SingleWrite.Recover

/-!
# The invariant of single page flushes

Every data page with a write that is not synced has a copy in a live slot of the
file that is not older than what was last synced, and a copy whose data page is
synced is not newer than that page. The live slots, those the recovery has to
find, are a ghost set: a slot is live from when it can be read until the part is
truncated behind it or started over.

* `Inv`: the invariant, for the live slots `live`
* `SyncInv`: what holds while the slots of a part before some position wait for
  their data pages to be synced
-/

namespace OpenGauss.SingleWrite

open Lib
open DoubleWrite (FileHead u16)

variable {n : Nat}
variable {b : Backend} {α : Type}

/-! ## What a backend holds -/

/-- The part a backend is starting over. -/
def Backend.recycles : Backend → Option Part
  | .waiting part _ | .syncing part _ _ | .heading part _ => some part
  | _ => none

/-- A slot taken that cannot be read yet. -/
def Backend.unsaved? : Backend → Option (Part × Nat)
  | .slotted part _ pos => some (part, pos)
  | .paged _ pos | .tagging _ pos => some (.second, pos)
  | _ => none

/-- A slot of the second part that is written and has no tag yet. -/
def Backend.paged? : Backend → Option (PageVersion × Nat)
  | .paged v pos | .tagging v pos => some (v, pos)
  | _ => none

/-- The copy in the slot, while the data page is not written. -/
def Backend.saved? : Backend → Option (Part × Nat × PageVersion)
  | .saved part v pos => some (part, pos, v)
  | _ => none

/-- The part whose head is written. -/
def Backend.heads? : Backend → Option Part
  | .heading part _ => some part
  | _ => none

def Backend.tags : Backend → Bool
  | .tagging _ _ => true
  | _ => false

variable {g : Backend → Option α}

theorem forall_update {f : Fin n → Backend} {t : Fin n}
    {Q : Fin n → α → Prop} (hold : ∀ u x, g (f u) = some x → Q u x)
    (hnew : ∀ x, g b = some x → Q t x) : ∀ u x, g (Function.update f t b u) = some x → Q u x :=
  update_cases hnew fun u _ => hold u

/-- Nothing changes for a property of what a backend holds if the new state holds
no more. -/
theorem forall_update_of_le {f : Fin n → Backend} {t : Fin n}
    {Q : Fin n → α → Prop} (hold : ∀ u x, g (f u) = some x → Q u x)
    (hle : ∀ x, g b = some x → g (f t) = some x) :
    ∀ u x, g (Function.update f t b u) = some x → Q u x :=
  forall_update hold fun x hx => hold t x (hle x hx)

theorem le_of_eq_some {b' : Backend} (h : g b = g b') :
    ∀ x, g b = some x → g b' = some x :=
  fun _ hx => h.symm.trans hx

theorem forall_of_none {P : α → Prop} (h : g b = none) :
    ∀ x, g b = some x → P x :=
  fun _ hx => nomatch h.symm.trans hx

theorem Backend.slot?_of_saved? {x : Part × Nat × PageVersion} (h : b.saved? = some x) :
    b.slot? = some (x.1, x.2.1) ∧ b.copy? = some x.2.2 := by
  cases b <;> cases h
  exact ⟨rfl, rfl⟩

theorem Backend.slot?_of_paged? {x : PageVersion × Nat} (h : b.paged? = some x) :
    b.slot? = some (.second, x.2) := by
  cases b <;> cases h <;> rfl

theorem Backend.slot?_of_unsaved? {x : Part × Nat} (h : b.unsaved? = some x) :
    b.slot? = some x := by
  cases b <;> cases h <;> rfl

theorem Backend.recycles_of_heads? {part : Part} (h : b.heads? = some part) :
    b.recycles = some part := by
  cases b <;> cases h
  rfl

/-! ## Versions of a page -/

/-- No version of the page is newer: the one in its buffer, or the end of the log
if it is in none. -/
def newest (buf : PhyTag → Option PageVersion) (insertPos : Nat) (p : PhyTag) : Nat :=
  ((buf p).map PageVersion.lsn).getD insertPos

def syncedAge (synced : PhyTag → Sectors 15 BlockImage) (p : PhyTag) : Nat := (synced p).first.age

structure PagesInv (present : PhyTag → Bool) (synced : PhyTag → Sectors 15 BlockImage)
    (unsynced : List DataWrite) (buf : PhyTag → Option PageVersion) (insertPos : Nat) :
    Prop where
  whole : ∀ p, synced p = Sectors.whole (synced p).first
  own : ∀ p, (synced p).first.tag = p
  unsynced_present : ∀ w ∈ unsynced, present w.tag = true
  buf_ok : ∀ p v, buf p = some v → v.tag = p ∧ present p = true ∧ v.lsn ≤ insertPos
  synced_le : ∀ p, syncedAge synced p ≤ newest buf insertPos p + 1
  unsynced_le : ∀ w ∈ unsynced, w.lsn ≤ newest buf insertPos w.tag
  synced_le_unsynced : ∀ w ∈ unsynced, syncedAge synced w.tag ≤ w.lsn + 1
  sorted : unsynced.Pairwise fun w w' => w'.tag = w.tag → w'.lsn ≤ w.lsn

/-- A copy made for a page that is still to be written. -/
structure Hand (synced : PhyTag → Sectors 15 BlockImage) (unsynced : List DataWrite)
    (buf : PhyTag → Option PageVersion) (insertPos : Nat) (v : PageVersion) : Prop where
  valid : v.tag.Valid
  buffered : buf v.tag ≠ none
  le_newest : v.lsn ≤ newest buf insertPos v.tag
  synced_le : syncedAge synced v.tag ≤ v.lsn + 1
  unsynced_le : ∀ w ∈ unsynced, w.tag = v.tag → w.lsn ≤ v.lsn

structure HandsInv (synced : PhyTag → Sectors 15 BlockImage) (unsynced : List DataWrite)
    (buf : PhyTag → Option PageVersion) (insertPos : Nat) (backend : Fin n → Backend) :
    Prop where
  hand : ∀ t v, (backend t).copy? = some v → Hand synced unsynced buf insertPos v
  owner : ∀ t v, (backend t).copy? = some v → ∀ u w, (backend u).copy? = some w →
    w.tag = v.tag → u = t

/-! ## Slots and locks -/

structure TakenInv (head : Part → FileHead) (writePos : Part → Nat)
    (flushState : Part → Nat → Bool) (backend : Fin n → Backend) : Prop where
  taken : ∀ t x, (backend t).slot? = some x →
    (head x.1).start ≤ x.2 ∧ x.2 < writePos x.1 ∧ flushState x.1 x.2 = false
  owner : ∀ t x, (backend t).slot? = some x → ∀ u, (backend u).slot? = some x → u = t
  start_le : ∀ part, (head part).start ≤ writePos part
  fresh : ∀ part i, writePos part ≤ i → flushState part i = false
  reset : ∀ t part, (backend t).heads? = some part →
    (head part).start = 0 ∧ ∀ i, flushState part i = false

structure LockInv (writePos : Part → Nat) (flushLock : Part → Option (Holder n))
    (buftagLock : Option (Fin n)) (trunc : Part → Trunc) (backend : Fin n → Backend) :
    Prop where
  held : ∀ part t, flushLock part = some (.backend t) ↔ (backend t).recycles = some part
  ckpt : ∀ part, flushLock part = some .ckpt ↔ trunc part = .heading
  full : ∀ t part, (backend t).recycles = some part → part.pageNum ≤ writePos part + 1
  room : ∀ part : Part, writePos part + 1 ≤ part.pageNum
  buftag : ∀ t, buftagLock = some t ↔ (backend t).tags = true

/-! ## Copies in the file -/

section Copies

variable (C : Part → Nat → PageVersion → Prop) (live : Part → Nat → Prop)
  (present : PhyTag → Bool) (synced : PhyTag → Sectors 15 BlockImage)
  (unsynced : List DataWrite)

/-- The slot is live and has a copy of the page that will do. -/
def CoverAt (p : PhyTag) (part : Part) (i : Nat) : Prop :=
  live part i ∧ ∃ v, C part i v ∧ v.tag = p ∧ syncedAge synced p ≤ v.lsn + 1

/-- The data page has been synced since the copy was made. -/
def Stale (v : PageVersion) : Prop := present v.tag = true → v.lsn + 1 ≤ syncedAge synced v.tag

structure CopyInv (buf : PhyTag → Option PageVersion) (insertPos : Nat)
    (backend : Fin n → Backend) : Prop where
  covered : ∀ w ∈ unsynced, CoverAt C live synced w.tag w.part w.pos
  le_newest : ∀ part i v, C part i v → v.lsn ≤ newest buf insertPos v.tag
  settled : ∀ part i v, C part i v →
    (∃ t, (backend t).saved? = some (part, i, v)) ∨
      (live part i ∧ ∃ w ∈ unsynced, w.tag = v.tag ∧ v.lsn ≤ w.lsn) ∨ Stale present synced v

/-- While the files of `todo` are synced so that the slots of `part` before `m`
can be given up. -/
structure SyncInv (writePos : Part → Nat) (backend : Fin n → Backend) (part : Part) (m : Nat)
    (todo : List PhyTag) : Prop where
  le : m ≤ writePos part
  behind : ∀ t x, (backend t).slot? = some x → x.1 = part → m ≤ x.2
  covered : ∀ w ∈ unsynced, w.tag ∈ todo ∨ (w.part = part → m ≤ w.pos)
  stale : ∀ i v, i < m → C part i v → v.tag ∈ todo ∨ Stale present synced v

structure SyncsInv (head : Part → FileHead) (writePos : Part → Nat) (trunc : Part → Trunc)
    (backend : Fin n → Backend) : Prop where
  forward : ∀ part info todo, trunc part = .syncing info todo → info.orgStart ≤ info.maxIdx
  renumbered : ∀ t part, (backend t).heads? = some part → ∀ info todo,
    trunc part = .syncing info todo → info.orgDwn ≠ (head part).dwn
  trunc : ∀ part info todo, trunc part = .syncing info todo → info.orgStart = (head part).start →
    info.orgDwn = (head part).dwn →
      SyncInv C present synced unsynced writePos backend part info.maxIdx todo
  recycle : ∀ t part v todo, backend t = .syncing part v todo →
    SyncInv C present synced unsynced writePos backend part (writePos part) todo

structure LiveInv (head : Part → FileHead) (writePos : Part → Nat) (backend : Fin n → Backend) :
    Prop where
  bounds : ∀ part i, live part i → (head part).start ≤ i ∧ i < writePos part
  readable : ∀ t x, (backend t).unsaved? = some x → ¬live x.1 x.2
  saved : ∀ t x, (backend t).saved? = some x → live x.1 x.2.1 ∧ C x.1 x.2.1 x.2.2

end Copies

structure HeadInv (heads : Part → Sectors 2 FileHead) (items : Nat → FlushItem)
    (head : Part → FileHead) (live : Part → Nat → Prop) (backend : Fin n → Backend) : Prop where
  whole : ∀ part, heads part = Sectors.whole (heads part).first
  kept : ∀ part, (∀ t, (backend t).heads? ≠ some part) →
    (heads part).first.start ≤ (head part).start ∧ (heads part).first.dwn = (head part).dwn
  reset : ∀ t part, (backend t).heads? = some part →
    (∀ i, ¬live part i) ∧ ∀ u x, (backend u).slot? = some x → x.1 ≠ part
  reset_items : ∀ t part, (backend t).heads? = some part → part = .second →
    ∀ i, dwVerifyItem (items i) (head .second).dwn = false

structure FileInv (slots : Part → Nat → Slot) (items : Nat → FlushItem) (dwn : Nat)
    (writePos : Part → Nat) (backend : Fin n → Backend) : Prop where
  first : ∀ i page, slots .first i = Sectors.whole page →
    page = .zero ∨ ∃ d v, page = savedPage .first d v
  item : ∀ i, dwVerifyItem (items i) dwn = true →
    i < writePos .second ∧ ∃ v, Copy slots items dwn .second i v
  untagged : ∀ t x, (backend t).unsaved? = some x → x.1 = .second →
    dwVerifyItem (items x.2) dwn = false
  numbered : ∀ i < writePos .second, (∀ t, (backend t).unsaved? ≠ some (.second, i)) →
    (items i).dwn = dwn
  last : ∀ i, Part.second.pageNum ≤ i + 1 → items i = .zero
  paged : ∀ t x, (backend t).paged? = some x →
    slots .second x.2 = Sectors.whole (savedPage .second dwn x.1)

structure Inv (s : St n) (live : Part → Nat → Prop) : Prop where
  pages : PagesInv s.present s.synced s.unsynced s.buf s.insertPos
  hands : HandsInv s.synced s.unsynced s.buf s.insertPos s.backend
  taken : TakenInv s.head s.writePos s.flushState s.backend
  lock : LockInv s.writePos s.flushLock s.buftagLock s.trunc s.backend
  copies : CopyInv s.Copy live s.present s.synced s.unsynced s.buf s.insertPos s.backend
  syncs : SyncsInv s.Copy s.present s.synced s.unsynced s.head s.writePos s.trunc s.backend
  alive : LiveInv s.Copy live s.head s.writePos s.backend
  heads : HeadInv s.heads s.items s.head live s.backend
  file : FileInv s.slots s.items (s.heads .second).first.dwn s.writePos s.backend

end OpenGauss.SingleWrite
