import OpenGauss.SingleWrite.Invariant

/-!
# Pages are changed, synced, dropped and extended

How each part of the invariant reacts to a backend that goes on and to a page
that is synced or replaced, and the steps that do no more than that.
-/

namespace OpenGauss.SingleWrite

open Lib
open DoubleWrite (FileHead u16)
open Function (update update_of_ne update_self)

variable {n : Nat} {s s' : St n} {live : Part → Nat → Prop} {t : Fin n}
variable {w : DataWrite} {todo : List PhyTag} {m : Nat} {v : PageVersion} {part : Part}
  {trunc : Part → Trunc} {p q : PhyTag}
variable {backend : Fin n → Backend} {C : Part → Nat → PageVersion → Prop}
  {present present' : PhyTag → Bool} {synced synced' : PhyTag → Sectors 15 BlockImage}
  {unsynced unsynced' : List DataWrite} {buf buf' : PhyTag → Option PageVersion}
  {insertPos insertPos' : Nat} {head : Part → FileHead} {writePos : Part → Nat}

/-! ## A backend goes on -/

section Set

variable {b₀ b : Backend} {flushState : Part → Nat → Bool}

theorem HandsInv.set (h : HandsInv synced unsynced buf insertPos backend) (ht : backend t = b₀)
    (hcopy : ∀ x, b.copy? = some x → b₀.copy? = some x) :
    HandsInv synced unsynced buf insertPos (update backend t b) := by
  subst ht
  exact ⟨forall_update_of_le h.hand hcopy,
    forall_update_of_le (fun u v hv => forall_update_of_le (h.owner u v hv) hcopy) hcopy⟩

theorem TakenInv.set (h : TakenInv head writePos flushState backend)
    (hslot : ∀ x, b.slot? = some x → (backend t).slot? = some x)
    (hreset : ∀ part, b.heads? = some part →
      (head part).start = 0 ∧ ∀ i, flushState part i = false) :
    TakenInv head writePos flushState (update backend t b) where
  taken := forall_update_of_le h.taken hslot
  owner := by
    intro u x hx u' hx'
    have hold : ∀ u, (update backend t b u).slot? = some x → (backend u).slot? = some x :=
      update_cases (hslot x) fun _ _ => id
    exact h.owner u x (hold u hx) u' (hold u' hx')
  __ := h
  reset := forall_update h.reset hreset

theorem update_of_imp {α : Type} {g : Backend → Option α} {x : α}
    (hkeep : g (backend t) = some x → g b = some x) :
    ∀ u, g (backend u) = some x → g (update backend t b u) = some x :=
  update_cases hkeep fun _ _ => id

theorem CopyInv.set (h : CopyInv C live present synced unsynced buf insertPos backend)
    (ht : backend t = b₀) (hsaved : ∀ x, b₀.saved? = some x → b.saved? = some x) :
    CopyInv C live present synced unsynced buf insertPos (update backend t b) := by
  subst ht
  refine { h with settled := fun part i v hv => ?_ }
  rcases h.settled part i v hv with ⟨u, hu⟩ | hrest
  · exact .inl ⟨u, update_of_imp (hsaved _) u hu⟩
  · exact .inr hrest

theorem SyncInv.set (h : SyncInv C present synced unsynced writePos backend part m todo)
    (hslot : ∀ x, b.slot? = some x → (backend t).slot? = some x) :
    SyncInv C present synced unsynced writePos (update backend t b) part m todo :=
  ⟨h.le, forall_update_of_le h.behind hslot, h.covered, h.stale⟩

theorem LiveInv.set (h : LiveInv C live head writePos backend)
    (hunsaved : ∀ x, b.unsaved? = some x → (backend t).unsaved? = some x)
    (hsaved : ∀ x, b.saved? = some x → (backend t).saved? = some x) :
    LiveInv C live head writePos (update backend t b) :=
  ⟨h.bounds, forall_update_of_le h.readable hunsaved, forall_update_of_le h.saved hsaved⟩

theorem ne_of_update {α : Type} {g : Backend → Option α} {x : α}
    (hkeep : g (backend t) = some x → g b = some x)
    (h : ∀ u, g (update backend t b u) ≠ some x) : ∀ u, g (backend u) ≠ some x :=
  fun u hu => h u (update_of_imp hkeep u hu)

theorem HeadInv.set {heads : Part → Sectors 2 FileHead} {items : Nat → FlushItem}
    (h : HeadInv heads items head live backend) (ht : backend t = b₀) (hheads : b.heads? = b₀.heads?)
    (hslot : ∀ x, b.slot? = some x → b₀.slot? = some x) :
    HeadInv heads items head live (update backend t b) := by
  subst ht
  refine ⟨h.whole, fun part hno => h.kept part (ne_of_update (fun hx => hheads.trans hx) hno),
    forall_update_of_le (fun u part hu => ?_) fun _ hx => hheads.symm.trans hx,
    forall_update_of_le h.reset_items fun _ hx => hheads.symm.trans hx⟩
  exact ⟨(h.reset u part hu).1, forall_update_of_le (h.reset u part hu).2 hslot⟩

theorem FileInv.set {slots : Part → Nat → Slot} {items : Nat → FlushItem} {dwn : Nat}
    (h : FileInv slots items dwn writePos backend) (ht : backend t = b₀)
    (hunsaved : b.unsaved? = b₀.unsaved?) (hpaged : ∀ x, b.paged? = some x → b₀.paged? = some x) :
    FileInv slots items dwn writePos (update backend t b) := by
  subst ht
  exact { h with
    untagged := forall_update_of_le h.untagged fun _ hx => hunsaved.symm.trans hx
    numbered := fun i hi hno => h.numbered i hi (ne_of_update (fun hx => hunsaved.trans hx) hno)
    paged := forall_update_of_le h.paged hpaged }

theorem LockInv.set {flushLock : Part → Option (Holder n)} {buftagLock : Option (Fin n)}
    (h : LockInv writePos flushLock buftagLock trunc backend) (ht : backend t = b₀)
    (hrec : b.recycles = b₀.recycles) (htags : b.tags = b₀.tags) :
    LockInv writePos flushLock buftagLock trunc (update backend t b) := by
  subst ht
  exact { h with
    held := fun part => update_cases (by rw [hrec]; exact h.held part t) fun u _ => h.held part u
    full := forall_update_of_le h.full fun _ hx => hrec.symm.trans hx
    buftag := update_cases (by rw [htags]; exact h.buftag t) fun u _ => h.buftag u }

theorem SyncsInv.set (h : SyncsInv C present synced unsynced head writePos trunc backend)
    (hslot : ∀ x, b.slot? = some x → (backend t).slot? = some x)
    (hren : ∀ part, b.heads? = some part → ∀ info todo, trunc part = .syncing info todo →
      info.orgDwn ≠ (head part).dwn) (hsync : ∀ part v todo, b = .syncing part v todo →
      SyncInv C present synced unsynced writePos backend part (writePos part) todo) :
    SyncsInv C present synced unsynced head writePos trunc (update backend t b) where
  forward := h.forward
  renumbered := forall_update h.renumbered hren
  trunc := fun part info todo htr hstart hdwn => (h.trunc part info todo htr hstart hdwn).set hslot
  recycle := update_cases (fun part v todo hu => (hsync part v todo hu).set hslot)
    fun u _ part v todo hu => (h.recycle u part v todo hu).set hslot

end Set

/-! ## Syncing a page -/

section Sync

theorem syncPage_of_ne (h : q ≠ p) : syncPage synced unsynced p q = synced q := by
  unfold syncPage
  cases unsynced.find? (fun w => w.tag = p) with
  | some w => exact update_of_ne h _ _
  | none => rfl

theorem syncPage_self (synced : PhyTag → Sectors 15 BlockImage) (unsynced : List DataWrite)
    (p : PhyTag) :
    (∃ w ∈ unsynced, w.tag = p ∧ unsynced.find? (fun w => w.tag = p) = some w ∧
        syncPage synced unsynced p p = Sectors.whole (.page w.toPageVersion)) ∨
      (∀ w ∈ unsynced, w.tag ≠ p) ∧ syncPage synced unsynced p p = synced p := by
  unfold syncPage
  cases hf : unsynced.find? (fun w => w.tag = p) with
  | some w =>
    have htag : w.tag = p := by simpa using List.find?_some hf
    exact .inl ⟨w, List.mem_of_find?_eq_some hf, htag, rfl, update_self _ _ _⟩
  | none =>
    refine .inr ⟨fun w hw => ?_, rfl⟩
    simpa using List.find?_eq_none.mp hf w hw

theorem le_of_find?_tag {w' : DataWrite}
    (hsorted : unsynced.Pairwise fun w w' => w'.tag = w.tag → w'.lsn ≤ w.lsn)
    (hf : unsynced.find? (fun w => w.tag = p) = some w) (hw' : w' ∈ unsynced) (htag : w'.tag = p) :
    w'.lsn ≤ w.lsn := by
  induction unsynced with
  | nil => cases hw'
  | cons x xs ih =>
    obtain ⟨hx, hxs⟩ := List.pairwise_cons.mp hsorted
    by_cases hxp : x.tag = p
    · rw [List.find?_cons_of_pos (by simpa using hxp)] at hf
      cases hf
      rcases List.mem_cons.mp hw' with rfl | hmem
      · exact le_rfl
      · exact hx w' hmem (htag.trans hxp.symm)
    · rw [List.find?_cons_of_neg (by simpa using hxp)] at hf
      rcases List.mem_cons.mp hw' with rfl | hmem
      · exact absurd htag hxp
      · exact ih hxs hf hmem

/-- What holds of the block on disk and of every version written holds of the synced block. -/
theorem syncPage_rule {P : Sectors 15 BlockImage → Prop}
    (hwrite : ∀ w ∈ unsynced, w.tag = q → P (Sectors.whole (.page w.toPageVersion)))
    (hold : P (synced q)) : P (syncPage synced unsynced p q) := by
  by_cases hq : q = p
  · subst hq
    rcases syncPage_self synced unsynced q with ⟨w, hmem, htag, -, hself⟩ | ⟨-, hself⟩
    · rw [hself]
      exact hwrite w hmem htag
    · rwa [hself]
  · rwa [syncPage_of_ne hq]

theorem syncedAge_syncPage_le (hs : syncedAge synced q ≤ m)
    (hw : ∀ w ∈ unsynced, w.tag = q → w.lsn + 1 ≤ m) :
    syncedAge (syncPage synced unsynced p) q ≤ m :=
  syncPage_rule (P := (·.first.age ≤ m)) hw hs

theorem mem_filter_tag : w ∈ unsynced.filter (fun w => w.tag ≠ p) ↔ w ∈ unsynced ∧ w.tag ≠ p := by
  simp [List.mem_filter]

theorem HandsInv.sync (h : HandsInv synced unsynced buf insertPos backend) :
    HandsInv (syncPage synced unsynced p) (unsynced.filter fun w => w.tag ≠ p) buf insertPos
      backend where
  hand := fun t v hv =>
    have hh := h.hand t v hv
    ⟨hh.valid, hh.buffered, hh.le_newest,
      syncedAge_syncPage_le hh.synced_le fun w hw htag => Nat.succ_le_succ (hh.unsynced_le w hw htag),
      fun w hw => hh.unsynced_le w (mem_filter_tag.mp hw).1⟩
  owner := h.owner

theorem CoverAt.sync {i : Nat} (h : CoverAt C live synced q part i) (hq : q ≠ p) :
    CoverAt C live (syncPage synced unsynced p) q part i := by
  unfold CoverAt syncedAge at h ⊢
  rwa [syncPage_of_ne hq]

variable (hpages : PagesInv present synced unsynced buf insertPos)

include hpages

theorem PagesInv.syncedAge_le : syncedAge synced q ≤ syncedAge (syncPage synced unsynced p) q := by
  refine syncPage_rule (P := fun block => syncedAge synced q ≤ block.first.age) ?_ le_rfl
  rintro w hw rfl
  exact hpages.synced_le_unsynced w hw

theorem PagesInv.lt_syncedAge (hw : w ∈ unsynced) :
    w.lsn + 1 ≤ syncedAge (syncPage synced unsynced w.tag) w.tag := by
  rcases syncPage_self synced unsynced w.tag with ⟨w', _, _, hf, hs⟩ | ⟨hnone, _⟩
  · rw [syncedAge, hs]
    exact Nat.succ_le_succ (le_of_find?_tag hpages.sorted hf hw rfl)
  · exact absurd rfl (hnone w hw)

theorem PagesInv.sync :
    PagesInv present (syncPage synced unsynced p) (unsynced.filter fun w => w.tag ≠ p) buf
      insertPos where
  whole := fun q => syncPage_rule (P := fun block => block = Sectors.whole block.first)
    (fun _ _ _ => rfl) (hpages.whole q)
  own := fun q => syncPage_rule (P := (·.first.tag = q)) (fun _ _ htag => htag) (hpages.own q)
  unsynced_present := fun w hw => hpages.unsynced_present w (mem_filter_tag.mp hw).1
  buf_ok := hpages.buf_ok
  synced_le := fun q => syncedAge_syncPage_le (hpages.synced_le q) fun w hw htag => by
    have := hpages.unsynced_le w hw
    rw [htag] at this
    omega
  unsynced_le := fun w hw => hpages.unsynced_le w (mem_filter_tag.mp hw).1
  synced_le_unsynced := by
    intro w hw
    obtain ⟨hw, hne⟩ := mem_filter_tag.mp hw
    rw [syncedAge, syncPage_of_ne hne]
    exact hpages.synced_le_unsynced w hw
  sorted := hpages.sorted.filter _

theorem PagesInv.stale_sync (hv : Stale present synced v) :
    Stale present (syncPage synced unsynced p) v :=
  fun hp => (hv hp).trans hpages.syncedAge_le

theorem CopyInv.sync (h : CopyInv C live present synced unsynced buf insertPos backend) :
    CopyInv C live present (syncPage synced unsynced p) (unsynced.filter fun w => w.tag ≠ p) buf
      insertPos backend where
  covered := by
    intro w hw
    obtain ⟨hw, hne⟩ := mem_filter_tag.mp hw
    exact (h.covered w hw).sync hne
  le_newest := h.le_newest
  settled := by
    intro part i v hv
    rcases h.settled part i v hv with hsaved | ⟨hlive, w, hw, htag, hle⟩ | hstale
    · exact .inl hsaved
    · by_cases hp : w.tag = p
      · refine .inr (.inr fun _ => ?_)
        subst hp
        have := hpages.lt_syncedAge hw
        rw [← htag]
        omega
      · exact .inr (.inl ⟨hlive, w, mem_filter_tag.mpr ⟨hw, hp⟩, htag, hle⟩)
    · exact .inr (.inr (hpages.stale_sync hstale))

theorem SyncInv.sync (h : SyncInv C present synced unsynced writePos backend part m todo) :
    SyncInv C present (syncPage synced unsynced p) (unsynced.filter fun w => w.tag ≠ p)
      writePos backend part m todo where
  __ := h
  covered := fun w hw => h.covered w (mem_filter_tag.mp hw).1
  stale := fun i v hi hv => (h.stale i v hi hv).imp_right hpages.stale_sync

theorem SyncInv.next (h : SyncInv C present synced unsynced writePos backend part m (p :: todo))
    (hcopies : CopyInv C live present synced unsynced buf insertPos backend)
    (hsaved : ∀ t x, (backend t).saved? = some x → (backend t).slot? = some (x.1, x.2.1)) :
    SyncInv C present (syncPage synced unsynced p) (unsynced.filter fun w => w.tag ≠ p)
      writePos backend part m todo where
  __ := h
  covered := by
    intro w hw
    obtain ⟨hmem, hne⟩ := mem_filter_tag.mp hw
    rcases (h.sync hpages).covered w hw with hin | hc
    · rcases List.mem_cons.mp hin with heq | hin
      · exact absurd heq hne
      · exact .inl hin
    · exact .inr hc
  stale := by
    intro i v hi hv
    rcases h.stale i v hi hv with hin | hstale
    · rcases List.mem_cons.mp hin with htag | hin
      · -- the slot is flushed, so the data page has been written since
        right
        rcases hcopies.settled part i v hv with ⟨u, hu⟩ | ⟨_, w, hw, hwtag, hle⟩ | hstale
        · have := h.behind u _ (hsaved u _ hu) rfl
          simp only at this
          omega
        · intro _
          have := hpages.lt_syncedAge hw
          rw [hwtag] at this
          rw [← htag]
          omega
        · exact hpages.stale_sync hstale
      · exact .inl hin
    · exact .inr (hpages.stale_sync hstale)

theorem SyncsInv.sync (h : SyncsInv C present synced unsynced head writePos trunc backend) :
    SyncsInv C present (syncPage synced unsynced p) (unsynced.filter fun w => w.tag ≠ p)
      head writePos trunc backend where
  __ := h
  trunc := fun part info todo htr hstart hdwn => (h.trunc part info todo htr hstart hdwn).sync hpages
  recycle := fun t part v todo ht => (h.recycle t part v todo ht).sync hpages

end Sync

theorem Inv.fsync (h : Inv s live) (p : PhyTag) : Inv (s.sync p) live where
  pages := h.pages.sync
  hands := h.hands.sync
  __ := h
  copies := h.copies.sync h.pages
  syncs := h.syncs.sync h.pages

/-! ## Pages change in memory -/

theorem newest_of_some (h : buf p = some v) : newest buf insertPos p = v.lsn := by
  rw [newest, h]
  rfl

theorem newest_of_none (h : buf p = none) : newest buf insertPos p = insertPos := by
  rw [newest, h]
  rfl

theorem PagesInv.newest_le (h : PagesInv present synced unsynced buf insertPos) (p : PhyTag) :
    newest buf insertPos p ≤ insertPos := by
  cases hb : buf p with
  | none => rw [newest_of_none hb]
  | some v =>
    rw [newest_of_some hb]
    exact (h.buf_ok p v hb).2.2

theorem HandsInv.mono (h : HandsInv synced unsynced buf insertPos backend)
    (hbuf : ∀ t v, (backend t).copy? = some v → buf' v.tag ≠ none)
    (hle : ∀ p, newest buf insertPos p ≤ newest buf' insertPos' p) :
    HandsInv synced unsynced buf' insertPos' backend where
  hand := fun t v hv =>
    have hh := h.hand t v hv
    ⟨hh.valid, hbuf t v hv, hh.le_newest.trans (hle _), hh.synced_le, hh.unsynced_le⟩
  owner := h.owner

theorem CopyInv.mono (h : CopyInv C live present synced unsynced buf insertPos backend)
    (hle : ∀ p, newest buf insertPos p ≤ newest buf' insertPos' p) :
    CopyInv C live present synced unsynced buf' insertPos' backend :=
  ⟨h.covered, fun part i v hv => (h.le_newest part i v hv).trans (hle _), h.settled⟩

theorem Inv.modify (h : Inv s live) (hstep : s.modify v = some s') : Inv s' live := by
  set buf := update s.buf v.tag (some v)
  unfold St.modify at hstep
  split at hstep; swap
  · cases hstep
  rename_i hok
  obtain ⟨hpresent, hlsn⟩ := hok
  cases hstep
  have hself : buf v.tag = some v := update_self _ _ _
  have hother : ∀ q, q ≠ v.tag → buf q = s.buf q :=
    fun q hq => update_of_ne hq _ _
  have hle : ∀ p, newest s.buf s.insertPos p ≤
      newest buf (max s.insertPos v.lsn) p := by
    intro p
    have hmax := h.pages.newest_le p
    by_cases hp : p = v.tag
    · subst hp
      rw [newest_of_some hself]
      rcases hlsn with hlsn | hlsn
      · omega
      obtain ⟨old, hold, holdlsn⟩ := Option.map_eq_some_iff.mp hlsn
      rw [newest_of_some hold]
      omega
    · cases hb : s.buf p with
      | none =>
        rw [newest_of_none ((hother p hp).trans hb), newest_of_none hb]
        omega
      | some w => rw [newest_of_some ((hother p hp).trans hb), newest_of_some hb]
  have hbuf : ∀ p w, update s.buf v.tag (some v) p = some w →
      w.tag = p ∧ s.present p = true ∧ w.lsn ≤ max s.insertPos v.lsn := by
    intro p w hw
    rcases update_eq_cases hw with ⟨rfl, ⟨⟩⟩ | ⟨-, hw⟩
    · exact ⟨rfl, hpresent, Nat.le_max_right _ _⟩
    · obtain ⟨htag, hp, hwlsn⟩ := h.pages.buf_ok p w hw
      exact ⟨htag, hp, hwlsn.trans (Nat.le_max_left _ _)⟩
  have hbuffered : ∀ p, s.buf p ≠ none → update s.buf v.tag (some v) p ≠ none :=
    update_cases (fun _ => Option.some_ne_none _) fun _ _ => id
  exact ⟨⟨h.pages.whole, h.pages.own, h.pages.unsynced_present, hbuf,
    fun p => (h.pages.synced_le p).trans (Nat.succ_le_succ (hle p)),
    fun w hw => (h.pages.unsynced_le w hw).trans (hle _), h.pages.synced_le_unsynced,
    h.pages.sorted⟩, h.hands.mono (fun t w hw => hbuffered _ (h.hands.hand t w hw).buffered) hle,
    h.taken, h.lock, h.copies.mono hle, h.syncs, h.alive, h.heads, h.file⟩

/-! ## Blocks come and go -/

/-- The block `p` is replaced and all else is as it was. -/
structure Replaced (p : PhyTag) (present present' : PhyTag → Bool)
    (synced synced' : PhyTag → Sectors 15 BlockImage) (unsynced unsynced' : List DataWrite) :
    Prop where
  present : ∀ q, q ≠ p → present' q = present q
  synced : ∀ q, q ≠ p → synced' q = synced q
  unsynced : ∀ w, w ∈ unsynced' ↔ w ∈ unsynced ∧ w.tag ≠ p

section Replace

variable (hrep : Replaced p present present' synced synced' unsynced unsynced')

include hrep

theorem PagesInv.replace (h : PagesInv present synced unsynced buf insertPos)
    (hzero : synced' p = Sectors.whole (.zero p))
    (hsorted : unsynced'.Pairwise fun w w' => w'.tag = w.tag → w'.lsn ≤ w.lsn)
    (hbuf : ∀ q v, buf' q = some v → buf q = some v ∧ q ≠ p)
    (hle : ∀ q, newest buf insertPos q ≤ newest buf' insertPos q) :
    PagesInv present' synced' unsynced' buf' insertPos where
  whole := by
    intro q
    by_cases hq : q = p
    · rw [hq, hzero]
      rfl
    · rw [hrep.synced q hq]
      exact h.whole q
  own := by
    intro q
    by_cases hq : q = p
    · rw [hq, hzero]
      rfl
    · rw [hrep.synced q hq]
      exact h.own q
  unsynced_present := by
    intro w hw
    obtain ⟨hw, hne⟩ := (hrep.unsynced w).mp hw
    rw [hrep.present _ hne]
    exact h.unsynced_present w hw
  buf_ok := by
    intro q v hv
    obtain ⟨hv, hne⟩ := hbuf q v hv
    rw [hrep.present q hne]
    exact h.buf_ok q v hv
  synced_le := by
    intro q
    by_cases hq : q = p
    · rw [syncedAge, hq, hzero]
      exact Nat.zero_le _
    · rw [syncedAge, hrep.synced q hq]
      exact (h.synced_le q).trans (Nat.succ_le_succ (hle q))
  unsynced_le := fun w hw =>
    Nat.le_trans (h.unsynced_le w ((hrep.unsynced w).mp hw).1) (hle _)
  synced_le_unsynced := by
    intro w hw
    obtain ⟨hw, hne⟩ := (hrep.unsynced w).mp hw
    rw [syncedAge, hrep.synced _ hne]
    exact h.synced_le_unsynced w hw
  sorted := hsorted

theorem HandsInv.replace (h : HandsInv synced unsynced buf insertPos backend)
    (hfree : ∀ t v, (backend t).copy? = some v → v.tag ≠ p) :
    HandsInv synced' unsynced' buf insertPos backend where
  hand := fun t v hv =>
    have hh := h.hand t v hv
    ⟨hh.valid, hh.buffered, hh.le_newest, by
      rw [syncedAge, hrep.synced _ (hfree t v hv)]
      exact hh.synced_le,
      fun w hw => hh.unsynced_le w ((hrep.unsynced w).mp hw).1⟩
  owner := h.owner

theorem Replaced.stale (hgone : v.tag = p → present' p = false) (h : Stale present synced v) :
    Stale present' synced' v := by
  intro hp
  by_cases htag : v.tag = p
  · rw [htag, hgone htag] at hp
    cases hp
  rw [hrep.present _ htag] at hp
  rw [syncedAge, hrep.synced _ htag]
  exact h hp

theorem CopyInv.replace (h : CopyInv C live present synced unsynced buf insertPos backend)
    (hgone : ∀ part i v, C part i v → v.tag = p → present' p = false) :
    CopyInv C live present' synced' unsynced' buf insertPos backend where
  covered := by
    intro w hw
    obtain ⟨hw, hne⟩ := (hrep.unsynced w).mp hw
    have hc := h.covered w hw
    unfold CoverAt syncedAge at hc ⊢
    rwa [hrep.synced _ hne]
  le_newest := h.le_newest
  settled := by
    intro part i v hv
    by_cases htag : v.tag = p
    · refine .inr (.inr fun hp => ?_)
      rw [htag, hgone part i v hv htag] at hp
      cases hp
    rcases h.settled part i v hv with hsaved | ⟨hlive, w, hw, hwtag, hle⟩ | hstale
    · exact .inl hsaved
    · have hne : w.tag ≠ p := fun heq => htag (hwtag.symm.trans heq)
      exact .inr (.inl ⟨hlive, w, (hrep.unsynced w).mpr ⟨hw, hne⟩, hwtag, hle⟩)
    · exact .inr (.inr (hrep.stale (fun heq => absurd heq htag) hstale))

theorem SyncInv.replace (h : SyncInv C present synced unsynced writePos backend part m todo)
    (hgone : ∀ part i v, C part i v → v.tag = p → present' p = false) :
    SyncInv C present' synced' unsynced' writePos backend part m todo :=
  ⟨h.le, h.behind, fun w hw => h.covered w ((hrep.unsynced w).mp hw).1,
    fun i v hi hv => (h.stale i v hi hv).imp_right (hrep.stale (hgone part i v hv))⟩

theorem SyncsInv.replace (h : SyncsInv C present synced unsynced head writePos trunc backend)
    (hgone : ∀ part i v, C part i v → v.tag = p → present' p = false) :
    SyncsInv C present' synced' unsynced' head writePos trunc backend where
  __ := h
  trunc := fun part info todo htr hstart hdwn =>
    (h.trunc part info todo htr hstart hdwn).replace hrep hgone
  recycle := fun t part v todo ht => (h.recycle t part v todo ht).replace hrep hgone

end Replace

theorem Inv.truncateBlock (h : Inv s live) (hstep : s.truncateBlock p = some s') : Inv s' live := by
  unfold St.truncateBlock at hstep
  split at hstep <;> cases hstep
  rename_i hfree
  have hrep : Replaced p s.present (update s.present p false) s.synced
      (update s.synced p (Sectors.whole (.zero p))) s.unsynced
      (s.unsynced.filter fun w => w.tag ≠ p) :=
    ⟨fun q hq => update_of_ne hq _ _, fun q hq => update_of_ne hq _ _, fun w => mem_filter_tag⟩
  have hgone : ∀ part i v, s.Copy part i v → v.tag = p →
      update s.present p false p = false := fun _ _ _ _ _ => update_self _ _ _
  have hle : ∀ q, newest s.buf s.insertPos q ≤ newest (update s.buf p none) s.insertPos q := by
    intro q
    by_cases hq : q = p
    · subst hq
      have hnone : update s.buf q none q = none := update_self _ _ _
      rw [newest_of_none hnone]
      exact h.pages.newest_le q
    · rw [newest, newest, update_of_ne hq]
  have hbuf : ∀ q v, update s.buf p none q = some v → s.buf q = some v ∧ q ≠ p := by
    intro q v hv
    exact (of_update_eq hv nofun).symm
  have hbuffered : ∀ t v, (s.backend t).copy? = some v → update s.buf p none v.tag ≠ none := by
    intro t v hv
    rw [update_of_ne (hfree t v hv)]
    exact (h.hands.hand t v hv).buffered
  exact ⟨h.pages.replace hrep (update_self _ _ _) (h.pages.sorted.filter _) hbuf hle,
    (h.hands.replace hrep fun t v hv => hfree t v hv).mono hbuffered hle, h.taken, h.lock,
    (h.copies.replace hrep hgone).mono hle, h.syncs.replace hrep hgone, h.alive, h.heads, h.file⟩

theorem Inv.extendBlock (h : Inv s live) (hd : s.Disciplined (.extendBlock p))
    (hstep : s.extendBlock p = some s') : Inv s' live := by
  unfold St.extendBlock at hstep
  split at hstep <;> cases hstep
  rename_i habsent
  have hne : ∀ w ∈ s.unsynced, w.tag ≠ p := fun w hw heq =>
    habsent (heq ▸ h.pages.unsynced_present w hw)
  have hbuf : ∀ q v, s.buf q = some v → q ≠ p := fun q v hv heq =>
    habsent (heq ▸ (h.pages.buf_ok q v hv).2.1)
  have hrep : Replaced p s.present (update s.present p true) s.synced
      (update s.synced p (Sectors.whole (.zero p))) s.unsynced s.unsynced :=
    ⟨fun q hq => update_of_ne hq _ _, fun q hq => update_of_ne hq _ _,
      fun w => ⟨fun hw => ⟨hw, hne w hw⟩, And.left⟩⟩
  have hgone : ∀ part i v, s.Copy part i v → v.tag = p → update s.present p true p = false :=
    fun part i v hv htag => absurd htag (hd part i v hv)
  have hfree : ∀ t v, (s.backend t).copy? = some v → v.tag ≠ p := by
    intro t v hv
    obtain ⟨w, hw⟩ := Option.ne_none_iff_exists'.mp (h.hands.hand t v hv).buffered
    exact hbuf _ w hw
  exact ⟨h.pages.replace hrep (update_self _ _ _) h.pages.sorted
    (fun q v hv => ⟨hv, hbuf q v hv⟩) (fun _ => le_rfl), h.hands.replace hrep hfree,
    h.taken, h.lock, h.copies.replace hrep hgone, h.syncs.replace hrep hgone, h.alive, h.heads,
    h.file⟩

end OpenGauss.SingleWrite
