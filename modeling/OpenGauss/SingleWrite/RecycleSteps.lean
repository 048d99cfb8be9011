import OpenGauss.SingleWrite.FlushSteps

/-!
# Slots are given up

Starting a part over and truncating it. Both first find slots that are flushed,
then sync the files written until then, and only then give the slots up by
writing a new file head.
-/

namespace OpenGauss.SingleWrite

open Lib
open DoubleWrite (FileHead u16)
open Function (update update_of_ne update_self)
open Sectors (whole)

variable {n : Nat} {s s' : St n} {live : Part → Nat → Prop} {t : Fin n} {part : Part}
variable {buftagLock : Option (Fin n)} {flushLock : Part → Option (Holder n)}
  {backend : Fin n → Backend} {C C' : Part → Nat → PageVersion → Prop} {present : PhyTag → Bool}
  {synced : PhyTag → Sectors 15 BlockImage} {unsynced : List DataWrite} {head : Part → FileHead}
  {writePos : Part → Nat}

/-- The slots left after those of `part` before `m` were given up. -/
def dropped (live : Part → Nat → Prop) (part : Part) (m : Nat) : Part → Nat → Prop :=
  fun q i => live q i ∧ (q = part → m ≤ i)

section Drop

variable {buf : PhyTag → Option PageVersion} {insertPos : Nat} {flushState : Part → Nat → Bool}
  {m : Nat}

theorem SyncInv.begin (hcopies : CopyInv C live present synced unsynced buf insertPos backend)
    (htaken : TakenInv head writePos flushState backend) (hm : m ≤ writePos part)
    (hflushed : ∀ i, (head part).start ≤ i → i < m → flushState part i = true) :
    SyncInv C present synced unsynced writePos backend part m (unsynced.map fun w => w.tag) := by
  have hbehind : ∀ u x, (backend u).slot? = some x → x.1 = part → m ≤ x.2 := by
    rintro u x hx rfl
    obtain ⟨hstart, _, hflush⟩ := htaken.taken u x hx
    by_contra hlt
    have := hflushed x.2 hstart (not_le.mp hlt)
    rw [hflush] at this
    cases this
  refine ⟨hm, hbehind, fun w hw => .inl (List.mem_map_of_mem hw), fun i v hi hv => ?_⟩
  rcases hcopies.settled part i v hv with ⟨u, hu⟩ | ⟨_, w, hw, htag, _⟩ | hstale
  · have hle := hbehind u _ (Backend.slot?_of_saved? hu).1 rfl
    exact absurd hi hle.not_gt
  · exact .inl (List.mem_map.mpr ⟨w, hw, htag⟩)
  · exact .inr hstale

theorem CopyInv.drop (h : CopyInv C live present synced unsynced buf insertPos backend)
    (hsync : SyncInv C present synced unsynced writePos backend part m []) :
    CopyInv C (dropped live part m) present synced unsynced buf insertPos backend where
  covered := by
    intro w hw
    obtain ⟨hlive, hrest⟩ := h.covered w hw
    rcases hsync.covered w hw with hin | hle
    · cases hin
    · exact ⟨⟨hlive, hle⟩, hrest⟩
  le_newest := h.le_newest
  settled := by
    intro q i v hv
    rcases h.settled q i v hv with hsaved | ⟨hlive, hw⟩ | hstale
    · exact .inl hsaved
    · by_cases hq : q = part → m ≤ i
      · exact .inr (.inl ⟨⟨hlive, hq⟩, hw⟩)
      obtain ⟨rfl, hlt⟩ := Classical.not_imp.mp hq
      rcases hsync.stale i v (not_le.mp hlt) hv with hin | hstale
      · cases hin
      · exact .inr (.inr hstale)
    · exact .inr (.inr hstale)

theorem LiveInv.drop (h : LiveInv C live head writePos backend)
    (hbehind : ∀ u x, (backend u).slot? = some x → x.1 = part → m ≤ x.2) :
    LiveInv C (dropped live part m) head writePos backend where
  bounds := fun q i hi => h.bounds q i hi.1
  readable := fun u x hx hlive => h.readable u x hx hlive.1
  saved := fun u x hx =>
    ⟨⟨(h.saved u x hx).1, hbehind u _ (Backend.slot?_of_saved? hx).1⟩, (h.saved u x hx).2⟩

theorem HeadInv.drop {heads : Part → Sectors 2 FileHead} {items : Nat → FlushItem}
    (h : HeadInv heads items head live backend) :
    HeadInv heads items head (dropped live part m) backend where
  __ := h
  reset := fun u q hu => ⟨fun i hi => (h.reset u q hu).1 i hi.1, (h.reset u q hu).2⟩

theorem CopyInv.restrict (h : CopyInv C live present synced unsynced buf insertPos backend)
    (hsub : ∀ q i v, C' q i v → C q i v) (hkeep : ∀ q i v, live q i → C q i v → C' q i v) :
    CopyInv C' live present synced unsynced buf insertPos backend where
  covered := by
    intro w hw
    obtain ⟨hlive, v, hv, hrest⟩ := h.covered w hw
    exact ⟨hlive, v, hkeep _ _ v hlive hv, hrest⟩
  le_newest := fun q i v hv => h.le_newest q i v (hsub q i v hv)
  settled := fun q i v hv => h.settled q i v (hsub q i v hv)

theorem SyncInv.restrict {q : Part} {todo : List PhyTag} {writePos' : Part → Nat}
    (h : SyncInv C present synced unsynced writePos backend q m todo)
    (hsub : ∀ q i v, C' q i v → C q i v) (hpos : writePos' q = writePos q) :
    SyncInv C' present synced unsynced writePos' backend q m todo :=
  ⟨by rw [hpos]; exact h.le, h.behind, h.covered, fun i v hi hv => h.stale i v hi (hsub q i v hv)⟩

end Drop

/-- A part whose lock no backend holds is not being started over. -/
theorem LockInv.not_heads {writePos : Part → Nat} {trunc : Part → Trunc}
    {backend : Fin n → Backend} (h : LockInv writePos flushLock buftagLock trunc backend)
    (hfree : ∀ u, flushLock part ≠ some (.backend u)) (u : Fin n) :
    (backend u).heads? ≠ some part :=
  fun hu => hfree u ((h.held part u).mpr (Backend.recycles_of_heads? hu))

/-! ## Starting a part over -/

theorem Inv.lockRecycle (h : Inv s live) (hstep : s.lockRecycle t = some s') : Inv s' live := by
  unfold St.lockRecycle at hstep
  split at hstep; swap
  · cases hstep
  rename_i part v ht
  split at hstep; swap
  · cases hstep
  rename_i hok
  obtain ⟨hfull, hfree⟩ := hok
  cases hstep
  have hlock : LockInv s.writePos (update s.flushLock part (some (.backend t)))
      s.buftagLock s.trunc (update s.backend t (.waiting part v)) := by
    have hnone : (s.backend t).recycles = none := by rw [ht]; rfl
    refine ⟨?_, ?_, forall_update h.lock.full ?_, h.lock.room,
      update_cases (by rw [h.lock.buftag t, ht]; rfl) fun u _ => h.lock.buftag u⟩
    · refine update_cases ?_ fun q hq => ?_
      · refine update_cases ⟨fun _ => rfl, fun _ => rfl⟩ fun u hut => ?_
        rw [← h.lock.held part u, hfree]
        exact ⟨fun heq => absurd (Holder.backend.inj (Option.some.inj heq)).symm hut, nofun⟩
      · refine update_cases ?_ fun u _ => h.lock.held q u
        rw [h.lock.held q t, hnone]
        exact ⟨nofun, fun heq => absurd (Option.some.inj heq).symm hq⟩
    · refine update_cases ?_ fun q _ => h.lock.ckpt q
      rw [← h.lock.ckpt part, hfree]
      exact ⟨nofun, nofun⟩
    · intro q hq
      cases hq
      exact hfull
  exact ⟨h.pages, h.hands.set ht (le_of_eq_some rfl),
    h.taken.set nofun nofun, hlock,
    h.copies.set ht nofun,
    h.syncs.set nofun nofun nofun,
    h.alive.set nofun nofun,
    h.heads.set ht rfl nofun,
    h.file.set ht rfl nofun⟩

theorem Inv.waitAllFlush (h : Inv s live) (hstep : s.waitAllFlush t = some s') : Inv s' live := by
  unfold St.waitAllFlush at hstep
  split at hstep; swap
  · cases hstep
  rename_i part v ht
  split at hstep <;> cases hstep
  rename_i hflushed
  have hsync := SyncInv.begin h.copies h.taken le_rfl fun i hstart hlt => hflushed i hlt hstart
  exact ⟨h.pages, h.hands.set ht (le_of_eq_some rfl),
    h.taken.set nofun nofun,
    h.lock.set ht rfl rfl,
    h.copies.set ht nofun,
    h.syncs.set nofun nofun (fun _ _ _ hb => (by cases hb; exact hsync)),
    h.alive.set nofun nofun,
    h.heads.set ht rfl nofun,
    h.file.set ht rfl nofun⟩

theorem Inv.recycleSync (h : Inv s live) (hstep : s.recycleSync t = some s') : Inv s' live := by
  unfold St.recycleSync at hstep
  split at hstep <;> cases hstep
  rename_i part v p todo ht
  have hs := h.fsync p
  have hts : (s.sync p).backend t = .syncing part v (p :: todo) := ht
  have hnext := (h.syncs.recycle t part v _ ht).next h.pages h.copies
    fun u x hx => (Backend.slot?_of_saved? hx).1
  exact ⟨hs.pages, hs.hands.set hts (le_of_eq_some rfl),
    hs.taken.set nofun nofun,
    hs.lock.set hts rfl rfl,
    hs.copies.set hts nofun,
    hs.syncs.set nofun nofun (fun _ _ _ hb => (by cases hb; exact hnext)),
    hs.alive.set nofun nofun,
    hs.heads.set hts rfl nofun,
    hs.file.set hts rfl nofun⟩

theorem LockInv.recycler {writePos : Part → Nat} {trunc : Part → Trunc} {backend : Fin n → Backend}
    {u : Fin n} (h : LockInv writePos flushLock buftagLock trunc backend)
    (ht : (backend t).recycles = some part) (hu : (backend u).recycles = some part) : u = t :=
  Holder.backend.inj (Option.some.inj
    (((h.held part u).mpr hu).symm.trans ((h.held part t).mpr ht)))

theorem u16_succ_ne (k : Nat) : u16 (k + 1) ≠ k := by
  unfold u16
  omega

theorem dwVerifyItem_zero (dwn : Nat) : dwVerifyItem .zero dwn = false := by
  rw [dwVerifyItem]
  exact decide_eq_false fun hv => hv.2.2.2 rfl

theorem dwVerifyItem_of_dwn_ne {item : FlushItem} {dwn : Nat} (h : item.dwn ≠ dwn) :
    dwVerifyItem item dwn = false := by
  rw [dwVerifyItem]
  exact decide_eq_false fun hv => h hv.1

/-- No item carries the number after the one all slots were filled under. -/
theorem FileInv.next_unused {slots : Part → Nat → Slot} {items : Nat → FlushItem} {dwn : Nat}
    {writePos : Part → Nat} {backend : Fin n → Backend}
    (h : FileInv slots items dwn writePos backend)
    (hfull : Part.second.pageNum ≤ writePos .second + 1)
    (hnone : ∀ u x, (backend u).slot? = some x → x.1 ≠ .second) (i : Nat) :
    dwVerifyItem (items i) (u16 (dwn + 1)) = false := by
  by_cases hi : i < writePos .second
  · apply dwVerifyItem_of_dwn_ne
    rw [h.numbered i hi fun u hu => hnone u _ (Backend.slot?_of_unsaved? hu) rfl]
    exact (u16_succ_ne dwn).symm
  · rw [h.last i (by omega)]
    exact dwVerifyItem_zero _

theorem Inv.recycleReset (h : Inv s live) (hd : s.Disciplined (.recycleReset t))
    (hstep : s.recycleReset t = some s') : ∃ live', Inv s' live' := by
  unfold St.recycleReset at hstep
  split at hstep <;> cases hstep
  rename_i part v ht
  have hsync := h.syncs.recycle t part v [] ht
  have hrec : (s.backend t).recycles = some part := by rw [ht]; rfl
  have hunused := hd part v ht
  -- no slot of the part is taken
  have hnone : ∀ u x, (s.backend u).slot? = some x → x.1 ≠ part := by
    rintro u x hx rfl
    exact absurd (h.taken.taken u x hx).2.1 (hsync.behind u x hx rfl).not_gt
  have hheads : ∀ u, (s.backend u).heads? ≠ some part := by
    intro u hu
    have := h.lock.recycler hrec (Backend.recycles_of_heads? hu)
    rw [this, ht] at hu
    cases hu
  have htaken : TakenInv (update s.head part (nextHead (s.head part))) s.writePos
      (update s.flushState part fun _ => false) s.backend := by
    refine ⟨fun u x hx => ?_, h.taken.owner,
      update_cases (Nat.zero_le _) fun q _ => h.taken.start_le q,
      update_cases (fun _ _ => rfl) fun q _ => h.taken.fresh q, fun u q hu => ?_⟩
    · rw [update_of_ne (hnone u x hx), update_of_ne (hnone u x hx)]
      exact h.taken.taken u x hx
    · have hq : q ≠ part := fun hq => hheads u (hq ▸ hu)
      rw [update_of_ne hq, update_of_ne hq]
      exact h.taken.reset u q hu
  have hsyncs : SyncsInv s.Copy s.present s.synced s.unsynced
      (update s.head part (nextHead (s.head part))) s.writePos s.trunc s.backend := by
    refine ⟨h.syncs.forward, fun u q hu => ?_,
      update_cases (fun info todo htr _ hdwn => absurd hdwn (hunused info todo htr))
        fun q _ => h.syncs.trunc q, h.syncs.recycle⟩
    have hq : q ≠ part := fun hq => hheads u (hq ▸ hu)
    rw [update_of_ne hq]
    exact h.syncs.renumbered u q hu
  have halive : LiveInv s.Copy (dropped live part (s.writePos part))
      (update s.head part (nextHead (s.head part))) s.writePos s.backend := by
    have hdrop := h.alive.drop hsync.behind
    refine ⟨fun q i hi => ?_, hdrop.readable, hdrop.saved⟩
    obtain ⟨hstart, hlt⟩ := hdrop.bounds q i hi
    have hq : q ≠ part := by
      rintro rfl
      exact absurd hlt (hi.2 rfl).not_gt
    rw [update_of_ne hq]
    exact ⟨hstart, hlt⟩
  have hkept := h.heads.kept part hheads
  have hhead : HeadInv s.heads s.items (update s.head part (nextHead (s.head part)))
      (dropped live part (s.writePos part)) (update s.backend t (.heading part v)) := by
    have hslots : ∀ {q : Part}, (∀ u x, (s.backend u).slot? = some x → x.1 ≠ q) →
        ∀ u x, (update s.backend t (.heading part v) u).slot? = some x → x.1 ≠ q :=
      fun hq => forall_update hq nofun
    refine ⟨h.heads.whole, fun q hno => ?_, forall_update (fun u q hu => ?_) ?_,
      forall_update (fun u q hu hsecond => ?_) ?_⟩
    · have hq : q ≠ part := by
        rintro rfl
        have := hno t
        rw [update_self] at this
        exact this rfl
      rw [update_of_ne hq]
      exact h.heads.kept q (ne_of_update (by rw [ht]; nofun) hno)
    · exact ⟨fun i hi => (h.heads.reset u q hu).1 i hi.1, hslots (h.heads.reset u q hu).2⟩
    · intro q hq
      cases hq
      refine ⟨fun i hi => ?_, hslots hnone⟩
      exact absurd (h.alive.bounds _ i hi.1).2 (hi.2 rfl).not_gt
    · have hq : Part.second ≠ part := fun hq => hheads u (hq ▸ hsecond ▸ hu)
      rw [update_of_ne hq]
      exact h.heads.reset_items u q hu hsecond
    · intro q hq hsecond
      cases hq
      subst hsecond
      rw [update_self, nextHead, ← hkept.2]
      exact h.file.next_unused (h.lock.full t _ hrec) hnone
  refine ⟨dropped live part (s.writePos part), h.pages,
    h.hands.set ht (le_of_eq_some rfl), htaken.set nofun ?_,
    h.lock.set ht rfl rfl,
    (h.copies.drop hsync).set ht nofun,
    hsyncs.set nofun ?_ nofun,
    halive.set nofun nofun, hhead,
    h.file.set ht rfl nofun⟩
  · intro q hq
    cases hq
    rw [update_self, update_self]
    exact ⟨rfl, fun _ => rfl⟩
  · intro q hq info todo htr
    cases hq
    rw [update_self]
    exact hunused info todo htr

/-- The number of the second part after a new file head of `part` is written. -/
theorem dwn_update (heads : Part → Sectors 2 FileHead) (part : Part) (head : FileHead) :
    (update heads part (whole head) .second).first.dwn =
      if part = .second then head.dwn else (heads .second).first.dwn := by
  cases part with
  | first | second => rfl

theorem Inv.recycleHead (h : Inv s live) (hstep : s.recycleHead t = some s') : Inv s' live := by
  unfold St.recycleHead at hstep
  split at hstep <;> cases hstep
  rename_i part v ht
  have hhead : (s.backend t).heads? = some part := by rw [ht]; rfl
  have hrec : (s.backend t).recycles = some part := by rw [ht]; rfl
  have hlock : s.flushLock part = some (.backend t) := (h.lock.held part t).mpr hrec
  obtain ⟨hempty, hnone⟩ := h.heads.reset t part hhead
  obtain ⟨hstart, hflush⟩ := h.taken.reset t part hhead
  have honly : ∀ u, u ≠ t → (s.backend u).recycles ≠ some part := fun u hut hu =>
    hut (h.lock.recycler hrec hu)
  set dwn := (update s.heads part (whole (s.head part)) .second).first.dwn with hdwn
  set C := Copy s.slots s.items dwn
  -- the copies of the part are gone
  have hsub : ∀ q i x, C q i x → s.Copy q i x := by
    intro q i x hx
    cases part with
    | first => exact hx
    | second =>
      cases q with
      | first => exact hx
      | second =>
        have hv := hx.verified
        rw [hdwn, dwn_update, if_pos rfl, h.heads.reset_items t _ hhead rfl i] at hv
        cases hv
  have hkeep : ∀ q i x, live q i → s.Copy q i x → C q i x := by
    intro q i x hlive hx
    cases part with
    | first => exact hx
    | second =>
      cases q with
      | first => exact hx
      | second => exact absurd hlive (hempty i)
  have htaken : TakenInv s.head (update s.writePos part 0) s.flushState s.backend := by
    refine ⟨fun u x hx => ?_, h.taken.owner,
      update_cases hstart.le fun q _ => h.taken.start_le q,
      update_cases (fun i _ => hflush i) fun q _ => h.taken.fresh q, h.taken.reset⟩
    rw [update_of_ne (hnone u x hx)]
    exact h.taken.taken u x hx
  have hlocks : LockInv (update s.writePos part 0)
      (update s.flushLock part none) s.buftagLock s.trunc
      (update s.backend t (.copied part v)) := by
    refine ⟨?_, ?_, ?_, update_cases (by cases part <;> decide) fun q _ => h.lock.room q,
      update_cases (by rw [h.lock.buftag t, ht]; rfl) fun u _ => h.lock.buftag u⟩
    · refine update_cases ?_ fun q hq => ?_
      · refine update_cases ⟨nofun, nofun⟩ fun u hut => ?_
        exact ⟨nofun, fun hu => absurd hu (honly u hut)⟩
      · refine update_cases ?_ fun u _ => h.lock.held q u
        rw [h.lock.held q t, hrec]
        exact ⟨fun heq => absurd (Option.some.inj heq).symm hq, nofun⟩
    · refine update_cases ?_ fun q _ => h.lock.ckpt q
      rw [← h.lock.ckpt part, hlock]
      exact ⟨nofun, nofun⟩
    · refine update_cases nofun fun u hut q hu => ?_
      have hq : q ≠ part := fun hq => honly u hut (hq ▸ hu)
      rw [update_of_ne hq]
      exact h.lock.full u q hu
  have hsyncs : SyncsInv C s.present
      s.synced s.unsynced s.head (update s.writePos part 0) s.trunc
      (update s.backend t (.copied part v)) := by
    refine ⟨h.syncs.forward, forall_update_of_le h.syncs.renumbered nofun,
      fun q info todo htr hs hd => ?_, update_cases nofun fun u hut q x todo hu => ?_⟩
    · have hq : q ≠ part := by
        rintro rfl
        exact h.syncs.renumbered t q hhead info todo htr hd
      exact ((h.syncs.trunc q info todo htr hs hd).restrict hsub (update_of_ne hq _ _)).set nofun
    · have hq : q ≠ part := fun hq => honly u hut (by rw [hu]; exact congrArg some hq)
      rw [update_of_ne hq]
      exact ((h.syncs.recycle u q x todo hu).restrict hsub (update_of_ne hq _ _)).set nofun
  have halive : LiveInv C live s.head
      (update s.writePos part 0) s.backend := by
    refine ⟨fun q i hi => ?_, h.alive.readable, fun u x hx => ?_⟩
    · have hq : q ≠ part := fun hq => hempty i (hq ▸ hi)
      rw [update_of_ne hq]
      exact h.alive.bounds q i hi
    · obtain ⟨hlive, hC⟩ := h.alive.saved u x hx
      exact ⟨hlive, hkeep _ _ _ hlive hC⟩
  have hheads : HeadInv (update s.heads part (whole (s.head part))) s.items s.head
      live (update s.backend t (.copied part v)) := by
    refine ⟨update_cases rfl fun q _ => h.heads.whole q, ?_, ?_,
      forall_update_of_le h.heads.reset_items nofun⟩
    · refine update_cases (fun _ => ⟨le_rfl, rfl⟩) fun q hq hno => ?_
      refine h.heads.kept q (ne_of_update (fun hx => ?_) hno)
      exact absurd (Option.some.inj (hhead.symm.trans hx)).symm hq
    · refine forall_update_of_le (fun u q hu => ?_) nofun
      exact ⟨(h.heads.reset u q hu).1, forall_update_of_le (h.heads.reset u q hu).2 nofun⟩
  have hfile : FileInv s.slots s.items dwn
      (update s.writePos part 0) s.backend := by
    cases part with
    | first =>
      exact ⟨h.file.first, h.file.item, h.file.untagged, h.file.numbered, h.file.last, h.file.paged⟩
    | second =>
      have hunused : ∀ i, dwVerifyItem (s.items i) (s.head .second).dwn = false :=
        h.heads.reset_items t _ hhead rfl
      refine ⟨h.file.first, fun i hi => ?_, fun u x _ _ => hunused x.2, fun i hi => ?_,
        h.file.last, h.file.paged⟩
      · cases (hunused i).symm.trans hi
      · rw [update_self] at hi
        exact nomatch hi
  exact ⟨h.pages, h.hands.set ht (le_of_eq_some rfl),
    htaken.set nofun nofun, hlocks,
    (h.copies.restrict hsub hkeep).set ht nofun, hsyncs,
    halive.set nofun nofun, hheads,
    hfile.set ht rfl nofun⟩

/-! ## Truncation -/

theorem scanFlushed_spec (flushState : Nat → Bool) (count i : Nat) :
    i ≤ scanFlushed flushState count i ∧ scanFlushed flushState count i ≤ i + count ∧
      ∀ j, i ≤ j → j < scanFlushed flushState count i → flushState j = true := by
  induction count generalizing i with
  | zero => exact ⟨le_rfl, le_rfl, fun j hj hlt => absurd hlt hj.not_gt⟩
  | succ count ih =>
    rw [scanFlushed]
    split
    · rename_i hflushed
      obtain ⟨hle, hub, hall⟩ := ih (i + 1)
      refine ⟨by omega, by omega, fun j hj hlt => ?_⟩
      rcases hj.eq_or_lt with rfl | hj
      · exact hflushed
      · exact hall j hj hlt
    · exact ⟨le_rfl, by omega, fun j hj hlt => absurd hlt hj.not_gt⟩

section SetTrunc

variable {trunc : Part → Trunc} {T : Trunc}

theorem SyncsInv.setTrunc (h : SyncsInv C present synced unsynced head writePos trunc backend)
    (hforward : ∀ info todo, T = .syncing info todo → info.orgStart ≤ info.maxIdx)
    (hren : ∀ u, (backend u).heads? = some part → ∀ info todo, T = .syncing info todo →
      info.orgDwn ≠ (head part).dwn)
    (htrunc : ∀ info todo, T = .syncing info todo → info.orgStart = (head part).start →
      info.orgDwn = (head part).dwn →
        SyncInv C present synced unsynced writePos backend part info.maxIdx todo) :
    SyncsInv C present synced unsynced head writePos (update trunc part T) backend where
  forward := update_cases hforward fun q _ => h.forward q
  renumbered := fun u => update_cases (hren u) fun q _ => h.renumbered u q
  trunc := update_cases htrunc fun q _ => h.trunc q
  recycle := h.recycle

theorem LockInv.setTrunc (h : LockInv writePos flushLock buftagLock trunc backend)
    (hold : trunc part ≠ .heading) (hnew : T ≠ .heading) :
    LockInv writePos flushLock buftagLock (update trunc part T) backend where
  __ := h
  ckpt := by
    refine update_cases ?_ fun q _ => h.ckpt q
    rw [h.ckpt part]
    exact ⟨fun heq => absurd heq hold, fun heq => absurd heq hnew⟩

/-- The checkpointer takes the lock and, later, releases it. -/
theorem LockInv.setCkpt {lock : Option (Holder n)}
    (h : LockInv writePos flushLock buftagLock trunc backend)
    (hold : ∀ u, flushLock part ≠ some (.backend u)) (hnew : ∀ u, lock ≠ some (.backend u))
    (hckpt : lock = some .ckpt ↔ T = .heading) :
    LockInv writePos (update flushLock part lock) buftagLock (update trunc part T) backend where
  held := by
    refine update_cases (fun u => ?_) fun q _ => h.held q
    rw [← h.held part u]
    exact ⟨fun heq => absurd heq (hnew u), fun heq => absurd heq (hold u)⟩
  ckpt := by
    intro q
    by_cases hq : q = part
    · subst hq
      rw [update_self, update_self]
      exact hckpt
    · rw [update_of_ne hq, update_of_ne hq]
      exact h.ckpt q
  __ := h

end SetTrunc

theorem Inv.truncBegin (h : Inv s live) (hstep : s.truncBegin part = some s') : Inv s' live := by
  unfold St.truncBegin at hstep
  split at hstep; swap
  · cases hstep
  rename_i htr hlock
  split at hstep <;> cases hstep
  obtain ⟨hle, hub, hall⟩ := scanFlushed_spec (s.flushState part)
    (s.writePos part - (s.head part).start) (s.head part).start
  have hstart := h.taken.start_le part
  have hm : s.getMaxSingleWritePos part ≤ s.writePos part := by
    unfold St.getMaxSingleWritePos
    omega
  have hsync := SyncInv.begin h.copies h.taken hm hall
  have hheads := h.lock.not_heads fun u heq => (by cases hlock.symm.trans heq)
  refine ⟨h.pages, h.hands, h.taken,
    h.lock.setTrunc (by rw [htr]; exact nofun) nofun,
    h.copies, h.syncs.setTrunc ?_ (fun u hu => absurd hu (hheads u)) ?_, h.alive, h.heads,
    h.file⟩
  · rintro info todo heq
    cases heq
    exact hle
  · rintro info todo heq _ _
    cases heq
    exact hsync

theorem Inv.truncSync (h : Inv s live) (hstep : s.truncSync part = some s') : Inv s' live := by
  unfold St.truncSync at hstep
  split at hstep <;> cases hstep
  rename_i info p todo htr
  have hs := h.fsync p
  refine ⟨hs.pages, hs.hands, hs.taken,
    hs.lock.setTrunc (by rw [show (s.sync p).trunc part = _ from htr]; exact nofun) nofun,
    hs.copies, hs.syncs.setTrunc ?_ ?_ ?_, hs.alive, hs.heads, hs.file⟩
  · rintro _ _ heq
    cases heq
    exact h.syncs.forward part info _ htr
  · rintro u hu _ _ heq
    cases heq
    exact h.syncs.renumbered u part hu info _ htr
  · rintro _ _ heq hstart hdwn
    cases heq
    exact (h.syncs.trunc part info _ htr hstart hdwn).next h.pages h.copies
      fun u x hx => (Backend.slot?_of_saved? hx).1

theorem Inv.truncEnd (h : Inv s live) (hstep : s.truncEnd part = some s') :
    ∃ live', Inv s' live' := by
  unfold St.truncEnd at hstep
  split at hstep; swap
  · cases hstep
  rename_i info htr
  have hsyncing : s.trunc part ≠ .heading := by
    rw [htr]
    exact nofun
  split at hstep
  · -- The file is being flushed to, or its head is another one since the truncation began.
    cases hstep
    exact ⟨live, h.pages, h.hands, h.taken, h.lock.setTrunc hsyncing nofun,
      h.copies, h.syncs.setTrunc nofun nofun nofun, h.alive, h.heads, h.file⟩
  rename_i hno
  cases hstep
  set moved : FileHead := ⟨info.maxIdx, (s.head part).dwn⟩
  have hlock : s.flushLock part = none := not_not.mp (not_or.mp hno).1
  have hstart : info.orgStart = (s.head part).start := not_not.mp (not_or.mp (not_or.mp hno).2).1
  have hdwn : info.orgDwn = (s.head part).dwn := not_not.mp (not_or.mp (not_or.mp hno).2).2
  have hsync := h.syncs.trunc part info [] htr hstart hdwn
  have hforward := h.syncs.forward part info [] htr
  have hfree : ∀ u, s.flushLock part ≠ some (.backend u) :=
    fun u heq => (by cases hlock.symm.trans heq)
  have hheads := h.lock.not_heads hfree
  have hnumber : ∀ q, (update s.head part moved q).dwn = (s.head q).dwn :=
    update_cases rfl fun _ _ => rfl
  have htaken : TakenInv (update s.head part moved) s.writePos s.flushState s.backend := by
    refine ⟨fun u x hx => ?_, h.taken.owner,
      update_cases hsync.le fun q _ => h.taken.start_le q, h.taken.fresh, fun u q hu => ?_⟩
    · by_cases hq : x.1 = part
      · rw [hq, update_self]
        exact ⟨hsync.behind u x hx hq, hq ▸ (h.taken.taken u x hx).2⟩
      · rw [update_of_ne hq]
        exact h.taken.taken u x hx
    · have hq : q ≠ part := fun hq => hheads u (hq ▸ hu)
      rw [update_of_ne hq]
      exact h.taken.reset u q hu
  have hsyncs : SyncsInv s.Copy s.present s.synced s.unsynced (update s.head part moved) s.writePos
      (update s.trunc part .heading) s.backend := by
    have hset : SyncsInv s.Copy s.present s.synced s.unsynced s.head s.writePos
        (update s.trunc part .heading) s.backend :=
      h.syncs.setTrunc nofun nofun nofun
    refine ⟨hset.forward, fun u q hu info' todo hq => ?_, fun q info' todo hq hs hd => ?_,
      hset.recycle⟩
    · rw [hnumber q]
      exact hset.renumbered u q hu info' todo hq
    · rw [update_of_ne (of_update_eq hq nofun).1] at hs hd
      exact hset.trunc q info' todo hq hs hd
  have halive : LiveInv s.Copy (dropped live part info.maxIdx) (update s.head part moved) s.writePos
      s.backend := by
    have hdrop := h.alive.drop hsync.behind
    exact ⟨update_cases (fun i hi => ⟨hi.2 rfl, (hdrop.bounds part i hi).2⟩)
      fun q _ => hdrop.bounds q, hdrop.readable, hdrop.saved⟩
  have hhead : HeadInv s.heads s.items (update s.head part moved) (dropped live part info.maxIdx)
      s.backend := by
    refine ⟨h.heads.whole, ?_, h.heads.drop.reset, fun u q hu hsecond => ?_⟩
    · refine update_cases (fun hq => ?_) fun q _ => h.heads.kept q
      obtain ⟨hle, heq⟩ := h.heads.kept part hq
      exact ⟨hle.trans (hstart ▸ hforward), heq⟩
    · rw [hnumber]
      exact h.heads.reset_items u q hu hsecond
  exact ⟨dropped live part info.maxIdx, h.pages, h.hands, htaken,
    h.lock.setCkpt hfree nofun ⟨fun _ => rfl, fun _ => rfl⟩,
    h.copies.drop hsync, hsyncs, halive, hhead, h.file⟩

theorem Inv.truncHead (h : Inv s live) (hstep : s.truncHead part = some s') : Inv s' live := by
  unfold St.truncHead at hstep
  split at hstep <;> cases hstep
  rename_i htr
  have hlock : s.flushLock part = some .ckpt := (h.lock.ckpt part).mpr htr
  have hfree : ∀ u, s.flushLock part ≠ some (.backend u) :=
    fun u heq => (by cases hlock.symm.trans heq)
  have hheads := h.lock.not_heads hfree
  have hkept := h.heads.kept part hheads
  have hdwn : (update s.heads part (whole (s.head part)) .second).first.dwn =
      (s.heads .second).first.dwn := by
    rw [dwn_update]
    split
    · rename_i hpart
      subst hpart
      exact hkept.2.symm
    · rfl
  have hC : Copy s.slots s.items
      (update s.heads part (whole (s.head part)) .second).first.dwn = s.Copy := by
    rw [hdwn]
  have hhead : HeadInv (update s.heads part (whole (s.head part))) s.items s.head
      live s.backend :=
    ⟨update_cases rfl fun q _ => h.heads.whole q,
      update_cases (fun _ => ⟨le_rfl, rfl⟩) fun q _ => h.heads.kept q, h.heads.reset,
      h.heads.reset_items⟩
  have hfile : FileInv s.slots s.items
      (update s.heads part (whole (s.head part)) .second).first.dwn s.writePos
      s.backend := by
    rw [hdwn]
    exact h.file
  have hsyncs : SyncsInv s.Copy s.present s.synced s.unsynced s.head s.writePos
      (update s.trunc part .none) s.backend :=
    h.syncs.setTrunc nofun nofun nofun
  exact ⟨h.pages, h.hands, h.taken,
    h.lock.setCkpt hfree nofun ⟨nofun, nofun⟩,
    h.copies.of_eq hC, hsyncs.of_eq hC, h.alive.of_eq hC, hhead, hfile⟩

end OpenGauss.SingleWrite
