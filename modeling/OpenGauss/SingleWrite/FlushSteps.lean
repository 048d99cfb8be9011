import OpenGauss.SingleWrite.PageSteps

/-!
# A page is flushed through a slot

The steps of a backend from the copy of its page to the mark that the slot is
flushed. A copy becomes readable when its slot is written, in the second part
when its tag is; from then on the slot is live.
-/

namespace OpenGauss.SingleWrite

open Lib
open DoubleWrite (FileHead u16)
open Function (update update_of_ne update_self)

variable {n : Nat} {s s' : St n} {live : Part → Nat → Prop} {t : Fin n}
variable {backend : Fin n → Backend} {dwn pos : Nat} {items : Nat → FlushItem} {v : PageVersion}
  {part q : Part} {writePos : Part → Nat} {slots : Part → Nat → Slot} {trunc : Part → Trunc}
  {b : Backend} {C C' : Part → Nat → PageVersion → Prop} {present : PhyTag → Bool}
  {synced : PhyTag → Sectors 15 BlockImage} {unsynced : List DataWrite} {head : Part → FileHead}

theorem Inv.copyPage {p : PhyTag} (h : Inv s live) (hstep : s.copyPage t part p = some s') :
    Inv s' live := by
  unfold St.copyPage at hstep
  split at hstep; swap
  · cases hstep
  rename_i v ht hv
  split at hstep; swap
  · cases hstep
  rename_i hok
  obtain ⟨hvalid, hfree⟩ := hok
  cases hstep
  have htag : v.tag = p := (h.pages.buf_ok p v hv).1
  have hhand : Hand s.synced s.unsynced s.buf s.insertPos v := by
    subst htag
    have hnewest : newest s.buf s.insertPos v.tag = v.lsn := newest_of_some hv
    refine ⟨hvalid, by rw [hv]; exact Option.some_ne_none v, by rw [hnewest], ?_, ?_⟩
    · rw [← hnewest]
      exact h.pages.synced_le v.tag
    · intro w hw hwtag
      rw [← hnewest, ← hwtag]
      exact h.pages.unsynced_le w hw
  refine ⟨h.pages, ⟨forall_update h.hands.hand ?_, ?_⟩,
    h.taken.set nofun nofun,
    h.lock.set ht rfl rfl, h.copies.set ht nofun,
    h.syncs.set nofun nofun nofun,
    h.alive.set nofun nofun,
    h.heads.set ht rfl nofun,
    h.file.set ht rfl nofun⟩
  · intro x hx
    cases hx
    exact hhand
  · -- nobody else is busy with the page
    have hother : ∀ u x, (s.backend u).copy? = some x → x.tag ≠ v.tag := fun u x hx =>
      htag ▸ hfree u x hx
    refine forall_update (fun u x hx => forall_update (h.hands.owner u x hx) ?_) ?_
    · intro y hy heq
      cases hy
      exact absurd heq.symm (hother u x hx)
    · intro x hx
      cases hx
      exact forall_update (fun u y hy heq => absurd heq (hother u y hy)) fun _ _ _ => rfl

/-! ## Taking a slot -/

section Take

variable {flushState : Part → Nat → Bool}

/-- The write positions after a slot of `part` was taken. -/
abbrev taking (writePos : Part → Nat) (part : Part) : Part → Nat :=
  update writePos part (writePos part + 1)

theorem taking_self : taking writePos part part = writePos part + 1 := update_self _ _ _

theorem taking_of_ne (h : q ≠ part) : taking writePos part q = writePos q := update_of_ne h _ _

theorem le_taking (q : Part) : writePos q ≤ taking writePos part q := by
  unfold taking
  exact update_cases (Nat.le_succ _) (fun _ _ => le_rfl) q

theorem TakenInv.take (h : TakenInv head writePos flushState backend)
    (hslot : b.slot? = some (part, writePos part)) (hheads : b.heads? = none) :
    TakenInv head (taking writePos part) flushState (update backend t b) where
  taken := by
    refine forall_update (fun u x hx => ?_) fun x hx => ?_
    · obtain ⟨hstart, hlt, hflush⟩ := h.taken u x hx
      exact ⟨hstart, hlt.trans_le (le_taking _), hflush⟩
    · obtain rfl := Option.some.inj (hslot.symm.trans hx)
      refine ⟨h.start_le part, ?_, h.fresh part _ le_rfl⟩
      rw [taking_self]
      exact Nat.lt_succ_self _
  owner := by
    have hnew : ∀ u, (backend u).slot? ≠ some (part, writePos part) := fun u hu =>
      lt_irrefl _ (h.taken u _ hu).2.1
    refine forall_update (fun u x hx => ?_) fun x hx => ?_
    · refine update_cases (fun hx' => ?_) fun u' _ => h.owner u x hx u'
      rw [hslot.symm.trans hx'] at hnew
      exact absurd hx (hnew u)
    · refine update_cases (fun _ => rfl) fun u' _ hx' => ?_
      rw [hslot.symm.trans hx] at hnew
      exact absurd hx' (hnew u')
  start_le := fun q => (h.start_le q).trans (le_taking q)
  fresh := fun q i hi => h.fresh q i ((le_taking q).trans hi)
  reset := forall_update_of_le h.reset (forall_of_none hheads)

theorem LockInv.take {flushLock : Part → Option (Holder n)} {buftagLock : Option (Fin n)}
    (h : LockInv writePos flushLock buftagLock trunc backend)
    (hroom : writePos part + 1 < part.pageNum) :
    LockInv (taking writePos part) flushLock buftagLock trunc backend where
  __ := h
  full := fun u q hu => (h.full u q hu).trans (Nat.succ_le_succ (le_taking q))
  room := by
    unfold taking
    exact update_cases hroom fun q _ => h.room q

theorem SyncInv.take {m : Nat} {todo : List PhyTag}
    (h : SyncInv C present synced unsynced writePos backend q m todo)
    (hslot : b.slot? = some (part, writePos part)) :
    SyncInv C present synced unsynced (taking writePos part) (update backend t b) q m todo where
  le := h.le.trans (le_taking q)
  behind := by
    refine forall_update h.behind fun x hx hq => ?_
    obtain rfl := Option.some.inj (hslot.symm.trans hx)
    obtain rfl : part = q := hq
    exact h.le
  __ := h

theorem FileInv.take (h : FileInv slots items dwn writePos backend)
    (hold : (backend t).unsaved? = none) (hnew : b.unsaved? = some (part, writePos part))
    (hpaged : b.paged? = none) :
    FileInv slots items dwn (taking writePos part) (update backend t b) where
  __ := h
  item := fun i hi => ⟨Nat.lt_of_lt_of_le (h.item i hi).1 (le_taking _), (h.item i hi).2⟩
  untagged := by
    refine forall_update h.untagged fun x hx hsecond => ?_
    obtain rfl := Option.some.inj (hnew.symm.trans hx)
    obtain rfl : part = .second := hsecond
    by_contra hvalid
    exact lt_irrefl _ (h.item _ (Bool.not_eq_false _ ▸ hvalid)).1
  numbered := by
    intro i hi hno
    have hne : part = .second → i ≠ writePos .second := by
      rintro rfl rfl
      have := hno t
      rw [update_self] at this
      exact this hnew
    have hlt : i < writePos .second := by
      by_cases hpart : part = .second
      · subst hpart
        rw [taking_self] at hi
        have := hne rfl
        omega
      · rwa [taking_of_ne (Ne.symm hpart)] at hi
    exact h.numbered i hlt (ne_of_update (fun hx => nomatch hold.symm.trans hx) hno)
  paged := forall_update_of_le h.paged (forall_of_none hpaged)

end Take

theorem Inv.takeSlot (h : Inv s live) (hstep : s.takeSlot t = some s') : Inv s' live := by
  unfold St.takeSlot at hstep
  split at hstep; swap
  · cases hstep
  rename_i part v ht
  split at hstep <;> cases hstep
  rename_i hroom
  -- the part is not being started over
  have hfull : ∀ u, (s.backend u).recycles ≠ some part := by
    intro u hu
    have := h.lock.full u part hu
    omega
  have hsyncs : SyncsInv s.Copy s.present s.synced s.unsynced s.head
      (taking s.writePos part) s.trunc
      (update s.backend t (.slotted part v (s.writePos part))) := by
    refine ⟨h.syncs.forward, forall_update_of_le h.syncs.renumbered nofun,
      fun q info todo htr hstart hdwn => (h.syncs.trunc q info todo htr hstart hdwn).take rfl,
      update_cases nofun fun u _ q w todo hu => ?_⟩
    have hq : q ≠ part := fun hq => hfull u (by rw [hu]; exact congrArg some hq)
    rw [taking_of_ne hq]
    exact (h.syncs.recycle u q w todo hu).take rfl
  have halive : LiveInv s.Copy live s.head (taking s.writePos part)
      (update s.backend t (.slotted part v (s.writePos part))) := by
    refine ⟨fun q i hi => ?_, forall_update h.alive.readable fun x hx hlive => ?_,
      forall_update_of_le h.alive.saved nofun⟩
    · obtain ⟨hstart, hlt⟩ := h.alive.bounds q i hi
      exact ⟨hstart, hlt.trans_le (le_taking q)⟩
    · cases hx
      exact lt_irrefl _ (h.alive.bounds _ _ hlive).2
  have hheads : HeadInv s.heads s.items s.head live
      (update s.backend t (.slotted part v (s.writePos part))) := by
    refine ⟨h.heads.whole, fun q hno => h.heads.kept q (ne_of_update ?_ hno), ?_,
      forall_update_of_le h.heads.reset_items nofun⟩
    · intro hx
      rw [ht] at hx
      cases hx
    · refine forall_update_of_le (fun u q hu => ?_) nofun
      refine ⟨(h.heads.reset u q hu).1, forall_update (h.heads.reset u q hu).2 ?_⟩
      rintro x hx rfl
      cases hx
      exact hfull u (Backend.recycles_of_heads? hu)
  exact ⟨h.pages, h.hands.set ht (le_of_eq_some rfl), h.taken.take rfl rfl,
    (h.lock.take hroom).set ht rfl rfl,
    h.copies.set ht nofun, hsyncs, halive, hheads,
    h.file.take (by rw [ht]; rfl) rfl rfl⟩

/-! ## A copy becomes readable -/

theorem writeSlot_self (slots : Part → Nat → Slot) (part : Part) (pos : Nat) (page : SlotPage) :
    writeSlot slots part pos page part pos = Sectors.whole page := by
  rw [writeSlot, update_self, update_self]

theorem writeSlot_of_ne {i : Nat} {page : SlotPage} (h : (q, i) ≠ (part, pos)) :
    writeSlot slots part pos page q i = slots q i := by
  unfold writeSlot
  by_cases hq : q = part
  · subst hq
    have hi : i ≠ pos := fun hi => h (by rw [hi])
    rw [update_self, update_of_ne hi]
  · rw [update_of_ne hq]

theorem Copy.verified {i : Nat} (h : Copy slots items dwn .second i v) :
    dwVerifyItem (items i) dwn = true := by
  obtain ⟨hitem, hvalid, _⟩ := h
  rw [hitem, dwVerifyItem]
  exact decide_eq_true ⟨rfl, hvalid⟩

/-- The slot `pos` of `part` now has the copy `v`. -/
structure Grows (C C' : Part → Nat → PageVersion → Prop) (part : Part) (pos : Nat)
    (v : PageVersion) : Prop where
  new : ∀ q i x, C' q i x → C q i x ∨ (q, i) = (part, pos) ∧ x = v
  keeps : ∀ q i x, C q i x → (q, i) ≠ (part, pos) → C' q i x
  self : C' part pos v

def grown (live : Part → Nat → Prop) (part : Part) (pos : Nat) : Part → Nat → Prop :=
  fun q i => live q i ∨ (q, i) = (part, pos)

section Grow

variable {buf : PhyTag → Option PageVersion} {insertPos : Nat}

theorem CopyInv.grow (h : CopyInv C live present synced unsynced buf insertPos backend)
    (hg : Grows C C' part pos v) (hnot : ¬live part pos)
    (hle : v.lsn ≤ newest buf insertPos v.tag) (hold : (backend t).saved? = none)
    (hb : b.saved? = some (part, pos, v)) :
    CopyInv C' (grown live part pos) present synced unsynced buf insertPos
      (update backend t b) where
  covered := by
    intro w hw
    obtain ⟨hlive, c, hc, hrest⟩ := h.covered w hw
    refine ⟨.inl hlive, c, hg.keeps _ _ c hc fun heq => ?_, hrest⟩
    obtain ⟨hpart, hpos⟩ := Prod.mk.inj heq
    exact hnot (hpart ▸ hpos ▸ hlive)
  le_newest := by
    intro q i x hx
    rcases hg.new q i x hx with hx | ⟨_, rfl⟩
    · exact h.le_newest q i x hx
    · exact hle
  settled := by
    intro q i x hx
    rcases hg.new q i x hx with hx | ⟨heq, rfl⟩
    · rcases h.settled q i x hx with ⟨u, hu⟩ | ⟨hlive, hw⟩ | hstale
      · have hut : u ≠ t := by
          rintro rfl
          cases hold.symm.trans hu
        refine .inl ⟨u, ?_⟩
        rwa [update_of_ne hut]
      · exact .inr (.inl ⟨.inl hlive, hw⟩)
      · exact .inr (.inr hstale)
    · refine .inl ⟨t, ?_⟩
      cases heq
      rw [update_self, hb]

theorem SyncInv.grow {m : Nat} {todo : List PhyTag}
    (h : SyncInv C present synced unsynced writePos backend q m todo) (hg : Grows C C' part pos v)
    (hslot : (backend t).slot? = some (part, pos)) :
    SyncInv C' present synced unsynced writePos backend q m todo where
  __ := h
  stale := by
    intro i x hi hx
    rcases hg.new q i x hx with hx | ⟨heq, _⟩
    · exact h.stale i x hi hx
    cases heq
    have := h.behind t _ hslot rfl
    simp only at this
    omega

theorem SyncsInv.grow (h : SyncsInv C present synced unsynced head writePos trunc backend)
    (hg : Grows C C' part pos v) (hslot : (backend t).slot? = some (part, pos)) :
    SyncsInv C' present synced unsynced head writePos trunc backend where
  __ := h
  trunc := fun q info todo htr hstart hdwn => (h.trunc q info todo htr hstart hdwn).grow hg hslot
  recycle := fun u q w todo hu => (h.recycle u q w todo hu).grow hg hslot

theorem LiveInv.grow {flushState : Part → Nat → Bool} (h : LiveInv C live head writePos backend)
    (htaken : TakenInv head writePos flushState backend) (hg : Grows C C' part pos v)
    (hslot : (backend t).slot? = some (part, pos)) (hnot : ¬live part pos)
    (hunsaved : b.unsaved? = none) (hb : b.saved? = some (part, pos, v)) :
    LiveInv C' (grown live part pos) head writePos (update backend t b) where
  bounds := by
    rintro q i (hlive | heq)
    · exact h.bounds q i hlive
    · cases heq
      obtain ⟨hstart, hlt, _⟩ := htaken.taken t _ hslot
      exact ⟨hstart, hlt⟩
  readable := by
    refine update_cases (forall_of_none hunsaved) fun u hut x hx hlive => ?_
    rcases hlive with hlive | heq
    · exact h.readable u x hx hlive
    have hux : (backend u).slot? = some (part, pos) := by
      rw [Backend.slot?_of_unsaved? hx]
      exact congrArg some heq
    exact hut (htaken.owner t _ hslot u hux)
  saved := by
    refine forall_update (fun u x hx => ?_) fun x hx => ?_
    · obtain ⟨hlive, hc⟩ := h.saved u x hx
      refine ⟨.inl hlive, hg.keeps _ _ _ hc fun heq => ?_⟩
      obtain ⟨hpart, hpos⟩ := Prod.mk.inj heq
      exact hnot (hpart ▸ hpos ▸ hlive)
    · obtain rfl := Option.some.inj (hb.symm.trans hx)
      exact ⟨.inr rfl, hg.self⟩

theorem HeadInv.grow {heads : Part → Sectors 2 FileHead} {items' : Nat → FlushItem}
    (h : HeadInv heads items head live backend) (hslot : (backend t).slot? = some (part, pos))
    (hitems : part = .first → items' = items) :
    HeadInv heads items' head (grown live part pos) backend where
  __ := h
  reset := by
    intro u q hu
    refine ⟨?_, (h.reset u q hu).2⟩
    rintro i (hlive | heq)
    · exact (h.reset u q hu).1 i hlive
    · exact (h.reset u q hu).2 t _ hslot (Prod.mk.inj heq).1.symm
  reset_items := by
    intro u q hu hq
    cases part with
    | first =>
      rw [hitems rfl]
      exact h.reset_items u q hu hq
    | second => exact absurd hq.symm ((h.reset u q hu).2 t _ hslot)

theorem CopyInv.of_eq (h : CopyInv C live present synced unsynced buf insertPos backend)
    (hC : C' = C) : CopyInv C' live present synced unsynced buf insertPos backend :=
  hC ▸ h

theorem SyncsInv.of_eq (h : SyncsInv C present synced unsynced head writePos trunc backend)
    (hC : C' = C) : SyncsInv C' present synced unsynced head writePos trunc backend :=
  hC ▸ h

theorem LiveInv.of_eq (h : LiveInv C live head writePos backend) (hC : C' = C) :
    LiveInv C' live head writePos backend :=
  hC ▸ h

end Grow

theorem grows_writeSlot_first (slots : Part → Nat → Slot) (items : Nat → FlushItem) (dwn pos d : Nat)
    (v : PageVersion) :
    Grows (Copy slots items dwn)
      (Copy (writeSlot slots .first pos (savedPage .first d v)) items dwn) .first pos v where
  new := by
    intro q i x hx
    by_cases hne : (q, i) = (Part.first, pos)
    · cases hne
      obtain ⟨d', hd'⟩ := hx
      rw [writeSlot_self] at hd'
      have hpage : savedPage .first d v = savedPage .first d' x := congrFun hd' 0
      injection hpage with hv
      exact .inr ⟨rfl, hv.symm⟩
    · left
      cases q with
      | first =>
        obtain ⟨d', hd'⟩ := hx
        rw [writeSlot_of_ne hne] at hd'
        exact ⟨d', hd'⟩
      | second =>
        obtain ⟨hitem, hvalid, hslot⟩ := hx
        rw [writeSlot_of_ne hne] at hslot
        exact ⟨hitem, hvalid, hslot⟩
  keeps := by
    intro q i x hx hne
    cases q with
    | first =>
      obtain ⟨d', hd'⟩ := hx
      exact ⟨d', by rw [writeSlot_of_ne hne, hd']⟩
    | second =>
      obtain ⟨hitem, hvalid, hslot⟩ := hx
      exact ⟨hitem, hvalid, by rw [writeSlot_of_ne hne, hslot]⟩
  self := ⟨d, writeSlot_self _ _ _ _⟩

/-- A slot of the second part cannot be read before its tag is written. -/
theorem copy_writeSlot_second (slots : Part → Nat → Slot) (page : SlotPage)
    (huntagged : dwVerifyItem (items pos) dwn = false) :
    Copy (writeSlot slots .second pos page) items dwn = Copy slots items dwn := by
  funext q i x
  by_cases hne : (q, i) = (Part.second, pos)
  · cases hne
    apply propext
    constructor
    · intro hx
      cases huntagged.symm.trans hx.verified
    · intro hx
      cases huntagged.symm.trans hx.verified
  · cases q with
    | first | second => simp only [Copy, writeSlot_of_ne hne]

theorem grows_pwriteTag (items : Nat → FlushItem)
    (hslot : slots .second pos = Sectors.whole (savedPage .second dwn v)) (hvalid : v.tag.Valid) :
    Grows (Copy slots items dwn)
      (Copy slots (update items pos ⟨pos, dwn, v.tag⟩) dwn) .second pos v where
  new := by
    intro q i x hx
    cases q with
    | first => exact .inl hx
    | second =>
      obtain ⟨hitem, hxvalid, hxslot⟩ := hx
      by_cases hi : i = pos
      · subst hi
        have hpage : savedPage .second dwn v = savedPage .second dwn x :=
          congrFun (hslot.symm.trans hxslot) 0
        injection hpage with hv
        exact .inr ⟨rfl, hv.symm⟩
      · rw [update_of_ne hi] at hitem
        exact .inl ⟨hitem, hxvalid, hxslot⟩
  keeps := by
    intro q i x hx hne
    cases q with
    | first => exact hx
    | second =>
      obtain ⟨hitem, hxvalid, hxslot⟩ := hx
      have hi : i ≠ pos := fun hi => hne (by rw [hi])
      exact ⟨by rw [update_of_ne hi, hitem], hxvalid, hxslot⟩
  self := ⟨update_self _ _ _, hvalid, hslot⟩

theorem FileInv.writeSlot_first (h : FileInv slots items dwn writePos backend) (pos d : Nat)
    (v : PageVersion) :
    FileInv (writeSlot slots .first pos (savedPage .first d v)) items dwn writePos backend where
  first := by
    intro i page hpage
    by_cases hi : (Part.first, i) = (Part.first, pos)
    · obtain ⟨_, rfl⟩ := Prod.mk.inj hi
      rw [writeSlot_self] at hpage
      exact .inr ⟨d, v, (congrFun hpage 0).symm⟩
    · rw [writeSlot_of_ne hi] at hpage
      exact h.first i page hpage
  item := by
    intro i hi
    obtain ⟨hlt, x, hx⟩ := h.item i hi
    exact ⟨hlt, x, (grows_writeSlot_first slots items dwn pos d v).keeps _ i x hx
      (fun heq => (by cases (Prod.mk.inj heq).1))⟩
  __ := h
  paged := fun u x hx => by
    rw [writeSlot_of_ne fun heq => (by cases (Prod.mk.inj heq).1)]
    exact h.paged u x hx

theorem FileInv.writeSlot_second {d : Nat} (h : FileInv slots items dwn writePos backend)
    (htaken : ∀ u, (backend u).slot? = some (.second, pos) → u = t)
    (hold : (backend t).unsaved? = some (.second, pos)) :
    FileInv (writeSlot slots .second pos (savedPage .second d v)) items dwn writePos
      (update backend t (.paged v pos)) where
  first := fun i page hpage => by
    rw [writeSlot_of_ne fun heq => (by cases (Prod.mk.inj heq).1)] at hpage
    exact h.first i page hpage
  item := by
    rw [copy_writeSlot_second _ _ (h.untagged t _ hold rfl)]
    exact h.item
  untagged := forall_update_of_le h.untagged (le_of_eq_some hold.symm)
  numbered := fun i hi hno =>
    h.numbered i hi (ne_of_update (b := .paged v pos) (fun hx => hold.symm.trans hx) hno)
  last := h.last
  paged := by
    refine update_cases (fun x hx => ?_) fun u hut x hx => ?_
    · cases hx
      exact writeSlot_self _ _ _ _
    rw [writeSlot_of_ne]
    · exact h.paged u x hx
    · intro heq
      refine hut (htaken u ?_)
      rw [Backend.slot?_of_paged? hx]
      exact congrArg some heq

theorem Inv.pwriteSlot (h : Inv s live) (hstep : s.pwriteSlot t = some s') :
    ∃ live', Inv s' live' := by
  unfold St.pwriteSlot at hstep
  split at hstep <;> cases hstep
  rename_i part v pos ht
  have hslot : (s.backend t).slot? = some (part, pos) := by rw [ht]; rfl
  have hunsaved : (s.backend t).unsaved? = some (part, pos) := by rw [ht]; rfl
  have hnot : ¬live part pos := h.alive.readable t _ hunsaved
  have hhand := h.hands.hand t v (by rw [ht]; rfl)
  cases part with
  | first =>
    have hg := grows_writeSlot_first s.slots s.items (s.heads .second).first.dwn pos
      (s.head .first).dwn v
    refine ⟨grown live .first pos, h.pages, h.hands.set ht (le_of_eq_some rfl),
      h.taken.set (le_of_eq_some (by rw [ht]; rfl)) nofun,
      h.lock.set ht rfl rfl,
      h.copies.grow hg hnot hhand.le_newest (by rw [ht]; rfl) rfl,
      (h.syncs.grow hg hslot).set (le_of_eq_some (by rw [ht]; rfl)) nofun nofun,
      h.alive.grow h.taken hg hslot hnot rfl rfl,
      (h.heads.grow hslot fun _ => rfl).set ht rfl (le_of_eq_some rfl),
      ?_⟩
    -- the slot was not one of the second part
    have hfile := h.file.writeSlot_first pos (s.head .first).dwn v
    refine ⟨hfile.first, hfile.item, forall_update_of_le hfile.untagged nofun,
      fun i hi hno => hfile.numbered i hi (ne_of_update (fun hx => ?_) hno), hfile.last,
      forall_update_of_le hfile.paged nofun⟩
    cases hunsaved.symm.trans hx
  | second =>
    have hC := copy_writeSlot_second s.slots
      (savedPage .second (s.head .second).dwn v) (h.file.untagged t _ hunsaved rfl)
    have hfile := h.file.writeSlot_second (d := (s.head .second).dwn) (v := v)
      (h.taken.owner t _ hslot) hunsaved
    refine ⟨live, h.pages, h.hands.set ht (le_of_eq_some rfl),
      h.taken.set (le_of_eq_some (by rw [ht]; rfl)) nofun,
      h.lock.set ht rfl rfl,
      (h.copies.set ht nofun).of_eq hC,
      (h.syncs.set (le_of_eq_some (by rw [ht]; rfl)) (forall_of_none rfl)
        (fun _ _ _ hb => (by cases hb))).of_eq hC,
      (h.alive.set (le_of_eq_some (by rw [ht]; rfl)) (forall_of_none rfl)).of_eq hC,
      h.heads.set ht rfl (le_of_eq_some rfl), hfile⟩

/-! ## The tag of a slot -/

theorem Inv.lockBuftag (h : Inv s live) (hstep : s.lockBuftag t = some s') : Inv s' live := by
  unfold St.lockBuftag at hstep
  split at hstep <;> cases hstep
  rename_i v pos ht hlock
  have hidle : ∀ u, (s.backend u).tags = false := by
    intro u
    by_contra htags
    have := (h.lock.buftag u).mpr (Bool.not_eq_false _ ▸ htags)
    cases hlock.symm.trans this
  have hheld : LockInv s.writePos s.flushLock (some t) s.trunc
      (update s.backend t (.tagging v pos)) := by
    refine ⟨fun q => update_cases (by rw [h.lock.held q t, ht]; rfl) fun u _ => h.lock.held q u,
      h.lock.ckpt, forall_update_of_le h.lock.full nofun, h.lock.room, ?_⟩
    refine update_cases ⟨fun _ => rfl, fun _ => rfl⟩ fun u hut => ?_
    rw [hidle u]
    exact ⟨fun heq => absurd (Option.some.inj heq).symm hut, nofun⟩
  exact ⟨h.pages, h.hands.set ht (le_of_eq_some rfl),
    h.taken.set (le_of_eq_some (by rw [ht]; rfl)) nofun, hheld,
    h.copies.set ht nofun,
    h.syncs.set (le_of_eq_some (by rw [ht]; rfl)) nofun nofun,
    h.alive.set (le_of_eq_some (by rw [ht]; rfl)) nofun,
    h.heads.set ht rfl (le_of_eq_some rfl),
    h.file.set ht rfl (le_of_eq_some rfl)⟩

/-- The number in the file head on disk is the one in memory while a slot is taken. -/
theorem HeadInv.dwn_eq {heads : Part → Sectors 2 FileHead} {head : Part → FileHead}
    (h : HeadInv heads items head live backend) (hslot : (backend t).slot? = some (part, pos)) :
    (heads part).first.dwn = (head part).dwn :=
  (h.kept part fun u hu => (h.reset u part hu).2 t _ hslot rfl).2

theorem FileInv.pwriteTag (h : FileInv slots items dwn writePos backend)
    (hlt : pos < writePos .second) (hroom : writePos .second + 1 ≤ Part.second.pageNum)
    (howner : ∀ u, (backend u).slot? = some (.second, pos) → u = t)
    (hold : (backend t).paged? = some (v, pos)) (hvalid : v.tag.Valid) :
    FileInv slots (update items pos ⟨pos, dwn, v.tag⟩) dwn writePos
      (update backend t (.saved .second v pos)) where
  first := h.first
  item := by
    have hg := grows_pwriteTag items (h.paged t _ hold) hvalid
    refine update_cases (fun _ => ⟨hlt, v, hg.self⟩) fun i hpos hi => ?_
    obtain ⟨hiw, x, hx⟩ := h.item i hi
    exact ⟨hiw, x, hg.keeps _ i x hx fun heq => hpos (Prod.mk.inj heq).2⟩
  untagged := by
    refine update_cases nofun fun u hut x hx hsecond => ?_
    have hpos : x.2 ≠ pos := by
      rintro rfl
      refine hut (howner u ?_)
      rw [Backend.slot?_of_unsaved? hx, ← hsecond]
    rw [update_of_ne hpos]
    exact h.untagged u x hx hsecond
  numbered := by
    refine update_cases (fun _ _ => rfl) fun i hpos hi hno => ?_
    refine h.numbered i hi (ne_of_update (fun hx => ?_) hno)
    have hsame := (Backend.slot?_of_paged? hold).symm.trans (Backend.slot?_of_unsaved? hx)
    exact absurd (Prod.mk.inj (Option.some.inj hsame)).2.symm hpos
  last := by
    intro i hi
    have hpos : i ≠ pos := by omega
    rw [update_of_ne hpos]
    exact h.last i hi
  paged := forall_update_of_le h.paged nofun

theorem Inv.pwriteTag (h : Inv s live) (hstep : s.pwriteTag t = some s') :
    ∃ live', Inv s' live' := by
  unfold St.pwriteTag at hstep
  split at hstep <;> cases hstep
  rename_i v pos ht
  have hslot : (s.backend t).slot? = some (.second, pos) := by rw [ht]; rfl
  have hunsaved : (s.backend t).unsaved? = some (.second, pos) := by rw [ht]; rfl
  have hpaged : (s.backend t).paged? = some (v, pos) := by rw [ht]; rfl
  have hnot : ¬live .second pos := h.alive.readable t _ hunsaved
  have hhand := h.hands.hand t v (by rw [ht]; rfl)
  have hitem : s.flushItem v pos = ⟨pos, (s.heads .second).first.dwn, v.tag⟩ := by
    rw [St.flushItem, h.heads.dwn_eq hslot]
  have hg := grows_pwriteTag s.items (h.file.paged t _ hpaged) hhand.valid
  rw [hitem]
  have hheld : LockInv s.writePos s.flushLock none s.trunc
      (update s.backend t (.saved .second v pos)) := by
    refine ⟨fun q => update_cases (by rw [h.lock.held q t, ht]; rfl) fun u _ => h.lock.held q u,
      h.lock.ckpt, forall_update_of_le h.lock.full nofun, h.lock.room, ?_⟩
    refine update_cases ⟨nofun, nofun⟩ fun u hut => ⟨nofun, fun htags => ?_⟩
    have htlock := (h.lock.buftag t).mpr (by rw [ht]; rfl)
    have hulock := (h.lock.buftag u).mpr htags
    exact absurd (Option.some.inj (hulock.symm.trans htlock)) hut
  exact ⟨grown live .second pos, h.pages, h.hands.set ht (le_of_eq_some rfl),
    h.taken.set (le_of_eq_some (by rw [ht]; rfl)) nofun, hheld,
    h.copies.grow hg hnot hhand.le_newest (by rw [ht]; rfl) rfl,
    (h.syncs.grow hg hslot).set (le_of_eq_some (by rw [ht]; rfl)) nofun nofun,
    h.alive.grow h.taken hg hslot hnot rfl rfl,
    (h.heads.grow hslot nofun).set ht rfl (le_of_eq_some rfl),
    h.file.pwriteTag (h.taken.taken t _ hslot).2.1 (h.lock.room .second) (h.taken.owner t _ hslot)
      hpaged hhand.valid⟩

/-! ## The data page -/

theorem Inv.flushBuffer (h : Inv s live) (hstep : s.flushBuffer t = some s') : Inv s' live := by
  unfold St.flushBuffer at hstep
  split at hstep; swap
  · cases hstep
  rename_i part v pos ht
  split at hstep <;> cases hstep
  rename_i w hw
  have hslot : (s.backend t).slot? = some (part, pos) := by rw [ht]; rfl
  have hcopy : (s.backend t).copy? = some v := by rw [ht]; rfl
  have hhand := h.hands.hand t v hcopy
  obtain ⟨hlive, hC⟩ := h.alive.saved t _ (by rw [ht]; rfl)
  obtain ⟨htag, hpresent, _⟩ := h.pages.buf_ok _ w hw
  have hnewest : newest s.buf s.insertPos v.tag = w.lsn := newest_of_some hw
  have hpages : PagesInv s.present s.synced (⟨w, part, pos⟩ :: s.unsynced) s.buf
      s.insertPos := by
    refine ⟨h.pages.whole, h.pages.own, ?_, h.pages.buf_ok, h.pages.synced_le, ?_, ?_,
      List.pairwise_cons.mpr ⟨fun x hx hxtag => ?_, h.pages.sorted⟩⟩
    · rintro x (_ | ⟨_, hx⟩)
      · exact htag ▸ hpresent
      · exact h.pages.unsynced_present x hx
    · rintro x (_ | ⟨_, hx⟩)
      · show w.lsn ≤ newest s.buf s.insertPos w.tag
        rw [htag, hnewest]
      · exact h.pages.unsynced_le x hx
    · rintro x (_ | ⟨_, hx⟩)
      · show syncedAge s.synced w.tag ≤ w.lsn + 1
        rw [htag, ← hnewest]
        exact h.pages.synced_le v.tag
      · exact h.pages.synced_le_unsynced x hx
    · show x.lsn ≤ w.lsn
      rw [← hnewest, ← htag, ← show x.tag = w.tag from hxtag]
      exact h.pages.unsynced_le x hx
  have hhands : HandsInv s.synced (⟨w, part, pos⟩ :: s.unsynced) s.buf s.insertPos
      (update s.backend t (.flushed part pos)) := by
    refine ⟨?_, (h.hands.set (b := .flushed part pos) ht nofun).owner⟩
    refine update_cases nofun fun u hut x hx => ?_
    have hux := h.hands.hand u x hx
    refine ⟨hux.valid, hux.buffered, hux.le_newest, hux.synced_le, ?_⟩
    rintro y (_ | ⟨_, hy⟩) hytag
    · -- nobody else holds the page
      have hxtag : x.tag = v.tag := hytag.symm.trans htag
      exact absurd (h.hands.owner t v hcopy u x hx hxtag) hut
    · exact hux.unsynced_le y hy hytag
  have hcopies : CopyInv s.Copy live s.present s.synced (⟨w, part, pos⟩ :: s.unsynced) s.buf
      s.insertPos (update s.backend t (.flushed part pos)) := by
    refine ⟨?_, h.copies.le_newest, fun q i x hx => ?_⟩
    · rintro y (_ | ⟨_, hy⟩)
      · show CoverAt s.Copy live s.synced w.tag part pos
        rw [htag]
        exact ⟨hlive, v, hC, rfl, hhand.synced_le⟩
      · exact h.copies.covered y hy
    · rcases h.copies.settled q i x hx with ⟨u, hu⟩ | ⟨hxlive, y, hy, hrest⟩ | hstale
      · by_cases hut : u = t
        · rw [hut, ht] at hu
          cases hu
          exact .inr (.inl ⟨hlive, _, .head _, htag, hnewest ▸ hhand.le_newest⟩)
        · exact .inl ⟨u, by rwa [update_of_ne hut]⟩
      · exact .inr (.inl ⟨hxlive, y, .tail _ hy, hrest⟩)
      · exact .inr (.inr hstale)
  -- the slot is not among those being given up
  have hwrite : ∀ {q : Part} {m : Nat} {todo : List PhyTag},
      SyncInv s.Copy s.present s.synced s.unsynced s.writePos s.backend q m todo →
      SyncInv s.Copy s.present s.synced (⟨w, part, pos⟩ :: s.unsynced) s.writePos s.backend q m
        todo := by
    intro q m todo hsync
    refine ⟨hsync.le, hsync.behind, ?_, hsync.stale⟩
    rintro y (_ | ⟨_, hy⟩)
    · exact .inr fun hq => hsync.behind t _ hslot hq
    · exact hsync.covered y hy
  have hsyncs : SyncsInv s.Copy s.present s.synced (⟨w, part, pos⟩ :: s.unsynced) s.head
      s.writePos s.trunc s.backend :=
    ⟨h.syncs.forward, h.syncs.renumbered,
      fun q info todo htr hstart hdwn => hwrite (h.syncs.trunc q info todo htr hstart hdwn),
      fun u q x todo hu => hwrite (h.syncs.recycle u q x todo hu)⟩
  exact ⟨hpages, hhands, h.taken.set (le_of_eq_some (by rw [ht]; rfl)) nofun,
    h.lock.set ht rfl rfl, hcopies,
    hsyncs.set (le_of_eq_some (by rw [ht]; rfl)) nofun nofun,
    h.alive.set nofun nofun,
    h.heads.set ht rfl (le_of_eq_some rfl),
    h.file.set ht rfl nofun⟩

theorem Inv.setFlushState (h : Inv s live) (hstep : s.setFlushState t = some s') : Inv s' live := by
  unfold St.setFlushState at hstep
  split at hstep <;> cases hstep
  rename_i part pos ht
  have hslot : (s.backend t).slot? = some (part, pos) := by rw [ht]; rfl
  have hset := h.taken.set (t := t) (b := .idle) nofun nofun
  have hsame : ∀ q i, (q, i) ≠ (part, pos) →
      update s.flushState part (update (s.flushState part) pos true) q i = s.flushState q i := by
    intro q i hne
    by_cases hq : q = part
    · subst hq
      have hi : i ≠ pos := fun hi => hne (by rw [hi])
      rw [update_self, update_of_ne hi]
    · rw [update_of_ne hq]
  have htaken : TakenInv s.head s.writePos
      (update s.flushState part (update (s.flushState part) pos true))
      (update s.backend t .idle) := by
    refine ⟨?_, hset.owner, hset.start_le, fun q i hi => ?_, ?_⟩
    · refine update_cases nofun fun u hut x hx => ?_
      obtain ⟨hstart, hlt, hflush⟩ := h.taken.taken u x hx
      refine ⟨hstart, hlt, ?_⟩
      rwa [hsame]
      rintro heq
      exact hut (h.taken.owner t _ hslot u (hx.trans (congrArg some heq)))
    · rw [hsame]
      · exact h.taken.fresh q i hi
      · intro heq
        cases heq
        exact lt_irrefl _ (Nat.lt_of_lt_of_le (h.taken.taken t _ hslot).2.1 hi)
    · refine update_cases nofun fun u _ q hu => ?_
      obtain ⟨hstart, hflush⟩ := h.taken.reset u q hu
      refine ⟨hstart, fun i => ?_⟩
      rw [hsame]
      · exact hflush i
      · intro heq
        exact (h.heads.reset u q hu).2 t _ hslot (Prod.mk.inj heq).1.symm
  exact ⟨h.pages, h.hands.set ht nofun, htaken,
    h.lock.set ht rfl rfl,
    h.copies.set ht nofun,
    h.syncs.set nofun nofun nofun,
    h.alive.set nofun nofun,
    h.heads.set ht rfl nofun,
    h.file.set ht rfl nofun⟩

end OpenGauss.SingleWrite
