import OpenGauss.SingleWrite.RecycleSteps

/-!
# Crashes and recovery

The recovery after a crash finds a copy of every data page that may be torn, and
no copy newer than a page that is synced and in no backend's hands. So it leaves
the first kind complete and the second kind as they are.

* `dwRecovery_no_torn_page`: the recovery after a crash of any run
-/

namespace OpenGauss.SingleWrite

open Lib
open DoubleWrite (FileHead)
open BlockImage (tag age page)
open Sectors (whole)

variable {n : Nat} {s s' : St n} {live : Part → Nat → Prop} {t : Fin n} {part : Part} {c : Crash}
variable {i : Nat} {v : PageVersion}

/-! ## What a crash leaves of the file -/

abbrev St.crashHead (s : St n) (c : Crash) (part : Part) : FileHead :=
  dwRecoverFileHead ((s.crashDisk c).heads part)

theorem St.crashHead_cases (s : St n) (c : Crash) (part : Part) :
    s.crashHead c part = (s.heads part).first ∨ s.crashHead c part = s.head part := by
  have hwrite : s.headWrite part = none ∨ s.headWrite part = some (s.head part) := by
    unfold St.headWrite
    split
    · split
      · exact .inr rfl
      · exact .inl rfl
    · exact .inr rfl
    · exact .inl rfl
  unfold St.crashHead dwRecoverFileHead St.crashDisk Sectors.first
  simp only
  split
  · rcases hwrite with hwrite | hwrite
    · rw [hwrite]
      exact .inl rfl
    · rw [hwrite]
      exact .inr rfl
  · exact .inl rfl

/-- A part that is not being started over keeps its number and, from some start on,
its slots. -/
theorem Inv.crashHead_kept (h : Inv s live) (c : Crash)
    (hno : ∀ u, (s.backend u).heads? ≠ some part) :
    (s.crashHead c part).start ≤ (s.head part).start ∧
      (s.crashHead c part).dwn = (s.heads part).first.dwn := by
  obtain ⟨hstart, hdwn⟩ := h.heads.kept part hno
  rcases s.crashHead_cases c part with heq | heq
  · rw [heq]
    exact ⟨hstart, rfl⟩
  · rw [heq]
    exact ⟨le_rfl, hdwn.symm⟩

theorem Inv.crashHead_live (h : Inv s live) (c : Crash) (hlive : live part i) :
    (s.crashHead c part).start ≤ i ∧ (s.crashHead c part).dwn = (s.heads part).first.dwn := by
  obtain ⟨hle, hdwn⟩ := h.crashHead_kept c fun u hu => (h.heads.reset u part hu).1 i hlive
  exact ⟨hle.trans (h.alive.bounds part i hlive).1, hdwn⟩

theorem Inv.crashHead_taken (h : Inv s live) (c : Crash)
    (hslot : (s.backend t).slot? = some (part, i)) :
    (s.crashHead c part).start ≤ i ∧ (s.crashHead c part).dwn = (s.heads part).first.dwn := by
  obtain ⟨hle, hdwn⟩ := h.crashHead_kept c fun u hu => (h.heads.reset u part hu).2 t _ hslot rfl
  exact ⟨hle.trans (h.taken.taken t _ hslot).1, hdwn⟩

theorem Backend.slotWrite_eq_some {dwn pos : Nat} {b : Backend} {page : SlotPage} :
    b.slotWrite dwn part pos = some page ↔
      ∃ v, b = .slotted part v pos ∧ page = savedPage part dwn v := by
  constructor
  · intro hb
    cases b with
    | slotted q v i =>
      simp only [Backend.slotWrite] at hb
      split at hb
      · rename_i heq
        obtain ⟨rfl, rfl⟩ := heq
        exact ⟨v, rfl, (Option.some.inj hb).symm⟩
      · cases hb
    | _ => cases hb
  · rintro ⟨v, rfl, rfl⟩
    simp [Backend.slotWrite]

theorem St.crashDisk_slot_keep (hno : ∀ u v, s.backend u ≠ .slotted part v i) :
    (s.crashDisk c).slots part i = s.slots part i := by
  have hnone : s.slotWrite part i = none := by
    unfold St.slotWrite
    rw [List.findSome?_eq_none_iff]
    intro u _
    cases hw : (s.backend u).slotWrite (s.head part).dwn part i with
    | none => rfl
    | some page =>
      obtain ⟨v, hv, _⟩ := Backend.slotWrite_eq_some.mp hw
      exact absurd hv (hno u v)
  funext j
  simp only [St.crashDisk, hnone, Option.getD_none, ite_self]

theorem St.crashDisk_slot_cases {page : SlotPage}
    (hpage : (s.crashDisk c).slots part i = whole page) :
    s.slots part i = whole page ∨
      ∃ u v, s.backend u = .slotted part v i ∧ page = savedPage part (s.head part).dwn v := by
  by_cases hw : ∃ j, c.slot part i j = true ∧ (s.slotWrite part i).isSome = true
  · obtain ⟨j, hj, hsome⟩ := hw
    obtain ⟨new, hnew⟩ := Option.isSome_iff_exists.mp hsome
    have hjpage : (s.crashDisk c).slots part i j = new := by
      simp only [St.crashDisk, hj, hnew, if_true, Option.getD_some]
    rw [hpage] at hjpage
    obtain ⟨u, _, hu⟩ := List.exists_of_findSome?_eq_some hnew
    obtain ⟨v, hv, hsaved⟩ := Backend.slotWrite_eq_some.mp hu
    exact .inr ⟨u, v, hv, Eq.trans hjpage hsaved⟩
  · left
    funext j
    rw [← hpage]
    simp only [St.crashDisk]
    split
    · rename_i hj
      have hnone : s.slotWrite part i = none := by
        rw [← Option.not_isSome_iff_eq_none]
        exact fun hsome => hw ⟨j, hj, hsome⟩
      rw [hnone]
      rfl
    · rfl

theorem St.crashDisk_item_cases (s : St n) (c : Crash) (i : Nat) :
    (s.crashDisk c).items i = s.items i ∨
      ∃ u v, s.backend u = .tagging v i ∧ (s.crashDisk c).items i = s.flushItem v i := by
  have hitems : (s.crashDisk c).items i = tornItems s.items c.tag s.tagWrite i := rfl
  cases hw : s.tagWrite with
  | none =>
    left
    rw [hitems, hw]
    rfl
  | some w =>
    obtain ⟨pos, item⟩ := w
    rw [hw] at hitems
    by_cases hi : i = pos
    · subst hi
      unfold St.tagWrite at hw
      split at hw; swap
      · cases hw
      rename_i u _
      split at hw
      · rename_i v pos' hu
        cases hw
        simp only [tornItems, Function.update_self] at hitems
        split at hitems
        · exact .inr ⟨u, v, hu, hitems⟩
        · exact .inl hitems
      · cases hw
    · left
      simp only [tornItems, Function.update_of_ne hi, ite_self] at hitems
      exact hitems

/-! ## Which copies the recovery finds -/

/-- A complete page in a slot of the first part that was taken is read. -/
theorem Inv.mem_copies_first (h : Inv s live) (hgap : s.NoGap c) {d : Nat}
    (hstart : (s.crashHead c .first).start ≤ i) (hlt : i < s.writePos .first)
    (hslot : (s.crashDisk c).slots .first i = whole (savedPage .first d v)) :
    (v.tag, v) ∈ (s.crashDisk c).copies := by
  have hroom := h.lock.room .first
  refine List.mem_append_left _ (mem_slotCopies hstart ?_ ?_ hslot)
  · have : dwFirstDataPageNum = Part.first.pageNum := rfl
    omega
  · exact fun j hj hji => hgap j hj (hji.trans hlt)

theorem Inv.mem_copies (h : Inv s live) (hgap : s.NoGap c) (hlive : live part i)
    (hv : s.Copy part i v) : (v.tag, v) ∈ (s.crashDisk c).copies := by
  obtain ⟨hstart, hdwn⟩ := h.crashHead_live c hlive
  obtain ⟨_, hlt⟩ := h.alive.bounds part i hlive
  have hkeep : (s.crashDisk c).slots part i = s.slots part i :=
    St.crashDisk_slot_keep fun u x hu => h.alive.readable u (part, i) (by rw [hu]; rfl) hlive
  cases part with
  | first =>
    obtain ⟨d, hd⟩ := hv
    exact h.mem_copies_first hgap hstart hlt (hkeep.trans hd)
  | second =>
    obtain ⟨hitem, hvalid, hslot⟩ := hv
    have hroom := h.lock.room .second
    have hsame : (s.crashDisk c).items i = ⟨i, (s.heads .second).first.dwn, v.tag⟩ := by
      rcases s.crashDisk_item_cases c i with heq | ⟨u, x, hu, _⟩
      · rw [heq, hitem]
      · exact absurd hlive (h.alive.readable u (.second, i) (by rw [hu]; rfl))
    refine List.mem_append_right _ (mem_itemCopies.mpr ⟨i, hstart, ?_, ?_, ?_, ?_⟩)
    · have : dwSecondDataPageNum = Part.second.pageNum := rfl
      omega
    · rw [hsame, dwVerifyItem]
      exact decide_eq_true ⟨hdwn.symm, hvalid⟩
    · rw [hsame]
      exact dwVerifySecondSlot_eq_some.mpr ⟨none, hkeep.trans hslot, rfl⟩
    · rw [hsame]

/-- All copies read are copies of their pages, found by the protocol or in some
backend's hands. -/
theorem Inv.of_mem_copies (h : Inv s live) {x : PhyTag × PageVersion}
    (hx : x ∈ (s.crashDisk c).copies) :
    x.1 = x.2.tag ∧ ((∃ part i, s.Copy part i x.2) ∨ ∃ u, (s.backend u).copy? = some x.2) := by
  rcases List.mem_append.mp hx with hx | hx
  · obtain ⟨i, item, _, hslot, htag⟩ := exists_slot_of_mem_slotCopies hx
    rcases St.crashDisk_slot_cases hslot with hold | ⟨u, v, hu, hpage⟩
    · rcases h.file.first i _ hold with hzero | ⟨d, v, hpage⟩
      · cases hzero
      injection hpage with hv hitem
      subst hv
      rw [Option.some.inj hitem] at htag
      refine ⟨htag, .inl ⟨.first, i, d, ?_⟩⟩
      rw [hold, hitem]
      rfl
    · injection hpage with hv hitem
      subst hv
      rw [Option.some.inj hitem] at htag
      exact ⟨htag, .inr ⟨u, by rw [hu]; rfl⟩⟩
  obtain ⟨i, _, _, hitem, hslot, htag⟩ := mem_itemCopies.mp hx
  rcases s.crashDisk_item_cases c i with heq | ⟨u, v, hu, heq⟩
  · -- an item that was there: its number is the one on disk
    rw [heq] at hitem hslot htag
    have hdwn : (s.crashHead c .second).dwn = (s.heads .second).first.dwn := by
      by_cases hhead : ∃ u, (s.backend u).heads? = some .second
      · obtain ⟨u, hu⟩ := hhead
        rcases s.crashHead_cases c .second with hc | hc
        · rw [hc]
        have hnot := h.heads.reset_items u _ hu rfl i
        rw [← hc] at hnot
        cases hnot.symm.trans hitem
      · exact (h.crashHead_kept c fun u hu => hhead ⟨u, hu⟩).2
    have hitem' : dwVerifyItem (s.items i) (s.heads .second).first.dwn = true := hdwn ▸ hitem
    obtain ⟨_, v, hv⟩ := h.file.item i hitem'
    have hkeep : (s.crashDisk c).slots .second i = s.slots .second i := by
      refine St.crashDisk_slot_keep fun u y hu => ?_
      have := h.file.untagged u (.second, i) (by rw [hu]; rfl) rfl
      cases this.symm.trans hitem'
    obtain ⟨hs, hvalid, hvslot⟩ := hv
    rw [hs] at hslot htag
    obtain ⟨item', hwhole, _⟩ := dwVerifySecondSlot_eq_some.mp hslot
    have hpage : savedPage .second _ v = .saved x.2 item' :=
      congrFun (hvslot.symm.trans (hkeep.symm.trans hwhole)) 0
    injection hpage with hxv
    rw [← hxv]
    exact ⟨htag, .inl ⟨.second, i, hs, hvalid, hvslot⟩⟩
  · -- the item being written, whose page is written
    rw [heq] at hslot htag
    have hpaged := h.file.paged u (v, i) (by rw [hu]; rfl)
    have hkeep : (s.crashDisk c).slots .second i = s.slots .second i := by
      refine St.crashDisk_slot_keep fun u' y hu' => ?_
      have := h.taken.owner u (.second, i) (by rw [hu]; rfl) u' (by rw [hu']; rfl)
      rw [this, hu] at hu'
      cases hu'
    obtain ⟨item', hwhole, _⟩ := dwVerifySecondSlot_eq_some.mp hslot
    have hpage : savedPage .second _ v = .saved x.2 item' :=
      congrFun (hpaged.symm.trans (hkeep.symm.trans hwhole)) 0
    injection hpage with hxv
    rw [← hxv]
    exact ⟨htag, .inr ⟨u, by rw [hu]; rfl⟩⟩

theorem Inv.copies_le (h : Inv s live) {x : PhyTag × PageVersion}
    (hx : x ∈ (s.crashDisk c).copies) : x.2.lsn ≤ s.insertPos := by
  have hnewest := h.pages.newest_le x.2.tag
  rcases (h.of_mem_copies hx).2 with ⟨part, i, hC⟩ | ⟨u, hu⟩
  · exact (h.copies.le_newest part i _ hC).trans hnewest
  · exact Nat.le_trans (h.hands.hand u _ hu).le_newest hnewest

/-! ## The data pages -/

theorem St.crashDisk_page_synced {p : PhyTag} (hp : ∀ w ∈ s.unsynced, w.tag ≠ p) :
    (s.crashDisk c).data.page p = s.synced p := by
  have hnil : s.unsynced.filter (fun w => decide (w.tag = p)) = [] := by
    rw [List.filter_eq_nil_iff]
    intro w hw
    simpa using hp w hw
  funext j
  simp [St.crashDisk, hnil]

/-- What a sector shows is synced or was written since. -/
theorem St.crashDisk_page_cases (s : St n) (c : Crash) (p : PhyTag) (j : Fin 16) :
    (s.crashDisk c).data.page p j = s.synced p j ∨
      ∃ w ∈ s.unsynced, w.tag = p ∧ (s.crashDisk c).data.page p j = .page w.toPageVersion := by
  simp only [St.crashDisk]
  cases hw : (s.unsynced.filter fun w => decide (w.tag = p))[c.data p j]? with
  | none => exact .inl rfl
  | some w =>
    obtain ⟨hmem, htag⟩ := List.mem_filter.mp (List.mem_of_getElem? hw)
    exact .inr ⟨w, hmem, by simpa using htag, rfl⟩

theorem Inv.crashDisk_own (h : Inv s live) (c : Crash) :
    Sectors.OwnPages tag (s.crashDisk c).data.page := by
  intro p a ha
  have hfirst : (s.crashDisk c).data.page p 0 = a := congrFun ha 0
  rcases s.crashDisk_page_cases c p 0 with heq | ⟨w, _, htag, heq⟩
  · rw [← hfirst, heq]
    exact h.pages.own p
  · rw [← hfirst, heq]
    exact htag

abbrev St.recovered (s : St n) (c : Crash) : DataFiles :=
  (dwRecoveryPartialWriteSingle (s.crashDisk c)).data

theorem Inv.recovered_page (h : Inv s live) (c : Crash) : (s.recovered c).page =
      Sectors.restoreAll tag age (s.crashDisk c).data.page
        (((s.crashDisk c).copies.filter fun x => s.present x.1).map fun x => .page x.2) := by
  rw [St.recovered, dwRecoveryPartialWriteSingle_data]
  exact DataFiles.putBackAll_page (h.crashDisk_own c) fun x hx => (h.of_mem_copies hx).1

/-- A page whose copy is read ends up complete and not older. -/
theorem Inv.recovered_covers (h : Inv s live) (hv : (v.tag, v) ∈ (s.crashDisk c).copies)
    (hpresent : s.present v.tag = true) :
    Sectors.CompleteFrom tag age (s.recovered c).page v.tag (v.lsn + 1) := by
  rw [h.recovered_page c]
  refine Sectors.restoreAll_covers (a := page v) _ (h.crashDisk_own c) ?_
  exact List.mem_map.mpr ⟨(v.tag, v), List.mem_filter.mpr ⟨hv, hpresent⟩, rfl⟩

/-- After the recovery every page is complete and not older than it was last synced. -/
theorem Inv.recovered_complete (h : Inv s live) (hgap : s.NoGap c) (p : PhyTag) :
    Sectors.CompleteFrom tag age (s.recovered c).page p
      (syncedAge s.synced p) := by
  by_cases hp : ∃ w ∈ s.unsynced, w.tag = p
  · obtain ⟨w, hw, rfl⟩ := hp
    obtain ⟨hlive, v, hv, htag, hle⟩ := h.copies.covered w hw
    have hpresent := h.pages.unsynced_present w hw
    rw [← htag] at hpresent hle ⊢
    exact (h.recovered_covers (h.mem_copies hgap hlive hv) hpresent).mono hle
  · rw [h.recovered_page c]
    refine Sectors.restoreAll_keeps _ ⟨(s.synced p).first, ?_, h.pages.own p, le_rfl⟩
    rw [St.crashDisk_page_synced fun w hw htag => hp ⟨w, hw, htag⟩]
    exact h.pages.whole p

/-- The recovery does not touch a page with no write since its last sync that is
in no backend's hands. -/
theorem Inv.recovered_unchanged (h : Inv s live) (c : Crash) {p : PhyTag}
    (hp : ∀ w ∈ s.unsynced, w.tag ≠ p) (hfree : s.Free p) :
    (s.recovered c).page p = s.synced p := by
  have hsynced := St.crashDisk_page_synced (c := c) hp
  rw [h.recovered_page c, Sectors.restoreAll_unchanged _ (hsynced.trans (h.pages.whole p)), hsynced]
  intro a ha htag
  obtain ⟨x, hx, rfl⟩ := List.mem_map.mp ha
  obtain ⟨hx, hpresent⟩ := List.mem_filter.mp hx
  obtain ⟨hown, hfrom⟩ := h.of_mem_copies hx
  have hxp : x.2.tag = p := htag
  rcases hfrom with ⟨part, i, hC⟩ | ⟨u, hu⟩
  · rcases h.copies.settled part i _ hC with ⟨u, hu⟩ | ⟨_, w, hw, hwtag, _⟩ | hstale
    · exact absurd hxp (hfree u _ (Backend.slot?_of_saved? hu).2)
    · exact absurd (hwtag.trans hxp) (hp w hw)
    · rw [← hxp]
      exact hstale (hown ▸ hpresent)
  · exact absurd hxp (hfree u _ hu)

/-! ## Whole runs -/

/-- No backend or truncation at work, nothing to sync, and no copy newer than its
page. -/
theorem Inv.restarted (disk : Disk) {insertPos : Nat}
    (hheads : ∀ part, disk.heads part = whole ⟨0, (disk.heads part).first.dwn⟩)
    (hpages : ∀ p, Sectors.CompleteFrom tag age disk.data.page p 0)
    (hlogged : ∀ p, syncedAge disk.data.page p ≤ insertPos + 1)
    (hfirst : ∀ i page, disk.slots .first i = whole page →
      page = .zero ∨ ∃ d v, page = savedPage .first d v ∧ v.lsn ≤ insertPos ∧
        Stale disk.data.present disk.data.page v)
    (hitems : ∀ i, dwVerifyItem (disk.items i) (disk.heads .second).first.dwn = false)
    (hlast : ∀ i, Part.second.pageNum ≤ i + 1 → disk.items i = .zero) :
    Inv (St.restart n disk insertPos) fun _ _ => False := by
  have hwhole : ∀ p, disk.data.page p = whole (disk.data.page p).first ∧
      (disk.data.page p).first.tag = p := by
    intro p
    obtain ⟨a, ha, htag, _⟩ := hpages p
    rw [ha]
    exact ⟨rfl, htag⟩
  have hcopy : ∀ part i v, (St.restart n disk insertPos).Copy part i v →
      v.lsn ≤ insertPos ∧ Stale disk.data.present disk.data.page v := by
    intro part i v hv
    cases part with
    | first =>
      obtain ⟨d, hd⟩ := hv
      rcases hfirst i _ hd with hzero | ⟨d', v', hpage, hle, hstale⟩
      · cases hzero
      injection hpage with hv
      rw [hv]
      exact ⟨hle, hstale⟩
    | second => cases hv.verified.symm.trans (hitems i)
  have hfile : ∀ i page, disk.slots .first i = whole page →
      page = .zero ∨ ∃ d v, page = savedPage .first d v := fun i page hpage =>
    (hfirst i page hpage).imp_right fun ⟨d, v, hsaved, _⟩ => ⟨d, v, hsaved⟩
  have hroom : ∀ part : Part, 0 + 1 ≤ part.pageNum := by
    intro part
    cases part <;> decide
  have hhead : ∀ part, disk.heads part = whole (disk.heads part).first := by
    intro part
    rw [hheads part]
    rfl
  exact
    { pages := ⟨fun p => (hwhole p).1, fun p => (hwhole p).2, nofun, nofun, hlogged, nofun, nofun,
        .nil⟩
      hands := ⟨nofun, nofun⟩
      taken := ⟨nofun, nofun, fun part => (congrArg (·.first.start) (hheads part)).le,
        fun _ _ _ => rfl, nofun⟩
      lock := ⟨fun _ _ => ⟨nofun, nofun⟩, fun _ => ⟨nofun, nofun⟩, nofun, hroom, fun _ => ⟨nofun, nofun⟩⟩
      copies := ⟨nofun, fun part i v hv => (hcopy part i v hv).1,
        fun part i v hv => .inr (.inr (hcopy part i v hv).2)⟩
      syncs := ⟨nofun, nofun, nofun, nofun⟩
      alive := ⟨nofun, nofun, nofun⟩
      heads := ⟨hhead, fun _ _ => ⟨le_rfl, rfl⟩, nofun, nofun⟩
      file := ⟨hfile, fun i hi => (by cases (hitems i).symm.trans hi), nofun, nofun, hlast, nofun⟩ }

/-- A copy the recovery may find later is not newer than the page it leaves. -/
theorem Inv.recovered_stale (h : Inv s live) (hgap : s.NoGap c) {d : Nat}
    (hslot : (s.crashDisk c).slots .first i = whole (savedPage .first d v)) :
    v.lsn ≤ s.insertPos ∧ Stale s.present (s.recovered c).page v := by
  have hread : (v.tag, v) ∈ (s.crashDisk c).copies →
      v.lsn ≤ s.insertPos ∧ Stale s.present (s.recovered c).page v := by
    intro hmem
    refine ⟨h.copies_le hmem, fun hpresent => ?_⟩
    obtain ⟨a, ha, _, hle⟩ := h.recovered_covers hmem hpresent
    rw [syncedAge, ha]
    exact hle
  rcases St.crashDisk_slot_cases hslot with hold | ⟨u, x, hu, hpage⟩
  · have hC : s.Copy .first i v := ⟨d, hold⟩
    rcases h.copies.settled .first i v hC with ⟨u, hu⟩ | ⟨hlive, _⟩ | hstale
    · exact hread (h.mem_copies hgap (h.alive.saved u _ hu).1 hC)
    · exact hread (h.mem_copies hgap hlive hC)
    refine ⟨(h.copies.le_newest _ _ _ hC).trans (h.pages.newest_le _), fun hpresent => ?_⟩
    obtain ⟨a, ha, _, hle⟩ := h.recovered_complete hgap v.tag
    rw [syncedAge, ha]
    exact (hstale hpresent).trans hle
  · have htaken : (s.backend u).slot? = some (.first, i) := by rw [hu]; rfl
    exact hread (h.mem_copies_first hgap (h.crashHead_taken c htaken).1
      (h.taken.taken u _ htaken).2.1 hslot)

theorem Inv.restart (h : Inv s live) (hd : s.Disciplined (.crash c)) :
    Inv (St.restart n (dwRecoveryPartialWriteSingle (s.crashDisk c)) s.insertPos)
      fun _ _ => False := by
  obtain ⟨hgap, hunused⟩ := hd
  have hpresent : (s.recovered c).present = s.present := by
    rw [St.recovered, dwRecoveryPartialWriteSingle_data, DataFiles.putBackAll_present]
    rfl
  refine Inv.restarted _ (fun _ => rfl) (fun p => (h.recovered_complete hgap p).mono (Nat.zero_le _))
    (fun p => ?_) (fun i page hpage => ?_) hunused (fun i hi => ?_)
  · -- what is at the page was on disk or is a copy
    have hone : ∀ a, (s.recovered c).page p = whole a → a.age ≤ s.insertPos + 1 := by
      intro a ha
      rw [h.recovered_page c] at ha
      rcases Sectors.restoreAll_cases tag age p
        (((s.crashDisk c).copies.filter fun x => s.present x.1).map fun x => page x.2)
        (s.crashDisk c).data.page with hsame | ⟨b, hb, _, hwhole⟩
      · have hfirst : (s.crashDisk c).data.page p 0 = a := congrFun (hsame.symm.trans ha) 0
        have hnewest := h.pages.newest_le p
        rcases s.crashDisk_page_cases c p 0 with heq | ⟨w, hw, rfl, heq⟩
        · rw [← hfirst, heq]
          have := h.pages.synced_le p
          rw [syncedAge] at this
          exact this.trans (Nat.succ_le_succ hnewest)
        · rw [← hfirst, heq]
          exact Nat.succ_le_succ ((h.pages.unsynced_le w hw).trans hnewest)
      · have hab : a = b := congrFun (ha.symm.trans hwhole) 0
        obtain ⟨x, hx, rfl⟩ := List.mem_map.mp hb
        rw [hab]
        exact Nat.succ_le_succ (h.copies_le (List.mem_filter.mp hx).1)
    obtain ⟨a, ha, _⟩ := h.recovered_complete hgap p
    have hage : syncedAge (s.recovered c).page p = a.age := by
      rw [syncedAge, ha]
      rfl
    exact hage.le.trans (hone a ha)
  · rcases St.crashDisk_slot_cases hpage with hold | ⟨u, v, hu, hsaved⟩
    · rcases h.file.first i page hold with hzero | ⟨d, v, rfl⟩
      · exact .inl hzero
      · obtain ⟨hle, hstale⟩ := h.recovered_stale hgap hpage
        exact .inr ⟨d, v, rfl, hle, fun hp => hstale (hpresent ▸ hp)⟩
    · subst hsaved
      obtain ⟨hle, hstale⟩ := h.recovered_stale hgap hpage
      exact .inr ⟨_, v, rfl, hle, fun hp => hstale (hpresent ▸ hp)⟩
  · rcases s.crashDisk_item_cases c i with heq | ⟨u, v, hu, _⟩
    · exact heq.trans (h.file.last i hi)
    have hlt := (h.taken.taken u (.second, i) (by rw [hu]; rfl)).2.1
    have hroom := h.lock.room .second
    simp only at hlt
    omega

theorem Inv.created {present : PhyTag → Bool} {pages : PhyTag → BlockImage} {insertPos : Nat}
    (hown : ∀ p, (pages p).tag = p) (hlogged : ∀ p, (pages p).age ≤ insertPos + 1) :
    Inv (St.created n present pages insertPos) fun _ _ => False := by
  exact Inv.restarted
    ⟨fun _ => whole ⟨0, 0⟩, fun _ _ => whole .zero, fun _ => .zero, present, fun p => whole (pages p)⟩
    (fun _ => rfl) (fun p => ⟨pages p, rfl, hown p, Nat.zero_le _⟩) hlogged
    (fun i page hpage => .inl (congrFun hpage 0).symm) (fun _ => dwVerifyItem_zero _) fun _ _ => rfl

theorem Inv.step {e : Event n} (h : Inv s live) (hd : s.Disciplined e)
    (hstep : s.step e = some s') : ∃ live', Inv s' live' := by
  cases e with
  | modify v => exact ⟨live, h.modify hstep⟩
  | truncateBlock p => exact ⟨live, h.truncateBlock hstep⟩
  | extendBlock p => exact ⟨live, h.extendBlock hd hstep⟩
  | fsync p =>
    cases hstep
    exact ⟨live, h.fsync p⟩
  | copyPage t part p => exact ⟨live, h.copyPage hstep⟩
  | takeSlot t => exact ⟨live, h.takeSlot hstep⟩
  | pwriteSlot t => exact h.pwriteSlot hstep
  | lockBuftag t => exact ⟨live, h.lockBuftag hstep⟩
  | pwriteTag t => exact h.pwriteTag hstep
  | flushBuffer t => exact ⟨live, h.flushBuffer hstep⟩
  | setFlushState t => exact ⟨live, h.setFlushState hstep⟩
  | lockRecycle t => exact ⟨live, h.lockRecycle hstep⟩
  | waitAllFlush t => exact ⟨live, h.waitAllFlush hstep⟩
  | recycleSync t => exact ⟨live, h.recycleSync hstep⟩
  | recycleReset t => exact h.recycleReset hd hstep
  | recycleHead t => exact ⟨live, h.recycleHead hstep⟩
  | truncBegin part => exact ⟨live, h.truncBegin hstep⟩
  | truncSync part => exact ⟨live, h.truncSync hstep⟩
  | truncEnd part => exact h.truncEnd hstep
  | truncHead part => exact ⟨live, h.truncHead hstep⟩
  | crash c =>
    cases hstep
    exact ⟨_, h.restart hd⟩

theorem Reach.inv (h : Reach (fun s e => s.Disciplined e) s) : ∃ live, Inv s live := by
  induction h with
  | created present pages insertPos hown hlogged => exact ⟨_, Inv.created hown hlogged⟩
  | step e _ hd hstep ih =>
    obtain ⟨live, hinv⟩ := ih
    exact hinv.step hd hstep

/-- Whenever a run in which no block is extended while a slot has a copy of it and
numbers are not reused is cut off by a crash that leaves no new page among the
slots taken, the recovery leaves every data page complete and not older than it
was last synced, and a page with no write since, in no backend's hands, as it is. -/
theorem dwRecovery_no_torn_page (h : Reach (fun s e => s.Disciplined e) s) (c : Crash)
    (hgap : s.NoGap c) (p : PhyTag) :
    ∃ img, s.synced p = whole img ∧
      Sectors.CompleteFrom tag age
        (dwRecoveryPartialWriteSingle (s.crashDisk c)).data.page p img.age ∧
      ((∀ w ∈ s.unsynced, w.tag ≠ p) → s.Free p →
        (dwRecoveryPartialWriteSingle (s.crashDisk c)).data.page p = s.synced p) := by
  obtain ⟨live, hinv⟩ := h.inv
  exact ⟨(s.synced p).first, hinv.pages.whole p, hinv.recovered_complete hgap p,
    hinv.recovered_unchanged c⟩

/-! ## Crashes that recovery does not cope with -/

def St.run : St n → List (Event n) → Option (St n)
  | s, [] => some s
  | s, e :: es => (s.step e).bind fun s' => s'.run es

def St.RunOk (allowed : St n → Event n → Prop) : St n → List (Event n) → Prop
  | _, [] => True
  | s, e :: es => allowed s e ∧ (s.step e).elim True fun s' => s'.RunOk allowed es

theorem Reach.run {allowed : St n → Event n → Prop} {es : List (Event n)}
    (h : Reach allowed s) (hok : s.RunOk allowed es) (hrun : s.run es = some s') :
    Reach allowed s' := by
  induction es generalizing s with
  | nil =>
    cases hrun
    exact h
  | cons e es ih =>
    obtain ⟨hallowed, hrest⟩ := hok
    obtain ⟨s₁, hstep, hrun⟩ := Option.bind_eq_some_iff.mp hrun
    rw [hstep] at hrest
    exact ih (.step e h hallowed hstep) hrest hrun

def pageA : PhyTag := ⟨1, 1, 1, -1, 0, 0⟩

def pageB : PhyTag := ⟨1, 1, 1, -1, 0, 1⟩

/-- A new file over blocks of zeros. -/
def newFile (n : Nat) : St n := .created n (fun _ => true) .zero 0

theorem reach_newFile (allowed : St n → Event n → Prop) : Reach allowed (newFile n) :=
  .created _ _ _ (fun _ => rfl) fun _ => Nat.zero_le _

/-- The backend of a server that has only one. -/
def loneBackend : Fin 1 := ⟨0, Nat.zero_lt_one⟩

/-- A backend flushes a page through each part. -/
def bothParts : List (Event 1) :=
  [.modify ⟨pageA, 1, 1⟩, .copyPage loneBackend .first pageA, .takeSlot loneBackend,
    .pwriteSlot loneBackend, .flushBuffer loneBackend, .setFlushState loneBackend,
    .modify ⟨pageB, 2, 2⟩, .copyPage loneBackend .second pageB, .takeSlot loneBackend,
    .pwriteSlot loneBackend, .lockBuftag loneBackend, .pwriteTag loneBackend,
    .flushBuffer loneBackend]

/-- The crash tears the data pages. -/
def tornPages : Crash where
  slot := fun _ _ _ => false
  tag := fun _ => false
  head := fun _ _ => false
  data := fun _ j => j.val

theorem bothParts_ok : (newFile 1).RunOk (fun s e => s.Disciplined e) bothParts := by
  iterate 13 refine And.intro trivial ?_
  trivial

/-- `NoGap` as a test. -/
def St.noGap (s : St n) (c : Crash) : Bool :=
  (List.range (s.writePos .first)).all fun i => !pageIsNew ((s.crashDisk c).slots .first i)

theorem St.noGap_spec (h : s.noGap c = true) : s.NoGap c := by
  intro i _ hi
  have := List.all_eq_true.mp h i (List.mem_range.mpr hi)
  simpa using this

theorem dwRecovery_no_torn_page_bothParts :
    ∃ s, (newFile 1).run bothParts = some s ∧ s.NoGap tornPages ∧
      ((s.crashDisk tornPages).data.page pageB).image? = none ∧
      ∃ img, s.synced pageB = whole img ∧
        Sectors.CompleteFrom tag age
          (dwRecoveryPartialWriteSingle (s.crashDisk tornPages)).data.page pageB img.age ∧
        ((∀ w ∈ s.unsynced, w.tag ≠ pageB) → s.Free pageB →
          (dwRecoveryPartialWriteSingle (s.crashDisk tornPages)).data.page pageB =
            s.synced pageB) := by
  obtain ⟨s, hs⟩ : ∃ s, (newFile 1).run bothParts = some s := ⟨_, rfl⟩
  have hreach := (reach_newFile fun s e => s.Disciplined e).run bothParts_ok hs
  have htorn : ((newFile 1).run bothParts).map (fun s =>
      (s.noGap tornPages, ((s.crashDisk tornPages).data.page pageB).image?)) =
        some (true, none) := by decide +kernel
  rw [hs] at htorn
  obtain ⟨hgap, htorn⟩ := Prod.mk.inj (Option.some.inj htorn)
  exact ⟨s, hs, St.noGap_spec hgap, htorn,
    dwRecovery_no_torn_page hreach tornPages (St.noGap_spec hgap) pageB⟩

/-- One backend has taken a slot and not written it; the next slot is written, and
its data page too. -/
def gapRun : List (Event 2) :=
  [.modify ⟨pageA, 1, 1⟩, .copyPage 0 .first pageA, .takeSlot 0, .modify ⟨pageB, 2, 2⟩,
    .copyPage 1 .first pageB, .takeSlot 1, .pwriteSlot 1, .flushBuffer 1]

/-- A page is flushed and synced, then its block truncated away and extended with
zeros. -/
def zeroRun : List (Event 1) :=
  [.modify ⟨pageA, 1, 1⟩, .copyPage loneBackend .first pageA, .takeSlot loneBackend,
    .pwriteSlot loneBackend, .flushBuffer loneBackend, .setFlushState loneBackend, .fsync pageA,
    .truncateBlock pageA, .extendBlock pageA]

theorem runOk_true (es : List (Event n)) : s.RunOk (fun _ _ => True) es := by
  induction es generalizing s with
  | nil => trivial
  | cons e es ih =>
    refine ⟨trivial, ?_⟩
    cases s.step e with
    | none => trivial
    | some s' => exact ih

/-- The recovery stops at the slot that is still new, so the data page saved behind
it stays torn; and it writes the old version over the block of zeros. -/
theorem dwRecovery_gap_and_zeros :
    (∃ s, (newFile 2).run gapRun = some s ∧ Reach (fun _ _ => True) s ∧
      (∃ w ∈ s.unsynced, w.tag = pageB) ∧
      ((dwRecoveryPartialWriteSingle (s.crashDisk tornPages)).data.page pageB).image? = none) ∧
    ∃ s, (newFile 1).run zeroRun = some s ∧ Reach (fun _ _ => True) s ∧ s.unsynced = [] ∧
      s.Free pageA ∧ s.synced pageA = whole (.zero pageA) ∧
      (dwRecoveryPartialWriteSingle (s.crashDisk tornPages)).data.page pageA =
        whole (.page ⟨pageA, 1, 1⟩) := by
  constructor
  · obtain ⟨s, hs⟩ : ∃ s, (newFile 2).run gapRun = some s := ⟨_, rfl⟩
    have htorn : ((newFile 2).run gapRun).map (fun s =>
        (s.unsynced, ((dwRecoveryPartialWriteSingle (s.crashDisk tornPages)).data.page pageB).image?)) =
          some ([⟨⟨pageB, 2, 2⟩, .first, 1⟩], none) := by decide +kernel
    rw [hs] at htorn
    obtain ⟨hunsynced, htorn⟩ := Prod.mk.inj (Option.some.inj htorn)
    refine ⟨s, hs, (reach_newFile _).run (runOk_true _) hs,
      ⟨⟨⟨pageB, 2, 2⟩, .first, 1⟩, ?_, rfl⟩, htorn⟩
    rw [hunsynced]
    exact List.mem_singleton.mpr rfl
  · obtain ⟨s, hs⟩ : ∃ s, (newFile 1).run zeroRun = some s := ⟨_, rfl⟩
    have hback : ((newFile 1).run zeroRun).map (fun s =>
        (s.unsynced, decide (s.Free pageA), (s.synced pageA).image?,
          ((dwRecoveryPartialWriteSingle (s.crashDisk tornPages)).data.page pageA).image?)) =
          some ([], true, some (.zero pageA), some (.page ⟨pageA, 1, 1⟩)) := by decide +kernel
    rw [hs] at hback
    obtain ⟨hunsynced, hrest⟩ := Prod.mk.inj (Option.some.inj hback)
    obtain ⟨hfree, hrest⟩ := Prod.mk.inj hrest
    obtain ⟨hzero, hback⟩ := Prod.mk.inj hrest
    exact ⟨s, hs, (reach_newFile _).run (runOk_true _) hs, hunsynced, of_decide_eq_true hfree,
      Sectors.image?_eq_some.mp hzero, Sectors.image?_eq_some.mp hback⟩

end OpenGauss.SingleWrite
