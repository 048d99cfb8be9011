import OpenGauss.DoubleWrite.BatchSteps

/-!
# Crashes and recovery

A crash in any state the protocol can reach leaves a readable file, and every
data page that may be torn has a copy in it. So after the recovery every page
is complete and not older than its last synced version, and the run can go on.

* `dwRecover_no_torn_page`: the recovery after a crash of any run
-/

namespace OpenGauss.DoubleWrite

open Lib
open PageImage (tag lsn)
open Sectors (writeTorn firstSectors whole)

variable {n : Nat} {size : DwFileSize} {s s' : St n} {log : List Batch} {last : Nat}
variable {c : Crash}

/-- The file after a batch behind the last one was torn in order. -/
theorem Readable.torn {file : Nat → DwPage} {head : FileHead} {isNew : Bool}
    {pages : List PageImage} (h : Readable size file head log last) (hc : c.InOrder)
    (hne : pages ≠ []) (hlen : pages.length ≤ dwDirtyPageMax isNew)
    (hroom : last + dwBatchAddExtra pages.length isNew < size.pages) :
    ∃ extra last', Readable size
      (writeTorn file last (dwAssembleBatch isNew last head.dwn pages) c.file) head
      (log ++ extra) last' := by
  obtain ⟨m, hm, hfile⟩ := hc
  have htotal := length_dwAssembleBatch isNew last head.dwn pages
  rw [hfile, dwAssembleBatch_eq]
  rw [dwAssembleBatch_eq] at htotal
  obtain ⟨k, _, hpos, hnew, hold⟩ :=
    Sectors.writeTorn_inOrder file last (layout head.dwn last (batchParts isNew pages)) m
  have hbefore : ∀ i, i < last → writeTorn file last
      (layout head.dwn last (batchParts isNew pages)) (firstSectors m) i = file i :=
    fun i hi => Sectors.writeTorn_outside (.inl hi)
  rcases hm with rfl | hm
  · -- nothing reached the file
    have hsame : writeTorn file last (layout head.dwn last (batchParts isNew pages))
        (firstSectors 0) = file := by
      funext i
      apply Sectors.writeTorn_untouched
      intro j
      simp [firstSectors]
    rw [hsame]
    exact ⟨[], last, by rwa [List.append_nil]⟩
  · have hlayout : 1 ≤ (layout head.dwn last (batchParts isNew pages)).length := by
      rw [length_layout]
      omega
    have hk := hpos hm
    obtain ⟨extra, last', hread, _⟩ := h.written (batchParts_ok hne hlen) (by omega)
      (k := min k (layout head.dwn last (batchParts isNew pages)).length) (by omega)
      (Nat.min_le_right _ _) hbefore (fun i a hi ha => hnew i a (by omega) ha)
      (fun i a hi ha => by
        by_cases hik : last + k ≤ i
        · exact hold i a hik ha
        · rwa [Sectors.writeTorn_outside (.inr (by omega))] at ha)
    exact ⟨extra, last', hread⟩

theorem St.crashDisk_data_synced {p : BufferTag} (h : ∀ w ∈ s.unsynced, w.tag ≠ p) :
    (s.crashDisk c).data p = s.synced p := by
  have hnil : s.unsynced.filter (fun w => decide (w.tag = p)) = [] := by
    rw [List.filter_eq_nil_iff]
    intro w hw
    simpa using h w hw
  funext j
  simp [St.crashDisk, hnil]

/-- Whatever a torn page shows is a version of that page. -/
theorem PagesInv.crashDisk_own (h : PagesInv s.synced s.unsynced s.pgwr s.buf log) :
    Sectors.OwnPages tag (s.crashDisk c).data := by
  intro p a ha
  have hzero : (s.crashDisk c).data p 0 = a := congrFun ha 0
  rw [← hzero]
  simp only [St.crashDisk]
  cases hw : (s.unsynced.filter fun w => decide (w.tag = p))[c.data p 0]? with
  | none => exact h.synced_tag p
  | some w =>
    have hmem := List.mem_of_getElem? hw
    simpa using (List.mem_filter.mp hmem).2

theorem St.crashDisk_file (h : s.batchWrite = []) : (s.crashDisk c).file = s.file := by
  funext i
  simp only [St.crashDisk, h]
  apply Sectors.writeTorn_outside
  simp only [List.length_nil]
  omega

/-- What a crash leaves: a readable file with a copy of every page that has a
write since its last sync. -/
structure CrashOk (size : DwFileSize) (s : St n) (disk : Disk) (log : List Batch) (last : Nat) :
    Prop where
  readable : Readable size disk.file (disk.heads 0) log last
  covered : ∀ w ∈ s.unsynced, Covered s.synced log 0 w.tag

theorem Inv.crashOk (h : Inv size s log last) (hc : c.InOrder) :
    ∃ log' last', CrashOk size s (s.crashDisk c) log' last' := by
  -- no file head is being written
  have hold : s.headWrite = none → (s.crashDisk c).heads 0 = s.heads 0 := by
    intro hnone
    simp [St.crashDisk, hnone]
  have hsame : s.headWrite = none → s.batchWrite = [] →
      CrashOk size s (s.crashDisk c) log last := fun hhead hbatch => by
    refine ⟨?_, h.pages.covered⟩
    rw [hold hhead, St.crashDisk_file hbatch]
    exact h.readable
  cases hl : s.flushLock with
  | none => exact ⟨log, last, hsame (by simp [St.headWrite, hl]) (by simp [St.batchWrite, hl])⟩
  | some holder =>
    cases holder with
    | ckpt =>
      -- the head of a truncation
      have hbatch : s.batchWrite = [] := by simp [St.batchWrite, hl]
      have hhead : s.headWrite = some s.cxt.head := by simp [St.headWrite, hl]
      obtain ⟨hdwn, _, hstart⟩ := h.lock.truncHeading (h.lock.ckpt.mp hl)
      by_cases hnew : c.head 0 = true
      · obtain ⟨rest, hread, hpages⟩ := h.suffix hstart
        refine ⟨rest, last, ?_, hpages.covered⟩
        rw [St.crashDisk_file hbatch]
        simp only [St.crashDisk, hnew, hhead, if_true, Option.getD_some]
        rw [← hdwn] at hread
        exact hread
      · refine ⟨log, last, ?_, h.pages.covered⟩
        rw [St.crashDisk_file hbatch]
        simp only [St.crashDisk, hnew]
        exact h.readable
    | pgwr t =>
      have hlocked := (h.lock.held t).mp hl
      cases ht : s.pgwr t with
      | idle | copying | flushing => rw [ht] at hlocked; cases hlocked
      | recycling isNew pages =>
        exact ⟨log, last, hsame (by simp [St.headWrite, hl, ht]) (by simp [St.batchWrite, hl, ht])⟩
      | heading isNew pages =>
        -- the head of a full recycle: all data pages are synced
        have hbatch : s.batchWrite = [] := by simp [St.batchWrite, hl, ht]
        have hhead : s.headWrite = some s.cxt.nextDwn := by simp [St.headWrite, hl, ht]
        obtain ⟨hcxt, hnil, _, hunused⟩ := h.lock.heading t isNew pages ht
        have hcovered : ∀ log', ∀ w ∈ s.unsynced, Covered s.synced log' 0 w.tag := by
          intro log' w hw
          rw [hnil] at hw
          cases hw
        by_cases hnew : c.head 0 = true
        · refine ⟨[], dwBatchFileStart, ?_, hcovered []⟩
          rw [St.crashDisk_file hbatch]
          simp only [St.crashDisk, hnew, hhead, if_true, Option.getD_some]
          have hnext : s.cxt.nextDwn = ⟨dwBatchFileStart, s.cxt.nextDwn.dwn⟩ := by
            rw [FileCxt.nextDwn, hcxt]
          rw [hnext]
          exact h.readable.reset hunused.file
        · refine ⟨log, last, ?_, hcovered log⟩
          rw [St.crashDisk_file hbatch]
          simp only [St.crashDisk, hnew]
          exact h.readable
      | writing isNew pages =>
        have hhead : s.headWrite = none := by simp [St.headWrite, hl, ht]
        obtain ⟨hat, hroom⟩ := h.lock.writing t isNew pages ht
        have hsized := h.owners.sized t
        rw [ht] at hsized
        have hoff : s.offsetPage = last := hat.offsetPage h.readable.room
        have hbatch : s.batchWrite = dwAssembleBatch isNew last (s.heads 0).dwn pages := by
          simp only [St.batchWrite, hl, ht]
          rw [hoff, hat.head]
        obtain ⟨extra, last', hread⟩ := h.readable.torn hc hsized.2 hsized.1 hroom
        refine ⟨log ++ extra, last', ?_, fun w hw => (h.pages.covered w hw).append⟩
        rw [hold hhead]
        simp only [St.crashDisk, hbatch]
        rw [hoff]
        exact hread

/-- After the recovery every page is complete and not older than its last synced
version. -/
theorem CrashOk.complete {log' : List Batch} (h : CrashOk size s (s.crashDisk c) log last)
    (hpages : PagesInv s.synced s.unsynced s.pgwr s.buf log') (p : BufferTag) :
    Sectors.CompleteFrom tag lsn
      (dwRecoverPartialWriteBatch size (s.crashDisk c)).disk.data p (syncedLsn s.synced p) := by
  rw [h.readable.recovered.data]
  by_cases hp : ∃ w ∈ s.unsynced, w.tag = p
  · obtain ⟨w, hw, rfl⟩ := hp
    obtain ⟨b, hb, _, img, himg, htag, hlsn⟩ := h.covered w hw
    have hmem : img ∈ log.flatMap Batch.pages := List.mem_flatMap.mpr ⟨b, hb, himg⟩
    rw [← htag] at hlsn ⊢
    exact (Sectors.restoreAll_covers _ hpages.crashDisk_own hmem).mono hlsn
  · refine Sectors.restoreAll_keeps _ ⟨s.synced p 0, ?_, hpages.synced_tag p, le_rfl⟩
    rw [St.crashDisk_data_synced fun w hw hwp => hp ⟨w, hw, hwp⟩]
    exact hpages.whole p

/-! ## Whole runs -/

theorem Inv.restarted (r : Recovered) (hread : Readable size r.disk.file (r.disk.heads 0) [] last)
    (hheads : ∀ i, r.disk.heads i = r.disk.heads 0) (hat : AtLast r.cxt (r.disk.heads 0) last)
    (hpages : ∀ p, ∃ img, r.disk.data p = whole img ∧ img.tag = p) :
    Inv size (St.restart n r) [] last := by
  have hwhole : ∀ p, r.disk.data p = whole (r.disk.data p 0) ∧ (r.disk.data p 0).tag = p := by
    intro p
    obtain ⟨img, himg, htag⟩ := hpages p
    rw [himg]
    exact ⟨rfl, htag⟩
  have hbuf : ∀ p, UpToDate r.disk.data [] (r.disk.data p 0) := by
    refine fun p => ⟨?_, fun _ hw => absurd hw List.not_mem_nil⟩
    rw [syncedLsn, (hwhole p).2]
  -- What is left is about a thread or truncation at work, or a page to sync: there is none.
  refine ⟨hread, hheads, ⟨fun p => (hwhole p).1, fun p => (hwhole p).2, fun p => (hwhole p).2, hbuf,
    ?_, ?_, ?_⟩, ⟨fun _ => trivial, fun _ => .nil, ?_⟩,
    ⟨fun _ => ⟨?_, ?_⟩, ⟨?_, ?_⟩, fun _ => hat, ?_, ?_, ?_, ?_⟩, fun _ => ?_⟩ <;>
  · intros
    contradiction

/-- The state after the recovery is a fresh start behind the batches read. -/
theorem Inv.restart (h : Inv size s log last) (hd : s.Disciplined size (.crash c)) : ∃ log' last',
      Inv size (St.restart n (dwRecoverPartialWriteBatch size (s.crashDisk c))) log' last' := by
  obtain ⟨hc, hunused⟩ := hd
  obtain ⟨log', last', hok⟩ := h.crashOk hc
  have hrec := hok.readable.recovered
  have hread := hrec.readable hok.readable fun hfull => (hunused hfull).file
  generalize hr : dwRecoverPartialWriteBatch size (s.crashDisk c) = r at hrec hread
  refine ⟨[], r.cxt.head.start, Inv.restarted r ?_ (fun i => ?_) ⟨(hrec.heads 0).symm, ?_⟩
    fun p => ?_⟩
  · rw [hrec.heads 0]
    exact hread
  · exact (hrec.heads i).trans (hrec.heads 0).symm
  · rw [hrec.flushPage, Nat.add_zero]
  · obtain ⟨img, himg, htag, _⟩ := hr ▸ hok.complete h.pages p
    exact ⟨img, himg, htag⟩

theorem Inv.created {pages : BufferTag → PageImage} (hown : ∀ p, (pages p).tag = p) :
    Inv size (.created n pages) [] dwBatchFileStart := by
  have hpages := size.pages_ge
  have hone : dwBatchFileStart = 1 := rfl
  refine Inv.restarted ⟨⟨_, (St.created n pages).file, fun p => whole (pages p)⟩, _⟩
    ⟨le_rfl, rfl, fun hne => absurd rfl hne, fun i hi => ?_, fun i b hb => ?_, by omega⟩
    (fun _ => rfl) ⟨rfl, rfl⟩ fun p => ⟨pages p, rfl, hown p⟩
  · have hne : i ≠ dwBatchFileStart := by omega
    simp [St.created, hne, carriesDwn, dwVerifyPage]
  · rw [dwVerifyPage_eq_some] at hb
    have hzero := congrFun hb 0
    simp only [St.created, whole] at hzero
    by_cases hi : i = dwBatchFileStart
    · rw [if_pos hi] at hzero
      cases hzero
      refine ⟨Nat.zero_le _, ?_⟩
      simp only [List.length_nil]
      omega
    · rw [if_neg hi] at hzero
      cases hzero

theorem Inv.step {e : Event n} (h : Inv size s log last) (hd : s.Disciplined size e)
    (hstep : s.step size e = some s') : ∃ log' last', Inv size s' log' last' := by
  cases e with
  | modify img => exact ⟨_, _, h.modify hstep⟩
  | beginBatch t isNew => exact ⟨_, _, h.beginBatch hstep⟩
  | copy t p => exact ⟨_, _, h.dwCopyPage hd hstep⟩
  | lock t => exact ⟨_, _, h.lockFlush hstep⟩
  | recycleSync t => exact ⟨_, _, h.recycleSync hd hstep⟩
  | recycleHead t => exact ⟨_, _, h.recycleHead hstep⟩
  | pwrite t => exact h.pwriteBatch hstep
  | flush t dirty => exact ⟨_, _, h.flushDirtyPage hstep⟩
  | clear t => exact ⟨_, _, h.clearDwPageIdx hstep⟩
  | truncBegin => exact ⟨_, _, h.truncBegin hstep⟩
  | truncSync => exact ⟨_, _, h.truncSync hstep⟩
  | truncEnd => exact ⟨_, _, h.truncEnd hstep⟩
  | truncHead =>
    obtain ⟨log', hinv⟩ := h.truncHead hstep
    exact ⟨log', last, hinv⟩
  | crash c =>
    cases hstep
    exact h.restart hd

theorem Reach.inv (h : Reach size (fun s e => s.Disciplined size e) s) :
    ∃ log last, Inv size s log last := by
  induction h with
  | created pages hown => exact ⟨_, _, Inv.created hown⟩
  | step e _ hd hstep ih =>
    obtain ⟨log, last, hinv⟩ := ih
    exact hinv.step hd hstep

/-- Whenever a run in which pages have one owner at a time, numbers are not
reused and batches tear in order is cut off by a crash, the recovery leaves
every data page complete and not older than it was last synced. -/
theorem dwRecover_no_torn_page (h : Reach size (fun s e => s.Disciplined size e) s) (c : Crash)
    (hc : c.InOrder) (p : BufferTag) :
    ∃ img, s.synced p = whole img ∧
      Sectors.CompleteFrom tag lsn
        (dwRecoverPartialWriteBatch size (s.crashDisk c)).disk.data p img.lsn := by
  obtain ⟨log, last, hinv⟩ := h.inv
  obtain ⟨_, _, hok⟩ := hinv.crashOk hc
  exact ⟨s.synced p 0, hinv.pages.whole p, hok.complete hinv.pages p⟩

/-! ## A crash that recovery does not cope with -/

/-- A file of 32 MB. -/
def smallFile : DwFileSize := ⟨4096, le_rfl, by decide⟩

def pageA : BufferTag := ⟨1, 0⟩

def pageB : BufferTag := ⟨1, 1⟩

/-- One thread writes a batch and its data page, and is about to write a second
batch. -/
def secondBatch : List (Event 1) :=
  [.modify ⟨pageA, 1, 1⟩, .beginBatch 0 true, .copy 0 pageA, .lock 0, .pwrite 0, .flush 0 true,
    .clear 0, .beginBatch 0 true, .copy 0 pageB, .lock 0]

def St.run (size : DwFileSize) : St n → List (Event n) → Option (St n)
  | s, [] => some s
  | s, e :: es => (s.step size e).bind fun s' => s'.run size es

def St.RunOk (size : DwFileSize) (allowed : St n → Event n → Prop) : St n → List (Event n) → Prop
  | _, [] => True
  | s, e :: es => allowed s e ∧ (s.step size e).elim True fun s' => s'.RunOk size allowed es

theorem Reach.run {allowed : St n → Event n → Prop} {es : List (Event n)}
    (h : Reach size allowed s) (hok : s.RunOk size allowed es) (hrun : s.run size es = some s') :
    Reach size allowed s' := by
  induction es generalizing s with
  | nil =>
    cases hrun
    exact h
  | cons e es ih =>
    obtain ⟨hallowed, hrest⟩ := hok
    obtain ⟨s₁, hstep, hrun⟩ := Option.bind_eq_some_iff.mp hrun
    rw [hstep] at hrest
    exact ih (.step e h hallowed hstep) hrest hrun

def emptyPages (p : BufferTag) : PageImage := ⟨p, 0, 0⟩

theorem secondBatch_ok :
    (St.created 1 emptyPages).RunOk smallFile (fun s e => s.Disciplined smallFile e) secondBatch := by
  iterate 2 refine And.intro trivial ?_
  refine And.intro (show ∀ t, _ ∉ _ from by decide +kernel) ?_
  iterate 5 refine And.intro trivial ?_
  exact And.intro (show ∀ t, _ ∉ _ from by decide +kernel) (And.intro trivial trivial)

theorem exists_secondBatch : ∃ s, (St.created 1 emptyPages).run smallFile secondBatch = some s ∧
      Reach smallFile (fun s e => s.Disciplined smallFile e) s := by
  obtain ⟨s, hs⟩ : ∃ s, (St.created 1 emptyPages).run smallFile secondBatch = some s := ⟨_, rfl⟩
  exact ⟨s, hs, Reach.run (.created emptyPages fun _ => rfl) secondBatch_ok hs⟩

/-- What a crash does to the data page, and twenty sectors of the second batch. -/
def tornPage : Crash where
  file := firstSectors 20
  head := fun _ => false
  data := fun _ j => j.val

theorem dwRecover_no_torn_page_secondBatch :
    ∃ s, (St.created 1 emptyPages).run smallFile secondBatch = some s ∧ tornPage.InOrder ∧
      ((s.crashDisk tornPage).data pageA).image? = none ∧
      ∃ img, s.synced pageA = whole img ∧
        Sectors.CompleteFrom tag lsn
          (dwRecoverPartialWriteBatch smallFile (s.crashDisk tornPage)).disk.data pageA img.lsn := by
  obtain ⟨s, hs, hreach⟩ := exists_secondBatch
  have horder : tornPage.InOrder := ⟨20, .inr (by decide), rfl⟩
  have htorn : ((St.created 1 emptyPages).run smallFile secondBatch).map (fun s =>
      ((s.crashDisk tornPage).data pageA).image?) = some none := by decide +kernel
  rw [hs] at htorn
  exact ⟨s, hs, horder, Option.some.inj htorn, dwRecover_no_torn_page hreach tornPage horder pageA⟩

/-- The crash tears the first page of the second batch, which is the tail of the
first, and the data page written after the first. -/
def tornTail : Crash where
  file := fun i j => decide (i = 0 ∧ j.val = 0)
  head := fun _ => false
  data := fun _ j => j.val

/-- The first batch then no longer verifies, and its data page stays torn. -/
theorem dwRecover_torn_tail : ∃ s, (St.created 1 emptyPages).run smallFile secondBatch = some s ∧
      Reach smallFile (fun s e => s.Disciplined smallFile e) s ∧
      ((dwRecoverPartialWriteBatch smallFile (s.crashDisk tornTail)).disk.data pageA).image? =
        none := by
  obtain ⟨s, hs, hreach⟩ := exists_secondBatch
  have htorn : ((St.created 1 emptyPages).run smallFile secondBatch).map (fun s =>
      ((dwRecoverPartialWriteBatch smallFile (s.crashDisk tornTail)).disk.data pageA).image?) =
        some none := by decide +kernel
  rw [hs] at htorn
  exact ⟨s, hs, hreach, Option.some.inj htorn⟩

end OpenGauss.DoubleWrite
