import OpenGauss.DoubleWrite.Batch

/-!
# What recovery reads from the batch file

From `start` on the file holds a chain of complete batches, and nothing behind
its end carries the number of the file. `dw_recover_partial_write_batch` then
puts back exactly the pages of the chain, in order, whatever else the file
holds.

* `Readable`: such a file
* `recoverBatches_chain`: the loop of the recovery on it
* `Readable.recovered`: what the recovery leaves
-/

namespace OpenGauss.DoubleWrite

open Lib
open PageImage (tag lsn)
open Sectors (whole restoreAll)

variable {b : Batch} {log : List Batch} {last pos : Nat} {r : ReadAsst}

structure Batch where
  pos : Nat
  pages : List PageImage

/-- The page after the data pages: the tail, or the head of the next batch. -/
def Batch.next (b : Batch) : Nat := b.pos + b.pages.length + 1

variable {size : DwFileSize} {file : Nat → DwPage} {dwn : Nat}

/-- The batch is in the file but for its tail. -/
structure BatchAt (file : Nat → DwPage) (dwn : Nat) (b : Batch) : Prop where
  nonempty : b.pages ≠ []
  head : file b.pos = whole (dwPreparePage b.pages b.pos dwn)
  data : ∀ i img, b.pages[i]? = some img → file (b.pos + 1 + i) = whole (.data img)

/-- Batches one after the other from `pos` to `last`. -/
def Chain (file : Nat → DwPage) (dwn : Nat) : Nat → List Batch → Nat → Prop
  | pos, [], last => pos = last
  | pos, b :: log, last => b.pos = pos ∧ BatchAt file dwn b ∧ Chain file dwn b.next log last

/-- Every good head or tail page describes a batch that fits one head page and
the file. -/
def HeadsFit (size : DwFileSize) (file : Nat → DwPage) : Prop :=
  ∀ i b, dwVerifyPage (file i) = some b →
    b.pageNum ≤ dwBatchDataPageMax false ∧ i + b.pageNum + 1 < size.pages

/-- A file whose batches from `start` to `last` are `log`. -/
structure Readable (size : DwFileSize) (file : Nat → DwPage) (head : FileHead)
    (log : List Batch) (last : Nat) : Prop where
  start_pos : 1 ≤ head.start
  chain : Chain file head.dwn head.start log last
  tail : log ≠ [] → carriesDwn (file last) head.dwn = true
  fresh : ∀ i, last < i → carriesDwn (file i) head.dwn = false
  fit : HeadsFit size file
  room : last < size.pages

/-! ## Pages of a chain -/

theorem dwVerifyPage_whole (b : BatchPage) : dwVerifyPage (whole (.batch b)) = some b := by
  simp [dwVerifyPage]

theorem BatchAt.verify (h : BatchAt file dwn b) : dwVerifyPage (file b.pos) =
      some ⟨b.pos, dwn, b.pages.length, b.pages.map tag⟩ := by
  rw [h.head]
  exact dwVerifyPage_whole _

theorem carriesDwn_iff {p : DwPage} :
    carriesDwn p dwn = true ↔ ∃ b, dwVerifyPage p = some b ∧ b.dwn = dwn := by
  unfold carriesDwn
  cases dwVerifyPage p with
  | none | some => simp

theorem BatchAt.carries (h : BatchAt file dwn b) :
    carriesDwn (file b.pos) dwn = true := carriesDwn_iff.mpr ⟨_, h.verify, rfl⟩

theorem Chain.le (h : Chain file dwn pos log last) : pos ≤ last := by
  induction log generalizing pos with
  | nil => exact h.le
  | cons b log ih =>
    obtain ⟨rfl, _, hrest⟩ := h
    have := ih hrest
    simp only [Batch.next] at this
    omega

/-- The page behind the first batch of a chain is good. -/
theorem Chain.tail_carries (h : Chain file dwn b.next log last)
    (htail : carriesDwn (file last) dwn = true) : carriesDwn (file b.next) dwn = true := by
  cases log with
  | nil =>
    rw [show b.next = last from h]
    exact htail
  | cons c log =>
    obtain ⟨hpos, hat, _⟩ := h
    rw [← hpos]
    exact hat.carries

/-! ## The read window -/

/-- The buffer from `bufStart` on holds the file from `pos` on. -/
structure Window (file : Nat → DwPage) (r : ReadAsst) (pos : Nat) : Prop where
  le : r.bufStart ≤ r.bufEnd
  capacity : r.bufEnd ≤ dwBufMax
  fileStart : r.fileStart = pos + (r.bufEnd - r.bufStart)
  content : ∀ i, r.bufStart + i < r.bufEnd → r.buf (r.bufStart + i) = file (pos + i)

theorem Window.read {readingPages : Nat} (h : Window file r pos)
    (hcap : r.bufEnd + readingPages ≤ dwBufMax) :
    Window file (dwReadPages file r readingPages) pos where
  le := h.le.trans (Nat.le_add_right _ _)
  capacity := hcap
  fileStart := by
    have := h.le
    have := h.fileStart
    simp only [dwReadPages]
    omega
  content := by
    intro i hi
    have hle := h.le
    have hstart := h.fileStart
    simp only [dwReadPages] at hi ⊢
    by_cases hin : r.bufStart + i < r.bufEnd
    · rw [if_neg (by omega)]
      exact h.content i hin
    rw [if_pos ⟨by omega, hi⟩]
    congr 1
    omega

theorem Window.discard {k : Nat} (h : Window file r pos) (hk : r.bufStart + k ≤ r.bufEnd) :
    Window file (dwDiscardPages r k) (pos + k) where
  le := hk
  capacity := h.capacity
  fileStart := by
    have := h.fileStart
    simp only [dwDiscardPages]
    omega
  content := by
    intro i hi
    simp only [dwDiscardPages, Nat.add_assoc] at hi ⊢
    exact h.content (k + i) hi

theorem Window.moveFront (h : Window file r pos) : Window file { r with
        bufStart := 0
        bufEnd := r.bufEnd - r.bufStart
        buf := fun i => if i < r.bufEnd - r.bufStart then r.buf (r.bufStart + i) else r.buf i }
      pos where
  le := Nat.zero_le _
  capacity := (Nat.sub_le _ _).trans h.capacity
  fileStart := h.fileStart
  content := by
    intro i hi
    simp only [Nat.zero_add] at hi ⊢
    rw [if_pos hi]
    exact h.content i (by omega)

/-- What is read next completes the batch at `pos`. -/
theorem Window.calc {next : ReadAsst} {pageNum readingPages : Nat} (h : Window file r pos)
    (hnum : pageNum ≤ dwBatchDataPageMax false)
    (hnext : dwCalcReadingPages r pageNum = (next, readingPages)) :
    Window file (dwReadPages file next readingPages) pos ∧
      (dwReadPages file next readingPages).bufStart + (pageNum + 2) ≤
        (dwReadPages file next readingPages).bufEnd := by
  have hle := h.le
  have hmax : dwBatchDataPageMax false = 409 := rfl
  have hcap : dwBufMax = 683 := rfl
  have hextra : dwExtraForOneBatch = 2 := rfl
  have hc := h.capacity
  unfold dwCalcReadingPages at hnext
  dsimp only at hnext
  split at hnext
  · cases hnext
    refine ⟨h.read (by omega), ?_⟩
    simp only [dwReadPages]
    omega
  split at hnext
  · cases hnext
    refine ⟨h.moveFront.read (by simp only; omega), ?_⟩
    simp only [dwReadPages]
    omega
  · cases hnext
    refine ⟨h.read (by omega), ?_⟩
    simp only [dwReadPages]
    omega

/-! ## The loop -/

theorem dwRecoverPages_eq {buf : Nat → DwPage} {pages : List PageImage} :
    ∀ {first : Nat} {d : DataFiles},
      (∀ i img, pages[i]? = some img → buf (first + i) = whole (.data img)) →
      dwRecoverPages buf first (pages.map tag) d =
        restoreAll tag lsn d pages := by
  induction pages with
  | nil => exact fun _ => rfl
  | cons img pages ih =>
    intro first d h
    have hfirst : buf first = whole (.data img) := h 0 img rfl
    have hone : dwRecoverPage d img.tag (buf first) =
        Sectors.restore lsn d img.tag img := by
      simp only [dwRecoverPage, dwVerifyPgChecksum, hfirst, Sectors.image?_whole, if_true]
    have hrest : ∀ i img', pages[i]? = some img' →
        buf (first + 1 + i) = whole (.data img') := by
      intro i img' hi
      rw [Nat.add_assoc, Nat.add_comm 1 i]
      exact h (i + 1) img' hi
    rw [List.map_cons, dwRecoverPages, hone, ih hrest]
    rfl

/-- A head page behind which nothing carries the number does not make a batch. -/
theorem dwVerifyBatch_last (hw : Window file r last)
    (hcover : ∀ b, dwVerifyPage (file last) = some b → r.bufStart + (b.pageNum + 2) ≤ r.bufEnd)
    (hne : r.bufStart < r.bufEnd) (hfresh : ∀ i, last < i → carriesDwn (file i) dwn = false) :
    dwVerifyBatch r.buf r.bufStart dwn = false := by
  have hhead : r.buf r.bufStart = file last := hw.content 0 hne
  unfold dwVerifyBatch
  rw [hhead]
  cases hv : dwVerifyPage (file last) with
  | none => rfl
  | some b =>
    have hin := hcover b hv
    have htail : r.buf (r.bufStart + b.pageNum + 1) = file (last + (b.pageNum + 1)) :=
      hw.content (b.pageNum + 1) (by omega)
    have hno := hfresh (last + (b.pageNum + 1)) (by omega)
    simp [htail, hno]

/-- A batch of the chain, with a good page behind it, is verified. -/
theorem dwVerifyBatch_batchAt (hw : Window file r b.pos) (hat : BatchAt file dwn b)
    (hcover : r.bufStart + (b.pages.length + 2) ≤ r.bufEnd)
    (hnext : carriesDwn (file b.next) dwn = true) : dwVerifyBatch r.buf r.bufStart dwn = true := by
  have hhead : r.buf r.bufStart = file b.pos := hw.content 0 (by omega)
  have htail : r.buf (r.bufStart + b.pages.length + 1) = file b.next :=
    hw.content (b.pages.length + 1) (by omega)
  have hcap := hw.capacity
  have hbuf : dwBufMax = 683 := rfl
  have hmax : maxPageIdx = 821 := rfl
  unfold dwVerifyBatch
  rw [hhead, hat.verify]
  simp only [decide_eq_true_eq]
  refine ⟨trivial, by omega, ?_⟩
  rw [htail]
  exact hnext

theorem recoverBatches_chain (hfit : HeadsFit size file)
    (hfresh : ∀ i, last < i → carriesDwn (file i) dwn = false)
    (pos fuel readingPages flushPage : Nat) (r : ReadAsst) (d : DataFiles)
    (hchain : Chain file dwn pos log last) (htail : log ≠ [] → carriesDwn (file last) dwn = true)
    (hw : Window file (dwReadPages file r readingPages) pos)
    (hcover : ∀ b, dwVerifyPage (file pos) = some b →
        (dwReadPages file r readingPages).bufStart + (b.pageNum + 2) ≤
          (dwReadPages file r readingPages).bufEnd)
    (hne : (dwReadPages file r readingPages).bufStart < (dwReadPages file r readingPages).bufEnd)
    (hfuel : log.length < fuel) :
      ∃ broken, recoverBatches file dwn fuel r readingPages d flushPage =
        ⟨restoreAll tag lsn d (log.flatMap Batch.pages),
          flushPage + (last - pos), broken⟩ := by
  induction log generalizing pos fuel readingPages flushPage r d with
  | nil =>
    obtain rfl : pos = last := hchain
    obtain ⟨fuel, rfl⟩ : ∃ m, fuel = m + 1 := ⟨fuel - 1, by simp at hfuel; omega⟩
    have hno := dwVerifyBatch_last hw hcover hne hfresh
    refine ⟨dwBatchHeadBroken ((dwReadPages file r readingPages).buf
      (dwReadPages file r readingPages).bufStart), ?_⟩
    rw [recoverBatches]
    simp only [hno, Bool.false_eq_true, if_false]
    rw [Nat.sub_self]
    rfl
  | cons b log ih =>
    obtain ⟨rfl, hat, hrest⟩ := hchain
    obtain ⟨fuel, rfl⟩ : ∃ m, fuel = m + 1 := ⟨fuel - 1, by simp at hfuel; omega⟩
    have hlast := htail (List.cons_ne_nil _ _)
    have hnext := hrest.tail_carries hlast
    have hin : (dwReadPages file r readingPages).bufStart + (b.pages.length + 2) ≤
        (dwReadPages file r readingPages).bufEnd := hcover _ hat.verify
    have hyes := dwVerifyBatch_batchAt hw hat hin hnext
    generalize hr' : dwReadPages file r readingPages = r' at hw hin hyes
    have hhead : dwVerifyPage (r'.buf r'.bufStart) = _ :=
      (congrArg dwVerifyPage (hw.content 0 (by omega))).trans hat.verify
    set d' := restoreAll tag lsn d b.pages
    set rest := dwDiscardPages r' (1 + b.pages.length) with hdis
    have hpages : dwRecoverPages r'.buf (r'.bufStart + 1) (b.pages.map tag) d =
        d' := by
      apply dwRecoverPages_eq
      intro i img hi
      have hlt : i < b.pages.length := by
        obtain ⟨hlt, _⟩ := List.getElem?_eq_some_iff.mp hi
        exact hlt
      rw [Nat.add_assoc, hw.content (1 + i) (by omega), ← Nat.add_assoc]
      exact hat.data i img hi
    have hpos : b.next = b.pos + (1 + b.pages.length) := by
      simp only [Batch.next]
      omega
    have hdiscard : Window file rest b.next := by
      rw [hpos]
      exact hw.discard (by omega)
    have htailPage : rest.buf
        rest.bufStart = file b.next := by
      refine hdiscard.content 0 ?_
      simp only [rest, dwDiscardPages]
      omega
    obtain ⟨tail, hv, _⟩ := carriesDwn_iff.mp hnext
    have hle := hrest.le
    have hflush : flushPage + (1 + b.pages.length) + (last - b.next) =
        flushPage + (last - b.pos) := by omega
    have hstep : recoverBatches file dwn (fuel + 1) r readingPages d flushPage =
        if tail.pageNum = 0 then
          ⟨d', flushPage + (1 + b.pages.length), false⟩
        else
          recoverBatches file dwn fuel
            (dwCalcReadingPages rest tail.pageNum).1
            (dwCalcReadingPages rest tail.pageNum).2
            d'
            (flushPage + (1 + b.pages.length)) := by
      rw [recoverBatches]
      simp only [hr', hyes, if_true, hhead, ← hdis, htailPage, hv, hpages]
    rw [hstep]
    by_cases hzero : tail.pageNum = 0
    · -- an empty tail ends the chain
      have hnil : log = [] := by
        cases log with
        | nil => rfl
        | cons c log =>
          obtain ⟨hcpos, hcat, _⟩ := hrest
          rw [← hcpos, hcat.verify] at hv
          cases hv
          exact absurd (List.length_eq_zero_iff.mp hzero) hcat.nonempty
      subst hnil
      obtain rfl : b.next = last := hrest
      refine ⟨false, ?_⟩
      rw [if_pos hzero]
      rw [Nat.sub_self, Nat.add_zero] at hflush
      rw [← hflush]
      simp [d']
    · rw [if_neg hzero, ← hflush]
      have hfits := (hfit _ _ hv).1
      obtain ⟨⟨more, reading⟩, hcalc⟩ : ∃ c,
          dwCalcReadingPages rest tail.pageNum = c := ⟨_, rfl⟩
      rw [hcalc]
      obtain ⟨hwin, hcov⟩ := hdiscard.calc hfits hcalc
      obtain ⟨broken, hih⟩ := ih b.next fuel reading (flushPage + (1 + b.pages.length)) more
        d' hrest (fun _ => hlast) hwin
        (fun c hc => by
          rw [hv] at hc
          cases hc
          exact hcov)
        (by omega) (by simp at hfuel; omega)
      refine ⟨broken, ?_⟩
      rw [hih, List.flatMap_cons]
      simp only [d', restoreAll, List.foldl_append]

/-! ## The whole recovery -/

theorem Chain.length_le (h : Chain file dwn pos log last) : log.length ≤ last - pos := by
  induction log generalizing pos with
  | nil => exact Nat.zero_le _
  | cons b log ih =>
    obtain ⟨rfl, _, hrest⟩ := h
    have hlen := ih hrest
    have hle := hrest.le
    simp only [Batch.next, List.length_cons] at hlen hle ⊢
    omega

theorem Window.empty (pos : Nat) : Window file ⟨pos, 0, 0, fun _ => whole .zero⟩ pos where
  le := le_rfl
  capacity := Nat.zero_le _
  fileStart := rfl
  content := fun _ hi => absurd hi (Nat.not_lt_zero _)

/-- What the recovery of a readable file leaves: the pages of its batches are
back, and the file goes on behind them or, short of room, starts over. -/
structure RecoveredFrom (size : DwFileSize) (disk : Disk) (log : List Batch) (last : Nat)
    (r : Recovered) : Prop where
  data : r.disk.data =
    restoreAll tag lsn disk.data (log.flatMap Batch.pages)
  heads : ∀ i, r.disk.heads i = r.cxt.head
  flushPage : r.cxt.flushPage = 0
  head : r.cxt.head = ⟨last, (disk.heads 0).dwn⟩ ∧ last + dwBufMax < size.pages ∨
    r.cxt.head = ⟨dwBatchFileStart, (disk.cxtBehind size).nextDwn.dwn⟩ ∧
      fileFull size (disk.cxtBehind size) dwBufMax
  file : r.disk.file = disk.file ∨ r.disk.file =
    Sectors.write disk.file r.cxt.head.start [dwPreparePage [] r.cxt.head.start r.cxt.head.dwn]

theorem Readable.recovered {disk : Disk} (h : Readable size disk.file (disk.heads 0) log last) :
    RecoveredFrom size disk log last (dwRecoverPartialWriteBatch size disk) := by
  have hle := h.chain.le
  have hroom := h.room
  have hbatch : dwBatchMaxForNohbk = 411 := rfl
  have hbuf : dwBufMax = 683 := rfl
  have hpages : dwBatchDataPageMax false = 409 := rfl
  have hempty : Window disk.file _ _ := Window.empty (disk.heads 0).start
  have hwin : Window disk.file (dwReadPages disk.file _
      (min dwBatchMaxForNohbk (size.pages - (disk.heads 0).start))) _ :=
    hempty.read (by simp only; omega)
  obtain ⟨broken, hloop⟩ := recoverBatches_chain h.fit h.fresh (disk.heads 0).start size.pages
    (min dwBatchMaxForNohbk (size.pages - (disk.heads 0).start)) 0 _ disk.data h.chain h.tail hwin
    (fun b hb => by
      have := h.fit _ b hb
      simp only [dwReadPages]
      omega)
    (by simp only [dwReadPages]; omega)
    (by have := h.chain.length_le; omega)
  have hsize := size.pages_le
  generalize hd : restoreAll tag lsn disk.data
    (log.flatMap Batch.pages) = restored at hloop
  rw [Nat.zero_add] at hloop
  have hadd : (disk.heads 0).start + (last - (disk.heads 0).start) = last := by omega
  have hall : disk.recoverAll size = ⟨restored, last - (disk.heads 0).start, broken⟩ := hloop
  have hbehind : disk.cxtBehind size = ⟨disk.heads 0, last - (disk.heads 0).start⟩ := by
    rw [Disk.cxtBehind, hall, dwRecoverBatchFileHead]
  -- where the file goes on
  have hcxt : ∃ cxt : FileCxt, cxt.flushPage = 0 ∧
      (cxt.head = ⟨last, (disk.heads 0).dwn⟩ ∧ last + dwBufMax < size.pages ∨
        cxt.head = ⟨dwBatchFileStart, (disk.cxtBehind size).nextDwn.dwn⟩ ∧
          fileFull size (disk.cxtBehind size) dwBufMax) ∧
      (if fileFull size (disk.cxtBehind size) dwBufMax then
          (⟨(disk.cxtBehind size).resetStart.nextDwn, 0⟩ : FileCxt)
        else if 0 < (disk.cxtBehind size).flushPage then
          (disk.cxtBehind size).truncate 0 (disk.cxtBehind size).flushPage
        else disk.cxtBehind size) = cxt := by
    by_cases hfull : fileFull size (disk.cxtBehind size) dwBufMax = true
    · exact ⟨_, rfl, .inr ⟨rfl, hfull⟩, by rw [if_pos hfull]⟩
    rw [hbehind] at hfull ⊢
    have hfit : last + dwBufMax < size.pages := by
      simp only [fileFull, decide_eq_true_eq, hadd] at hfull
      omega
    by_cases hflush : 0 < last - (disk.heads 0).start
    · refine ⟨⟨⟨last, (disk.heads 0).dwn⟩, 0⟩, rfl, .inl ⟨rfl, hfit⟩, ?_⟩
      rw [if_neg hfull, if_pos hflush]
      simp only [FileCxt.truncate, if_true, hadd, u16]
      congr 1
      · congr 1
        omega
      · omega
    · refine ⟨⟨disk.heads 0, 0⟩, rfl, .inl ⟨?_, hfit⟩, ?_⟩
      · rw [show last = (disk.heads 0).start by omega]
      · rw [if_neg hfull, if_neg hflush]
        congr 1
        omega
  obtain ⟨cxt, hzero, hhead, hcase⟩ := hcxt
  have heq : dwRecoverPartialWriteBatch size disk =
      ⟨⟨fun _ => cxt.head,
        if broken then
          Sectors.write disk.file cxt.head.start [dwPreparePage [] cxt.head.start cxt.head.dwn]
        else disk.file, restored⟩, cxt⟩ := by
    simp only [dwRecoverPartialWriteBatch, hall, hcase]
  rw [heq]
  refine ⟨hd.symm, fun _ => rfl, hzero, hhead, ?_⟩
  cases broken
  · exact .inl rfl
  · exact .inr rfl

/-- The recovered file is readable again, with no batch in it. -/
theorem RecoveredFrom.readable {disk : Disk} {r : Recovered}
    (hr : RecoveredFrom size disk log last r) (h : Readable size disk.file (disk.heads 0) log last)
    (hunused : fileFull size (disk.cxtBehind size) dwBufMax →
      ∀ i, carriesDwn (disk.file i) (disk.cxtBehind size).nextDwn.dwn = false) :
    Readable size r.disk.file r.cxt.head [] r.cxt.head.start := by
  have hle := h.chain.le
  have hpos := h.start_pos
  have hsize := size.pages_ge
  have hbuf : dwBufMax = 683 := rfl
  have hone : dwBatchFileStart = 1 := rfl
  have hstart : 1 ≤ r.cxt.head.start ∧ r.cxt.head.start + 1 < size.pages := by
    rcases hr.head with ⟨hhead, hroom⟩ | ⟨hhead, -⟩
    · rw [hhead]
      simp only
      omega
    · rw [hhead]
      simp only
      omega
  have hfresh : ∀ i, r.cxt.head.start < i → carriesDwn (disk.file i) r.cxt.head.dwn = false := by
    intro i hi
    rcases hr.head with ⟨hhead, -⟩ | ⟨hhead, hfull⟩
    · rw [hhead] at hi ⊢
      exact h.fresh i hi
    · rw [hhead]
      exact hunused hfull i
  -- at most the empty batch at the start is new in the file
  have hwritten : ∀ i, i ≠ r.cxt.head.start → r.disk.file i = disk.file i := by
    intro i hi
    rcases hr.file with hfile | hfile
    · rw [hfile]
    rw [hfile]
    apply Sectors.write_outside
    simp only [List.length_singleton]
    omega
  refine ⟨hstart.1, rfl, fun hne => absurd rfl hne, ?_, ?_, by omega⟩
  · intro i hi
    rw [hwritten i (by omega)]
    exact hfresh i hi
  · intro i b hb
    by_cases hi : i = r.cxt.head.start
    · rcases hr.file with hfile | hfile
      · rw [hfile] at hb
        exact h.fit i b hb
      have hpage : r.disk.file i = whole (dwPreparePage [] i r.cxt.head.dwn) := by
        rw [hfile, hi]
        exact Sectors.write_inside le_rfl (by simp)
      rw [hpage, dwPreparePage, dwVerifyPage_whole] at hb
      cases hb
      simp only [List.length_nil]
      exact ⟨Nat.zero_le _, by omega⟩
    · rw [hwritten i hi] at hb
      exact h.fit i b hb

end OpenGauss.DoubleWrite
