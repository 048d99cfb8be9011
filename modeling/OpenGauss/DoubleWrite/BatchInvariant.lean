import OpenGauss.DoubleWrite.BatchProtocol
import OpenGauss.DoubleWrite.BatchRecover

/-!
# The invariant of the batch protocol

The file on disk is readable from the start its head names, and every data page
with a write that is not synced has a copy in one of its batches that is not
older than what was last synced. `Inv` says this together with what each thread
knows about the pages it holds.

* `Inv`: the invariant, for the batches `log` in the file and the page `last`
  behind them
* `Readable.written`: writing a batch behind the last one, completely or torn in
  order, leaves a readable file
-/

namespace OpenGauss.DoubleWrite

open Lib
open Sectors (whole)

variable {n : Nat} {size : DwFileSize}
variable {parts : List (List PageImage)} {log : List Batch} {dwn pos : Nat} {file : Nat → DwPage}

/-! ## Batches as they lie in the file -/

/-- The pages of a batch, at most two parts, from `pageId` on. -/
def layout (dwn : Nat) : Nat → List (List PageImage) → List FilePage
  | pageId, [] => [dwPreparePage [] pageId dwn]
  | pageId, pages :: parts =>
    dwPreparePage pages pageId dwn :: pages.map FilePage.data ++
      layout dwn (pageId + 1 + pages.length) parts

/-- What goes under the first head and what under the second. -/
def batchParts (isNew : Bool) (pages : List PageImage) : List (List PageImage) :=
  if pages.drop (dwBatchDataPageMax isNew) = [] then [pages.take (dwBatchDataPageMax isNew)]
  else [pages.take (dwBatchDataPageMax isNew), pages.drop (dwBatchDataPageMax isNew)]

/-- The batches that parts written at `pos` make. -/
def batchesAt : Nat → List (List PageImage) → List Batch
  | _, [] => []
  | pos, pages :: parts => ⟨pos, pages⟩ :: batchesAt (pos + 1 + pages.length) parts

theorem dwAssembleBatch_eq (isNew : Bool) (pageId dwn : Nat) (pages : List PageImage) :
    dwAssembleBatch isNew pageId dwn pages = layout dwn pageId (batchParts isNew pages) := by
  unfold dwAssembleBatch batchParts
  by_cases h : pages.drop (dwBatchDataPageMax isNew) = []
  · simp [h, layout]
  · simp [h, layout]

theorem dwBatchDataPageMax_pos (isNew : Bool) : 0 < dwBatchDataPageMax isNew := by
  cases isNew <;> decide

theorem dwBatchDataPageMax_le (isNew : Bool) :
    dwBatchDataPageMax isNew ≤ dwBatchDataPageMax false := by
  cases isNew <;> decide

theorem batchParts_ok {isNew : Bool} {pages : List PageImage} (hne : pages ≠ [])
    (hlen : pages.length ≤ dwDirtyPageMax isNew) :
    ∀ ps ∈ batchParts isNew pages, ps ≠ [] ∧ ps.length ≤ dwBatchDataPageMax false := by
  have hpos := dwBatchDataPageMax_pos isNew
  have hle := dwBatchDataPageMax_le isNew
  have htake : pages.take (dwBatchDataPageMax isNew) ≠ [] := by
    cases pages with
    | nil => exact absurd rfl hne
    | cons p pages =>
      obtain ⟨m, hm⟩ := Nat.exists_eq_succ_of_ne_zero (Nat.pos_iff_ne_zero.mp hpos)
      rw [hm]
      exact List.cons_ne_nil _ _
  have htakeLen : (pages.take (dwBatchDataPageMax isNew)).length ≤ dwBatchDataPageMax false := by
    rw [List.length_take]
    omega
  intro ps hps
  unfold batchParts at hps
  split at hps
  · obtain rfl := List.mem_singleton.mp hps
    exact ⟨htake, htakeLen⟩
  rename_i hdrop
  rcases List.mem_cons.mp hps with rfl | hps
  · exact ⟨htake, htakeLen⟩
  obtain rfl := List.mem_singleton.mp hps
  refine ⟨hdrop, ?_⟩
  rw [List.length_drop]
  unfold dwDirtyPageMax at hlen
  omega

theorem flatten_batchParts (isNew : Bool) (pages : List PageImage) :
    (batchParts isNew pages).flatten = pages := by
  unfold batchParts
  split
  · rename_i h
    have := List.take_append_drop (dwBatchDataPageMax isNew) pages
    rw [h, List.append_nil] at this
    simpa using this
  · simp

theorem mem_batchesAt_pages {c : PageImage} (pos : Nat) (h : c ∈ parts.flatten) :
    ∃ b ∈ batchesAt pos parts, pos ≤ b.pos ∧ c ∈ b.pages := by
  induction parts generalizing pos with
  | nil => cases h
  | cons ps parts ih =>
    rw [List.flatten_cons, List.mem_append] at h
    rcases h with h | h
    · exact ⟨⟨pos, ps⟩, .head _, Nat.le_refl _, h⟩
    · obtain ⟨b, hb, hle, hc⟩ := ih (pos + 1 + ps.length) h
      exact ⟨b, .tail _ hb, by omega, hc⟩

theorem length_layout (dwn : Nat) (parts : List (List PageImage)) (pos : Nat) :
    (layout dwn pos parts).length = parts.flatten.length + parts.length + 1 := by
  induction parts generalizing pos with
  | nil => rfl
  | cons ps parts ih =>
    simp only [layout, List.length_cons, List.length_append, List.length_map, ih, List.flatten_cons]
    omega

theorem length_dwAssembleBatch (isNew : Bool) (pageId dwn : Nat) (pages : List PageImage) :
    (dwAssembleBatch isNew pageId dwn pages).length = dwBatchAddExtra pages.length isNew := by
  rw [dwAssembleBatch_eq, length_layout, flatten_batchParts]
  unfold batchParts dwBatchAddExtra dwExtraForOneBatch dwExtraForTwoBatch
  by_cases h : pages.drop (dwBatchDataPageMax isNew) = []
  · have hlen := List.drop_eq_nil_iff.mp h
    rw [if_pos h, if_pos hlen]
    rfl
  have hlen : ¬pages.length ≤ dwBatchDataPageMax isNew :=
    fun hle => h (List.drop_eq_nil_iff.mpr hle)
  rw [if_neg h, if_neg hlen]
  rfl

/-- A head or tail page among the pages of a batch names pages that follow it there. -/
theorem layout_fit {b : BatchPage} {m : Nat} (hparts : ∀ ps ∈ parts, ps.length ≤ m) {pos i : Nat}
    (h : (layout dwn pos parts)[i]? = some (.batch b)) :
      b.pageNum ≤ m ∧ i + b.pageNum + 1 ≤ (layout dwn pos parts).length := by
  induction parts generalizing pos i with
  | nil =>
    cases i with
    | zero =>
      simp only [layout, List.getElem?_cons_zero, Option.some.injEq, dwPreparePage] at h
      cases h
      exact ⟨Nat.zero_le _, Nat.le_refl _⟩
    | succ i => simp [layout] at h
  | cons ps parts ih =>
    have hlen := length_layout dwn (ps :: parts) pos
    have hlen' := length_layout dwn parts (pos + 1 + ps.length)
    simp only [List.flatten_cons, List.length_append, List.length_cons] at hlen
    cases i with
    | zero =>
      simp only [layout, List.cons_append, List.getElem?_cons_zero, Option.some.injEq,
        dwPreparePage] at h
      cases h
      exact ⟨hparts ps (.head _), by simp only; omega⟩
    | succ i =>
      simp only [layout, List.cons_append, List.getElem?_cons_succ] at h
      by_cases hi : i < ps.length
      · rw [List.getElem?_append_left (by simpa using hi), List.getElem?_map] at h
        rw [List.getElem?_eq_getElem hi] at h
        cases h
      · rw [List.getElem?_append_right (by simpa using hi), List.length_map] at h
        obtain ⟨hm, hle⟩ := ih (fun qs hqs => hparts qs (.tail _ hqs)) h
        exact ⟨hm, by omega⟩

theorem layout_data {i : Nat} {ps : List PageImage} (hi : i < ps.length) :
    (layout dwn pos (ps :: parts))[1 + i]? = some (.data (ps.get ⟨i, hi⟩)) := by
  rw [Nat.add_comm, layout, List.cons_append, List.getElem?_cons_succ,
    List.getElem?_append_left (by simpa using hi), List.getElem?_map,
    List.getElem?_eq_getElem hi]
  rfl

theorem layout_rest {i : Nat} {ps : List PageImage} :
    (layout dwn pos (ps :: parts))[1 + ps.length + i]? =
      (layout dwn (pos + 1 + ps.length) parts)[i]? := by
  rw [Nat.add_assoc, Nat.add_comm 1, layout, List.cons_append, List.getElem?_cons_succ,
    List.getElem?_append_right (by simp), List.length_map, Nat.add_sub_cancel_left]

theorem carriesDwn_data (img : PageImage) (dwn : Nat) :
    carriesDwn (whole (.data img)) dwn = false := by
  simp [carriesDwn, dwVerifyPage]

theorem carriesDwn_prepared (pages : List PageImage) (pageId dwn : Nat) :
    carriesDwn (whole (dwPreparePage pages pageId dwn)) dwn = true :=
  carriesDwn_iff.mpr ⟨_, dwVerifyPage_whole _, rfl⟩

/-- With the first `k` pages of a batch in the file and nothing behind them
under its number, the parts that are there with their tail form a chain. -/
theorem layout_chain (hparts : ∀ ps ∈ parts, ps ≠ []) {pos k : Nat} (hk : 1 ≤ k)
    (hlen : k ≤ (layout dwn pos parts).length)
    (hnew : ∀ i a, i < k → (layout dwn pos parts)[i]? = some a → file (pos + i) = whole a)
    (hold : ∀ i, pos + k ≤ i → carriesDwn (file i) dwn = false) :
      ∃ extra last, Chain file dwn pos extra last ∧ carriesDwn (file last) dwn = true ∧
        (∀ i, last < i → carriesDwn (file i) dwn = false) ∧
        last < pos + (layout dwn pos parts).length ∧
        (∀ b ∈ extra, b ∈ batchesAt pos parts) ∧
        ((layout dwn pos parts).length = k →
          extra = batchesAt pos parts ∧ last + 1 = pos + (layout dwn pos parts).length) := by
  induction parts generalizing pos k with
  | nil =>
    have hhead : file pos = whole (dwPreparePage [] pos dwn) := hnew 0 _ hk rfl
    refine ⟨[], pos, rfl, ?_, fun i hi => hold i ?_, by simp [layout], nofun, fun _ => ⟨rfl, rfl⟩⟩
    · rw [hhead]
      exact carriesDwn_prepared _ _ _
    · simp only [layout, List.length_singleton] at hlen
      omega
  | cons ps parts ih =>
    have hhead : file pos = whole (dwPreparePage ps pos dwn) := hnew 0 _ hk rfl
    have htotal : (layout dwn pos (ps :: parts)).length =
        1 + ps.length + (layout dwn (pos + 1 + ps.length) parts).length := by
      rw [length_layout, length_layout]
      simp only [List.flatten_cons, List.length_append, List.length_cons]
      omega
    by_cases hdone : 1 + ps.length < k
    · -- the tail of the first part is there
      have hat : BatchAt file dwn ⟨pos, ps⟩ := by
        refine ⟨hparts ps (.head _), hhead, ?_⟩
        intro i img hi
        obtain ⟨hlt, rfl⟩ := List.getElem?_eq_some_iff.mp hi
        rw [Nat.add_assoc]
        exact hnew (1 + i) _ (by simp only at hlt; omega) (layout_data hlt)
      have hnew' : ∀ i a, i < k - (1 + ps.length) →
          (layout dwn (pos + 1 + ps.length) parts)[i]? = some a →
          file (pos + 1 + ps.length + i) = whole a := by
        intro i a hi ha
        rw [Nat.add_assoc pos, Nat.add_assoc pos]
        exact hnew (1 + ps.length + i) a (by omega) (layout_rest.trans ha)
      have hold' : ∀ i, pos + 1 + ps.length + (k - (1 + ps.length)) ≤ i →
          carriesDwn (file i) dwn = false := fun i hi => hold i (by omega)
      obtain ⟨extra, last, hchain, htail, hfresh, hlt, hmem, hall⟩ :=
        ih (fun qs hqs => hparts qs (.tail _ hqs)) (by omega) (by omega) hnew' hold'
      have hnext : Batch.next ⟨pos, ps⟩ = pos + 1 + ps.length := by
        simp only [Batch.next]
        omega
      refine ⟨⟨pos, ps⟩ :: extra, last, ⟨rfl, hat, hnext ▸ hchain⟩, htail, hfresh, by omega, ?_, ?_⟩
      · intro b hb
        rcases List.mem_cons.mp hb with rfl | hb
        · exact .head _
        · exact .tail _ (hmem b hb)
      · intro hk'
        obtain ⟨rfl, hlast⟩ := hall (by omega)
        exact ⟨rfl, by omega⟩
    · refine ⟨[], pos, rfl, ?_, ?_, by omega, nofun, fun hk' => ?_⟩
      · rw [hhead]
        exact carriesDwn_prepared _ _ _
      · intro i hi
        by_cases hik : pos + k ≤ i
        · exact hold i hik
        -- a data page
        have hin : i - pos - 1 < ps.length := by omega
        have hpage : file (pos + (1 + (i - pos - 1))) = _ :=
          hnew (1 + (i - pos - 1)) _ (by omega) (layout_data hin)
        rw [show pos + (1 + (i - pos - 1)) = i by omega] at hpage
        rw [hpage]
        exact carriesDwn_data _ _
      · have := length_layout dwn parts (pos + 1 + ps.length)
        omega

/-! ## Appending a batch -/

theorem Chain.append {mid last : Nat} {extra : List Batch} (h : Chain file dwn pos log mid)
    (hextra : Chain file dwn mid extra last) : Chain file dwn pos (log ++ extra) last := by
  induction log generalizing pos with
  | nil =>
    obtain rfl : pos = mid := h
    exact hextra
  | cons b log ih =>
    obtain ⟨hpos, hat, hrest⟩ := h
    exact ⟨hpos, hat, ih hrest⟩

theorem Chain.congr {file' : Nat → DwPage} {last : Nat} (h : Chain file dwn pos log last)
    (heq : ∀ i, i < last → file' i = file i) : Chain file' dwn pos log last := by
  induction log generalizing pos with
  | nil => exact h
  | cons b log ih =>
    obtain ⟨hpos, hat, hrest⟩ := h
    have hle := hrest.le
    simp only [Batch.next] at hle
    refine ⟨hpos, ⟨hat.nonempty, ?_, ?_⟩, ih hrest⟩
    · rw [heq _ (by omega)]
      exact hat.head
    · intro i img hi
      obtain ⟨hlt, _⟩ := List.getElem?_eq_some_iff.mp hi
      rw [heq _ (by omega)]
      exact hat.data i img hi

theorem carriesDwn_of_image {p q : DwPage} (h : ∀ a, p.image? = some a → q.image? = some a)
    (hq : carriesDwn q dwn = false) : carriesDwn p dwn = false := by
  cases hp : p.image? with
  | none => simp [carriesDwn, dwVerifyPage, hp]
  | some a =>
    have := h a hp
    simp only [carriesDwn, dwVerifyPage, hp, this] at hq ⊢
    exact hq

theorem dwVerifyPage_eq_some {p : DwPage} {b : BatchPage} :
    dwVerifyPage p = some b ↔ p = whole (.batch b) := by
  rw [← Sectors.image?_eq_some]
  unfold dwVerifyPage
  cases p.image? with
  | none => simp
  | some a => cases a <;> simp

/-- Writing a batch behind the last one: if its first `k` pages are written in
full and a page behind them is complete only if it was before, the file stays
readable, with the parts of the batch that are there with their tail. -/
theorem Readable.written {file' : Nat → DwPage} {head : FileHead} {last k : Nat}
    (h : Readable size file head log last)
    (hparts : ∀ ps ∈ parts, ps ≠ [] ∧ ps.length ≤ dwBatchDataPageMax false)
    (hroom : last + (layout head.dwn last parts).length < size.pages) (hk : 1 ≤ k)
    (hlen : k ≤ (layout head.dwn last parts).length) (hbefore : ∀ i, i < last → file' i = file i)
    (hnew : ∀ i a, i < k → (layout head.dwn last parts)[i]? = some a →
      file' (last + i) = whole a)
    (hold : ∀ i a, last + k ≤ i → (file' i).image? = some a → (file i).image? = some a) :
    ∃ extra last', Readable size file' head (log ++ extra) last' ∧
      (∀ b ∈ extra, b ∈ batchesAt last parts) ∧
      ((layout head.dwn last parts).length = k →
        extra = batchesAt last parts ∧ last' + 1 = last + (layout head.dwn last parts).length) := by
  have hfreshOld : ∀ i, last + k ≤ i → carriesDwn (file' i) head.dwn = false := fun i hi =>
    carriesDwn_of_image (fun a ha => hold i a hi ha) (h.fresh i (by omega))
  obtain ⟨extra, last', hchain, htail, hfresh, hlt, hmem, hall⟩ :=
    layout_chain (fun ps hps => (hparts ps hps).1) hk hlen hnew hfreshOld
  refine ⟨extra, last', ⟨h.start_pos, (h.chain.congr hbefore).append hchain, fun _ => htail,
    hfresh, ?_, by omega⟩, hmem, hall⟩
  intro i b hb
  rw [dwVerifyPage_eq_some] at hb
  by_cases hi : i < last
  · rw [hbefore i hi] at hb
    exact h.fit i b (dwVerifyPage_eq_some.mpr hb)
  by_cases hik : last + k ≤ i
  · have := hold i _ hik (Sectors.image?_eq_some.mpr hb)
    exact h.fit i b (dwVerifyPage_eq_some.mpr (Sectors.image?_eq_some.mp this))
  have hin : i - last < (layout head.dwn last parts).length := by omega
  have hget := List.getElem?_eq_getElem hin
  have hpage := hnew (i - last) _ (by omega) hget
  rw [show last + (i - last) = i by omega, hb] at hpage
  have himg : FilePage.batch b = (layout head.dwn last parts)[i - last] := congrFun hpage 0
  rw [← himg] at hget
  obtain ⟨hm, hle⟩ := layout_fit (fun ps hps => (hparts ps hps).2) hget
  exact ⟨hm, by omega⟩

/-! ## The invariant -/

def syncedLsn (synced : DataFiles) (p : BufferTag) : Nat := (synced p).first.lsn

/-- No version of its page that reached the data files is newer than the copy. -/
def UpToDate (synced : DataFiles) (unsynced : List PageImage) (c : PageImage) : Prop :=
  syncedLsn synced c.tag ≤ c.lsn ∧ ∀ w ∈ unsynced, w.tag = c.tag → w.lsn ≤ c.lsn

/-- The page has a copy in a batch at or behind `start` that is not older than
the last synced version. -/
def Covered (synced : DataFiles) (log : List Batch) (start : Nat) (p : BufferTag) : Prop :=
  ∃ b ∈ log, start ≤ b.pos ∧ ∃ c ∈ b.pages, c.tag = p ∧ syncedLsn synced p ≤ c.lsn

/-- The thread holds `flush_lock`. -/
def Pgwr.locked : Pgwr → Bool
  | .recycling _ _ | .heading _ _ | .writing _ _ => true
  | .idle | .copying _ _ | .flushing _ _ => false

/-- A batch has 1 to twice the maximum of pages when it is written. -/
def Pgwr.Sized : Pgwr → Prop
  | .copying isNew pages => pages.length ≤ dwDirtyPageMax isNew
  | .recycling isNew pages | .heading isNew pages | .writing isNew pages =>
    pages.length ≤ dwDirtyPageMax isNew ∧ pages ≠ []
  | .idle | .flushing _ _ => True

section Parts

variable (synced : DataFiles) (unsynced : List PageImage) (pgwr : Fin n → Pgwr)

/-- The file may start at `start` once the pages of `todo` are synced. -/
structure StartOk (log : List Batch) (last : Nat) (todo : List BufferTag) (start : Nat) : Prop where
  boundary : start = last ∨ ∃ b ∈ log, b.pos = start
  flushing : ∀ t idx pending, pgwr t = .flushing idx pending → start ≤ idx
  covered : ∀ w ∈ unsynced, w.tag ∈ todo ∨ Covered synced log start w.tag

structure PagesInv (buf : BufferTag → PageImage) (log : List Batch) : Prop where
  whole : ∀ p, synced p = whole (synced p 0)
  synced_tag : ∀ p, (synced p 0).tag = p
  buf_tag : ∀ p, (buf p).tag = p
  buffers : ∀ p, UpToDate synced unsynced (buf p)
  copies : ∀ t, ∀ c ∈ (pgwr t).pages, UpToDate synced unsynced c
  flushing : ∀ t idx pending, pgwr t = .flushing idx pending →
    (∃ b ∈ log, b.pos = idx) ∧
      ∀ p ∈ pending, ∃ b ∈ log, idx ≤ b.pos ∧ ∃ c ∈ b.pages, c.tag = p ∧ UpToDate synced unsynced c
  covered : ∀ w ∈ unsynced, Covered synced log 0 w.tag

/-- Every page is in the hands of at most one thread. -/
structure OwnersInv : Prop where
  sized : ∀ t, (pgwr t).Sized
  nodup : ∀ t, (pgwr t).outstanding.Nodup
  disjoint : ∀ t u p, p ∈ (pgwr t).outstanding → p ∈ (pgwr u).outstanding → t = u

end Parts

/-- The context in memory points at the end of the batches. -/
structure AtLast (cxt : FileCxt) (head : FileHead) (last : Nat) : Prop where
  head : cxt.head = head
  last : cxt.head.start + cxt.flushPage = last

/-- Who holds `flush_lock`, and what the context in memory is meanwhile. -/
structure LockInv (size : DwFileSize) (s : St n) (log : List Batch) (last : Nat) : Prop where
  held : ∀ t, s.flushLock = some (.pgwr t) ↔ (s.pgwr t).locked = true
  ckpt : s.flushLock = some .ckpt ↔ s.trunc = .heading
  free : s.flushLock = none → AtLast s.cxt (s.heads 0) last
  recycling : ∀ t isNew pages, s.pgwr t = .recycling isNew pages →
    s.cxt = ⟨⟨dwBatchFileStart, (s.heads 0).dwn⟩, 0⟩
  heading : ∀ t isNew pages, s.pgwr t = .heading isNew pages →
    s.cxt = ⟨⟨dwBatchFileStart, (s.heads 0).dwn⟩, 0⟩ ∧ s.unsynced = [] ∧
      (∀ u, (s.pgwr u).dwPageIdx = none) ∧ St.DwnUnused s.file s.trunc s.cxt.nextDwn.dwn
  writing : ∀ t isNew pages, s.pgwr t = .writing isNew pages →
    AtLast s.cxt (s.heads 0) last ∧ last + dwBatchAddExtra pages.length isNew < size.pages
  truncHeading : s.trunc = .heading →
    s.cxt.head.dwn = (s.heads 0).dwn ∧ s.cxt.head.start + s.cxt.flushPage = last ∧
      StartOk s.synced s.unsynced s.pgwr log last [] s.cxt.head.start

/-- Where a truncation will move the start to. -/
def TruncInfo.target (info : TruncInfo) : Nat :=
  if info.minIdx = 0 then info.orgStart + info.lastFlushPage else info.minIdx

/-- A truncation that waits for its sync will still be right, unless the file
was started over. -/
def TruncInv (s : St n) (log : List Batch) (last : Nat) : Prop :=
  ∀ info todo, s.trunc = .syncing info todo → info.orgDwn = (dwRecoverBatchFileHead s.heads).dwn →
    info.orgStart = (dwRecoverBatchFileHead s.heads).start ∧
      StartOk s.synced s.unsynced s.pgwr log last todo info.target

/-- The invariant: `log` is what the file holds, up to page `last`. -/
structure Inv (size : DwFileSize) (s : St n) (log : List Batch) (last : Nat) : Prop where
  readable : Readable size s.file (s.heads 0) log last
  heads : ∀ i, s.heads i = s.heads 0
  pages : PagesInv s.synced s.unsynced s.pgwr s.buf log
  owners : OwnersInv s.pgwr
  lock : LockInv size s log last
  trunc : TruncInv s log last

end OpenGauss.DoubleWrite
