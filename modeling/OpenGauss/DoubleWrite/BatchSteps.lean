import OpenGauss.Lib.Update
import OpenGauss.DoubleWrite.BatchInvariant

/-!
# Every step keeps the invariant

One lemma for each kind of step of the page writers and the checkpointer.
Crashes are left to the next module.
-/

namespace OpenGauss.DoubleWrite

open Lib
open PageImage (tag)

variable {n : Nat} {size : DwFileSize} {s s' : St n} {log : List Batch} {last : Nat}
variable {isNew : Bool} {head : FileHead} {t : Fin n} {todo : List BufferTag}
  {pages : List PageImage} {start : Nat} {file : Nat → DwPage} {c : PageImage} {p : Pgwr}

@[simp] theorem St.setPgwr_self (s : St n) (t : Fin n) (p : Pgwr) :
    (s.setPgwr t p).pgwr t = p := Function.update_self _ _ _

theorem St.setPgwr_of_ne (s : St n) {u : Fin n} (p : Pgwr) (h : u ≠ t) :
    (s.setPgwr t p).pgwr u = s.pgwr u := Function.update_of_ne h _ _

theorem St.setPgwr_cases (s : St n) (t : Fin n) (p : Pgwr) (u : Fin n) :
    u = t ∧ (s.setPgwr t p).pgwr u = p ∨ u ≠ t ∧ (s.setPgwr t p).pgwr u = s.pgwr u := by
  by_cases h : u = t
  · rw [h]
    exact .inl ⟨rfl, s.setPgwr_self t p⟩
  · exact .inr ⟨h, s.setPgwr_of_ne p h⟩

theorem St.forall_setPgwr (s : St n) (t : Fin n) (p : Pgwr) (P : Pgwr → Prop) (hself : P p)
    (hother : ∀ u, P (s.pgwr u)) (u : Fin n) : P ((s.setPgwr t p).pgwr u) := by
  rcases s.setPgwr_cases t p u with ⟨_, hu⟩ | ⟨_, hu⟩ <;> rw [hu]
  · exact hself
  · exact hother u

theorem St.of_setPgwr_locked (s : St n) {u : Fin n} {q : Pgwr} (hnew : p.locked = false)
    (hq : (s.setPgwr t p).pgwr u = q) (hlock : q.locked = true) : s.pgwr u = q := by
  rcases s.setPgwr_cases t p u with ⟨_, hu⟩ | ⟨_, hu⟩
  · rw [← hq, hu, hnew] at hlock
    cases hlock
  · rw [← hu, hq]

theorem St.of_setPgwr_flushing (s : St n) {u : Fin n} {idx : Nat} (hidx : p.dwPageIdx = none)
    (hq : (s.setPgwr t p).pgwr u = .flushing idx todo) : s.pgwr u = .flushing idx todo := by
  rcases s.setPgwr_cases t p u with ⟨_, hu⟩ | ⟨_, hu⟩
  · rw [← hu, hq] at hidx
    cases hidx
  · rw [← hu, hq]

/-! ## Positions in the log -/

theorem Chain.mem_pos {dwn pos : Nat} {b : Batch} (h : Chain file dwn pos log last) (hb : b ∈ log) :
    pos ≤ b.pos ∧ b.pos < last := by
  induction log generalizing pos with
  | nil => cases hb
  | cons c log ih =>
    obtain ⟨rfl, _, hrest⟩ := h
    have hle := hrest.le
    simp only [Batch.next] at hle
    rcases List.mem_cons.mp hb with rfl | hb
    · exact ⟨le_rfl, by omega⟩
    have hrec := ih hrest hb
    simp only [Batch.next] at hrec
    omega

section

variable {synced : DataFiles} {unsynced : List PageImage} {pgwr : Fin n → Pgwr}

theorem StartOk.le (h : StartOk synced unsynced pgwr log last todo start)
    (hr : Readable size file head log last) : head.start ≤ start ∧ start ≤ last := by
  rcases h.boundary with rfl | ⟨b, hb, rfl⟩
  · exact ⟨hr.chain.le, le_rfl⟩
  · have := hr.chain.mem_pos hb
    omega

end

/-! ## Changing a buffer -/

theorem Inv.modify {img : PageImage} (h : Inv size s log last)
    (hstep : s.modify img = some s') : Inv size s' log last := by
  unfold St.modify at hstep
  split at hstep <;> cases hstep
  rename_i hlsn
  have hbuf : ∀ p, ((Function.update s.buf img.tag img) p).tag = p ∧
      UpToDate s.synced s.unsynced ((Function.update s.buf img.tag img) p) := by
    refine update_cases ?_ fun p _ => ⟨h.pages.buf_tag p, h.pages.buffers p⟩
    obtain ⟨hsync, hwrites⟩ := h.pages.buffers img.tag
    rw [h.pages.buf_tag] at hsync hwrites
    exact ⟨rfl, hsync.trans hlsn, fun w hw ht => (hwrites w hw ht).trans hlsn⟩
  exact ⟨h.readable, h.heads, { h.pages with
      buf_tag := fun p => (hbuf p).1
      buffers := fun p => (hbuf p).2 }, h.owners,
    { h.lock with }, h.trunc⟩

/-! ## Steps of one thread outside the lock -/

/-- A thread takes other pages into its hands, none that another thread has. -/
theorem OwnersInv.setPgwr (h : OwnersInv s.pgwr) (hsized : p.Sized) (hnodup : p.outstanding.Nodup)
    (hothers : ∀ u, u ≠ t → ∀ q ∈ p.outstanding, q ∉ (s.pgwr u).outstanding) :
    OwnersInv (s.setPgwr t p).pgwr where
  sized := s.forall_setPgwr t p Pgwr.Sized hsized h.sized
  nodup := s.forall_setPgwr t p (fun q => q.outstanding.Nodup) hnodup h.nodup
  disjoint := by
    intro u v q hq hq'
    rcases s.setPgwr_cases t p u with ⟨hut, hu⟩ | ⟨hut, hu⟩ <;>
      rcases s.setPgwr_cases t p v with ⟨hvt, hv⟩ | ⟨hvt, hv⟩ <;> rw [hu] at hq <;> rw [hv] at hq'
    · rw [hut, hvt]
    · exact absurd hq' (hothers v hvt q hq)
    · exact absurd hq (hothers u hut q hq')
    · exact h.disjoint u v q hq hq'

/-- A thread that is not writing data pages leaves the truncation alone. -/
theorem StartOk.setPgwr (h : StartOk s.synced s.unsynced s.pgwr log last todo start)
    (hidx : p.dwPageIdx = none) :
    StartOk s.synced s.unsynced (s.setPgwr t p).pgwr log last todo start where
  __ := h
  flushing := fun u idx pending hp => h.flushing u idx pending (s.of_setPgwr_flushing hidx hp)

theorem PagesInv.setPgwr (h : PagesInv s.synced s.unsynced s.pgwr s.buf log)
    (hidx : p.dwPageIdx = none) (hcopies : ∀ c ∈ p.pages, UpToDate s.synced s.unsynced c) :
    PagesInv s.synced s.unsynced (s.setPgwr t p).pgwr s.buf log where
  __ := h
  copies := s.forall_setPgwr t p (fun q => ∀ c ∈ q.pages, UpToDate s.synced s.unsynced c) hcopies
    h.copies
  flushing := fun u idx pending hp => h.flushing u idx pending (s.of_setPgwr_flushing hidx hp)

/-- A thread that holds no lock goes on to a state in which it holds none either
and is not writing data pages. -/
theorem Inv.setPgwr (h : Inv size s log last) (hold : (s.pgwr t).locked = false)
    (hnew : p.locked = false) (hidx : p.dwPageIdx = none) (hsized : p.Sized)
    (hcopies : ∀ c ∈ p.pages, UpToDate s.synced s.unsynced c) (hnodup : p.outstanding.Nodup)
    (hothers : ∀ u, u ≠ t → ∀ q ∈ p.outstanding, q ∉ (s.pgwr u).outstanding) :
    Inv size (s.setPgwr t p) log last := by
  have hlocked := fun {u q} => s.of_setPgwr_locked (t := t) (u := u) (q := q) hnew
  refine ⟨h.readable, h.heads, h.pages.setPgwr hidx hcopies,
    h.owners.setPgwr hsized hnodup hothers,
    ⟨fun u => ?_, h.lock.ckpt, h.lock.free,
      fun u isNew pages hp => h.lock.recycling u isNew pages (hlocked hp rfl),
      fun u isNew pages hp => ?_,
      fun u isNew pages hp => h.lock.writing u isNew pages (hlocked hp rfl), fun ht =>
      (h.lock.truncHeading ht).imp_right fun hok => hok.imp_right (·.setPgwr hidx)⟩,
    fun info todo hi hd => (h.trunc info todo hi hd).imp_right (·.setPgwr hidx)⟩
  · rcases s.setPgwr_cases t p u with ⟨rfl, hu⟩ | ⟨_, hu⟩ <;> rw [hu]
    · rw [hnew, ← hold]
      exact h.lock.held u
    · exact h.lock.held u
  · obtain ⟨hcxt, hnil, hidle, hunused⟩ := h.lock.heading u isNew pages (hlocked hp rfl)
    exact ⟨hcxt, hnil, s.forall_setPgwr t p (fun q => q.dwPageIdx = none) hidx hidle, hunused⟩

theorem Inv.beginBatch (h : Inv size s log last) (hstep : s.beginBatch t isNew = some s') :
    Inv size s' log last := by
  unfold St.beginBatch at hstep
  split at hstep <;> cases hstep
  rename_i hidle
  exact h.setPgwr (by rw [hidle]; rfl) rfl rfl (Nat.zero_le _) nofun List.nodup_nil nofun

theorem Inv.clearDwPageIdx (h : Inv size s log last) (hstep : s.clearDwPageIdx t = some s') :
    Inv size s' log last := by
  unfold St.clearDwPageIdx at hstep
  split at hstep <;> cases hstep
  rename_i hflush
  exact h.setPgwr (by rw [hflush]; rfl) rfl rfl trivial nofun List.nodup_nil nofun

theorem Inv.dwCopyPage {p : BufferTag} (h : Inv size s log last)
    (hfree : ∀ u, p ∉ (s.pgwr u).outstanding) (hstep : s.dwCopyPage t p = some s') :
    Inv size s' log last := by
  unfold St.dwCopyPage at hstep
  split at hstep; swap
  · cases hstep
  rename_i isNew pages hcopying
  split at hstep <;> cases hstep
  rename_i hlen
  have hcopies := h.pages.copies t
  have hnodup := h.owners.nodup t
  have hmine := hfree t
  have hothers := h.owners.disjoint t
  simp only [hcopying, Pgwr.pages, Pgwr.outstanding] at hcopies hnodup hmine hothers
  refine h.setPgwr (by rw [hcopying]; rfl) rfl rfl ?_ ?_ ?_ ?_
  · simp only [Pgwr.Sized, List.length_append, List.length_singleton]
    omega
  · exact List.forall_mem_append.mpr ⟨hcopies, List.forall_mem_singleton.mpr (h.pages.buffers p)⟩
  · simp only [Pgwr.outstanding, Pgwr.pages, List.map_append, List.map_singleton, h.pages.buf_tag]
    exact List.nodup_append.mpr ⟨hnodup, List.nodup_singleton _, fun a ha b hb hab =>
      hmine (by rwa [← List.mem_singleton.mp hb, ← hab])⟩
  · intro u hu q hq
    simp only [Pgwr.outstanding, Pgwr.pages, List.map_append, List.map_singleton,
      h.pages.buf_tag] at hq
    rcases List.mem_append.mp hq with hq | hq
    · exact fun hqu => hu (hothers u q hq hqu).symm
    · rw [List.mem_singleton.mp hq]
      exact hfree u

/-! ## Steps under the lock -/

section

variable (h : LockInv size s log last)

include h

theorem LockInv.locked_eq {u : Fin n} (ht : (s.pgwr t).locked = true)
    (hu : (s.pgwr u).locked = true) : u = t := by
  have htl := (h.held t).mpr ht
  have hul := (h.held u).mpr hu
  rw [htl] at hul
  cases hul
  rfl

theorem LockInv.unlocked (hfree : ∀ u, s.flushLock ≠ some (.pgwr u)) ⦃u : Fin n⦄ ⦃q : Pgwr⦄
    (hu : s.pgwr u = q) : q.locked ≠ true := by
  subst hu
  exact fun hl => hfree u ((h.held u).mpr hl)

/-- While a thread holds the lock no truncation is under way. -/
theorem LockInv.not_truncHeading (ht : (s.pgwr t).locked = true) : s.trunc ≠ .heading := by
  intro htr
  have h1 := h.ckpt.mpr htr
  rw [(h.held t).mpr ht] at h1
  cases h1

/-- The thread that holds the lock goes on and keeps it. -/
theorem LockInv.held_setPgwr (hold : (s.pgwr t).locked = true)
    (hnew : p.locked = true) (u : Fin n) :
    s.flushLock = some (.pgwr u) ↔ ((s.setPgwr t p).pgwr u).locked = true := by
  rcases s.setPgwr_cases t p u with ⟨rfl, hu⟩ | ⟨_, hu⟩ <;> rw [hu]
  · exact (h.held u).trans ⟨fun _ => hnew, fun _ => hold⟩
  · exact h.held u

theorem LockInv.eq_of_setPgwr {u : Fin n} {q : Pgwr}
    (hold : (s.pgwr t).locked = true) (hq : (s.setPgwr t p).pgwr u = q) (hlock : q.locked = true) :
    q = p := by
  rcases s.setPgwr_cases t p u with ⟨_, hu⟩ | ⟨hut, hu⟩
  · rw [← hq, hu]
  · rw [← hq, hu] at hlock
    exact absurd (h.locked_eq hold hlock) hut

theorem LockInv.lock_ne_none (hold : (s.pgwr t).locked = true) : s.flushLock ≠ none := by
  rw [(h.held t).mpr hold]
  exact Option.some_ne_none _

end

theorem Inv.owned (h : Inv size s log last) {p : Pgwr} (hp : s.pgwr t = p) :
    p.Sized ∧ (∀ c ∈ p.pages, UpToDate s.synced s.unsynced c) ∧ p.outstanding.Nodup ∧
      ∀ u, u ≠ t → ∀ q ∈ p.outstanding, q ∉ (s.pgwr u).outstanding := by
  subst hp
  exact ⟨h.owners.sized t, h.pages.copies t, h.owners.nodup t,
    fun u hu q hq hqu => hu (h.owners.disjoint t u q hq hqu).symm⟩

/-- A thread with its pages takes the lock, to write them or to start over. -/
theorem Inv.takeLock {cxt : FileCxt} (h : Inv size s log last) (hfree : s.flushLock = none)
    (hcopying : s.pgwr t = .copying isNew pages) (hne : pages ≠ [])
    (hp : p = .recycling isNew pages ∧ cxt = ⟨⟨dwBatchFileStart, (s.heads 0).dwn⟩, 0⟩ ∨
      p = .writing isNew pages ∧ AtLast cxt (s.heads 0) last ∧
        last + dwBatchAddExtra pages.length isNew < size.pages) :
    Inv size ({ s with flushLock := some (.pgwr t), cxt := cxt }.setPgwr t p) log last := by
  obtain ⟨hsized, hcopies, hnodup, hothers⟩ := h.owned hcopying
  have hunlocked := h.lock.unlocked (by simp [hfree])
  have htrunc : s.trunc ≠ .heading := fun ht => by
    have := h.lock.ckpt.mpr ht
    rw [hfree] at this
    cases this
  have hshape : p.locked = true ∧ p.dwPageIdx = none ∧ p.pages = pages ∧ p.Sized ∧
      p.outstanding = pages.map tag := by
    rcases hp with ⟨rfl, _⟩ | ⟨rfl, _⟩ <;> exact ⟨rfl, rfl, rfl, ⟨hsized, hne⟩, rfl⟩
  obtain ⟨hlocked, hidx, hpages, hsized', hout⟩ := hshape
  -- a thread that holds the lock is the one that took it
  have hself : ∀ {u q}, (s.setPgwr t p).pgwr u = q → q.locked = true → q = p := by
    intro u q hq hlock
    rcases s.setPgwr_cases t p u with ⟨_, hu⟩ | ⟨_, hu⟩
    · rw [← hq, hu]
    · exact absurd hlock (hunlocked (hu.symm.trans hq))
  refine ⟨h.readable, h.heads, h.pages.setPgwr hidx (by rw [hpages]; exact hcopies),
    h.owners.setPgwr hsized' (by rw [hout]; exact hnodup) (by rwa [hout]),
    ⟨fun u => ?_, ⟨nofun, fun ht => absurd ht htrunc⟩, nofun,
      fun u isNew' pages' hq => ?_, fun u isNew' pages' hq => ?_, fun u isNew' pages' hq => ?_,
      fun ht => absurd ht htrunc⟩,
    fun info todo hi hd => (h.trunc info todo hi hd).imp_right (·.setPgwr hidx)⟩
  · rcases s.setPgwr_cases t p u with ⟨rfl, hu⟩ | ⟨hut, hu⟩
    · exact ⟨fun _ => (congrArg Pgwr.locked hu).trans hlocked, fun _ => rfl⟩
    refine ⟨fun hl => ?_, fun hl => ?_⟩
    · cases hl
      exact absurd rfl hut
    · exact absurd hl (hunlocked hu.symm)
  · rcases hp with ⟨_, hcxt⟩ | ⟨rfl, _⟩
    · exact hcxt
    · cases hself hq rfl
  · rcases hp with ⟨rfl, _⟩ | ⟨rfl, _⟩ <;> cases hself hq rfl
  · rcases hp with ⟨rfl, _⟩ | ⟨rfl, hat, hroom⟩
    · cases hself hq rfl
    · cases hself hq rfl
      exact ⟨hat, hroom⟩

theorem Inv.lockFlush (h : Inv size s log last) (hstep : s.lockFlush size t = some s') :
    Inv size s' log last := by
  unfold St.lockFlush at hstep
  split at hstep; swap
  · cases hstep
  rename_i isNew pages hcopying hfree
  split at hstep
  · cases hstep
  rename_i hne
  have hat := h.lock.free hfree
  dsimp only at hstep
  split at hstep
  · cases hstep
    refine h.takeLock hfree hcopying hne (.inl ⟨rfl, ?_⟩)
    rw [FileCxt.resetStart, hat.head]
  rename_i hfull
  cases hstep
  refine h.takeLock hfree hcopying hne (.inr ⟨rfl, hat, ?_⟩)
  simp only [fileFull, decide_eq_true_eq, hat.last] at hfull
  omega

/-! ## Syncing -/

section Sync

variable {which : BufferTag → Bool} {pgwr : Fin n → Pgwr}

theorem St.sync_of_not {p : BufferTag} (hp : which p = false) :
    (s.sync which).synced p = s.synced p := by
  simp only [St.sync, hp]
  split <;> rfl

theorem St.sync_cases (s : St n) (which : BufferTag → Bool) (p : BufferTag) :
    (s.sync which).synced p = s.synced p ∨
      ∃ w ∈ s.unsynced, w.tag = p ∧ (s.sync which).synced p = Sectors.whole w := by
  simp only [St.sync]
  cases hw : s.unsynced.find? (fun w => decide (w.tag = p)) with
  | none => exact .inl rfl
  | some w =>
    have htag : w.tag = p := by simpa using List.find?_some hw
    by_cases hp : which p = true
    · exact .inr ⟨w, List.mem_of_find?_eq_some hw, htag, by simp only [hp, if_true]⟩
    · exact .inl (if_neg hp)

theorem St.mem_unsynced_sync {w : PageImage} (hw : w ∈ (s.sync which).unsynced) :
    w ∈ s.unsynced ∧ which w.tag = false := by
  obtain ⟨hmem, hnot⟩ := List.mem_filter.mp hw
  exact ⟨hmem, by simpa using hnot⟩

theorem UpToDate.sync (h : UpToDate s.synced s.unsynced c) :
    UpToDate (s.sync which).synced (s.sync which).unsynced c := by
  refine ⟨?_, fun w hw ht => h.2 w (St.mem_unsynced_sync hw).1 ht⟩
  rcases s.sync_cases which c.tag with hsame | ⟨w, hw, htag, hwrite⟩
  · rw [syncedLsn, hsame]
    exact h.1
  · rw [syncedLsn, hwrite]
    exact h.2 w hw htag

theorem Covered.sync {p : BufferTag} (h : Covered s.synced log start p) (hp : which p = false) :
    Covered (s.sync which).synced log start p := by
  obtain ⟨b, hb, hpos, c, hc, htag, hlsn⟩ := h
  refine ⟨b, hb, hpos, c, hc, htag, ?_⟩
  rw [syncedLsn, St.sync_of_not hp]
  exact hlsn

theorem PagesInv.sync (which : BufferTag → Bool) (h : PagesInv s.synced s.unsynced pgwr s.buf log) :
    PagesInv (s.sync which).synced (s.sync which).unsynced pgwr s.buf log where
  whole := by
    intro p
    rcases s.sync_cases which p with hsame | ⟨w, _, _, hwrite⟩
    · rw [hsame]
      exact h.whole p
    · rw [hwrite]
      rfl
  synced_tag := by
    intro p
    rcases s.sync_cases which p with hsame | ⟨w, _, htag, hwrite⟩
    · rw [hsame]
      exact h.synced_tag p
    · rw [hwrite]
      exact htag
  buf_tag := h.buf_tag
  buffers := fun p => (h.buffers p).sync
  copies := fun t c hc => (h.copies t c hc).sync
  flushing := by
    intro t idx pending ht
    obtain ⟨hat, hpending⟩ := h.flushing t idx pending ht
    refine ⟨hat, fun p hp => ?_⟩
    obtain ⟨b, hb, hpos, c, hc, htag, hup⟩ := hpending p hp
    exact ⟨b, hb, hpos, c, hc, htag, hup.sync⟩
  covered := by
    intro w hw
    obtain ⟨hmem, hnot⟩ := St.mem_unsynced_sync hw
    exact (h.covered w hmem).sync hnot

/-- Syncing pages takes them off the list a truncation waits for. -/
theorem StartOk.sync {todo' : List BufferTag}
    (h : StartOk s.synced s.unsynced pgwr log last todo start)
    (htodo : ∀ p ∈ todo, which p = false → p ∈ todo') :
    StartOk (s.sync which).synced (s.sync which).unsynced pgwr log last todo' start where
  __ := h
  covered := by
    intro w hw
    obtain ⟨hmem, hnot⟩ := St.mem_unsynced_sync hw
    rcases h.covered w hmem with hin | hcov
    · exact .inl (htodo _ hin hnot)
    · exact .inr (hcov.sync hnot)

end Sync

/-! ## Starting the file over -/

theorem Inv.recycleSync (h : Inv size s log last)
    (hunused : St.DwnUnused s.file s.trunc s.cxt.nextDwn.dwn) (hstep : s.recycleSync t = some s') :
    Inv size s' log last := by
  unfold St.recycleSync at hstep
  split at hstep; swap
  · cases hstep
  rename_i isNew pages hrec
  split at hstep <;> cases hstep
  rename_i hidle
  obtain ⟨hsized, hcopies, hnodup, hothers⟩ := h.owned hrec
  have hlocked : (s.pgwr t).locked = true := by rw [hrec]; rfl
  have htrunc := h.lock.not_truncHeading hlocked
  refine ⟨h.readable, h.heads,
    (h.pages.sync fun _ => true).setPgwr (s := s.sync fun _ => true) rfl
      (fun c hc => (hcopies c hc).sync),
    h.owners.setPgwr hsized hnodup hothers,
    ⟨h.lock.held_setPgwr hlocked rfl, h.lock.ckpt,
      fun hl => absurd hl (h.lock.lock_ne_none hlocked), fun u isNew' pages' hq => ?_,
      fun u isNew' pages' hq => ?_, fun u isNew' pages' hq => ?_,
      fun ht => absurd ht htrunc⟩,
    fun info todo hi hd => ⟨(h.trunc info todo hi hd).1, ?_⟩⟩
  · cases h.lock.eq_of_setPgwr hlocked hq rfl
  · exact ⟨h.lock.recycling t isNew pages hrec, by simp [St.setPgwr, St.sync],
      s.forall_setPgwr t _ (fun q => q.dwPageIdx = none) rfl hidle, hunused⟩
  · cases h.lock.eq_of_setPgwr hlocked hq rfl
  · exact ((h.trunc info todo hi hd).2.sync fun _ _ hp => by cases hp).setPgwr
      (s := s.sync fun _ => true) rfl

theorem dwBatchAddExtra_le {pageNum : Nat} (h : pageNum ≤ dwDirtyPageMax isNew) :
    dwBatchAddExtra pageNum isNew ≤ 821 := by
  unfold dwBatchAddExtra
  have hone : dwExtraForOneBatch = 2 := rfl
  have htwo : dwExtraForTwoBatch = 3 := rfl
  have hmax : dwDirtyPageMax isNew ≤ 818 := by cases isNew <;> decide
  split <;> omega

/-- A file that starts over under an unused number has no batches. -/
theorem Readable.reset {dwn : Nat} (h : Readable size file head log last)
    (hunused : ∀ i, carriesDwn (file i) dwn = false) :
    Readable size file ⟨dwBatchFileStart, dwn⟩ [] dwBatchFileStart where
  start_pos := le_rfl
  chain := rfl
  tail := fun hne => absurd rfl hne
  fresh := fun i _ => hunused i
  fit := h.fit
  room := Nat.lt_of_lt_of_le (by decide) size.pages_ge

theorem Inv.recycleHead (h : Inv size s log last) (hstep : s.recycleHead t = some s') :
    Inv size s' [] dwBatchFileStart := by
  unfold St.recycleHead at hstep
  split at hstep <;> cases hstep
  rename_i isNew pages hhead
  obtain ⟨hsized, hcopies, hnodup, hothers⟩ := h.owned hhead
  have hlocked : (s.pgwr t).locked = true := by rw [hhead]; rfl
  have htrunc := h.lock.not_truncHeading hlocked
  obtain ⟨hcxt, hnil, hidle, hunused⟩ := h.lock.heading t isNew pages hhead
  have hnext : s.cxt.nextDwn = ⟨dwBatchFileStart, s.cxt.nextDwn.dwn⟩ := by
    rw [FileCxt.nextDwn, hcxt]
  have hpages := size.pages_ge
  have hone : dwBatchFileStart = 1 := rfl
  have hextra := dwBatchAddExtra_le hsized.1
  have hpagesInv : PagesInv s.synced s.unsynced s.pgwr s.buf [] :=
    { h.pages with
      flushing := fun u idx pending hu => by
        have := hidle u
        rw [hu] at this
        cases this
      covered := fun w hw => by
        rw [hnil] at hw
        cases hw }
  refine ⟨hnext ▸ h.readable.reset hunused.file, fun _ => rfl, hpagesInv.setPgwr rfl hcopies,
    h.owners.setPgwr hsized hnodup hothers,
    ⟨h.lock.held_setPgwr hlocked rfl, h.lock.ckpt,
      fun hl => absurd hl (h.lock.lock_ne_none hlocked),
      fun _ _ _ hq => (by cases h.lock.eq_of_setPgwr hlocked hq rfl),
      fun _ _ _ hq => (by cases h.lock.eq_of_setPgwr hlocked hq rfl),
      fun u isNew' pages' hq => ?_, fun ht => absurd ht htrunc⟩,
    fun info todo hi hd => absurd hd (hunused.trunc info todo hi)⟩
  cases h.lock.eq_of_setPgwr hlocked hq rfl
  refine ⟨⟨rfl, ?_⟩, by omega⟩
  have hstart : s.cxt.nextDwn.start = dwBatchFileStart := by rw [hnext]
  have hflush : s.cxt.flushPage = 0 := by rw [hcxt]
  show s.cxt.nextDwn.start + s.cxt.flushPage = dwBatchFileStart
  rw [hstart, hflush, Nat.add_zero]

/-! ## Writing a batch -/

theorem batchesAt_head (pos : Nat) {parts : List (List PageImage)} (h : parts ≠ []) :
    ∃ b ∈ batchesAt pos parts, b.pos = pos := by
  cases parts with
  | nil => exact absurd rfl h
  | cons ps parts => exact ⟨⟨pos, ps⟩, .head _, rfl⟩

theorem batchParts_ne_nil (isNew : Bool) (pages : List PageImage) :
    batchParts isNew pages ≠ [] := by
  unfold batchParts
  split <;> exact List.cons_ne_nil _ _

theorem u16_of_lt {k : Nat} (h : k < 2 ^ 16) : u16 k = k := Nat.mod_eq_of_lt h

theorem Covered.append {synced : DataFiles} {p : BufferTag} {extra : List Batch}
    (h : Covered synced log start p) : Covered synced (log ++ extra) start p := by
  obtain ⟨b, hb, hpos, hc⟩ := h
  exact ⟨b, List.mem_append_left _ hb, hpos, hc⟩

theorem AtLast.offsetPage (h : AtLast s.cxt (s.heads 0) last) (hlt : last < size.pages) :
    s.offsetPage = last := by
  have := size.pages_le
  rw [St.offsetPage, h.last]
  exact u16_of_lt (by omega)

/-- The file after a batch was written behind the last one. -/
theorem Readable.pwrite (h : Readable size file head log last) (hne : pages ≠ [])
    (hlen : pages.length ≤ dwDirtyPageMax isNew)
    (hroom : last + dwBatchAddExtra pages.length isNew < size.pages) :
    Readable size (Sectors.write file last (dwAssembleBatch isNew last head.dwn pages)) head
      (log ++ batchesAt last (batchParts isNew pages))
      (last + (dwBatchAddExtra pages.length isNew - 1)) := by
  have htotal := length_dwAssembleBatch isNew last head.dwn pages
  rw [dwAssembleBatch_eq] at htotal ⊢
  have hpos : 1 ≤ (layout head.dwn last (batchParts isNew pages)).length := by
    rw [length_layout]
    omega
  obtain ⟨extra, last', hread, _, hall⟩ := h.written (batchParts_ok hne hlen) (by omega) hpos
    le_rfl (fun i hi => Sectors.write_outside (.inl hi))
    (fun i a hi ha => Sectors.write_inside (Nat.le_add_right _ _) (by simpa using ha))
    (fun i a hi ha => by rwa [Sectors.write_outside (.inr hi)] at ha)
  obtain ⟨rfl, hlast⟩ := hall rfl
  rw [show last + (dwBatchAddExtra pages.length isNew - 1) = last' by omega]
  exact hread

/-- A thread that has written its batch starts on the data pages. -/
theorem PagesInv.startFlushing (h : PagesInv s.synced s.unsynced s.pgwr s.buf log)
    (hcopies : ∀ c ∈ pages, UpToDate s.synced s.unsynced c) :
    PagesInv s.synced s.unsynced
      (s.setPgwr t (.flushing last (pages.map tag))).pgwr s.buf
      (log ++ batchesAt last (batchParts isNew pages)) where
  __ := h
  covered := fun w hw => (h.covered w hw).append
  copies := s.forall_setPgwr t _ (fun q => ∀ c ∈ q.pages, UpToDate s.synced s.unsynced c) nofun
    h.copies
  flushing := by
    intro u idx pending hp
    rcases s.setPgwr_cases t (.flushing last (pages.map tag)) u with ⟨_, hu⟩ | ⟨_, hu⟩ <;>
      rw [hu] at hp
    · cases hp
      constructor
      · obtain ⟨b, hb, hpos⟩ := batchesAt_head last (batchParts_ne_nil isNew pages)
        exact ⟨b, List.mem_append_right _ hb, hpos⟩
      · intro p hp
        obtain ⟨c, hc, rfl⟩ := List.mem_map.mp hp
        rw [← flatten_batchParts isNew pages] at hc
        obtain ⟨b, hb, hpos, hcb⟩ := mem_batchesAt_pages last hc
        rw [flatten_batchParts] at hc
        exact ⟨b, List.mem_append_right _ hb, hpos, c, hcb, rfl, hcopies c hc⟩
    · obtain ⟨⟨b, hb, hpos⟩, hpending⟩ := h.flushing u idx pending hp
      refine ⟨⟨b, List.mem_append_left _ hb, hpos⟩, fun p hp => ?_⟩
      obtain ⟨b', hb', hpos', hc⟩ := hpending p hp
      exact ⟨b', List.mem_append_left _ hb', hpos', hc⟩

/-- A start that was right stays right when a batch is added. -/
theorem StartOk.startFlushing {last' : Nat}
    (h : StartOk s.synced s.unsynced s.pgwr log last todo start) (hle : start ≤ last) :
    StartOk s.synced s.unsynced
      (s.setPgwr t (.flushing last (pages.map tag))).pgwr
      (log ++ batchesAt last (batchParts isNew pages)) last' todo start where
  boundary := by
    right
    rcases h.boundary with rfl | ⟨b, hb, hpos⟩
    · obtain ⟨b, hb, hpos⟩ := batchesAt_head start (batchParts_ne_nil isNew pages)
      exact ⟨b, List.mem_append_right _ hb, hpos⟩
    · exact ⟨b, List.mem_append_left _ hb, hpos⟩
  flushing := s.forall_setPgwr t _ (fun q => ∀ idx pending, q = .flushing idx pending → start ≤ idx)
    (fun _ _ hp => (by cases hp; exact hle)) h.flushing
  covered := fun w hw => (h.covered w hw).imp_right fun hcov => hcov.append

theorem Inv.pwriteBatch (h : Inv size s log last) (hstep : s.pwriteBatch t = some s') :
    ∃ log' last', Inv size s' log' last' := by
  unfold St.pwriteBatch at hstep
  split at hstep <;> cases hstep
  rename_i isNew pages hwriting
  obtain ⟨hsized, hcopies, hnodup, hothers⟩ := h.owned hwriting
  have hlocked : (s.pgwr t).locked = true := by rw [hwriting]; rfl
  have htrunc := h.lock.not_truncHeading hlocked
  obtain ⟨hat, hroom⟩ := h.lock.writing t isNew pages hwriting
  have hlast : last < size.pages := by omega
  have hread : Readable size
      (Sectors.write s.file last (dwAssembleBatch isNew last s.cxt.head.dwn pages)) (s.heads 0)
      (log ++ batchesAt last (batchParts isNew pages))
      (last + (dwBatchAddExtra pages.length isNew - 1)) := by
    rw [hat.head]
    exact h.readable.pwrite hsized.2 hsized.1 hroom
  have hsize := size.pages_le
  have hflush : u16 (s.cxt.flushPage + (dwBatchAddExtra pages.length isNew - 1)) =
      s.cxt.flushPage + (dwBatchAddExtra pages.length isNew - 1) := by
    have := hat.last
    exact u16_of_lt (by omega)
  rw [hat.offsetPage hlast, hflush]
  refine ⟨_, _, hread, h.heads, h.pages.startFlushing hcopies,
    h.owners.setPgwr trivial hnodup hothers,
    ⟨fun u => ?_, ⟨nofun, fun ht => absurd ht htrunc⟩,
      fun _ => ⟨hat.head, ?_⟩,
      fun _ _ _ hq => (by cases h.lock.eq_of_setPgwr hlocked hq rfl),
      fun _ _ _ hq => (by cases h.lock.eq_of_setPgwr hlocked hq rfl),
      fun _ _ _ hq => (by cases h.lock.eq_of_setPgwr hlocked hq rfl),
      fun ht => absurd ht htrunc⟩,
    fun info todo hi hd => ?_⟩
  · refine ⟨nofun, fun hl => ?_⟩
    have hl' : ((s.setPgwr t (.flushing last (pages.map tag))).pgwr u).locked = true := hl
    rw [h.lock.eq_of_setPgwr hlocked rfl hl'] at hl'
    cases hl'
  · have := hat.last
    simp only [St.setPgwr]
    omega
  · obtain ⟨horg, hstart⟩ := h.trunc info todo hi hd
    exact ⟨horg, hstart.startFlushing (hstart.le h.readable).2⟩

/-! ## Writing the data pages -/

theorem Pgwr.tag_mem_outstanding (h : c ∈ p.pages) : c.tag ∈ p.outstanding := by
  cases p with
  | idle | flushing => cases h
  | copying | recycling | heading | writing => exact List.mem_map_of_mem h

theorem UpToDate.write {synced : DataFiles} {unsynced unsynced' : List PageImage} {w : PageImage}
    (h : UpToDate synced unsynced c) (hsub : ∀ v ∈ unsynced', v ∈ unsynced ∨ v = w)
    (hne : c.tag ≠ w.tag) : UpToDate synced unsynced' c := by
  refine ⟨h.1, fun v hv hvc => ?_⟩
  rcases hsub v hv with hv | rfl
  · exact h.2 v hv hvc
  · exact absurd hvc.symm hne

section Flush

variable {t : Fin n} {idx : Nat} {p : BufferTag} {pending : List BufferTag}
  {unsynced : List PageImage}

theorem PagesInv.flushPage (h : PagesInv s.synced s.unsynced s.pgwr s.buf log)
    (howners : OwnersInv s.pgwr) (ht : s.pgwr t = .flushing idx (p :: pending))
    (hsub : ∀ w ∈ unsynced, w ∈ s.unsynced ∨ w = s.buf p) :
    PagesInv s.synced unsynced (s.setPgwr t (.flushing idx pending)).pgwr s.buf log := by
  have htag := h.buf_tag p
  obtain ⟨hat, hpending⟩ := h.flushing t idx _ ht
  have hnodup := howners.nodup t
  have hown := howners.disjoint t
  rw [ht] at hnodup hown
  -- another page in someone's hands is not `p`
  have hother : ∀ u q, q ∈ (s.pgwr u).outstanding → u ≠ t → q ≠ (s.buf p).tag := by
    intro u q hq hut hqp
    rw [htag] at hqp
    subst hqp
    exact hut (hown u q (.head _) hq).symm
  refine ⟨h.whole, h.synced_tag, h.buf_tag, fun q => ?_, fun u c hc => ?_,
    fun u idx' pending' hu => ?_, fun w hw => ?_⟩
  · by_cases hq : q = p
    · subst hq
      refine ⟨(h.buffers q).1, fun w hw hwq => ?_⟩
      rcases hsub w hw with hw | rfl
      · exact (h.buffers q).2 w hw hwq
      · exact le_rfl
    · refine (h.buffers q).write hsub ?_
      rw [h.buf_tag, htag]
      exact hq
  · rcases s.setPgwr_cases t (.flushing idx pending) u with ⟨_, hset⟩ | ⟨hut, hset⟩ <;>
      rw [hset] at hc
    · cases hc
    · exact (h.copies u c hc).write hsub (hother u _ (Pgwr.tag_mem_outstanding hc) hut)
  · rcases s.setPgwr_cases t (.flushing idx pending) u with ⟨_, hset⟩ | ⟨hut, hset⟩ <;>
      rw [hset] at hu
    · cases hu
      refine ⟨hat, fun q hq => ?_⟩
      obtain ⟨b, hb, hpos, c, hc, hcq, hup⟩ := hpending q (.tail _ hq)
      refine ⟨b, hb, hpos, c, hc, hcq, hup.write hsub ?_⟩
      rw [hcq, htag]
      rintro rfl
      exact (List.nodup_cons.mp hnodup).1 hq
    · obtain ⟨hatu, hpendingu⟩ := h.flushing u idx' pending' hu
      refine ⟨hatu, fun q hq => ?_⟩
      obtain ⟨b, hb, hpos, c, hc, hcq, hup⟩ := hpendingu q hq
      refine ⟨b, hb, hpos, c, hc, hcq, hup.write hsub ?_⟩
      rw [hcq]
      refine hother u q ?_ hut
      rw [hu]
      exact hq
  · rcases hsub w hw with hw | rfl
    · exact h.covered w hw
    obtain ⟨b, hb, _, c, hc, hcp, hup⟩ := hpending p (.head _)
    rw [htag]
    exact ⟨b, hb, Nat.zero_le _, c, hc, hcp, hcp ▸ hup.1⟩

theorem StartOk.flushPage (h : StartOk s.synced s.unsynced s.pgwr log last todo start)
    (hpages : PagesInv s.synced s.unsynced s.pgwr s.buf log)
    (ht : s.pgwr t = .flushing idx (p :: pending))
    (hsub : ∀ w ∈ unsynced, w ∈ s.unsynced ∨ w = s.buf p) :
    StartOk s.synced unsynced (s.setPgwr t (.flushing idx pending)).pgwr log last todo start := by
  have hle := h.flushing t idx _ ht
  refine ⟨h.boundary, fun u idx' pending' hu => ?_, fun w hw => ?_⟩
  · exact s.forall_setPgwr t _ (fun q => ∀ idx pending, q = .flushing idx pending → start ≤ idx)
      (fun _ _ hp => (by cases hp; exact hle)) h.flushing u idx' pending' hu
  · rcases hsub w hw with hw | rfl
    · exact h.covered w hw
    obtain ⟨b, hb, hpos, c, hc, hcp, hup⟩ := (hpages.flushing t idx _ ht).2 p (.head _)
    rw [hpages.buf_tag p]
    exact .inr ⟨b, hb, hle.trans hpos, c, hc, hcp, hcp ▸ hup.1⟩

theorem Inv.flushDirtyPage {dirty : Bool} (h : Inv size s log last)
    (hstep : s.flushDirtyPage t dirty = some s') : Inv size s' log last := by
  unfold St.flushDirtyPage at hstep
  split at hstep <;> cases hstep
  rename_i idx p pending ht
  have hsub : ∀ w ∈ (if dirty then s.buf p :: s.unsynced else s.unsynced),
      w ∈ s.unsynced ∨ w = s.buf p := by
    intro w hw
    cases dirty
    · exact .inl hw
    · exact (List.mem_cons.mp hw).symm
  have hnodup := h.owners.nodup t
  have hown := h.owners.disjoint t
  have hunlocked : (s.pgwr t).locked = false := by rw [ht]; rfl
  rw [ht] at hnodup hown
  have hlocked := fun {u q} => s.of_setPgwr_locked (t := t) (u := u) (q := q)
    (p := .flushing idx pending) rfl
  refine ⟨h.readable, h.heads, h.pages.flushPage h.owners ht hsub,
    h.owners.setPgwr trivial (List.nodup_cons.mp hnodup).2
      (fun u hu q hq hqu => hu (hown u q (.tail _ hq) hqu).symm),
    ⟨fun u => ?_, h.lock.ckpt, h.lock.free,
      fun u isNew pages hq => h.lock.recycling u isNew pages (hlocked hq rfl),
      fun u isNew pages hq => ?_,
      fun u isNew pages hq => h.lock.writing u isNew pages (hlocked hq rfl), fun htr =>
      (h.lock.truncHeading htr).imp_right fun hok => hok.imp_right (·.flushPage h.pages ht hsub)⟩,
    fun info todo hi hd => (h.trunc info todo hi hd).imp_right (·.flushPage h.pages ht hsub)⟩
  · refine (h.lock.held u).trans ?_
    rcases s.setPgwr_cases t (.flushing idx pending) u with ⟨rfl, hu⟩ | ⟨_, hu⟩
    · rw [hunlocked]
      exact ⟨nofun, fun hl => (by cases (congrArg Pgwr.locked hu).symm.trans hl)⟩
    · rw [← hu]
      exact Iff.rfl
  · -- no file head is written while a thread writes data pages
    have hidle := (h.lock.heading u isNew pages (hlocked hq rfl)).2.2.1 t
    rw [ht] at hidle
    cases hidle

end Flush

/-! ## Truncation -/

theorem foldl_minDwPageIdx (idxs : List (Option Nat)) (hpos : ∀ i, some i ∈ idxs → 1 ≤ i)
    (m : Nat) :
    (idxs.foldl minDwPageIdx m = m ∨ some (idxs.foldl minDwPageIdx m) ∈ idxs) ∧
      (m ≠ 0 → idxs.foldl minDwPageIdx m ≠ 0 ∧ idxs.foldl minDwPageIdx m ≤ m) ∧
      ∀ i, some i ∈ idxs → idxs.foldl minDwPageIdx m ≠ 0 ∧ idxs.foldl minDwPageIdx m ≤ i := by
  induction idxs generalizing m with
  | nil => exact ⟨.inl rfl, fun hm => ⟨hm, le_rfl⟩, nofun⟩
  | cons x idxs ih =>
    have hpos' : ∀ i, some i ∈ idxs → 1 ≤ i := fun i hi => hpos i (.tail _ hi)
    cases x with
    | none =>
      obtain ⟨h1, h2, h3⟩ := ih hpos' m
      refine ⟨h1.imp_right (List.mem_cons_of_mem _), h2, fun i hi => h3 i ?_⟩
      rcases List.mem_cons.mp hi with hi | hi
      · cases hi
      · exact hi
    | some x =>
      have hx := hpos x (.head _)
      obtain ⟨h1, h2, h3⟩ := ih hpos' (if m = 0 ∨ x < m then x else m)
      rw [List.foldl_cons, minDwPageIdx]
      generalize idxs.foldl minDwPageIdx (if m = 0 ∨ x < m then x else m) = r at h1 h2 h3 ⊢
      have hnew : (if m = 0 ∨ x < m then x else m) ≠ 0 ∧ (if m = 0 ∨ x < m then x else m) ≤ x ∧
          (m ≠ 0 → (if m = 0 ∨ x < m then x else m) ≤ m) ∧
          ((if m = 0 ∨ x < m then x else m) = x ∨ (if m = 0 ∨ x < m then x else m) = m) := by
        split <;> omega
      obtain ⟨hne, hle, hlem, hcase⟩ := hnew
      obtain ⟨hr0, hrle⟩ := h2 hne
      refine ⟨?_, fun hm => ⟨hr0, hrle.trans (hlem hm)⟩, fun i hi => ?_⟩
      · rcases h1 with h1 | h1
        · rcases hcase with hcase | hcase
          · exact .inr (by rw [h1, hcase]; exact (.head _))
          · exact .inl (by rw [h1, hcase])
        · exact .inr (.tail _ h1)
      · rcases List.mem_cons.mp hi with hi | hi
        · cases hi
          exact ⟨hr0, hrle.trans hle⟩
        · exact h3 i hi

theorem getDwPageMinIdx_spec (idxs : List (Option Nat)) (hpos : ∀ i, some i ∈ idxs → 1 ≤ i) :
    (getDwPageMinIdx idxs = 0 → ∀ i, some i ∉ idxs) ∧
      (getDwPageMinIdx idxs ≠ 0 → some (getDwPageMinIdx idxs) ∈ idxs) ∧
      ∀ i, some i ∈ idxs → getDwPageMinIdx idxs ≤ i := by
  obtain ⟨h1, _, h3⟩ := foldl_minDwPageIdx idxs hpos 0
  exact ⟨fun h0 i hi => (h3 i hi).1 h0, fun hne => h1.resolve_left hne, fun i hi => (h3 i hi).2⟩

/-- What a truncation writes down is a start that is right once everything
written so far is synced. -/
theorem Inv.startOk_target (h : Inv size s log last) (hfree : s.flushLock = none) :
    StartOk s.synced s.unsynced s.pgwr log last (s.unsynced.map tag)
      (TruncInfo.target ⟨s.cxt.head.start, s.cxt.head.dwn,
        getDwPageMinIdx ((List.finRange n).map fun t => (s.pgwr t).dwPageIdx), s.cxt.flushPage⟩) := by
  have hat := h.lock.free hfree
  -- a thread that writes data pages has a batch in the log
  have hidx : ∀ i, some i ∈ (List.finRange n).map (fun t => (s.pgwr t).dwPageIdx) →
      ∃ b ∈ log, b.pos = i := by
    intro i hi
    obtain ⟨t, _, ht⟩ := List.mem_map.mp hi
    cases hp : s.pgwr t <;> rw [hp] at ht <;> cases ht
    exact (h.pages.flushing t _ _ hp).1
  have hmem : ∀ t idx pending, s.pgwr t = .flushing idx pending →
      some idx ∈ (List.finRange n).map fun t => (s.pgwr t).dwPageIdx := by
    intro t idx pending ht
    exact List.mem_map.mpr ⟨t, List.mem_finRange t, by rw [ht]; rfl⟩
  have hstart := h.readable.start_pos
  obtain ⟨hzero, hsome, hmin⟩ := getDwPageMinIdx_spec
    ((List.finRange n).map fun t => (s.pgwr t).dwPageIdx) (fun i hi => by
      obtain ⟨b, hb, rfl⟩ := hidx i hi
      exact hstart.trans (h.readable.chain.mem_pos hb).1)
  generalize getDwPageMinIdx ((List.finRange n).map fun t => (s.pgwr t).dwPageIdx) = m
    at hzero hsome hmin
  refine ⟨?_, fun t idx pending ht => ?_, fun w hw => .inl (List.mem_map_of_mem hw)⟩
  · simp only [TruncInfo.target]
    by_cases hm : m = 0
    · rw [if_pos hm]
      exact .inl hat.last
    · rw [if_neg hm]
      exact .inr (hidx m (hsome hm))
  · simp only [TruncInfo.target]
    by_cases hm : m = 0
    · exact absurd (hmem t idx pending ht) (hzero hm idx)
    · rw [if_neg hm]
      exact hmin idx (hmem t idx pending ht)

theorem Inv.truncBegin (h : Inv size s log last) (hstep : s.truncBegin = some s') :
    Inv size s' log last := by
  unfold St.truncBegin at hstep
  split at hstep <;> cases hstep
  rename_i htrunc hfree
  have hat := h.lock.free hfree
  refine ⟨h.readable, h.heads, h.pages, h.owners,
    { h.lock with
      ckpt := ⟨fun hl => ?_, nofun⟩, heading := fun t isNew pages ht => ?_, truncHeading := nofun },
    fun info todo hi _ => ?_⟩
  · rw [hfree] at hl
    cases hl
  · exact absurd rfl (h.lock.unlocked (by simp [hfree]) ht)
  · cases hi
    exact ⟨congrArg FileHead.start hat.head, h.startOk_target hfree⟩

theorem Inv.truncSync (h : Inv size s log last) (hstep : s.truncSync = some s') :
    Inv size s' log last := by
  unfold St.truncSync at hstep
  split at hstep <;> cases hstep
  rename_i info p todo htrunc
  refine ⟨h.readable, h.heads, h.pages.sync _, h.owners,
    { h.lock with
      ckpt := ⟨fun hl => ?_, nofun⟩, heading := fun t isNew pages ht => ?_, truncHeading := nofun },
    fun info' todo' hi hd => ?_⟩
  · have := h.lock.ckpt.mp hl
    rw [htrunc] at this
    cases this
  · obtain ⟨hcxt, hnil, hidle, hfile, hdwn⟩ := h.lock.heading t isNew pages ht
    refine ⟨hcxt, by simp [St.sync, hnil], hidle, hfile, fun info' todo' hi => ?_⟩
    cases hi
    exact hdwn info (p :: todo) htrunc
  · cases hi
    obtain ⟨horg, hstart⟩ := h.trunc info (p :: todo) htrunc hd
    refine ⟨horg, hstart.sync fun q hq hqp => ?_⟩
    rcases List.mem_cons.mp hq with rfl | hq
    · simp at hqp
    · exact hq

theorem Inv.dropTrunc (h : Inv size s log last) (hnot : s.trunc ≠ .heading) :
    Inv size { s with trunc := .none } log last := by
  refine ⟨h.readable, h.heads, h.pages, h.owners,
    { h.lock with
      ckpt := ⟨fun hl => absurd (h.lock.ckpt.mp hl) hnot, nofun⟩
      heading := fun t isNew pages ht => ?_, truncHeading := nofun }, nofun⟩
  obtain ⟨hcxt, hnil, hidle, hfile, _⟩ := h.lock.heading t isNew pages ht
  exact ⟨hcxt, hnil, hidle, hfile, nofun⟩

theorem FileCxt.truncate_eq {cxt : FileCxt} {info : TruncInfo} (hat : AtLast cxt head last)
    (horg : info.orgStart = cxt.head.start) (hle : head.start ≤ info.target ∧ info.target ≤ last)
    (hlast : last < size.pages) :
    cxt.truncate info.minIdx info.lastFlushPage =
      ⟨⟨info.target, head.dwn⟩, last - info.target⟩ := by
  obtain ⟨rfl, hadd⟩ := hat
  have hsize := size.pages_le
  simp only [TruncInfo.target] at hle ⊢
  unfold FileCxt.truncate
  by_cases hm : info.minIdx = 0
  · simp only [if_pos hm] at hle ⊢
    rw [horg] at hle ⊢
    rw [u16_of_lt (by omega)]
    congr 1
    simp only [u16]
    omega
  · simp only [if_neg hm] at hle ⊢
    congr 1
    simp only [u16]
    omega

theorem Inv.truncEnd (h : Inv size s log last) (hstep : s.truncEnd = some s') :
    Inv size s' log last := by
  unfold St.truncEnd at hstep
  split at hstep; swap
  · cases hstep
  rename_i info htrunc
  have hnot : s.trunc ≠ .heading := by
    rw [htrunc]
    exact nofun
  split at hstep
  · cases hstep
    exact h.dropTrunc hnot
  rename_i hfree
  split at hstep
  · cases hstep
    exact h.dropTrunc hnot
  rename_i hsame
  cases hstep
  have horg := not_not.mp (not_or.mp hsame).1
  have hdwn := not_not.mp (not_or.mp hsame).2
  have hat := h.lock.free hfree
  have hunlocked := h.lock.unlocked (by simp [hfree])
  obtain ⟨_, hstart⟩ := h.trunc info [] htrunc (hdwn.trans (congrArg FileHead.dwn hat.head))
  have hle := hstart.le h.readable
  rw [FileCxt.truncate_eq hat horg hle h.readable.room]
  refine ⟨h.readable, h.heads, h.pages, h.owners,
    ⟨fun t => ⟨nofun, fun hl => ?_⟩, ⟨fun _ => rfl, fun _ => rfl⟩,
      nofun, fun _ _ _ ht => absurd rfl (hunlocked ht), fun _ _ _ ht => absurd rfl (hunlocked ht),
      fun _ _ _ ht => absurd rfl (hunlocked ht), fun _ => ⟨rfl, ?_, hstart⟩⟩,
    fun info' todo hi => (by cases hi)⟩
  · exact absurd hl (hunlocked rfl)
  · simp only
    omega

/-- The part of the log from a boundary on. -/
theorem Chain.suffix {dwn pos : Nat} (h : Chain file dwn pos log last)
    (hstart : start = last ∨ ∃ b ∈ log, b.pos = start) :
    ∃ rest, Chain file dwn start rest last ∧ (∀ b ∈ rest, b ∈ log) ∧
      ∀ b ∈ log, start ≤ b.pos → b ∈ rest := by
  induction log generalizing pos with
  | nil =>
    rcases hstart with rfl | ⟨b, hb, _⟩
    · exact ⟨[], rfl, fun b hb => hb, nofun⟩
    · cases hb
  | cons c log ih =>
    have hchain := h
    obtain ⟨hpos, hat, hrest⟩ := h
    by_cases hc : c.pos = start
    · subst hpos
      rw [hc] at hchain
      exact ⟨c :: log, hchain, fun b hb => hb, fun b hb _ => hb⟩
    have hstart' : start = last ∨ ∃ b ∈ log, b.pos = start := by
      rcases hstart with hl | ⟨b, hb, hbs⟩
      · exact .inl hl
      rcases List.mem_cons.mp hb with rfl | hb
      · exact absurd hbs hc
      · exact .inr ⟨b, hb, hbs⟩
    obtain ⟨rest, hsuffix, hsub, hall⟩ := ih hrest hstart'
    refine ⟨rest, hsuffix, fun b hb => .tail _ (hsub b hb), fun b hb hle => ?_⟩
    rcases List.mem_cons.mp hb with rfl | hb
    · -- the first batch lies before the boundary
      have hle' : b.next ≤ start := by
        rcases hstart' with rfl | ⟨d, hd, rfl⟩
        · exact hrest.le
        · exact (hrest.mem_pos hd).1
      simp only [Batch.next] at hle'
      omega
    · exact hall b hb hle

/-- The invariant with the file starting at a later boundary. -/
theorem Inv.suffix (h : Inv size s log last)
    (hstart : StartOk s.synced s.unsynced s.pgwr log last [] start) :
    ∃ rest, Readable size s.file ⟨start, (s.heads 0).dwn⟩ rest last ∧
      PagesInv s.synced s.unsynced s.pgwr s.buf rest := by
  obtain ⟨rest, hchain, hsub, hall⟩ := h.readable.chain.suffix hstart.boundary
  have hle := hstart.le h.readable
  refine ⟨rest, ⟨h.readable.start_pos.trans hle.1, hchain, fun hne => ?_,
    h.readable.fresh, h.readable.fit, h.readable.room⟩, { h.pages with
      flushing := fun t idx pending ht => ?_
      covered := fun w hw => ?_ }⟩
  · apply h.readable.tail
    rintro rfl
    cases rest with
    | nil => exact hne rfl
    | cons b rest => exact absurd (hsub b (.head _)) List.not_mem_nil
  · obtain ⟨⟨b, hb, hpos⟩, hpending⟩ := h.pages.flushing t idx pending ht
    have hidx := hstart.flushing t idx pending ht
    refine ⟨⟨b, hall b hb (by omega), hpos⟩, fun p hp => ?_⟩
    obtain ⟨b', hb', hpos', hc⟩ := hpending p hp
    exact ⟨b', hall b' hb' (by omega), hpos', hc⟩
  · rcases hstart.covered w hw with hin | ⟨b, hb, hpos, hc⟩
    · cases hin
    · exact ⟨b, hall b hb hpos, Nat.zero_le _, hc⟩

theorem Inv.truncHead (h : Inv size s log last) (hstep : s.truncHead = some s') :
    ∃ log', Inv size s' log' last := by
  unfold St.truncHead at hstep
  split at hstep <;> cases hstep
  rename_i htrunc
  obtain ⟨hdwn, hlast, hstart⟩ := h.lock.truncHeading htrunc
  have hunlocked := h.lock.unlocked (by simp [h.lock.ckpt.mpr htrunc])
  obtain ⟨rest, hread, hpages⟩ := h.suffix hstart
  rw [← hdwn] at hread
  refine ⟨rest, hread, fun _ => rfl, hpages, h.owners,
    ⟨fun t => ⟨nofun, fun hl => absurd hl (hunlocked rfl)⟩,
      ⟨nofun, nofun⟩, fun _ => ⟨rfl, hlast⟩,
      fun _ _ _ ht => absurd rfl (hunlocked ht), fun _ _ _ ht => absurd rfl (hunlocked ht),
      fun _ _ _ ht => absurd rfl (hunlocked ht), nofun⟩, nofun⟩

end OpenGauss.DoubleWrite
