import OpenGauss.MotGc.GcManager

/-!
# What is reclaimed

The shared bound and every bound a session is about to use are at most the snapshots of
all transactions that are going on. A transaction that starts later takes a number that is
at least the counter at which the bound was computed, since the session that computes it
has published such a number itself. The bound at the close of a session is one higher: the
session has found no other, so all snapshots are later than its own number, and the lock
keeps the shared bound at that number until it is read (`BarrierInv`).
-/

namespace OpenGauss.MotGc

variable {c : Clean} {s s' : Gc} {event : GcEvent} {active i : Nat} {lock : Option Nat}
  {x : Session}

/-! ## The invariant -/

/-- No transaction that is going on has a snapshot below the number. -/
def Gc.Safe (s : Gc) (n : Nat) : Prop := ∀ t x, (s.session t).snapshot = some x → n ≤ x

def Gc.PhaseSafe (s : Gc) (i : Nat) (c : Clean) : Phase → Prop
  | .readEpoch _ => True
  | .writeEpoch _ epoch => 0 < epoch ∧ epoch ≤ s.counter
  | .test => c.close = false → 0 < (s.session i).gcEpoch
  | .lock => 0 < (s.session i).gcEpoch
  | .scan rest min active tid => 0 < (s.session i).gcEpoch ∧
    (i ∈ rest ∨ ∃ m, min = some m ∧ m ≤ (s.session i).gcEpoch) ∧
    (∀ t x, (s.session t).snapshot = some x → t ∉ rest →
      (∃ m, min = some m ∧ m ≤ x) ∨ (s.session i).gcEpoch ≤ x) ∧
    (s.beyondBound c = true → Gc.seesItselfAlone i active tid = true →
      ∀ t x, (s.session t).snapshot = some x → t ∉ rest → (s.session i).gcEpoch < x)
  | .writeActive min barrier => 0 < (s.session i).gcEpoch ∧ min ≤ (s.session i).gcEpoch ∧
    s.Safe min ∧
    (s.beyondBound c = true → barrier = true → s.Safe ((s.session i).gcEpoch + 1))
  | .readActive barrier =>
    s.beyondBound c = true → barrier = true → s.Safe ((s.session i).gcEpoch + 1)
  | .quiesce barrier => s.Safe c.perform ∧ (c.perform ≤ s.counter ∨
    s.beyondBound c = true ∧ barrier = true ∧ c.perform ≤ (s.session i).gcEpoch + 1)

structure CleanSafe (s : Gc) (i : Nat) (c : Clean) : Prop where
  perform_le : c.performGCEpoch ≤ s.counter
  perform_safe : s.Safe c.performGCEpoch
  phase : s.PhaseSafe i c c.phase

structure SessionInv (s : Gc) (i : Nat) : Prop where
  snapshot : ∀ x, (s.session i).snapshot = some x → 0 < x ∧ x ≤ s.counter ∧
    ((s.session i).pc = .publish x ∨ (s.session i).pc = .out ∧ (s.session i).gcEpoch = x)
  epoch_le : (s.session i).gcEpoch ≤ s.counter
  publish : ∀ x, (s.session i).pc = .publish x → (s.session i).snapshot = some x
  clean : ∀ c, (s.session i).pc = .clean c → (s.session i).snapshot = none ∧ CleanSafe s i c

structure GcInv (s : Gc) : Prop where
  counter_pos : 0 < s.counter
  active_le : s.activeEpoch ≤ s.counter
  active_safe : s.Safe s.activeEpoch
  outside : ∀ i, i ∉ s.managers → (s.session i).snapshot = none ∧ (s.session i).pc = .out
  session : ∀ i, SessionInv s i

/-! ## Frames -/

/-- Numbers only grow, and a new snapshot is at the counter, which no session closes at. -/
structure Frame (s s' : Gc) : Prop where
  counter_le : s.counter ≤ s'.counter
  recovering : s'.isRecovering = s.isRecovering
  snapshot : ∀ t x, (s'.session t).snapshot = some x →
    (s.session t).snapshot = some x ∨ x = s.counter ∧ ∀ b, s.closesAt b t = false

section Frames

variable {s s' : Gc}

theorem Gc.Safe.frame (hf : Frame s s') {n : Nat} (h : s.Safe n) (hle : n ≤ s.counter) :
    s'.Safe n := by
  intro t x hx
  rcases hf.snapshot t x hx with hold | ⟨rfl, -⟩
  · exact h t x hold
  · exact hle

/-- What a cleaning relies on at its place, if its session keeps its number and new snapshots are
not below the counter, nor at that number once the cleaning has passed their session. -/
theorem Gc.PhaseSafe.frame {j : Nat} {phase : Phase} (h : s.PhaseSafe j c phase)
    (hcounter : s.counter ≤ s'.counter) (hrec : s'.isRecovering = s.isRecovering)
    (hgc : (s'.session j).gcEpoch = (s.session j).gcEpoch)
    (hepoch : (s.session j).gcEpoch ≤ s.counter)
    (hnew : ∀ t x, (s'.session t).snapshot = some x → (s.session t).snapshot = some x ∨
      s.counter ≤ x ∧ (s.beyondBound c = true → Gc.Phase.past j t phase = true →
        (s.session j).gcEpoch < x)) : s'.PhaseSafe j c phase := by
  have hbeyond : s'.beyondBound c = s.beyondBound c := by
    unfold Gc.beyondBound
    rw [hrec]
  have hsafe : ∀ n, n ≤ s.counter → s.Safe n → s'.Safe n := fun n hle hn t x hx =>
    (hnew t x hx).elim (hn t x) fun h => Nat.le_trans hle h.1
  -- One number beyond the session's own, after the session of the snapshot was passed.
  have hbarrier : s.beyondBound c = true → (∀ t, Gc.Phase.past j t phase = true) →
      s.Safe ((s.session j).gcEpoch + 1) → s'.Safe ((s.session j).gcEpoch + 1) :=
    fun hb hpast hn t x hx => (hnew t x hx).elim (hn t x) fun h => h.2 hb (hpast t)
  cases phase with
  | readEpoch => trivial
  | writeEpoch again epoch => exact ⟨h.1, Nat.le_trans h.2 hcounter⟩
  | test => exact fun hclose => hgc ▸ h hclose
  | lock =>
    show 0 < (s'.session j).gcEpoch
    rw [hgc]
    exact h
  | scan rest min active tid =>
    obtain ⟨hpos, hown, hvisited, halone⟩ := h
    unfold Gc.PhaseSafe
    rw [hgc, hbeyond]
    refine ⟨hpos, hown, fun t x hx hrest => ?_, fun hb ha t x hx hrest => ?_⟩
    · rcases hnew t x hx with hold | ⟨hle, -⟩
      · exact hvisited t x hold hrest
      · exact .inr (Nat.le_trans hepoch hle)
    · rcases hnew t x hx with hold | ⟨-, hpast⟩
      · exact halone hb ha t x hold hrest
      · refine hpast hb ?_
        simp [Gc.Phase.past, ha, hrest]
  | writeActive min barrier =>
    obtain ⟨hpos, hle, hmin, hbar⟩ := h
    unfold Gc.PhaseSafe
    rw [hgc, hbeyond]
    exact ⟨hpos, hle, hsafe _ (Nat.le_trans hle hepoch) hmin,
      fun hb ht => hbarrier hb (fun _ => ht) (hbar hb ht)⟩
  | readActive barrier =>
    unfold Gc.PhaseSafe
    rw [hgc, hbeyond]
    exact fun hb ht => hbarrier hb (fun _ => ht) (h hb ht)
  | quiesce barrier =>
    obtain ⟨hperform, hbound⟩ := h
    unfold Gc.PhaseSafe
    rw [hgc, hbeyond]
    refine ⟨fun t x hx => ?_, hbound.imp_left fun hle => Nat.le_trans hle hcounter⟩
    rcases hnew t x hx with hold | ⟨hle, hpast⟩
    · exact hperform t x hold
    rcases hbound with hb | ⟨hb, ht, hb'⟩
    · exact Nat.le_trans hb hle
    · exact Nat.le_trans hb' (hpast hb ht)

theorem SessionInv.frame {j : Nat} (h : SessionInv s j) (hf : Frame s s')
    (hgc : (s'.session j).gcEpoch = (s.session j).gcEpoch)
    (hpc : (s'.session j).pc = (s.session j).pc)
    (hsnap : (s'.session j).snapshot = (s.session j).snapshot) : SessionInv s' j := by
  have hcounter := hf.counter_le
  refine ⟨fun x hx => ?_, ?_, fun x hx => ?_, fun c hc => ?_⟩
  · rw [hsnap] at hx
    rw [hgc, hpc]
    obtain ⟨h1, h2, h3⟩ := h.snapshot x hx
    exact ⟨h1, Nat.le_trans h2 hcounter, h3⟩
  · rw [hgc]
    exact Nat.le_trans h.epoch_le hcounter
  · rw [hpc] at hx
    rw [hsnap]
    exact h.publish x hx
  · rw [hpc] at hc
    rw [hsnap]
    obtain ⟨hnone, hclean⟩ := h.clean c hc
    refine ⟨hnone, Nat.le_trans hclean.perform_le hcounter,
      hclean.perform_safe.frame hf hclean.perform_le, ?_⟩
    refine hclean.phase.frame hcounter hf.recovering hgc h.epoch_le fun t x hx => ?_
    refine (hf.snapshot t x hx).imp_right fun ⟨hx, hcloses⟩ => ⟨Nat.le_of_eq hx.symm, fun hb hp => ?_⟩
    have hno := hcloses j
    unfold Gc.closesAt at hno
    simp only [hc, hb, hp, Bool.and_self, Bool.true_and, decide_eq_false_iff_not] at hno
    exact hx ▸ Nat.lt_of_le_of_ne h.epoch_le (Ne.symm hno)

/-- A step of one session that leaves the counter. -/
theorem GcInv.ofSession (h : GcInv s) (hi : i ∈ s.managers) (hf : Frame s s')
    (hcounter : s'.counter = s.counter) (hmanagers : s'.managers = s.managers)
    (hsame : ∀ j, j ≠ i → s'.session j = s.session j)
    (hactive : s'.activeEpoch ≤ s.counter ∧ s.Safe s'.activeEpoch)
    (hown : SessionInv s' i) : GcInv s' where
  counter_pos := hcounter ▸ h.counter_pos
  active_le := hcounter ▸ hactive.1
  active_safe := hactive.2.frame hf hactive.1
  outside := fun j hj => by
    have hne : j ≠ i := fun heq => hj (hmanagers ▸ heq ▸ hi)
    rw [hsame j hne]
    exact h.outside j (hmanagers ▸ hj)
  session := fun j => by
    by_cases hj : j = i
    · exact hj ▸ hown
    have heq := hsame j hj
    exact (h.session j).frame hf (by rw [heq]) (by rw [heq]) (by rw [heq])

end Frames

@[simp] theorem set_session_self (s : Gc) (i : Nat) (x : Session) : (s.set i x).session i = x :=
  Function.update_self ..

theorem set_session_of_ne (s : Gc) {j : Nat} (x : Session) (h : j ≠ i) :
    (s.set i x).session j = s.session j :=
  Function.update_of_ne h ..

/-- After a step of session `i` a session is where it was, or it is `i`. -/
theorem of_set_pc {j : Nat} {pc : Pc} (h : ((s.set i x).session j).pc = pc) :
    j = i ∧ x.pc = pc ∨ j ≠ i ∧ (s.session j).pc = pc := by
  by_cases hj : j = i
  · rw [hj, set_session_self] at h
    exact .inl ⟨hj, h⟩
  · rw [set_session_of_ne s x hj] at h
    exact .inr ⟨hj, h⟩

/-! ## Sessions after a step -/

section Sessions

variable {s : Gc} {i : Nat}

theorem sessionInv_none (hx : s.session i = x) (hnone : x.snapshot = none)
    (hle : x.gcEpoch ≤ s.counter) (hpublish : ∀ y, x.pc ≠ .publish y)
    (hclean : ∀ c, x.pc = .clean c → CleanSafe s i c) : SessionInv s i := by
  subst hx
  refine ⟨fun y hy => ?_, hle, fun y hy => absurd hy (hpublish y), fun c hc => ⟨hnone, hclean c hc⟩⟩
  rw [hnone] at hy
  cases hy

theorem sessionInv_out (hx : s.session i = x) (hpc : x.pc = .out) (hnone : x.snapshot = none)
    (hle : x.gcEpoch ≤ s.counter) : SessionInv s i :=
  sessionInv_none hx hnone hle (by simp [hpc]) (by simp [hpc])

theorem sessionInv_clean (hx : s.session i = x) (hpc : x.pc = .clean c) (hnone : x.snapshot = none)
    (hle : x.gcEpoch ≤ s.counter) (hclean : CleanSafe s i c) : SessionInv s i := by
  refine sessionInv_none hx hnone hle (by simp [hpc]) fun c' hc => ?_
  cases hpc.symm.trans hc
  exact hclean

/-- Without new snapshots all bounds stay right. -/
theorem safe_of_kept
    (hkept : ∀ t c, (s'.session t).snapshot = some c → (s.session t).snapshot = some c) {n : Nat}
    (h : s.Safe n) : s'.Safe n :=
  fun t c hc => h t c (hkept t c hc)

theorem GcInv.ofKept (h : GcInv s) (hi : i ∈ s.managers)
    (hsnap : x.snapshot = none ∨ x.snapshot = (s.session i).snapshot)
    (hactive : active ≤ s.counter ∧ s.Safe active)
    (hown : ∀ s', s' = { s.set i x with activeEpoch := active, globalEpochLock := lock } →
      s'.session i = x → s'.counter = s.counter → (∀ t c, (s'.session t).snapshot = some c →
        (s.session t).snapshot = some c) → SessionInv s' i) :
    GcInv { s.set i x with activeEpoch := active, globalEpochLock := lock } := by
  have hkept : ∀ t c, ((s.set i x).session t).snapshot = some c →
      (s.session t).snapshot = some c := by
    intro t c hc
    by_cases ht : t = i
    · rw [ht, set_session_self] at hc
      rcases hsnap with hnone | hsame
      · rw [hnone] at hc
        cases hc
      · rw [ht, ← hsame]
        exact hc
    · rw [set_session_of_ne s x ht] at hc
      exact hc
  exact h.ofSession hi ⟨le_rfl, rfl, fun t c hc => .inl (hkept t c hc)⟩ rfl rfl
    (fun j hj => set_session_of_ne s x hj) hactive
    (hown _ rfl (set_session_self s i x) rfl hkept)

theorem GcInv.goto (h : GcInv s) (hi : i ∈ s.managers) (hnone : (s.session i).snapshot = none)
    {phase : Phase} (hperform : c.performGCEpoch ≤ s.counter ∧ s.Safe c.performGCEpoch)
    (hphase : s.PhaseSafe i { c with phase := phase } phase)
    (hactive : active ≤ s.counter ∧ s.Safe active) :
    GcInv { s.goto i c phase with activeEpoch := active, globalEpochLock := lock } := by
  refine h.ofKept hi (.inr rfl) hactive fun s' hs' hx hcounter hkept => ?_
  refine sessionInv_clean hx rfl hnone (hcounter ▸ (h.session i).epoch_le)
    ⟨hcounter ▸ hperform.1, safe_of_kept hkept hperform.2, ?_⟩
  exact hphase.frame (Nat.le_of_eq hcounter.symm) (by rw [hs']; rfl) (by rw [hx])
    (h.session i).epoch_le fun t x hc => .inl (hkept t x hc)

theorem GcInv.nextQueue (h : GcInv s) (hi : i ∈ s.managers) (hnone : x.snapshot = none)
    (hle : x.gcEpoch ≤ s.counter)
    (hperform : c.performGCEpoch ≤ s.counter ∧ s.Safe c.performGCEpoch) :
    GcInv (s.set i (Gc.nextQueue x c)) := by
  have hactive : s.activeEpoch ≤ s.counter ∧ s.Safe s.activeEpoch := ⟨h.active_le, h.active_safe⟩
  unfold Gc.nextQueue
  split
  next queue rest hrest =>
    refine h.ofKept hi (.inl hnone) hactive fun s' _ hx hcounter hkept => ?_
    refine sessionInv_clean hx rfl hnone (hcounter ▸ hle)
      ⟨hcounter ▸ hperform.1, safe_of_kept hkept hperform.2, ?_⟩
    cases c.close with
    | true => exact nofun
    | false => trivial
  next =>
    split
    · exact h.ofKept hi (.inl hnone) hactive fun s' _ hx _ _ =>
        sessionInv_out hx rfl hnone (Nat.zero_le _)
    · exact h.ofKept hi (.inl hnone) hactive fun s' _ hx _ _ =>
        sessionInv_out hx rfl hnone (Nat.zero_le _)

end Sessions

/-! ## Cleaning -/

section Cleaning

variable {s : Gc} {i : Nat} {c : Clean}

/-- One manager read by `MinActiveEpoch`. -/
theorem PhaseSafe.scan_next (h : GcInv s) {t : Nat} {rest : List Nat} {min : Option Nat}
    {tid : Option Nat} (active' : Nat) (tid' : Option Nat)
    (hphase : s.PhaseSafe i c (.scan (t :: rest) min active tid))
    (hpublish : (s.session t).pc.isPublish = false) {min' : Option Nat}
    (hmin : ∀ m, min = some m → ∃ m', min' = some m' ∧ m' ≤ m)
    (halone : Gc.seesItselfAlone i active' tid' = true →
      Gc.seesItselfAlone i active tid = true ∧ (s.session t).snapshot = none)
    (hread : 0 < (s.session t).gcEpoch → ∃ m', min' = some m' ∧ m' ≤ (s.session t).gcEpoch) :
    s.PhaseSafe i c (.scan rest min' active' tid') := by
  obtain ⟨hpos, hown, hvisited, hlater⟩ := hphase
  refine ⟨hpos, ?_, fun u x hx hrest => ?_, fun hb ha u x hx hrest => ?_⟩
  · rcases hown with hmem | ⟨m, hm, hle⟩
    · rcases List.mem_cons.mp hmem with rfl | hmem
      · exact .inr (hread hpos)
      · exact .inl hmem
    · obtain ⟨m', hm', hle'⟩ := hmin m hm
      exact .inr ⟨m', hm', Nat.le_trans hle' hle⟩
  · by_cases hu : u = t
    · -- the session read now has published its snapshot
      rw [hu] at hx
      obtain ⟨hxpos, -, hpc | ⟨-, hepoch⟩⟩ := (h.session t).snapshot x hx
      · rw [hpc] at hpublish
        cases hpublish
      · obtain ⟨m', hm', hle⟩ := hread (hepoch ▸ hxpos)
        exact .inl ⟨m', hm', hepoch ▸ hle⟩
    · rcases hvisited u x hx (List.not_mem_cons_of_ne_of_not_mem hu hrest) with ⟨m, hm, hle⟩ | hle
      · obtain ⟨m', hm', hle'⟩ := hmin m hm
        exact .inl ⟨m', hm', Nat.le_trans hle' hle⟩
      · exact .inr hle
  · obtain ⟨hbefore, hnone⟩ := halone ha
    have hu : u ≠ t := by
      rintro rfl
      rw [hnone] at hx
      cases hx
    exact hlater hb hbefore u x hx (List.not_mem_cons_of_ne_of_not_mem hu hrest)

/-- The minimum over all managers is at most every snapshot, and the session's own number is below
every snapshot if it sees itself alone. -/
theorem PhaseSafe.scan_end {min : Option Nat} {tid : Option Nat}
    (hphase : s.PhaseSafe i c (.scan [] min active tid)) :
    s.PhaseSafe i c (.writeActive (min.getD s.counter) (Gc.seesItselfAlone i active tid)) := by
  obtain ⟨hpos, hown, hvisited, hlater⟩ := hphase
  obtain ⟨m, rfl, hle⟩ := hown.resolve_left List.not_mem_nil
  refine ⟨hpos, hle, fun t x hx => ?_, fun hb ha t x hx => hlater hb ha t x hx List.not_mem_nil⟩
  rcases hvisited t x hx List.not_mem_nil with ⟨m', hm', hle'⟩ | hle'
  · cases hm'
    exact hle'
  · exact Nat.le_trans hle hle'

/-! ## The barrier -/

/-- The places at which a cleaning holds `g_gcGlobalEpochLock`. -/
def Phase.locked : Phase → Bool
  | .scan _ _ _ _ => true
  | .writeActive _ _ => true
  | _ => false

/-- A cleaning that will not write a shared bound above the number that session `b` has
published. -/
def Phase.Below (b epoch : Nat) : Phase → Prop
  | .scan rest min _ _ => b ∈ rest ∨ ∃ m, min = some m ∧ m ≤ epoch
  | .writeActive min _ => min ≤ epoch
  | _ => True

/-- One session at a time computes the shared bound, and from when a session has written it until
it reads it the bound is not above the session's own number. -/
structure BarrierInv (s : Gc) : Prop where
  lock : ∀ j c, (s.session j).pc = .clean c → Phase.locked c.phase = true →
    s.globalEpochLock = some j
  bound : ∀ b c, (s.session b).pc = .clean c → c.phase = .readActive true →
    0 < (s.session b).gcEpoch ∧ s.activeEpoch ≤ (s.session b).gcEpoch ∧
      ∀ j c', (s.session j).pc = .clean c' → Phase.Below b (s.session b).gcEpoch c'.phase

theorem Phase.below_of_unlocked {b epoch : Nat} {phase : Phase} (h : Phase.locked phase = false) :
    Phase.Below b epoch phase := by
  cases phase <;> trivial

/-- A step of one session after which it is not at a place the barrier is about. -/
theorem BarrierInv.quiet (h : BarrierInv s) (hpc : ∀ c, x.pc = .clean c →
      Phase.locked c.phase = false ∧ c.phase ≠ .readActive true) : BarrierInv (s.set i x) := by
  refine ⟨fun j c hc hl => ?_, fun b c hc hr => ?_⟩
  · rcases of_set_pc hc with ⟨-, hc⟩ | ⟨-, hc⟩
    · cases (hpc c hc).1.symm.trans hl
    · exact h.lock j c hc hl
  · rcases of_set_pc hc with ⟨-, hc⟩ | ⟨hb, hc⟩
    · exact absurd hr (hpc c hc).2
    · rw [set_session_of_ne s x hb]
      obtain ⟨hpos, hle, hbelow⟩ := h.bound b c hc hr
      refine ⟨hpos, hle, fun j c' hc' => ?_⟩
      rcases of_set_pc hc' with ⟨-, hc'⟩ | ⟨-, hc'⟩
      · exact Phase.below_of_unlocked (hpc c' hc').1
      · exact hbelow j c' hc'

theorem BarrierInv.same {s' : Gc} (h : BarrierInv s)
    (hlock : s'.globalEpochLock = s.globalEpochLock) (hactive : s'.activeEpoch = s.activeEpoch)
    (hpc : ∀ j, (s'.session j).pc = (s.session j).pc)
    (hgc : ∀ j, (s'.session j).gcEpoch = (s.session j).gcEpoch) : BarrierInv s' := by
  refine ⟨fun j c hc hl => ?_, fun b c hc hr => ?_⟩
  · rw [hpc] at hc
    rw [hlock]
    exact h.lock j c hc hl
  · rw [hpc] at hc
    rw [hgc, hactive]
    obtain ⟨hpos, hle, hbelow⟩ := h.bound b c hc hr
    exact ⟨hpos, hle, fun j c' hc' => hbelow j c' (by rw [← hpc]; exact hc')⟩

/-- A cleaning that computes the shared bound goes on to another place at which it does. -/
theorem BarrierInv.gotoLocked (h : BarrierInv s) {phase : Phase}
    (hlock : lock = some i) (hfree : ∀ j, j ≠ i → s.globalEpochLock ≠ some j)
    (hphase : phase ≠ .readActive true)
    (hbelow : ∀ b c', (s.session b).pc = .clean c' → c'.phase = .readActive true → b ≠ i →
      Phase.Below b (s.session b).gcEpoch phase) :
    BarrierInv { s.goto i c phase with globalEpochLock := lock } := by
  refine ⟨fun j c' hc hl => ?_, fun b c' hc hr => ?_⟩
  · rcases of_set_pc hc with ⟨rfl, -⟩ | ⟨hj, hc⟩
    · exact hlock
    · exact absurd (h.lock j c' hc hl) (hfree j hj)
  · rcases of_set_pc hc with ⟨-, hc⟩ | ⟨hb, hc⟩
    · cases hc
      exact absurd hr hphase
    show 0 < ((s.set i _).session b).gcEpoch ∧ s.activeEpoch ≤ ((s.set i _).session b).gcEpoch ∧
      ∀ j c', ((s.set i _).session j).pc = .clean c' → Phase.Below b ((s.set i _).session b).gcEpoch _
    rw [set_session_of_ne s _ hb]
    obtain ⟨hpos, hle, hothers⟩ := h.bound b c' hc hr
    refine ⟨hpos, hle, fun j c'' hc' => ?_⟩
    rcases of_set_pc hc' with ⟨-, hc'⟩ | ⟨-, hc'⟩
    · cases hc'
      exact hbelow b c' hc hr hb
    · exact hothers j c'' hc'

/-- The shared bound is written: no other session is computing one. -/
theorem BarrierInv.writeActive (h : BarrierInv s) (hi : GcInv s) {min : Nat} {barrier : Bool}
    (hpc : (s.session i).pc = .clean c) (hphase : c.phase = .writeActive min barrier) :
    BarrierInv { s.goto i c (.readActive barrier) with activeEpoch := min, globalEpochLock := none } := by
  have hmine := h.lock i c hpc (by rw [hphase]; rfl)
  have hsafe := ((hi.session i).clean c hpc).2.phase
  rw [hphase] at hsafe
  have hothers : ∀ j c', j ≠ i → (s.session j).pc = .clean c' → Phase.locked c'.phase = false := by
    intro j c' hj hc
    by_contra hl
    have := hmine.symm.trans (h.lock j c' hc (by simpa using hl))
    exact hj (Option.some.inj this).symm
  have hunlocked : ∀ j c', ((s.set i { s.session i with
      pc := .clean { c with phase := .readActive barrier } }).session j).pc = .clean c' →
      Phase.locked c'.phase = false := by
    intro j c' hc
    rcases of_set_pc hc with ⟨-, hc⟩ | ⟨hj, hc⟩
    · cases hc
      rfl
    · exact hothers j c' hj hc
  refine ⟨fun j c' hc hl => ?_, fun b c' hc hr => ⟨?_, ?_, fun j c'' hc' => ?_⟩⟩
  · cases (hunlocked j c' hc).symm.trans hl
  · rcases of_set_pc hc with ⟨rfl, -⟩ | ⟨hb, hc⟩
    · show 0 < ((s.set b _).session b).gcEpoch
      rw [set_session_self]
      exact hsafe.1
    · show 0 < ((s.set i _).session b).gcEpoch
      rw [set_session_of_ne s _ hb]
      exact (h.bound b c' hc hr).1
  · rcases of_set_pc hc with ⟨rfl, -⟩ | ⟨hb, hc⟩
    · show min ≤ ((s.set b _).session b).gcEpoch
      rw [set_session_self]
      exact hsafe.2.1
    · show min ≤ ((s.set i _).session b).gcEpoch
      rw [set_session_of_ne s _ hb]
      have hbelow := (h.bound b c' hc hr).2.2 i c hpc
      rw [hphase] at hbelow
      exact hbelow
  · exact Phase.below_of_unlocked (hunlocked j c'' hc')

/-- The bound of a pass: the shared one, or one more if the session was alone. -/
theorem performEpoch_safe (h : GcInv s) (hb : BarrierInv s) {barrier : Bool}
    (hpc : (s.session i).pc = .clean c) (hphase : c.phase = .readActive barrier) :
    s.Safe (s.performEpoch c barrier) ∧ (s.performEpoch c barrier ≤ s.counter ∨
      s.beyondBound c = true ∧ barrier = true ∧
        s.performEpoch c barrier ≤ (s.session i).gcEpoch + 1) := by
  have hsafe := ((h.session i).clean c hpc).2.phase
  rw [hphase] at hsafe
  unfold Gc.performEpoch
  split
  next hcond =>
    obtain ⟨hbeyond, hbarrier⟩ := Bool.and_eq_true_iff.mp hcond
    rw [hbarrier] at hphase
    obtain ⟨-, hle, -⟩ := hb.bound i c hpc hphase
    exact ⟨fun t x hx => Nat.le_trans (Nat.succ_le_succ hle) (hsafe hbeyond hbarrier t x hx),
      .inr ⟨hbeyond, hbarrier, Nat.succ_le_succ hle⟩⟩
  next => exact ⟨h.active_safe, .inl h.active_le⟩

theorem GcInv.cleanStep (h : GcInv s) (hb : BarrierInv s) (hi : i ∈ s.managers)
    (hpc : (s.session i).pc = .clean c) (answer : Bool)
    (hslip : s.slips (.clean i answer) = false) : GcInv (s.cleanStep i c answer) := by
  obtain ⟨hnone, hclean⟩ := (h.session i).clean c hpc
  have hepoch := (h.session i).epoch_le
  have hactive : s.activeEpoch ≤ s.counter ∧ s.Safe s.activeEpoch := ⟨h.active_le, h.active_safe⟩
  have hperform := And.intro hclean.perform_le hclean.perform_safe
  have hphase := hclean.phase
  have hslip : s.cleanSlips c = false := by
    unfold Gc.slips at hslip
    simp only [hpc] at hslip
    exact hslip
  unfold Gc.cleanSlips at hslip
  unfold Gc.cleanStep
  generalize hp : c.phase = phase at hphase hslip ⊢
  cases phase with
  | readEpoch again =>
    exact h.goto hi hnone hperform ⟨h.counter_pos, le_rfl⟩ hactive
  | writeEpoch again epoch =>
    refine h.ofKept hi (.inr rfl) hactive fun s' _ hx hcounter hkept => ?_
    refine sessionInv_clean hx rfl hnone (hcounter ▸ hphase.2)
      ⟨hcounter ▸ hperform.1, safe_of_kept hkept hperform.2, ?_⟩
    have hpos : 0 < (s'.session i).gcEpoch := by
      rw [hx]
      exact hphase.1
    cases again with
    | true => exact hpos
    | false => exact fun _ => hpos
  | test =>
    dsimp only
    split
    · split
      · exact h.nextQueue hi hnone hepoch hperform
      · exact h.goto hi hnone hperform trivial hactive
    next hclose =>
      have hpos : 0 < (s.session i).gcEpoch := hphase (Bool.eq_false_iff.mpr hclose)
      split
      · exact h.nextQueue hi hnone hepoch hperform
      split
      · exact h.goto hi hnone hperform ⟨hperform.2, .inl hperform.1⟩ hactive
      split
      · exact h.goto hi hnone hperform hpos hactive
      · exact h.goto hi hnone hperform ⟨hactive.2, .inl hactive.1⟩ hactive
  | lock =>
    dsimp only
    split
    · have hout : ∀ t x, (s.session t).snapshot = some x → t ∈ s.managers := by
        intro t x hx
        by_contra hout
        rw [(h.outside t hout).1] at hx
        cases hx
      exact h.goto hi hnone hperform ⟨hphase, .inl hi, fun t x hx ht => absurd (hout t x hx) ht,
        fun _ _ t x hx ht => absurd (hout t x hx) ht⟩ hactive
    · exact h.goto hi hnone hperform nofun hactive
  | scan rest min active tid =>
    cases rest with
    | nil => exact h.goto hi hnone hperform (PhaseSafe.scan_end hphase) hactive
    | cons t rest =>
      dsimp only at hslip ⊢
      split
      · refine h.goto hi hnone hperform
          (PhaseSafe.scan_next h (active + 1) (some t) hphase hslip ?_ (fun ha => ?_) fun _ => ?_)
          hactive
        · rintro m rfl
          exact ⟨_, rfl, Nat.min_le_right _ _⟩
        · -- alone after one was counted: it is the session itself
          obtain ⟨hle, hzero | hself⟩ := of_decide_eq_true ha
          · cases hzero
          · obtain rfl := Option.some.inj hself
            exact ⟨decide_eq_true ⟨by omega, .inl (by omega)⟩, hnone⟩
        · cases min with
          | none => exact ⟨_, rfl, le_rfl⟩
          | some m => exact ⟨_, rfl, Nat.min_le_left _ _⟩
      next hzero =>
        refine h.goto hi hnone hperform (PhaseSafe.scan_next h active tid hphase hslip
          (fun m hm => ⟨m, hm, le_rfl⟩) (fun ha => ⟨ha, ?_⟩) fun hpos => absurd hpos hzero) hactive
        -- a session with a snapshot has published it
        by_contra hsome
        obtain ⟨x, hx⟩ := Option.ne_none_iff_exists'.mp hsome
        obtain ⟨hxpos, -, hpub | ⟨-, hepoch⟩⟩ := (h.session t).snapshot x hx
        · rw [hpub] at hslip
          cases hslip
        · exact hzero (hepoch ▸ hxpos)
  | writeActive min barrier =>
    exact h.goto hi hnone hperform hphase.2.2.2 ⟨Nat.le_trans hphase.2.1 hepoch, hphase.2.2.1⟩
  | readActive barrier =>
    have hsafe := performEpoch_safe h hb hpc hp
    refine h.goto hi hnone ?_ hsafe hactive
    show (if c.close then c.performGCEpoch else _) ≤ s.counter ∧
      s.Safe (if c.close then c.performGCEpoch else _)
    split
    · exact hperform
    next hclose =>
      refine ⟨hsafe.2.resolve_right fun hbeyond => hclose ?_, hsafe.1⟩
      exact (Bool.and_eq_true_iff.mp hbeyond.1).1
  | quiesce barrier =>
    dsimp only
    split
    next hclose =>
      refine h.ofKept hi (.inl hnone) hactive fun s' _ hx hcounter hkept => ?_
      refine sessionInv_clean hx rfl hnone (Nat.zero_le _)
        ⟨hcounter ▸ hperform.1, safe_of_kept hkept hperform.2, ?_⟩
      exact fun hfalse => absurd (hclose.symm.trans hfalse) Bool.noConfusion
    · exact h.nextQueue hi hnone hepoch hperform

end Cleaning

/-! ## Every step -/

theorem whenOut_cases {t : Gc} (h : s.whenOut i t = some s') :
    (s.session i).pc = .out ∧ s' = t := by
  unfold Gc.whenOut at h
  split at h
  next hpc => exact ⟨hpc, (Option.some.inj h).symm⟩
  next => cases h

theorem closesAt_eq_false (h : GcInv s) {t : Nat}
    (hslip : (s.managers.any fun b => s.closesAt b t) = false) (b : Nat) :
    s.closesAt b t = false := by
  by_cases hb : b ∈ s.managers
  · exact Bool.eq_false_iff.mpr (List.any_eq_false.mp hslip b hb)
  · unfold Gc.closesAt
    rw [(h.outside b hb).2]

theorem GcInv.startTxn (h : GcInv s) (hi : i ∈ s.managers)
    (hslip : (s.managers.any fun b => s.closesAt b i) = false) (hsnap : x.snapshot = some s.counter)
    (hpc : x.pc = .publish s.counter) (hle : x.gcEpoch ≤ s.counter) : GcInv (s.set i x) := by
  have hf : Frame s (s.set i x) := by
    refine ⟨le_rfl, rfl, fun t y hy => ?_⟩
    by_cases ht : t = i
    · rw [ht, set_session_self, hsnap] at hy
      rw [ht]
      exact .inr ⟨(Option.some.inj hy).symm, closesAt_eq_false h hslip⟩
    · rw [set_session_of_ne s _ ht] at hy
      exact .inl hy
  refine h.ofSession hi hf rfl rfl (fun j hj => set_session_of_ne s _ hj)
    ⟨h.active_le, h.active_safe⟩ ?_
  refine ⟨fun y hy => ?_, ?_, fun y hy => ?_, fun c hc => ?_⟩ <;> rw [set_session_self] at *
  · cases hsnap.symm.trans hy
    exact ⟨h.counter_pos, le_rfl, .inl hpc⟩
  · exact hle
  · cases hpc.symm.trans hy
    exact hsnap
  · cases hpc.symm.trans hc

theorem GcInv.setOut (h : GcInv s) (hi : i ∈ s.managers) (hpc : x.pc = .out)
    (hnone : x.snapshot = none) (hle : x.gcEpoch ≤ s.counter) : GcInv (s.set i x) :=
  h.ofKept hi (.inl hnone) ⟨h.active_le, h.active_safe⟩ fun _ _ hx hcounter _ =>
    sessionInv_out hx hpc hnone (hcounter ▸ hle)

theorem GcInv.startClean (h : GcInv s) (hi : i ∈ s.managers) (close : Bool) :
    GcInv (s.set i { s.session i with pc := .clean (.start close), snapshot := none }) :=
  h.ofKept hi (.inl rfl) ⟨h.active_le, h.active_safe⟩ fun _ _ hx hcounter _ =>
    sessionInv_clean hx rfl rfl (hcounter ▸ (h.session i).epoch_le)
      ⟨Nat.zero_le _, fun _ _ _ => Nat.zero_le _, trivial⟩

theorem GcInv.setQueue (h : GcInv s) (hi : i ∈ s.managers) (queue : GcQueueType → GcQueue) :
    GcInv (s.set i { s.session i with queue := queue }) := by
  refine h.ofKept hi (.inr rfl) ⟨h.active_le, h.active_safe⟩ fun s' hs' hx hcounter hkept => ?_
  exact (h.session i).frame ⟨Nat.le_of_eq hcounter.symm, by rw [hs']; rfl,
    fun t c hc => .inl (hkept t c hc)⟩ (by rw [hx]) (by rw [hx]) (by rw [hx])

theorem GcInv.publish (h : GcInv s) (hi : i ∈ s.managers) {csn : Nat}
    (hpc : (s.session i).pc = .publish csn) :
    GcInv (s.set i { s.session i with gcEpoch := csn, pc := .out }) := by
  have hsnap := (h.session i).publish csn hpc
  obtain ⟨hpos, hle, -⟩ := (h.session i).snapshot csn hsnap
  refine h.ofKept hi (.inr rfl) ⟨h.active_le, h.active_safe⟩ fun s' _ hx hcounter _ => ?_
  refine ⟨fun x hc => ?_, ?_, fun x hc => ?_, fun c hc => ?_⟩
  · rw [hx] at hc ⊢
    have heq : csn = x := Option.some.inj (hsnap.symm.trans hc)
    rw [hcounter, ← heq]
    exact ⟨hpos, hle, .inr ⟨rfl, rfl⟩⟩
  · rw [hx, hcounter]
    exact hle
  · rw [hx] at hc
    cases hc
  · rw [hx] at hc
    cases hc

theorem GcInv.commit (h : GcInv s) : GcInv { s with counter := s.counter + 1 } := by
  have hf : Frame s { s with counter := s.counter + 1 } :=
    ⟨Nat.le_succ _, rfl, fun _ _ hx => .inl hx⟩
  exact ⟨Nat.succ_pos _, Nat.le_succ_of_le h.active_le, h.active_safe, h.outside,
    fun i => (h.session i).frame hf rfl rfl rfl⟩

theorem step_cases (h : s.step event = some s') :
    (∀ i ∈ event.session, i ∈ s.managers) ∧ s.apply event = some s' := by
  unfold Gc.step at h
  split at h
  next hin => exact ⟨hin, h⟩
  next => cases h

theorem GcInv.step (h : GcInv s) (hb : BarrierInv s) (hstep : s.step event = some s')
    (hslip : s.slips event = false) : GcInv s' := by
  obtain ⟨hin, happly⟩ := step_cases hstep
  cases event with
  | commit =>
    cases happly
    exact h.commit
  | startTxn i =>
    obtain ⟨-, rfl⟩ := whenOut_cases happly
    split
    · exact h
    · exact h.startTxn (hin i rfl) hslip rfl rfl (h.session i).epoch_le
  | publish i =>
    rw [Gc.apply] at happly
    split at happly
    next csn hpc =>
      cases happly
      exact h.publish (hin i rfl) hpc
    next => cases happly
  | recordObject i queue object csn =>
    cases happly
    exact h.setQueue (hin i rfl) _
  | endStatement i =>
    obtain ⟨hpc, rfl⟩ := whenOut_cases happly
    exact h.setOut (hin i rfl) hpc rfl (Nat.zero_le _)
  | endTxn i locked =>
    obtain ⟨hpc, rfl⟩ := whenOut_cases happly
    split
    · exact h
    split
    · exact h.startClean (hin i rfl) false
    · exact h.setOut (hin i rfl) hpc rfl (Nat.zero_le _)
  | cleanAll i =>
    obtain ⟨-, rfl⟩ := whenOut_cases happly
    exact h.startClean (hin i rfl) true
  | clean i answer =>
    rw [Gc.apply] at happly
    split at happly
    next c hpc =>
      cases happly
      exact h.cleanStep hb (hin i rfl) hpc answer hslip
    next => cases happly

theorem BarrierInv.quietGoto (h : BarrierInv s) {phase : Phase} (hl : Phase.locked phase = false)
    (hr : phase ≠ .readActive true) : BarrierInv (s.goto i c phase) := by
  refine h.quiet fun c' hc => ?_
  cases hc
  exact ⟨hl, hr⟩

theorem BarrierInv.nextQueue (h : BarrierInv s) : BarrierInv (s.set i (Gc.nextQueue x c)) := by
  refine h.quiet fun c' hc => ?_
  unfold Gc.nextQueue at hc
  split at hc
  · cases hc
    dsimp only
    split <;> exact ⟨rfl, nofun⟩
  · split at hc <;> cases hc

theorem BarrierInv.cleanStep (h : BarrierInv s) (hinv : GcInv s)
    (hpc : (s.session i).pc = .clean c) (answer : Bool) : BarrierInv (s.cleanStep i c answer) := by
  have hmine : Phase.locked c.phase = true → s.globalEpochLock = some i := h.lock i c hpc
  have hbelow : ∀ b c', (s.session b).pc = .clean c' → c'.phase = .readActive true →
      Phase.Below b (s.session b).gcEpoch c.phase := fun b c' hc hr => (h.bound b c' hc hr).2.2 i c hpc
  unfold Gc.cleanStep
  generalize hp : c.phase = phase at hmine hbelow ⊢
  have hfree : Phase.locked phase = true → ∀ j, j ≠ i → s.globalEpochLock ≠ some j := by
    intro hl j hj hlock
    exact hj (Option.some.inj (hlock.symm.trans (hmine hl)))
  cases phase with
  | readEpoch again => exact h.quietGoto rfl nofun
  | writeEpoch again epoch =>
    refine h.quiet fun c' hc => ?_
    cases hc
    cases again <;> exact ⟨rfl, nofun⟩
  | test =>
    dsimp only
    split
    · split
      · exact h.nextQueue
      · exact h.quietGoto rfl nofun
    split
    · exact h.nextQueue
    split
    · exact h.quietGoto rfl nofun
    · split <;> exact h.quietGoto rfl nofun
  | lock =>
    dsimp only
    split
    next hnone =>
      -- every session is still to be looked at
      refine h.gotoLocked rfl (fun j _ => by rw [hnone]; nofun) nofun fun b c' hc _ _ => .inl ?_
      by_contra hout
      cases hc.symm.trans (hinv.outside b hout).2
    next => exact h.quietGoto rfl nofun
  | scan rest min active tid =>
    cases rest with
    | nil =>
      refine h.gotoLocked (hmine rfl) (hfree rfl) nofun fun b c' hc hr _ => ?_
      obtain ⟨m, rfl, hle⟩ := (hbelow b c' hc hr).resolve_left List.not_mem_nil
      exact hle
    | cons t rest =>
      dsimp only
      split
      · refine h.gotoLocked (hmine rfl) (hfree rfl) nofun fun b c' hc hr _ => ?_
        rcases hbelow b c' hc hr with hmem | ⟨m, rfl, hle⟩
        · rcases List.mem_cons.mp hmem with rfl | hmem
          · -- the session itself is looked at, and the minimum takes in its number
            refine .inr ⟨_, rfl, ?_⟩
            cases min with
            | none => exact le_rfl
            | some m => exact Nat.min_le_left _ _
          · exact .inl hmem
        · exact .inr ⟨_, rfl, Nat.le_trans (Nat.min_le_right _ _) hle⟩
      next hzero =>
        refine h.gotoLocked (hmine rfl) (hfree rfl) nofun fun b c' hc hr _ => ?_
        refine (hbelow b c' hc hr).imp_left fun hmem => ?_
        rcases List.mem_cons.mp hmem with rfl | hmem
        · exact absurd (h.bound b c' hc hr).1 hzero
        · exact hmem
  | writeActive min barrier => exact h.writeActive hinv hpc hp
  | readActive barrier => exact h.quietGoto rfl nofun
  | quiesce barrier =>
    dsimp only
    split
    · refine h.quiet fun c' hc => ?_
      cases hc
      exact ⟨rfl, nofun⟩
    · exact h.nextQueue

theorem BarrierInv.step (h : BarrierInv s) (hinv : GcInv s) (hstep : s.step event = some s') :
    BarrierInv s' := by
  obtain ⟨-, happly⟩ := step_cases hstep
  cases event with
  | commit =>
    cases happly
    exact h.same rfl rfl (fun _ => rfl) fun _ => rfl
  | startTxn i =>
    obtain ⟨-, rfl⟩ := whenOut_cases happly
    split
    · exact h
    · exact h.quiet nofun
  | publish i =>
    rw [Gc.apply] at happly
    split at happly
    next csn hpc =>
      cases happly
      exact h.quiet nofun
    next => cases happly
  | recordObject i queue object csn =>
    cases happly
    refine h.same rfl rfl (fun j => ?_) fun j => ?_ <;> by_cases hj : j = i
    · rw [hj, set_session_self]
    · rw [set_session_of_ne s _ hj]
    · rw [hj, set_session_self]
    · rw [set_session_of_ne s _ hj]
  | endStatement i =>
    obtain ⟨hpc, rfl⟩ := whenOut_cases happly
    exact h.quiet fun c hc => by cases hpc.symm.trans hc
  | endTxn i locked =>
    obtain ⟨hpc, rfl⟩ := whenOut_cases happly
    split
    · exact h
    split
    · refine h.quiet fun c hc => ?_
      cases hc
      exact ⟨rfl, nofun⟩
    · exact h.quiet fun c hc => by cases hpc.symm.trans hc
  | cleanAll i =>
    obtain ⟨-, rfl⟩ := whenOut_cases happly
    refine h.quiet fun c hc => ?_
    cases hc
    exact ⟨rfl, nofun⟩
  | clean i answer =>
    rw [Gc.apply] at happly
    split at happly
    next c hpc =>
      cases happly
      exact h.cleanStep hinv hpc answer
    next => cases happly

theorem gcInv_startGc (managers : List Nat) (isRecovering : Bool) :
    GcInv (startGc managers isRecovering) where
  counter_pos := of_decide_eq_true rfl
  active_le := Nat.zero_le _
  active_safe := nofun
  outside := fun _ _ => ⟨rfl, rfl⟩
  session := fun _ => sessionInv_out rfl rfl rfl (Nat.zero_le _)

theorem barrierInv_startGc (managers : List Nat) (isRecovering : Bool) :
    BarrierInv (startGc managers isRecovering) := ⟨nofun, nofun⟩

theorem GcInv.run (h : GcInv s) (hb : BarrierInv s) {events : List GcEvent}
    (hslip : s.neverSlips events = true) (hrun : s.run events = some s') : GcInv s' := by
  induction events generalizing s with
  | nil =>
    cases hrun
    exact h
  | cons event events ih =>
    obtain ⟨t, hstep, hrest⟩ := Option.bind_eq_some_iff.mp hrun
    obtain ⟨hnow, hlater⟩ := Bool.and_eq_true_iff.mp hslip
    rw [hstep] at hlater
    exact ih (h.step hb hstep (Bool.not_eq_true' _ ▸ hnow)) (hb.step h hstep) hlater hrest

/-! ## Queues -/

/-- What a step does to a queue that is right: it stays so, and what is reclaimed is below the
bound of a session about to do so. -/
def Reclaims (s s' : Gc) : Prop :=
  ∀ i k, ((s.session i).queue k).Ok → ((s'.session i).queue k).Ok ∧
    ∃ new, ((s'.session i).queue k).reclaimed = ((s.session i).queue k).reclaimed ++ new ∧
      (new = [] ∨ ∃ c barrier, (s.session i).pc = .clean c ∧ c.phase = .quiesce barrier ∧
        ∀ o ∈ new, o.2 < c.perform)

section Reclaims

variable {s s' : Gc} {i : Nat}

theorem reclaims_same (h : ∀ j, (s'.session j).queue = (s.session j).queue) : Reclaims s s' := by
  intro j k hok
  rw [h j]
  exact ⟨hok, [], (List.append_nil _).symm, .inl rfl⟩

theorem reclaims_set (h : x.queue = (s.session i).queue) :
    Reclaims s { s.set i x with activeEpoch := active, globalEpochLock := lock } := by
  refine reclaims_same fun j => ?_
  by_cases hj : j = i
  · rw [hj]
    show ((s.set i x).session i).queue = _
    rw [set_session_self, h]
  · show ((s.set i x).session j).queue = _
    rw [set_session_of_ne s x hj]

theorem reclaims_goto {phase : Phase} :
    Reclaims s { s.goto i c phase with activeEpoch := active, globalEpochLock := lock } :=
  reclaims_set rfl

theorem reclaims_setQueue {k : GcQueueType} {q : GcQueue}
    (hx : x.queue = Function.update (s.session i).queue k q)
    (hq : ((s.session i).queue k).Ok → q.Ok ∧ ∃ new,
      q.reclaimed = ((s.session i).queue k).reclaimed ++ new ∧
        (new = [] ∨ ∃ c barrier, (s.session i).pc = .clean c ∧ c.phase = .quiesce barrier ∧
          ∀ o ∈ new, o.2 < c.perform)) : Reclaims s (s.set i x) := by
  intro j l hok
  by_cases hj : j = i
  · subst hj
    rw [set_session_self, hx]
    by_cases hl : l = k
    · subst hl
      rw [Function.update_self]
      exact hq hok
    · rw [Function.update_of_ne hl]
      exact ⟨hok, [], (List.append_nil _).symm, .inl rfl⟩
  · rw [set_session_of_ne s x hj]
    exact ⟨hok, [], (List.append_nil _).symm, .inl rfl⟩

theorem nextQueue_queue (x : Session) (c : Clean) : (Gc.nextQueue x c).queue = x.queue := by
  unfold Gc.nextQueue
  split
  · rfl
  · split <;> rfl

/-- The passes over one queue. -/
theorem Clean.quiesce_ok (c : Clean) {q : GcQueue} (h : q.Ok) (answer : Bool) :
    (c.quiesce q answer).Ok ∧ ∃ new, (c.quiesce q answer).reclaimed = q.reclaimed ++ new ∧
      ∀ o ∈ new, o.2 < c.perform := by
  unfold Clean.quiesce
  split
  · exact h.hardQuiesce c.perform _
  obtain ⟨hok, new, hnew, hbelow⟩ := h.hardQuiesce c.perform c.queue.rcuFreeCount
  dsimp only
  split
  · obtain ⟨hok', new', hnew', hbelow'⟩ := hok.hardQuiesce c.perform
      (q.hardQuiesce c.perform c.queue.rcuFreeCount).totalLimboInuseElements
    refine ⟨hok', new ++ new', ?_, List.forall_mem_append.mpr ⟨hbelow, hbelow'⟩⟩
    rw [hnew', hnew, List.append_assoc]
  · exact ⟨hok, new, hnew, hbelow⟩

theorem reclaims_cleanStep (hpc : (s.session i).pc = .clean c) (answer : Bool) :
    Reclaims s (s.cleanStep i c answer) := by
  unfold Gc.cleanStep
  cases hp : c.phase with
  | readEpoch again => exact reclaims_goto
  | writeEpoch again epoch => exact reclaims_set rfl
  | test =>
    dsimp only
    split
    · split
      · exact reclaims_set (nextQueue_queue _ c)
      · exact reclaims_goto
    split
    · exact reclaims_set (nextQueue_queue _ c)
    split
    · exact reclaims_goto
    · split <;> exact reclaims_goto
  | lock =>
    dsimp only
    split <;> exact reclaims_goto
  | scan rest min active tid =>
    cases rest with
    | nil => exact reclaims_goto
    | cons t rest =>
      dsimp only
      split <;> exact reclaims_goto
  | writeActive | readActive => exact reclaims_goto
  | quiesce barrier =>
    dsimp only
    refine reclaims_setQueue (k := c.queue)
      (q := c.quiesce ((s.session i).queue c.queue) answer) ?_ fun hok => ?_
    · split
      · rfl
      · rw [nextQueue_queue]
    · obtain ⟨hq, new, hnew, hbelow⟩ := c.quiesce_ok hok answer
      exact ⟨hq, new, hnew, .inr ⟨c, barrier, hpc, hp, hbelow⟩⟩

theorem reclaims_step (hstep : s.step event = some s') : Reclaims s s' := by
  obtain ⟨-, happly⟩ := step_cases hstep
  cases event with
  | commit =>
    cases happly
    exact reclaims_same fun _ => rfl
  | startTxn i =>
    obtain ⟨-, rfl⟩ := whenOut_cases happly
    split
    · exact reclaims_same fun _ => rfl
    · exact reclaims_set rfl
  | publish i =>
    rw [Gc.apply] at happly
    split at happly
    next csn hpc =>
      cases happly
      exact reclaims_set rfl
    next => cases happly
  | recordObject i queue object csn =>
    cases happly
    refine reclaims_setQueue rfl fun hok => ?_
    obtain ⟨hq, hsame⟩ := hok.pushBack object (if csn = 0 then s.counter else csn)
    exact ⟨hq, [], by rw [hsame, List.append_nil], .inl rfl⟩
  | endStatement i =>
    obtain ⟨-, rfl⟩ := whenOut_cases happly
    exact reclaims_set rfl
  | endTxn i locked =>
    obtain ⟨-, rfl⟩ := whenOut_cases happly
    split
    · exact reclaims_same fun _ => rfl
    · split <;> exact reclaims_set rfl
  | cleanAll i =>
    obtain ⟨-, rfl⟩ := whenOut_cases happly
    exact reclaims_set rfl
  | clean i answer =>
    rw [Gc.apply] at happly
    split at happly
    next c hpc =>
      cases happly
      exact reclaims_cleanStep hpc answer
    next => cases happly

theorem queues_ok_run {events : List GcEvent} (hok : ∀ i k, ((s.session i).queue k).Ok)
    (hrun : s.run events = some s') : ∀ i k, ((s'.session i).queue k).Ok := by
  induction events generalizing s with
  | nil =>
    cases hrun
    exact hok
  | cons event events ih =>
    obtain ⟨t, hstep, hrest⟩ := Option.bind_eq_some_iff.mp hrun
    exact ih (fun i k => (reclaims_step hstep i k (hok i k)).1) hrest

end Reclaims

/-- On every run each queue counts the objects retired and not reclaimed, and has reclaimed
each of the others once. As long as the bound does not slip, an object is reclaimed only when
every transaction that is going on took its snapshot above the number of the object. -/
theorem gcRun_sound {managers : List Nat} {isRecovering : Bool} {events : List GcEvent} {s : Gc}
    (hrun : (startGc managers isRecovering).run events = some s) :
    (∀ i k, ((s.session i).queue k).retired.Perm
        (((s.session i).queue k).waiting ++ ((s.session i).queue k).reclaimed) ∧
      ((s.session i).queue k).totalLimboInuseElements = ((s.session i).queue k).waiting.length) ∧
    ((startGc managers isRecovering).neverSlips events = true →
      ∀ event s', s.step event = some s' → ∀ i k, ∃ new,
        ((s'.session i).queue k).reclaimed = ((s.session i).queue k).reclaimed ++ new ∧
          ∀ o ∈ new, ∀ t csn, (s.session t).snapshot = some csn → o.2 < csn) := by
  have hok := queues_ok_run (fun _ _ => GcQueue.ok_new) hrun
  refine ⟨fun i k => ⟨(hok i k).once, (hok i k).inuse⟩, fun hslip event s' hstep i k => ?_⟩
  have hinv := (gcInv_startGc managers isRecovering).run (barrierInv_startGc ..) hslip hrun
  obtain ⟨-, new, hnew, hbelow⟩ := reclaims_step hstep i k (hok i k)
  refine ⟨new, hnew, fun o ho t csn hcsn => ?_⟩
  rcases hbelow with rfl | ⟨c, barrier, hpc, hphase, hlt⟩
  · exact absurd ho List.not_mem_nil
  have hsafe := ((hinv.session i).clean c hpc).2.phase
  rw [hphase] at hsafe
  exact Nat.lt_of_lt_of_le (hlt o ho) (hsafe.1 t csn hcsn)

/-! ## Two runs -/

/-- A transaction of session 0 retires an object and cleans up to the pass over the first
queue; then a transaction of session 1 starts. -/
def retireThenStart : List GcEvent :=
  [.startTxn 0, .publish 0, .recordObject 0 .deleteQueue 7 3, .commit, .endTxn 0 true] ++
    List.replicate 9 (.clean 0 true) ++ [.startTxn 1, .publish 1]

theorem gcRun_sound_retireThenStart :
    ∃ s s' new, (startGc [0, 1] false).run retireThenStart = some s ∧
      (s.session 1).snapshot = some 4 ∧ s.step (.clean 0 true) = some s' ∧
      ((s'.session 0).queue .deleteQueue).reclaimed =
        ((s.session 0).queue .deleteQueue).reclaimed ++ new ∧
      ((s'.session 0).queue .deleteQueue).reclaimed = [(7, 3)] ∧
      ∀ o ∈ new, ∀ t csn, (s.session t).snapshot = some csn → o.2 < csn := by
  have hbefore : (((startGc [0, 1] false).run retireThenStart).map fun s =>
      (s.session 1).snapshot) = some (some 4) := by decide +kernel
  have hafter : ((((startGc [0, 1] false).run retireThenStart).bind fun s =>
      s.step (.clean 0 true)).map fun s' => ((s'.session 0).queue .deleteQueue).reclaimed) =
        some [(7, 3)] := by decide +kernel
  obtain ⟨s, hs, hsnap⟩ := Option.map_eq_some_iff.mp hbefore
  rw [hs, Option.bind_some] at hafter
  obtain ⟨s', hstep, hreclaimed⟩ := Option.map_eq_some_iff.mp hafter
  obtain ⟨new, hnew, hbelow⟩ := (gcRun_sound hs).2 (by decide +kernel) _ s' hstep 0 .deleteQueue
  exact ⟨s, s', new, hs, hsnap, hstep, hnew, hreclaimed, hbelow⟩

/-- Session 1 has read the counter when session 0 retires an object, commits and reads all
published numbers. -/
def startWhileScanned : List GcEvent :=
  [.startTxn 1, .startTxn 0, .publish 0, .recordObject 0 .deleteQueue 7 3, .commit,
    .endTxn 0 true] ++ List.replicate 9 (.clean 0 true) ++ [.publish 1]

/-- The transaction of session 1 goes on with snapshot 3 when an object with number 3 is
reclaimed. -/
theorem reclaims_below_snapshot : ∃ s s', (startGc [0, 1] false).run startWhileScanned = some s ∧
      (s.session 1).pc = .out ∧ (s.session 1).snapshot = some 3 ∧
      (s.session 1).gcEpoch = 3 ∧ ((s.session 0).queue .deleteQueue).reclaimed = [] ∧
      s.step (.clean 0 true) = some s' ∧
      ((s'.session 0).queue .deleteQueue).reclaimed = [(7, 3)] := by
  have hbefore : (((startGc [0, 1] false).run startWhileScanned).map fun s =>
      ((s.session 1).pc, (s.session 1).snapshot, (s.session 1).gcEpoch,
        ((s.session 0).queue .deleteQueue).reclaimed)) = some (.out, some 3, 3, []) := by
    decide +kernel
  have hafter : ((((startGc [0, 1] false).run startWhileScanned).bind fun s =>
      s.step (.clean 0 true)).map fun s' => ((s'.session 0).queue .deleteQueue).reclaimed) =
        some [(7, 3)] := by decide +kernel
  obtain ⟨s, hs, heq⟩ := Option.map_eq_some_iff.mp hbefore
  rw [hs, Option.bind_some] at hafter
  obtain ⟨s', hstep, hreclaimed⟩ := Option.map_eq_some_iff.mp hafter
  simp only [Prod.mk.injEq] at heq
  exact ⟨s, s', hs, heq.1, heq.2.1, heq.2.2.1, heq.2.2.2, hstep, hreclaimed⟩

end OpenGauss.MotGc
