import OpenGauss.CStore.FreeSpace

/-!
# Space given out twice

The runs `ComputeFreeSpace` merges cover exactly the live units, so the holes between
them are free. A request takes the front of the largest hole. Moving the front to the
next multiple of the alignment takes `alignSize - remainder` bytes from the hole, but
`remainder` is what its size is reduced by: each descriptor is therefore followed
together with the offset its hole really ends at.
-/

namespace OpenGauss.CStore

open Lib CStoreFreeSpaceDesc
open List (mem_singleton mem_cons forall_mem_singleton pairwise_cons forall_mem_cons)
open CUDesc (spaceDesc)

variable {d : CStoreFreeSpaceDesc} {s : ColumnSpace} {runs : List CStoreFreeSpaceDesc} {r : Request}

namespace CStoreFreeSpaceDesc

variable {d e : CStoreFreeSpaceDesc}

theorem Apart.symm (h : d.Apart e) : e.Apart d := fun p he hd => h p hd he

theorem apart_of_le (h : d.endOffset ≤ e.beginOffset) : d.Apart e := by
  intro p hd he
  have := hd.2
  have := he.1
  omega

/-- Of two ranges with bytes in them one ends before the other begins. -/
theorem Apart.le (h : d.Apart e) (hd : 0 < d.size) (hle : e.beginOffset ≤ d.beginOffset) :
    e.endOffset ≤ d.beginOffset := by
  by_contra hlt
  exact h d.beginOffset ⟨le_rfl, by unfold endOffset; omega⟩ ⟨hle, by omega⟩

theorem Apart.mono {d' : CStoreFreeSpaceDesc} (h : d.Apart e) (hsub : ∀ p, d'.Holds p → d.Holds p) :
    d'.Apart e := fun p hp => h p (hsub p hp)

end CStoreFreeSpaceDesc

/-! ## The runs -/

/-- Runs in order, with at least a byte between them. -/
abbrev Runs (runs : List CStoreFreeSpaceDesc) : Prop :=
  runs.Pairwise fun d e => d.endOffset < e.beginOffset

theorem Runs.first_le (h : Runs (d :: runs)) : ∀ e ∈ d :: runs, d.beginOffset ≤ e.beginOffset := by
  intro e he
  rcases mem_cons.mp he with rfl | he
  · exact le_rfl
  · exact (Nat.le_add_right _ _).trans ((pairwise_cons.mp h).1 e he).le

/-- Runs none of which is empty. -/
structure Merged (runs : List CStoreFreeSpaceDesc) : Prop where
  order : Runs runs
  pos : ∀ e ∈ runs, 0 < e.size

theorem Merged.nil : Merged [] := ⟨.nil, nofun⟩

theorem Merged.cons (h : Merged runs) (hpos : 0 < d.size)
    (hlt : ∀ e ∈ runs, d.endOffset < e.beginOffset) : Merged (d :: runs) :=
  ⟨pairwise_cons.mpr ⟨hlt, h.order⟩, forall_mem_cons.mpr ⟨hpos, h.pos⟩⟩

theorem Merged.tail (h : Merged (d :: runs)) : Merged runs :=
  ⟨(pairwise_cons.mp h.order).2, (forall_mem_cons.mp h.pos).2⟩

theorem mergeDesc_begin (d : CStoreFreeSpaceDesc) : ∀ runs : List CStoreFreeSpaceDesc,
    ∀ e ∈ mergeDesc d runs, e.beginOffset = d.beginOffset ∨
      ∃ c ∈ runs, e.beginOffset = c.beginOffset := by
  intro runs
  induction runs with
  | nil =>
    intro e he
    exact .inl (by rw [mem_singleton.mp he])
  | cons cur rest ih =>
    intro e he
    unfold mergeDesc at he
    split at he
    · split at he
      · exact .inr ⟨cur, by simp, by rw [mem_singleton.mp he]⟩
      rename_i next rest'
      split at he
      · rcases mem_cons.mp he with rfl | he
        · exact .inr ⟨cur, by simp, rfl⟩
        · exact .inr ⟨e, by simp [he], rfl⟩
      · rcases mem_cons.mp he with rfl | he
        · exact .inr ⟨cur, by simp, rfl⟩
        · exact .inr ⟨e, .tail _ he, rfl⟩
    · split at he
      · split at he
        · rcases mem_cons.mp he with rfl | he
          · exact .inl rfl
          · exact .inr ⟨e, .tail _ he, rfl⟩
        · rcases mem_cons.mp he with rfl | he
          · exact .inl rfl
          · exact .inr ⟨e, he, rfl⟩
      · rcases mem_cons.mp he with rfl | he
        · exact .inr ⟨e, by simp, rfl⟩
        rcases ih e he with h | ⟨c, hc, h⟩
        · exact .inl h
        · exact .inr ⟨c, .tail _ hc, h⟩

theorem holds_join {b m n p : Nat} : (⟨b, m + n⟩ : CStoreFreeSpaceDesc).Holds p ↔
    (⟨b, m⟩ : CStoreFreeSpaceDesc).Holds p ∨ (⟨b + m, n⟩ : CStoreFreeSpaceDesc).Holds p := by
  simp only [Holds, endOffset]
  omega

theorem mergeDesc_holds (d : CStoreFreeSpaceDesc) (p : Nat) : ∀ runs : List CStoreFreeSpaceDesc,
    (∃ e ∈ mergeDesc d runs, e.Holds p) ↔ d.Holds p ∨ ∃ e ∈ runs, e.Holds p := by
  intro runs
  induction runs with
  | nil => simp [mergeDesc]
  | cons cur rest ih =>
    obtain ⟨cb, cs⟩ := cur
    obtain ⟨db, ds⟩ := d
    unfold mergeDesc
    split
    · rename_i hadj
      dsimp only at hadj
      subst hadj
      split
      · simp only [mem_singleton, exists_eq_left, holds_join]
        tauto
      rename_i next rest'
      obtain ⟨nb, ns⟩ := next
      split
      · rename_i hnext
        dsimp only at hnext
        subst hnext
        simp only [List.exists_mem_cons_iff, holds_join]
        tauto
      · simp only [List.exists_mem_cons_iff, holds_join]
        tauto
    · split
      · split
        · rename_i hadj
          dsimp only at hadj
          subst hadj
          simp only [List.exists_mem_cons_iff, Nat.add_comm cs ds, holds_join]
          tauto
        · simp only [List.exists_mem_cons_iff]
      · simp only [List.exists_mem_cons_iff] at ih ⊢
        rw [ih]
        tauto

theorem mergeDesc_runs (d : CStoreFreeSpaceDesc) (hd : 0 < d.size) :
    ∀ runs : List CStoreFreeSpaceDesc, Merged runs → (∀ e ∈ runs, d.Apart e) →
      Merged (mergeDesc d runs) := by
  intro runs
  induction runs with
  | nil => exact fun _ _ => Merged.nil.cons hd nofun
  | cons cur rest ih =>
    intro hruns hapart
    have hrest := hruns.tail
    have hcur := (pairwise_cons.mp hruns.order).1
    have hposcur := hruns.pos cur (.head _)
    -- a unit before a run ends before it
    have hbefore : ∀ e ∈ cur :: rest, d.beginOffset < e.beginOffset →
        d.endOffset ≤ e.beginOffset := fun e he hlt =>
      (hapart e he).symm.le (hruns.pos e he) (hlt.le)
    unfold mergeDesc
    split
    · rename_i hadj
      have hafter : ∀ e ∈ rest, d.endOffset ≤ e.beginOffset := by
        intro e he
        have := hcur e he
        exact hbefore e (.tail _ he) (by unfold endOffset at this; omega)
      split
      · exact Merged.nil.cons (Nat.add_pos_left hposcur _) nofun
      rename_i next rest'
      have hle := hafter next (.head _)
      split
      · rename_i hjoin
        refine hrest.tail.cons (Nat.add_pos_left (Nat.add_pos_left hposcur _) _) fun e he => ?_
        have := (pairwise_cons.mp hrest.order).1 e he
        simp only [endOffset] at this ⊢
        omega
      · rename_i hjoin
        refine hrest.cons (Nat.add_pos_left hposcur _) fun e he => ?_
        have := hrest.order.first_le e he
        simp only [endOffset] at hle ⊢
        omega
    · rename_i hadj
      split
      · rename_i hlt
        have hle := hbefore cur (.head _) hlt
        split
        · rename_i hjoin
          refine hrest.cons (Nat.add_pos_left hposcur _) fun e he => ?_
          have := hcur e he
          simp only [endOffset] at this ⊢
          omega
        · rename_i hjoin
          refine hruns.cons hd fun e he => ?_
          have := hruns.order.first_le e he
          unfold endOffset at hle ⊢
          omega
      · rename_i hge
        have hlt : cur.endOffset < d.beginOffset := by
          have := (hapart cur (.head _)).le hd (by omega)
          unfold endOffset at this ⊢
          omega
        refine (ih hrest fun e he => hapart e (.tail _ he)).cons hposcur fun e he => ?_
        rcases mergeDesc_begin d rest e he with h | ⟨c, hc, h⟩
        · rw [h]
          exact hlt
        · rw [h]
          exact hcur c hc

theorem CUDesc.size_pos {c : CUDesc} (h : c.spaceDesc = some d) : 0 < d.size := by
  unfold spaceDesc at h
  split at h
  · cases h
  rename_i hsize
  obtain ⟨p, -, rfl⟩ := Option.map_eq_some_iff.mp h
  exact Nat.pos_of_ne_zero hsize

/-- The runs cover the units scanned and nothing else. -/
theorem scanDescs_runs (tups : List CUDesc) (runs runs' : List CStoreFreeSpaceDesc)
    (h : scanDescs tups runs = some runs') (hruns : Merged runs)
    (hlive : (tups.filterMap spaceDesc).Pairwise Apart)
    (hapart : ∀ u ∈ tups.filterMap spaceDesc, ∀ e ∈ runs, u.Apart e) :
    Merged runs' ∧
      ∀ p, (∃ e ∈ runs', e.Holds p) ↔
        (∃ e ∈ runs, e.Holds p) ∨ ∃ u ∈ tups.filterMap spaceDesc, u.Holds p := by
  induction tups generalizing runs runs' with
  | nil =>
    rw [scanDescs, Option.some.injEq] at h
    subst h
    exact ⟨hruns, fun p => by simp⟩
  | cons tup tups ih =>
    rw [scanDescs] at h
    split at h
    · rename_i htup
      rw [List.filterMap_cons_none htup] at hlive hapart ⊢
      exact ih runs runs' h hruns hlive hapart
    rename_i d htup
    rw [List.filterMap_cons_some htup] at hlive hapart ⊢
    split at h
    · cases h
    obtain ⟨hd, hlive⟩ := pairwise_cons.mp hlive
    have hruns' := mergeDesc_runs d (CUDesc.size_pos htup) runs hruns (hapart d (by simp))
    have hapart' : ∀ u ∈ tups.filterMap spaceDesc, ∀ e ∈ mergeDesc d runs, u.Apart e := by
      intro u hu e he p hup hep
      rcases (mergeDesc_holds d p runs).mp ⟨e, he, hep⟩ with hdp | ⟨c, hc, hcp⟩
      · exact hd u hu p hdp hup
      · exact hapart u (.tail _ hu) c hc p hup hcp
    obtain ⟨hmerged, hcover⟩ := ih _ _ h hruns' hlive hapart'
    refine ⟨hmerged, fun p => ?_⟩
    rw [hcover, mergeDesc_holds, List.exists_mem_cons_iff, or_assoc, or_left_comm]

/-! ## The heap of holes -/

namespace CStoreFreeSpace

variable {fsm : CStoreFreeSpace}

def Ordered (fsm : CStoreFreeSpace) : Prop :=
  BinaryHeap.Ordered CStoreFreeSpaceDesc.size fsm.descs fsm.descNum

theorem Ordered.push (h : fsm.Ordered) (d : CStoreFreeSpaceDesc) : (fsm.push d).Ordered := by
  unfold CStoreFreeSpace.push
  split
  · exact h
  · exact BinaryHeap.ordered_push d h

theorem items_push (fsm : CStoreFreeSpace) (d : CStoreFreeSpaceDesc) :
    (fsm.push d).items = fsm.items ∨ (fsm.push d).items.Perm (d :: fsm.items) := by
  unfold CStoreFreeSpace.push
  split
  · exact .inl rfl
  · exact .inr (BinaryHeap.perm_push fsm.descs fsm.descNum d)

theorem hasEnoughSpace_iff {size : Nat} :
    fsm.hasEnoughSpace size = true ↔ 0 < fsm.descNum ∧ size ≤ (fsm.descs 1).size := by
  unfold hasEnoughSpace isEmpty
  split
  · rename_i h
    simp only [beq_iff_eq] at h
    simp [h]
  · rename_i h
    simp only [beq_iff_eq] at h
    simp [Nat.pos_iff_ne_zero, h]

theorem pop_eq (h : 0 < fsm.descNum) (d : CStoreFreeSpaceDesc) : fsm.popDescWithMaxSize d =
      (fsm.descs 1,
        { fsm with
          descs := BinaryHeap.pop (·.size) fsm.descs fsm.descNum
          descNum := fsm.descNum - 1 }) := by
  rw [popDescWithMaxSize, if_neg (by simpa using Nat.ne_of_gt h)]

theorem Ordered.pop (h : fsm.Ordered) (hn : 0 < fsm.descNum) (d : CStoreFreeSpaceDesc) :
    (fsm.popDescWithMaxSize d).2.Ordered := by
  rw [pop_eq hn]
  exact BinaryHeap.ordered_pop h

theorem items_pop (hn : 0 < fsm.descNum) (d : CStoreFreeSpaceDesc) :
    (fsm.descs 1 :: (fsm.popDescWithMaxSize d).2.items).Perm fsm.items := by
  rw [pop_eq hn]
  exact BinaryHeap.perm_pop fsm.descs hn

theorem Ordered.le_pop (h : fsm.Ordered) (d : CStoreFreeSpaceDesc) :
    ∀ e ∈ fsm.items, e.size ≤ (fsm.popDescWithMaxSize d).1.size := by
  intro e he
  have hn : 0 < fsm.descNum := by
    by_contra hzero
    have : fsm.descNum = 0 := by omega
    rw [items, this] at he
    cases he
  rw [pop_eq hn]
  exact BinaryHeap.le_first_of_mem h he

end CStoreFreeSpace

open CStoreFreeSpace

/-- Holes apart from each other and from the runs, all of them before `bound`. -/
structure FreeHoles (runs : List CStoreFreeSpaceDesc) (fsm : CStoreFreeSpace) (bound : Nat) :
    Prop where
  ordered : fsm.Ordered
  apart : fsm.items.Pairwise Apart
  runs : ∀ d ∈ fsm.items, ∀ e ∈ runs, d.Apart e
  le : ∀ d ∈ fsm.items, d.endOffset ≤ bound

theorem FreeHoles.mono {fsm : CStoreFreeSpace} {b b' : Nat} (h : FreeHoles runs fsm b) (hb : b ≤ b') :
    FreeHoles runs fsm b' :=
  { h with le := fun d hd => (h.le d hd).trans hb }

theorem FreeHoles.push {fsm : CStoreFreeSpace} {b : Nat} (h : FreeHoles runs fsm b)
    (hb : b ≤ d.beginOffset) (hd : ∀ e ∈ runs, d.Apart e) :
    FreeHoles runs (fsm.push d) d.endOffset := by
  have hle : b ≤ d.endOffset := by
    unfold endOffset
    omega
  rcases items_push fsm d with hdrop | hperm
  · exact ⟨h.ordered.push d, hdrop ▸ h.apart, hdrop ▸ h.runs,
      hdrop ▸ fun e he => (h.le e he).trans hle⟩
  refine ⟨h.ordered.push d, ?_, fun e he => ?_, fun e he => ?_⟩
  · refine (hperm.pairwise_iff fun hab => hab.symm).mpr (pairwise_cons.mpr ⟨?_, h.apart⟩)
    intro e he
    exact (apart_of_le ((h.le e he).trans hb)).symm
  · rcases mem_cons.mp (hperm.subset he) with rfl | he
    · exact hd
    · exact h.runs e he
  · rcases mem_cons.mp (hperm.subset he) with rfl | he
    · exact le_rfl
    · exact (h.le e he).trans hle

/-- Behind a run and before the next there is no other run. -/
theorem hole_apart {pre rest : List CStoreFreeSpaceDesc} {cur next : CStoreFreeSpaceDesc}
    (h : Runs (pre ++ cur :: next :: rest)) : ∀ e ∈ pre ++ cur :: next :: rest,
      (⟨cur.beginOffset + cur.size, next.beginOffset - (cur.beginOffset + cur.size)⟩ :
        CStoreFreeSpaceDesc).Apart e := by
  intro e he p hp hep
  obtain ⟨-, hcur, hpre⟩ := List.pairwise_append.mp h
  obtain ⟨hcur', hnext⟩ := pairwise_cons.mp hcur
  obtain ⟨hnext', -⟩ := pairwise_cons.mp hnext
  have hgap := hcur' next (by simp)
  simp only [Holds, endOffset] at hp hep hgap
  have hcases : e ∈ pre ∨ e = cur ∨ e = next ∨ e ∈ rest := by simpa using he
  rcases hcases with he | rfl | rfl | he
  · have := hpre e he cur (by simp)
    simp only [endOffset] at this
    omega
  · omega
  · omega
  · have := hnext' e he
    simp only [endOffset] at this
    omega

theorem pushHoles_free (suf pre : List CStoreFreeSpaceDesc) (fsm : CStoreFreeSpace) (bound : Nat)
    (hruns : Runs (pre ++ suf)) (hbound : ∀ e ∈ suf, bound ≤ e.beginOffset)
    (h : FreeHoles (pre ++ suf) fsm bound) :
      ∃ b, FreeHoles (pre ++ suf) (pushHoles suf fsm) b ∧
        (b = bound ∨ ∃ e ∈ suf, b ≤ e.beginOffset) := by
  induction suf generalizing pre fsm bound with
  | nil => exact ⟨bound, h, .inl rfl⟩
  | cons cur suf ih =>
    cases suf with
    | nil => exact ⟨bound, h, .inl rfl⟩
    | cons next rest =>
      have hassoc : pre ++ cur :: next :: rest = (pre ++ [cur]) ++ next :: rest := by simp
      have hcur := (pairwise_cons.mp (List.pairwise_append.mp hruns).2.1).1
      have hgap := hcur next (by simp)
      have hpush := h.push (d := ⟨cur.beginOffset + cur.size,
          next.beginOffset - (cur.beginOffset + cur.size)⟩)
        ((hbound cur (by simp)).trans (Nat.le_add_right _ _)) (hole_apart hruns)
      have hend : (⟨cur.beginOffset + cur.size,
          next.beginOffset - (cur.beginOffset + cur.size)⟩ : CStoreFreeSpaceDesc).endOffset =
          next.beginOffset := by
        simp only [endOffset] at hgap ⊢
        omega
      rw [hend] at hpush
      unfold pushHoles
      split
      · split
        · exact ⟨next.beginOffset, hpush, .inr ⟨next, by simp, le_rfl⟩⟩
        rw [hassoc] at hruns hpush ⊢
        have hnext := Runs.first_le (List.pairwise_append.mp hruns).2.1
        obtain ⟨b, hb, hbnd⟩ := ih (pre ++ [cur]) _ next.beginOffset hruns hnext hpush
        refine ⟨b, hb, .inr ?_⟩
        rcases hbnd with rfl | ⟨e, he, hle⟩
        · exact ⟨next, by simp, le_rfl⟩
        · exact ⟨e, .tail _ he, hle⟩
      · rw [hassoc] at hruns h ⊢
        obtain ⟨b, hb, hbnd⟩ := ih (pre ++ [cur]) fsm bound hruns
          (fun e he => hbound e (.tail _ he)) h
        refine ⟨b, hb, ?_⟩
        rcases hbnd with rfl | ⟨e, he, hle⟩
        · exact .inl rfl
        · exact .inr ⟨e, .tail _ he, hle⟩

theorem freeHoles_initializeFsm (runs : List CStoreFreeSpaceDesc) (maxSize : Nat) :
    FreeHoles runs (.initializeFsm maxSize) 0 :=
  ⟨fun k h2 hk => absurd (h2.trans hk) (by simp [CStoreFreeSpace.initializeFsm]), List.Pairwise.nil,
    nofun, nofun⟩

theorem pushFirstHole_free (hruns : Runs runs) (maxSize : Nat) :
    ∃ b, FreeHoles runs (pushFirstHole runs (.initializeFsm maxSize)) b ∧
      ∀ e ∈ runs, b ≤ e.beginOffset := by
  have hinit := freeHoles_initializeFsm runs maxSize
  cases runs with
  | nil => exact ⟨0, hinit, fun e he => Nat.zero_le _⟩
  | cons entry rest =>
    have hle := hruns.first_le
    unfold pushFirstHole
    simp only [List.head?_cons]
    split
    · refine ⟨entry.beginOffset, ?_, hle⟩
      have := hinit.push (d := ⟨0, entry.beginOffset⟩) le_rfl fun e he =>
        apart_of_le (by have := hle e he; simpa [endOffset] using this)
      simpa [endOffset] using this
    · exact ⟨0, hinit, fun e _ => Nat.zero_le _⟩

/-- `ComputeFreeSpace` finds holes apart from the live units and before their end. -/
theorem computeFreeSpace_free {tups : List CUDesc} (maxSize : Nat) {bound : Nat}
    (hlive : (tups.filterMap spaceDesc).Pairwise Apart)
    (hbound : ∀ u ∈ tups.filterMap spaceDesc, u.endOffset ≤ bound) :
    FreeHoles (tups.filterMap spaceDesc) (computeFreeSpace tups (.initializeFsm maxSize))
      bound := by
  unfold computeFreeSpace
  split
  · exact (freeHoles_initializeFsm _ maxSize).mono (Nat.zero_le _)
  rename_i runs hscan
  obtain ⟨hruns, hcover⟩ := scanDescs_runs tups [] runs hscan .nil hlive (fun _ _ => nofun)
  obtain ⟨b₀, hfirst, hb₀⟩ := pushFirstHole_free hruns.order maxSize
  obtain ⟨b, hfree, hb⟩ := pushHoles_free runs [] _ b₀ hruns.order hb₀ hfirst
  refine ⟨hfree.ordered, hfree.apart, fun d hd u hu p hdp hup => ?_, fun d hd => ?_⟩
  · obtain ⟨e, he, hep⟩ := (hcover p).mpr (.inr ⟨u, hu, hup⟩)
    exact hfree.runs d hd e he p hdp hep
  · -- a hole lies before some run, and the last byte of a run is that of a unit
    have hrun : ∀ e ∈ runs, e.beginOffset ≤ bound := by
      intro e he
      have hsize := hruns.pos e he
      obtain ⟨u, hu, hup⟩ := ((hcover e.beginOffset).mp ⟨e, he, le_rfl, by
        unfold endOffset; omega⟩).resolve_left (by simp)
      have := hbound u hu
      have := hup.2
      omega
    have hle := hfree.le d hd
    cases runs with
    | nil => cases hd
    | cons entry rest =>
      rcases hb with rfl | ⟨e, he, hbe⟩
      · have := hb₀ entry (by simp)
        have := hrun entry (by simp)
        omega
      · have := hrun e he
        omega

/-! ## Serving requests -/

/-- From the first byte of a descriptor to the real end of its hole. -/
def realHole (g : CStoreFreeSpaceDesc × Nat) : CStoreFreeSpaceDesc :=
  ⟨g.1.beginOffset, g.2 - g.1.beginOffset⟩

theorem realHole_holds {g : CStoreFreeSpaceDesc × Nat} {p : Nat} :
    (realHole g).Holds p ↔ g.1.beginOffset ≤ p ∧ p < g.2 := by
  simp only [realHole, Holds, endOffset]
  omega

/-- Every descriptor of the heap stands for a hole that really ends where `tied` says it
can; these holes and the ranges in use are apart from each other. -/
structure SpaceInv (tied : CStoreFreeSpaceDesc → Nat → Prop) (s : ColumnSpace)
    (used : List CStoreFreeSpaceDesc) : Prop where
  ordered : s.fsm.Ordered
  holes : ∃ G : List (CStoreFreeSpaceDesc × Nat), (G.map Prod.fst).Perm s.fsm.items ∧
    G.Pairwise (fun g h => (realHole g).Apart (realHole h)) ∧
    ∀ g ∈ G, tied g.1 g.2 ∧ g.2 ≤ s.maxOffset ∧ ∀ u ∈ used, (realHole g).Apart u
  used_le : ∀ u ∈ used, u.endOffset ≤ s.maxOffset
  used_apart : used.Pairwise Apart

theorem columnSpace_inv {tied : CStoreFreeSpaceDesc → Nat → Prop}
    (htied : ∀ d, tied d d.endOffset) {tups : List CUDesc} (maxSize : Nat) {maxOffset : Nat}
    (hlive : (tups.filterMap spaceDesc).Pairwise Apart)
    (hend : ∀ u ∈ tups.filterMap spaceDesc, u.endOffset ≤ maxOffset) :
    SpaceInv tied (columnSpace tups maxSize maxOffset) (tups.filterMap spaceDesc) := by
  have hfree := computeFreeSpace_free maxSize hlive hend
  have hreal : ∀ d : CStoreFreeSpaceDesc, realHole (d, d.endOffset) = d := by
    intro d
    simp [realHole, endOffset]
  refine ⟨hfree.ordered, ⟨(columnSpace tups maxSize maxOffset).fsm.items.map
    fun d => (d, d.endOffset), ?_, ?_, ?_⟩, hend, hlive⟩
  · rw [List.map_map]
    simp [Function.comp_def]
  · refine List.pairwise_map.mpr (hfree.apart.imp fun {d e} h => ?_)
    rw [hreal, hreal]
    exact h
  · intro g hg
    obtain ⟨d, hd, rfl⟩ := List.mem_map.mp hg
    rw [hreal]
    exact ⟨htied d, hfree.le d hd, hfree.runs d hd⟩

/-- A request the heap can serve is served from the first descriptor. -/
def Served (s : ColumnSpace) (r : Request) : Prop :=
  s.fsm.hasEnoughSpace (r.size + r.alignSize) = true

instance (s : ColumnSpace) (r : Request) : Decidable (Served s r) :=
  inferInstanceAs (Decidable (_ = _))

theorem allocSpace_served (h : Served s r) :
    allocSpace s r = ((alignDesc (s.fsm.descs 1) r.alignSize).beginOffset,
      ⟨pushRest (s.fsm.popDescWithMaxSize ⟨0, 0⟩).2
        (alignDesc (s.fsm.descs 1) r.alignSize) r.size, s.maxOffset⟩) := by
  have hpop := congrArg Prod.fst (pop_eq (hasEnoughSpace_iff.mp h).1 ⟨0, 0⟩)
  rw [Served] at h
  rw [allocSpace, tryAcquireSpaceFromFSM, if_neg (by simp [h]), hpop]

theorem allocSpace_append (h : ¬ Served s r) :
    allocSpace s r = (alignOffset s.maxOffset r.alignSize,
      ⟨s.fsm, alignOffset s.maxOffset r.alignSize + r.size⟩) := by
  rw [allocSpace, tryAcquireSpaceFromFSM, if_pos (by simpa [Served] using h)]
  rfl

theorem alignOffset_dvd (offset : Nat) (alignSize : Nat) (h : 0 < alignSize) :
    alignSize ∣ alignOffset offset alignSize := by
  unfold alignOffset
  split
  · have hmod := Nat.mod_lt offset h
    have hdiv := Nat.mod_add_div offset alignSize
    refine ⟨offset / alignSize + 1, ?_⟩
    rw [Nat.mul_add, Nat.mul_one]
    omega
  · rename_i h0
    exact Nat.dvd_of_mod_eq_zero (by simpa using h0)

theorem alignDesc_begin (d : CStoreFreeSpaceDesc) (alignSize : Nat) :
    (alignDesc d alignSize).beginOffset = alignOffset d.beginOffset alignSize := by
  unfold alignDesc alignOffset
  split <;> rfl

theorem le_alignOffset (offset : Nat) (alignSize : Nat) (h : 0 < alignSize) :
    offset ≤ alignOffset offset alignSize := by
  unfold alignOffset
  split
  · have := Nat.mod_lt offset h
    omega
  · exact le_rfl

theorem allocSpace_ordered (r : Request) (h : s.fsm.Ordered) : (allocSpace s r).2.fsm.Ordered := by
  by_cases hs : Served s r
  · rw [allocSpace_served hs]
    have hpop := h.pop (hasEnoughSpace_iff.mp hs).1 ⟨0, 0⟩
    simp only [pushRest]
    split
    · exact hpop.push _
    · exact hpop
  · rw [allocSpace_append hs]
    exact h

theorem allocSpace_dvd (s : ColumnSpace) (r : Request) : r.alignSize ∣ (allocSpace s r).1 := by
  by_cases hs : Served s r
  · rw [allocSpace_served hs, alignDesc_begin]
    exact alignOffset_dvd _ _ r.align_pos
  · rw [allocSpace_append hs]
    exact alignOffset_dvd _ _ r.align_pos

/-- What is left of a descriptor after a request. -/
def restDesc (d : CStoreFreeSpaceDesc) (r : Request) : CStoreFreeSpaceDesc :=
  ⟨(alignDesc d r.alignSize).beginOffset + r.size, (alignDesc d r.alignSize).size - r.size⟩

namespace SpaceInv

variable {tied : CStoreFreeSpaceDesc → Nat → Prop} {s : ColumnSpace}
  {used : List CStoreFreeSpaceDesc} {r : Request}

/-- Behind the end of the file nothing is in use. -/
theorem append (h : SpaceInv tied s used) (hs : ¬ Served s r) :
    SpaceInv tied (allocSpace s r).2 (used ++ [⟨(allocSpace s r).1, r.size⟩]) := by
  rw [allocSpace_append hs]
  have hle := le_alignOffset s.maxOffset r.alignSize r.align_pos
  obtain ⟨G, hperm, hpair, hG⟩ := h.holes
  refine ⟨h.ordered, ⟨G, hperm, hpair, fun g hg => ?_⟩, fun u hu => ?_, ?_⟩
  · obtain ⟨htied, hmax, hapart⟩ := hG g hg
    refine ⟨htied, by dsimp only; omega, fun u hu => ?_⟩
    rcases List.mem_append.mp hu with hu | hu
    · exact hapart u hu
    rw [mem_singleton.mp hu]
    intro p hp hup
    have := (realHole_holds.mp hp).2
    have := hup.1
    dsimp only at this
    omega
  · rcases List.mem_append.mp hu with hu | hu
    · have := h.used_le u hu
      dsimp only
      omega
    · rw [mem_singleton.mp hu]
      exact le_rfl
  · refine List.pairwise_append.mpr ⟨h.used_apart, List.pairwise_singleton _ _, ?_⟩
    exact fun u hu => forall_mem_singleton.mpr (apart_of_le ((h.used_le u hu).trans hle))

/-- The front of a hole is taken; the rest stays tied to the same end. -/
theorem served (h : SpaceInv tied s used) (hs : Served s r) (htied : ∀ e, tied (s.fsm.descs 1) e →
      (alignDesc (s.fsm.descs 1) r.alignSize).beginOffset + r.size ≤ e ∧
        tied (restDesc (s.fsm.descs 1) r) e) :
    SpaceInv tied (allocSpace s r).2 (used ++ [⟨(allocSpace s r).1, r.size⟩]) := by
  have hordered := allocSpace_ordered r h.ordered
  rw [allocSpace_served hs] at hordered ⊢
  have hpop := items_pop (hasEnoughSpace_iff.mp hs).1 ⟨0, 0⟩
  have hfront : (s.fsm.descs 1).beginOffset ≤
      (alignDesc (s.fsm.descs 1) r.alignSize).beginOffset := by
    rw [alignDesc_begin]
    exact le_alignOffset _ _ r.align_pos
  generalize (s.fsm.popDescWithMaxSize ⟨0, 0⟩).2 = popped at hordered hpop ⊢
  obtain ⟨G, hperm, hpair, hG⟩ := h.holes
  -- the hole the first descriptor stands for, and the others
  obtain ⟨g, hg, hfst⟩ := List.mem_map.mp (hperm.symm.subset (hpop.subset (.head _)))
  have herase := List.perm_cons_erase hg
  have hpair' := (herase.pairwise_iff fun hab => hab.symm).mp hpair
  obtain ⟨hgapart, hrest⟩ := pairwise_cons.mp hpair'
  have hitems : ((G.erase g).map Prod.fst).Perm popped.items := by
    have := ((herase.map Prod.fst).symm.trans hperm).trans hpop.symm
    rw [List.map_cons, hfst] at this
    exact this.cons_inv
  obtain ⟨hgtied, hgmax, hgused⟩ := hG g hg
  rw [hfst] at hgtied
  obtain ⟨hfits, hresttied⟩ := htied g.2 hgtied
  -- the range given out lies in the hole
  have hin : ∀ p, (⟨(alignDesc (s.fsm.descs 1) r.alignSize).beginOffset, r.size⟩ :
      CStoreFreeSpaceDesc).Holds p → (realHole g).Holds p := by
    intro p hp
    rw [realHole_holds, hfst]
    have := hp.1
    have := hp.2
    simp only [endOffset] at this
    dsimp only at *
    omega
  have hrestin : ∀ p, (realHole (restDesc (s.fsm.descs 1) r, g.2)).Holds p →
      (realHole g).Holds p := by
    intro p hp
    rw [realHole_holds] at hp ⊢
    rw [hfst]
    have := hp.1
    simp only [restDesc] at this
    exact ⟨by omega, hp.2⟩
  have hothers : ∀ g' ∈ G.erase g, tied g'.1 g'.2 ∧ g'.2 ≤ s.maxOffset ∧
      ∀ u ∈ used ++ [⟨(alignDesc (s.fsm.descs 1) r.alignSize).beginOffset, r.size⟩],
        (realHole g').Apart u := by
    intro g' hg'
    obtain ⟨h₁, h₂, h₃⟩ := hG g' (List.mem_of_mem_erase hg')
    exact ⟨h₁, h₂, List.forall_mem_append.mpr
      ⟨h₃, forall_mem_singleton.mpr ((hgapart g' hg').mono hin).symm⟩⟩
  refine ⟨hordered, ?_, List.forall_mem_append.mpr
    ⟨h.used_le, forall_mem_singleton.mpr (hfits.trans hgmax)⟩, ?_⟩
  · by_cases hkeep : (pushRest popped (alignDesc (s.fsm.descs 1) r.alignSize) r.size).items =
        popped.items
    · exact ⟨G.erase g, hkeep ▸ hitems, hrest, hothers⟩
    · have hpush : (pushRest popped (alignDesc (s.fsm.descs 1) r.alignSize) r.size).items.Perm
          (restDesc (s.fsm.descs 1) r :: popped.items) := by
        unfold pushRest at hkeep ⊢
        split
        · rename_i hpos
          rw [if_pos hpos] at hkeep
          exact (items_push _ _).resolve_left hkeep
        · rename_i hpos
          rw [if_neg hpos] at hkeep
          exact absurd rfl hkeep
      refine ⟨(restDesc (s.fsm.descs 1) r, g.2) :: G.erase g, ?_, ?_, fun g' hg' => ?_⟩
      · rw [List.map_cons]
        exact (hitems.cons _).trans hpush.symm
      · exact pairwise_cons.mpr ⟨fun g' hg' => (hgapart g' hg').mono hrestin, hrest⟩
      · rcases mem_cons.mp hg' with rfl | hg'
        · refine ⟨hresttied, hgmax, fun u hu => ?_⟩
          rcases List.mem_append.mp hu with hu | hu
          · exact (hgused u hu).mono hrestin
          rw [mem_singleton.mp hu]
          intro p hp hup
          have h₁ := (realHole_holds.mp hp).1
          have h₂ := hup.2
          simp only [restDesc, endOffset] at h₁ h₂
          omega
        · exact hothers g' hg'
  · refine List.pairwise_append.mpr ⟨h.used_apart, List.pairwise_singleton _ _, ?_⟩
    exact fun u hu => forall_mem_singleton.mpr ((hgused u hu).mono hin).symm

end SpaceInv

/-! ## Whole runs -/

/-- A hole is not served with too little taken off its size: it starts at a multiple of the
alignment, or no further than half of it before one. -/
def StartsNear (s : ColumnSpace) (r : Request) : Prop :=
  Served s r → (s.fsm.descs 1).beginOffset % r.alignSize = 0 ∨
    r.alignSize ≤ 2 * ((s.fsm.descs 1).beginOffset % r.alignSize)

def NearRun : ColumnSpace → List Request → Prop
  | _, [] => True
  | s, r :: rs => StartsNear s r ∧ NearRun (allocSpace s r).2 rs

/-- All sizes are padded to one alignment, as those of the present callers of `AcquireSpace`
always are (`AlignCuSize`). -/
def PaddedTo (al : Nat) (rs : List Request) : Prop :=
  ∀ r ∈ rs, r.alignSize = al ∧ al ∣ r.size

/-- A descriptor that does not reach behind its hole. -/
def Within (d : CStoreFreeSpaceDesc) (e : Nat) : Prop := d.endOffset ≤ e

/-- A descriptor that reaches behind its hole by less than the alignment, once it has been
moved to a multiple of it. -/
def WithinPadding (al : Nat) (d : CStoreFreeSpaceDesc) (e : Nat) : Prop :=
  d.endOffset ≤ e ∨ al ∣ d.beginOffset ∧ d.endOffset < e + al

theorem within_rest {e : Nat} (henough : r.size + r.alignSize ≤ d.size)
    (hnear : d.beginOffset % r.alignSize = 0 ∨ r.alignSize ≤ 2 * (d.beginOffset % r.alignSize))
    (h : Within d e) :
    (alignDesc d r.alignSize).beginOffset + r.size ≤ e ∧ Within (restDesc d r) e := by
  have hmod := Nat.mod_lt d.beginOffset r.align_pos
  simp only [Within, restDesc, alignDesc, endOffset] at h ⊢
  split
  · dsimp only
    omega
  · omega

theorem withinPadding_rest {al : Nat} {e : Nat} (henough : r.size + r.alignSize ≤ d.size)
    (hal : r.alignSize = al) (hpad : al ∣ r.size) (h : WithinPadding al d e) :
    (alignDesc d r.alignSize).beginOffset + r.size ≤ e ∧ WithinPadding al (restDesc d r) e := by
  subst hal
  have hpos := r.align_pos
  have hmod := Nat.mod_lt d.beginOffset hpos
  have hdvd : r.alignSize ∣ (alignDesc d r.alignSize).beginOffset + r.size := by
    rw [alignDesc_begin]
    exact Nat.dvd_add (alignOffset_dvd _ _ hpos) hpad
  rcases h with h | ⟨hbegin, h⟩
  · refine ⟨?_, ?_⟩
    · simp only [alignDesc, endOffset] at h ⊢
      split
      · dsimp only
        omega
      · omega
    · refine .inr ⟨hdvd, ?_⟩
      simp only [restDesc, alignDesc, endOffset] at h ⊢
      split
      · dsimp only
        omega
      · omega
  · -- aligned already: nothing is lost, and the padding asked for covers what it is too long
    have haligned : alignDesc d r.alignSize = d := by
      rw [alignDesc, if_neg (by simpa using Nat.mod_eq_zero_of_dvd hbegin)]
    rw [haligned] at hdvd ⊢
    simp only [WithinPadding, restDesc, haligned, endOffset] at h ⊢
    exact ⟨by omega, .inr ⟨hdvd, by omega⟩⟩

/-- An invariant that serving keeps holds of a whole run. -/
theorem SpaceInv.run {tied : CStoreFreeSpaceDesc → Nat → Prop}
    (ok : ColumnSpace → List Request → Prop)
    (hstep : ∀ s r rs, ok s (r :: rs) → Served s r → ∀ e, tied (s.fsm.descs 1) e →
      (alignDesc (s.fsm.descs 1) r.alignSize).beginOffset + r.size ≤ e ∧
        tied (restDesc (s.fsm.descs 1) r) e)
    (hok : ∀ s r rs, ok s (r :: rs) → ok (allocSpace s r).2 rs) :
    ∀ (rs : List Request) (s : ColumnSpace) (used : List CStoreFreeSpaceDesc),
      SpaceInv tied s used → ok s rs →
        SpaceInv tied (allocSpaces s rs).2 (used ++ (allocSpaces s rs).1.map granted) := by
  intro rs
  induction rs with
  | nil =>
    intro s used h _
    simpa [allocSpaces] using h
  | cons r rs ih =>
    intro s used h hrs
    have hone : SpaceInv tied (allocSpace s r).2 (used ++ [⟨(allocSpace s r).1, r.size⟩]) := by
      by_cases hs : Served s r
      · exact h.served hs (hstep s r rs hrs hs)
      · exact h.append hs
    have := ih _ _ hone (hok s r rs hrs)
    rw [List.append_assoc] at this
    exact this

theorem allocSpaces_ordered (rs : List Request) (s : ColumnSpace) (h : s.fsm.Ordered) :
    (allocSpaces s rs).2.fsm.Ordered := by
  induction rs generalizing s with
  | nil => exact h
  | cons r rs ih => exact ih _ (allocSpace_ordered r h)

theorem allocSpaces_dvd : ∀ (rs : List Request) (s : ColumnSpace),
    ∀ g ∈ (allocSpaces s rs).1, g.1.alignSize ∣ g.2 := by
  intro rs
  induction rs with
  | nil =>
    intro s g hg
    cases hg
  | cons r rs ih =>
    intro s
    exact forall_mem_cons.mpr ⟨allocSpace_dvd s r, ih _⟩

theorem SpaceInv.nearRun {used : List CStoreFreeSpaceDesc} {rs : List Request}
    (h : SpaceInv Within s used) (hrs : NearRun s rs) :
    SpaceInv Within (allocSpaces s rs).2 (used ++ (allocSpaces s rs).1.map granted) := by
  refine SpaceInv.run NearRun (fun s r rs hrs hs e he => ?_) (fun s r rs hrs => hrs.2)
    rs s used h hrs
  exact within_rest (hasEnoughSpace_iff.mp hs).2 (hrs.1 hs) he

theorem SpaceInv.paddedRun {al : Nat} {used : List CStoreFreeSpaceDesc} {rs : List Request}
    (h : SpaceInv (WithinPadding al) s used) (hrs : PaddedTo al rs) :
    SpaceInv (WithinPadding al) (allocSpaces s rs).2
      (used ++ (allocSpaces s rs).1.map granted) := by
  refine SpaceInv.run (fun _ => PaddedTo al) (fun s r rs hrs hs e he => ?_)
    (fun s r rs hrs r' hr' => hrs r' (.tail _ hr')) rs s used h hrs
  obtain ⟨hal, hpad⟩ := hrs r (.head _)
  exact withinPadding_rest (hasEnoughSpace_iff.mp hs).2 hal hpad he

/-- Offsets are aligned and the largest hole is served in any case. Live units and the
ranges given out are apart from each other when all sizes are padded to one alignment, or
when every hole starts near enough to a multiple of the alignment asked for. -/
theorem allocSpaces_apart (tups : List CUDesc) (maxSize maxOffset : Nat) (rs : List Request)
    (hlive : (tups.filterMap spaceDesc).Pairwise Apart)
    (hend : ∀ u ∈ tups.filterMap spaceDesc, u.endOffset ≤ maxOffset) :
    (∀ g ∈ (allocSpaces (columnSpace tups maxSize maxOffset) rs).1, g.1.alignSize ∣ g.2) ∧
    (∀ d ∈ (allocSpaces (columnSpace tups maxSize maxOffset) rs).2.fsm.items,
      d.size ≤ ((allocSpaces (columnSpace tups maxSize maxOffset) rs).2.fsm.popDescWithMaxSize
        ⟨0, 0⟩).1.size) ∧
    ((∃ al, PaddedTo al rs) ∨ NearRun (columnSpace tups maxSize maxOffset) rs →
      (tups.filterMap spaceDesc ++
        (allocSpaces (columnSpace tups maxSize maxOffset) rs).1.map granted).Pairwise Apart) := by
  refine ⟨allocSpaces_dvd rs _, ?_, ?_⟩
  · exact (allocSpaces_ordered rs _ (computeFreeSpace_free maxSize hlive hend).ordered).le_pop _
  · rintro (⟨al, hpad⟩ | hnear)
    · have hinv : SpaceInv (WithinPadding al) _ _ :=
        columnSpace_inv (fun d => .inl le_rfl) maxSize hlive hend
      exact (hinv.paddedRun hpad).used_apart
    · have hinv : SpaceInv Within _ _ := columnSpace_inv (fun d => le_rfl) maxSize hlive hend
      exact (hinv.nearRun hnear).used_apart

/-- A unit of one byte, a hole, and a unit of 8192 bytes behind it. -/
def twoUnits : List CUDesc :=
  [⟨some 0, 1, fun _ hp => Option.mem_some_iff.mp hp ▸ of_decide_eq_true rfl⟩,
    ⟨some 16388, 8192, fun _ hp => Option.mem_some_iff.mp hp ▸ of_decide_eq_true rfl⟩]

def pageRequest (size : Nat) (h : size + 8192 < 2 ^ 64) : Request :=
  ⟨size, 8192, of_decide_eq_true rfl, h⟩

def unpaddedRequests : List Request :=
  [pageRequest 8193 (of_decide_eq_true rfl), pageRequest 1 (of_decide_eq_true rfl)]

theorem twoUnits_apart : (twoUnits.filterMap spaceDesc).Pairwise Apart := by
  refine List.pairwise_pair.mpr (apart_of_le ?_)
  decide

theorem twoUnits_end : ∀ u ∈ twoUnits.filterMap spaceDesc, u.endOffset ≤ 24580 := by
  decide

theorem allocSpaces_apart_twoUnits :
    (twoUnits.filterMap spaceDesc ++ (allocSpaces (columnSpace twoUnits 2000 24580)
      [pageRequest 8192 (of_decide_eq_true rfl)]).1.map granted).Pairwise Apart := by
  refine (allocSpaces_apart twoUnits 2000 24580 _ twoUnits_apart twoUnits_end).2.2 (.inl ⟨8192, ?_⟩)
  exact forall_mem_singleton.mpr ⟨rfl, ⟨1, rfl⟩⟩

/-- The hole is moved to 8192 and made shorter by one byte only. The second request, of one
byte, gets byte 24576 of the second unit. -/
theorem allocSpaces_overlap : (twoUnits.filterMap spaceDesc).Pairwise Apart ∧
    ∃ u ∈ twoUnits.filterMap spaceDesc,
      ∃ g ∈ (allocSpaces (columnSpace twoUnits 2000 24580) unpaddedRequests).1,
        ¬ u.Apart (granted g) := by
  refine ⟨twoUnits_apart, ⟨16388, 8192⟩, by decide, (pageRequest 1 (by decide), 24576), ?_, ?_⟩
  · have hrun : (allocSpaces (columnSpace twoUnits 2000 24580) unpaddedRequests).1.map
        Prod.snd = [8192, 24576] := by decide +kernel
    have hlen : unpaddedRequests = [pageRequest 8193 (by decide), pageRequest 1 (by decide)] := rfl
    rw [hlen] at hrun ⊢
    simp only [allocSpaces, List.map_cons, List.map_nil, List.cons.injEq] at hrun ⊢
    rw [← hrun.2.1]
    simp
  · intro h
    exact h 24576 ⟨by decide, by decide⟩ ⟨by decide, by decide⟩

end OpenGauss.CStore
