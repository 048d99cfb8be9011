import Mathlib.Data.Fintype.Basic
import Mathlib.Data.List.Basic
import Mathlib.Tactic.Linarith

/-!
# Pages that reach the disk a sector at a time

A page on disk is one value for each of its sectors: the image the sector was
written from. A page is complete when all its sectors come from one image, and
a checksum tells a complete page from a mix of two. Interrupting a write of
consecutive pages leaves every sector either old or new.

* `image?_eq_some`: a page checks out exactly when it is complete
* `writeTorn_inOrder`: what an interrupted write leaves when its sectors are
  written in ascending order
* `restoreAll_keeps`, `restoreAll_covers`, `restoreAll_unchanged`: putting
  complete copies back over incomplete or older pages
-/

namespace OpenGauss.Lib

/-- A page of `k + 1` sectors, each with the image it belongs to. -/
abbrev Sectors (k : Nat) (α : Type*) := Fin (k + 1) → α

namespace Sectors

variable {k : Nat} {α : Type*}

def whole (a : α) : Sectors k α := fun _ => a

/-- The image the first sector comes from. -/
abbrev first (s : Sectors k α) : α := s 0

/-- The image of a complete page; a mix of images fails its checksum. -/
@[irreducible] def image? [DecidableEq α] (s : Sectors k α) : Option α :=
  if ∀ i, s i = s 0 then some (s 0) else none

/-- The pages of a file after a write of `pages` from `off` on was interrupted:
`done i j` tells whether sector `j` of the `i`-th page got written. -/
def writeTorn (file : Nat → Sectors k α) (off : Nat) (pages : List α)
    (done : Nat → Fin (k + 1) → Bool) : Nat → Sectors k α := fun i j =>
  if off ≤ i ∧ done (i - off) j = true then (pages[i - off]?).getD (file i j) else file i j

def write (file : Nat → Sectors k α) (off : Nat) (pages : List α) : Nat → Sectors k α :=
  writeTorn file off pages fun _ _ => true

/-- The first `m` sectors of a write, counted over all its pages. -/
def firstSectors (m i : Nat) (j : Fin (k + 1)) : Bool := decide ((k + 1) * i + j < m)

variable {a : α}

section Image

variable [DecidableEq α]

theorem image?_eq_some {s : Sectors k α} : s.image? = some a ↔ s = whole a := by
  unfold image?
  constructor
  · intro h
    split at h
    · rename_i hall
      cases h
      funext i
      exact hall i
    · cases h
  · rintro rfl
    simp [whole]

@[simp] theorem image?_whole (a : α) : (whole a : Sectors k α).image? = some a :=
  image?_eq_some.mpr rfl

end Image

/-! ## Interrupted writes -/

variable {file : Nat → Sectors k α} {pages : List α} {off i : Nat}

theorem write_inside (hi : off ≤ i) (ha : pages[i - off]? = some a) :
    write file off pages i = whole a := by
  funext j
  simp [write, writeTorn, hi, ha, whole]

variable {done : Nat → Fin (k + 1) → Bool}

theorem writeTorn_outside (hi : i < off ∨ off + pages.length ≤ i) :
    writeTorn file off pages done i = file i := by
  funext j
  unfold writeTorn
  split
  · rename_i h
    have hnone : pages[i - off]? = none := by
      rw [List.getElem?_eq_none]
      omega
    simp [hnone]
  · rfl

theorem write_outside (hi : i < off ∨ off + pages.length ≤ i) : write file off pages i = file i :=
  writeTorn_outside hi

theorem writeTorn_done (hi : off ≤ i) (ha : pages[i - off]? = some a)
    (hdone : ∀ j, done (i - off) j = true) : writeTorn file off pages done i = whole a := by
  funext j
  simp [writeTorn, hi, ha, hdone, whole]

theorem writeTorn_untouched (hdone : ∀ j, done (i - off) j = false) :
    writeTorn file off pages done i = file i := by
  funext j
  simp [writeTorn, hdone]

/-- Sectors written in ascending order leave complete new pages up to some page,
old pages after it, and at that page the old or the new image if it is complete
at all. -/
theorem writeTorn_inOrder [DecidableEq α] (file : Nat → Sectors k α) (off : Nat)
    (pages : List α) (m : Nat) :
    ∃ n, (m = 0 → n = 0) ∧ (k + 1 ≤ m → 1 ≤ n) ∧
      (∀ i a, i < n → pages[i]? = some a →
        writeTorn file off pages (firstSectors m) (off + i) = whole a) ∧
      ∀ i a, off + n ≤ i → (writeTorn file off pages (firstSectors m) i).image? = some a →
        (file i).image? = some a := by
  -- the pages before `q` are complete, `q` itself has the first `m % (k + 1)` sectors
  obtain ⟨q, hq⟩ : ∃ q, q = m / (k + 1) := ⟨_, rfl⟩
  have hsplit : (k + 1) * q + m % (k + 1) = m := by
    rw [hq]
    exact Nat.div_add_mod m (k + 1)
  have hrest : m % (k + 1) < k + 1 := Nat.mod_lt _ (Nat.succ_pos k)
  have hbefore : ∀ i, i < q → ∀ j : Fin (k + 1), firstSectors m i j = true := by
    intro i hi j
    have hstep : (k + 1) * (i + 1) ≤ (k + 1) * q := Nat.mul_le_mul_left _ hi
    have hj := j.isLt
    simp only [firstSectors, decide_eq_true_eq]
    rw [Nat.mul_add, Nat.mul_one] at hstep
    omega
  have hafter : ∀ i, q < i → ∀ j : Fin (k + 1), firstSectors m i j = false := by
    intro i hi j
    have hstep : (k + 1) * (q + 1) ≤ (k + 1) * i := Nat.mul_le_mul_left _ hi
    simp only [firstSectors, decide_eq_false_iff_not, Nat.not_lt]
    rw [Nat.mul_add, Nat.mul_one] at hstep
    omega
  have hnew : ∀ i a, i < q → pages[i]? = some a →
      writeTorn file off pages (firstSectors m) (off + i) = whole a := by
    intro i a hi ha
    apply writeTorn_done (Nat.le_add_right _ _) (by simpa using ha)
    intro j
    rw [Nat.add_sub_cancel_left]
    exact hbefore i hi j
  have hold : ∀ i, off + q < i → writeTorn file off pages (firstSectors m) i = file i := by
    intro i hi
    apply writeTorn_untouched
    exact hafter (i - off) (by omega)
  by_cases hmid : ∃ a, pages[q]? = some a ∧
      writeTorn file off pages (firstSectors m) (off + q) = whole a
  · -- the page in the middle came out complete and new
    obtain ⟨a, ha, hwhole⟩ := hmid
    by_cases hm : m = 0
    · refine ⟨0, fun _ => rfl, fun h => by omega, fun i _ hi => by omega, ?_⟩
      intro i b _ hb
      rwa [writeTorn_untouched] at hb
      intro j
      simp [firstSectors, hm]
    · refine ⟨q + 1, fun h => absurd h hm, fun _ => by omega, ?_, ?_⟩
      · intro i b hi hb
        rcases Nat.lt_succ_iff_lt_or_eq.mp hi with hi | rfl
        · exact hnew i b hi hb
        rw [ha] at hb
        cases hb
        exact hwhole
      · intro i b hi hb
        rwa [hold i (by omega)] at hb
  · refine ⟨q, ?_, ?_, hnew, ?_⟩
    · intro hm
      rw [hq, hm, Nat.zero_div]
    · intro hm
      rw [hq]
      exact Nat.div_pos hm (Nat.succ_pos k)
    · intro i b hi hb
      rcases Nat.lt_or_eq_of_le hi with hi | rfl
      · rwa [hold i hi] at hb
      -- sector 0 is old, or the page would hold the new image
      have hall := image?_eq_some.mp hb
      by_cases hzero : m % (k + 1) = 0
      · rwa [writeTorn_untouched] at hb
        intro j
        rw [Nat.add_sub_cancel_left]
        simp only [firstSectors, decide_eq_false_iff_not, Nat.not_lt]
        omega
      cases ha : pages[q]? with
      | none =>
        rwa [writeTorn_outside] at hb
        right
        have := List.getElem?_eq_none_iff.mp ha
        omega
      | some a =>
        refine absurd ⟨a, ha, ?_⟩ hmid
        have hfirst : writeTorn file off pages (firstSectors m) (off + q) 0 = a := by
          have hdone : firstSectors m q (0 : Fin (k + 1)) = true := by
            rw [firstSectors, decide_eq_true_eq, Fin.val_zero]
            omega
          simp [writeTorn, ha, hdone]
        rw [hall] at hfirst ⊢
        rw [show b = a from hfirst]

/-! ## Putting copies back -/

section Restore

variable {κ : Type*} (key : α → κ) (age : α → Nat)

/-- The page at `p` is a complete one of its own, at least as new as `n`. -/
def CompleteFrom (d : κ → Sectors k α) (p : κ) (n : Nat) : Prop :=
  ∃ a, d p = whole a ∧ key a = p ∧ n ≤ age a

/-- The complete pages of `d` are pages of their own keys. -/
def OwnPages (d : κ → Sectors k α) : Prop :=
  ∀ p a, d p = whole a → key a = p

variable {key age} {d : κ → Sectors k α} {p : κ} {n : Nat}

theorem CompleteFrom.mono {m : Nat}
    (h : CompleteFrom key age d p n) (hmn : m ≤ n) : CompleteFrom key age d p m := by
  obtain ⟨a, hd, hkey, hle⟩ := h
  exact ⟨a, hd, hkey, hmn.trans hle⟩

variable [DecidableEq α] [DecidableEq κ] (key age)

/-- Put the copy `a` at `p` if the page there is incomplete or older. -/
def restore (d : κ → Sectors k α) (p : κ) (a : α) : κ → Sectors k α :=
  match (d p).image? with
  | some cur => if age cur < age a then Function.update d p (whole a) else d
  | none => Function.update d p (whole a)

/-- Put back each copy at its own key, in order. -/
def restoreAll (d : κ → Sectors k α) (copies : List α) : κ → Sectors k α :=
  copies.foldl (fun d a => restore age d (key a) a) d

variable {key age}

theorem restore_other {q : κ} (h : q ≠ p) : restore age d p a q = d q := by
  unfold restore
  cases (d p).image? with
  | none => exact Function.update_of_ne h _ _
  | some cur =>
    by_cases hage : age cur < age a
    · simp only [if_pos hage]
      exact Function.update_of_ne h _ _
    · simp only [if_neg hage]

/-- A complete page only gets newer. -/
theorem CompleteFrom.restore (h : CompleteFrom key age d p n) :
    CompleteFrom key age (restore age d (key a) a) p n := by
  obtain ⟨cur, hd, hkey, hle⟩ := h
  by_cases hp : p = key a
  · subst hp
    unfold Sectors.restore
    rw [hd, image?_whole]
    simp only
    split
    · exact ⟨a, Function.update_self _ _ _, rfl, by omega⟩
    · exact ⟨cur, hd, hkey, hle⟩
  · exact ⟨cur, by rw [restore_other hp, hd], hkey, hle⟩

/-- After its own copy was put back a page is complete and at least as new. -/
theorem completeFrom_restore_self (d : κ → Sectors k α) (a : α)
    (hown : ∀ cur, d (key a) = whole cur → key cur = key a) :
    CompleteFrom key age (restore age d (key a) a) (key a) (age a) := by
  unfold Sectors.restore
  split
  · rename_i cur hcur
    have hwhole := image?_eq_some.mp hcur
    split
    · exact ⟨a, Function.update_self _ _ _, rfl, le_rfl⟩
    · exact ⟨cur, hwhole, hown cur hwhole, by omega⟩
  · exact ⟨a, Function.update_self _ _ _, rfl, le_rfl⟩

theorem restoreAll_keeps (copies : List α) : ∀ {d : κ → Sectors k α}, CompleteFrom key age d p n →
      CompleteFrom key age (restoreAll key age d copies) p n := by
  induction copies with
  | nil => exact fun h => h
  | cons a copies ih => exact fun h => ih h.restore

theorem OwnPages.restore (h : OwnPages key d) : OwnPages key (restore age d (key a) a) := by
  intro p b hb
  by_cases hp : p = key a
  · subst hp
    obtain ⟨c, hc, hkey, _⟩ : CompleteFrom key age (Sectors.restore age d (key a) a) (key a) (age a) :=
      completeFrom_restore_self d a fun cur hcur => h _ cur hcur
    rw [hb] at hc
    have : b = c := congrFun hc 0
    rwa [this]
  · rw [restore_other hp] at hb
    exact h p b hb

theorem restoreAll_covers (copies : List α) : ∀ {d : κ → Sectors k α}, OwnPages key d → a ∈ copies →
      CompleteFrom key age (restoreAll key age d copies) (key a) (age a) := by
  induction copies with
  | nil => exact nofun
  | cons b copies ih =>
    intro d hown hmem
    rcases List.mem_cons.mp hmem with rfl | hmem
    · exact restoreAll_keeps copies (completeFrom_restore_self d a fun cur hcur => hown _ cur hcur)
    · exact ih hown.restore hmem

/-- A complete page stays as it is if no copy of it is newer. -/
theorem restoreAll_unchanged {cur : α} (copies : List α) :
    ∀ {d : κ → Sectors k α}, d p = whole cur → (∀ a ∈ copies, key a = p → age a ≤ age cur) →
      restoreAll key age d copies p = d p := by
  induction copies with
  | nil => exact fun _ _ => rfl
  | cons a copies ih =>
    intro d hd hle
    have hsame : restore age d (key a) a p = d p := by
      by_cases hp : p = key a
      · have hnot : ¬age cur < age a := (hle a (.head _) hp.symm).not_gt
        subst hp
        unfold Sectors.restore
        rw [hd, image?_whole]
        simp only [if_neg hnot, hd]
      · exact restore_other hp
    have hrest : ∀ b ∈ copies, key b = p → age b ≤ age cur := fun b hb => hle b (.tail _ hb)
    exact (ih (hsame.trans hd) hrest).trans hsame

/-- What is at a page afterwards was there before or is one of its copies. -/
theorem restoreAll_cases (key : α → κ) (age : α → Nat) (p : κ) (copies : List α)
    (d : κ → Sectors k α) :
    restoreAll key age d copies p = d p ∨
      ∃ a ∈ copies, key a = p ∧ restoreAll key age d copies p = whole a := by
  induction copies generalizing d with
  | nil => exact .inl rfl
  | cons a copies ih =>
    have hone : restore age d (key a) a p = d p ∨
        key a = p ∧ restore age d (key a) a p = whole a := by
      by_cases hp : p = key a
      · subst hp
        unfold Sectors.restore
        cases (d (key a)).image? with
        | none => exact .inr ⟨rfl, Function.update_self _ _ _⟩
        | some cur =>
          by_cases hage : age cur < age a
          · right
            refine ⟨rfl, ?_⟩
            simp only [if_pos hage, Function.update_self]
          · left
            simp only [if_neg hage]
      · exact .inl (restore_other hp)
    rcases ih (restore age d (key a) a) with hsame | ⟨b, hb, hkey, hwhole⟩
    · rcases hone with hone | ⟨hkey, hone⟩
      · exact .inl (hsame.trans hone)
      · exact .inr ⟨a, .head _, hkey, hsame.trans hone⟩
    · exact .inr ⟨b, .tail _ hb, hkey, hwhole⟩

end Restore

end Sectors

end OpenGauss.Lib
