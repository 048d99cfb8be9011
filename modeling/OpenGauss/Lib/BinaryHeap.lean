import Mathlib.Data.List.Perm.Basic
import Mathlib.Data.List.Nodup
import Mathlib.Logic.Equiv.Basic
import Mathlib.Tactic.Common
import Mathlib.Order.Basic

/-!
# Binary heaps in an array

The items are at positions `1` to `n`, the parent of `i` is at `i / 2`, and no item
has a larger key than its parent. Both loops move a hole through the array and put
the item into it at the end. What they do is said about the array with the item
already in the hole: a move then swaps two neighbours.
-/

namespace OpenGauss.Lib.BinaryHeap

open Function (update update_of_ne update_self)
open List.Perm (refl)
open Equiv (swap)

variable {α : Type*} (key : α → Nat)
variable {n : Nat} {a : Nat → α}

/-- The items of the first `n` positions. -/
def items (a : Nat → α) (n : Nat) : List α := (List.range' 1 n).map a

def Ordered (a : Nat → α) (n : Nat) : Prop :=
  ∀ k, 2 ≤ k → k ≤ n → key (a k) ≤ key (a (k / 2))

def siftUp (x : α) : Nat → (Nat → α) → Nat → Nat → α
  | 0, a, i => update a i x
  | fuel + 1, a, i =>
    if i ≠ 1 ∧ key (a (i / 2)) < key x then
      siftUp x fuel (update a i (a (i / 2))) (i / 2)
    else update a i x

/-- The child with the larger key, the left one where they are equal. -/
def largerChild (a : Nat → α) (n i : Nat) : Nat :=
  if 2 * i < n ∧ key (a (2 * i)) < key (a (2 * i + 1)) then 2 * i + 1 else 2 * i

def siftDown (x : α) (n : Nat) : Nat → (Nat → α) → Nat → Nat → α
  | 0, a, i => update a i x
  | fuel + 1, a, i =>
    if 2 * i ≤ n ∧ key x < key (a (largerChild key a n i)) then
      siftDown x n fuel (update a i (a (largerChild key a n i))) (largerChild key a n i)
    else update a i x

/-- Puts an item behind the first `n`. -/
def push (a : Nat → α) (n : Nat) (x : α) : Nat → α := siftUp key x n a (n + 1)

/-- Takes the first of `n` items away: the last one is put into the hole. -/
def pop (a : Nat → α) (n : Nat) : Nat → α := siftDown key (a n) (n - 1) n a 1

variable {key}

/-! ## The items -/

theorem items_succ (a : Nat → α) (n : Nat) : items a (n + 1) = items a n ++ [a (n + 1)] := by
  rw [items, List.range'_concat, List.map_append, items]
  simp [Nat.add_comm]

theorem items_eq_cons (a : Nat → α) (n : Nat) :
    items a (n + 1) = a 1 :: (List.range' 2 n).map a := by
  rw [items, List.range'_succ]
  rfl

theorem items_congr {b : Nat → α} (h : ∀ k, 1 ≤ k → k ≤ n → a k = b k) : items a n = items b n := by
  refine List.map_congr_left fun k hk => ?_
  have := List.mem_range'_1.mp hk
  exact h k this.1 (by omega)

theorem items_move (a : Nat → α) {i j : Nat} (x : α) (hi : 1 ≤ i ∧ i ≤ n) (hj : 1 ≤ j ∧ j ≤ n)
    (hij : i ≠ j) :
    (items (update (update a i (a j)) j x) n).Perm (items (update a i x) n) := by
  have hswap : update (update a i (a j)) j x = update a i x ∘ swap i j := by
    funext k
    by_cases hki : k = i
    · subst hki
      simp [update_of_ne hij, update_of_ne hij.symm]
    by_cases hkj : k = j
    · subst hkj
      simp
    · simp [update_of_ne, hki, hkj, Equiv.swap_apply_of_ne_of_ne]
  have hperm : ((List.range' 1 n).map (swap i j)).Perm (List.range' 1 n) := by
    refine (List.perm_ext_iff_of_nodup ?_ List.nodup_range').mpr fun k => ?_
    · exact List.Nodup.map (swap i j).injective List.nodup_range'
    · rw [List.mem_map, List.mem_range'_1]
      have hmem : ∀ m, 1 ≤ m ∧ m < 1 + n → 1 ≤ swap i j m ∧ swap i j m < 1 + n := by
        intro m hm
        rcases eq_or_ne m i with rfl | hmi
        · rw [Equiv.swap_apply_left]
          omega
        rcases eq_or_ne m j with rfl | hmj
        · rw [Equiv.swap_apply_right]
          omega
        · rw [Equiv.swap_apply_of_ne_of_ne hmi hmj]
          exact hm
      constructor
      · rintro ⟨m, hm, rfl⟩
        exact hmem m (List.mem_range'_1.mp hm)
      · intro hk
        exact ⟨swap i j k, List.mem_range'_1.mpr (hmem k hk), Equiv.swap_apply_self i j k⟩
  rw [hswap, items, ← List.map_map]
  exact hperm.map _

variable (key) in
theorem largerChild_cases (a : Nat → α) (n i : Nat) :
    largerChild key a n i = 2 * i ∨ largerChild key a n i = 2 * i + 1 ∧ 2 * i < n := by
  unfold largerChild
  split
  · rename_i h
    exact .inr ⟨rfl, h.1⟩
  · exact .inl rfl

variable (key) in
theorem perm_siftUp (x : α) (n fuel : Nat) (a : Nat → α) (i : Nat) (h1 : 1 ≤ i) (hn : i ≤ n) :
    (items (siftUp key x fuel a i) n).Perm (items (update a i x) n) := by
  induction fuel generalizing a i with
  | zero => exact refl _
  | succ fuel ih =>
    rw [siftUp]
    split
    · rename_i h
      refine (ih _ _ (by omega) (by omega)).trans ?_
      exact items_move a x ⟨h1, hn⟩ ⟨by omega, by omega⟩ (by omega)
    · exact refl _

variable (key) in
theorem perm_siftDown (x : α) (n fuel : Nat) (a : Nat → α) (i : Nat) (h1 : 1 ≤ i) (hn : i ≤ n) :
    (items (siftDown key x n fuel a i) n).Perm (items (update a i x) n) := by
  induction fuel generalizing a i with
  | zero => exact refl _
  | succ fuel ih =>
    rw [siftDown]
    split
    · rename_i h
      have hc := largerChild_cases key a n i
      refine (ih _ _ (by omega) (by omega)).trans ?_
      exact items_move a x ⟨h1, hn⟩ ⟨by omega, by omega⟩ (by omega)
    · exact refl _

/-! ## The order -/

/-- In order but for the item at `i` and its parent; the children of `i` are in order
with that parent too. -/
structure OrderedBelow (key : α → Nat) (b : Nat → α) (n i : Nat) : Prop where
  rest : ∀ k, 2 ≤ k → k ≤ n → k ≠ i → key (b k) ≤ key (b (k / 2))
  grand : ∀ k, k ≤ n → k / 2 = i → i ≠ 1 → key (b k) ≤ key (b (i / 2))

/-- In order but for the item at `i` and its children; these are in order with the
parent of `i`. -/
structure OrderedAbove (key : α → Nat) (b : Nat → α) (n i : Nat) : Prop where
  rest : ∀ k, 2 ≤ k → k ≤ n → k / 2 ≠ i → key (b k) ≤ key (b (k / 2))
  grand : ∀ k, k ≤ n → k / 2 = i → i ≠ 1 → key (b k) ≤ key (b (i / 2))

theorem moved_at (a : Nat → α) (x y : α) {i j : Nat} (hij : i ≠ j) :
    (∀ k, k ≠ i → k ≠ j → update (update a i y) j x k = a k) ∧ update (update a i y) j x i = y :=
  ⟨fun _ hki hkj => by rw [update_of_ne hkj, update_of_ne hki], by rw [update_of_ne hij, update_self]⟩

theorem OrderedBelow.move {i : Nat} {x : α} (hi : 2 ≤ i) (hn : i ≤ n)
    (hlt : key (a (i / 2)) < key x) (h : OrderedBelow key (update a i x) n i) :
    OrderedBelow key (update (update a i (a (i / 2))) (i / 2) x) n (i / 2) := by
  have hne : i / 2 ≠ i := by omega
  obtain ⟨hup, hati⟩ := moved_at a x (a (i / 2)) hne.symm
  have hrest : ∀ k, 2 ≤ k → k ≤ n → k ≠ i → k / 2 ≠ i → key (a k) ≤ key (a (k / 2)) := by
    intro k h2 hk hki hkp
    have := h.rest k h2 hk hki
    rwa [update_of_ne hki, update_of_ne hkp] at this
  have hgrand : ∀ k, k ≤ n → k / 2 = i → key (a k) ≤ key (a (i / 2)) := by
    intro k hk hkp
    have := h.grand k hk hkp (by omega)
    rwa [update_of_ne (by omega), update_of_ne hne] at this
  constructor
  · intro k h2 hk hkp
    by_cases hki : k = i
    · subst hki
      rw [hati, update_self]
      omega
    rw [hup k hki hkp]
    by_cases hpi : k / 2 = i
    · rw [hpi, hati]
      exact hgrand k hk hpi
    by_cases hpp : k / 2 = i / 2
    · -- the other child of the parent
      rw [hpp, update_self]
      have := hrest k h2 hk hki hpi
      rw [hpp] at this
      omega
    · rw [hup (k / 2) hpi hpp]
      exact hrest k h2 hk hki hpi
  · intro k hk hkp h1
    have hq : key (a (i / 2)) ≤ key (a (i / 2 / 2)) :=
      hrest (i / 2) (by omega) (by omega) hne (by omega)
    rw [hup (i / 2 / 2) (by omega) (by omega)]
    by_cases hki : k = i
    · subst hki
      rw [hati]
      exact hq
    rw [hup k hki (by omega)]
    have := hrest k (by omega) hk hki (by omega)
    rw [hkp] at this
    exact Nat.le_trans this hq

theorem ordered_siftUp (x : α) (n fuel : Nat) (a : Nat → α) (i : Nat) (h1 : 1 ≤ i) (hn : i ≤ n)
    (hfuel : i ≤ fuel + 1) (h : OrderedBelow key (update a i x) n i) :
    Ordered key (siftUp key x fuel a i) n := by
  induction fuel generalizing a i with
  | zero => exact fun k h2 hk => h.rest k h2 hk (by omega)
  | succ fuel ih =>
    rw [siftUp]
    split
    · rename_i hmove
      exact ih _ _ (by omega) (by omega) (by omega) (h.move (by omega) hn hmove.2)
    rename_i hstop
    intro k h2 hk
    by_cases hki : k = i
    · subst hki
      rw [update_self, update_of_ne (by omega)]
      by_contra hlt
      exact hstop ⟨by omega, by omega⟩
    · exact h.rest k h2 hk hki

variable (key) in
theorem le_largerChild (a : Nat → α) {i k : Nat} (hk : k ≤ n) (hp : k / 2 = i) :
    key (a k) ≤ key (a (largerChild key a n i)) := by
  unfold largerChild
  have : k = 2 * i ∨ k = 2 * i + 1 := by omega
  split
  · rename_i h
    rcases this with rfl | rfl
    · omega
    · exact Nat.le_refl _
  · rename_i h
    rcases this with rfl | rfl
    · exact Nat.le_refl _
    · by_contra hlt
      exact h ⟨by omega, by omega⟩

theorem OrderedAbove.move {i c : Nat} {x : α} (hi : 1 ≤ i) (hc : c ≤ n) (hp : c / 2 = i)
    (hlt : key x < key (a c)) (hmax : ∀ k, k ≤ n → k / 2 = i → key (a k) ≤ key (a c))
    (h : OrderedAbove key (update a i x) n i) :
    OrderedAbove key (update (update a i (a c)) c x) n c := by
  have hne : i ≠ c := by omega
  obtain ⟨hup, hati⟩ := moved_at a x (a c) hne
  have hrest : ∀ k, 2 ≤ k → k ≤ n → k ≠ i → k / 2 ≠ i → key (a k) ≤ key (a (k / 2)) := by
    intro k h2 hk hki hkp
    have := h.rest k h2 hk hkp
    rwa [update_of_ne hki, update_of_ne hkp] at this
  constructor
  · intro k h2 hk hkc
    by_cases hki : k = i
    · -- the larger child is in order with the parent of `i`
      subst hki
      have := h.grand c hc hp (by omega)
      rw [update_of_ne hne.symm, update_of_ne (by omega)] at this
      rw [hati, hup (k / 2) (by omega) (by omega)]
      exact this
    · by_cases hkp : k / 2 = i
      · rw [hkp, hati]
        by_cases hkc' : k = c
        · subst hkc'
          rw [update_self]
          omega
        · rw [hup k hki hkc']
          exact hmax k hk hkp
      · rw [hup k hki (by omega), hup (k / 2) hkp hkc]
        exact hrest k h2 hk hki hkp
  · intro k hk hkc h1
    rw [hup k (by omega) (by omega), hp, hati]
    have := hrest k (by omega) hk (by omega) (by omega)
    rwa [hkc] at this

theorem ordered_siftDown (x : α) (n fuel : Nat) (a : Nat → α) (i : Nat) (h1 : 1 ≤ i)
    (hfuel : n ≤ fuel + i) (h : OrderedAbove key (update a i x) n i) :
    Ordered key (siftDown key x n fuel a i) n := by
  induction fuel generalizing a i with
  | zero => exact fun k h2 hk => h.rest k h2 hk (by omega)
  | succ fuel ih =>
    have hc := largerChild_cases key a n i
    rw [siftDown]
    split
    · rename_i hmove
      refine ih _ _ (by omega) (by omega) ?_
      exact h.move h1 (by omega) (by omega) hmove.2 fun k hk hp => le_largerChild key a hk hp
    rename_i hstop
    intro k h2 hk
    by_cases hkp : k / 2 = i
    · have := le_largerChild key a hk hkp
      rw [hkp, update_self, update_of_ne (by omega)]
      by_contra hlt
      exact hstop ⟨by omega, by omega⟩
    · exact h.rest k h2 hk hkp

/-! ## Push and pop -/

theorem perm_push (a : Nat → α) (n : Nat) (x : α) :
    (items (push key a n x) (n + 1)).Perm (x :: items a n) := by
  refine (perm_siftUp key x (n + 1) n a (n + 1) (by omega) (Nat.le_refl _)).trans ?_
  rw [items_succ, update_self, items_congr (b := a) fun k _ hk => update_of_ne (by omega) _ _]
  exact List.perm_append_singleton x _

theorem ordered_push (x : α) (h : Ordered key a n) : Ordered key (push key a n x) (n + 1) := by
  refine ordered_siftUp x (n + 1) n a (n + 1) (by omega) (Nat.le_refl _) (Nat.le_refl _) ⟨?_, ?_⟩
  · intro k h2 hk hne
    rw [update_of_ne hne, update_of_ne (by omega)]
    exact h k h2 (by omega)
  · intro k hk hp
    omega

theorem perm_pop (a : Nat → α) (hn : 0 < n) :
    (a 1 :: items (pop key a n) (n - 1)).Perm (items a n) := by
  obtain ⟨m, rfl⟩ : ∃ m, n = m + 1 := ⟨n - 1, by omega⟩
  rw [Nat.add_sub_cancel]
  cases m with
  | zero => exact refl _
  | succ m =>
    have hsift := perm_siftDown key (a (m + 2)) (m + 1) (m + 2) a 1 (Nat.le_refl _) (by omega)
    rw [items_eq_cons (update _ _ _), update_self] at hsift
    have hcongr : (List.range' 2 m).map (update a 1 (a (m + 2))) = (List.range' 2 m).map a := by
      refine List.map_congr_left fun k hk => update_of_ne ?_ _ _
      have := List.mem_range'_1.mp hk
      omega
    rw [hcongr] at hsift
    refine (hsift.cons (a 1)).trans ?_
    rw [items_succ, items_eq_cons]
    exact ((List.perm_append_singleton (a (m + 2)) _).symm.cons (a 1))

theorem ordered_pop (h : Ordered key a n) : Ordered key (pop key a n) (n - 1) := by
  refine ordered_siftDown _ (n - 1) n a 1 (Nat.le_refl _) (by omega) ⟨?_, ?_⟩
  · intro k h2 hk hp
    rw [update_of_ne (by omega), update_of_ne hp]
    exact h k h2 (by omega)
  · intro k _ _ h1
    exact absurd rfl h1

theorem le_first (h : Ordered key a n) : ∀ k, 1 ≤ k → k ≤ n → key (a k) ≤ key (a 1) := by
  intro k
  induction k using Nat.strongRecOn with
  | ind k ih =>
    intro h1 hk
    by_cases hk1 : k = 1
    · subst hk1
      exact Nat.le_refl _
    · exact Nat.le_trans (h k (by omega) hk) (ih (k / 2) (by omega) (by omega) (by omega))

theorem le_first_of_mem (h : Ordered key a n) {x : α} (hx : x ∈ items a n) : key x ≤ key (a 1) := by
  obtain ⟨k, hk, rfl⟩ := List.mem_map.mp hx
  have := List.mem_range'_1.mp hk
  exact le_first h k this.1 (by omega)

end OpenGauss.Lib.BinaryHeap
