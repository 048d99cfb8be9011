import OpenGauss.Lib.Update
import Mathlib.Data.List.Nodup
import Mathlib.Data.List.Perm.Subperm
import Mathlib.Tactic.Common

/-!
# Open addressing with linear probing

A table of `n` slots without deletion. A key is looked for from its home slot on, round the
table, until it is met or a free slot is.
-/

namespace OpenGauss.Lib

open Function (update update_of_ne update_self)

variable {κ : Type*}

inductive Probe
  | found (p : Nat)
  | free (p : Nat)
  | exhausted
deriving DecidableEq

/-- At most `fuel` slots from slot `i` on. -/
def probeFrom [DecidableEq κ] (slot : Nat → Option κ) (n : Nat) (key : κ) : Nat → Nat → Probe
  | 0, _ => .exhausted
  | fuel + 1, i =>
    match slot i with
    | none => .free i
    | some key' =>
      if key' = key then .found i else probeFrom slot n key fuel ((i + 1) % n)

/-- Every key stands once, and no free slot lies between its home and the slot it stands in. -/
structure Probing (n : Nat) (slot : Nat → Option κ) (home : κ → Nat) : Prop where
  home_lt : ∀ key, home key < n
  once : ∀ {p q : Nat} {key : κ}, p < n → q < n → slot p = some key → slot q = some key → p = q
  path : ∀ {p : Nat} {key : κ}, p < n → slot p = some key →
    ∃ d < n, p = (home key + d) % n ∧ ∀ e < d, slot ((home key + e) % n) ≠ none

/-- What a probe of `fuel` slots, `d` slots away from `h`, says. -/
def ProbeSpec (slot : Nat → Option κ) (n : Nat) (key : κ) (h d fuel : Nat) : Probe → Prop
  | .found p => p < n ∧ slot p = some key
  | .free p => ∃ m, m < d + fuel ∧ p = (h + m) % n ∧ slot p = none ∧
      ∀ e < m, d ≤ e → slot ((h + e) % n) ≠ none ∧ slot ((h + e) % n) ≠ some key
  | .exhausted => ∀ e < d + fuel, d ≤ e → slot ((h + e) % n) ≠ none

theorem probeFrom_spec [DecidableEq κ] (slot : Nat → Option κ) {n : Nat} (hn : 0 < n) (key : κ)
    (h : Nat) : ∀ fuel d : Nat,
      ProbeSpec slot n key h d fuel (probeFrom slot n key fuel ((h + d) % n))
  | 0, d => fun e hlt hle => absurd hlt (by omega)
  | fuel + 1, d => by
    have hstep : ((h + d) % n + 1) % n = (h + (d + 1)) % n := by
      rw [Nat.mod_add_mod, Nat.add_assoc]
    have hrest := probeFrom_spec slot hn key h fuel (d + 1)
    rw [probeFrom]
    split
    · rename_i hfree
      exact ⟨d, by omega, rfl, hfree, fun e hlt hle => absurd hlt (by omega)⟩
    rename_i key' hkey'
    split
    · rename_i heq
      exact ⟨Nat.mod_lt _ hn, by rw [hkey', heq]⟩
    rename_i hne
    have hnot : slot ((h + d) % n) ≠ none ∧ slot ((h + d) % n) ≠ some key := by
      rw [hkey']
      exact ⟨Option.some_ne_none _, fun h => hne (Option.some.inj h)⟩
    rw [hstep]
    generalize probeFrom slot n key fuel ((h + (d + 1)) % n) = result at hrest ⊢
    cases result with
    | found p => exact hrest
    | free p =>
      obtain ⟨m, hm, hp, hfree, hbefore⟩ := hrest
      refine ⟨m, by omega, hp, hfree, ?_⟩
      intro e hlt hle
      rcases Nat.eq_or_lt_of_le hle with rfl | hgt
      · exact hnot
      · exact hbefore e hlt hgt
    | exhausted =>
      intro e hlt hle
      rcases Nat.eq_or_lt_of_le hle with rfl | hgt
      · exact hnot.1
      · exact hrest e (by omega) hgt

theorem exists_steps {n h p : Nat} (hp : p < n) (hh : h < n) : ∃ e < n, (h + e) % n = p := by
  by_cases hle : h ≤ p
  · refine ⟨p - h, by omega, ?_⟩
    rw [Nat.add_sub_cancel' hle, Nat.mod_eq_of_lt hp]
  refine ⟨n - h + p, by omega, ?_⟩
  have hsum : h + (n - h + p) = p + n := by omega
  rw [hsum, Nat.add_mod_right, Nat.mod_eq_of_lt hp]

section Invariant

variable [DecidableEq κ] {n : Nat} {slot : Nat → Option κ} {home : κ → Nat}

theorem Probing.probe_spec (h : Probing n slot home) (key : κ) :
    ProbeSpec slot n key (home key) 0 n (probeFrom slot n key n (home key)) := by
  have hlt := h.home_lt key
  have hspec := probeFrom_spec slot (Nat.zero_lt_of_lt hlt) key (home key) n 0
  rwa [Nat.add_zero, Nat.mod_eq_of_lt hlt] at hspec

theorem Probing.probe_ne_exhausted (h : Probing n slot home) {p : Nat} (hp : p < n)
    (hfree : slot p = none) (key : κ) : probeFrom slot n key n (home key) ≠ .exhausted := by
  intro hex
  have hspec := h.probe_spec key
  rw [hex] at hspec
  obtain ⟨e, he, rfl⟩ := exists_steps hp (h.home_lt key)
  exact hspec e (by omega) (Nat.zero_le e) hfree

/-- A key that a probe does not meet is not in the table. -/
theorem Probing.not_mem_of_free (h : Probing n slot home) {key : κ} {p : Nat}
    (hfree : probeFrom slot n key n (home key) = .free p) : ∀ q < n, slot q ≠ some key := by
  have hspec := h.probe_spec key
  rw [hfree] at hspec
  obtain ⟨m, -, hp, hnone, hbefore⟩ := hspec
  intro q hq hkey
  obtain ⟨d, -, hqd, hpath⟩ := h.path hq hkey
  rcases Nat.lt_trichotomy d m with hlt | heq | hgt
  · exact (hbefore d hlt (Nat.zero_le d)).2 (hqd ▸ hkey)
  · rw [hqd, heq, ← hp, hnone] at hkey
    cases hkey
  · exact hpath m hgt (hp ▸ hnone)

/-- The key goes into the free slot its probe ended at. -/
theorem Probing.insert (h : Probing n slot home) {key : κ} {p : Nat}
    (hfree : probeFrom slot n key n (home key) = .free p) :
    Probing n (update slot p (some key)) home := by
  have habsent := h.not_mem_of_free hfree
  have hspec := h.probe_spec key
  rw [hfree] at hspec
  obtain ⟨m, hm, hp, hnone, hbefore⟩ := hspec
  have hkeep : ∀ q, slot q ≠ none → update slot p (some key) q ≠ none :=
    update_cases (fun _ => Option.some_ne_none _) fun _ _ => id
  refine ⟨h.home_lt, ?_, ?_⟩
  · intro a b key' ha hb hkeya hkeyb
    rcases update_eq_cases hkeya with ⟨rfl, ⟨⟩⟩ | ⟨-, holda⟩
    · rcases update_eq_cases hkeyb with ⟨rfl, -⟩ | ⟨-, holdb⟩
      · rfl
      · exact absurd holdb (habsent b hb)
    · rcases update_eq_cases hkeyb with ⟨rfl, ⟨⟩⟩ | ⟨-, holdb⟩
      · exact absurd holda (habsent a ha)
      · exact h.once ha hb holda holdb
  · intro a key' ha hkeya
    rcases update_eq_cases hkeya with ⟨hap, ⟨⟩⟩ | ⟨-, hkeya⟩
    · exact ⟨m, by omega, hap.trans hp, fun e he => hkeep _ (hbefore e he (Nat.zero_le e)).1⟩
    · obtain ⟨d, hd, had, hpath⟩ := h.path ha hkeya
      exact ⟨d, hd, had, fun e he => hkeep _ (hpath e he)⟩

end Invariant

/-- A table with fewer keys than slots has a free one. -/
theorem Probing.exists_free {n : Nat} {slot : Nat → Option κ} {home : κ → Nat}
    (h : Probing n slot home) {keys : List κ}
    (hlt : keys.length < n) (hmem : ∀ {p key}, p < n → slot p = some key → key ∈ keys) :
    ∃ p < n, slot p = none := by
  by_contra hfull
  have hsome : ∀ p, p < n → ∃ key, slot p = some key := by
    intro p hp
    cases hslot : slot p with
    | none => exact absurd ⟨p, hp, hslot⟩ hfull
    | some key => exact ⟨key, rfl⟩
  have hnodup : ((List.range n).map slot).Nodup := by
    apply List.Nodup.map_on _ List.nodup_range
    intro p hp q hq hpq
    obtain ⟨key, hkey⟩ := hsome p (List.mem_range.mp hp)
    exact h.once (List.mem_range.mp hp) (List.mem_range.mp hq) hkey (hpq ▸ hkey)
  have hsubset : (List.range n).map slot ⊆ keys.map some := by
    intro o ho
    obtain ⟨p, hp, rfl⟩ := List.mem_map.mp ho
    obtain ⟨key, hkey⟩ := hsome p (List.mem_range.mp hp)
    rw [hkey]
    exact List.mem_map_of_mem (hmem (List.mem_range.mp hp) hkey)
  have hle := (List.subperm_of_subset hnodup hsubset).length_le
  rw [List.length_map, List.length_range, List.length_map] at hle
  omega

end OpenGauss.Lib
