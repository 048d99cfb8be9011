import Mathlib.Data.List.Basic
import Mathlib.Tactic

/-!
# Chains in an append-only log

Records of a log point back to earlier records; a pointer is a position
counted from one, zero ends a chain. The chain behind a pointer does not
change when the log grows, and it is cut at each of its members into what
comes before it and the chain behind its own pointer.
-/

namespace OpenGauss.Lib

variable {R : Type} (prev : R → Nat)
variable {log : List R} {p : Nat} {r : R}

/-- Every record points to an earlier one. -/
def Linked (log : List R) : Prop := ∀ (i : Nat) (r : R), log[i]? = some r → prev r ≤ i

/-- At most `bound` records behind the pointer `p`. -/
def chainUpTo (log : List R) : Nat → Nat → List (Nat × R)
  | 0, _ => []
  | bound + 1, p =>
    if p = 0 then []
    else
      match log[p - 1]? with
      | none => []
      | some r => (p, r) :: chainUpTo log bound (prev r)

/-- The chain behind `p`: pointers only decrease, so `p` bounds its length. -/
def chain (log : List R) (p : Nat) : List (Nat × R) := chainUpTo prev log p p

variable {prev}

theorem chainUpTo_zero (log : List R) (bound : Nat) : chainUpTo prev log bound 0 = [] := by
  cases bound <;> simp [chainUpTo]

theorem chainUpTo_congr (hlog : Linked prev log) {m n : Nat} (hm : p ≤ m) (hn : p ≤ n) :
    chainUpTo prev log m p = chainUpTo prev log n p := by
  induction m generalizing n p with
  | zero =>
    have hp : p = 0 := by omega
    rw [hp, chainUpTo_zero, chainUpTo_zero]
  | succ m ih =>
    cases n with
    | zero =>
      have hp : p = 0 := by omega
      rw [hp, chainUpTo_zero, chainUpTo_zero]
    | succ n =>
      simp only [chainUpTo]
      split
      · rfl
      split
      · rfl
      rename_i r hr
      have hle := hlog _ _ hr
      rw [ih (p := prev r) (n := n) (by omega) (by omega)]

@[simp] theorem chain_zero (log : List R) : chain prev log 0 = [] := rfl

variable (hlog : Linked prev log)

include hlog

theorem chain_cons (hp : p ≠ 0) (hr : log[p - 1]? = some r) :
    chain prev log p = (p, r) :: chain prev log (prev r) := by
  obtain ⟨q, rfl⟩ := Nat.exists_eq_succ_of_ne_zero hp
  have hle := hlog _ _ hr
  have hrest : chainUpTo prev log q (prev r) = chain prev log (prev r) :=
    chainUpTo_congr hlog (by simpa using hle) (le_refl _)
  simp only [chain, chainUpTo, Nat.succ_eq_add_one, Nat.add_eq_zero_iff, one_ne_zero, and_false,
    if_false] at hr ⊢
  rw [hr]
  simp only [hrest, chain]

/-- A pointer that names a record: the two cases a walk down a chain meets. -/
theorem chain_cases (hp : p ≤ log.length) : p = 0 ∨ ∃ r, p ≠ 0 ∧ log[p - 1]? = some r ∧
      chain prev log p = (p, r) :: chain prev log (prev r) ∧ prev r < p := by
  by_cases h0 : p = 0
  · exact .inl h0
  have hlt : p - 1 < log.length := by omega
  have hr : log[p - 1]? = some log[p - 1] := List.getElem?_eq_getElem hlt
  refine .inr ⟨_, h0, hr, chain_cons hlog h0 hr, ?_⟩
  have hle := hlog _ _ hr
  omega

/-- Induction down the chain behind a pointer of the log. -/
theorem chain_induction {motive : Nat → Prop} (nil : motive 0)
    (cons : ∀ p r, p ≠ 0 → log[p - 1]? = some r →
      chain prev log p = (p, r) :: chain prev log (prev r) → prev r < p →
      motive (prev r) → motive p) : ∀ p, p ≤ log.length → motive p := by
  intro p
  induction p using Nat.strong_induction_on with
  | _ p ih =>
    intro hp
    rcases chain_cases hlog hp with rfl | ⟨r, h0, hr, hchain, hlt⟩
    · exact nil
    · exact cons p r h0 hr hchain hlt (ih _ hlt (by omega))

theorem mem_chain (hp : p ≤ log.length) {q : Nat}
    (hq : (q, r) ∈ chain prev log p) : q ≠ 0 ∧ q ≤ p ∧ log[q - 1]? = some r := by
  revert hq
  refine chain_induction (motive := fun p => (q, r) ∈ chain prev log p →
    q ≠ 0 ∧ q ≤ p ∧ log[q - 1]? = some r) hlog (by simp) ?_ p hp
  intro p r' h0 hr hchain hlt ih hmem
  rw [hchain, List.mem_cons] at hmem
  rcases hmem with heq | hmem
  · simp only [Prod.mk.injEq] at heq
    exact ⟨heq.1 ▸ h0, heq.1.le, by rw [heq.1, heq.2]; exact hr⟩
  · obtain ⟨hq0, hqle, hqr⟩ := ih hmem
    exact ⟨hq0, by omega, hqr⟩

theorem chain_pairwise (hp : p ≤ log.length) :
    (chain prev log p).Pairwise (fun a b => b.1 < a.1) := by
  refine chain_induction (motive := fun p => (chain prev log p).Pairwise (fun a b => b.1 < a.1))
    hlog (by simp) ?_ p hp
  intro p r h0 hr hchain hlt ih
  rw [hchain, List.pairwise_cons]
  refine ⟨fun b hb => ?_, ih⟩
  have hlt' := hlog _ _ hr
  have hlen : p - 1 < log.length := (List.getElem?_eq_some_iff.mp hr).1
  have hle : b.1 ≤ prev r := (mem_chain hlog (by omega) hb).2.1
  show b.1 < p
  omega

theorem chain_split (hp : p ≤ log.length) {q : Nat} (hq : (q, r) ∈ chain prev log p) :
    ∃ front, chain prev log p = front ++ (q, r) :: chain prev log (prev r) := by
  revert hq
  refine chain_induction (motive := fun p => (q, r) ∈ chain prev log p →
    ∃ front, chain prev log p = front ++ (q, r) :: chain prev log (prev r)) hlog (by simp) ?_ p hp
  intro p r' h0 hr hchain hlt ih hmem
  rw [hchain, List.mem_cons] at hmem
  rcases hmem with heq | hmem
  · simp only [Prod.mk.injEq] at heq
    refine ⟨[], ?_⟩
    rw [hchain, heq.1, heq.2, List.nil_append]
  · obtain ⟨front, hfront⟩ := ih hmem
    exact ⟨(p, r') :: front, by rw [hchain, hfront, List.cons_append]⟩

theorem linked_append (hr : prev r ≤ log.length) : Linked prev (log ++ [r]) := by
  intro i r' hi
  rw [List.getElem?_append] at hi
  split at hi
  · exact hlog i r' hi
  rename_i hge
  obtain ⟨hlt, heq⟩ := List.getElem?_eq_some_iff.mp hi
  have hi0 : i - log.length = 0 := by simpa using hlt
  simp only [hi0, List.getElem_cons_zero] at heq
  rw [← heq]
  omega

theorem chain_append (hr : prev r ≤ log.length) (hp : p ≤ log.length) :
    chain prev (log ++ [r]) p = chain prev log p := by
  refine chain_induction (motive := fun p => chain prev (log ++ [r]) p = chain prev log p)
    hlog (by simp) ?_ p hp
  intro p r' h0 hr' hchain hlt ih
  have hlen : p - 1 < log.length := (List.getElem?_eq_some_iff.mp hr').1
  have hnew : (log ++ [r])[p - 1]? = some r' := by
    rw [List.getElem?_append_left hlen, hr']
  rw [chain_cons (linked_append hlog hr) h0 hnew, hchain, ih]

theorem chain_append_self (hr : prev r ≤ log.length) :
    chain prev (log ++ [r]) (log.length + 1) = (log.length + 1, r) :: chain prev log (prev r) := by
  have hget : (log ++ [r])[log.length + 1 - 1]? = some r := by simp
  rw [chain_cons (linked_append hlog hr) (by omega) hget, chain_append hlog hr hr]

end OpenGauss.Lib
