import Mathlib.Data.List.Basic
import Mathlib.Tactic.Common

/-!
# Stream codecs

Items are written one behind the other. What an item is written as may depend on a state
that both sides carry along. A decoder takes items off the front for as long as enough of
its input is left. If it can take off every single item, it can take off them all.
-/

namespace OpenGauss.Lib

variable {σ τ α β : Type*}

/-- The items one after the other, each in the state that those before it leave. -/
def encodeAll (enc : σ → τ → List β) (next : σ → τ → σ) : σ → List τ → List β
  | _, [] => []
  | s, t :: ts => enc s t ++ encodeAll enc next (next s t) ts

/-- Do-while over the items at the front of the input: another round follows if `need`
symbols are left. -/
def decodeLoop (need : Nat) (step : σ → List β → List α × σ × List β) : Nat → σ → List β → List α
  | 0, _, _ => []
  | fuel + 1, s, input =>
    let r := step s input
    r.1 ++ if need ≤ r.2.2.length then decodeLoop need step fuel r.2.1 r.2.2 else []

/-- The input `decodeLoop` leaves. -/
def decodeLeft (need : Nat) (step : σ → List β → List α × σ × List β) : Nat → σ → List β → List β
  | 0, _, input => input
  | fuel + 1, s, input =>
    let r := step s input
    if need ≤ r.2.2.length then decodeLeft need step fuel r.2.1 r.2.2 else r.2.2

/-- Each item can be coded in the state it is reached in. -/
def AllOk (Ok : σ → τ → Prop) (next : σ → τ → σ) : σ → List τ → Prop
  | _, [] => True
  | s, t :: ts => Ok s t ∧ AllOk Ok next (next s t) ts

theorem allOk_of_forall {P : τ → Prop} {next : σ → τ → σ} :
    ∀ {s : σ} {ts : List τ}, (∀ t ∈ ts, P t) → AllOk (fun _ => P) next s ts
  | _, [], _ => trivial
  | _, t :: _, h =>
    ⟨h t (.head _), allOk_of_forall fun u hu => h u (.tail _ hu)⟩

theorem encodeAll_const (f : τ → List β) (next : σ → τ → σ) :
    ∀ (s : σ) (ts : List τ), encodeAll (fun _ => f) next s ts = ts.flatMap f
  | _, [] => rfl
  | s, t :: ts => by rw [encodeAll, encodeAll_const f next _ ts, List.flatMap_cons]

/-- `step` takes one item off the input. -/
structure StepInverts (Ok : σ → τ → Prop) (enc : σ → τ → List β) (next : σ → τ → σ)
    (need : Nat) (step : σ → List β → List α × σ × List β) (out : σ → τ → List α) : Prop where
  pos : 0 < need
  length : ∀ {s t}, Ok s t → need ≤ (enc s t).length
  step : ∀ {s t} (rest : List β), Ok s t → step s (enc s t ++ rest) = (out s t, next s t, rest)

section Inverts

variable {Ok : σ → τ → Prop} {enc : σ → τ → List β} {next : σ → τ → σ} {need : Nat}
  {step : σ → List β → List α × σ × List β} {out : σ → τ → List α}

theorem StepInverts.length_le (h : StepInverts Ok enc next need step out) :
    ∀ {s : σ} {ts : List τ}, AllOk Ok next s ts → ts.length ≤ (encodeAll enc next s ts).length
  | _, [], _ => Nat.le_refl 0
  | s, t :: ts, hok => by
    have hlen := h.length hok.1
    have hpos := h.pos
    have ih := h.length_le hok.2
    rw [encodeAll, List.length_append, List.length_cons]
    omega

/-- The loop goes on for as long as an item is left. -/
theorem StepInverts.need_le_iff (h : StepInverts Ok enc next need step out) {s : σ} {ts : List τ}
    (hok : AllOk Ok next s ts) : need ≤ (encodeAll enc next s ts).length ↔ ts ≠ [] := by
  cases ts with
  | nil => exact iff_of_false (Nat.not_le.mpr h.pos) (absurd rfl)
  | cons t ts =>
    refine iff_of_true ?_ (List.cons_ne_nil t ts)
    rw [encodeAll, List.length_append]
    exact Nat.le_add_right_of_le (h.length hok.1)

/-- A decoder that takes off one item takes off all, and nothing is left. -/
theorem StepInverts.decode_encodeAll (h : StepInverts Ok enc next need step out) :
    ∀ {s : σ} {ts : List τ} {fuel : Nat}, ts ≠ [] → AllOk Ok next s ts → ts.length ≤ fuel →
      decodeLoop need step fuel s (encodeAll enc next s ts) = encodeAll out next s ts ∧
        decodeLeft need step fuel s (encodeAll enc next s ts) = []
  | _, [], _, hne, _, _ => absurd rfl hne
  | _, _ :: _, 0, _, _, hfuel => absurd hfuel (by simp)
  | s, t :: ts, fuel + 1, _, hok, hfuel => by
    rw [encodeAll, decodeLoop, decodeLeft, h.step _ hok.1, encodeAll]
    simp only [h.need_le_iff hok.2]
    by_cases hts : ts = []
    · rw [if_neg (not_not_intro hts), if_neg (not_not_intro hts), hts]
      exact ⟨rfl, rfl⟩
    · obtain ⟨hloop, hleft⟩ := h.decode_encodeAll hts hok.2 (Nat.le_of_succ_le_succ hfuel)
      rw [if_pos hts, if_pos hts, hloop]
      exact ⟨rfl, hleft⟩

end Inverts

/-! ## Strings of equal pieces -/

/-- The first `n` pieces of length `k`. -/
def chunks (k : Nat) : Nat → List β → List (List β)
  | 0, _ => []
  | n + 1, l => l.take k :: chunks k n (l.drop k)

theorem flatten_chunks (k n : Nat) (l : List β) (h : l.length = n * k) :
    (chunks k n l).flatten = l := by
  induction n generalizing l with
  | zero =>
    rw [Nat.zero_mul] at h
    rw [List.length_eq_zero_iff.mp h]
    rfl
  | succ n ih =>
    have hdrop : (l.drop k).length = n * k := by
      rw [List.length_drop, h, Nat.succ_mul, Nat.add_sub_cancel]
    rw [chunks, List.flatten_cons, ih _ hdrop, List.take_append_drop]

theorem length_of_mem_chunks {k n : Nat} {l c : List β} (h : l.length = n * k)
    (hc : c ∈ chunks k n l) : c.length = k := by
  induction n generalizing l with
  | zero => cases hc
  | succ n ih =>
    rw [Nat.succ_mul] at h
    rcases List.mem_cons.mp hc with hhead | htail
    · rw [hhead, List.length_take]
      omega
    apply ih _ htail
    rw [List.length_drop]
    omega

theorem chunks_flatMap (k : Nat) (f : τ → List β) (ts : List τ) (h : ∀ t ∈ ts, (f t).length = k) :
    chunks k ts.length (ts.flatMap f) = ts.map f := by
  induction ts with
  | nil => rfl
  | cons t ts ih =>
    have hhead : (f t).length = k := h t (.head _)
    rw [List.flatMap_cons, List.length_cons, chunks, List.take_left' hhead,
      List.drop_left' hhead, ih fun u hu => h u (.tail _ hu), List.map_cons]

end OpenGauss.Lib
