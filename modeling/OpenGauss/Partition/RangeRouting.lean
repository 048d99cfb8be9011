import Mathlib.Order.Compare
import Mathlib.Tactic.Common

/-!
# Routing a row to a range partition

`getRangePartitionOid` compares the key of a row with the boundaries of the partitions: the
last one first, then by halving. The boundaries were put in order by another comparison.
Both read one order of the keys, in which a null is above all values and MAXVALUE above
the null.
-/

namespace OpenGauss.Partition

open Std (TransCmp)

variable {α : Type} {constCompare : Nat → α → α → Ordering} {topClosed : Bool} {i j : Nat}

/-- A `Const *`: a null pointer, or a constant with its flags `constisnull`, `ismaxvalue`. -/
inductive Const (α : Type) where
  | absent
  | value (v : α)
  | null
  | maxValue

abbrev Key (α : Type) := Nat → Const α

/-- One column of either comparison, `.eq` where it goes on with the next. -/
def compareColumn (nullOrder : Ordering) (nullEqual : Bool) (constCompare : α → α → Ordering) :
    Const α → Const α → Except String Ordering
  | .absent, .absent => .error "NULL can not be compared with NULL"
  | .absent, _ => .ok .lt
  | _, .absent => .ok .gt
  | .maxValue, .maxValue => .ok .eq
  | .maxValue, _ => .ok .gt
  | _, .maxValue => .ok .lt
  | .null, .null =>
    if nullEqual then .ok .eq else .error "null value can not be compared with null value."
  | .null, _ => .ok nullOrder
  | _, .null => .ok nullOrder.swap
  | .value v, .value w => .ok (constCompare v w)

def compareColumns (nullOrder : Ordering) (nullEqual : Bool)
    (constCompare : Nat → α → α → Ordering) : Nat → Nat → Key α → Key α → Except String Ordering
  | 0, _, _, _ => .ok .eq
  | left + 1, i, k, b =>
    match compareColumn nullOrder nullEqual (constCompare i) (k i) (b i) with
    | .ok .eq => compareColumns nullOrder nullEqual constCompare left (i + 1) k b
    | done => done

/-- `nullsFirst` is `CheckPluginNullsPolicy`. -/
def partitionKeyCompareForRouting (nullsFirst : Bool) (constCompare : Nat → α → α → Ordering)
    (keyNums : Nat) (key boundary : Key α) : Except String Ordering :=
  compareColumns (if nullsFirst then .lt else .gt) false constCompare keyNums 0 key boundary

def partitonKeyCompare (constCompare : Nat → α → α → Ordering) (len : Nat) (nullEqual : Bool)
    (value1 value2 : Key α) : Except String Ordering :=
  compareColumns .gt nullEqual constCompare len 0 value1 value2

/-- The loop of `getRangePartitionOid` and the test behind it. -/
def semiSeek (compare : Nat → Except String Ordering) (topClosed : Bool)
    (minPartId maxPartId : Nat) : Except String Int :=
  if minPartId < maxPartId then
    match compare ((maxPartId + minPartId) / 2) with
    | .error e => .error e
    -- the loop is left with two different ends, so the test behind it fails
    | .ok .eq => .ok ((maxPartId + minPartId) / 2 + if topClosed then 1 else 0)
    | .ok .gt => semiSeek compare topClosed ((maxPartId + minPartId) / 2 + 1) maxPartId
    | .ok .lt => semiSeek compare topClosed minPartId ((maxPartId + minPartId) / 2)
  else if maxPartId = minPartId then .ok maxPartId
  else .ok (-1)
termination_by maxPartId - minPartId

/-- A map of range partitions with increasing boundaries. -/
structure RangePartitionMap (α : Type) where
  keyNums : Nat
  constCompare : Nat → α → α → Ordering
  rangeElementsNum : Nat
  boundary : Nat → Key α
  trans : ∀ i, TransCmp (constCompare i)
  pos : 0 < rangeElementsNum
  not_null : ∀ k < rangeElementsNum, ∀ i < keyNums, boundary k i ≠ .absent ∧ boundary k i ≠ .null
  increasing : ∀ i j, i < j → j < rangeElementsNum →
    partitonKeyCompare constCompare keyNums false (boundary i) (boundary j) = .ok .lt

namespace RangePartitionMap

/-- The key of a row against the boundary of a partition. -/
def routing (m : RangePartitionMap α) (key : Key α) (k : Nat) : Except String Ordering :=
  partitionKeyCompareForRouting false m.constCompare m.keyNums key (m.boundary k)

/-- What `getRangePartitionOid` stores in `partSeq`. -/
def getRangePartitionOid (m : RangePartitionMap α) (key : Key α) (topClosed : Bool) :
    Except String Int :=
  match m.routing key (m.rangeElementsNum - 1) with
  | .error e => .error e
  | .ok .eq => .ok (if topClosed then -1 else ↑(m.rangeElementsNum - 1))
  | .ok .gt => .ok (-1)
  | .ok .lt => semiSeek (m.routing key) topClosed 0 (m.rangeElementsNum - 1)

end RangePartitionMap

/-! ## The order of the keys -/

/-- The order of the constants: values, null, MAXVALUE. -/
def Const.order (constCompare : α → α → Ordering) : Const α → Const α → Ordering
  | .absent, .absent | .null, .null | .maxValue, .maxValue => .eq
  | .value v, .value w => constCompare v w
  | .absent, _ | .value _, .null | _, .maxValue => .lt
  | _, _ => .gt

def keyOrder (constCompare : Nat → α → α → Ordering) : Nat → Nat → Key α → Key α → Ordering
  | 0, _ => fun _ _ => .eq
  | left + 1, i => compareLex (fun k b => (k i).order (constCompare i) (b i))
      (keyOrder constCompare left (i + 1))

theorem transCmp_order (cmp : α → α → Ordering) [hcmp : TransCmp cmp] :
    TransCmp (Const.order cmp) where
  eq_swap {a b} := by
    cases a <;> cases b <;> first | rfl | exact hcmp.eq_swap
  isLE_trans {a b d} := by
    cases a <;> cases b <;> cases d <;>
      first | exact hcmp.isLE_trans | simp [Const.order]

theorem transCmp_keyOrder (hcmp : ∀ i, TransCmp (constCompare i)) :
    ∀ left i, TransCmp (keyOrder constCompare left i)
  | 0, _ => { eq_swap := rfl, isLE_trans := fun _ _ => rfl }
  | left + 1, i => by
    have := hcmp i
    have hcolumn := transCmp_order (constCompare i)
    have : TransCmp fun k b : Key α => (k i).order (constCompare i) (b i) :=
      { eq_swap := hcolumn.eq_swap, isLE_trans := hcolumn.isLE_trans }
    have := transCmp_keyOrder hcmp left (i + 1)
    exact inferInstanceAs (TransCmp (compareLex _ _))

/-- A comparison with a key without nulls answers by the order. -/
theorem compareColumns_eq (k b : Key α) : ∀ left i,
    (∀ j < i + left, b j ≠ .absent ∧ b j ≠ .null) →
      compareColumns .gt false constCompare left i k b = .ok (keyOrder constCompare left i k b)
  | 0, _, _ => rfl
  | left + 1, i, h => by
    have hcolumn : compareColumn .gt false (constCompare i) (k i) (b i) =
        .ok ((k i).order (constCompare i) (b i)) := by
      have := h i (by omega)
      cases k i <;> cases hb : b i <;> simp_all [compareColumn, Const.order]
    rw [compareColumns, keyOrder, compareLex, hcolumn]
    cases (k i).order (constCompare i) (b i) with
    | eq => exact compareColumns_eq k b left (i + 1) fun j hj => h j (by omega)
    | lt | gt => rfl

namespace RangePartitionMap

variable {m : RangePartitionMap α} {key : Key α}

def order (m : RangePartitionMap α) : Key α → Key α → Ordering :=
  keyOrder m.constCompare m.keyNums 0

instance : TransCmp m.order := transCmp_keyOrder m.trans m.keyNums 0

theorem routing_eq (m : RangePartitionMap α) (key : Key α) {k : Nat}
    (hk : k < m.rangeElementsNum) : m.routing key k = .ok (m.order key (m.boundary k)) :=
  compareColumns_eq key _ m.keyNums 0 fun j hj => m.not_null k hk j (by omega)

/-! ## The search -/

/-- The key is below a boundary, or at one that belongs to its partition. -/
def Below (m : RangePartitionMap α) (topClosed : Bool) (key : Key α) (k : Nat) : Prop :=
  m.order key (m.boundary k) = .lt ∨ topClosed = false ∧ m.order key (m.boundary k) = .eq

/-- The key lies between the boundary before partition `i` and its own. -/
structure InPartition (m : RangePartitionMap α) (topClosed : Bool) (key : Key α) (i : Nat) :
    Prop where
  lt : i < m.rangeElementsNum
  below : m.Below topClosed key i
  above : ∀ j, j + 1 = i → ¬m.Below topClosed key j

theorem Below.ne_gt (h : m.Below topClosed key i) : m.order key (m.boundary i) ≠ .gt := by
  rcases h with h | ⟨-, h⟩ <;> simp [h]

theorem order_next (h : m.order key (m.boundary i) ≠ .gt) (hij : i < j)
    (hj : j < m.rangeElementsNum) : m.order key (m.boundary j) = .lt := by
  have hlt := (m.routing_eq (m.boundary i) hj).symm.trans (m.increasing i j hij hj)
  exact TransCmp.lt_of_isLE_of_lt (Ordering.isLE_iff_ne_gt.mpr h) (Except.ok.inj hlt)

theorem order_before (h : m.order key (m.boundary j) ≠ .lt) (hij : i < j)
    (hj : j < m.rangeElementsNum) : m.order key (m.boundary i) = .gt := by
  by_contra hne
  exact h (order_next hne hij hj)

theorem Below.mono (h : m.Below topClosed key i) (hij : i ≤ j) (hj : j < m.rangeElementsNum) :
    m.Below topClosed key j := by
  rcases Nat.lt_or_eq_of_le hij with hlt | rfl
  · exact .inl (order_next h.ne_gt hlt hj)
  · exact h

theorem InPartition.le (h : m.InPartition topClosed key i) (hbelow : m.Below topClosed key j) :
    i ≤ j := by
  by_contra hlt
  have hi := h.lt
  exact h.above (i - 1) (by omega) (hbelow.mono (by omega) (by omega))

/-- The boundary the key is at belongs to its own partition or to the next one. -/
theorem inPartition_of_eq (hi : i < m.rangeElementsNum) (h : m.order key (m.boundary i) = .eq)
    (hnext : topClosed = true → i + 1 < m.rangeElementsNum) :
    m.InPartition topClosed key (i + if topClosed then 1 else 0) := by
  cases topClosed with
  | true =>
    refine ⟨hnext rfl, .inl (order_next (by simp [h]) (Nat.lt_succ_self i) (hnext rfl)), ?_⟩
    rintro j hj
    obtain rfl := Nat.succ.inj hj
    simp [Below, h]
  | false =>
    refine ⟨hi, .inr ⟨rfl, h⟩, fun j (hj : j + 1 = i) hbelow => ?_⟩
    exact hbelow.ne_gt (order_before (by simp [h]) (by omega) hi)

/-- The key is above all boundaries before the interval and below its last one. -/
theorem semiSeek_spec (lo hi : Nat) (hle : lo ≤ hi) (hhi : hi < m.rangeElementsNum)
    (hlo : ∀ j < lo, m.order key (m.boundary j) = .gt)
    (hlast : m.order key (m.boundary hi) = .lt) : ∃ i : Nat,
      semiSeek (m.routing key) topClosed lo hi = .ok i ∧ m.InPartition topClosed key i := by
  rw [semiSeek]
  by_cases hlt : lo < hi
  · have hmid : (hi + lo) / 2 < m.rangeElementsNum := by omega
    rw [if_pos hlt, m.routing_eq key hmid]
    cases ho : m.order key (m.boundary ((hi + lo) / 2)) with
    | lt => exact semiSeek_spec lo _ (by omega) hmid hlo ho
    | eq =>
      refine ⟨_, ?_, inPartition_of_eq hmid ho (by omega)⟩
      cases topClosed <;> rfl
    | gt =>
      refine semiSeek_spec _ hi (by omega) hhi (fun j hj => ?_) hlast
      rcases Nat.lt_succ_iff_lt_or_eq.mp hj with hj | rfl
      · exact order_before (by simp [ho]) hj hmid
      · exact ho
  · obtain rfl : lo = hi := by omega
    rw [if_neg hlt, if_pos rfl]
    exact ⟨lo, rfl, hhi, .inl hlast, fun j hj h => h.ne_gt (hlo j (by omega))⟩
termination_by hi - lo

theorem getRangePartitionOid_cases (m : RangePartitionMap α) (key : Key α) (topClosed : Bool) :
    (∃ i : Nat, m.getRangePartitionOid key topClosed = .ok i ∧ m.InPartition topClosed key i) ∨
    m.getRangePartitionOid key topClosed = .ok (-1) ∧
      ¬m.Below topClosed key (m.rangeElementsNum - 1) := by
  have hlast := Nat.sub_one_lt_of_lt m.pos
  rw [getRangePartitionOid, m.routing_eq key hlast]
  cases ho : m.order key (m.boundary (m.rangeElementsNum - 1)) with
  | lt => exact .inl (semiSeek_spec 0 _ (Nat.zero_le _) hlast nofun ho)
  | gt => exact .inr ⟨rfl, fun h => h.ne_gt ho⟩
  | eq =>
    cases topClosed with
    | true => exact .inr ⟨rfl, by simp [Below, ho]⟩
    | false => exact .inl ⟨_, rfl, inPartition_of_eq hlast ho nofun⟩

/-- A row is routed to the only partition its key lies in, or to none if the key is not below
the last boundary. No row with a higher key is in an earlier partition. -/
theorem getRangePartitionOid_routes (m : RangePartitionMap α) (key : Key α) (topClosed : Bool) :
    (∀ k < m.rangeElementsNum, m.routing key k = .ok (m.order key (m.boundary k))) ∧
    ((∃ i : Nat, m.getRangePartitionOid key topClosed = .ok i ∧ m.InPartition topClosed key i ∧
        ∀ k, m.InPartition topClosed key k → k = i) ∨
      m.getRangePartitionOid key topClosed = .ok (-1)) ∧
    (m.getRangePartitionOid key topClosed = .ok (-1) ↔
      ¬m.Below topClosed key (m.rangeElementsNum - 1)) ∧
    ∀ key' (i : Nat), m.order key key' ≠ .gt → m.getRangePartitionOid key' topClosed = .ok i →
      ∃ k : Nat, k ≤ i ∧ m.getRangePartitionOid key topClosed = .ok k := by
  have hcases := m.getRangePartitionOid_cases key topClosed
  have hlast : ∀ {i}, i < m.rangeElementsNum → m.Below topClosed key i →
      m.Below topClosed key (m.rangeElementsNum - 1) := fun hi h => h.mono (by omega) (by omega)
  refine ⟨fun k hk => m.routing_eq key hk, hcases.imp (fun ⟨i, hi, hin⟩ => ⟨i, hi, hin,
    fun k hk => Nat.le_antisymm (hk.le hin.below) (hin.le hk.below)⟩) And.left, ?_, ?_⟩
  · rcases hcases with ⟨i, hi, hin⟩ | h
    · exact iff_of_false (fun h => by cases hi.symm.trans h) (not_not.mpr (hlast hin.lt hin.below))
    · exact iff_of_true h.1 h.2
  intro key' i hle hi
  rcases m.getRangePartitionOid_cases key' topClosed with ⟨k, hk, hin⟩ | ⟨hk, -⟩
  · cases hi.symm.trans hk
    have hkey := Ordering.isLE_iff_ne_gt.mpr hle
    have hbelow : m.Below topClosed key i := by
      rcases hin.below with hlt | ⟨hopen, heq⟩
      · exact .inl (TransCmp.lt_of_isLE_of_lt hkey hlt)
      · exact (Ordering.isLE_iff_eq_lt_or_eq_eq.mp (TransCmp.isLE_trans hkey
          (Ordering.isLE_of_eq_eq heq))).imp_right fun h => ⟨hopen, h⟩
    rcases hcases with ⟨j, hj, hjn⟩ | ⟨-, hnot⟩
    · exact ⟨j, hjn.le hbelow, hj⟩
    · exact absurd (hlast hin.lt hbelow) hnot
  · cases hi.symm.trans hk

/-- A partition below 10 and one for the rest. -/
def belowTen : RangePartitionMap Nat where
  keyNums := 1
  constCompare _ := compare
  rangeElementsNum := 2
  boundary k _ := if k = 0 then .value 10 else .maxValue
  trans _ := inferInstance
  pos := Nat.two_pos
  not_null k _ i _ := by split <;> simp
  increasing i j hij hj := by
    obtain ⟨rfl, rfl⟩ : i = 0 ∧ j = 1 := by omega
    rfl

example : (belowTen.getRangePartitionOid fun _ => .value 10) true = .ok 1 := by
  simp +decide [getRangePartitionOid, semiSeek, routing, belowTen]

end RangePartitionMap

end OpenGauss.Partition
