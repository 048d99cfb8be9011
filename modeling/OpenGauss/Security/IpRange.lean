import Mathlib.Algebra.Ring.Nat
import Mathlib.Data.List.Induction
import Mathlib.Data.Set.Lattice
import Mathlib.Order.CompletePartialOrder
import Mathlib.Tactic.SplitIfs

/-!
# Lists of IP ranges

`IPRange` keeps the addresses of a security label as a list of ranges. A range is
added by growing it over the ranges it meets and taken out by cutting each range.

The comparison of two addresses is not an order: it holds if the upper or the lower
half is smaller. Among IPv4 addresses, whose upper half is zero, it is the order of
the lower half, and `num` reads that half as a number.
-/

namespace OpenGauss.Security

/-! ## Addresses -/

structure IPV6 where
  a : BitVec 32
  b : BitVec 32
  c : BitVec 32
  d : BitVec 32
  deriving DecidableEq

namespace IPV6

def lower (ip : IPV6) : BitVec 64 := ip.b ++ ip.a

def upper (ip : IPV6) : BitVec 64 := ip.d ++ ip.c

def lt (lhs rhs : IPV6) : Bool := lhs.upper.ult rhs.upper || lhs.lower.ult rhs.lower

def gt (lhs rhs : IPV6) : Bool := rhs.lt lhs

def le (lhs rhs : IPV6) : Bool := !lhs.gt rhs

def ge (lhs rhs : IPV6) : Bool := !lhs.lt rhs

/-- `std::max` and `std::min` over the comparison. -/
def max (x y : IPV6) : IPV6 := if x.lt y then y else x

def min (x y : IPV6) : IPV6 := if y.lt x then y else x

/-- The address whose lower half is an `int`. -/
def ofInt (i : Int) : IPV6 :=
  ⟨(BitVec.ofInt 64 i).setWidth 32, (BitVec.ofInt 64 i >>> 32).setWidth 32, 0, 0⟩

/-- `operator+`: IPv4 addresses wrap around in their last word. -/
def add (lhs rhs : IPV6) : IPV6 :=
  if lhs.b = 0x0000FFFF#32 then ⟨lhs.a + rhs.a, 0x0000FFFF, 0, 0⟩
  else
    let t₀ := lhs.a.setWidth 64 + rhs.a.setWidth 64
    let t₁ := lhs.b.setWidth 64 + rhs.b.setWidth 64 + t₀ >>> 32
    let t₂ := lhs.c.setWidth 64 + rhs.c.setWidth 64 + t₁ >>> 32
    let t₃ := lhs.d.setWidth 64 + rhs.d.setWidth 64 + t₂ >>> 32
    ⟨t₀.setWidth 32, t₁.setWidth 32, t₂.setWidth 32, t₃.setWidth 32⟩

/-- `operator-`, with the borrow in the sign bit. -/
def sub (lhs rhs : IPV6) : IPV6 :=
  if lhs.b = 0x0000FFFF#32 then ⟨lhs.a - rhs.a, 0x0000FFFF, 0, 0⟩
  else
    let t₀ := lhs.a.setWidth 64 - rhs.a.setWidth 64
    let t₁ := lhs.b.setWidth 64 - rhs.b.setWidth 64 - t₀ >>> 63
    let t₂ := lhs.c.setWidth 64 - rhs.c.setWidth 64 - t₁ >>> 63
    let t₃ := lhs.d.setWidth 64 - rhs.d.setWidth 64 - t₂ >>> 63
    ⟨t₀.setWidth 32, t₁.setWidth 32, t₂.setWidth 32, t₃.setWidth 32⟩

end IPV6

structure Range where
  fromIp : IPV6
  toIp : IPV6
  deriving DecidableEq

/-! ## The list -/

/-- `handle_remove_intersection`: what is pushed for one range of the list. -/
def handleRemoveIntersection (remove exist : Range) : List Range :=
  let rangeMin := remove.fromIp.max exist.fromIp
  let rangeMax := remove.toIp.min exist.toIp
  if rangeMin.gt rangeMax then [exist]
  else if remove.fromIp.le exist.fromIp && remove.toIp.ge exist.toIp then []
  else if remove.fromIp.le exist.fromIp then [⟨remove.toIp.add (.ofInt 1), exist.toIp⟩]
  else if remove.toIp.ge exist.toIp then [⟨exist.fromIp, remove.fromIp.sub (.ofInt 1)⟩]
  else [⟨exist.fromIp, remove.fromIp.sub (.ofInt 1)⟩, ⟨remove.toIp.add (.ofInt 1), exist.toIp⟩]

/-- `handle_add_intersection`: the new range grown over one of the list, if they meet. -/
def handleAddIntersection (new exist : Range) : Option Range :=
  let rangeMin := new.fromIp.max exist.fromIp
  let rangeMax := new.toIp.min exist.toIp
  if rangeMin.gt rangeMax then none
  else some ⟨new.fromIp.min exist.fromIp, new.toIp.max exist.toIp⟩

/-- The loop of `add_range` from the range it is at, with `we_had_intersection`. -/
def addRangeLoop : List Range → Range → Bool → List Range
  | [], new, had => if had then [new] else []
  | r :: rest, new, had =>
    match handleAddIntersection new r with
    | some grown => addRangeLoop rest grown true
    | none =>
      if had then new :: r :: rest
      else if new.toIp.lt r.fromIp then new :: r :: rest
      else r :: addRangeLoop rest new false

def addRange (ranges : List Range) (new : Range) : List Range :=
  if ranges.head?.all fun r => new.toIp.lt r.fromIp then new :: ranges
  else if ranges.getLast?.any fun r => new.fromIp.gt r.toIp then ranges ++ [new]
  else addRangeLoop ranges new false

def removeRange (ranges : List Range) (remove : Range) : List Range :=
  ranges.flatMap (handleRemoveIntersection remove)

structure IPRange where
  ranges : List Range
  errStr : String
  deriving DecidableEq

/-- A call of `add_range` or `remove_range` with the text of a range. -/
inductive Call
  | addRange (text : String)
  | removeRange (text : String)

def Call.text : Call → String
  | .addRange text => text
  | .removeRange text => text

def Call.apply : Call → List Range → Range → List Range
  | .addRange _, ranges, r => Security.addRange ranges r
  | .removeRange _, ranges, r => Security.removeRange ranges r

/-- A call and the value it returns. A text that `parse_range` refuses leaves the list
as it is. -/
def IPRange.call (parse : String → Except String Range) (s : IPRange) (c : Call) : Bool × IPRange :=
  match parse c.text with
  | .error err => (false, { s with errStr := err })
  | .ok r => (true, ⟨c.apply s.ranges r, ""⟩)

def IPRange.run (parse : String → Except String Range) (s : IPRange) (calls : List Call) :
    IPRange :=
  calls.foldl (fun s c => (s.call parse c).2) s

open IPRange (run)

/-! ## What a list means -/

def Range.addresses (r : Range) : Set IPV6 := {ip | r.fromIp.le ip ∧ ip.le r.toIp}

def covered (ranges : List Range) : Set IPV6 := {ip | ∃ r ∈ ranges, ip ∈ r.addresses}

def Call.onSet : Call → Set IPV6 → Range → Set IPV6
  | .addRange _, S, r => S ∪ r.addresses
  | .removeRange _, S, r => S \ r.addresses

def meaning (parse : String → Except String Range) (calls : List Call) : Set IPV6 :=
  calls.foldl (fun S c => match parse c.text with
    | .ok r => c.onSet S r
    | .error _ => S) ∅

def IPV6.IsIpv4 (ip : IPV6) : Prop := ip.b = 0x0000FFFF#32 ∧ ip.c = 0 ∧ ip.d = 0

/-- An IPv4 range that is not empty. -/
structure Range.Ok (r : Range) : Prop where
  from_ipv4 : r.fromIp.IsIpv4
  to_ipv4 : r.toIp.IsIpv4
  le : r.fromIp.le r.toIp

instance (ip : IPV6) : Decidable ip.IsIpv4 := inferInstanceAs (Decidable (_ ∧ _ ∧ _))

instance (r : Range) : Decidable r.Ok :=
  decidable_of_iff (r.fromIp.IsIpv4 ∧ r.toIp.IsIpv4 ∧ r.fromIp.le r.toIp)
    ⟨fun ⟨h₁, h₂, h₃⟩ => ⟨h₁, h₂, h₃⟩, fun ⟨h₁, h₂, h₃⟩ => ⟨h₁, h₂, h₃⟩⟩

/-! ## IPv4 addresses as numbers -/

namespace IPV6

variable {x y : IPV6}

def num (ip : IPV6) : Nat := ip.lower.toNat

theorem num_eq (ip : IPV6) : ip.num = ip.b.toNat * 2 ^ 32 + ip.a.toNat := by
  rw [num, lower, BitVec.toNat_append, ← Nat.shiftLeft_add_eq_or_of_lt ip.a.isLt, Nat.shiftLeft_eq]

theorem IsIpv4.upper (h : x.IsIpv4) : x.upper = 0 := by
  rw [IPV6.upper, h.2.1, h.2.2]
  rfl

theorem IsIpv4.num (h : x.IsIpv4) : x.num = 0x0000FFFF * 2 ^ 32 + x.a.toNat := by
  rw [num_eq, h.1]
  rfl

theorem lt_iff (hx : x.IsIpv4) (hy : y.IsIpv4) : x.lt y ↔ x.num < y.num := by
  simp [lt, hx.upper, hy.upper, BitVec.ult, IPV6.num]

theorem le_iff (hx : x.IsIpv4) (hy : y.IsIpv4) : x.le y ↔ x.num ≤ y.num := by
  rw [le, gt, Bool.not_eq_true', ← Bool.not_eq_true, lt_iff hy hx, Nat.not_lt]

theorem ge_iff (hx : x.IsIpv4) (hy : y.IsIpv4) : x.ge y ↔ y.num ≤ x.num := le_iff hy hx

theorem max_num (hx : x.IsIpv4) (hy : y.IsIpv4) :
    (x.max y).IsIpv4 ∧ (x.max y).num = Max.max x.num y.num := by
  unfold max
  split_ifs with h
  · exact ⟨hy, by rw [lt_iff hx hy] at h; omega⟩
  · exact ⟨hx, by rw [lt_iff hx hy] at h; omega⟩

theorem min_num (hx : x.IsIpv4) (hy : y.IsIpv4) :
    (x.min y).IsIpv4 ∧ (x.min y).num = Min.min x.num y.num := by
  unfold min
  split_ifs with h
  · exact ⟨hy, by rw [lt_iff hy hx] at h; omega⟩
  · exact ⟨hx, by rw [lt_iff hy hx] at h; omega⟩

theorem add_one_num (hx : x.IsIpv4) (hy : y.IsIpv4) (h : x.num < y.num) :
    (x.add (.ofInt 1)).IsIpv4 ∧ (x.add (.ofInt 1)).num = x.num + 1 := by
  have heq : x.add (.ofInt 1) = ⟨x.a + 1#32, 0x0000FFFF, 0, 0⟩ := if_pos hx.1
  have hv4 : (x.add (.ofInt 1)).IsIpv4 := by
    rw [heq]
    exact ⟨rfl, rfl, rfl⟩
  refine ⟨hv4, ?_⟩
  rw [hx.num, hy.num] at h
  rw [hv4.num, hx.num, heq, BitVec.toNat_add_of_lt (by simp; omega)]
  rfl

theorem sub_one_num (hx : x.IsIpv4) (hy : y.IsIpv4) (h : y.num < x.num) :
    (x.sub (.ofInt 1)).IsIpv4 ∧ (x.sub (.ofInt 1)).num = x.num - 1 := by
  have heq : x.sub (.ofInt 1) = ⟨x.a - 1#32, 0x0000FFFF, 0, 0⟩ := if_pos hx.1
  have hv4 : (x.sub (.ofInt 1)).IsIpv4 := by
    rw [heq]
    exact ⟨rfl, rfl, rfl⟩
  refine ⟨hv4, ?_⟩
  rw [hx.num, hy.num] at h
  have hle : 1#32 ≤ x.a := by
    rw [BitVec.le_def]
    simp
    omega
  rw [hv4.num, hx.num, heq, BitVec.toNat_sub_of_le hle]
  simp
  omega

end IPV6

/-! ## Adding and removing -/

variable {new exist remove r : Range} {l : List Range} {ip : IPV6}

theorem Range.Ok.num_le (h : r.Ok) : r.fromIp.num ≤ r.toIp.num :=
  (IPV6.le_iff h.from_ipv4 h.to_ipv4).mp h.le

theorem Range.ok_of_num {x y : IPV6} (hx : x.IsIpv4) (hy : y.IsIpv4) (h : x.num ≤ y.num) :
    Range.Ok ⟨x, y⟩ :=
  ⟨hx, hy, (IPV6.le_iff hx hy).mpr h⟩

theorem Range.Ok.mem_iff (h : r.Ok) :
    ip ∈ r.addresses ↔ ip.upper = 0 ∧ r.fromIp.num ≤ ip.num ∧ ip.num ≤ r.toIp.num := by
  simp only [Range.addresses, Set.mem_ofPred_eq, IPV6.le, IPV6.gt, IPV6.lt, h.from_ipv4.upper,
    h.to_ipv4.upper, BitVec.ult, IPV6.num]
  constructor
  · simp
    intro h₁ h₂ h₃
    exact ⟨BitVec.eq_of_toNat_eq h₂, h₁, h₃⟩
  · rintro ⟨h₁, h₂, h₃⟩
    simp [h₁, h₂, h₃]

/-- Ranges of IPv4 addresses in increasing order. -/
structure Ordered (l : List Range) : Prop where
  ok : ∀ r ∈ l, r.Ok
  sorted : l.Pairwise fun r r' => r.toIp.num < r'.fromIp.num

theorem Ordered.cons_iff : Ordered (r :: l) ↔
    r.Ok ∧ (∀ r' ∈ l, r.toIp.num < r'.fromIp.num) ∧ Ordered l := by
  constructor
  · intro h
    obtain ⟨hlt, hsorted⟩ := List.pairwise_cons.mp h.sorted
    exact ⟨h.ok r (.head _), hlt, fun r' hr' => h.ok r' (.tail _ hr'), hsorted⟩
  · rintro ⟨hok, hlt, h⟩
    exact ⟨List.forall_mem_cons.mpr ⟨hok, h.ok⟩, List.pairwise_cons.mpr ⟨hlt, h.sorted⟩⟩

theorem Ordered.append {l' : List Range} (hl : Ordered l) (hl' : Ordered l')
    (h : ∀ r ∈ l, ∀ r' ∈ l', r.toIp.num < r'.fromIp.num) : Ordered (l ++ l') :=
  ⟨List.forall_mem_append.mpr ⟨hl.ok, hl'.ok⟩, List.pairwise_append.mpr ⟨hl.sorted, hl'.sorted, h⟩⟩

theorem covered_cons : covered (r :: l) = r.addresses ∪ covered l := by
  ext ip
  simp [covered]

theorem covered_append (l₁ l₂ : List Range) : covered (l₁ ++ l₂) = covered l₁ ∪ covered l₂ := by
  ext ip
  simp [covered, or_and_right, exists_or]

theorem covered_singleton : covered [r] = r.addresses := by
  ext ip
  simp [covered]

theorem mem_covered (h : ∀ r ∈ l, r.Ok) : ip ∈ covered l ↔
    ip.upper = 0 ∧ ∃ r ∈ l, r.fromIp.num ≤ ip.num ∧ ip.num ≤ r.toIp.num := by
  constructor
  · rintro ⟨r, hr, hip⟩
    obtain ⟨hup, hnum⟩ := (h r hr).mem_iff.mp hip
    exact ⟨hup, r, hr, hnum⟩
  · rintro ⟨hup, r, hr, hnum⟩
    exact ⟨r, hr, (h r hr).mem_iff.mpr ⟨hup, hnum⟩⟩

/-- Either the ranges are apart, or they meet and become one. -/
theorem handleAddIntersection_cases (hnew : new.Ok) (hexist : exist.Ok) :
    handleAddIntersection new exist = none ∧
        (new.toIp.num < exist.fromIp.num ∨ exist.toIp.num < new.fromIp.num) ∨
      ∃ grown, handleAddIntersection new exist = some grown ∧ grown.Ok ∧
        grown.fromIp.num = min new.fromIp.num exist.fromIp.num ∧
        grown.addresses = new.addresses ∪ exist.addresses := by
  have hnewLe := hnew.num_le
  have hexistLe := hexist.num_le
  obtain ⟨hmax, hmaxNum⟩ := IPV6.max_num hnew.from_ipv4 hexist.from_ipv4
  obtain ⟨hmin, hminNum⟩ := IPV6.min_num hnew.to_ipv4 hexist.to_ipv4
  obtain ⟨hfrom, hfromNum⟩ := IPV6.min_num hnew.from_ipv4 hexist.from_ipv4
  obtain ⟨hto, htoNum⟩ := IPV6.max_num hnew.to_ipv4 hexist.to_ipv4
  have hapart := IPV6.lt_iff hmin hmax
  rw [hmaxNum, hminNum] at hapart
  by_cases h : (new.toIp.min exist.toIp).lt (new.fromIp.max exist.fromIp)
  · have := hapart.mp h
    exact .inl ⟨if_pos h, by omega⟩
  have := mt hapart.mpr h
  have hok := Range.ok_of_num hfrom hto (by rw [hfromNum, htoNum]; omega)
  refine .inr ⟨_, if_neg h, hok, hfromNum, ?_⟩
  ext ip
  rw [Set.mem_union, hok.mem_iff, hnew.mem_iff, hexist.mem_iff, hfromNum, htoNum, ← and_or_left]
  exact and_congr_right fun _ => by omega

/-- `new` was put into the list `l`. -/
structure Inserted (l : List Range) (new : Range) (l' : List Range) : Prop where
  ordered : Ordered l'
  covered_eq : covered l' = covered l ∪ new.addresses
  bound : ∀ b, b < new.fromIp.num → (∀ r ∈ l, b < r.fromIp.num) → ∀ r ∈ l', b < r.fromIp.num

theorem Inserted.front (hl : Ordered l) (hnew : new.Ok)
    (hbefore : ∀ r ∈ l, new.toIp.num < r.fromIp.num) : Inserted l new (new :: l) where
  ordered := Ordered.cons_iff.mpr ⟨hnew, hbefore, hl⟩
  covered_eq := by rw [covered_cons, Set.union_comm]
  bound := fun _ hb hall => List.forall_mem_cons.mpr ⟨hb, hall⟩

/-- The loop puts the new range in. Once it has met a range, it begins before the end of
every range left; until then it does so for some range. -/
theorem Ordered.addRangeLoop (hl : Ordered l) (hnew : new.Ok) (had : Bool)
    (hmeet : if had then ∀ r ∈ l, new.fromIp.num ≤ r.toIp.num
      else ∃ r ∈ l, new.fromIp.num ≤ r.toIp.num) :
    Inserted l new (addRangeLoop l new had) := by
  induction l generalizing new had with
  | nil =>
    cases had with
    | false => simp at hmeet
    | true => exact Inserted.front hl hnew (by simp)
  | cons r rest ih =>
    obtain ⟨hr, hlt, hrest⟩ := Ordered.cons_iff.mp hl
    have hrle := hr.num_le
    have hfront (hbefore : new.toIp.num < r.fromIp.num) :
        Inserted (r :: rest) new (new :: r :: rest) := by
      refine Inserted.front hl hnew (List.forall_mem_cons.mpr ⟨hbefore, fun r' hr' => ?_⟩)
      have := hlt r' hr'
      omega
    rw [Security.addRangeLoop]
    obtain ⟨hnone, hapart⟩ | ⟨grown, hgrown, hok, hfrom, haddr⟩ := handleAddIntersection_cases hnew hr
    · -- apart from `r`: the new range goes in front of it or further back
      rw [hnone]
      dsimp only
      cases had with
      | true =>
        have := hmeet r (.head _)
        exact hfront (by omega)
      | false =>
        have hbefore := IPV6.lt_iff hnew.to_ipv4 hr.from_ipv4
        rw [if_neg Bool.false_ne_true]
        split_ifs with h
        · exact hfront (hbefore.mp h)
        · have := mt hbefore.mpr h
          obtain ⟨q, hq, hqle⟩ := hmeet
          have hqrest : q ∈ rest := by
            rcases List.mem_cons.mp hq with rfl | hq
            · omega
            · exact hq
          have hins := ih hrest hnew false ⟨q, hqrest, hqle⟩
          refine ⟨Ordered.cons_iff.mpr ⟨hr, hins.bound _ (by omega) hlt, hins.ordered⟩, ?_,
            fun b hb hall => ?_⟩
          · rw [covered_cons, covered_cons, hins.covered_eq, Set.union_assoc]
          · obtain ⟨hbr, hbrest⟩ := List.forall_mem_cons.mp hall
            exact List.forall_mem_cons.mpr ⟨hbr, hins.bound b hb hbrest⟩
    · -- the new range takes `r` in and may meet the next one
      rw [hgrown]
      dsimp only
      have hnext : ∀ r' ∈ rest, grown.fromIp.num ≤ r'.toIp.num := by
        intro r' hr'
        have := hlt r' hr'
        have := (hrest.ok r' hr').num_le
        omega
      have hins := ih hrest hok true hnext
      refine ⟨hins.ordered, ?_, fun b hb hall => ?_⟩
      · rw [hins.covered_eq, haddr, covered_cons, Set.union_comm new.addresses, ← Set.union_assoc,
          Set.union_comm (covered rest)]
      · obtain ⟨hbr, hbrest⟩ := List.forall_mem_cons.mp hall
        exact hins.bound b (by omega) hbrest

theorem Ordered.addRange (hl : Ordered l) (hnew : new.Ok) :
    Ordered (addRange l new) ∧ covered (Security.addRange l new) = covered l ∪ new.addresses := by
  unfold Security.addRange
  split_ifs with hfront hback
  · have hins : Inserted l new (new :: l) := by
      refine Inserted.front hl hnew ?_
      cases l with
      | nil => simp
      | cons r rest =>
        obtain ⟨hr, hlt, -⟩ := Ordered.cons_iff.mp hl
        have hbefore := (IPV6.lt_iff hnew.to_ipv4 hr.from_ipv4).mp (by simpa using hfront)
        refine List.forall_mem_cons.mpr ⟨hbefore, fun r' hr' => ?_⟩
        have := hlt r' hr'
        have := hr.num_le
        omega
    exact ⟨hins.ordered, hins.covered_eq⟩
  · -- the last range ends before the new one, and every other range before that
    obtain ⟨last, hlast, hgt⟩ : ∃ r, l.getLast? = some r ∧ new.fromIp.gt r.toIp := by
      simpa [Option.any_eq_true] using hback
    obtain ⟨init, rfl⟩ := List.getLast?_eq_some_iff.mp hlast
    have hlastOk := hl.ok last (by simp)
    have hafter := (IPV6.lt_iff hlastOk.to_ipv4 hnew.from_ipv4).mp hgt
    obtain ⟨-, -, hinit⟩ := List.pairwise_append.mp hl.sorted
    refine ⟨hl.append ⟨by simpa using hnew, by simp⟩ fun r hr r' hr' => ?_, ?_⟩
    · rw [List.mem_singleton.mp hr']
      rcases List.mem_append.mp hr with hr | hr
      · have := hinit r hr last (by simp)
        have := hlastOk.num_le
        omega
      · rwa [List.mem_singleton.mp hr]
    · rw [covered_append, covered_singleton]
  · have hmeet : ∃ r ∈ l, new.fromIp.num ≤ r.toIp.num := by
      cases hlast : l.getLast? with
      | none =>
        rw [List.getLast?_eq_none_iff.mp hlast] at hfront
        exact absurd rfl hfront
      | some last =>
        have hmem := List.mem_of_getLast? hlast
        have hgt : ¬ last.toIp.lt new.fromIp := by simpa [hlast, IPV6.gt] using hback
        rw [IPV6.lt_iff (hl.ok last hmem).to_ipv4 hnew.from_ipv4] at hgt
        exact ⟨last, hmem, Nat.not_lt.mp hgt⟩
    have hins := hl.addRangeLoop hnew false hmeet
    exact ⟨hins.ordered, hins.covered_eq⟩

/-- What `handle_remove_intersection` leaves of `exist`. -/
structure Cut (remove exist : Range) (l : List Range) : Prop where
  ordered : Ordered l
  covered_eq : covered l = exist.addresses \ remove.addresses
  inside : ∀ r ∈ l, exist.fromIp.num ≤ r.fromIp.num ∧ r.toIp.num ≤ exist.toIp.num

/-- The numbers left decide what is left. -/
theorem Cut.of_num (hremove : remove.Ok) (hexist : exist.Ok) (hl : Ordered l)
    (h : ∀ k, (∃ r ∈ l, r.fromIp.num ≤ k ∧ k ≤ r.toIp.num) ↔
      (exist.fromIp.num ≤ k ∧ k ≤ exist.toIp.num) ∧
        ¬(remove.fromIp.num ≤ k ∧ k ≤ remove.toIp.num)) : Cut remove exist l where
  ordered := hl
  covered_eq := by
    ext ip
    rw [mem_covered hl.ok, h, Set.mem_sdiff, hremove.mem_iff, hexist.mem_iff]
    simp only [and_assoc]
    exact and_congr_right fun hup => by simp only [hup, true_and]
  inside := by
    intro r hr
    have hle := (hl.ok r hr).num_le
    exact ⟨((h _).mp ⟨r, hr, Nat.le_refl _, hle⟩).1.1, ((h _).mp ⟨r, hr, hle, Nat.le_refl _⟩).1.2⟩

theorem handleRemoveIntersection_cut (hremove : remove.Ok) (hexist : exist.Ok) :
    Cut remove exist (handleRemoveIntersection remove exist) := by
  have hremoveLe := hremove.num_le
  have hexistLe := hexist.num_le
  obtain ⟨hmax, hmaxNum⟩ := IPV6.max_num hremove.from_ipv4 hexist.from_ipv4
  obtain ⟨hmin, hminNum⟩ := IPV6.min_num hremove.to_ipv4 hexist.to_ipv4
  have hapart : ((remove.fromIp.max exist.fromIp).gt (remove.toIp.min exist.toIp) : Prop) ↔ _ :=
    IPV6.lt_iff hmin hmax
  rw [hmaxNum, hminNum] at hapart
  -- the parts of `exist` before and behind `remove`
  have hleft (h : exist.fromIp.num < remove.fromIp.num) :=
    IPV6.sub_one_num hremove.from_ipv4 hexist.from_ipv4 h
  have hright (h : remove.toIp.num < exist.toIp.num) :=
    IPV6.add_one_num hremove.to_ipv4 hexist.to_ipv4 h
  unfold handleRemoveIntersection
  dsimp only
  simp only [hapart, IPV6.le_iff hremove.from_ipv4 hexist.from_ipv4,
    IPV6.ge_iff hremove.to_ipv4 hexist.to_ipv4, Bool.and_eq_true]
  split_ifs with happart hall hcutLeft hcutRight
  · exact .of_num hremove hexist ⟨by simpa using hexist, by simp⟩ fun k => by simp; omega
  · exact .of_num hremove hexist ⟨by simp, by simp⟩ fun k => by simp; omega
  · obtain ⟨hv4, hnum⟩ := hright (by omega)
    have hok := Range.ok_of_num hv4 hexist.to_ipv4 (by rw [hnum]; omega)
    exact .of_num hremove hexist ⟨by simpa using hok, by simp⟩ fun k => by simp [hnum]; omega
  · obtain ⟨hv4, hnum⟩ := hleft (by omega)
    have hok := Range.ok_of_num hexist.from_ipv4 hv4 (by rw [hnum]; omega)
    exact .of_num hremove hexist ⟨by simpa using hok, by simp⟩ fun k => by simp [hnum]; omega
  · obtain ⟨hv4, hnum⟩ := hleft (by omega)
    obtain ⟨hv4', hnum'⟩ := hright (by omega)
    have hok := Range.ok_of_num hexist.from_ipv4 hv4 (by rw [hnum]; omega)
    have hok' := Range.ok_of_num hv4' hexist.to_ipv4 (by rw [hnum']; omega)
    exact .of_num hremove hexist ⟨by simpa using ⟨hok, hok'⟩, by simp [hnum, hnum']; omega⟩
      fun k => by simp [hnum, hnum']; omega

theorem Ordered.removeRange (hl : Ordered l) (hremove : remove.Ok) :
    Ordered (removeRange l remove) ∧
      covered (Security.removeRange l remove) = covered l \ remove.addresses := by
  induction l with
  | nil => exact ⟨hl, by ext ip; simp [covered, Security.removeRange]⟩
  | cons r rest ih =>
    obtain ⟨hr, hlt, hrest⟩ := Ordered.cons_iff.mp hl
    obtain ⟨hord, hcov⟩ := ih hrest
    have hcut := handleRemoveIntersection_cut hremove hr
    have hafter : ∀ q ∈ Security.removeRange rest remove, r.toIp.num < q.fromIp.num := by
      intro q hq
      obtain ⟨r', hr', hq⟩ := List.mem_flatMap.mp hq
      have := ((handleRemoveIntersection_cut hremove (hrest.ok r' hr')).inside q hq).1
      have := hlt r' hr'
      omega
    have heq : Security.removeRange (r :: rest) remove =
      handleRemoveIntersection remove r ++ Security.removeRange rest remove := List.flatMap_cons
    rw [heq]
    refine ⟨hcut.ordered.append hord fun q hq q' hq' => ?_, ?_⟩
    · have := (hcut.inside q hq).2
      have := hafter q' hq'
      omega
    · rw [covered_append, covered_cons, hcut.covered_eq, hcov, Set.union_sdiff_distrib]

/-! ## Runs -/

variable {parse : String → Except String Range}

/-- After calls on IPv4 ranges the list is in order and covers what they mean. -/
theorem IPRange.run_spec (calls : List Call)
    (hcalls : ∀ c ∈ calls, ∃ r, parse c.text = .ok r ∧ r.Ok) :
    Ordered (run parse ⟨[], ""⟩ calls).ranges ∧
      covered (run parse ⟨[], ""⟩ calls).ranges = meaning parse calls := by
  induction calls using List.reverseRec with
  | nil =>
    refine ⟨⟨by simp [run], by simp [run]⟩, ?_⟩
    ext ip
    simp [run, covered, meaning]
  | append_singleton calls c ih =>
    obtain ⟨hord, hcov⟩ := ih fun c hc => hcalls c (List.mem_append_left _ hc)
    obtain ⟨r, hparse, hr⟩ := hcalls c (by simp)
    simp only [run, meaning, List.foldl_append, List.foldl_cons, List.foldl_nil,
      IPRange.call, hparse] at hord hcov ⊢
    cases c with
    | addRange text => exact hcov ▸ hord.addRange hr
    | removeRange text => exact hcov ▸ hord.removeRange hr

/-- From an empty list and after any calls on IPv4 ranges, the ranges are not empty, increase
strictly and are apart, and they cover the set the calls describe. -/
theorem ipRange_covers (calls : List Call)
    (hcalls : ∀ c ∈ calls, ∃ r, parse c.text = .ok r ∧ r.Ok) :
    (run parse ⟨[], ""⟩ calls).ranges.Pairwise (fun r r' => r.toIp.lt r'.fromIp) ∧
      (∀ r ∈ (run parse ⟨[], ""⟩ calls).ranges, r.fromIp.le r.toIp) ∧
      (run parse ⟨[], ""⟩ calls).ranges.Pairwise
        (fun r r' => Disjoint r.addresses r'.addresses) ∧
      covered (run parse ⟨[], ""⟩ calls).ranges = meaning parse calls := by
  obtain ⟨hord, hcov⟩ := IPRange.run_spec calls hcalls
  refine ⟨?_, fun r hr => (hord.ok r hr).le, ?_, hcov⟩
  · refine hord.sorted.imp_of_mem fun hr hr' hlt => ?_
    exact (IPV6.lt_iff (hord.ok _ hr).to_ipv4 (hord.ok _ hr').from_ipv4).mpr hlt
  · refine hord.sorted.imp_of_mem fun hr hr' hlt => Set.disjoint_left.mpr fun ip hip hip' => ?_
    obtain ⟨-, -, hle⟩ := (hord.ok _ hr).mem_iff.mp hip
    obtain ⟨-, hle', -⟩ := (hord.ok _ hr').mem_iff.mp hip'
    omega

/-- The address 10.0.0.`n`. -/
def tenNet (n : Nat) : IPV6 := ⟨BitVec.ofNat 32 (0x0A000000 + n), 0x0000FFFF, 0, 0⟩

/-- 10.0.0.1-10.0.0.9 without 10.0.0.4-10.0.0.6. -/
theorem ipRange_covers_cut :
    let parse : String → Except String Range := fun text =>
      if text = "10.0.0.1-10.0.0.9" then .ok ⟨tenNet 1, tenNet 9⟩ else .ok ⟨tenNet 4, tenNet 6⟩
    let calls := [Call.addRange "10.0.0.1-10.0.0.9", .removeRange "10.0.0.4-10.0.0.6"]
    (run parse ⟨[], ""⟩ calls).ranges = [⟨tenNet 1, tenNet 3⟩, ⟨tenNet 7, tenNet 9⟩] ∧
      covered (run parse ⟨[], ""⟩ calls).ranges = meaning parse calls := by
  refine ⟨by decide, (ipRange_covers _ fun c _ => ?_).2.2.2⟩
  split_ifs
  · exact ⟨_, rfl, by decide⟩
  · exact ⟨_, rfl, by decide⟩

end OpenGauss.Security
