import OpenGauss.Security.IpRange

/-!
# Looking up an address

`binary_search` halves the list for as long as its two indices differ. They can cross:
if the address is below the range in the middle and that range is the first one left,
the right index moves in front of the left one, and no later turn moves either. Only an
address directly below a stretch of two entries comes to that (`binarySearch_answers_iff`).
-/

namespace OpenGauss.Security

variable {l : List Range} {ip : IPV6} {fuel i j k : Nat}

/-- Whether the range at an index contains the address. -/
def insideAt (ranges : List Range) (ip : IPV6) (k : Nat) : Bool :=
  ranges[k]?.any fun r => ip.ge r.fromIp && ip.le r.toIp

def belowAt (ranges : List Range) (ip : IPV6) (k : Nat) : Bool :=
  ranges[k]?.any fun r => ip.lt r.fromIp

/-- The loop of `binary_search`, `none` if it takes more turns. -/
def searchLoop (ranges : List Range) (ip : IPV6) : Nat → Nat → Nat → Option Bool
  | 0, _, _ => none
  | turns + 1, i, j =>
    if i = j then some (insideAt ranges ip i)
    else
      let mid := (i + j) / 2
      if insideAt ranges ip mid then some true
      else if belowAt ranges ip mid then
        searchLoop ranges ip turns i (if mid > 0 then mid - 1 else mid)
      else searchLoop ranges ip turns (mid + 1) j

/-- `binary_search`. Of an empty list the last index wraps around and entries behind the list
are read, for which there is no answer here. -/
def binarySearch (ranges : List Range) (ip : IPV6) (turns : Nat) : Option Bool :=
  if ranges.length = 0 then none else searchLoop ranges ip turns 0 (ranges.length - 1)

def localhostIpv4 : IPV6 := ⟨0x7F000001, 0x0000FFFF, 0, 0⟩

def localhostIpv6 : IPV6 := ⟨1, 0, 0, 0⟩

/-- `is_in_range` of an address, without the text of the error. -/
def isInRange (ranges : List Range) (ip : IPV6) (turns : Nat) : Option Bool :=
  if ranges.length = 0 then some false
  else if ip = localhostIpv4 ∨ ip = localhostIpv6 then
    (binarySearch ranges localhostIpv4 turns).bind fun found =>
      if found then some true else binarySearch ranges localhostIpv6 turns
  else binarySearch ranges ip turns

/-! ## The answer -/

theorem insideAt_iff (hl : Ordered l) (hip : ip.IsIpv4) : insideAt l ip k = true ↔
    ∃ r, l[k]? = some r ∧ r.fromIp.num ≤ ip.num ∧ ip.num ≤ r.toIp.num := by
  cases hr : l[k]? with
  | none => simp [insideAt, hr]
  | some r =>
    have hok := hl.ok r (List.mem_of_getElem? hr)
    simp [insideAt, hr, IPV6.ge_iff hip hok.from_ipv4, IPV6.le_iff hip hok.to_ipv4]

theorem mem_covered_iff (hl : Ordered l) (hip : ip.IsIpv4) :
    ip ∈ covered l ↔ ∃ k, insideAt l ip k = true := by
  rw [mem_covered hl.ok]
  simp only [hip.upper, true_and, insideAt_iff hl hip, List.mem_iff_getElem?]
  exact ⟨fun ⟨r, ⟨k, hk⟩, h⟩ => ⟨k, r, hk, h⟩, fun ⟨k, r, hk, h⟩ => ⟨r, ⟨k, hk⟩, h⟩⟩

/-- The search turns to the side of the range with the address. -/
theorem belowAt_cases (hl : Ordered l) (hip : ip.IsIpv4) (hk : insideAt l ip k = true)
    (hi : i < l.length) (hne : ¬insideAt l ip i = true) :
    belowAt l ip i = true ∧ k < i ∨ belowAt l ip i = false ∧ i < k := by
  obtain ⟨r, hr, hfrom, hto⟩ := (insideAt_iff hl hip).mp hk
  obtain ⟨hklt, rfl⟩ := List.getElem?_eq_some_iff.mp hr
  have hok := hl.ok l[i] (List.getElem_mem hi)
  have hsorted := List.pairwise_iff_getElem.mp hl.sorted
  rcases Nat.lt_trichotomy k i with hlt | rfl | hlt
  · have := hsorted k i hklt hi hlt
    exact .inl ⟨by simp [belowAt, hi, IPV6.lt_iff hip hok.from_ipv4]; omega, hlt⟩
  · exact absurd hk hne
  · have := hsorted i k hi hklt hlt
    have := hok.num_le
    exact .inr ⟨by simp [belowAt, hi, ← Bool.not_eq_true, IPV6.lt_iff hip hok.from_ipv4]; omega, hlt⟩

/-- The range with the address stays between the indices, so the search comes to it. -/
theorem searchLoop_found (hl : Ordered l) (hip : ip.IsIpv4) (hk : insideAt l ip k = true) :
    ∀ turns i j : Nat, i ≤ k → k ≤ j → j < l.length →
      searchLoop l ip turns i j = some true ∨ searchLoop l ip turns i j = none ∧ turns ≤ j - i
  | 0, _, _, _, _, _ => .inr ⟨rfl, Nat.zero_le _⟩
  | turns + 1, i, j, hik, hkj, hj => by
    rw [searchLoop]
    by_cases hij : i = j
    · rw [if_pos hij, show i = k by omega, hk]
      exact .inl rfl
    by_cases hmid : insideAt l ip ((i + j) / 2) = true
    · rw [if_neg hij, if_pos hmid]
      exact .inl rfl
    rw [if_neg hij, if_neg hmid]
    rcases belowAt_cases hl hip hk (by omega) hmid with ⟨hbelow, hlt⟩ | ⟨hbelow, hlt⟩
    · rw [if_pos hbelow, if_pos (by omega)]
      have ih := searchLoop_found hl hip hk turns i ((i + j) / 2 - 1) hik (by omega) (by omega)
      exact ih.imp_right (And.imp_right (by omega))
    · rw [hbelow, if_neg Bool.false_ne_true]
      have ih := searchLoop_found hl hip hk turns ((i + j) / 2 + 1) j hlt hkj hj
      exact ih.imp_right (And.imp_right (by omega))

/-- Only a range that contains the address makes the search say yes. -/
theorem exists_insideAt (h : searchLoop l ip fuel i j = some true) :
    ∃ k, insideAt l ip k = true := by
  induction fuel generalizing i j with
  | zero => cases h
  | succ fuel ih =>
    rw [searchLoop] at h
    dsimp only at h
    split_ifs at h with hij hmid
    · exact ⟨i, Option.some.inj h⟩
    · exact ⟨_, hmid⟩
    all_goals exact ih h

theorem binarySearch_eq (hne : l ≠ []) (turns : Nat) :
    binarySearch l ip turns = searchLoop l ip turns 0 (l.length - 1) :=
  if_neg fun h => hne (List.length_eq_zero_iff.mp h)

theorem binarySearch_inside {turns : Nat} (h : binarySearch l ip turns = some true) :
    ∃ k, insideAt l ip k = true := by
  unfold binarySearch at h
  split_ifs at h
  exact exists_insideAt h

/-- The search comes to an address of the list within as many turns as there are entries. -/
theorem binarySearch_found (hl : Ordered l) (hip : ip.IsIpv4) (hk : insideAt l ip k = true) :
    binarySearch l ip l.length = some true := by
  obtain ⟨r, hr, -⟩ := (insideAt_iff hl hip).mp hk
  have hlt := (List.getElem?_eq_some_iff.mp hr).1
  rw [binarySearch_eq (List.ne_nil_of_length_pos (k.zero_le.trans_lt hlt))]
  rcases searchLoop_found hl hip hk l.length 0 (l.length - 1) k.zero_le (by omega)
    (by omega) with h | ⟨-, h⟩
  · exact h
  · omega

/-! ## Where the indices cross -/

/-- The stretches of a list of `n` entries that halving leads to, whatever the entries are. -/
inductive Stretch (n : Nat) : Nat → Nat → Prop
  | whole : Stretch n 0 (n - 1)
  | left {i j : Nat} : Stretch n i j → i + 1 < j → Stretch n i ((i + j) / 2 - 1)
  | right {i j : Nat} : Stretch n i j → i < j → Stretch n ((i + j) / 2 + 1) j

theorem Stretch.bound {n : Nat} (h : Stretch n i j) : i ≤ j ∧ j ≤ n - 1 := by
  induction h with
  | whole => omega
  | left _ hlt ih => omega
  | right _ hlt ih => omega

/-- The address is above the first `g` entries and below the others. -/
def Between (ranges : List Range) (ip : IPV6) (g : Nat) : Prop :=
  ∀ k < ranges.length, insideAt ranges ip k = false ∧ (belowAt ranges ip k = true ↔ g ≤ k)

/-- One turn for an address in a gap, by the side of the entry in the middle it is on. -/
theorem searchLoop_between {g : Nat} (hg : Between l ip g) (hij : i < j) (hj : j < l.length)
    (turns : Nat) : searchLoop l ip (turns + 1) i j =
      if g ≤ (i + j) / 2 then
        searchLoop l ip turns i (if (i + j) / 2 > 0 then (i + j) / 2 - 1 else (i + j) / 2)
      else searchLoop l ip turns ((i + j) / 2 + 1) j := by
  obtain ⟨hin, hbelow⟩ := hg ((i + j) / 2) (by omega)
  rw [searchLoop, if_neg hij.ne]
  simp only [hin, hbelow, Bool.false_eq_true, if_false]

/-- An address that is in none of the ranges is in a gap. -/
theorem exists_between (hl : Ordered l) (hip : ip.IsIpv4) (h : ip ∉ covered l) :
    ∃ g ≤ l.length, Between l ip g := by
  refine ⟨l.findIdx fun r => ip.lt r.fromIp, List.findIdx_le_length, fun k hk => ?_⟩
  have hin : insideAt l ip k = false :=
    Bool.eq_false_iff.mpr fun hk => h ((mem_covered_iff hl hip).mpr ⟨k, hk⟩)
  refine ⟨hin, fun hbelow => ?_, fun hle => ?_⟩
  · by_contra hlt
    have hnot := List.not_of_lt_findIdx (Nat.lt_of_not_le hlt)
    simp only [belowAt, List.getElem?_eq_getElem hk, Option.any_some, hnot, Bool.false_eq_true] at hbelow
  · -- The entry the address is first below is this one or one in front of it.
    have hlt := hle.trans_lt hk
    have hfirst : ip.lt (l[l.findIdx fun r => ip.lt r.fromIp]).fromIp = true :=
      List.findIdx_getElem (w := hlt)
    generalize l.findIdx (fun r => ip.lt r.fromIp) = g at *
    have hgok := hl.ok l[g] (List.getElem_mem hlt)
    have hkok := hl.ok l[k] (List.getElem_mem hk)
    rw [IPV6.lt_iff hip hgok.from_ipv4] at hfirst
    have hfrom : l[g].fromIp.num ≤ l[k].fromIp.num := by
      rcases Nat.eq_or_lt_of_le hle with rfl | hgk
      · exact le_rfl
      · have := List.pairwise_iff_getElem.mp hl.sorted g k hlt hk hgk
        have := hgok.num_le
        omega
    simp only [belowAt, List.getElem?_eq_getElem hk, Option.any_some,
      IPV6.lt_iff hip hkok.from_ipv4]
    omega

/-- Once the left index is behind the right one, at a range the address is above, the loop
does not end. -/
theorem searchLoop_crossed (hin : insideAt l ip j = false) (hbelow : belowAt l ip j = false) :
    ∀ turns, searchLoop l ip turns (j + 1) j = none
  | 0 => rfl
  | turns + 1 => by
    have hmid : (j + 1 + j) / 2 = j := by omega
    rw [searchLoop, if_neg (Nat.succ_ne_self j)]
    simp only [hmid, hin, hbelow, Bool.false_eq_true, if_false]
    exact searchLoop_crossed hin hbelow turns

/-- The search for an address in a gap gets to each stretch with the gap, so it does not end
if it does not end there. -/
theorem binarySearch_none {g : Nat} (hg : Between l ip g) (hs : Stretch l.length i j)
    (hne : l ≠ []) (hi : i ≤ g) (hj : g ≤ j + 1) (h : ∀ turns, searchLoop l ip turns i j = none) :
    ∀ turns, binarySearch l ip turns = none := by
  have hlen := List.length_pos_iff.mpr hne
  induction hs with
  | whole =>
    intro turns
    rw [binarySearch_eq hne, h turns]
  | left hs hlt ih =>
    have hb := hs.bound
    refine ih hi (by omega) fun turns => ?_
    cases turns with
    | zero => rfl
    | succ turns =>
      rw [searchLoop_between hg (by omega) (by omega), if_pos (by omega), if_pos (by omega)]
      exact h turns
  | right hs hlt ih =>
    have hb := hs.bound
    refine ih (by omega) hj fun turns => ?_
    cases turns with
    | zero => rfl
    | succ turns =>
      rw [searchLoop_between hg hlt (by omega), if_neg (by omega)]
      exact h turns

/-- From a stretch with the gap the search ends if the gap is not in front of two entries that
are a stretch of their own. In front of the first entry of the list it ends as well, because
the right index stays there. -/
theorem searchLoop_ends {g : Nat} (hg : Between l ip g)
    (hgap : 0 < g → ¬Stretch l.length g (g + 1)) (hne : l ≠ []) (hs : Stretch l.length i j)
    (hi : i ≤ g) (hj : g ≤ j + 1) : ∃ turns b, searchLoop l ip turns i j = some b := by
  have hlen := List.length_pos_iff.mpr hne
  induction hd : j - i using Nat.strong_induction_on generalizing i j with
  | _ d ih =>
    have hb := hs.bound
    rcases Nat.eq_or_lt_of_le hb.1 with rfl | hij
    · exact ⟨1, _, if_pos rfl⟩
    by_cases hle : g ≤ (i + j) / 2
    · rcases Nat.eq_or_lt_of_le (Nat.succ_le_of_lt hij) with rfl | hlong
      · obtain rfl : i = g := by omega
        rcases Nat.eq_zero_or_pos i with rfl | hpos
        · exact ⟨2, _, (searchLoop_between hg hij (by omega) 1).trans (if_pos hle)⟩
        · exact absurd hs (hgap hpos)
      · obtain ⟨turns, b, h⟩ := ih ((i + j) / 2 - 1 - i) (by omega) (hs.left hlong) hi (by omega) rfl
        refine ⟨turns + 1, b, ?_⟩
        rw [searchLoop_between hg hij (by omega), if_pos hle, if_pos (by omega), h]
    · obtain ⟨turns, b, h⟩ := ih (j - ((i + j) / 2 + 1)) (by omega) (hs.right hij) (by omega) hj rfl
      refine ⟨turns + 1, b, ?_⟩
      rw [searchLoop_between hg hij (by omega), if_neg hle, h]

/-- The search ends, with the right answer, unless the address is in the gap in front of two
entries, not the first of the list, that halving leaves as a stretch of their own. -/
theorem binarySearch_answers_iff (hl : Ordered l) (hne : l ≠ []) (hip : ip.IsIpv4) :
    (∃ turns b, binarySearch l ip turns = some b ∧ (b = true ↔ ip ∈ covered l)) ↔
      ∀ g > 0, Between l ip g → ¬Stretch l.length g (g + 1) := by
  have hlen := List.length_pos_iff.mpr hne
  constructor
  · rintro ⟨turns, b, hb, -⟩ g hpos hg hs
    have hbound := hs.bound
    have hfirst := hg (g - 1) (by omega)
    have hcross : ∀ turns, searchLoop l ip turns g (g + 1) = none := by
      rintro (_ | turns)
      · rfl
      have hmid : (g + (g + 1)) / 2 = g := by omega
      rw [searchLoop_between hg (by omega) (by omega), hmid, if_pos le_rfl, if_pos hpos]
      obtain ⟨g, rfl⟩ : ∃ g', g = g' + 1 := ⟨g - 1, by omega⟩
      exact searchLoop_crossed hfirst.1
        (Bool.eq_false_iff.mpr fun h => by have := hfirst.2.mp h; omega) turns
    cases (binarySearch_none hg hs hne le_rfl (by omega) hcross turns).symm.trans hb
  · intro hgap
    by_cases hin : ip ∈ covered l
    · obtain ⟨k, hk⟩ := (mem_covered_iff hl hip).mp hin
      exact ⟨l.length, true, binarySearch_found hl hip hk, by simp [hin]⟩
    · obtain ⟨g, hle, hg⟩ := exists_between hl hip hin
      obtain ⟨turns, b, h⟩ := searchLoop_ends hg (fun hpos => hgap g hpos hg) hne .whole
        g.zero_le (by omega)
      rw [← binarySearch_eq hne] at h
      refine ⟨turns, b, h, fun hb => ?_, fun h => absurd h hin⟩
      exact (mem_covered_iff hl hip).mpr (binarySearch_inside (hb ▸ h))

/-- Two entries are a stretch only as the whole list. -/
theorem binarySearch_answers_two : ∃ turns b,
    binarySearch [⟨tenNet 1, tenNet 3⟩, ⟨tenNet 5, tenNet 7⟩] (tenNet 4) turns = some b ∧
      (b = true ↔ tenNet 4 ∈ covered [⟨tenNet 1, tenNet 3⟩, ⟨tenNet 5, tenNet 7⟩]) :=
  (binarySearch_answers_iff ⟨by decide, by decide⟩ (by decide) (by decide)).mpr
    fun _ hpos _ hs => absurd hs.bound.2 (by simp; omega)

/-- Of four ranges, an address between the second and the third is never answered. -/
theorem binarySearch_crosses :
    let l := [1, 3, 5, 7].map fun n => Range.mk (tenNet n) (tenNet n)
    Ordered l ∧ (tenNet 4).IsIpv4 ∧ ∀ turns, binarySearch l (tenNet 4) turns = none := by
  refine ⟨⟨by decide, by decide⟩, by decide, fun turns => ?_⟩
  rcases turns with _ | _ | turns
  · rfl
  · rfl
  · exact searchLoop_crossed (by decide) (by decide) turns

/-! ## The look-up in a list built by calls -/

theorem insideAt_localhostIpv6 (hl : Ordered l) : insideAt l localhostIpv6 k = false := by
  cases hr : l[k]? with
  | none => simp [insideAt, hr]
  | some r =>
    have hb := (hl.ok r (List.mem_of_getElem? hr)).from_ipv4.1
    have hnum : localhostIpv6.num < r.fromIp.num := by
      rw [IPV6.num_eq, IPV6.num_eq, hb]
      show 1 < 65535 * 2 ^ 32 + _
      omega
    have hlt : localhostIpv6.lt r.fromIp = true :=
      Bool.or_eq_true_iff.mpr (.inr (decide_eq_true hnum))
    simp [insideAt, hr, IPV6.ge, hlt]

/-- The look-up accepts exactly the IPv4 addresses the calls have added and not removed. -/
theorem isInRange_run_iff (parse : String → {r : Range // r.Ok}) (calls : List Call)
    (a : BitVec 32) :
    let ip : IPV6 := ⟨a, 0x0000FFFF, 0, 0⟩
    let result t : Except String Range := .ok (parse t).1
    (∃ turns, isInRange (IPRange.run result ⟨[], ""⟩ calls).ranges ip turns = some true) ↔
      ip ∈ meaning result calls := by
  intro ip result
  have hip : ip.IsIpv4 := ⟨rfl, rfl, rfl⟩
  have hlocalhost : ip = localhostIpv4 ∨ ip = localhostIpv6 → localhostIpv4 = ip :=
    fun h => (h.resolve_right (by simp [ip, localhostIpv6])).symm
  obtain ⟨hord, hcov⟩ := @IPRange.run_spec result calls fun c _ => ⟨_, rfl, (parse c.text).2⟩
  rw [← hcov, mem_covered_iff hord hip]
  generalize (IPRange.run result ⟨[], ""⟩ calls).ranges = l at *
  constructor
  · rintro ⟨turns, h⟩
    unfold isInRange at h
    split_ifs at h with hempty hlocal
    · cases h
    · obtain ⟨found, hfound, h⟩ := Option.bind_eq_some_iff.mp h
      split_ifs at h with htrue
      · rw [hlocalhost hlocal, htrue] at hfound
        exact binarySearch_inside hfound
      · obtain ⟨k, hk⟩ := binarySearch_inside h
        cases (insideAt_localhostIpv6 hord).symm.trans hk
    · exact binarySearch_inside h
  · rintro ⟨k, hk⟩
    have hfound := binarySearch_found hord hip hk
    refine ⟨l.length, ?_⟩
    unfold isInRange
    split_ifs with hempty hlocal
    · rw [List.length_eq_zero_iff.mp hempty] at hk
      cases hk
    · rw [hlocalhost hlocal, hfound]
      rfl
    · exact hfound

end OpenGauss.Security
