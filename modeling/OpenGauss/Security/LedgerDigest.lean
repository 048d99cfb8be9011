import Mathlib.Algebra.Ring.Nat
import Mathlib.Data.List.Basic
import Mathlib.Data.List.Flatten
import Mathlib.Tactic.Choose

/-!
# Digests of the ledger

What the ledger hashes: the row of a user table, the record of a history table, the block of
the global chain. Each text is its fields one behind the other, so it tells two records apart
as long as it can tell where the fields end.
-/

namespace OpenGauss.Security

/-! ## The source -/

/-- A `uint64` printed with `%lu`. -/
def printU64 (v : UInt64) : List Char := Nat.toDigits 10 v.toNat

/-- `hash_combine_tuple_data`: nulls are left out, and so is the last column. -/
def hashCombineTupleData (attrs : List (Option UInt64)) : List Char :=
  attrs.dropLast.flatMap fun col => col.elim [] printU64

structure HistRecord where
  recNum : UInt64
  hashIns : UInt64
  hashDel : UInt64
  deriving DecidableEq

/-- What `fill_hist_block` prints. -/
def HistRecord.data (r : HistRecord) : List Char :=
  printU64 r.recNum ++ printU64 r.hashIns ++ printU64 r.hashDel

/-- The text of `gen_hist_tuple_hash`: behind the data stands the hash of the row before or,
if there is none, the name of the table. -/
def genHistTupleHash (data : List Char) (preRowHash : Option (List Char)) (relName : List Char) :
    List Char :=
  data ++ preRowHash.getD relName

/-- A block of the global chain; a null `cmd_text` is an empty one. -/
structure GlobalBlock where
  dbName : List Char
  userName : List Char
  nspName : List Char
  relName : List Char
  cmdText : List Char
  relHash : UInt64
  deriving DecidableEq

def GlobalBlock.setGchainCombString (b : GlobalBlock) : List Char :=
  b.dbName ++ b.userName ++ b.nspName ++ b.relName ++ b.cmdText ++ printU64 b.relHash

/-- The text of `gen_global_hash`. -/
def genGlobalHash (info : List Char) (prevHash : Option (List Char)) : List Char :=
  prevHash.elim ("gs_global_chain".toList ++ info) (info ++ ·)

/-! ## Fields one behind the other -/

section Fields

variable {V : Type} {text : V → List Char} {fields : V → List (List Char)}

def lengths (l : List (List Char)) : List Nat := l.map List.length

/-- Records whose fields are as long as those of `v` and of `w` do not share a text, unless
they are the same. -/
def Separates (text : V → List Char) (fields : V → List (List Char)) (v w : V) : Prop :=
  ∀ v' w', lengths (fields v') = lengths (fields v) → lengths (fields w') = lengths (fields w) →
    text v' = text w' → v' = w'

/-- Fields of the same lengths, or of different lengths in all. -/
def Aligned (l l' : List (List Char)) : Prop :=
  lengths l = lengths l' ∨ (lengths l).sum ≠ (lengths l').sum

theorem flatten_replicate_ones (l : List Nat) :
    (l.map fun n => List.replicate n '1').flatten = List.replicate l.sum '1' := by
  induction l with
  | nil => rfl
  | cons n l ih =>
    rw [List.map_cons, List.flatten_cons, ih, List.sum_cons, List.replicate_append_replicate]

/-- The lengths decide: of the records with the same lengths, those made of ones share a text. -/
theorem separates_iff (hinj : fields.Injective)
    (hones : ∀ v, ∃ v', fields v' = (lengths (fields v)).map fun n => List.replicate n '1')
    (htext : ∀ v w, text v = text w ↔ (fields v).flatten = (fields w).flatten) (v w : V) :
    Separates text fields v w ↔ Aligned (fields v) (fields w) := by
  constructor
  · intro h
    by_contra hno
    obtain ⟨hne, hsum⟩ := not_or.mp hno
    obtain ⟨v', hv⟩ := hones v
    obtain ⟨w', hw⟩ := hones w
    have hlen (l : List Nat) : lengths (l.map fun n => List.replicate n '1') = l := by
      simp [lengths, Function.comp_def]
    have hsame : text v' = text w' := by
      rw [htext, hv, hw, flatten_replicate_ones, flatten_replicate_ones, not_not.mp hsum]
    have heq := h v' w' (by rw [hv, hlen]) (by rw [hw, hlen]) hsame
    rw [heq, hw] at hv
    have := congrArg lengths hv
    rw [hlen, hlen] at this
    exact hne this.symm
  · intro h v' w' hv hw heq
    have hflat := (htext v' w').mp heq
    rcases h with h | h
    · exact hinj (List.eq_iff_flatten_eq.mpr ⟨hflat, (hv.trans h).trans hw.symm⟩)
    have := congrArg List.length hflat
    rw [List.length_flatten, List.length_flatten] at this
    exact absurd (hv ▸ hw ▸ this) h

end Fields

/-! ## Printed numbers -/

theorem printU64_injective : printU64.Injective := by
  intro v w h
  have := congrArg (Nat.ofDigitChars 10 · 0) h
  simp only [printU64, Nat.ofDigitChars_toDigits (b := 10) (by decide) (by decide)] at this
  exact UInt64.toNat_inj.mp this

/-- The number of `n` digits one. -/
def ones : Nat → Nat
  | 0 => 0
  | n + 1 => 10 * ones n + 1

theorem toDigits_ones (n : Nat) : Nat.toDigits 10 (ones (n + 1)) = List.replicate (n + 1) '1' := by
  induction n with
  | zero => rfl
  | succ n ih =>
    have hpos : 0 < ones (n + 1) := Nat.succ_pos _
    rw [ones, ← Nat.toDigits_append_toDigits (by decide) hpos (by decide), ih,
      List.replicate_succ' (n := n + 1)]
    rfl

theorem printU64_ne_nil (v : UInt64) : printU64 v ≠ [] := by
  rw [printU64, Nat.toDigits_eq_if (by decide)]
  split <;> simp

theorem exists_printU64_ones (v : UInt64) :
    ∃ w, printU64 w = List.replicate (printU64 v).length '1' := by
  have hle : (printU64 v).length ≤ 20 := by
    refine (Nat.length_toDigits_le_iff (by decide) (by decide)).mpr ?_
    have := v.toNat_lt
    omega
  have hlt : ∀ n ≤ 20, ones n < 2 ^ 64 := by decide
  obtain ⟨n, hn⟩ := Nat.exists_eq_succ_of_ne_zero (mt List.length_eq_zero_iff.mp (printU64_ne_nil v))
  refine ⟨.ofNat (ones (printU64 v).length), ?_⟩
  rw [printU64, UInt64.toNat_ofNat_of_lt' (hlt _ hle), hn]
  exact toDigits_ones n

/-! ## The three texts -/

/-- The fields of a row: one for each user column, empty for a null. -/
def rowFields (cols : List (Option UInt64)) : List (List Char) :=
  cols.map fun col => col.elim [] printU64

def HistRecord.fields (r : HistRecord) : List (List Char) :=
  [printU64 r.recNum, printU64 r.hashIns, printU64 r.hashDel]

def GlobalBlock.fields (b : GlobalBlock) : List (List Char) :=
  [b.dbName, b.userName, b.nspName, b.relName, b.cmdText, printU64 b.relHash]

theorem rowFields_injective : rowFields.Injective := by
  refine List.map_injective_iff.mpr fun col col' h => ?_
  cases col with
  | none =>
    cases col' with
    | none => rfl
    | some w => exact absurd h.symm (printU64_ne_nil w)
  | some v =>
    cases col' with
    | none => exact absurd h (printU64_ne_nil v)
    | some w => exact congrArg some (printU64_injective h)

/-- A digest binds records of given field lengths exactly if these are the same lengths or do
not add up to the same: for the columns of a row, whatever its hash column is, for a history
record and for a global block. -/
theorem ledgerDigest_separates (hash : List (Option UInt64) → Option UInt64)
    (prevHash : Option (List Char)) (relName : List Char) (cols cols' : List (Option UInt64))
    (r r' : HistRecord) (b b' : GlobalBlock) :
    (Separates (fun cols => hashCombineTupleData (cols ++ [hash cols])) rowFields cols cols' ↔
      Aligned (rowFields cols) (rowFields cols')) ∧
    (Separates (fun r => genHistTupleHash r.data prevHash relName) HistRecord.fields r r' ↔
      Aligned r.fields r'.fields) ∧
    (Separates (fun b => genGlobalHash b.setGchainCombString prevHash) GlobalBlock.fields b b' ↔
      Aligned b.fields b'.fields) := by
  choose f hf using exists_printU64_ones
  refine ⟨separates_iff rowFields_injective (fun cols => ?_) (fun cols cols' => ?_) _ _,
    separates_iff (fun r r' h => ?_) (fun r => ?_) (fun r r' => ?_) _ _,
    separates_iff (fun b b' h => ?_) (fun b => ?_) (fun b b' => ?_) _ _⟩
  · refine ⟨cols.map (Option.map f), ?_⟩
    rw [rowFields, rowFields, lengths, List.map_map, List.map_map, List.map_map]
    refine List.map_congr_left fun col _ => ?_
    cases col with
    | none => rfl
    | some v => exact hf v
  · simp [hashCombineTupleData, rowFields, List.flatMap]
  · cases r
    cases r'
    simpa [HistRecord.fields, printU64_injective.eq_iff] using h
  · exact ⟨⟨f r.recNum, f r.hashIns, f r.hashDel⟩, by simp [HistRecord.fields, lengths, hf]⟩
  · simp only [genHistTupleHash, List.append_left_inj]
    simp [HistRecord.data, HistRecord.fields]
  · cases b
    cases b'
    simpa [GlobalBlock.fields, printU64_injective.eq_iff] using h
  · exact ⟨⟨.replicate b.dbName.length '1', .replicate b.userName.length '1',
      .replicate b.nspName.length '1', .replicate b.relName.length '1',
      .replicate b.cmdText.length '1', f b.relHash⟩, by simp [GlobalBlock.fields, lengths, hf]⟩
  · cases prevHash <;>
      simp only [genGlobalHash, Option.elim, List.append_left_inj, List.append_right_inj] <;>
      simp [GlobalBlock.setGchainCombString, GlobalBlock.fields]

/-- Records that differ and share their texts: a value moves over a null, a digit or a letter
over the end of a field. -/
theorem ledgerDigest_shared : ([none, some 1] : List (Option UInt64)) ≠ [some 1, none] ∧
      hashCombineTupleData [none, some 1, some 7] = hashCombineTupleData [some 1, none, some 8] ∧
      HistRecord.mk 1 11 1 ≠ ⟨11, 1, 1⟩ ∧
      genHistTupleHash (HistRecord.data ⟨1, 11, 1⟩) none ['t'] =
        genHistTupleHash (HistRecord.data ⟨11, 1, 1⟩) none ['t'] ∧
      GlobalBlock.mk ['a', 'b'] ['c'] [] [] [] 1 ≠ ⟨['a'], ['b', 'c'], [], [], [], 1⟩ ∧
      genGlobalHash (GlobalBlock.setGchainCombString ⟨['a', 'b'], ['c'], [], [], [], 1⟩) none =
        genGlobalHash (GlobalBlock.setGchainCombString ⟨['a'], ['b', 'c'], [], [], [], 1⟩) none :=
  ⟨by decide, rfl, by decide, rfl, by decide, rfl⟩

end OpenGauss.Security
