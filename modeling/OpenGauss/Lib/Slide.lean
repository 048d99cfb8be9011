import OpenGauss.Lib.Mem

/-!
# Sliding blocks together in place

Blocks of one memory, listed from the highest address down, are moved up one
after the other until no gap is left between them and a given top. Every move
may overlap its own source and the sources of blocks already moved, but never
the source of a block still to be moved, so no byte is lost.

* `Stacked.total_le`: disjoint blocks above a floor fit between floor and top
* `placed_bounds`, `placed_pairwise`: where the moved blocks lie
* `slide_read`: a moved block holds the bytes it held before
* `slide_outside`: nothing else changes
-/

namespace OpenGauss.Lib

variable {top : Nat}

structure Block (κ : Type*) where
  key : κ
  start : Nat
  len : Nat

namespace Block

variable {κ : Type*} {bs : List (Block κ)} {x : Block κ × Nat}

def total (bs : List (Block κ)) : Nat := (bs.map Block.len).sum

/-- The blocks lie below `top`, each below all the ones before it. -/
structure Stacked (top : Nat) (bs : List (Block κ)) : Prop where
  below : ∀ b ∈ bs, b.start + b.len ≤ top
  ordered : bs.Pairwise fun a b => b.start + b.len ≤ a.start

/-- Each block with the address it is moved to. -/
def placed : Nat → List (Block κ) → List (Block κ × Nat)
  | _, [] => []
  | top, b :: bs => (b, top - b.len) :: placed (top - b.len) bs

/-- The memory after the blocks were moved up to `top`, in list order. -/
def slide : Mem → Nat → List (Block κ) → Mem
  | m, _, [] => m
  | m, top, b :: bs => slide (m.write (top - b.len) (m.read b.start b.len)) (top - b.len) bs

@[simp] theorem total_nil : total ([] : List (Block κ)) = 0 := rfl

@[simp] theorem total_cons (b : Block κ) (bs : List (Block κ)) :
    total (b :: bs) = b.len + total bs := by
  simp [total]

variable {b : Block κ}

theorem Stacked.tail (h : Stacked top (b :: bs)) : Stacked b.start bs where
  below := (List.pairwise_cons.mp h.ordered).1
  ordered := (List.pairwise_cons.mp h.ordered).2

theorem Stacked.head (h : Stacked top (b :: bs)) :
    b.start + b.len ≤ top := h.below b (.head _)

/-- Disjoint blocks between `floor` and `top` have at most that much bytes. -/
theorem Stacked.total_le {floor : Nat} (h : Stacked top bs)
    (hfloor : ∀ b ∈ bs, floor ≤ b.start) (hle : floor ≤ top) : floor + total bs ≤ top := by
  induction bs generalizing top with
  | nil => simpa using hle
  | cons b bs ih =>
    have hrest : floor + total bs ≤ b.start :=
      ih h.tail (fun c hc => hfloor c (.tail _ hc)) (hfloor b (.head _))
    have := h.head
    rw [total_cons]
    omega

/-! ## Where the blocks go -/

@[simp] theorem map_fst_placed (top : Nat) (bs : List (Block κ)) :
    (placed top bs).map Prod.fst = bs := by
  induction bs generalizing top with
  | nil => rfl
  | cons b bs ih => rw [placed, List.map_cons, ih]

theorem mem_of_mem_placed (h : x ∈ placed top bs) : x.1 ∈ bs := by
  rw [← map_fst_placed top bs]
  exact List.mem_map_of_mem h

theorem exists_placed (h : b ∈ bs) : ∃ pos, (b, pos) ∈ placed top bs := by
  rw [← map_fst_placed top bs] at h
  obtain ⟨x, hx, rfl⟩ := List.mem_map.mp h
  exact ⟨x.2, hx⟩

/-- Every moved block lies in the `total` bytes below the top. -/
theorem placed_bounds (hfit : total bs ≤ top)
    (h : x ∈ placed top bs) : top - total bs ≤ x.2 ∧ x.2 + x.1.len ≤ top := by
  induction bs generalizing top with
  | nil => cases h
  | cons b bs ih =>
    rw [total_cons] at hfit ⊢
    rcases List.mem_cons.mp h with rfl | h
    · constructor <;> simp only <;> omega
    · have hrest : top - b.len - total bs ≤ x.2 ∧ x.2 + x.1.len ≤ top - b.len := ih (by omega) h
      omega

/-- Moved blocks keep their order and do not overlap. -/
theorem placed_pairwise (hfit : total bs ≤ top) :
    (placed top bs).Pairwise fun x y => y.2 + y.1.len ≤ x.2 := by
  induction bs generalizing top with
  | nil => exact List.Pairwise.nil
  | cons b bs ih =>
    rw [total_cons] at hfit
    refine List.pairwise_cons.mpr ⟨fun y hy => ?_, ih (by omega)⟩
    exact (placed_bounds (by omega) hy).2

theorem placed_apart {y : Block κ × Nat} (hfit : total bs ≤ top)
    (hx : x ∈ placed top bs) (hy : y ∈ placed top bs) (hne : x ≠ y) :
    x.2 + x.1.len ≤ y.2 ∨ y.2 + y.1.len ≤ x.2 := by
  have : Std.Symm fun x y : Block κ × Nat => x.2 + x.1.len ≤ y.2 ∨ y.2 + y.1.len ≤ x.2 :=
    ⟨fun _ _ h => h.symm⟩
  have hpair : (placed top bs).Pairwise fun x y => x.2 + x.1.len ≤ y.2 ∨ y.2 + y.1.len ≤ x.2 :=
    (placed_pairwise hfit).imp Or.inr
  exact hpair.forall hx hy hne

/-- Alignment of the top and of all lengths is alignment of the new addresses. -/
theorem dvd_placed {d : Nat} (hfit : total bs ≤ top)
    (htop : d ∣ top) (hlen : ∀ b ∈ bs, d ∣ b.len) (h : x ∈ placed top bs) : d ∣ x.2 := by
  induction bs generalizing top with
  | nil => cases h
  | cons b bs ih =>
    rw [total_cons] at hfit
    have hnext : d ∣ top - b.len := Nat.dvd_sub htop (hlen b (.head _))
    rcases List.mem_cons.mp h with rfl | h
    · exact hnext
    · exact ih (by omega) hnext (fun c hc => hlen c (.tail _ hc)) h

theorem dvd_total {d : Nat} (hlen : ∀ b ∈ bs, d ∣ b.len) : d ∣ total bs := by
  induction bs with
  | nil => exact Nat.dvd_zero d
  | cons b bs ih =>
    rw [total_cons]
    exact Nat.dvd_add (hlen b (.head _)) (ih fun c hc => hlen c (.tail _ hc))

/-! ## What the memory holds afterwards -/

theorem slide_outside {m : Mem} {i : Nat} (hfit : total bs ≤ top)
    (h : i < top - total bs ∨ top ≤ i) : slide m top bs i = m i := by
  induction bs generalizing top m with
  | nil => rfl
  | cons b bs ih =>
    rw [total_cons] at hfit h
    rw [slide, ih (by omega) (by omega)]
    apply Mem.write_of_not_mem
    rw [Mem.length_read]
    omega

/-- Blocks below `low`, moved up to a `top` at or above it, hold their bytes.

The induction moves `low` down to the start of the block just moved: what is
still to be moved lies below it, and the move wrote above it. -/
theorem slide_read {low : Nat} {m : Mem}
    (h : Stacked low bs) (hle : low ≤ top) (hfit : total bs ≤ top) (hx : x ∈ placed top bs) :
    (slide m top bs).read x.2 x.1.len = m.read x.1.start x.1.len := by
  induction bs generalizing low top m with
  | nil => cases hx
  | cons b bs ih =>
    rw [total_cons] at hfit
    have hhead := h.head
    rw [slide]
    rcases List.mem_cons.mp hx with rfl | hx
    · -- the later moves stay below the place this block was moved to
      have hkept : ∀ m' : Mem, (slide m' (top - b.len) bs).read (top - b.len) b.len =
          m'.read (top - b.len) b.len := fun m' =>
        Mem.read_congr fun i _ => slide_outside (by omega) (Or.inr (by omega))
      rw [hkept]
      have hself := Mem.read_write_self m (top - b.len) (m.read b.start b.len)
      rwa [Mem.length_read] at hself
    · rw [ih h.tail (by omega) (by omega) hx]
      apply Mem.read_write_of_disjoint
      have := h.tail.below x.1 (mem_of_mem_placed hx)
      omega

end Block

end OpenGauss.Lib
