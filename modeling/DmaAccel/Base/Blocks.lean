import Mathlib.Algebra.BigOperators.Group.Finset.Basic
import Mathlib.Algebra.BigOperators.Ring.Finset

/-!
# Products of matrices cut into padded square blocks

A matrix is a function of the row and the column. `block` is one of the square blocks it is cut
into, padded with zeros where it goes past the bounds. `sum_product_block` adds up the products of
a row of blocks with a column of blocks: within the bounds this is the product of the matrices.
-/

namespace DmaAccel.Base

universe u

variable {R : Type u} [NonUnitalNonAssocSemiring R]

/-- Element `(r, c)` of the product of two matrices, over `depth` columns of the one and rows of
the other. -/
def product (depth : Nat) (f g : Nat → Nat → R) (r c : Nat) : R :=
  ∑ k ∈ Finset.range depth, f r k * g k c

@[simp]
theorem product_zero (f g : Nat → Nat → R) (r c : Nat) : product 0 f g r c = 0 := rfl

theorem product_succ (depth : Nat) (f g : Nat → Nat → R) (r c : Nat) :
    product (depth + 1) f g r c = product depth f g r c + f r depth * g depth c :=
  Finset.sum_range_succ _ _

/-- Block `(ti, tj)` of a matrix, of `size` rows and columns, with zeros outside the bounds. -/
def block (size rows cols : Nat) (f : Nat → Nat → R) (ti tj r c : Nat) : R :=
  if ti * size + r < rows ∧ tj * size + c < cols then f (ti * size + r) (tj * size + c) else 0

/-- A sum over `count` runs of `size` terms each. -/
theorem sum_range_runs (count size : Nat) (h : Nat → R) :
    ∑ t ∈ Finset.range count, ∑ k ∈ Finset.range size, h (t * size + k) =
      ∑ x ∈ Finset.range (count * size), h x := by
  induction count with
  | zero => simp
  | succ count ih => rw [Finset.sum_range_succ, ih, Nat.succ_mul, Finset.sum_range_add]

/-- Terms past the end of a sum that are zero. -/
theorem sum_range_padded {depth len : Nat} (hlen : depth ≤ len) (h : Nat → R) :
    ∑ x ∈ Finset.range len, (if x < depth then h x else 0) = ∑ x ∈ Finset.range depth, h x := by
  have hsub : Finset.range depth ⊆ Finset.range len := Finset.range_subset_range.mpr hlen
  have hzero : ∀ x ∈ Finset.range len, x ∉ Finset.range depth →
      (if x < depth then h x else 0) = 0 := fun x _ hx ↦ if_neg (by simpa using hx)
  rw [← Finset.sum_subset hsub hzero]
  exact Finset.sum_congr rfl fun x hx ↦ if_pos (Finset.mem_range.mp hx)

/-- Within the bounds of the product a row of blocks times a column of blocks is a row of the one
matrix times a column of the other: what pads either block adds nothing. -/
theorem sum_product_block {size rows cols depth count ti tj r c : Nat} (f g : Nat → Nat → R)
    (hr : ti * size + r < rows) (hc : tj * size + c < cols) (hcount : depth ≤ count * size) :
    ∑ tk ∈ Finset.range count,
        product size (block size rows depth f ti tk) (block size depth cols g tk tj) r c =
      product depth f g (ti * size + r) (tj * size + c) := by
  have hterm (tk k : Nat) :
      block size rows depth f ti tk r k * block size depth cols g tk tj k c =
        if tk * size + k < depth then
          f (ti * size + r) (tk * size + k) * g (tk * size + k) (tj * size + c) else 0 := by
    by_cases hk : tk * size + k < depth
    · rw [block, block, if_pos ⟨hr, hk⟩, if_pos ⟨hk, hc⟩, if_pos hk]
    · rw [block, if_neg (fun h ↦ hk h.2), zero_mul, if_neg hk]
  simp only [product, hterm]
  rw [sum_range_runs count size fun x ↦
    if x < depth then f (ti * size + r) x * g x (tj * size + c) else 0]
  exact sum_range_padded hcount _

end DmaAccel.Base
