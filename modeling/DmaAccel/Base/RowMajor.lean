import DmaAccel.Base.Loop
import Mathlib.Tactic.Ring

/-!
# Matrices in row-major arrays

Element `(r, c)` of a matrix of `cols` columns is at `r * cols + c`. `RowMajor m rows cols f` says
that the array `m` holds the `rows` by `cols` matrix `f`; `load` and `store` are its accesses by an
index in a machine word, which fail outside the array. `grid` collects in this order what two
nested loops make.
-/

namespace DmaAccel.Base

universe u

variable {w : Nat} {α : Type u}

/-- Read the element at an index. -/
def load (m : List α) (i : BitVec w) : Option α := m[i.toNat]?

/-- Write the element at an index. -/
def store (m : List α) (i : BitVec w) (x : α) : Option (List α) :=
  if i.toNat < m.length then some (m.set i.toNat x) else none

/-- Two nested loops, each iteration of the inner one appending what it makes. -/
def grid (rows cols : BitVec w) (make : BitVec w → BitVec w → Option α) : Option (List α) :=
  forLoop rows (fun i ↦ forLoop cols fun j xs ↦ do return xs ++ [← make i j]) []

/-- One loop, each iteration appending what it makes. -/
def collect (n : BitVec w) (make : BitVec w → Option α) : Option (List α) :=
  forLoop n (fun i xs ↦ do return xs ++ [← make i]) []

section Index

variable {r r' c c' rows cols : Nat}

theorem index_lt (hr : r < rows) (hc : c < cols) : r * cols + c < rows * cols := by
  calc r * cols + c < r * cols + cols := Nat.add_lt_add_left hc _
    _ = (r + 1) * cols := by ring
    _ ≤ rows * cols := Nat.mul_le_mul_right _ hr

theorem index_div (hc : c < cols) : (r * cols + c) / cols = r := by
  rw [Nat.mul_comm, Nat.mul_add_div (by omega), Nat.div_eq_of_lt hc, Nat.add_zero]

theorem index_mod (hc : c < cols) : (r * cols + c) % cols = c := by
  rw [Nat.mul_comm, Nat.mul_add_mod, Nat.mod_eq_of_lt hc]

/-- No two places of a matrix share an index. -/
theorem index_inj (hc : c < cols) (hc' : c' < cols) (h : r * cols + c = r' * cols + c') :
    r = r' ∧ c = c' := by
  constructor
  · calc r = (r * cols + c) / cols := (index_div hc).symm
      _ = r' := by rw [h, index_div hc']
  · calc c = (r * cols + c) % cols := (index_mod hc).symm
      _ = c' := by rw [h, index_mod hc']

/-- An index of a matrix that fits does not wrap. -/
theorem toNat_index {i j n : BitVec w} (hfit : rows * n.toNat < 2 ^ w) (hi : i.toNat < rows)
    (hj : j.toNat < n.toNat) : (i * n + j).toNat = i.toNat * n.toNat + j.toNat := by
  have hlt : i.toNat * n.toNat + j.toNat < 2 ^ w := (index_lt hi hj).trans hfit
  have hmul : (i * n).toNat = i.toNat * n.toNat := BitVec.toNat_mul_of_lt (by omega)
  rw [BitVec.toNat_add_of_lt (by omega), hmul]

end Index

/-- The array holds a matrix. -/
structure RowMajor (m : List α) (rows cols : Nat) (f : Nat → Nat → α) : Prop where
  length : m.length = rows * cols
  get : ∀ r < rows, ∀ c < cols, m[r * cols + c]? = some (f r c)

/-- Element `(r, c)` is replaced by `g` of it. -/
def mapCell (r c : Nat) (g : α → α) (f : Nat → Nat → α) : Nat → Nat → α := fun r' c' ↦
  if r' = r ∧ c' = c then g (f r' c') else f r' c'

/-- The first `cols` elements of row `r` are replaced. -/
def mapRow (r cols : Nat) (g : Nat → α → α) (f : Nat → Nat → α) : Nat → Nat → α := fun r' c ↦
  if r' = r ∧ c < cols then g c (f r' c) else f r' c

/-- The first `cols` elements of each of the first `rows` rows are replaced. -/
def mapBlock (rows cols : Nat) (g : Nat → Nat → α → α) (f : Nat → Nat → α) : Nat → Nat → α :=
  fun r c ↦ if r < rows ∧ c < cols then g r c (f r c) else f r c

namespace RowMajor

variable {m : List α} {rows cols : Nat} {f g : Nat → Nat → α} {i : BitVec w} {r c : Nat}

/-- An array of equal elements. -/
theorem replicate (rows cols : Nat) (x : α) :
    RowMajor (List.replicate (rows * cols) x) rows cols fun _ _ ↦ x :=
  ⟨List.length_replicate, fun _ hr _ hc ↦ List.getElem?_replicate_of_lt (index_lt hr hc)⟩

/-- An array of the right length holds some matrix. -/
theorem exists_of_length [Inhabited α] (h : m.length = rows * cols) :
    ∃ f, RowMajor m rows cols f := by
  refine ⟨fun r c ↦ m[r * cols + c]?.getD default, h, ?_⟩
  intro r hr c hc
  have hlt : r * cols + c < m.length := by
    rw [h]
    exact index_lt hr hc
  rw [List.getElem?_eq_getElem hlt]
  rfl

/-- Only what the matrix is within its bounds counts. -/
theorem congr (h : RowMajor m rows cols f) (hfg : ∀ r < rows, ∀ c < cols, f r c = g r c) :
    RowMajor m rows cols g :=
  ⟨h.length, fun r hr c hc ↦ by rw [h.get r hr c hc, hfg r hr c hc]⟩

/-- The array of a matrix is determined by its elements. -/
theorem unique {m' : List α} (h : RowMajor m rows cols f) (h' : RowMajor m' rows cols f) :
    m = m' := by
  apply List.ext_getElem?
  intro n
  by_cases hn : n < rows * cols
  · have hpos : 0 < rows * cols := by omega
    have hcols : 0 < cols := Nat.pos_of_mul_pos_left hpos
    have hrow : n / cols < rows := Nat.div_lt_of_lt_mul (by rwa [Nat.mul_comm])
    have hcol : n % cols < cols := Nat.mod_lt n hcols
    rw [← Nat.div_add_mod' n cols, h.get _ hrow _ hcol, h'.get _ hrow _ hcol]
  · rw [List.getElem?_eq_none (by rw [h.length]; omega),
      List.getElem?_eq_none (by rw [h'.length]; omega)]

/-- A read within the bounds. -/
theorem load (h : RowMajor m rows cols f) (hr : r < rows) (hc : c < cols)
    (hi : i.toNat = r * cols + c) : Base.load m i = some (f r c) := by
  rw [Base.load, hi]
  exact h.get r hr c hc

/-- A write within the bounds changes that element and no other. -/
theorem store (h : RowMajor m rows cols f) (hr : r < rows) (hc : c < cols)
    (hi : i.toNat = r * cols + c) (g : α → α) :
    ∃ m', Base.store m i (g (f r c)) = some m' ∧ RowMajor m' rows cols (mapCell r c g f) := by
  have hlt : r * cols + c < m.length := by
    rw [h.length]
    exact index_lt hr hc
  refine ⟨m.set (r * cols + c) (g (f r c)), ?_, ?_, ?_⟩
  · rw [Base.store, hi, if_pos hlt]
  · rw [List.length_set, h.length]
  · intro r' hr' c' hc'
    rw [mapCell]
    by_cases heq : r' = r ∧ c' = c
    · obtain ⟨rfl, rfl⟩ := heq
      rw [if_pos ⟨rfl, rfl⟩, List.getElem?_set_self hlt]
    · have hne : r * cols + c ≠ r' * cols + c' := by
        intro hidx
        obtain ⟨rfl, rfl⟩ := index_inj hc hc' hidx
        exact heq ⟨rfl, rfl⟩
      rw [if_neg heq, List.getElem?_set_ne hne, h.get r' hr' c' hc']

end RowMajor

section Cells

variable {σ : Type u} {R : σ → (Nat → Nat → α) → Prop} {n : BitVec w}
  {body : BitVec w → σ → Option σ}

/-- Replacing the elements of a row one after the other. -/
theorem simulates_mapRow {r : Nat} {g : Nat → α → α}
    (h : ∀ c < n, Simulates R (body c) (mapCell r c.toNat (g c.toNat))) :
    Simulates R (forLoop n body) (mapRow r n.toNat g) := by
  refine Simulates.forLoop (fun c ↦ mapCell r c (g c)) (fun m ↦ mapRow r m g) ?_ ?_ h
  · intro f
    funext r' c
    simp [mapRow]
  · intro m f
    funext r' c
    simp only [mapRow, mapCell]
    grind

/-- Replacing the rows one after the other. -/
theorem simulates_mapBlock {cols : Nat} {g : Nat → Nat → α → α}
    (h : ∀ r < n, Simulates R (body r) (mapRow r.toNat cols (g r.toNat))) :
    Simulates R (forLoop n body) (mapBlock n.toNat cols g) := by
  refine Simulates.forLoop (fun r ↦ mapRow r cols (g r)) (fun m ↦ mapBlock m cols g) ?_ ?_ h
  · intro f
    funext r c
    simp [mapBlock]
  · intro m f
    funext r c
    simp only [mapBlock, mapRow]
    grind

end Cells

section Grid

/-- A grid of one column. -/
theorem grid_one {rows cols : BitVec w} (hcols : cols.toNat = 1)
    (make : BitVec w → BitVec w → Option α) :
    grid rows cols make = collect rows fun i ↦ make i 0 := by
  unfold grid collect
  congr 1
  funext i xs
  rw [forLoop_one hcols]

/-- A grid of one row. -/
theorem grid_row {rows cols : BitVec w} (hrows : rows.toNat = 1)
    (make : BitVec w → BitVec w → Option α) : grid rows cols make = collect cols (make 0) := by
  rw [grid, forLoop_one hrows, collect]

variable {rows cols : BitVec w} {P : BitVec w → BitVec w → α → Prop} {xs : List α}

/-- The first `len` elements of a grid, each with what its iteration is to make. -/
def Filled (rows cols : BitVec w) (P : BitVec w → BitVec w → α → Prop) (len : Nat)
    (xs : List α) : Prop :=
  xs.length = len ∧ ∀ i < rows, ∀ j < cols, i.toNat * cols.toNat + j.toNat < len →
    ∃ x, xs[i.toNat * cols.toNat + j.toNat]? = some x ∧ P i j x

theorem Filled.push {i j : BitVec w} {x : α} (hj : j < cols)
    (h : Filled rows cols P (i.toNat * cols.toNat + j.toNat) xs) (hx : P i j x) :
    Filled rows cols P (i.toNat * cols.toNat + j.toNat + 1) (xs ++ [x]) := by
  obtain ⟨hlen, hfilled⟩ := h
  refine ⟨by rw [List.length_append, hlen, List.length_singleton], ?_⟩
  intro i' hi' j' hj' hlt
  by_cases hold : i'.toNat * cols.toNat + j'.toNat < xs.length
  · rw [List.getElem?_append_left hold]
    exact hfilled i' hi' j' hj' (by omega)
  · have hidx : i'.toNat * cols.toNat + j'.toNat = i.toNat * cols.toNat + j.toNat := by omega
    obtain ⟨hieq, hjeq⟩ := index_inj (BitVec.lt_def.mp hj') (BitVec.lt_def.mp hj) hidx
    obtain rfl : i' = i := BitVec.eq_of_toNat_eq hieq
    obtain rfl : j' = j := BitVec.eq_of_toNat_eq hjeq
    exact ⟨x, by rw [← hlen, List.getElem?_concat_length], hx⟩

/-- What each iteration makes is in the grid, in row-major order. -/
theorem grid_spec {make : BitVec w → BitVec w → Option α}
    (h : ∀ i < rows, ∀ j < cols, ∃ x, make i j = some x ∧ P i j x) :
    ∃ xs, grid rows cols make = some xs ∧
      Filled rows cols P (rows.toNat * cols.toNat) xs := by
  refine forLoop_invariant (fun i ↦ Filled rows cols P (i * cols.toNat)) ?_ ?_
  · exact ⟨by simp, fun i _ j _ hlt ↦ by omega⟩
  · intro i hi xs hxs
    rw [Nat.succ_mul]
    refine forLoop_invariant (fun j ↦ Filled rows cols P (i.toNat * cols.toNat + j)) hxs ?_
    intro j hj ys hys
    obtain ⟨x, hx, hP⟩ := h i hi j hj
    exact ⟨ys ++ [x], by rw [hx]; rfl, hys.push hj hP⟩

/-- A grid is determined by what its iterations make, where that is determined. -/
theorem Filled.unique {ys : List α} (hP : ∀ i j x y, P i j x → P i j y → x = y)
    (h : Filled rows cols P (rows.toNat * cols.toNat) xs)
    (h' : Filled rows cols P (rows.toNat * cols.toNat) ys) : xs = ys := by
  apply List.ext_getElem?
  intro n
  by_cases hn : n < rows.toNat * cols.toNat
  · have hpos : 0 < rows.toNat * cols.toNat := by omega
    have hcols : 0 < cols.toNat := Nat.pos_of_mul_pos_left hpos
    have hrow : n / cols.toNat < rows.toNat := Nat.div_lt_of_lt_mul (by rwa [Nat.mul_comm])
    have hcol : n % cols.toNat < cols.toNat := Nat.mod_lt n hcols
    have hi : (BitVec.ofNat w (n / cols.toNat)).toNat = n / cols.toNat :=
      Nat.mod_eq_of_lt (hrow.trans rows.isLt)
    have hj : (BitVec.ofNat w (n % cols.toNat)).toNat = n % cols.toNat :=
      Nat.mod_eq_of_lt (hcol.trans cols.isLt)
    have hn' : (BitVec.ofNat w (n / cols.toNat)).toNat * cols.toNat +
        (BitVec.ofNat w (n % cols.toNat)).toNat = n := by rw [hi, hj, Nat.div_add_mod']
    have hlt : BitVec.ofNat w (n / cols.toNat) < rows := by rwa [BitVec.lt_def, hi]
    have hlt' : BitVec.ofNat w (n % cols.toNat) < cols := by rwa [BitVec.lt_def, hj]
    obtain ⟨x, hx, hPx⟩ := h.2 _ hlt _ hlt' (by rwa [hn'])
    obtain ⟨y, hy, hPy⟩ := h'.2 _ hlt _ hlt' (by rwa [hn'])
    rw [hn'] at hx hy
    rw [hx, hy, hP _ _ x y hPx hPy]
  · rw [List.getElem?_eq_none (by rw [h.1]; omega), List.getElem?_eq_none (by rw [h'.1]; omega)]

/-- Reading a grid that fits at a machine index. -/
theorem Filled.load (h : Filled rows cols P (rows.toNat * cols.toNat) xs)
    (hfit : rows.toNat * cols.toNat < 2 ^ w) {i j : BitVec w} (hi : i < rows) (hj : j < cols) :
    ∃ x, Base.load xs (i * cols + j) = some x ∧ P i j x := by
  rw [Base.load, toNat_index hfit (BitVec.lt_def.mp hi) (BitVec.lt_def.mp hj)]
  exact h.2 i hi j hj (index_lt (BitVec.lt_def.mp hi) (BitVec.lt_def.mp hj))

end Grid

end DmaAccel.Base
