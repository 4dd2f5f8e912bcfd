import DmaAccel.Gemm.Allocation
import Mathlib.Algebra.Ring.Rat

/-!
# One row of the product by SCALE_ADD

Source `track-a/dma_accel_gemm_row_via_scale_add.cpp`. A row of C is the sum of the rows of B, each
scaled by an entry of A, and the program has the device add them up in a chain, each step with the
result of the one before. It waits for each step and goes on only if its status is 0, so that the
device has computed `src1 * scalar + src2`. The arithmetic is any in which `a * b` and `a + b` do
not depend on the order of the two, as in `float` where NaNs count as one value: nothing needs to
be exact here. The `!=` of the comparison is a parameter, as a NaN is not equal to itself. `none`
is an access outside a buffer or a vector.
-/

namespace DmaAccel.Gemm.Row

open DmaAccel.Base
open DmaAccel.Driver (U32)

variable {F : Type} [Zero F] [CommMagma F] [AddCommMagma F]

/-- `kBufSize`, with `sizeof(float)` 4. -/
def kBufSize (kN : U32) : U32 := kN * 4

/-- What `alloc_buffer(kBufSize)` returns: as many floats as fit, whatever they are. -/
structure RowBuffer (F : Type) (kN : U32) where
  cells : List F
  length_eq : cells.length = (kBufSize kN / 4).toNat

section Program

variable (kN kK : U32) (aRowValue : U32 → F) (bValue : U32 → U32 → F)

/-- `reference_row`. -/
def referenceRow : Option (List F) :=
  forLoop kK (fun k ↦ forLoop kN fun i c ↦ do
    let old ← load c i
    store c i (old + aRowValue k * bValue k i)) (List.replicate (1 * kN.toNat) 0)

/-- `zero` after `memset`. -/
def zeroRow : List F := List.replicate (kBufSize kN / 4).toNat 0

/-- `b_rows`. -/
def bRows (alloc : U32 → RowBuffer F kN) : Option (List (List F)) :=
  collect kK fun k ↦ forLoop kN (fun i dst ↦ store dst i (bValue k i)) (alloc k).cells

/-- SCALE_ADD of whole Buffers: what is in `dst` once it has succeeded. -/
def scaleAdd (src1 src2 : List F) (scalar : F) : List F :=
  List.zipWith (fun x y ↦ x * scalar + y) src1 src2

/-- `prev`, the source of a step: the result of the step before. -/
def prev (zero : List F) (acc : List (List F)) (k : U32) : Option (List F) :=
  if k = 0 then some zero else load acc (k - 1)

/-- `acc`, the chain on top of `zero`. -/
def acc (zero : List F) (bRows : List (List F)) : Option (List (List F)) :=
  forLoop kK (fun k acc ↦ do
    let prev ← prev zero acc k
    let row ← load bRows k
    return acc ++ [scaleAdd row prev (aRowValue k)]) []

/-- `main` with its Buffers allocated and every step a success: it prints PASS on `some none`, FAIL
on an element that differs. -/
def main (neq : F → F → Bool) (alloc : U32 → RowBuffer F kN) : Option (Option U32) := do
  let bRows ← bRows kN kK bValue alloc
  let acc ← acc kK aRowValue (zeroRow kN) bRows
  let reference ← referenceRow kN kK aRowValue bValue
  let result ← acc.getLast?
  searchLoop kN fun i ↦ do
    let got ← load result i
    let want ← load reference i
    return if neq got want then some i else none

end Program

section Spec

variable {kN : U32}

/-- The first `m` terms of element `i`, added up in order. -/
def partialSum (aRowValue : U32 → F) (bValue : U32 → U32 → F) : Nat → Nat → F
  | 0, _ => 0
  | m + 1, i => partialSum aRowValue bValue m i +
      aRowValue (BitVec.ofNat 32 m) * bValue (BitVec.ofNat 32 m) (BitVec.ofNat 32 i)

/-- The array holds a row of `kN` elements. -/
def Holds (m : List F) (kN : U32) (f : Nat → F) : Prop := RowMajor m 1 kN.toNat fun _ ↦ f

/-- The size of a row does not come round. -/
theorem toNat_kBufSize (hfit : kN.toNat * 4 < 2 ^ 32) : (kBufSize kN).toNat = kN.toNat * 4 :=
  BitVec.toNat_mul_of_lt hfit

theorem toNat_floats (hfit : kN.toNat * 4 < 2 ^ 32) : (kBufSize kN / 4).toNat = kN.toNat := by
  rw [BitVec.toNat_udiv, toNat_kBufSize hfit]
  exact Nat.mul_div_cancel _ (by decide)

omit [CommMagma F] [AddCommMagma F] in
theorem zeroRow_holds (hfit : kN.toNat * 4 < 2 ^ 32) :
    Holds (zeroRow (F := F) kN) kN fun _ ↦ 0 := by
  rw [zeroRow, toNat_floats hfit, ← Nat.one_mul kN.toNat]
  exact RowMajor.replicate 1 kN.toNat 0

omit [Zero F] [CommMagma F] [AddCommMagma F] in
/-- The elements of a row. -/
theorem Holds.mem_iff {m : List F} {f : Nat → F} (hm : Holds m kN f) {x : F} :
    x ∈ m ↔ ∃ i < kN, f i.toNat = x := by
  have hlen : m.length = kN.toNat := by rw [hm.length, Nat.one_mul]
  have hget {i : Nat} (hi : i < kN.toNat) : m[i]? = some (f i) := by
    simpa using hm.get 0 Nat.one_pos i hi
  rw [List.mem_iff_getElem?]
  constructor
  · rintro ⟨i, hi⟩
    obtain ⟨hlt, -⟩ := List.getElem?_eq_some_iff.mp hi
    rw [hlen] at hlt
    have hnat : (BitVec.ofNat 32 i).toNat = i := by
      rw [BitVec.toNat_ofNat, Nat.mod_eq_of_lt (hlt.trans kN.isLt)]
    refine ⟨BitVec.ofNat 32 i, BitVec.lt_def.mpr (hnat.symm ▸ hlt), ?_⟩
    rw [hget hlt] at hi
    rw [hnat]
    exact Option.some.inj hi
  · rintro ⟨i, hi, rfl⟩
    exact ⟨i.toNat, hget (BitVec.lt_def.mp hi)⟩

omit [Zero F] [CommMagma F] [AddCommMagma F] in
/-- A loop that changes each element of a row by itself. -/
theorem forLoop_row {body : U32 → List F → Option (List F)} {g : Nat → F → F} {m : List F}
    {f : Nat → F} (hm : Holds m kN f)
    (h : ∀ i < kN, Simulates (RowMajor · 1 kN.toNat) (body i) (mapCell 0 i.toNat (g i.toNat))) :
    ∃ m', forLoop kN body m = some m' ∧ Holds m' kN fun i ↦ g i (f i) := by
  obtain ⟨m', hrun, hm'⟩ := simulates_mapRow h m _ hm
  refine ⟨m', hrun, hm'.congr fun r hr c hc ↦ ?_⟩
  obtain rfl : r = 0 := by omega
  simp [mapRow, hc]

theorem toNat_lt {i : U32} (hi : i < kN) : i.toNat < kN.toNat ∧ i.toNat = 0 * kN.toNat + i.toNat :=
  ⟨BitVec.lt_def.mp hi, by omega⟩

variable (kN kK : U32) (aRowValue : U32 → F) (bValue : U32 → U32 → F)

/-- `reference_row` adds up the terms. -/
theorem referenceRow_spec :
    ∃ c, referenceRow kN kK aRowValue bValue = some c ∧
      Holds c kN (partialSum aRowValue bValue kK.toNat) := by
  refine forLoop_invariant (fun m c ↦ Holds c kN (partialSum aRowValue bValue m))
    (RowMajor.replicate 1 kN.toNat 0) ?_
  intro k hk c hc
  refine (forLoop_row hc (g := fun i x ↦ x + aRowValue k * bValue k (BitVec.ofNat 32 i)) ?_).imp
    fun c' hc' ↦ ⟨hc'.1, hc'.2.congr fun _ _ _ _ ↦ by simp [partialSum]⟩
  intro i hi m f hm
  obtain ⟨hlt, hidx⟩ := toNat_lt hi
  simp only [hm.load Nat.one_pos hlt hidx, Option.bind_eq_bind, Option.bind_some]
  simpa using hm.store Nat.one_pos hlt hidx fun x ↦ x + aRowValue k * bValue k i

omit [CommMagma F] [AddCommMagma F] in
/-- The rows of B are in their Buffers. -/
theorem bRows_spec (hfit : kN.toNat * 4 < 2 ^ 32) (alloc : U32 → RowBuffer F kN) :
    ∃ rows, bRows kN kK bValue alloc = some rows ∧ rows.length = kK.toNat ∧
      ∀ k < kK, ∃ row, load rows k = some row ∧
        Holds row kN fun i ↦ bValue k (BitVec.ofNat 32 i) := by
  have hmake : ∀ i < 1#32, ∀ k < kK, ∃ row,
      forLoop kN (fun i dst ↦ store dst i (bValue k i)) (alloc k).cells = some row ∧
        Holds row kN fun i ↦ bValue k (BitVec.ofNat 32 i) := by
    intro _ _ k _
    have hlen : (alloc k).cells.length = 1 * kN.toNat := by
      rw [(alloc k).length_eq, toNat_floats hfit, Nat.one_mul]
    have : Inhabited F := ⟨0⟩
    obtain ⟨f, hf⟩ := RowMajor.exists_of_length hlen
    have hany : Holds (alloc k).cells kN (f 0) := hf.congr fun r hr c _ ↦ by
      rw [Nat.lt_one_iff.mp hr]
    refine forLoop_row (g := fun i _ ↦ bValue k (BitVec.ofNat 32 i)) hany ?_
    intro i hi m f hm
    obtain ⟨hlt, hidx⟩ := toNat_lt hi
    simpa using hm.store Nat.one_pos hlt hidx fun _ ↦ bValue k i
  obtain ⟨rows, hrows, hlen, hfilled⟩ := grid_spec hmake
  refine ⟨rows, ?_, ?_, ?_⟩
  · have hone : (1#32).toNat = 1 := rfl
    exact (grid_row hone _).symm.trans hrows
  · simpa using hlen
  · intro k hk
    obtain ⟨row, hrow, hholds⟩ := hfilled 0 (by decide) k hk (by
      have := BitVec.lt_def.mp hk
      simpa using this)
    exact ⟨row, by simpa [load] using hrow, hholds⟩

omit [Zero F] in
/-- SCALE_ADD adds a scaled row. -/
theorem scaleAdd_spec {src1 src2 : List F} {f g : Nat → F} (h1 : Holds src1 kN f)
    (h2 : Holds src2 kN g) (scalar : F) :
    Holds (scaleAdd src1 src2 scalar) kN fun i ↦ g i + scalar * f i := by
  constructor
  · rw [scaleAdd, List.length_zipWith, h1.length, h2.length, Nat.min_self]
  · intro r hr i hi
    rw [scaleAdd, List.getElem?_zipWith, h1.get r hr i hi, h2.get r hr i hi]
    simp only [add_comm (g i), mul_comm scalar]

/-- Each step of the chain adds one more term. -/
theorem acc_spec (hfit : kN.toNat * 4 < 2 ^ 32) {rows : List (List F)}
    (hrows : ∀ k < kK, ∃ row, load rows k = some row ∧
      Holds row kN fun i ↦ bValue k (BitVec.ofNat 32 i)) :
    ∃ acc, Row.acc kK aRowValue (zeroRow kN) rows = some acc ∧
      acc.length = kK.toNat ∧ ∀ m, m + 1 = kK.toNat → ∃ row, acc[m]? = some row ∧
        Holds row kN (partialSum aRowValue bValue kK.toNat) := by
  refine forLoop_invariant
    (fun n (acc : List (List F)) ↦ acc.length = n ∧ ∀ m, m + 1 = n → ∃ row, acc[m]? = some row ∧
      Holds row kN (partialSum aRowValue bValue n)) ⟨rfl, fun m hm ↦ by omega⟩ ?_
  rintro k hk acc ⟨hlen, hlast⟩
  obtain ⟨row, hrow, hholds⟩ := hrows k hk
  obtain ⟨src, hprev, hsum⟩ : ∃ src,
      prev (zeroRow kN) acc k = some src ∧
        Holds src kN (partialSum aRowValue bValue k.toNat) := by
    by_cases hk0 : k = 0
    · subst hk0
      exact ⟨_, if_pos rfl, zeroRow_holds hfit⟩
    · have hsub : (k - 1).toNat + 1 = k.toNat := by
        have hpos : k.toNat ≠ 0 := fun h ↦ hk0 (BitVec.eq_of_toNat_eq h)
        have hle : 1 ≤ k := BitVec.le_def.mpr (Nat.one_le_iff_ne_zero.mpr hpos)
        rw [BitVec.toNat_sub_of_le hle]
        exact Nat.sub_add_cancel (BitVec.le_def.mp hle)
      obtain ⟨src, hprev, hsum⟩ := hlast _ hsub
      exact ⟨src, (if_neg hk0).trans hprev, hsum⟩
  refine ⟨acc ++ [scaleAdd row src (aRowValue k)], ?_, ?_, ?_⟩
  · rw [hprev, hrow]
    rfl
  · rw [List.length_append, hlen, List.length_singleton]
  · rintro m hm
    obtain rfl : m = acc.length := by omega
    refine ⟨_, List.getElem?_concat_length, ?_⟩
    exact (scaleAdd_spec kN hholds hsum (aRowValue k)).congr fun _ _ _ _ ↦ by
      simp [partialSum]

/-- Where every step succeeds, the last result of the chain is the row that the host computes, and
the comparison finds what differs from itself. -/
theorem chain_eq_reference (hfit : kN.toNat * 4 < 2 ^ 32) (neq : F → F → Bool)
    (alloc : U32 → RowBuffer F kN) {rows acc : List (List F)} {reference : List F}
    (hrows : bRows kN kK bValue alloc = some rows)
    (hacc : Row.acc kK aRowValue (zeroRow kN) rows = some acc)
    (href : referenceRow kN kK aRowValue bValue = some reference) (hK : 0 < kK.toNat) :
    acc.getLast? = some reference ∧
      (main kN kK aRowValue bValue neq alloc = some none ↔
        ∀ x ∈ reference, neq x x = false) := by
  obtain ⟨rows', hrows', -, hB⟩ := bRows_spec kN kK bValue hfit alloc
  obtain rfl := Option.some.inj (hrows.symm.trans hrows')
  obtain ⟨acc', hacc', hlen, hlast⟩ := acc_spec kN kK aRowValue bValue hfit hB
  obtain rfl := Option.some.inj (hacc.symm.trans hacc')
  obtain ⟨reference', href', hsum⟩ := referenceRow_spec kN kK aRowValue bValue
  obtain rfl := Option.some.inj (href.symm.trans href')
  obtain ⟨result, hresult, hsum'⟩ := hlast (kK.toNat - 1) (Nat.sub_add_cancel hK)
  obtain rfl := hsum'.unique hsum
  have hgetLast : acc.getLast? = some result := by
    rw [List.getLast?_eq_getElem?, hlen, hresult]
  refine ⟨hgetLast, ?_⟩
  rw [main, hrows]
  simp only [Option.bind_eq_bind, Option.bind_some, hacc, href, hgetLast]
  rw [searchLoop_none_iff]
  simp only [hsum.mem_iff, forall_exists_index, and_imp]
  constructor
  · rintro h x i hi rfl
    obtain ⟨hlt, hidx⟩ := toNat_lt hi
    have hstep := h i hi
    simpa [hsum.load Nat.one_pos hlt hidx] using hstep
  · intro h i hi
    obtain ⟨hlt, hidx⟩ := toNat_lt hi
    simp [hsum.load Nat.one_pos hlt hidx, h _ i hi rfl]

end Spec

/-- `a_row_value`. -/
def aRowValue (k : U32) : ℚ := (k + 1).toNat / 2

/-- `b_value`. -/
def bValue (k i : U32) : ℚ := (i % 13 + k).toNat

/-- The Buffers of the program as it is. -/
def alloc (_ : U32) : RowBuffer ℚ 1024 := ⟨List.replicate 1024 0, List.length_replicate⟩

end DmaAccel.Gemm.Row
