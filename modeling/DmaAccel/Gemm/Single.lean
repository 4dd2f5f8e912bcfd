import DmaAccel.Gemm.Agreement

/-!
# The products in single precision

The programs compute in `float` and compare with `!=`, on the ground that all inputs are small
integers and every sum stays within the range in which `float` represents every integer
(`track-a/dma_accel_gemm_stage1.cpp` 170–173, `track-a/dma_accel_gemm_stage2.cpp` 179–183). Here
`c += a * b` is an operation that is exact only where product and sum lie in that range. With the
inputs bounded, stage 3 in this arithmetic computes what it does with integers.
-/

namespace DmaAccel.Gemm

open DmaAccel.Base
open DmaAccel.Driver (U32)

/-- Up to here every integer is a `float`. -/
def exactRange : Nat := 2 ^ 24

/-- The operation `x += a * b` of `float` on integers, with the product rounded by itself or not:
where product and sum are representable, nothing is rounded. -/
structure Single where
  mulAdd : Int → Int → Int → Int
  exact : ∀ x a b, (a * b).natAbs ≤ exactRange → (x + a * b).natAbs ≤ exactRange →
    mulAdd x a b = x + a * b

/-- `multiplyAccumulate` in single precision. -/
def Single.multiplyAccumulate (F : Single) (rows depth cols : U32) (a b : List Int) :
    List Int → Option (List Int) :=
  accumulate F.mulAdd rows depth cols a b

namespace Shape

/-- `c_tiles` in single precision. -/
def cTilesIn (F : Single) (S : Shape) (aTiles bTiles : List (List Int)) :
    Option (List (List Int)) :=
  grid S.kMTiles S.kNTiles fun ti tj ↦
    forLoop S.kKTiles (fun tk cData ↦ do
      let aData ← load aTiles (ti * S.kKTiles + tk)
      let bData ← load bTiles (tk * S.kNTiles + tj)
      F.multiplyAccumulate S.kTile S.kTile S.kTile aData bData cData) S.zeroTile

/-- The tiled computation in single precision. -/
def tiledGemmIn (F : Single) (S : Shape) (aValue bValue : U32 → U32 → Int) :
    Option (List (List Int)) := do
  let aTiles ← S.aTiles aValue
  let bTiles ← S.bTiles bValue
  S.cTilesIn F aTiles bTiles

/-- `reference_gemm` in single precision. -/
def referenceGemmIn (F : Single) (S : Shape) (aValue bValue : U32 → U32 → Int) :
    Option (List Int) := do
  let a ← fill S.kK S.kM S.kK aValue (List.replicate (S.kM * S.kK).toNat 0)
  let b ← fill S.kN S.kK S.kN bValue (List.replicate (S.kK * S.kN).toNat 0)
  F.multiplyAccumulate S.kM S.kK S.kN a b (List.replicate (S.kM * S.kN).toNat 0)

/-- `main` in single precision. -/
def mainIn (F : Single) (S : Shape) (aValue bValue : U32 → U32 → Int) :
    Option (Option Mismatch) := do
  let cTiles ← S.tiledGemmIn F aValue bValue
  let reference ← S.referenceGemmIn F aValue bValue
  S.compare cTiles reference

end Shape

section Loops

variable {rows depth cols : U32} {a b c : List Int} {f g h : Nat → Nat → Int}

/-- Where every product and every partial sum is exact, so are the terms. -/
theorem Single.terms_eq_product (F : Single) {x : Int} {r col m : Nat}
    (hexact : ∀ k < m, (f r k * g k col).natAbs ≤ exactRange ∧
      (x + product (k + 1) f g r col).natAbs ≤ exactRange) :
    terms F.mulAdd (f r) (g · col) x m = x + product m f g r col := by
  induction m with
  | zero => simp [terms]
  | succ m ih =>
    obtain ⟨hprod, hsum⟩ := hexact m (Nat.lt_succ_self m)
    rw [product_succ, ← add_assoc] at hsum
    rw [terms, ih fun k hk ↦ hexact k (by omega), F.exact _ _ _ hprod hsum, product_succ,
      add_assoc]

/-- Where every product and every partial sum is exact, the product of the matrices is added. -/
theorem Single.multiplyAccumulate_spec (F : Single) (ha : RowMajor a rows.toNat depth.toNat f)
    (hb : RowMajor b depth.toNat cols.toNat g) (hc : RowMajor c rows.toNat cols.toNat h)
    (hafit : rows.toNat * depth.toNat < 2 ^ 32) (hbfit : depth.toNat * cols.toNat < 2 ^ 32)
    (hcfit : rows.toNat * cols.toNat < 2 ^ 32)
    (hexact : ∀ r < rows.toNat, ∀ col < cols.toNat, ∀ k < depth.toNat,
      (f r k * g k col).natAbs ≤ exactRange ∧
        (h r col + product (k + 1) f g r col).natAbs ≤ exactRange) :
    ∃ c', F.multiplyAccumulate rows depth cols a b c = some c' ∧
      RowMajor c' rows.toNat cols.toNat
        (mapBlock rows.toNat cols.toNat (fun r col x ↦ x + product depth.toNat f g r col) h) := by
  obtain ⟨c', hc', hrep⟩ := accumulate_simulates F.mulAdd ha hb hafit hbfit hcfit c h hc
  refine ⟨c', hc', hrep.congr fun r hr col hcol ↦ ?_⟩
  simp only [mapBlock, hr, hcol, and_self, if_true]
  exact F.terms_eq_product (hexact r hr col hcol)

end Loops

section Bounds

/-- Terms of which those past `depth` vanish add up to no more than `depth` of them can. -/
theorem natAbs_sum_terms_le {u : Nat → Int} {depth γ m : Nat}
    (hu : ∀ x < m, (u x).natAbs ≤ if x < depth then γ else 0) :
    (∑ x ∈ Finset.range m, u x).natAbs ≤ min m depth * γ := by
  induction m with
  | zero => simp
  | succ m ih =>
    have hprev := ih fun x hx ↦ hu x (by omega)
    have hlast := hu m (by omega)
    have hadd := Int.natAbs_add_le (∑ x ∈ Finset.range m, u x) (u m)
    rw [Finset.sum_range_succ]
    by_cases hm : m < depth
    · rw [if_pos hm] at hlast
      rw [Nat.min_eq_left (by omega)] at hprev ⊢
      rw [Nat.succ_mul]
      omega
    · rw [if_neg hm] at hlast
      rw [Nat.min_eq_right (by omega)] at hprev ⊢
      omega

end Bounds

namespace Shape

variable {S : Shape} {aValue bValue : U32 → U32 → Int} {α β : Nat}

/-- The inputs are bounded, and so are the sums of `kK` products of them. -/
structure Bounded (S : Shape) (aValue bValue : U32 → U32 → Int) (α β : Nat) : Prop where
  a : ∀ r k, (aValue r k).natAbs ≤ α
  b : ∀ k c, (bValue k c).natAbs ≤ β
  sums : S.kK.toNat * (α * β) ≤ exactRange

/-- A term of a sum: zero where it is padding. -/
def term (S : Shape) (aValue bValue : U32 → U32 → Int) (row col x : Nat) : Int :=
  if row < S.kM.toNat ∧ x < S.kK.toNat ∧ col < S.kN.toNat then
    entries aValue row x * entries bValue x col
  else 0

theorem Bounded.term_le (h : S.Bounded aValue bValue α β) (row col x : Nat) :
    (S.term aValue bValue row col x).natAbs ≤ if x < S.kK.toNat then α * β else 0 := by
  unfold term
  split
  · next hin =>
    rw [if_pos hin.2.1, Int.natAbs_mul]
    exact Nat.mul_le_mul (h.a _ _) (h.b _ _)
  · exact Nat.zero_le _

/-- Every sum of terms is exact. -/
theorem Bounded.sum_le (h : S.Bounded aValue bValue α β) (row col m : Nat) :
    (∑ x ∈ Finset.range m, S.term aValue bValue row col x).natAbs ≤ exactRange :=
  calc (∑ x ∈ Finset.range m, S.term aValue bValue row col x).natAbs
      ≤ min m S.kK.toNat * (α * β) := natAbs_sum_terms_le fun x _ ↦ h.term_le row col x
    _ ≤ S.kK.toNat * (α * β) := Nat.mul_le_mul_right _ (Nat.min_le_right _ _)
    _ ≤ exactRange := h.sums

/-- Every term is exact. -/
theorem Bounded.term_exact (h : S.Bounded aValue bValue α β) (row col x : Nat) :
    (S.term aValue bValue row col x).natAbs ≤ exactRange := by
  have hterm := h.term_le row col x
  split at hterm
  · next hx =>
    calc (S.term aValue bValue row col x).natAbs
        ≤ α * β := hterm
      _ ≤ S.kK.toNat * (α * β) := Nat.le_mul_of_pos_left _ (by omega)
      _ ≤ exactRange := h.sums
  · omega

/-- What two blocks multiply are terms. -/
theorem blocks_term (S : Shape) (ti tk tj r k c : Nat) :
    S.aBlock aValue ti tk r k * S.bBlock bValue tk tj k c =
      S.term aValue bValue (ti * S.kTile.toNat + r) (tj * S.kTile.toNat + c)
        (tk * S.kTile.toNat + k) := by
  simp only [aBlock, bBlock, block, term]
  grind

/-- What a C tile holds in the middle of its accumulation is a sum of the first terms. -/
theorem partial_sum (S : Shape) (ti tj tk k r c : Nat) :
    (∑ t ∈ Finset.range tk, product S.kTile.toNat (S.aBlock aValue ti t) (S.bBlock bValue t tj) r c)
        + product k (S.aBlock aValue ti tk) (S.bBlock bValue tk tj) r c =
      ∑ x ∈ Finset.range (tk * S.kTile.toNat + k),
        S.term aValue bValue (ti * S.kTile.toNat + r) (tj * S.kTile.toNat + c) x := by
  simp only [product, blocks_term]
  rw [sum_range_runs, Finset.sum_range_add]

/-- The loop over the K-tiles in single precision. -/
theorem cTileIn_spec (F : Single) (h : S.Bounded aValue bValue α β)
    {aTiles bTiles : List (List Int)} {ti tj : U32}
    (hA : S.IsTiling S.kM S.kK (fun ti tk ↦ S.aBlock aValue ti.toNat tk.toNat) aTiles)
    (hB : S.IsTiling S.kK S.kN (fun tk tj ↦ S.bBlock bValue tk.toNat tj.toNat) bTiles)
    (hi : ti < S.kMTiles) (hj : tj < S.kNTiles) :
    ∃ tile, forLoop S.kKTiles (fun tk cData ↦ do
        let aData ← Base.load aTiles (ti * S.kKTiles + tk)
        let bData ← Base.load bTiles (tk * S.kNTiles + tj)
        F.multiplyAccumulate S.kTile S.kTile S.kTile aData bData cData) S.zeroTile = some tile ∧
      RowMajor tile S.kTile.toNat S.kTile.toNat (S.cBlock aValue bValue ti.toNat tj.toNat) := by
  refine forLoop_invariant (fun m tile ↦ RowMajor tile S.kTile.toNat S.kTile.toNat fun r c ↦
    ∑ tk ∈ Finset.range m, product S.kTile.toNat (S.aBlock aValue ti.toNat tk)
      (S.bBlock bValue tk tj.toNat) r c) S.zeroTile_rowMajor ?_
  intro tk hk cData hc
  obtain ⟨aData, haData, hrepA⟩ := hA.load S.m_fits S.k_fits S.a_fits hi hk
  obtain ⟨bData, hbData, hrepB⟩ := hB.load S.k_fits S.n_fits S.b_fits hk hj
  obtain ⟨cData', hc', hrepC⟩ := F.multiplyAccumulate_spec hrepA hrepB hc S.tile_sq_fits
    S.tile_sq_fits S.tile_sq_fits (by
      intro r _ c _ k _
      rw [blocks_term, partial_sum]
      exact ⟨h.term_exact _ _ _, h.sum_le _ _ _⟩)
  refine ⟨cData', ?_, hrepC.congr ?_⟩
  · rw [kKTiles, haData, kNTiles, hbData]
    exact hc'
  · intro r hr c hc
    rw [mapBlock, if_pos ⟨hr, hc⟩, Finset.sum_range_succ]

/-- The tiles are those of the integers. -/
theorem tiledGemmIn_eq (F : Single) (h : S.Bounded aValue bValue α β) :
    S.tiledGemmIn F aValue bValue = S.tiledGemm aValue bValue := by
  obtain ⟨aTiles, ha, hA⟩ := aTiles_spec aValue S
  obtain ⟨bTiles, hb, hB⟩ := bTiles_spec bValue S
  obtain ⟨tiles, htiles, hC⟩ :=
    grid_spec fun ti hi tj hj ↦ cTileIn_spec F h hA hB hi hj
  obtain ⟨tiles', htiles', hC'⟩ := grid_spec fun ti hi tj hj ↦ cTile_spec aValue bValue hA hB hi hj
  have hsame : tiles = tiles' := Filled.unique (fun _ _ _ _ hx hy ↦ hx.unique hy) hC hC'
  rw [tiledGemmIn, tiledGemm, ha, hb]
  exact htiles.trans (hsame ▸ htiles'.symm)

/-- A whole matrix filled. -/
theorem fill_matrix {rows cols : U32} (value : U32 → U32 → Int)
    (hfit : rows.toNat * cols.toNat < 2 ^ 32) :
    ∃ m, fill cols rows cols value (List.replicate (rows * cols).toNat 0) = some m ∧
      RowMajor m rows.toNat cols.toNat (entries value) := by
  have hzero : RowMajor (List.replicate (rows * cols).toNat (0 : Int)) rows.toNat cols.toNat
      fun _ _ ↦ 0 := by
    rw [BitVec.toNat_mul_of_lt hfit]
    exact RowMajor.replicate _ _ _
  obtain ⟨m, hm, hrep⟩ := fill_simulates value le_rfl le_rfl hfit _ _ hzero
  refine ⟨m, hm, hrep.congr ?_⟩
  intro r hr c hc
  rw [mapBlock, if_pos ⟨hr, hc⟩, entries]

/-- So is the product that `reference_gemm` computes. -/
theorem referenceGemmIn_eq (F : Single) (h : S.Bounded aValue bValue α β) :
    S.referenceGemmIn F aValue bValue = S.referenceGemm aValue bValue := by
  obtain ⟨a, ha, hA⟩ := fill_matrix aValue S.a_fits
  obtain ⟨b, hb, hB⟩ := fill_matrix bValue S.b_fits
  have hzero : RowMajor (List.replicate (S.kM * S.kN).toNat (0 : Int)) S.kM.toNat S.kN.toNat
      fun _ _ ↦ 0 := by
    rw [BitVec.toNat_mul_of_lt S.c_fits]
    exact RowMajor.replicate _ _ _
  have hexact : ∀ r < S.kM.toNat, ∀ c < S.kN.toNat, ∀ k < S.kK.toNat,
      (entries aValue r k * entries bValue k c).natAbs ≤ exactRange ∧
        (0 + product (k + 1) (entries aValue) (entries bValue) r c).natAbs ≤ exactRange := by
    intro r hr c hc k hk
    have hterm {x : Nat} (hx : x < S.kK.toNat) :
        entries aValue r x * entries bValue x c = S.term aValue bValue r c x :=
      (if_pos ⟨hr, hx, hc⟩).symm
    have hsum : product (k + 1) (entries aValue) (entries bValue) r c =
        ∑ x ∈ Finset.range (k + 1), S.term aValue bValue r c x := by
      apply Finset.sum_congr rfl
      intro x hx
      rw [Finset.mem_range] at hx
      exact hterm (by omega)
    rw [hterm hk, zero_add, hsum]
    exact ⟨h.term_exact _ _ _, h.sum_le _ _ _⟩
  obtain ⟨c, hc, hC⟩ := F.multiplyAccumulate_spec hA hB hzero S.a_fits S.b_fits S.c_fits hexact
  obtain ⟨c', hc', hC'⟩ := multiplyAccumulate_simulates hA hB S.a_fits S.b_fits S.c_fits _ _ hzero
  have hsame : c = c' := hC.unique hC'
  rw [referenceGemmIn, referenceGemm, ha, hb]
  exact hc.trans (hsame ▸ hc'.symm)

/-- The comparison of what the two computations yield finds no mismatch. -/
theorem compare_tiledGemm (S : Shape) (aValue bValue : U32 → U32 → Int) :
    ∃ cTiles reference, S.tiledGemm aValue bValue = some cTiles ∧
      S.referenceGemm aValue bValue = some reference ∧ S.compare cTiles reference = some none := by
  obtain ⟨cTiles, htiled, hC⟩ := tiledGemm_spec aValue bValue S
  obtain ⟨reference, hplain, hR⟩ := referenceGemm_spec aValue bValue S
  refine ⟨cTiles, reference, htiled, hplain, (compare_none_iff ?_).mpr ?_⟩
  · intro ti hti tj htj
    obtain ⟨cData, hload, -⟩ := hC.load S.m_fits S.n_fits S.c_fits hti htj
    exact ⟨cData, hload⟩
  · intro p hp
    exact ⟨_, elements_at hC hR hp⟩

theorem mainIn_eq (F : Single) (h : S.Bounded aValue bValue α β) :
    S.mainIn F aValue bValue = some none := by
  obtain ⟨cTiles, reference, hc, hr, hcompare⟩ := compare_tiledGemm S aValue bValue
  rw [mainIn, tiledGemmIn_eq F h, referenceGemmIn_eq F h, hc, hr]
  exact hcompare

/-- Stage 3 is exact in single precision: with integer inputs of at most `α` and `β` and `kK`
products of these within the range of the exact integers, the tiles and the reference are those
that integers give, however `float` rounds what it cannot represent, and the comparison with `!=`
finds no mismatch. -/
theorem exact_in_single (F : Single) (h : S.Bounded aValue bValue α β) :
    S.tiledGemmIn F aValue bValue = S.tiledGemm aValue bValue ∧
    S.referenceGemmIn F aValue bValue = S.referenceGemm aValue bValue ∧
    S.mainIn F aValue bValue = some none :=
  ⟨tiledGemmIn_eq F h, referenceGemmIn_eq F h, mainIn_eq F h⟩

end Shape

/-- Keep the upper 24 bits. -/
def truncated (x : Int) : Int :=
  x.sign * (x.natAbs >>> (x.natAbs.log2 - 23) <<< (x.natAbs.log2 - 23) : Nat)

/-- What 24 bits hold is kept. -/
theorem truncated_eq {x : Int} (hx : x.natAbs ≤ exactRange) : truncated x = x := by
  have hkeep : x.natAbs >>> (x.natAbs.log2 - 23) <<< (x.natAbs.log2 - 23) = x.natAbs := by
    by_cases htop : x.natAbs = exactRange
    · rw [htop]
      decide
    · have hlt : x.natAbs < 2 ^ 24 := Nat.lt_of_le_of_ne hx htop
      have hlog : x.natAbs.log2 - 23 = 0 := by
        by_cases hzero : x.natAbs = 0
        · rw [hzero, Nat.log2_zero]
        · have hbits := (Nat.log2_lt hzero).mpr hlt
          omega
      rw [hlog]
      rfl
  rw [truncated, hkeep]
  exact Int.sign_mul_natAbs x

/-- Rounding toward zero, of the product first. -/
def Single.towardZero : Single where
  mulAdd x a b := truncated (x + truncated (a * b))
  exact x a b hprod hsum := by rw [truncated_eq hprod, truncated_eq hsum]

/-- The entries of A are at most 6. -/
theorem aValue_le (r k : U32) : (aValue r k).natAbs ≤ 6 := by
  have hmod := Nat.mod_lt (r * 3 + k).toNat (show 0 < 7 by decide)
  show ((r * 3 + k) % 7).toNat ≤ 6
  rw [BitVec.toNat_umod]
  exact Nat.le_of_lt_succ hmod

/-- The entries of B are at most 10. -/
theorem bValue_le (k c : U32) : (bValue k c).natAbs ≤ 10 := by
  have hmod := Nat.mod_lt (k + c * 5).toNat (show 0 < 11 by decide)
  show ((k + c * 5) % 11).toNat ≤ 10
  rw [BitVec.toNat_umod]
  exact Nat.le_of_lt_succ hmod

/-- With the program's constants and entries. -/
theorem Shape.exact_in_single_stage3 :
    stage3.mainIn Single.towardZero aValue bValue = some none :=
  (Shape.exact_in_single Single.towardZero ⟨aValue_le, bValue_le, by decide⟩).2.2

end DmaAccel.Gemm
