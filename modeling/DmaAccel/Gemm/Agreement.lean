import DmaAccel.Gemm.Tiling

/-!
# The tiled product is the plain product

A place names an element of a C tile by the tile and the row and column in it. In the valid region
of every tile the element at a place is the one `reference_gemm` has at the place's global row and
column, and the comparison in `main` finds no mismatch. The places of the valid regions are the
elements of C, each once.
-/

namespace DmaAccel.Gemm

open DmaAccel.Base
open DmaAccel.Driver (U32)

/-- Row `r` and column `c` of C tile `(ti, tj)`. -/
structure Place where
  ti : U32
  tj : U32
  r : U32
  c : U32
  deriving DecidableEq, Repr

namespace Shape

variable {S : Shape} {dim : U32} {p : Place}

/-- The place is in the valid region of a tile of the grid. -/
def Valid (S : Shape) (p : Place) : Prop :=
  (p.ti < S.kMTiles ∧ p.r < S.validExtent p.ti S.kM) ∧
    (p.tj < S.kNTiles ∧ p.c < S.validExtent p.tj S.kN)

instance : Decidable (S.Valid p) := inferInstanceAs (Decidable ((_ ∧ _) ∧ (_ ∧ _)))

/-- `global_row`. -/
def globalRow (S : Shape) (p : Place) : U32 := p.ti * S.kTile + p.r

/-- `global_col`. -/
def globalCol (S : Shape) (p : Place) : U32 := p.tj * S.kTile + p.c

/-- The element of the C tile at the place. -/
def tileElement (S : Shape) (cTiles : List (List Int)) (p : Place) : Option Int := do
  let cData ← load cTiles (p.ti * S.kNTiles + p.tj)
  load cData (p.r * S.kTile + p.c)

/-- The element of the reference at the place's global row and column. -/
def referenceElement (S : Shape) (reference : List Int) (p : Place) : Option Int :=
  load reference (S.globalRow p * S.kN + S.globalCol p)

section Coverage

/-- Along one dimension a valid position is within the bounds. -/
theorem global_lt {t r : U32} (hdim : S.Fits dim) (ht : t < ceilDiv dim S.kTile)
    (hr : r < S.validExtent t dim) : t * S.kTile + r < dim := by
  rw [BitVec.lt_def, toNat_global hdim ht hr]
  exact ((lt_validExtent hdim ht _).mp hr).2

/-- Every position along a dimension is in the valid extent of the tile it falls in. -/
theorem exists_tile {x : U32} (hdim : S.Fits dim) (hx : x < dim) :
    ∃ t r, (t < ceilDiv dim S.kTile ∧ r < S.validExtent t dim) ∧ t * S.kTile + r = x := by
  have hx' := BitVec.lt_def.mp hx
  have hsum := Nat.div_add_mod' x.toNat S.kTile.toNat
  have hmod := Nat.mod_lt x.toNat S.kTile_pos
  have hdiv : (x / S.kTile).toNat = x.toNat / S.kTile.toNat := BitVec.toNat_udiv
  have ht : x / S.kTile < ceilDiv dim S.kTile := by
    rw [BitVec.lt_def, hdiv]
    refine Nat.div_lt_of_lt_mul ?_
    rw [Nat.mul_comm]
    exact hx'.trans_le (le_grid hdim)
  have hr : x % S.kTile < S.validExtent (x / S.kTile) dim := by
    refine (lt_validExtent hdim ht _).mpr ?_
    rw [BitVec.toNat_umod, hdiv]
    exact ⟨hmod, by omega⟩
  refine ⟨x / S.kTile, x % S.kTile, ⟨ht, hr⟩, BitVec.eq_of_toNat_eq ?_⟩
  rw [toNat_global hdim ht hr, BitVec.toNat_umod, hdiv, hsum]

/-- No position is in two tiles, or twice in one. -/
theorem tile_unique {t r t' r' : U32} (hdim : S.Fits dim)
    (h : t < ceilDiv dim S.kTile ∧ r < S.validExtent t dim)
    (h' : t' < ceilDiv dim S.kTile ∧ r' < S.validExtent t' dim)
    (heq : t * S.kTile + r = t' * S.kTile + r') : t = t' ∧ r = r' := by
  have hr := ((lt_validExtent hdim h.1 _).mp h.2).1
  have hr' := ((lt_validExtent hdim h'.1 _).mp h'.2).1
  have hnat := congrArg BitVec.toNat heq
  rw [toNat_global hdim h.1 h.2, toNat_global hdim h'.1 h'.2] at hnat
  obtain ⟨ht, hr⟩ := index_inj hr hr' hnat
  exact ⟨BitVec.eq_of_toNat_eq ht, BitVec.eq_of_toNat_eq hr⟩

/-- The valid regions are the elements of C, each once. -/
theorem existsUnique_place {row col : U32} (hrow : row < S.kM) (hcol : col < S.kN) :
    ∃! p, S.Valid p ∧ S.globalRow p = row ∧ S.globalCol p = col := by
  obtain ⟨ti, r, hr, hrow'⟩ := exists_tile S.m_fits hrow
  obtain ⟨tj, c, hc, hcol'⟩ := exists_tile S.n_fits hcol
  refine ⟨⟨ti, tj, r, c⟩, ⟨⟨hr, hc⟩, hrow', hcol'⟩, ?_⟩
  rintro ⟨ti', tj', r', c'⟩ ⟨⟨hr', hc'⟩, hrow'', hcol''⟩
  obtain ⟨rfl, rfl⟩ := tile_unique S.m_fits hr' hr (hrow''.trans hrow'.symm)
  obtain ⟨rfl, rfl⟩ := tile_unique S.n_fits hc' hc (hcol''.trans hcol'.symm)
  rfl

end Coverage

section Comparison

variable {aValue bValue : U32 → U32 → Int} {tiles : List (List Int)} {reference : List Int}

/-- The element of A times B at a row and a column. -/
def plain (S : Shape) (aValue bValue : U32 → U32 → Int) (row col : U32) : Int :=
  ∑ k ∈ Finset.range S.kK.toNat, aValue row (BitVec.ofNat 32 k) * bValue (BitVec.ofNat 32 k) col

theorem product_entries (row col : U32) :
    product S.kK.toNat (entries aValue) (entries bValue) row.toNat col.toNat =
      S.plain aValue bValue row col := by
  simp [product, entries, plain]

/-- In a valid region both the tile and the reference hold the element of the product. -/
theorem elements_at
    (htiles : S.IsTiling S.kM S.kN (fun ti tj ↦ S.cBlock aValue bValue ti.toNat tj.toNat) tiles)
    (href : RowMajor reference S.kM.toNat S.kN.toNat
      (product S.kK.toNat (entries aValue) (entries bValue))) (hp : S.Valid p) :
    S.tileElement tiles p = some (S.plain aValue bValue (S.globalRow p) (S.globalCol p)) ∧
      S.referenceElement reference p =
        some (S.plain aValue bValue (S.globalRow p) (S.globalCol p)) := by
  obtain ⟨⟨hti, hr⟩, ⟨htj, hc⟩⟩ := hp
  have hr' := (lt_validExtent S.m_fits hti _).mp hr
  have hc' := (lt_validExtent S.n_fits htj _).mp hc
  have hrow := toNat_global S.m_fits hti hr
  have hcol := toNat_global S.n_fits htj hc
  rw [← product_entries]
  constructor
  · obtain ⟨cData, hload, hrep⟩ := htiles.load S.m_fits S.n_fits S.c_fits hti htj
    have hgot := hrep.load hr'.1 hc'.1 (toNat_index S.tile_sq_fits hr'.1 hc'.1)
    simp only [tileElement, kNTiles, hload, Option.bind_eq_bind, Option.bind_some, hgot, globalRow,
      globalCol, hrow, hcol]
    -- The K-tiles reach to the end of `kK`, and beyond it the padding adds nothing.
    exact congrArg some (sum_product_block _ _ hr'.2 hc'.2 (le_grid S.k_fits))
  · have hrowlt := BitVec.lt_def.mp (global_lt S.m_fits hti hr)
    have hcollt := BitVec.lt_def.mp (global_lt S.n_fits htj hc)
    exact href.load hrowlt hcollt (toNat_index S.c_fits hrowlt hcollt)

/-- The comparison ends without a mismatch exactly if tile and reference agree in every valid
region. -/
theorem compare_none_iff (htiles : ∀ ti < S.kMTiles, ∀ tj < S.kNTiles, ∃ cData,
      load tiles (ti * S.kNTiles + tj) = some cData) :
    S.compare tiles reference = some none ↔ ∀ p, S.Valid p →
      ∃ x, S.tileElement tiles p = some x ∧ S.referenceElement reference p = some x := by
  constructor
  · rintro h ⟨ti, tj, r, c⟩ ⟨⟨hti, hr⟩, ⟨htj, hc⟩⟩
    have htile := searchLoop_none_iff.mp (searchLoop_none_iff.mp h ti hti) tj htj
    obtain ⟨cData, hcData, hrows⟩ := Option.bind_eq_some_iff.mp htile
    have hcell := searchLoop_none_iff.mp (searchLoop_none_iff.mp hrows r hr) c hc
    obtain ⟨got, hgot, hrest⟩ := Option.bind_eq_some_iff.mp hcell
    obtain ⟨want, hwant, hsame⟩ := Option.bind_eq_some_iff.mp hrest
    obtain rfl : got = want := by simpa using hsame
    refine ⟨got, ?_, hwant⟩
    simpa [tileElement, hcData] using hgot
  · intro h
    refine searchLoop_none_iff.mpr fun ti hti ↦ searchLoop_none_iff.mpr fun tj htj ↦ ?_
    obtain ⟨cData, hcData⟩ := htiles ti hti tj htj
    simp only [hcData, Option.bind_eq_bind, Option.bind_some]
    refine searchLoop_none_iff.mpr fun r hr ↦ searchLoop_none_iff.mpr fun c hc ↦ ?_
    obtain ⟨x, hgot, hwant⟩ := h ⟨ti, tj, r, c⟩ ⟨⟨hti, hr⟩, ⟨htj, hc⟩⟩
    simp only [tileElement, hcData, Option.bind_eq_bind, Option.bind_some] at hgot
    simp only [referenceElement, globalRow, globalCol] at hwant
    simp [hgot, hwant]

end Comparison

/-- In the valid region of every C tile the tiled computation has what `reference_gemm` has at the
same place of C, which is the product of A and B, and the comparison finds no mismatch. The valid
regions are the elements of C, each once, and no tile of a grid begins past the end of its
dimension, so that `valid_extent` does not underflow. -/
theorem tiled_gemm_eq_reference (S : Shape) (aValue bValue : U32 → U32 → Int) :
    (∃ cTiles reference, S.tiledGemm aValue bValue = some cTiles ∧
      S.referenceGemm aValue bValue = some reference ∧
      ∀ p, S.Valid p → ∃ x, S.tileElement cTiles p = some x ∧
        S.referenceElement reference p = some x ∧
        x = S.plain aValue bValue (S.globalRow p) (S.globalCol p)) ∧
    S.main aValue bValue = some none ∧
    (∀ p, S.Valid p → S.globalRow p < S.kM ∧ S.globalCol p < S.kN) ∧
    (∀ row < S.kM, ∀ col < S.kN,
      ∃! p, S.Valid p ∧ S.globalRow p = row ∧ S.globalCol p = col) ∧
    ∀ dim, S.Fits dim → ∀ t < ceilDiv dim S.kTile,
      (t * S.kTile).toNat = t.toNat * S.kTile.toNat ∧ t * S.kTile < dim := by
  obtain ⟨cTiles, htiled, hC⟩ := tiledGemm_spec aValue bValue S
  obtain ⟨reference, hplain, hR⟩ := referenceGemm_spec aValue bValue S
  have helements : ∀ p, S.Valid p → ∃ x, S.tileElement cTiles p = some x ∧
      S.referenceElement reference p = some x ∧
      x = S.plain aValue bValue (S.globalRow p) (S.globalCol p) := by
    intro p hp
    obtain ⟨hgot, hwant⟩ := elements_at hC hR hp
    exact ⟨_, hgot, hwant, rfl⟩
  refine ⟨⟨cTiles, reference, htiled, hplain, helements⟩, ?_, ?_, ?_, ?_⟩
  · rw [main, htiled, hplain]
    refine (compare_none_iff fun ti hti tj htj ↦ ?_).mpr fun p hp ↦ ?_
    · obtain ⟨cData, hload, -⟩ := hC.load S.m_fits S.n_fits S.c_fits hti htj
      exact ⟨cData, hload⟩
    · obtain ⟨x, hgot, hwant, -⟩ := helements p hp
      exact ⟨x, hgot, hwant⟩
  · intro p hp
    exact ⟨global_lt S.m_fits hp.1.1 hp.1.2, global_lt S.n_fits hp.2.1 hp.2.2⟩
  · intro row hrow col hcol
    exact existsUnique_place hrow hcol
  · intro dim hdim t ht
    have hstart := toNat_start hdim ht
    refine ⟨hstart, ?_⟩
    rw [BitVec.lt_def, hstart]
    exact start_lt hdim ht

/-- With the program's constants: 300 by 200 by 260 in tiles of 128. -/
theorem tiled_gemm_eq_reference_stage3 : stage3.main Gemm.aValue Gemm.bValue = some none :=
  (tiled_gemm_eq_reference stage3 Gemm.aValue Gemm.bValue).2.1

end Shape

end DmaAccel.Gemm
