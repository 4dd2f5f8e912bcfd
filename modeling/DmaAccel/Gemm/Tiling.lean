import DmaAccel.Base.Blocks
import DmaAccel.Gemm.Stage3

/-!
# What the loops of stage 3 compute

`fill` and `multiplyAccumulate` act on the matrix that an array holds. A tile of A or B then holds
a zero-padded block of it, a tile of C adds up the products of a row of blocks with a column of
blocks, and `reference_gemm` computes the product. The arithmetic of `ceil_div` and `valid_extent`
is that of the natural numbers, for every dimension that can be rounded up to tiles.
-/

namespace DmaAccel.Gemm

open DmaAccel.Base
open DmaAccel.Driver (U32)

section Loops

variable {rows depth cols width : U32} {height : Nat}

/-- `fill` replaces what lies within its rows and columns. -/
theorem fill_simulates (value : U32 → U32 → Int) (hrows : rows.toNat ≤ height)
    (hcols : cols.toNat ≤ width.toNat) (hfit : height * width.toNat < 2 ^ 32) :
    Simulates (RowMajor · height width.toNat) (fill width rows cols value)
      (mapBlock rows.toNat cols.toNat fun r c _ ↦
        value (BitVec.ofNat 32 r) (BitVec.ofNat 32 c)) := by
  refine simulates_mapBlock fun r hr ↦ simulates_mapRow fun c hc dst f hdst ↦ ?_
  have hr' : r.toNat < height := (BitVec.lt_def.mp hr).trans_le hrows
  have hc' : c.toNat < width.toNat := (BitVec.lt_def.mp hc).trans_le hcols
  simpa using hdst.store hr' hc' (toNat_index hfit hr' hc') fun _ ↦ value r c

/-- What an element has become after the first terms of its sum. -/
def terms (op : Int → Int → Int → Int) (u v : Nat → Int) (x : Int) : Nat → Int
  | 0 => x
  | m + 1 => op (terms op u v x m) (u m) (v m)

variable {op : Int → Int → Int → Int} {a b : List Int} {f g : Nat → Nat → Int}

/-- `accumulate` adds a row of A and a column of B to each element, term by term. -/
theorem accumulate_simulates (op : Int → Int → Int → Int)
    (ha : RowMajor a rows.toNat depth.toNat f) (hb : RowMajor b depth.toNat cols.toNat g)
    (hafit : rows.toNat * depth.toNat < 2 ^ 32) (hbfit : depth.toNat * cols.toNat < 2 ^ 32)
    (hcfit : rows.toNat * cols.toNat < 2 ^ 32) :
    Simulates (RowMajor · rows.toNat cols.toNat) (accumulate op rows depth cols a b)
      (mapBlock rows.toNat cols.toNat fun r c x ↦ terms op (f r) (g · c) x depth.toNat) := by
  refine simulates_mapBlock fun r hr ↦ ?_
  have hr' := BitVec.lt_def.mp hr
  -- The middle loop: after `m` rounds row `r` has gained the first `m` terms of each sum.
  refine Simulates.forLoop
    (fun k ↦ mapRow r.toNat cols.toNat fun c x ↦ op x (f r.toNat k) (g k c))
    (fun m ↦ mapRow r.toNat cols.toNat fun c x ↦ terms op (f r.toNat) (g · c) x m) ?_ ?_ ?_
  · intro h
    funext r' c
    simp [mapRow, terms]
  · intro m h
    funext r' c
    simp only [mapRow, terms]
    grind
  · intro k hk c h hc
    have hk' := BitVec.lt_def.mp hk
    simp only [ha.load hr' hk' (toNat_index hafit hr' hk'), Option.bind_eq_bind, Option.bind_some]
    refine simulates_mapRow (R := (RowMajor · rows.toNat cols.toNat)) ?_ c h hc
    intro col hcol c h hc
    have hcol' := BitVec.lt_def.mp hcol
    have hi := toNat_index hcfit hr' hcol'
    simp only [hc.load hr' hcol' hi, hb.load hk' hcol' (toNat_index hbfit hk' hcol'),
      Option.bind_some]
    exact hc.store hr' hcol' hi (op · (f r.toNat k.toNat) (g k.toNat col.toNat))

/-- With the operation of the integers the terms are those of the product. -/
theorem terms_eq_product (x : Int) (r c m : Nat) :
    terms (fun x a b ↦ x + a * b) (f r) (g · c) x m = x + product m f g r c := by
  induction m with
  | zero => simp [terms]
  | succ m ih => rw [terms, ih, product_succ, add_assoc]

/-- `multiplyAccumulate` adds the product of the two matrices. -/
theorem multiplyAccumulate_simulates (ha : RowMajor a rows.toNat depth.toNat f)
    (hb : RowMajor b depth.toNat cols.toNat g) (hafit : rows.toNat * depth.toNat < 2 ^ 32)
    (hbfit : depth.toNat * cols.toNat < 2 ^ 32) (hcfit : rows.toNat * cols.toNat < 2 ^ 32) :
    Simulates (RowMajor · rows.toNat cols.toNat) (multiplyAccumulate rows depth cols a b)
      (mapBlock rows.toNat cols.toNat fun r c x ↦ x + product depth.toNat f g r c) := by
  simpa only [multiplyAccumulate, terms_eq_product] using
    accumulate_simulates (fun x a b ↦ x + a * b) ha hb hafit hbfit hcfit

end Loops

/-- The matrix of the values of a fill function. -/
def entries (value : U32 → U32 → Int) (r c : Nat) : Int :=
  value (BitVec.ofNat 32 r) (BitVec.ofNat 32 c)

namespace Shape

variable {S : Shape} {t dim : U32}

/-- Rounding the dimension up to tiles stays within 32 bits. -/
def Fits (S : Shape) (dim : U32) : Prop := dim.toNat + S.kTile.toNat ≤ 2 ^ 32

theorem toNat_ceilDiv (hdim : S.Fits dim) :
    (ceilDiv dim S.kTile).toNat = (dim.toNat + S.kTile.toNat - 1) / S.kTile.toNat := by
  have hpos := S.kTile_pos
  unfold Fits at hdim
  rw [ceilDiv, BitVec.toNat_udiv, BitVec.toNat_sub, BitVec.toNat_add]
  congr 1
  simp
  omega

/-- A tile below the grid's bound begins within the dimension. -/
theorem start_lt (hdim : S.Fits dim) (ht : t < ceilDiv dim S.kTile) :
    t.toNat * S.kTile.toNat < dim.toNat := by
  have hlt : t.toNat < (dim.toNat + S.kTile.toNat - 1) / S.kTile.toNat := by
    rw [← toNat_ceilDiv hdim]
    exact ht
  have hpos := S.kTile_pos
  have hle := (Nat.le_div_iff_mul_le hpos).mp hlt
  rw [Nat.succ_mul] at hle
  omega

theorem toNat_start (hdim : S.Fits dim) (ht : t < ceilDiv dim S.kTile) :
    (t * S.kTile).toNat = t.toNat * S.kTile.toNat :=
  BitVec.toNat_mul_of_lt ((start_lt hdim ht).trans dim.isLt)

/-- The grid reaches to the end of the dimension. -/
theorem le_grid (hdim : S.Fits dim) :
    dim.toNat ≤ (ceilDiv dim S.kTile).toNat * S.kTile.toNat := by
  rw [toNat_ceilDiv hdim]
  have hmod := Nat.div_add_mod' (dim.toNat + S.kTile.toNat - 1) S.kTile.toNat
  have hlt := Nat.mod_lt (dim.toNat + S.kTile.toNat - 1) S.kTile_pos
  omega

/-- There are no more tiles than rows or columns. -/
theorem ceilDiv_le (hdim : S.Fits dim) : (ceilDiv dim S.kTile).toNat ≤ dim.toNat := by
  have hpos := S.kTile_pos
  rw [toNat_ceilDiv hdim]
  refine (Nat.div_le_iff_le_mul_add_pred hpos).mpr ?_
  have hle := Nat.le_mul_of_pos_left dim.toNat hpos
  omega

/-- What `valid_extent` leaves is the part of the tile within the dimension. -/
theorem lt_validExtent (hdim : S.Fits dim) (ht : t < ceilDiv dim S.kTile) (r : Nat) :
    r < (S.validExtent t dim).toNat ↔
      r < S.kTile.toNat ∧ t.toNat * S.kTile.toNat + r < dim.toNat := by
  have hstart := start_lt hdim ht
  have hsub : (dim - t * S.kTile).toNat = dim.toNat - t.toNat * S.kTile.toNat := by
    rw [BitVec.toNat_sub_of_le, toNat_start hdim ht]
    rw [BitVec.le_def, toNat_start hdim ht]
    omega
  simp only [validExtent, BitVec.lt_def, hsub]
  split <;> omega

theorem toNat_global {r : U32} (hdim : S.Fits dim) (ht : t < ceilDiv dim S.kTile)
    (hr : r < S.validExtent t dim) :
    (t * S.kTile + r).toNat = t.toNat * S.kTile.toNat + r.toNat := by
  have hlt := ((lt_validExtent hdim ht _).mp hr).2
  have hstart := toNat_start hdim ht
  have hbound := dim.isLt
  rw [BitVec.toNat_add_of_lt (by omega), hstart]

/-- The value at a place of a tile is the entry of the matrix there. -/
theorem entries_global (value : U32 → U32 → Int) (ti tj : U32) (r c : Nat) :
    value (ti * S.kTile + BitVec.ofNat 32 r) (tj * S.kTile + BitVec.ofNat 32 c) =
      entries value (ti.toNat * S.kTile.toNat + r) (tj.toNat * S.kTile.toNat + c) := by
  simp [entries, BitVec.ofNat_add, BitVec.ofNat_mul]

theorem tile_sq_fits (S : Shape) : S.kTile.toNat * S.kTile.toNat < 2 ^ 32 := by
  have hfit := S.tile_fits
  omega

/-- The size of a tile does not come round. -/
theorem toNat_kTileBytes (S : Shape) :
    S.kTileBytes.toNat = S.kTile.toNat * S.kTile.toNat * 4 := by
  have hsq : (S.kTile * S.kTile).toNat = S.kTile.toNat * S.kTile.toNat :=
    BitVec.toNat_mul_of_lt S.tile_sq_fits
  rw [kTileBytes, BitVec.toNat_mul_of_lt, hsq]
  · rfl
  · rw [hsq]
    exact S.tile_fits

theorem kTileBytes_ne_zero (S : Shape) : S.kTileBytes.toNat ≠ 0 := by
  have hpos := Nat.mul_pos S.kTile_pos S.kTile_pos
  rw [S.toNat_kTileBytes]
  omega

theorem zeroTile_rowMajor (S : Shape) :
    RowMajor S.zeroTile S.kTile.toNat S.kTile.toNat fun _ _ ↦ 0 := by
  have hlen : (S.kTileBytes / 4).toNat = S.kTile.toNat * S.kTile.toNat := by
    rw [BitVec.toNat_udiv, S.toNat_kTileBytes]
    exact Nat.mul_div_cancel _ (by decide)
  rw [zeroTile, hlen]
  exact RowMajor.replicate _ _ _

/-- A tile of a matrix: zeros, then the fill up to the valid extents. -/
theorem fill_tile {rowsDim colsDim ti tj : U32} (value : U32 → U32 → Int)
    (hrows : S.Fits rowsDim) (hcols : S.Fits colsDim) (hi : ti < ceilDiv rowsDim S.kTile)
    (hj : tj < ceilDiv colsDim S.kTile) :
    ∃ tile, fill S.kTile (S.validExtent ti rowsDim) (S.validExtent tj colsDim)
        (fun r c ↦ value (ti * S.kTile + r) (tj * S.kTile + c)) S.zeroTile = some tile ∧
      RowMajor tile S.kTile.toNat S.kTile.toNat
        (block S.kTile.toNat rowsDim.toNat colsDim.toNat (entries value) ti.toNat tj.toNat) := by
  have hextent {t dim : U32} : (S.validExtent t dim).toNat ≤ S.kTile.toNat := by
    simp only [validExtent]
    split
    · next h => exact h.le
    · exact le_rfl
  obtain ⟨tile, htile, hrep⟩ := fill_simulates
    (fun r c ↦ value (ti * S.kTile + r) (tj * S.kTile + c)) hextent hextent S.tile_sq_fits
    S.zeroTile _ S.zeroTile_rowMajor
  refine ⟨tile, htile, hrep.congr ?_⟩
  intro r hr c hc
  have hr' := lt_validExtent hrows hi r
  have hc' := lt_validExtent hcols hj c
  simp only [mapBlock, block, entries_global]
  grind

/-- The tiles of a matrix, in row-major order of the grid. -/
def IsTiling (S : Shape) (rowsDim colsDim : U32) (f : U32 → U32 → Nat → Nat → Int)
    (tiles : List (List Int)) : Prop :=
  Filled (ceilDiv rowsDim S.kTile) (ceilDiv colsDim S.kTile)
    (fun ti tj tile ↦ RowMajor tile S.kTile.toNat S.kTile.toNat (f ti tj))
    ((ceilDiv rowsDim S.kTile).toNat * (ceilDiv colsDim S.kTile).toNat) tiles

theorem IsTiling.load {rowsDim colsDim ti tj : U32} {f : U32 → U32 → Nat → Nat → Int}
    {tiles : List (List Int)} (h : S.IsTiling rowsDim colsDim f tiles)
    (hrows : S.Fits rowsDim) (hcols : S.Fits colsDim)
    (hfit : rowsDim.toNat * colsDim.toNat < 2 ^ 32) (hi : ti < ceilDiv rowsDim S.kTile)
    (hj : tj < ceilDiv colsDim S.kTile) :
    ∃ tile, Base.load tiles (ti * ceilDiv colsDim S.kTile + tj) = some tile ∧
      RowMajor tile S.kTile.toNat S.kTile.toNat (f ti tj) := by
  have hle := Nat.mul_le_mul (ceilDiv_le hrows) (ceilDiv_le hcols)
  exact Filled.load h (hle.trans_lt hfit) hi hj

variable (aValue bValue : U32 → U32 → Int)

/-- Tile `(ti, tk)` of A. -/
def aBlock (S : Shape) (ti tk : Nat) : Nat → Nat → Int :=
  block S.kTile.toNat S.kM.toNat S.kK.toNat (entries aValue) ti tk

/-- Tile `(tk, tj)` of B. -/
def bBlock (S : Shape) (tk tj : Nat) : Nat → Nat → Int :=
  block S.kTile.toNat S.kK.toNat S.kN.toNat (entries bValue) tk tj

/-- What tile `(ti, tj)` of C accumulates. -/
def cBlock (S : Shape) (ti tj r c : Nat) : Int :=
  ∑ tk ∈ Finset.range S.kKTiles.toNat,
    product S.kTile.toNat (S.aBlock aValue ti tk) (S.bBlock bValue tk tj) r c

theorem aTiles_spec (S : Shape) :
    ∃ tiles, S.aTiles aValue = some tiles ∧
      S.IsTiling S.kM S.kK (fun ti tk ↦ S.aBlock aValue ti.toNat tk.toNat) tiles :=
  grid_spec fun _ hi _ hj ↦ fill_tile aValue S.m_fits S.k_fits hi hj

theorem bTiles_spec (S : Shape) :
    ∃ tiles, S.bTiles bValue = some tiles ∧
      S.IsTiling S.kK S.kN (fun tk tj ↦ S.bBlock bValue tk.toNat tj.toNat) tiles :=
  grid_spec fun _ hi _ hj ↦ fill_tile bValue S.k_fits S.n_fits hi hj

/-- The loop over the K-tiles adds up the products of a row of A tiles and a column of B tiles. -/
theorem cTile_spec {aTiles bTiles : List (List Int)} {ti tj : U32}
    (hA : S.IsTiling S.kM S.kK (fun ti tk ↦ S.aBlock aValue ti.toNat tk.toNat) aTiles)
    (hB : S.IsTiling S.kK S.kN (fun tk tj ↦ S.bBlock bValue tk.toNat tj.toNat) bTiles)
    (hi : ti < S.kMTiles) (hj : tj < S.kNTiles) :
    ∃ tile, forLoop S.kKTiles (fun tk cData ↦ do
        let aData ← Base.load aTiles (ti * S.kKTiles + tk)
        let bData ← Base.load bTiles (tk * S.kNTiles + tj)
        multiplyAccumulate S.kTile S.kTile S.kTile aData bData cData) S.zeroTile = some tile ∧
      RowMajor tile S.kTile.toNat S.kTile.toNat (S.cBlock aValue bValue ti.toNat tj.toNat) := by
  -- After `m` K-tiles the buffer holds the first `m` terms of each sum.
  refine forLoop_invariant (fun m tile ↦ RowMajor tile S.kTile.toNat S.kTile.toNat fun r c ↦
    ∑ tk ∈ Finset.range m, product S.kTile.toNat (S.aBlock aValue ti.toNat tk)
      (S.bBlock bValue tk tj.toNat) r c) S.zeroTile_rowMajor ?_
  intro tk hk cData hc
  obtain ⟨aData, haData, hrepA⟩ := hA.load S.m_fits S.k_fits S.a_fits hi hk
  obtain ⟨bData, hbData, hrepB⟩ := hB.load S.k_fits S.n_fits S.b_fits hk hj
  obtain ⟨cData', hc', hrepC⟩ := multiplyAccumulate_simulates hrepA hrepB S.tile_sq_fits
    S.tile_sq_fits S.tile_sq_fits cData _ hc
  refine ⟨cData', ?_, hrepC.congr ?_⟩
  · rw [kKTiles, haData, kNTiles, hbData]
    exact hc'
  · intro r hr c hc
    rw [mapBlock, if_pos ⟨hr, hc⟩, Finset.sum_range_succ]

/-- What the tiled computation leaves in the C tiles. -/
theorem tiledGemm_spec (S : Shape) :
    ∃ tiles, S.tiledGemm aValue bValue = some tiles ∧
      S.IsTiling S.kM S.kN (fun ti tj ↦ S.cBlock aValue bValue ti.toNat tj.toNat) tiles := by
  obtain ⟨aTiles, ha, hA⟩ := aTiles_spec aValue S
  obtain ⟨bTiles, hb, hB⟩ := bTiles_spec bValue S
  obtain ⟨tiles, htiles, hC⟩ :=
    grid_spec fun ti hi tj hj ↦ cTile_spec aValue bValue hA hB hi hj
  refine ⟨tiles, ?_, hC⟩
  rw [tiledGemm, ha, hb]
  exact htiles

/-- `reference_gemm` computes the product. -/
theorem referenceGemm_spec (S : Shape) :
    ∃ c, S.referenceGemm aValue bValue = some c ∧ RowMajor c S.kM.toNat S.kN.toNat
      (product S.kK.toNat (entries aValue) (entries bValue)) := by
  have hzero {rows cols : U32} (hfit : rows.toNat * cols.toNat < 2 ^ 32) :
      RowMajor (List.replicate (rows * cols).toNat (0 : Int)) rows.toNat cols.toNat
        fun _ _ ↦ 0 := by
    rw [BitVec.toNat_mul_of_lt hfit]
    exact RowMajor.replicate _ _ _
  have hfill {rows cols : U32} (value : U32 → U32 → Int)
      (hfit : rows.toNat * cols.toNat < 2 ^ 32) :
      ∃ m, fill cols rows cols value (List.replicate (rows * cols).toNat 0) = some m ∧
        RowMajor m rows.toNat cols.toNat (entries value) := by
    obtain ⟨m, hm, hrep⟩ := fill_simulates value le_rfl le_rfl hfit _ _ (hzero hfit)
    refine ⟨m, hm, hrep.congr fun r hr c hc ↦ ?_⟩
    rw [mapBlock, if_pos ⟨hr, hc⟩, entries]
  obtain ⟨a, ha, hA⟩ := hfill aValue S.a_fits
  obtain ⟨b, hb, hB⟩ := hfill bValue S.b_fits
  obtain ⟨c, hc, hC⟩ := multiplyAccumulate_simulates hA hB S.a_fits S.b_fits S.c_fits _ _
    (hzero S.c_fits)
  refine ⟨c, ?_, hC.congr fun r hr c hc ↦ ?_⟩
  · rw [referenceGemm, ha, hb]
    exact hc
  · rw [mapBlock, if_pos ⟨hr, hc⟩, zero_add]

end Shape

end DmaAccel.Gemm
