import DmaAccel.Gemm.Single

/-!
# Stages 1 and 2

Source `track-a/dma_accel_gemm_stage1.cpp` and `track-a/dma_accel_gemm_stage2.cpp`, the programs
that stage 3 grew out of. Stage 2 (107–189) has no remainder tiles: it divides where stage 3 rounds
up, and it fills whole tiles, so that its A and B tiles need no `memset`. Stage 1 (103–176) has one
K-tile besides, so that its A tiles are a column, its B tiles a row, and nothing is accumulated.
What a buffer holds when it is allocated is a parameter.
-/

namespace DmaAccel.Gemm

open DmaAccel.Base
open DmaAccel.Driver (U32)

/-- Constants without remainder tiles. -/
structure EvenShape extends Shape where
  m_even : kTile.toNat ∣ kM.toNat
  k_even : kTile.toNat ∣ kK.toNat
  n_even : kTile.toNat ∣ kN.toNat

/-- What `alloc_buffer(kTileBytes)` returns: as many floats as fit, whatever they are. -/
structure TileBuffer (S : Shape) where
  cells : List Int
  length_eq : cells.length = (S.kTileBytes / 4).toNat

/-- `memset` of the whole buffer with 0. -/
def TileBuffer.memset {S : Shape} (b : TileBuffer S) : List Int := b.cells.map fun _ ↦ 0

namespace Stage2

variable (S : EvenShape) (aValue bValue : U32 → U32 → Int)

/-- `kMTiles`. -/
def kMTiles : U32 := S.kM / S.kTile

/-- `kNTiles`. -/
def kNTiles : U32 := S.kN / S.kTile

/-- `kKTiles`. -/
def kKTiles : U32 := S.kK / S.kTile

/-- `a_tiles`. -/
def aTiles (alloc : U32 → U32 → TileBuffer S.toShape) : Option (List (List Int)) :=
  grid (kMTiles S) (kKTiles S) fun ti tk ↦
    fill S.kTile S.kTile S.kTile (fun r k ↦ aValue (ti * S.kTile + r) (tk * S.kTile + k))
      (alloc ti tk).cells

/-- `b_tiles`. -/
def bTiles (alloc : U32 → U32 → TileBuffer S.toShape) : Option (List (List Int)) :=
  grid (kKTiles S) (kNTiles S) fun tk tj ↦
    fill S.kTile S.kTile S.kTile (fun k c ↦ bValue (tk * S.kTile + k) (tj * S.kTile + c))
      (alloc tk tj).cells

/-- `c_tiles`. -/
def cTiles (F : Single) (alloc : U32 → U32 → TileBuffer S.toShape)
    (aTiles bTiles : List (List Int)) : Option (List (List Int)) :=
  grid (kMTiles S) (kNTiles S) fun ti tj ↦
    forLoop (kKTiles S) (fun tk cData ↦ do
      let aData ← load aTiles (ti * kKTiles S + tk)
      let bData ← load bTiles (tk * kNTiles S + tj)
      F.multiplyAccumulate S.kTile S.kTile S.kTile aData bData cData) (alloc ti tj).memset

/-- The buffers that the program allocates for A, B and C. -/
structure Buffers (S : Shape) where
  a : U32 → U32 → TileBuffer S
  b : U32 → U32 → TileBuffer S
  c : U32 → U32 → TileBuffer S

/-- The whole of the tiled computation. -/
def tiledGemm (F : Single) (alloc : Buffers S.toShape) : Option (List (List Int)) := do
  let aTiles ← aTiles S aValue alloc.a
  let bTiles ← bTiles S bValue alloc.b
  cTiles S F alloc.c aTiles bTiles

/-- The comparison in `main`: whole tiles, up to the first mismatch. -/
def compare (cTiles : List (List Int)) (reference : List Int) : Option (Option Mismatch) :=
  searchLoop (kMTiles S) fun ti ↦ searchLoop (kNTiles S) fun tj ↦ do
    let cData ← load cTiles (ti * kNTiles S + tj)
    searchLoop S.kTile fun r ↦
      let globalRow := ti * S.kTile + r
      searchLoop S.kTile fun c ↦ do
        let globalCol := tj * S.kTile + c
        let got ← load cData (r * S.kTile + c)
        let want ← load reference (globalRow * S.kN + globalCol)
        return if got ≠ want then some ⟨globalRow, globalCol, got, want⟩ else none

/-- `main` with its buffers allocated. -/
def main (F : Single) (alloc : Buffers S.toShape) : Option (Option Mismatch) := do
  let cTiles ← tiledGemm S aValue bValue F alloc
  let reference ← S.referenceGemmIn F aValue bValue
  compare S cTiles reference

end Stage2

namespace Stage1

open Stage2 (kMTiles kNTiles Buffers)

variable (S : EvenShape) (aValue bValue : U32 → U32 → Int)

/-- `a_tiles`: a column of tiles. -/
def aTiles (alloc : U32 → TileBuffer S.toShape) : Option (List (List Int)) :=
  collect (kMTiles S) fun ti ↦
    fill S.kTile S.kTile S.kTile (fun r k ↦ aValue (ti * S.kTile + r) k) (alloc ti).cells

/-- `b_tiles`: a row of tiles. -/
def bTiles (alloc : U32 → TileBuffer S.toShape) : Option (List (List Int)) :=
  collect (kNTiles S) fun tj ↦
    fill S.kTile S.kTile S.kTile (fun k c ↦ bValue k (tj * S.kTile + c)) (alloc tj).cells

/-- `c_tiles`: each of one A tile and one B tile. -/
def cTiles (F : Single) (alloc : U32 → U32 → TileBuffer S.toShape)
    (aTiles bTiles : List (List Int)) : Option (List (List Int)) :=
  grid (kMTiles S) (kNTiles S) fun ti tj ↦ do
    let aData ← load aTiles ti
    let bData ← load bTiles tj
    F.multiplyAccumulate S.kTile S.kTile S.kTile aData bData (alloc ti tj).memset

/-- The whole of the tiled computation. -/
def tiledGemm (F : Single) (alloc : Buffers S.toShape) : Option (List (List Int)) := do
  let aTiles ← aTiles S aValue fun ti ↦ alloc.a ti 0
  let bTiles ← bTiles S bValue fun tj ↦ alloc.b 0 tj
  cTiles S F alloc.c aTiles bTiles

/-- `main` with its buffers allocated; it compares as stage 2 does. -/
def main (F : Single) (alloc : Buffers S.toShape) : Option (Option Mismatch) := do
  let cTiles ← tiledGemm S aValue bValue F alloc
  let reference ← S.referenceGemmIn F aValue bValue
  Stage2.compare S cTiles reference

end Stage1

namespace EvenShape

variable {S : EvenShape} {dim : U32}

/-- The tiles divide the dimension. -/
def Divides (S : EvenShape) (dim : U32) : Prop := S.kTile.toNat ∣ dim.toNat

/-- Without a remainder dividing rounds up. -/
theorem div_eq_ceilDiv (hfit : S.Fits dim) (hdiv : S.Divides dim) :
    dim / S.kTile = ceilDiv dim S.kTile := by
  obtain ⟨q, hq⟩ := hdiv
  have hpos := S.kTile_pos
  apply BitVec.eq_of_toNat_eq
  rw [BitVec.toNat_udiv, Shape.toNat_ceilDiv hfit, hq, Nat.mul_div_cancel_left q hpos,
    Nat.add_sub_assoc hpos, Nat.mul_add_div hpos, Nat.div_eq_of_lt (by omega), Nat.add_zero]

/-- A tile of the grid ends within the dimension. -/
theorem end_le {t : U32} (hdiv : S.Divides dim) (ht : t < dim / S.kTile) :
    t.toNat * S.kTile.toNat + S.kTile.toNat ≤ dim.toNat := by
  obtain ⟨q, hq⟩ := hdiv
  have hlt := BitVec.lt_def.mp ht
  rw [BitVec.toNat_udiv, hq, Nat.mul_div_cancel_left q S.kTile_pos] at hlt
  calc t.toNat * S.kTile.toNat + S.kTile.toNat
      = (t.toNat + 1) * S.kTile.toNat := (Nat.succ_mul ..).symm
    _ ≤ q * S.kTile.toNat := Nat.mul_le_mul_right _ hlt
    _ = dim.toNat := by rw [hq, Nat.mul_comm]

/-- The valid extent of every tile is the whole tile. -/
theorem validExtent_eq {t : U32} (hfit : S.Fits dim) (hdiv : S.Divides dim)
    (ht : t < dim / S.kTile) : S.validExtent t dim = S.kTile := by
  have hend := end_le hdiv ht
  rw [div_eq_ceilDiv hfit hdiv] at ht
  apply BitVec.eq_of_toNat_eq
  apply eq_of_forall_lt_iff
  intro r
  rw [Shape.lt_validExtent hfit ht]
  omega

/-- A tile filled whole is the tile of stage 3, whatever was in the buffer. -/
theorem fill_whole {rowsDim colsDim ti tj : U32} (value : U32 → U32 → Int)
    (b : TileBuffer S.toShape) (hrows : S.Divides rowsDim) (hcols : S.Divides colsDim)
    (hi : ti < rowsDim / S.kTile) (hj : tj < colsDim / S.kTile) :
    ∃ tile, fill S.kTile S.kTile S.kTile
        (fun r c ↦ value (ti * S.kTile + r) (tj * S.kTile + c)) b.cells = some tile ∧
      RowMajor tile S.kTile.toNat S.kTile.toNat
        (block S.kTile.toNat rowsDim.toNat colsDim.toNat (entries value) ti.toNat tj.toNat) := by
  have hlen : b.cells.length = S.kTile.toNat * S.kTile.toNat := by
    rw [b.length_eq, ← S.zeroTile_rowMajor.length, Shape.zeroTile, List.length_replicate]
  obtain ⟨f, hf⟩ := RowMajor.exists_of_length hlen
  obtain ⟨tile, htile, hrep⟩ := fill_simulates
    (fun r c ↦ value (ti * S.kTile + r) (tj * S.kTile + c)) le_rfl le_rfl S.tile_sq_fits _ f hf
  refine ⟨tile, htile, hrep.congr ?_⟩
  intro r hr c hc
  have hrow := end_le hrows hi
  have hcol := end_le hcols hj
  rw [mapBlock, if_pos ⟨hr, hc⟩, block, if_pos (by omega)]
  exact Shape.entries_global value ti tj r c

end EvenShape

/-- Whatever the buffer held, `memset` leaves zeros. -/
theorem TileBuffer.memset_eq {S : Shape} (b : TileBuffer S) : b.memset = S.zeroTile := by
  rw [memset, List.map_const', b.length_eq, Shape.zeroTile]

namespace Stage2

variable {S : EvenShape} {aValue bValue : U32 → U32 → Int}

theorem kMTiles_eq (S : EvenShape) : kMTiles S = S.kMTiles :=
  EvenShape.div_eq_ceilDiv S.m_fits S.m_even

theorem kNTiles_eq (S : EvenShape) : kNTiles S = S.kNTiles :=
  EvenShape.div_eq_ceilDiv S.n_fits S.n_even

theorem kKTiles_eq (S : EvenShape) : kKTiles S = S.kKTiles :=
  EvenShape.div_eq_ceilDiv S.k_fits S.k_even

/-- The A tiles are those of stage 3. -/
theorem aTiles_eq (alloc : U32 → U32 → TileBuffer S.toShape) :
    aTiles S aValue alloc = S.aTiles aValue := by
  obtain ⟨tiles, htiles, hA⟩ := grid_spec fun ti (hi : ti < kMTiles S) tk (hk : tk < kKTiles S) ↦
    EvenShape.fill_whole aValue (alloc ti tk) S.m_even S.k_even hi hk
  obtain ⟨tiles', htiles', hA'⟩ := Shape.aTiles_spec aValue S.toShape
  rw [kMTiles_eq, kKTiles_eq] at hA
  rw [aTiles, htiles, htiles', Filled.unique (fun _ _ _ _ hx hy ↦ hx.unique hy) hA hA']

/-- So are the B tiles. -/
theorem bTiles_eq (alloc : U32 → U32 → TileBuffer S.toShape) :
    bTiles S bValue alloc = S.bTiles bValue := by
  obtain ⟨tiles, htiles, hB⟩ := grid_spec fun tk (hk : tk < kKTiles S) tj (hj : tj < kNTiles S) ↦
    EvenShape.fill_whole bValue (alloc tk tj) S.k_even S.n_even hk hj
  obtain ⟨tiles', htiles', hB'⟩ := Shape.bTiles_spec bValue S.toShape
  rw [kKTiles_eq, kNTiles_eq] at hB
  rw [bTiles, htiles, htiles', Filled.unique (fun _ _ _ _ hx hy ↦ hx.unique hy) hB hB']

/-- The accumulation is that of stage 3. -/
theorem cTiles_eq (F : Single) (alloc : U32 → U32 → TileBuffer S.toShape)
    (aTiles bTiles : List (List Int)) :
    cTiles S F alloc aTiles bTiles = S.cTilesIn F aTiles bTiles := by
  simp only [cTiles, Shape.cTilesIn, TileBuffer.memset_eq, kMTiles_eq, kNTiles_eq, kKTiles_eq]

theorem tiledGemm_eq (F : Single) (alloc : Buffers S.toShape) :
    tiledGemm S aValue bValue F alloc = S.tiledGemmIn F aValue bValue := by
  simp only [tiledGemm, Shape.tiledGemmIn, aTiles_eq, bTiles_eq, cTiles_eq]

/-- So is the comparison. -/
theorem compare_eq (tiles : List (List Int)) (reference : List Int) :
    compare S tiles reference = S.compare tiles reference := by
  unfold compare Shape.compare
  rw [kMTiles_eq]
  apply searchLoop_congr
  intro ti hi
  rw [kNTiles_eq]
  apply searchLoop_congr
  intro tj hj
  rw [← kMTiles_eq] at hi
  rw [← kNTiles_eq] at hj
  rw [EvenShape.validExtent_eq S.m_fits S.m_even hi, EvenShape.validExtent_eq S.n_fits S.n_even hj]

theorem main_eq (F : Single) (alloc : Buffers S.toShape) :
    main S aValue bValue F alloc = S.mainIn F aValue bValue := by
  simp only [main, Shape.mainIn, tiledGemm_eq, compare_eq]

end Stage2

namespace Stage1

open Stage2 (kMTiles kNTiles kKTiles Buffers)

variable {S : EvenShape} {aValue bValue : U32 → U32 → Int}

/-- With one K-tile stage 1 computes what stage 2 does. -/
theorem tiledGemm_eq (F : Single) (alloc : Buffers S.toShape) (hk : S.kK = S.kTile) :
    tiledGemm S aValue bValue F alloc = Stage2.tiledGemm S aValue bValue F alloc := by
  have hone : (kKTiles S).toNat = 1 := by
    rw [kKTiles, hk, BitVec.toNat_udiv, Nat.div_self S.kTile_pos]
  have hone' : kKTiles S = 1 := BitVec.eq_of_toNat_eq hone
  have ha : aTiles S aValue (fun ti ↦ alloc.a ti 0) = Stage2.aTiles S aValue alloc.a := by
    rw [Stage2.aTiles, grid_one hone]
    simp [aTiles]
  have hb : bTiles S bValue (fun tj ↦ alloc.b 0 tj) = Stage2.bTiles S bValue alloc.b := by
    rw [Stage2.bTiles, grid_row hone]
    simp [bTiles]
  have hc (a b : List (List Int)) : cTiles S F alloc.c a b = Stage2.cTiles S F alloc.c a b := by
    unfold cTiles Stage2.cTiles
    congr 1
    funext ti tj
    rw [forLoop_one hone, hone']
    simp
  simp only [tiledGemm, Stage2.tiledGemm, ha, hb, hc]

theorem main_eq (F : Single) (alloc : Buffers S.toShape) (hk : S.kK = S.kTile) :
    main S aValue bValue F alloc = Stage2.main S aValue bValue F alloc := by
  simp only [main, Stage2.main, tiledGemm_eq F alloc hk]

end Stage1

/-- The three stages agree: whatever the allocated buffers held and however `float` rounds, on
shapes without remainder tiles stage 2 leaves the tiles and comes to the verdict of stage 3, and
so does stage 1 where there is one K-tile; with bounded inputs the tiles are the exact ones and
the comparison finds no mismatch. The entries are integers, as in the programs. -/
theorem stages_agree (F : Single) (S : EvenShape) (aValue bValue : U32 → U32 → Int)
    (alloc : Stage2.Buffers S.toShape) :
    (Stage2.tiledGemm S aValue bValue F alloc = S.tiledGemmIn F aValue bValue ∧
      Stage2.main S aValue bValue F alloc = S.mainIn F aValue bValue) ∧
    (S.kK = S.kTile →
      Stage1.tiledGemm S aValue bValue F alloc = S.tiledGemmIn F aValue bValue ∧
      Stage1.main S aValue bValue F alloc = S.mainIn F aValue bValue) ∧
    ∀ α β, S.Bounded aValue bValue α β →
      Stage2.tiledGemm S aValue bValue F alloc = S.tiledGemm aValue bValue ∧
      Stage2.main S aValue bValue F alloc = some none := by
  have htiled : Stage2.tiledGemm S aValue bValue F alloc = S.tiledGemmIn F aValue bValue :=
    Stage2.tiledGemm_eq F alloc
  have hmain : Stage2.main S aValue bValue F alloc = S.mainIn F aValue bValue :=
    Stage2.main_eq F alloc
  refine ⟨⟨htiled, hmain⟩, ?_, ?_⟩
  · intro hk
    exact ⟨(Stage1.tiledGemm_eq F alloc hk).trans htiled, (Stage1.main_eq F alloc hk).trans hmain⟩
  · intro α β h
    exact ⟨htiled.trans (Shape.tiledGemmIn_eq F h), hmain.trans (Shape.mainIn_eq F h)⟩

/-- The constants of stage 1. -/
def stage1 : EvenShape where
  kTile := 128#32
  kM := 256#32
  kK := 128#32
  kN := 256#32
  kTile_pos := by decide
  tile_fits := by decide
  m_fits := by decide
  k_fits := by decide
  n_fits := by decide
  a_fits := by decide
  b_fits := by decide
  c_fits := by decide
  m_even := by decide
  k_even := by decide
  n_even := by decide

/-- The constants of stage 2. -/
def stage2 : EvenShape where
  kTile := 128#32
  kM := 256#32
  kK := 256#32
  kN := 256#32
  kTile_pos := by decide
  tile_fits := by decide
  m_fits := by decide
  k_fits := by decide
  n_fits := by decide
  a_fits := by decide
  b_fits := by decide
  c_fits := by decide
  m_even := by decide
  k_even := by decide
  n_even := by decide

/-- With the constants and entries of stage 1, in buffers full of ones. -/
theorem stages_agree_stage1 :
    Stage1.main stage1 aValue bValue Single.towardZero
        ⟨fun _ _ ↦ ⟨List.replicate _ 1, List.length_replicate⟩,
          fun _ _ ↦ ⟨List.replicate _ 1, List.length_replicate⟩,
          fun _ _ ↦ ⟨List.replicate _ 1, List.length_replicate⟩⟩ = some none := by
  have hbounded : stage1.Bounded aValue bValue 6 10 := ⟨aValue_le, bValue_le, by decide⟩
  have hagree := stages_agree Single.towardZero stage1 aValue bValue
    ⟨fun _ _ ↦ ⟨List.replicate _ 1, List.length_replicate⟩,
      fun _ _ ↦ ⟨List.replicate _ 1, List.length_replicate⟩,
      fun _ _ ↦ ⟨List.replicate _ 1, List.length_replicate⟩⟩
  exact ((hagree.2.1 rfl).2.trans hagree.1.2.symm).trans (hagree.2.2 6 10 hbounded).2

end DmaAccel.Gemm
