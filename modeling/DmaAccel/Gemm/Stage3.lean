import DmaAccel.Base.RowMajor
import DmaAccel.Driver.Abi

/-!
# The tiled matrix product of stage 3

Source `track-a/dma_accel_gemm_stage3.cpp`. The program multiplies A (`kM` by `kK`) with B (`kK` by
`kN`) twice: cut into tiles of `kTile` by `kTile`, zero-padded where a tile goes past the bounds
(108–183), and as it stands (`reference_gemm`, 71–92). It then compares the two (188–216). Its four
constants are the fields of a `Shape`, whose invariant is that the index arithmetic stays within 32
bits. The entries are integers, and `a_value` and `b_value` are parameters. Every allocation
succeeds here: an exception of `alloc_buffer` ends the program before there is anything to compare.
`none` is an access outside a buffer or a vector.
-/

namespace DmaAccel.Gemm

open DmaAccel.Base
open DmaAccel.Driver (U32)

/-- `ceil_div`. -/
def ceilDiv (a b : U32) : U32 := (a + b - 1) / b

/-- The constants `kTile`, `kM`, `kK` and `kN`: a tile's bytes can be counted, each dimension can
be rounded up to tiles and each matrix can be indexed. -/
structure Shape where
  kTile : U32
  kM : U32
  kK : U32
  kN : U32
  kTile_pos : 0 < kTile.toNat
  tile_fits : kTile.toNat * kTile.toNat * 4 < 2 ^ 32
  m_fits : kM.toNat + kTile.toNat ≤ 2 ^ 32
  k_fits : kK.toNat + kTile.toNat ≤ 2 ^ 32
  n_fits : kN.toNat + kTile.toNat ≤ 2 ^ 32
  a_fits : kM.toNat * kK.toNat < 2 ^ 32
  b_fits : kK.toNat * kN.toNat < 2 ^ 32
  c_fits : kM.toNat * kN.toNat < 2 ^ 32

/-- `dst[r * width + c] = value(r, c)` for the first `rows` rows and `cols` columns. -/
def fill (width rows cols : U32) (value : U32 → U32 → Int) : List Int → Option (List Int) :=
  forLoop rows fun r ↦ forLoop cols fun c dst ↦ store dst (r * width + c) (value r c)

/-- The three loops over `c[r * cols + col]`, `a[r * depth + k]` and `b[k * cols + col]`, with `k`
in the middle loop and `op` for the statement in the innermost. -/
def accumulate (op : Int → Int → Int → Int) (rows depth cols : U32) (a b : List Int) :
    List Int → Option (List Int) :=
  forLoop rows fun r ↦ forLoop depth fun k c ↦ do
    let ark ← load a (r * depth + k)
    forLoop cols (fun col c ↦ do
      let old ← load c (r * cols + col)
      let bkc ← load b (k * cols + col)
      store c (r * cols + col) (op old ark bkc)) c

/-- `c[r * cols + col] += a[r * depth + k] * b[k * cols + col]`. -/
def multiplyAccumulate (rows depth cols : U32) (a b : List Int) :
    List Int → Option (List Int) :=
  accumulate (fun x a b ↦ x + a * b) rows depth cols a b

/-- Where the comparison failed first. -/
structure Mismatch where
  row : U32
  col : U32
  got : Int
  want : Int
  deriving DecidableEq, Repr

namespace Shape

variable (S : Shape) (aValue bValue : U32 → U32 → Int)

/-- `kTileBytes`, with `sizeof(float)` 4. -/
def kTileBytes : U32 := S.kTile * S.kTile * 4

/-- `kMTiles`. -/
def kMTiles : U32 := ceilDiv S.kM S.kTile

/-- `kNTiles`. -/
def kNTiles : U32 := ceilDiv S.kN S.kTile

/-- `kKTiles`. -/
def kKTiles : U32 := ceilDiv S.kK S.kTile

/-- `valid_extent`. -/
def validExtent (t dim : U32) : U32 :=
  let start := t * S.kTile
  if dim - start < S.kTile then dim - start else S.kTile

/-- A buffer of `kTileBytes` after `memset`. -/
def zeroTile : List Int := List.replicate (S.kTileBytes / 4).toNat 0

/-- `a_tiles`. -/
def aTiles : Option (List (List Int)) :=
  grid S.kMTiles S.kKTiles fun ti tk ↦
    fill S.kTile (S.validExtent ti S.kM) (S.validExtent tk S.kK)
      (fun r k ↦ aValue (ti * S.kTile + r) (tk * S.kTile + k)) S.zeroTile

/-- `b_tiles`. -/
def bTiles : Option (List (List Int)) :=
  grid S.kKTiles S.kNTiles fun tk tj ↦
    fill S.kTile (S.validExtent tk S.kK) (S.validExtent tj S.kN)
      (fun k c ↦ bValue (tk * S.kTile + k) (tj * S.kTile + c)) S.zeroTile

/-- `c_tiles`. -/
def cTiles (aTiles bTiles : List (List Int)) : Option (List (List Int)) :=
  grid S.kMTiles S.kNTiles fun ti tj ↦
    forLoop S.kKTiles (fun tk cData ↦ do
      let aData ← load aTiles (ti * S.kKTiles + tk)
      let bData ← load bTiles (tk * S.kNTiles + tj)
      multiplyAccumulate S.kTile S.kTile S.kTile aData bData cData) S.zeroTile

/-- The whole of the tiled computation. -/
def tiledGemm : Option (List (List Int)) := do
  let aTiles ← S.aTiles aValue
  let bTiles ← S.bTiles bValue
  S.cTiles aTiles bTiles

/-- `reference_gemm`. -/
def referenceGemm : Option (List Int) := do
  let a ← fill S.kK S.kM S.kK aValue (List.replicate (S.kM * S.kK).toNat 0)
  let b ← fill S.kN S.kK S.kN bValue (List.replicate (S.kK * S.kN).toNat 0)
  multiplyAccumulate S.kM S.kK S.kN a b (List.replicate (S.kM * S.kN).toNat 0)

/-- The comparison in `main`: valid regions only, up to the first mismatch. -/
def compare (cTiles : List (List Int)) (reference : List Int) : Option (Option Mismatch) :=
  searchLoop S.kMTiles fun ti ↦
    let validRows := S.validExtent ti S.kM
    searchLoop S.kNTiles fun tj ↦ do
      let validCols := S.validExtent tj S.kN
      let cData ← load cTiles (ti * S.kNTiles + tj)
      searchLoop validRows fun r ↦
        let globalRow := ti * S.kTile + r
        searchLoop validCols fun c ↦ do
          let globalCol := tj * S.kTile + c
          let got ← load cData (r * S.kTile + c)
          let want ← load reference (globalRow * S.kN + globalCol)
          return if got ≠ want then some ⟨globalRow, globalCol, got, want⟩ else none

/-- `main` with its buffers allocated: it prints PASS on `some none`, FAIL on a mismatch. -/
def main : Option (Option Mismatch) := do
  let cTiles ← S.tiledGemm aValue bValue
  let reference ← S.referenceGemm aValue bValue
  S.compare cTiles reference

end Shape

/-- `a_value`. -/
def aValue (globalRow globalCol : U32) : Int := ((globalRow * 3 + globalCol) % 7).toNat

/-- `b_value`. -/
def bValue (globalRow globalCol : U32) : Int := ((globalRow + globalCol * 5) % 11).toNat

/-- The constants of the program. -/
def stage3 : Shape where
  kTile := 128
  kM := 300
  kK := 200
  kN := 260
  kTile_pos := by decide
  tile_fits := by decide
  m_fits := by decide
  k_fits := by decide
  n_fits := by decide
  a_fits := by decide
  b_fits := by decide
  c_fits := by decide

end DmaAccel.Gemm
