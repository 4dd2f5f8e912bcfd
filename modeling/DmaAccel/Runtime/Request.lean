import DmaAccel.Driver.Abi

/-!
# Requests of the runtime

Source `track-a/dma_accel_runtime.cpp`: the bodies of `Stream::submit`,
`Stream::submit_scale_add` and `Stream::submit_tile_matmul` (171–225) between
`throttle_before_submit` and `do_submit`. They differ only in the request they fill in; a
buffer argument contributes its id. `cmd_id` is an output of the ioctl and is not part of it.
-/

namespace DmaAccel.Runtime

open DmaAccel.Driver

/-- `DMA_ACCEL_TILE_DIM`. -/
def tileDim : U32 := 32

/-- `DMA_ACCEL_TILE_MATMUL_BYTES`. -/
def tileMatmulBytes : U32 := tileDim * tileDim * 4

/-- The request of `Stream::submit`. -/
def submitReq (opcode src srcOffset dst dstOffset len : U32) : SubmitReq :=
  { SubmitReq.zero with
    opcode := opcode
    len := len
    srcBufferId := src
    srcOffset := srcOffset
    dstBufferId := dst
    dstOffset := dstOffset }

/-- The request of `Stream::submit_scale_add`. -/
def submitScaleAddReq (a aOffset b bOffset dst dstOffset len scalar : U32) : SubmitReq :=
  { SubmitReq.zero with
    opcode := opcodeScaleAdd
    len := len
    srcBufferId := a
    srcOffset := aOffset
    dstBufferId := dst
    dstOffset := dstOffset
    src2BufferId := b
    src2Offset := bOffset
    scalar := scalar }

/-- The request of `Stream::submit_tile_matmul`. -/
def submitTileMatmulReq (a aOffset b bOffset c cOffset : U32) : SubmitReq :=
  { SubmitReq.zero with
    opcode := opcodeTileMatmul
    len := tileMatmulBytes
    srcBufferId := a
    srcOffset := aOffset
    src2BufferId := b
    src2Offset := bOffset
    dstBufferId := c
    dstOffset := cOffset }

end DmaAccel.Runtime
