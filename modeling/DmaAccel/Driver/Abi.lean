import Mathlib.Data.BitVec

/-!
# Constants, descriptors and user requests

Source `track-a/dma_accel_regs.h` and the constants at the head of
`track-a/dma_accel_drv.c` (lines 66–136). Bus addresses, buffer sizes and command ids are
natural numbers: the source never narrows them, and `next_cmd_id` does not come round in
fewer than `2 ^ 64` submissions. Ring counters, request fields and status words keep
their 32 bits. A `float` field is its bit pattern, which the driver only copies.
-/

namespace DmaAccel.Driver

/-- The kernel's `u32`. -/
abbrev U32 := BitVec 32

/-- `DMA_ACCEL_QUEUE_DEPTH`. -/
abbrev queueDepth : Nat := 16

/-- `COMP_RING_SIZE`. -/
abbrev compRingSize : Nat := 64

/-- `MAX_BUFFERS`. -/
abbrev maxBuffers : Nat := 64

/-- `DEFAULT_BUFFER_QUOTA`. -/
abbrev defaultBufferQuota : Nat := maxBuffers / 4

/-- `DMA_ACCEL_BUFFER_ALLOC_MAX`. -/
abbrev bufferAllocMax : Nat := 16 * 1024 * 1024

/-- `MAX_INFLIGHT_CMDS`. -/
abbrev maxInflightCmds : Nat := compRingSize

/-- The submission ring has slots. -/
instance : NeZero queueDepth := ⟨by decide⟩

/-- A completion ring has slots. -/
instance : NeZero compRingSize := ⟨by decide⟩

/-- `PAGE_SHIFT` of the supported platform. -/
abbrev pageShift : Nat := 12

/-- `PAGE_ALIGN`: round up to a whole number of pages. -/
def pageAlign (n : Nat) : Nat := (n + (2 ^ pageShift - 1)) / 2 ^ pageShift * 2 ^ pageShift

/-- `OPCODE_COPY`. -/
def opcodeCopy : U32 := 0

/-- `OPCODE_SCALE_ADD`. -/
def opcodeScaleAdd : U32 := 1

/-- `OPCODE_TILE_MATMUL`. -/
def opcodeTileMatmul : U32 := 2

/-- `DMA_ACCEL_OK`. -/
def statusOk : U32 := 0

/-- `IRQ_DMA_DONE`. -/
def irqDmaDone : U32 := 1

/-- `IRQ_DMA_ERROR`. -/
def irqDmaError : U32 := 2

/-- Error numbers the entry points return. -/
inductive Errno where
  | EFAULT | EINVAL | EPERM | EDQUOT | ENOSPC | ENOMEM | EAGAIN | ERESTARTSYS
  deriving DecidableEq, Repr

/-- Return value of an entry point: a negative errno or a non-negative count. -/
inductive Ret where
  | err (e : Errno)
  | ok (n : Nat)
  deriving DecidableEq, Repr

/-- `struct dma_accel_cmd`, one submission-queue slot. -/
structure Cmd where
  opcode : U32
  len : U32
  srcAddr : Nat
  dstAddr : Nat
  cmdId : Nat
  src2Addr : Nat
  scalar : U32
  reserved : U32
  deriving DecidableEq, Repr

/-- A slot of freshly allocated coherent memory. -/
def Cmd.zero : Cmd := ⟨0, 0, 0, 0, 0, 0, 0, 0⟩

/-- `struct dma_accel_completion`, one completion-queue entry. -/
structure Completion where
  cmdId : Nat
  status : U32
  reserved : U32
  deriving DecidableEq, Repr

/-- A zeroed completion entry. -/
def Completion.zero : Completion := ⟨0, 0, 0⟩

/-- Size in bytes of `struct dma_accel_completion_uapi`. -/
abbrev completionBytes : Nat := 16

/-- Input fields of `struct dma_accel_submit`; the caller's `cmd_id` is ignored. -/
structure SubmitReq where
  opcode : U32
  len : U32
  srcBufferId : U32
  srcOffset : U32
  dstBufferId : U32
  dstOffset : U32
  src2BufferId : U32
  src2Offset : U32
  scalar : U32
  deriving DecidableEq, Repr

/-- A request with every field zero. -/
def SubmitReq.zero : SubmitReq := ⟨0, 0, 0, 0, 0, 0, 0, 0, 0⟩

/-- `dma_accel_opcode_needs_src2`: the opcodes that read a second source. -/
def opcodeNeedsSrc2 (opcode : U32) : Bool :=
  opcode == opcodeScaleAdd || opcode == opcodeTileMatmul

end DmaAccel.Driver
