import DmaAccel.Driver.State

/-!
# The buffer table

Source `track-a/dma_accel_drv.c`: `dma_accel_ioc_buffer_alloc` (1403–1484), the freeing
section of `dma_accel_chr_release` (1390–1397), the validation of `dma_accel_ioc_submit`
(1546–1606) and `dma_accel_chr_mmap` (1724–1763). Each section under `buf_mutex` is one
step: `buffers` and `owned_buffers` are touched nowhere else.
-/

namespace DmaAccel.Driver

/-- First slot that is not in use. -/
def freeBufSlot (b : Fin maxBuffers → BufEntry) : Option (Fin maxBuffers) :=
  (List.finRange maxBuffers).find? fun i ↦ !(b i).inUse

/-- `in_use = false; owner = NULL`; the other fields keep their stale values. -/
def BufEntry.release (e : BufEntry) : BufEntry := { e with inUse := false, owner := none }

/-- The `dma_free_coherent` of slot `i` as the table describes it. -/
def freeOf (b : Fin maxBuffers → BufEntry) (i : Fin maxBuffers) : DmaFree :=
  ⟨i, (b i).kaddr, (b i).dmaAddr, (b i).size⟩

/-- `for_each_set_bit` over `owned_buffers`, in increasing order. -/
def setBits (owned : Finset (Fin maxBuffers)) : List (Fin maxBuffers) :=
  (List.finRange maxBuffers).filter (· ∈ owned)

/-- Body of the freeing loop of `release`, over the slots still to visit. -/
def releaseSlots : List (Fin maxBuffers) → (Fin maxBuffers → BufEntry) →
    (Fin maxBuffers → BufEntry)
  | [], b => b
  | i :: is, b => releaseSlots is (Function.update b i (b i).release)

/-- The arguments of the calls to `dma_free_coherent` made by the same loop. -/
def releaseFrees : List (Fin maxBuffers) → (Fin maxBuffers → BufEntry) → List DmaFree
  | [], _ => []
  | i :: is, b => freeOf b i :: releaseFrees is (Function.update b i (b i).release)

/-- A buffer id that is in range and in use. -/
def bufOf (b : Fin maxBuffers → BufEntry) (id : U32) : Option BufEntry :=
  if h : id.toNat < maxBuffers then
    if (b ⟨id.toNat, h⟩).inUse then some (b ⟨id.toNat, h⟩) else none
  else none

/-- Bus addresses resolved by the validation of a request. -/
structure Resolved where
  src : Nat
  dst : Nat
  src2 : Nat
  deriving DecidableEq, Repr

/-- Validation of `dma_accel_ioc_submit` under `buf_mutex`, in the order of the source:
handles, owners and bounds of source and destination, then the second source where the
opcode has one. -/
def checkSubmit (b : Fin maxBuffers → BufEntry) (s : Sid) (req : SubmitReq) :
    Except Errno Resolved :=
  match bufOf b req.srcBufferId, bufOf b req.dstBufferId with
  | some src, some dst =>
    if src.owner ≠ some s ∨ dst.owner ≠ some s then .error .EPERM
    else if req.srcOffset.toNat + req.len.toNat > src.size ∨
        req.dstOffset.toNat + req.len.toNat > dst.size then .error .EINVAL
    else if opcodeNeedsSrc2 req.opcode then
      match bufOf b req.src2BufferId with
      | some src2 =>
        if src2.owner ≠ some s then .error .EPERM
        else if req.src2Offset.toNat + req.len.toNat > src2.size then .error .EINVAL
        else .ok ⟨src.dmaAddr + req.srcOffset.toNat, dst.dmaAddr + req.dstOffset.toNat,
          src2.dmaAddr + req.src2Offset.toNat⟩
      | none => .error .EINVAL
    else .ok ⟨src.dmaAddr + req.srcOffset.toNat, dst.dmaAddr + req.dstOffset.toNat, 0⟩
  | _, _ => .error .EINVAL

/-- Update one call of `dma_accel_ioc_buffer_alloc`. -/
def Sys.setAlloc (st : Sys) (k : Nat) (c : Alloc) : Sys :=
  { st with allocs := Function.update st.allocs k c }

/-- `ioctl(BUFFER_ALLOC)` enters the driver. -/
def ioctlAlloc (st : Sys) (s : Sid) (size : U32) : Sys :=
  { st with
    nallocs := st.nallocs + 1
    allocs := Function.update st.allocs st.nallocs
      { Alloc.none with sess := s, reqSize := size, pc := .copyIn } }

/-- One step of `dma_accel_ioc_buffer_alloc`; `mem` is what `dma_alloc_coherent` returns to
the publishing section. -/
def allocStep (st : Sys) (k : Nat) (mem : Option (Nat × Nat)) : Option Sys :=
  let c := st.allocs k
  match c.pc with
  | .copyIn =>
    if c.reqSize.toNat = 0 ∨ c.reqSize.toNat > bufferAllocMax then
      some (st.setAlloc k { c with pc := .returned, ret := .err .EINVAL })
    else
      some (st.setAlloc k { c with pc := .publish, size := pageAlign c.reqSize.toNat })
  | .publish =>
    -- the quota is tested before the scan, the memory is asked for after it
    if (st.ownedBuffers c.sess).card ≥ defaultBufferQuota then
      some (st.setAlloc k { c with pc := .returned, ret := .err .EDQUOT })
    else
      match freeBufSlot st.buffers, mem with
      | none, _ => some (st.setAlloc k { c with pc := .returned, ret := .err .ENOSPC })
      | some _, none => some (st.setAlloc k { c with pc := .returned, ret := .err .ENOMEM })
      | some i, some (kaddr, dmaAddr) =>
        some { st with
          buffers := Function.update st.buffers i ⟨kaddr, dmaAddr, c.size, true, some c.sess⟩
          ownedBuffers := Function.update st.ownedBuffers c.sess
            (insert i (st.ownedBuffers c.sess))
          allocs := Function.update st.allocs k
            { c with pc := .copyOut, slot := i, kaddr := kaddr, dmaAddr := dmaAddr } }
  | .copyOut => some (st.setAlloc k { c with pc := .returned, ret := .ok 0 })
  | .rollback =>
    some { st with
      buffers := Function.update st.buffers c.slot (st.buffers c.slot).release
      ownedBuffers := Function.update st.ownedBuffers c.sess
        ((st.ownedBuffers c.sess).erase c.slot)
      frees := st.frees ++ [⟨c.slot, c.kaddr, c.dmaAddr, c.size⟩]
      allocs := Function.update st.allocs k { c with pc := .returned, ret := .err .EFAULT } }
  | .returned => none

/-- The copy from or to user space of `dma_accel_ioc_buffer_alloc` faults. -/
def allocFault (st : Sys) (k : Nat) : Option Sys :=
  let c := st.allocs k
  match c.pc with
  | .copyIn => some (st.setAlloc k { c with pc := .returned, ret := .err .EFAULT })
  | .copyOut => some (st.setAlloc k { c with pc := .rollback })
  | _ => none

/-- `dma_accel_chr_mmap` up to the call of `dma_mmap_coherent`, whose result `mapped` it
returns. It changes nothing in the driver. -/
def chrMmap (st : Sys) (s : Sid) (bufferId reqSize : Nat) (mapped : Ret) : Ret :=
  if h : bufferId < maxBuffers then
    let e := st.buffers ⟨bufferId, h⟩
    if !e.inUse || reqSize > e.size then .err .EINVAL
    else if e.owner ≠ some s then .err .EPERM
    else mapped
  else .err .EINVAL

end DmaAccel.Driver
