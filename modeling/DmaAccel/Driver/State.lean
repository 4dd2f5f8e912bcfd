import DmaAccel.Driver.Abi
import DmaAccel.Base.Ring
import Mathlib.Data.Finset.Basic
import Mathlib.Data.Fintype.Basic

/-!
# State of the driver, the device and the calls in progress

Source `track-a/dma_accel_drv.c`: `struct dma_accel_dev` (157–226), `struct
dma_accel_session` (247–278), `struct dma_accel_cmd_ctx` and `struct dma_accel_buf_entry`
(138–155). A session is a number that is never reused, so a pointer to it keeps its
provenance after `kfree`; its fields are kept as one map for each lock that guards them,
and the zeroed record `kzalloc` returns is their initial content.

Every entry point that user space calls is a record with a program counter and the locals
of the C function. Records are never removed: a finished call keeps its locals, which is
what the history of the run refers to. The last group of fields is history only; no step
reads it.
-/

namespace DmaAccel.Driver

open DmaAccel.Base

/-- Identity of a `struct dma_accel_session`. -/
abbrev Sid := Nat

/-- `struct dma_accel_cmd_ctx`. -/
structure CmdCtx where
  valid : Bool
  cmdId : Nat
  sess : Sid
  deriving DecidableEq, Repr

/-- `struct dma_accel_buf_entry`. -/
structure BufEntry where
  kaddr : Nat
  dmaAddr : Nat
  size : Nat
  inUse : Bool
  owner : Option Sid
  deriving DecidableEq, Repr

/-- Completion ring of a session: `comp_ring`, `comp_head`, `comp_tail`. -/
structure CompRing where
  slots : Fin compRingSize → Completion
  head : U32
  tail : U32

/-- Life of a session: from `open` through the steps of `release` to `kfree`. -/
inductive Phase where
  | closed | opened | relWake | relPoll | relFree | relKfree | freed
  deriving DecidableEq, Repr

/-- A session is live until the freeing section of its `release` has run. -/
def Phase.live : Phase → Bool
  | .opened | .relWake | .relPoll | .relFree => true
  | .closed | .relKfree | .freed => false

/-- Program counter of `dma_accel_ioc_submit`. `refused` returned before the commit point,
`returned` after it; the six `enq` points are `dma_accel_queue_submit_ext`. -/
inductive SubmitPc where
  | copyIn | check | newId | readActive | admission | waitTest | asleep
  | incInflight | incTotal
  | enqIdx | enqStore | enqReadTail | enqWriteTail | enqLoadTail | enqDoorbell
  | copyOut | refused | returned
  deriving DecidableEq, Repr

/-- The call has returned to user space. -/
def SubmitPc.finished : SubmitPc → Bool
  | .refused | .returned => true
  | _ => false

/-- A call of `dma_accel_ioc_submit` with its locals. -/
structure Submit where
  sess : Sid
  req : SubmitReq
  pc : SubmitPc
  srcDma : Nat
  dstDma : Nat
  src2Dma : Nat
  cmdId : Nat
  active : Int
  quota : Int
  idx : Fin queueDepth
  tail : U32
  ret : Ret

/-- A call that was never made. -/
def Submit.none : Submit := ⟨0, .zero, .refused, 0, 0, 0, 0, 0, 0, 0, 0, .ok 0⟩

/-- The descriptor `dma_accel_queue_submit_ext` stores for the call. -/
def Submit.desc (c : Submit) : Cmd where
  opcode := c.req.opcode
  len := c.req.len
  srcAddr := c.srcDma
  dstAddr := c.dstDma
  cmdId := c.cmdId
  src2Addr := c.src2Dma
  scalar := c.req.scalar
  reserved := 0

/-- Program counter of `dma_accel_ioc_buffer_alloc`. -/
inductive AllocPc where
  | copyIn | publish | copyOut | rollback | returned
  deriving DecidableEq, Repr

/-- A call of `dma_accel_ioc_buffer_alloc` with its locals. -/
structure Alloc where
  sess : Sid
  reqSize : U32
  pc : AllocPc
  size : Nat
  slot : Fin maxBuffers
  kaddr : Nat
  dmaAddr : Nat
  ret : Ret

/-- A call that was never made. -/
def Alloc.none : Alloc := ⟨0, 0, .returned, 0, 0, 0, 0, .ok 0⟩

/-- `req.buffer_id` of a successful allocation. -/
def Alloc.bufferId (c : Alloc) : U32 := BitVec.ofNat 32 c.slot.val

/-- `req.mmap_offset` of a successful allocation. -/
def Alloc.mmapOffset (c : Alloc) : Nat := c.slot.val <<< pageShift

/-- Program counter of `dma_accel_chr_read`. -/
inductive ReadPc where
  | avail | pop | copy | returned
  deriving DecidableEq, Repr

/-- A call of `dma_accel_chr_read` with its locals. -/
structure Read where
  sess : Sid
  bytes : Nat
  pc : ReadPc
  nWant : Nat
  copied : Nat
  out : Completion
  ret : Ret

/-- A call that was never made. -/
def Read.none : Read := ⟨0, 0, .returned, 0, 0, .zero, .ok 0⟩

/-- Program counter of `dma_accel_irq_handler`. -/
inductive IsrPc where
  | idle | ack | readTail | drain | lookup
  | push | decInflight | decTotal | wakeQuota | wakeComp | next | writeHead
  deriving DecidableEq, Repr

/-- The interrupt handler with its locals. One instance: the kernel never runs the handler
of one interrupt line on two processors at once. -/
structure Isr where
  pc : IsrPc
  irqStatus : U32
  deviceCqTail : U32
  comp : Completion
  owner : Sid

/-- The device's posting engine: it writes an entry, advances `CQ_TAIL`, then raises. -/
inductive Post where
  | idle
  | advance (status : U32)
  | raise (status : U32)
  deriving DecidableEq, Repr

/-- A command whose table entry has been registered. -/
structure Admitted where
  sess : Sid
  cmd : Cmd
  deriving DecidableEq, Repr

/-- One `dma_free_coherent` of a buffer slot. -/
structure DmaFree where
  slot : Fin maxBuffers
  kaddr : Nat
  dmaAddr : Nat
  size : Nat
  deriving DecidableEq, Repr

/-- The driver, its sessions, the device and every call made so far. -/
structure Sys where
  -- `struct dma_accel_dev`
  sqBuf : Fin queueDepth → Cmd
  cqBuf : Fin queueDepth → Completion
  sqTail : U32
  cqHead : U32
  uapiActive : Bool
  irqDone : Nat
  cmdTable : Fin maxInflightCmds → CmdCtx
  activeSessions : Int
  totalInflight : Int
  buffers : Fin maxBuffers → BufEntry
  nextCmdId : Nat
  -- device registers and engine
  regSqTail : U32
  regSqHead : U32
  regCqTail : U32
  regCqHead : U32
  regIrqStatus : U32
  post : Post
  fetched : List Cmd
  -- `struct dma_accel_session`, by the lock that guards each field
  nsess : Nat
  phase : Sid → Phase
  ownedBuffers : Sid → Finset (Fin maxBuffers)
  compRing : Sid → CompRing
  inflight : Sid → Int
  -- threads of control
  isr : Isr
  nsubmits : Nat
  submits : Nat → Submit
  nallocs : Nat
  allocs : Nat → Alloc
  nreads : Nat
  reads : Nat → Read
  -- history
  admitted : List Admitted
  pushed : List (Sid × Completion)
  taken : List (Sid × Completion)
  delivered : List (Sid × Completion)
  frees : List DmaFree

/-- The state in which the character device is registered: `dma_accel_queue_init` and the
atomics of `dma_accel_probe`, empty rings, no session and no call. The self-tests of `probe`
leave other indices and slots than these zeros. Nothing is lost by that: indices matter by
their distances modulo `2 ^ 32` only, and but for the race of two submitters every slot is
written before it is read. -/
def Sys.init : Sys where
  sqBuf := fun _ ↦ .zero
  cqBuf := fun _ ↦ .zero
  sqTail := 0
  cqHead := 0
  uapiActive := true
  irqDone := 0
  cmdTable := fun _ ↦ ⟨false, 0, 0⟩
  activeSessions := 0
  totalInflight := 0
  buffers := fun _ ↦ ⟨0, 0, 0, false, none⟩
  nextCmdId := 1
  regSqTail := 0
  regSqHead := 0
  regCqTail := 0
  regCqHead := 0
  regIrqStatus := 0
  post := .idle
  fetched := []
  nsess := 0
  phase := fun _ ↦ .closed
  ownedBuffers := fun _ ↦ ∅
  compRing := fun _ ↦ ⟨fun _ ↦ .zero, 0, 0⟩
  inflight := fun _ ↦ 0
  isr := ⟨.idle, 0, 0, .zero, 0⟩
  nsubmits := 0
  submits := fun _ ↦ .none
  nallocs := 0
  allocs := fun _ ↦ .none
  nreads := 0
  reads := fun _ ↦ .none
  admitted := []
  pushed := []
  taken := []
  delivered := []
  frees := []

/-- No call on the session is in progress: what the VFS guarantees to `release`. -/
def Sys.quiescent (st : Sys) (s : Sid) : Prop :=
  (∀ k < st.nsubmits, (st.submits k).sess = s → (st.submits k).pc.finished = true) ∧
  (∀ k < st.nallocs, (st.allocs k).sess = s → (st.allocs k).pc = .returned) ∧
  (∀ k < st.nreads, (st.reads k).sess = s → (st.reads k).pc = .returned)

/-- Quiescence is decided by scanning the calls. -/
instance (st : Sys) (s : Sid) : Decidable (st.quiescent s) :=
  inferInstanceAs (Decidable (_ ∧ _ ∧ _))

end DmaAccel.Driver
