import DmaAccel.Driver.Buffers
import DmaAccel.Runtime.Process
import DmaAccel.Runtime.Request

/-!
# Buffers and the calls of a Context

Source `track-a/dma_accel_runtime.cpp`: class `Buffer` (45–79) and `Stream::alloc_buffer`
(125–140); `track-b/dma_accel_context.cpp`: `Context::alloc_buffer`, `check_owned` and the three
submit functions (27–69). The Stream a Context wraps fills in the request and issues the ioctl
when `throttle_before_submit` lets it. An argument of a call is left alone until the call
returns, so that its id is the same throughout.
-/

namespace DmaAccel.Runtime

open DmaAccel.Driver (Sys U32 SubmitReq Errno Ret chrMmap pageAlign pageShift opcodeNeedsSrc2)

/-- What a call throws: `std::logic_error` or `std::system_error`. -/
inductive Thrown where
  | logicError (what : String)
  | systemError (e : Errno) (what : String)
  deriving DecidableEq, Repr

/-- `class Buffer`. `addr` is the null pointer, or a mapping by the file that is mapped. -/
structure Buffer where
  addr : Option Fd
  size : U32
  bufferId : U32
  deriving DecidableEq, Repr

namespace Buffer

/-- `Buffer(Buffer &&other)`: the new Buffer and what is left of `other`, which keeps its id. -/
def moveCtor (other : Buffer) : Buffer × Buffer := (other, { other with addr := none, size := 0 })

/-- `reset()`: the mapping goes, the id stays. -/
def reset (b : Buffer) : Buffer := { b with addr := none, size := 0 }

/-- `operator=(Buffer &&other)` on two different Buffers. -/
def moveAssign (this other : Buffer) : Buffer × Buffer :=
  ({ this.reset with addr := other.addr, size := other.size, bufferId := other.bufferId },
    { other with addr := none, size := 0 })

end Buffer

/-- `Stream::alloc_buffer` from the return of its ioctl on, which was the driver's call `k`.
`mapped` is the kernel's answer to `mmap` where the driver has no objection. -/
def Stream.allocBuffer (st : Sys) (k : Nat) (mapped : Ret) : Except Thrown Buffer :=
  let c := st.allocs k
  match c.ret with
  | .err e => .error (.systemError e "ioctl(DMA_ACCEL_IOC_BUFFER_ALLOC)")
  | .ok _ =>
    match chrMmap st c.sess (c.mmapOffset >>> pageShift) (pageAlign c.reqSize.toNat) mapped with
    | .err e => .error (.systemError e "mmap(buffer)")
    | .ok _ => .ok ⟨some c.sess, c.reqSize, c.bufferId⟩

namespace Context

/-- `owned_buffer_ids_.insert(buf.buffer_id())`. -/
def record (c : Context) (buf : Buffer) : Context :=
  { c with ownedBufferIds := insert buf.bufferId c.ownedBufferIds }

/-- The text of the error of `check_owned`. -/
def notAllocated (c : Context) (buf : Buffer) (what : String) : String :=
  "Context::" ++ what ++ "(): buffer_id=" ++ toString buf.bufferId.toNat ++
    " was not allocated through Context '" ++ c.name ++
    "' — this is an application bug (passing a Buffer across Contexts), not a runtime " ++
    "condition. The kernel would also reject this with EPERM (see " ++
    "M10.5-session-ownership.md); this check exists to catch it here first, with enough " ++
    "information to find the mistake."

/-- `check_owned`. -/
def checkOwned (c : Context) (buf : Buffer) (what : String) : Except Thrown Unit :=
  if buf.bufferId ∈ c.ownedBufferIds then .ok ()
  else .error (.logicError (c.notAllocated buf what))

/-- `Context::submit` up to `throttle_before_submit`, with the request it goes on with. -/
def submit (c : Context) (opcode : U32) (src : Buffer) (srcOffset : U32) (dst : Buffer)
    (dstOffset len : U32) : Except Thrown SubmitReq := do
  c.checkOwned src "submit"
  c.checkOwned dst "submit"
  return submitReq opcode src.bufferId srcOffset dst.bufferId dstOffset len

/-- `Context::submit_scale_add` likewise. -/
def submitScaleAdd (c : Context) (a : Buffer) (aOffset : U32) (b : Buffer) (bOffset : U32)
    (dst : Buffer) (dstOffset len scalar : U32) : Except Thrown SubmitReq := do
  c.checkOwned a "submit_scale_add"
  c.checkOwned b "submit_scale_add"
  c.checkOwned dst "submit_scale_add"
  return submitScaleAddReq a.bufferId aOffset b.bufferId bOffset dst.bufferId dstOffset len scalar

/-- `Context::submit_tile_matmul` likewise. -/
def submitTileMatmul (ctx : Context) (a : Buffer) (aOffset : U32) (b : Buffer) (bOffset : U32)
    (c : Buffer) (cOffset : U32) : Except Thrown SubmitReq := do
  ctx.checkOwned a "submit_tile_matmul"
  ctx.checkOwned b "submit_tile_matmul"
  ctx.checkOwned c "submit_tile_matmul"
  return submitTileMatmulReq a.bufferId aOffset b.bufferId bOffset c.bufferId cOffset

end Context

/-- A call of one of the three functions with its arguments. -/
inductive Call where
  | submit (opcode : U32) (src : Buffer) (srcOffset : U32) (dst : Buffer) (dstOffset len : U32)
  | submitScaleAdd (a : Buffer) (aOffset : U32) (b : Buffer) (bOffset : U32) (dst : Buffer)
      (dstOffset len scalar : U32)
  | submitTileMatmul (a : Buffer) (aOffset : U32) (b : Buffer) (bOffset : U32) (c : Buffer)
      (cOffset : U32)
  deriving DecidableEq, Repr

namespace Call

/-- The Buffer arguments, in the order in which they are checked. -/
def args : Call → List Buffer
  | .submit _ src _ dst _ _ => [src, dst]
  | .submitScaleAdd a _ b _ dst _ _ _ => [a, b, dst]
  | .submitTileMatmul a _ b _ c _ => [a, b, c]

/-- The name of the function in its error. -/
def what : Call → String
  | .submit .. => "submit"
  | .submitScaleAdd .. => "submit_scale_add"
  | .submitTileMatmul .. => "submit_tile_matmul"

/-- The request the Stream fills in. -/
def req : Call → SubmitReq
  | .submit opcode src srcOffset dst dstOffset len =>
    submitReq opcode src.bufferId srcOffset dst.bufferId dstOffset len
  | .submitScaleAdd a aOffset b bOffset dst dstOffset len scalar =>
    submitScaleAddReq a.bufferId aOffset b.bufferId bOffset dst.bufferId dstOffset len scalar
  | .submitTileMatmul a aOffset b bOffset c cOffset =>
    submitTileMatmulReq a.bufferId aOffset b.bufferId bOffset c.bufferId cOffset

/-- Every buffer the driver reads from the request is an argument. `Context::submit` takes any
opcode but has no second source. -/
def namesSources : Call → Bool
  | .submit opcode .. => !opcodeNeedsSrc2 opcode
  | _ => true

end Call

/-- The call on a Context. -/
def Context.call (c : Context) : Call → Except Thrown SubmitReq
  | .submit opcode src srcOffset dst dstOffset len =>
    c.submit opcode src srcOffset dst dstOffset len
  | .submitScaleAdd a aOffset b bOffset dst dstOffset len scalar =>
    c.submitScaleAdd a aOffset b bOffset dst dstOffset len scalar
  | .submitTileMatmul a aOffset b bOffset m cOffset =>
    c.submitTileMatmul a aOffset b bOffset m cOffset

/-! ## What the calls check -/

variable {c : Context} {x : Call} {buf : Buffer} {what : String}

theorem Call.args_ne_nil (x : Call) : x.args ≠ [] := by
  cases x <;> exact List.cons_ne_nil _ _

theorem Context.checkOwned_bind {α : Type} (c : Context) (buf : Buffer) (what : String)
    (k : Unit → Except Thrown α) :
    (c.checkOwned buf what >>= k) =
      if buf.bufferId ∈ c.ownedBufferIds then k ()
      else .error (.logicError (c.notAllocated buf what)) := by
  unfold checkOwned
  split <;> rfl

/-- The first argument that is not recorded is the one a call complains about. -/
theorem Context.call_eq (c : Context) (x : Call) :
    c.call x =
      match x.args.find? (fun buf ↦ buf.bufferId ∉ c.ownedBufferIds) with
      | none => .ok x.req
      | some buf => .error (.logicError (c.notAllocated buf x.what)) := by
  cases x with
  | submit opcode src srcOffset dst dstOffset len =>
    by_cases hsrc : src.bufferId ∈ c.ownedBufferIds <;>
    by_cases hdst : dst.bufferId ∈ c.ownedBufferIds <;>
    simp [call, submit, checkOwned_bind, Call.args, Call.what, Call.req, hsrc, hdst, pure,
      Except.pure]
  | submitScaleAdd a aOffset b bOffset dst dstOffset len scalar =>
    by_cases ha : a.bufferId ∈ c.ownedBufferIds <;>
    by_cases hb : b.bufferId ∈ c.ownedBufferIds <;>
    by_cases hdst : dst.bufferId ∈ c.ownedBufferIds <;>
    simp [call, submitScaleAdd, checkOwned_bind, Call.args, Call.what, Call.req, ha, hb, hdst,
      pure, Except.pure]
  | submitTileMatmul a aOffset b bOffset m cOffset =>
    by_cases ha : a.bufferId ∈ c.ownedBufferIds <;>
    by_cases hb : b.bufferId ∈ c.ownedBufferIds <;>
    by_cases hm : m.bufferId ∈ c.ownedBufferIds <;>
    simp [call, submitTileMatmul, checkOwned_bind, Call.args, Call.what, Call.req, ha, hb, hm,
      pure, Except.pure]

/-- A call that passes has recorded arguments only. -/
theorem Context.call_ok {req : SubmitReq} (h : c.call x = .ok req) :
    (∀ buf ∈ x.args, buf.bufferId ∈ c.ownedBufferIds) ∧ req = x.req := by
  rw [call_eq] at h
  split at h
  · next hnone =>
    cases h
    refine ⟨fun buf hbuf ↦ ?_, rfl⟩
    simpa using List.find?_eq_none.mp hnone buf hbuf
  · cases h

/-- A call that throws names the Context and an argument that is not recorded. -/
theorem Context.call_error {e : Thrown} (h : c.call x = .error e) :
    ∃ buf ∈ x.args, buf.bufferId ∉ c.ownedBufferIds ∧
      e = .logicError (c.notAllocated buf x.what) := by
  rw [call_eq] at h
  split at h
  · cases h
  · next buf hbuf =>
    cases h
    exact ⟨buf, List.mem_of_find?_eq_some hbuf, by simpa using List.find?_some hbuf, rfl⟩

end DmaAccel.Runtime
