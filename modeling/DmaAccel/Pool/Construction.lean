import DmaAccel.Client.Holdings
import DmaAccel.Runtime.Context

/-!
# Allocations that fail

Source `track-c/runtime/dma_accel_runtime.cpp`: `Stream::alloc_buffer` (125–140), and
`track-c/runtime/dma_accel_buffer_pool.cpp`: the constructor of `BufferPool` (39–51), on top of
the driver. A Stream serves one thread and outlives the calls on it, so that during a call
nobody else allocates on its file or closes it; every other session, the handler and the device
go on. A constructor that throws destroys the Buffers it has, which only unmaps them: there is
no BUFFER_FREE.
-/

namespace DmaAccel.Pool.Construction

open DmaAccel.Base
open DmaAccel.Driver (Sys Sid U32 Ret)
open DmaAccel.Runtime (Buffer Stream Thrown)

/-- A call of `alloc_buffer`, or the construction of a pool. -/
inductive Call where
  | allocBuffer (size : U32)
  | bufferPool (bufferSize count : U32)
  deriving DecidableEq, Repr

/-- What a call throws: the error of `alloc_buffer`, or that of `reserve` on a vector. -/
inductive Failure where
  | alloc (e : Thrown)
  | reserve
  deriving DecidableEq, Repr

/-- Where a call is: at `buffers_.reserve`, about to have the next Buffer allocated, in the ioctl
of `alloc_buffer` as the driver's call `k`, at `free_list_.reserve`, or at its end. -/
inductive Point where
  | reserveBuffers
  | next
  | ioctl (k : Nat)
  | reserveFreeList
  | returned
  | threw (e : Failure)
  deriving DecidableEq, Repr

namespace Call

/-- The `size` of the calls of `alloc_buffer`. -/
def size : Call → U32
  | .allocBuffer size => size
  | .bufferPool bufferSize _ => bufferSize

/-- How many Buffers are asked for. -/
def count : Call → Nat
  | .allocBuffer _ => 1
  | .bufferPool _ count => count.toNat

/-- The constructor reserves room before its loop, -/
def first : Call → Point
  | .allocBuffer _ => .next
  | .bufferPool _ _ => .reserveBuffers

/-- and fills the free list after it. -/
def last : Call → Point
  | .allocBuffer _ => .returned
  | .bufferPool _ _ => .reserveFreeList

end Call

/-- The driver, and a call on the Stream of session `sess` with the Buffers it has got. -/
structure State where
  sys : Sys
  sess : Sid
  call : Call
  buffers : List Buffer
  point : Point

/-- The call begins. -/
def State.start (sys : Sys) (sess : Sid) (call : Call) : State := ⟨sys, sess, call, [], call.first⟩

/-- A move of the calling thread, or of a party of the driver. -/
inductive Act where
  | driver (a : Driver.Act)
  | reserve (ok : Bool)
  | next
  | allocReturn (mapped : Ret)
  deriving DecidableEq, Repr

/-- A party of the driver may move, unless it is another user of the Stream. -/
def State.admits (s : State) : Driver.Act → Bool
  | .alloc f _ => f ≠ s.sess
  | .chrRelease f => f ≠ s.sess
  | _ => true

/-- The step function. -/
def step (s : State) : Act → Option State
  | .driver a =>
    if s.admits a then (Driver.step s.sys a).map fun st ↦ { s with sys := st } else none
  | .reserve ok =>
    match s.point with
    | .reserveBuffers => some { s with point := if ok then .next else .threw .reserve }
    | .reserveFreeList => some { s with point := if ok then .returned else .threw .reserve }
    | _ => none
  | .next =>
    if s.point = .next then
      if s.buffers.length < s.call.count then
        (Driver.step s.sys (.alloc s.sess s.call.size)).map fun st ↦
          { s with sys := st, point := .ioctl s.sys.nallocs }
      else some { s with point := s.call.last }
    else none
  | .allocReturn mapped =>
    match s.point with
    | .ioctl k =>
      if (s.sys.allocs k).pc = .returned then
        match Stream.allocBuffer s.sys k mapped with
        | .ok buf => some { s with buffers := s.buffers ++ [buf], point := .next }
        | .error e => some { s with point := .threw (.alloc e) }
      else none
    | _ => none

/-- How many slots the call of `alloc_buffer` that throws leaves behind: one if its ioctl had
succeeded and its `mmap` failed. -/
def Failure.slots : Failure → Nat
  | .alloc (.systemError _ what) => if what = "mmap(buffer)" then 1 else 0
  | .alloc (.logicError _) => 0
  | .reserve => 0

end DmaAccel.Pool.Construction
