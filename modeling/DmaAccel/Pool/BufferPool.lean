import DmaAccel.Base.Run
import DmaAccel.Base.Tally

/-!
# Buffer pools and their handles

Source `track-c/runtime/dma_accel_buffer_pool.cpp` (10–64) and the classes of
`dma_accel_buffer_pool.hpp` (53–110). Both members of a `PooledBuffer` are raw pointers, so
the model keeps them apart and lets either be null; a `Buffer *` names the pool whose
storage it points into, so that a release into the wrong pool is a different state. A pool
outlives its handles: `~BufferPool` runs only when no live handle still names it.
-/

namespace DmaAccel.Pool

/-- A `Buffer *` into `buffers_` of a pool. -/
structure BufferPtr where
  pool : Nat
  index : Nat
  deriving DecidableEq, Repr

/-- A `BufferPool`: the addresses of its `buffers_`, and its `free_list_` with the back of
the vector at the end of the list. -/
structure BufferPool where
  buffers : List BufferPtr
  freeList : List BufferPtr
  deriving DecidableEq, Repr

namespace BufferPool

/-- The constructor at address `this`; every buffer enters the free list in order. -/
def construct (this count : Nat) : BufferPool :=
  let buffers := (List.range count).map fun i ↦ ⟨this, i⟩
  { buffers := buffers, freeList := buffers }

def capacity (P : BufferPool) : Nat := P.buffers.length

def available (P : BufferPool) : Nat := P.freeList.length

/-- `acquire()`: the back of the free list, and the pool without it. -/
def acquire (P : BufferPool) : Option (BufferPtr × BufferPool) :=
  P.freeList.getLast?.map fun b ↦ (b, { P with freeList := P.freeList.dropLast })

def release (P : BufferPool) (b : BufferPtr) : BufferPool :=
  { P with freeList := P.freeList ++ [b] }

end BufferPool

/-- A `PooledBuffer`: `pool_` and `buffer_`, each null or not. -/
structure PooledBuffer where
  pool : Option Nat
  buffer : Option BufferPtr
  deriving DecidableEq, Repr

/-- What a move leaves behind. -/
def PooledBuffer.null : PooledBuffer := ⟨none, none⟩

/-- The pools and handles of a program. Objects get increasing numbers and a destroyed one
becomes `none`, so a number stands for one object for good. -/
structure Heap where
  npools : Nat
  pools : Nat → Option BufferPool
  nhandles : Nat
  handles : Nat → Option PooledBuffer

namespace Heap

def init : Heap := ⟨0, fun _ ↦ none, 0, fun _ ↦ none⟩

def setPool (s : Heap) (p : Nat) (P : Option BufferPool) : Heap :=
  { s with pools := Function.update s.pools p P }

def setHandle (s : Heap) (h : Nat) (x : Option PooledBuffer) : Heap :=
  { s with handles := Function.update s.handles h x }

/-- A new handle, under the next number. -/
def newHandle (s : Heap) (x : PooledBuffer) : Heap :=
  { s with
    nhandles := s.nhandles + 1
    handles := Function.update s.handles s.nhandles (some x) }

section Fields

variable (s : Heap) (p h : Nat) (P : Option BufferPool) (o : Option PooledBuffer)
  (x : PooledBuffer)

@[simp] theorem setPool_pools : (s.setPool p P).pools = Function.update s.pools p P := rfl

@[simp] theorem setPool_npools : (s.setPool p P).npools = s.npools := rfl

@[simp] theorem setPool_handles : (s.setPool p P).handles = s.handles := rfl

@[simp] theorem setPool_nhandles : (s.setPool p P).nhandles = s.nhandles := rfl

@[simp] theorem setHandle_pools : (s.setHandle h o).pools = s.pools := rfl

@[simp] theorem setHandle_npools : (s.setHandle h o).npools = s.npools := rfl

@[simp] theorem setHandle_handles :
    (s.setHandle h o).handles = Function.update s.handles h o := rfl

@[simp] theorem setHandle_nhandles : (s.setHandle h o).nhandles = s.nhandles := rfl

@[simp] theorem newHandle_pools : (s.newHandle x).pools = s.pools := rfl

@[simp] theorem newHandle_npools : (s.newHandle x).npools = s.npools := rfl

@[simp] theorem newHandle_handles :
    (s.newHandle x).handles = Function.update s.handles s.nhandles (some x) := rfl

@[simp] theorem newHandle_nhandles : (s.newHandle x).nhandles = s.nhandles + 1 := rfl

end Fields

/-- `release_if_held` on the object `h` with members `x`; a call through a destroyed pool
is not a step. -/
def releaseIfHeld (s : Heap) (h : Nat) (x : PooledBuffer) : Option Heap :=
  match x.pool, x.buffer with
  | some p, some b =>
    (s.pools p).map fun P ↦ (s.setPool p (some (P.release b))).setHandle h (some .null)
  | _, _ => some (s.setHandle h (some .null))

/-- The objects that refer to pool `p`. -/
def Refers (s : Heap) (p : Nat) : Prop :=
  ∃ h ∈ Finset.range s.nhandles, (s.handles h).bind (·.pool) = some p

instance (s : Heap) (p : Nat) : Decidable (s.Refers p) :=
  inferInstanceAs
    (Decidable (∃ h ∈ Finset.range s.nhandles, (s.handles h).bind (·.pool) = some p))

end Heap

/-- What a program does with pools and handles. `moveAssign h k` is `h = std::move(k)`. -/
inductive Act where
  | newPool (count : Nat)
  | dropPool (p : Nat)
  | acquire (p : Nat)
  | moveConstruct (k : Nat)
  | moveAssign (h k : Nat)
  | destroy (h : Nat)
  deriving DecidableEq, Repr

/-- One operation; `none` where an object it names does not exist. The temporary that
`acquire` moves into its `std::optional` is empty when it is destroyed, so only the handle
inside the optional is left. -/
def step (s : Heap) : Act → Option Heap
  | .newPool count => some
      { s with
        npools := s.npools + 1
        pools := Function.update s.pools s.npools (some (.construct s.npools count)) }
  | .dropPool p => do
      let _ ← s.pools p
      if s.Refers p then none else some (s.setPool p none)
  | .acquire p => do
      let P ← s.pools p
      match P.acquire with
      | none => some s
      | some (b, P') => some ((s.setPool p (some P')).newHandle ⟨some p, some b⟩)
  | .moveConstruct k => do
      let other ← s.handles k
      some ((s.newHandle ⟨other.pool, other.buffer⟩).setHandle k (some .null))
  | .moveAssign h k => do
      let this ← s.handles h
      if h = k then some s
      else
        let s ← s.releaseIfHeld h this
        let other ← s.handles k
        some ((s.setHandle h (some ⟨other.pool, other.buffer⟩)).setHandle k (some .null))
  | .destroy h => do
      let this ← s.handles h
      let s ← s.releaseIfHeld h this
      some (s.setHandle h none)

end DmaAccel.Pool
