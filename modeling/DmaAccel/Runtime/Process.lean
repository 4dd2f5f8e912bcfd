import DmaAccel.Runtime.Backpressure
import Mathlib.Data.Finset.Insert

/-!
# Streams, Contexts and a Scheduler in one process

Source `track-a/dma_accel_runtime.cpp`: the constructors and the assignment of `Stream`
(94–115); `track-b/dma_accel_context.cpp`: those of `Context` and `alloc_buffer` (10–31);
`track-b/dma_accel_scheduler.cpp`: `Scheduler::add_context` and `enqueue_copy` (16–24). A
container or a string that has been moved from is empty. A process owns Streams of three kinds:
on their own, inside a Context, and inside an entry of a Scheduler; an object is moved between
two calls only.
-/

namespace DmaAccel.Runtime

open DmaAccel.Base
open DmaAccel.Driver (U32 SubmitReq queueDepth)

namespace Stream

/-- `Stream(Stream &&other)`: the new Stream and what is left of `other`. -/
def moveCtor (other : Stream) : Stream × Stream :=
  (⟨other.fd, other.outstanding, []⟩, { other with fd := none, outstanding := fun _ ↦ none })

/-- `operator=(Stream &&other)` on two different Streams. -/
def moveAssign (this other : Stream) : Stream × Stream :=
  ({ this with fd := other.fd, outstanding := other.outstanding },
    { other with fd := none, outstanding := fun _ ↦ none })

end Stream

/-- `class Context`. -/
structure Context where
  name : String
  stream : Stream
  ownedBufferIds : Finset U32

namespace Context

/-- `Context(Context &&other)`. -/
def moveCtor (other : Context) : Context × Context :=
  (⟨other.name, other.stream.moveCtor.1, other.ownedBufferIds⟩, ⟨"", other.stream.moveCtor.2, ∅⟩)

/-- `operator=(Context &&other)` on two different Contexts. -/
def moveAssign (this other : Context) : Context × Context :=
  (⟨other.name, (this.stream.moveAssign other.stream).1, other.ownedBufferIds⟩,
    ⟨"", (this.stream.moveAssign other.stream).2, ∅⟩)

end Context

/-- `struct PendingCopy`; `src` and `dst` say which Buffer objects the pointers are. -/
structure PendingCopy where
  src : Nat
  srcOffset : U32
  dst : Nat
  dstOffset : U32
  len : U32
  deriving DecidableEq, Repr

/-- `struct Entry`. -/
structure Entry where
  ctx : Context
  pending : List PendingCopy

/-- `explicit Entry(Context c)`. -/
def Entry.ofContext (c : Context) : Entry := ⟨c.moveCtor.1, []⟩

/-- The implicit `Entry(Entry &&other)`. -/
def Entry.moveCtor (other : Entry) : Entry := ⟨other.ctx.moveCtor.1, other.pending⟩

/-- `class Scheduler`: the vector `entries_` and its capacity. -/
structure Scheduler where
  entries : List Entry
  capacity : Nat

/-- `Scheduler::add_context`. `ctx` is moved into the parameter of `Entry`; a vector without
room moves to a place for `room` entries. -/
def Scheduler.addContext (s : Scheduler) (ctx : Context) (room : Nat) : Scheduler :=
  if s.entries.length < s.capacity then
    { s with entries := s.entries ++ [.ofContext ctx.moveCtor.1] }
  else
    { entries := s.entries.map Entry.moveCtor ++ [.ofContext ctx.moveCtor.1]
      capacity := max room (s.entries.length + 1) }

/-- `Scheduler::enqueue_copy`. -/
def Scheduler.enqueueCopy (s : Scheduler) (k : Nat) (req : PendingCopy) : Scheduler :=
  { s with entries := s.entries.modify k fun e ↦ { e with pending := e.pending ++ [req] } }

/-- Where a Stream is. -/
inductive Place where
  | stream (i : Nat)
  | context (i : Nat)
  | entry (i : Nat)
  deriving DecidableEq, Repr

/-- A process. -/
structure Proc where
  heap : Heap
  streams : List Stream
  contexts : List Context
  scheduler : Scheduler
  pcs : Place → Pc
  nfds : Nat

namespace Proc

/-- A process with an empty Scheduler. -/
def init : Proc := ⟨.empty, [], [], ⟨[], 0⟩, fun _ ↦ .idle, 0⟩

/-- The Stream at a place. -/
def get (p : Proc) : Place → Option Stream
  | .stream i => p.streams[i]?
  | .context i => p.contexts[i]?.map (·.stream)
  | .entry i => p.scheduler.entries[i]?.map (·.ctx.stream)

/-- The Stream at a place changes. -/
def put (p : Proc) (q : Place) (s : Stream) : Proc :=
  match q with
  | .stream i => { p with streams := p.streams.set i s }
  | .context i => { p with contexts := p.contexts.modify i fun c ↦ { c with stream := s } }
  | .entry i =>
    { p with
      scheduler :=
        { p.scheduler with
          entries := p.scheduler.entries.modify i fun e ↦
            { e with ctx := { e.ctx with stream := s } } } }

/-- No call of the place is under way. -/
def idle (p : Proc) (q : Place) : Bool := p.pcs q = .idle

/-- The Stream at a place with where it is. -/
def machine (p : Proc) (q : Place) (s : Stream) : Machine := ⟨p.heap, s, p.pcs q⟩

/-- A Stream between two calls. -/
def resting (p : Proc) (s : Stream) : Machine := ⟨p.heap, s, .idle⟩

/-- What a process does. `code` is a step of the Stream at a place; the kernel answers as it
likes, up to the ids it gives. -/
inductive Act where
  | openStream
  | openContext (name : String)
  | moveStream (i : Nat)
  | assignStream (i j : Nat)
  | moveContext (i : Nat)
  | assignContext (i j : Nat)
  | addContext (i room : Nat)
  | allocBuffer (i : Nat) (bufferId : U32)
  | enqueueCopy (k : Nat) (req : PendingCopy)
  | code (q : Place) (l : Label)
  deriving DecidableEq, Repr

/-- The step function. -/
def step (p : Proc) : Act → Option Proc
  | .openStream =>
    some { p with streams := p.streams ++ [.opened p.nfds], nfds := p.nfds + 1 }
  | .openContext name =>
    some { p with contexts := p.contexts ++ [⟨name, .opened p.nfds, ∅⟩], nfds := p.nfds + 1 }
  | .moveStream i =>
    match p.streams[i]? with
    | some s =>
      if p.idle (.stream i) then
        some { p with streams := p.streams.set i s.moveCtor.2 ++ [s.moveCtor.1] }
      else none
    | none => none
  | .assignStream i j =>
    match p.streams[i]?, p.streams[j]? with
    | some this, some other =>
      if p.idle (.stream i) && p.idle (.stream j) then
        if i = j then some p
        else
          some { p with
            streams := (p.streams.set i (this.moveAssign other).1).set j
              (this.moveAssign other).2 }
      else none
    | _, _ => none
  | .moveContext i =>
    match p.contexts[i]? with
    | some c =>
      if p.idle (.context i) then
        some { p with contexts := p.contexts.set i c.moveCtor.2 ++ [c.moveCtor.1] }
      else none
    | none => none
  | .assignContext i j =>
    match p.contexts[i]?, p.contexts[j]? with
    | some this, some other =>
      if p.idle (.context i) && p.idle (.context j) then
        if i = j then some p
        else
          some { p with
            contexts := (p.contexts.set i (this.moveAssign other).1).set j
              (this.moveAssign other).2 }
      else none
    | _, _ => none
  | .addContext i room =>
    match p.contexts[i]? with
    | some c =>
      if p.idle (.context i) && (p.scheduler.entries.length < p.scheduler.capacity ||
          (List.range p.scheduler.entries.length).all (fun k ↦ p.idle (.entry k))) then
        some { p with
          contexts := p.contexts.set i c.moveCtor.2
          scheduler := p.scheduler.addContext c.moveCtor.1 room }
      else none
    | none => none
  | .allocBuffer i bufferId =>
    some { p with
      contexts := p.contexts.modify i fun c ↦
        { c with ownedBufferIds := insert bufferId c.ownedBufferIds } }
  | .enqueueCopy k req => some { p with scheduler := p.scheduler.enqueueCopy k req }
  | .code q l =>
    match p.get q with
    | some s =>
      if Machine.allowed p.heap l then
        ((p.machine q s).step l).map fun m ↦
          { p.put q m.stream with heap := m.heap, pcs := Function.update p.pcs q m.pc }
      else none
    | none => none

/-- Every Stream that a step moves, and every Stream it assigns to, records nothing that could
hold a submission up. -/
def MovesClear (p : Proc) : Act → Prop
  | .moveStream i => ∀ s, p.streams[i]? = some s → (p.resting s).Clear
  | .assignStream i j => i ≠ j → ∀ this other, p.streams[i]? = some this →
      p.streams[j]? = some other → (p.resting other).Clear ∧
        (p.resting (this.moveAssign other).1).Clear
  | .moveContext i => ∀ c, p.contexts[i]? = some c → (p.resting c.stream).Clear
  | .assignContext i j => i ≠ j → ∀ this other, p.contexts[i]? = some this →
      p.contexts[j]? = some other → (p.resting other.stream).Clear ∧
        (p.resting (this.moveAssign other).1.stream).Clear
  | .addContext i _ => (∀ c, p.contexts[i]? = some c → (p.resting c.stream).Clear) ∧
      (p.scheduler.entries.length < p.scheduler.capacity ∨
        ∀ e ∈ p.scheduler.entries, (p.resting e.ctx.stream).Clear)
  | _ => True

/-- States of a process, whatever it moves. -/
def Reachable (p : Proc) : Prop := Reach step anyStep init p

end Proc

end DmaAccel.Runtime
