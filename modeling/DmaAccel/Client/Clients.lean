import DmaAccel.Driver.System
import DmaAccel.Runtime.Context

/-!
# Contexts and Buffers on top of the driver

Source `track-b/dma_accel_context.cpp` (10–69) and `track-a/dma_accel_runtime.cpp` (45–79,
125–225) on top of `track-a/dma_accel_drv.c`. Any number of clients own Contexts, Buffers and
Streams of their own; each Context runs its calls one after another, and between any two steps
the others, the driver's threads and the device move. A file is released after its descriptor
is closed and its last mapping is gone. What a Stream does with its fences is left open: it may
change `outstanding_` and `submission_order_` at any time, and never its descriptor.
-/

namespace DmaAccel.Client

open DmaAccel.Base
open DmaAccel.Driver (Sys Sid U32 SubmitReq Ret)
open DmaAccel.Runtime (Buffer Call Context Fid Stream Thrown)

/-- Where a Context is: not in a call, in the ioctl of `alloc_buffer` as the driver's call `k`,
in `throttle_before_submit`, or in the ioctl of `do_submit` as the driver's call `k`. -/
inductive Pc where
  | idle
  | allocating (k : Nat)
  | throttled (x : Call) (req : SubmitReq)
  | submitting (x : Call) (k : Nat)
  deriving DecidableEq, Repr

/-- The driver, and every object that was ever built; `none` is one that was destroyed. -/
structure State where
  sys : Sys
  ncontexts : Nat
  contexts : Nat → Option Context
  pcs : Nat → Pc
  nbuffers : Nat
  buffers : Nat → Option Buffer

/-- No object exists, and no file is open. -/
def init : State := ⟨Sys.init, 0, fun _ ↦ none, fun _ ↦ .idle, 0, fun _ ↦ none⟩

/-- A move of a client, or of a party of the driver. -/
inductive Act where
  | driver (a : Driver.Act)
  | openContext (name : String)
  | moveContext (i : Nat)
  | assignContext (i j : Nat)
  | destroyContext (i : Nat)
  | runStream (i : Nat) (outstanding : Nat → Option Fid) (submissionOrder : List Fid)
  | allocBuffer (i : Nat) (size : U32)
  | allocReturn (i : Nat) (mapped : Ret)
  | streamBuffer (k : Nat) (mapped : Ret)
  | moveBuffer (j : Nat)
  | assignBuffer (j l : Nat)
  | destroyBuffer (j : Nat)
  | submit (i : Nat) (x : Call)
  | throttleThrows (i : Nat)
  | issue (i : Nat)
  | restart (i : Nat)
  | submitReturn (i : Nat)

namespace State

/-- Some Context has the file open. -/
def held (s : State) (f : Sid) : Bool :=
  (List.range s.ncontexts).any fun i ↦ (s.contexts i).any fun c ↦ c.stream.fd = some f

/-- Some Buffer maps the file. -/
def mapped (s : State) (f : Sid) : Bool :=
  (List.range s.nbuffers).any fun j ↦ (s.buffers j).any fun buf ↦ buf.addr = some f

/-- The arguments of the call are Buffers that exist. -/
def exist (s : State) (x : Call) : Bool :=
  x.args.all fun buf ↦ (List.range s.nbuffers).any fun j ↦ s.buffers j = some buf

/-- A party of the driver may move: `release` waits for the descriptor and the mappings. -/
def admits (s : State) : Driver.Act → Bool
  | .chrRelease f => !s.held f && !s.mapped f
  | _ => true

/-- The Context comes to another point of its code. -/
def setPc (s : State) (i : Nat) (pc : Pc) : State :=
  { s with pcs := Function.update s.pcs i pc }

/-- A Buffer is built. -/
def addBuffer (s : State) (buf : Buffer) : State :=
  { s with
    nbuffers := s.nbuffers + 1
    buffers := Function.update s.buffers s.nbuffers (some buf) }

end State

/-- The step function. An object is moved, assigned to and destroyed between two calls; a
`throw` leaves the objects as they were. -/
def step (s : State) : Act → Option State
  | .driver a =>
    if s.admits a then (Driver.step s.sys a).map fun st ↦ { s with sys := st } else none
  | .openContext name =>
    some { s with
      sys := Driver.chrOpen s.sys
      ncontexts := s.ncontexts + 1
      contexts := Function.update s.contexts s.ncontexts (some ⟨name, .opened s.sys.nsess, ∅⟩) }
  | .moveContext i =>
    match s.contexts i with
    | some c =>
      if s.pcs i = .idle then
        some { s with
          ncontexts := s.ncontexts + 1
          contexts := Function.update (Function.update s.contexts i (some c.moveCtor.2))
            s.ncontexts (some c.moveCtor.1) }
      else none
    | none => none
  | .assignContext i j =>
    match s.contexts i, s.contexts j with
    | some this, some other =>
      if s.pcs i = .idle ∧ s.pcs j = .idle then
        if i = j then some s
        else
          some { s with
            contexts := Function.update
              (Function.update s.contexts i (some (this.moveAssign other).1)) j
              (some (this.moveAssign other).2) }
      else none
    | _, _ => none
  | .destroyContext i =>
    if s.pcs i = .idle then some { s with contexts := Function.update s.contexts i none } else none
  | .runStream i outstanding submissionOrder =>
    match s.contexts i with
    | some c =>
      some { s with
        contexts := Function.update s.contexts i
          (some { c with stream := ⟨c.stream.fd, outstanding, submissionOrder⟩ }) }
    | none => none
  | .allocBuffer i size =>
    match s.contexts i with
    | some c =>
      if s.pcs i = .idle then
        match c.stream.fd with
        | some f =>
          (Driver.step s.sys (.alloc f size)).map fun st ↦
            { s with sys := st }.setPc i (.allocating s.sys.nallocs)
        -- the ioctl on -1 fails
        | none => some s
      else none
    | none => none
  | .allocReturn i mapped =>
    match s.contexts i, s.pcs i with
    | some c, .allocating k =>
      if (s.sys.allocs k).pc = .returned then
        match Stream.allocBuffer s.sys k mapped with
        | .ok buf =>
          some (({ s with contexts := Function.update s.contexts i (some (c.record buf)) }.addBuffer
            buf).setPc i .idle)
        | .error _ => some (s.setPc i .idle)
      else none
    | _, _ => none
  | .streamBuffer k mapped =>
    -- a Stream on its own has the file open
    if k < s.sys.nallocs ∧ (s.sys.allocs k).pc = .returned ∧
        s.sys.phase (s.sys.allocs k).sess = .opened ∧ s.held (s.sys.allocs k).sess = false then
      match Stream.allocBuffer s.sys k mapped with
      | .ok buf => some (s.addBuffer buf)
      | .error _ => some s
    else none
  | .moveBuffer j =>
    match s.buffers j with
    | some buf =>
      some ({ s with
        buffers := Function.update s.buffers j (some buf.moveCtor.2) }.addBuffer buf.moveCtor.1)
    | none => none
  | .assignBuffer j l =>
    match s.buffers j, s.buffers l with
    | some this, some other =>
      if j = l then some s
      else
        some { s with
          buffers := Function.update
            (Function.update s.buffers j (some (this.moveAssign other).1)) l
            (some (this.moveAssign other).2) }
    | _, _ => none
  | .destroyBuffer j => some { s with buffers := Function.update s.buffers j none }
  | .submit i x =>
    match s.contexts i with
    | some c =>
      if s.pcs i = .idle ∧ s.exist x = true then
        match c.call x with
        | .ok req => some (s.setPc i (.throttled x req))
        | .error _ => some s
      else none
    | none => none
  | .throttleThrows i =>
    match s.pcs i with
    | .throttled _ _ => some (s.setPc i .idle)
    | _ => none
  | .issue i =>
    match s.contexts i, s.pcs i with
    | some c, .throttled x req =>
      match c.stream.fd with
      | some f =>
        (Driver.step s.sys (.submit f req)).map fun st ↦
          { s with sys := st }.setPc i (.submitting x s.sys.nsubmits)
      | none => some (s.setPc i .idle)
    | _, _ => none
  | .restart i =>
    match s.pcs i with
    | .submitting x k =>
      let c := s.sys.submits k
      if c.pc.finished = true ∧ c.ret = .err .ERESTARTSYS then
        (Driver.step s.sys (.submit c.sess c.req)).map fun st ↦
          { s with sys := st }.setPc i (.submitting x s.sys.nsubmits)
      else none
    | _ => none
  | .submitReturn i =>
    match s.pcs i with
    | .submitting _ k =>
      if (s.sys.submits k).pc.finished then some (s.setPc i .idle) else none
    | _ => none

/-- Script: Context `i` allocates a page with the driver's call `k`. -/
def allocScript (i k : Nat) : List Act :=
  [.allocBuffer i 4096, .driver (.allocStep k none),
    .driver (.allocStep k (some (0, 4096 * (k + 1)))), .driver (.allocStep k none),
    .allocReturn i (.ok 0)]

/-- Script: Context `i` makes a call that passes, and the driver's call `k` runs for `n` steps. -/
def submitScript (i : Nat) (x : Call) (k n : Nat) : List Act :=
  [.submit i x, .issue i] ++ List.replicate n (.driver (.submitStep k))

end DmaAccel.Client
