import DmaAccel.Base.Run
import DmaAccel.Runtime.Request

/-!
# Command batches

Source `track-c/runtime/dma_accel_command_batch.cpp` (11–88) and `.hpp`, and of
`dma_accel_command_group.cpp` the constructor, `add` and `seal` (29–60). A queued command is a
closure over the batch's Stream and over the buffers by reference, whose ids are read when it is
invoked. The default moves copy the Stream and both flags and take the commands along. What the
closures reach outside is a parameter. The commands that are queued together form a lot, which
moves along with them: lots and the history are not in the source.
-/

namespace DmaAccel.Batch

open DmaAccel.Driver (U32 SubmitReq)
open DmaAccel.Runtime (submitReq submitScaleAddReq submitTileMatmulReq)

universe u v w x

/-- A `Buffer` object of the caller. -/
abbrev BufRef := Nat

/-- A queued call of a Stream, by the `append` that queued it. -/
inductive Command where
  | submit (opcode : U32) (src : BufRef) (srcOffset : U32) (dst : BufRef) (dstOffset len : U32)
  | scaleAdd (a : BufRef) (aOffset : U32) (b : BufRef) (bOffset : U32) (dst : BufRef)
      (dstOffset len scalar : U32)
  | tileMatmul (a : BufRef) (aOffset : U32) (b : BufRef) (bOffset : U32) (c : BufRef)
      (cOffset : U32)
  deriving DecidableEq, Repr

/-- The request it makes when the buffers have these ids. -/
def Command.request (id : BufRef → U32) : Command → SubmitReq
  | .submit opcode src srcOffset dst dstOffset len =>
    submitReq opcode (id src) srcOffset (id dst) dstOffset len
  | .scaleAdd a aOffset b bOffset dst dstOffset len scalar =>
    submitScaleAddReq (id a) aOffset (id b) bOffset (id dst) dstOffset len scalar
  | .tileMatmul a aOffset b bOffset c cOffset =>
    submitTileMatmulReq (id a) aOffset (id b) bOffset (id c) cOffset

/-- The places that throw `std::logic_error`. -/
inductive LogicError where
  | appendAfterFreeze | appendScaleAddAfterFreeze | appendTileMatmulAfterFreeze
  | submitBeforeFreeze | submitTwice | addAfterSeal
  deriving DecidableEq, Repr

/-- `what()` of the exception. -/
def LogicError.what : LogicError → String
  | .appendAfterFreeze => "CommandBatch::append() called after freeze()"
  | .appendScaleAddAfterFreeze => "CommandBatch::append_scale_add() called after freeze()"
  | .appendTileMatmulAfterFreeze => "CommandBatch::append_tile_matmul() called after freeze()"
  | .submitBeforeFreeze => "CommandBatch::submit() called before freeze()"
  | .submitTwice =>
    "CommandBatch::submit() called more than once — commands from the first " ++
      "call may already be on hardware; refusing to risk double-submission"
  | .addAfterSeal =>
    "CommandGroup::add() called after seal() — a sealed group's " ++
      "membership is fixed; create a new group for further commands"

/-- What the `append` of a command throws on a frozen batch. -/
def Command.afterFreeze : Command → LogicError
  | .submit .. => .appendAfterFreeze
  | .scaleAdd .. => .appendScaleAddAfterFreeze
  | .tileMatmul .. => .appendTileMatmulAfterFreeze

/-- An element of `commands_`: the Stream it has captured, and its call. -/
structure Closure (ς : Type u) where
  stream : ς
  command : Command
  deriving DecidableEq, Repr

/-- `class CommandGroup`, with its Stream. -/
structure CommandGroup (ς : Type u) (φ : Type v) where
  stream : ς
  fences : List φ
  isSealed : Bool
  deriving DecidableEq, Repr

/-- `class CommandBatch`. -/
structure CommandBatch (ς : Type u) where
  stream : ς
  commands : List (Closure ς)
  frozen : Bool
  submitted : Bool
  lot : Nat
  deriving DecidableEq, Repr

/-- What the closures reach: the ids of the caller's buffers, and the submission of a request
through a Stream, which returns a fence or throws. -/
structure Outside (ς : Type u) (φ : Type v) (σ : Type w) (ε : Type x) where
  bufferId : σ → BufRef → U32
  submit : ς → SubmitReq → σ → Except ε φ × σ

/-- What leaves `submit`. -/
inductive Thrown (ε : Type x) where
  | logicError (e : LogicError)
  | submission (e : ε)
  deriving DecidableEq, Repr

variable {ς : Type u} {φ : Type v} {σ : Type w} {ε : Type x}

/-- Invoking a closure. -/
def Closure.invoke (out : Outside ς φ σ ε) (fn : Closure ς) (world : σ) : Except ε φ × σ :=
  out.submit fn.stream (fn.command.request (out.bufferId world)) world

namespace CommandGroup

/-- `CommandGroup(Stream &)`. -/
def new (stream : ς) : CommandGroup ς φ := ⟨stream, [], false⟩

/-- `CommandGroup::add`. -/
def add (group : CommandGroup ς φ) (fence : φ) : Except LogicError (CommandGroup ς φ) :=
  if group.isSealed then .error .addAfterSeal
  else .ok { group with fences := group.fences ++ [fence] }

/-- `CommandGroup::seal`. -/
def sealUp (group : CommandGroup ς φ) : CommandGroup ς φ := { group with isSealed := true }

end CommandGroup

/-- The loop of `submit`: how it ends, what it leaves outside, and what the closures that it has
invoked returned. -/
def dispatch (out : Outside ς φ σ ε) : List (Closure ς) → CommandGroup ς φ → σ →
    Except (Thrown ε) (CommandGroup ς φ) × σ × List (Closure ς × Option φ)
  | [], group, world => (.ok group, world, [])
  | fn :: fns, group, world =>
    match fn.invoke out world with
    | (.error e, world) => (.error (.submission e), world, [(fn, none)])
    | (.ok fence, world) =>
      match group.add fence with
      | .error e => (.error (.logicError e), world, [(fn, some fence)])
      | .ok group =>
        let (r, world, calls) := dispatch out fns group world
        (r, world, (fn, some fence) :: calls)

namespace CommandBatch

/-- `CommandBatch(Stream &)`. -/
def new (stream : ς) (lot : Nat) : CommandBatch ς := ⟨stream, [], false, false, lot⟩

/-- `append`, `append_scale_add` and `append_tile_matmul`. -/
def append (batch : CommandBatch ς) (command : Command) : Except LogicError (CommandBatch ς) :=
  if batch.frozen then .error command.afterFreeze
  else .ok { batch with commands := batch.commands ++ [⟨batch.stream, command⟩] }

/-- `CommandBatch::freeze`. -/
def freeze (batch : CommandBatch ς) : CommandBatch ς := { batch with frozen := true }

/-- `CommandBatch::submit`, with the batch it leaves. -/
def submit (out : Outside ς φ σ ε) (batch : CommandBatch ς) (world : σ) :
    Except (Thrown ε) (CommandGroup ς φ) × CommandBatch ς × σ × List (Closure ς × Option φ) :=
  if !batch.frozen then (.error (.logicError .submitBeforeFreeze), batch, world, [])
  else if batch.submitted then (.error (.logicError .submitTwice), batch, world, [])
  else
    let (r, world, calls) := dispatch out batch.commands (.new batch.stream) world
    (r.map .sealUp, { batch with submitted := true }, world, calls)

/-- What a move leaves behind: the Stream and the flags. The lot has gone along. -/
def movedFrom (batch : CommandBatch ς) (lot : Nat) : CommandBatch ς :=
  { batch with commands := [], lot }

end CommandBatch

/-! ### Programs -/

/-- What happens to a lot. -/
inductive Event (ς : Type u) (φ : Type v) where
  | appended (l : Nat) (fn : Closure ς)
  | froze (l : Nat)
  | called (l : Nat) (fn : Closure ς) (r : Option φ)
  | returned (l : Nat) (group : CommandGroup ς φ)
  | threw (l : Nat)
  | refused (l : Nat) (e : LogicError)

/-- Any number of batches, and everything outside. -/
structure Program (ς : Type u) (φ : Type v) (σ : Type w) where
  batches : Nat → Option (CommandBatch ς)
  nbatches : Nat
  nlots : Nat
  world : σ
  history : List (Event ς φ)

/-- What the caller does; `outside` is anything that is not about batches. -/
inductive Act (ς : Type u) (σ : Type w) where
  | construct (stream : ς)
  | append (b : Nat) (command : Command)
  | freeze (b : Nat)
  | submit (b : Nat)
  | moveConstruct (src : Nat)
  | moveAssign (dst src : Nat)
  | destroy (b : Nat)
  | outside (world : σ)

namespace Program

/-- No batch yet. -/
def init (world : σ) : Program ς φ σ := ⟨fun _ ↦ none, 0, 0, world, []⟩

/-- Batch `b` replaced. -/
def put (p : Program ς φ σ) (b : Nat) (batch : Option (CommandBatch ς)) : Program ς φ σ :=
  { p with batches := Function.update p.batches b batch }

/-- Events of lot `l` added to the history. -/
def record (p : Program ς φ σ) (es : List (Event ς φ)) : Program ς φ σ :=
  { p with history := p.history ++ es }

/-- The events of a call of `submit` on lot `l`. -/
def events (l : Nat) (r : Except (Thrown ε) (CommandGroup ς φ))
    (calls : List (Closure ς × Option φ)) : List (Event ς φ) :=
  calls.map (fun c ↦ .called l c.1 c.2) ++
    match r with
    | .ok group => [.returned l group]
    | .error (.submission _) => [.threw l]
    | .error (.logicError e) => [.refused l e]

/-- One step. A vector that is moved to itself is not specified, so that `moveAssign` is for two
batches. -/
def step (out : Outside ς φ σ ε) (p : Program ς φ σ) : Act ς σ → Option (Program ς φ σ)
  | .construct stream => some { p.put p.nbatches (some (.new stream p.nlots)) with
      nbatches := p.nbatches + 1, nlots := p.nlots + 1 }
  | .append b command => (p.batches b).map fun (batch : CommandBatch ς) ↦
      match batch.append command with
      | .ok batch' => (p.put b (some batch')).record [.appended batch.lot ⟨batch.stream, command⟩]
      | .error e => p.record [.refused batch.lot e]
  | .freeze b => (p.batches b).map fun (batch : CommandBatch ς) ↦
      (p.put b (some batch.freeze)).record (if batch.frozen then [] else [.froze batch.lot])
  | .submit b => (p.batches b).map fun (batch : CommandBatch ς) ↦
      let (r, batch', world, calls) := batch.submit out p.world
      { (p.put b (some batch')).record (events batch.lot r calls) with world }
  | .moveConstruct src => (p.batches src).map fun (batch : CommandBatch ς) ↦
      let p := p.put src (some (batch.movedFrom p.nlots))
      { p.put p.nbatches (some batch) with nbatches := p.nbatches + 1, nlots := p.nlots + 1 }
  | .moveAssign dst src =>
    if dst = src ∨ p.batches dst = none then none
    else (p.batches src).map fun (batch : CommandBatch ς) ↦
      let p := p.put src (some (batch.movedFrom p.nlots))
      { p.put dst (some batch) with nlots := p.nlots + 1 }
  | .destroy b => (p.batches b).map fun _ ↦ p.put b none
  | .outside world => some { p with world }

end Program

end DmaAccel.Batch
