import DmaAccel.Dependency.State
import DmaAccel.Runtime.Machine

/-!
# Waiting against a clock

Source `track-a/dma_accel_runtime.cpp`: `Stream::pump` and `Stream::wait` (231–276, 290–329;
the copy in `track-c/runtime` is the same text); `track-c/runtime/dma_accel_command_group.cpp`
(89–138) and `track-c/runtime/dma_accel_stream_observer.cpp` (8–30). The thread asks the kernel
for the time, for `poll()` and for `read()`; an `Env` says, for each such question in turn, how
much time passes, which completions reach the ring of the session meanwhile, and whether the
call fails. `steady_clock` counts nanoseconds and stays clear of the ends of its 64 bits. Loops
take fuel, and `running` is a call that has used it up.
-/

namespace DmaAccel.Timed

open DmaAccel.Driver (Completion statusOk)
open DmaAccel.Runtime (Machine Fid)
open DmaAccel.Dependency (CommandGroup GroupStatus LogicError)

/-- How a system call goes: it is answered, or it fails with `EINTR` or otherwise. -/
inductive Fault where
  | none | interrupted | failed
  deriving DecidableEq, Repr

/-- What happens while the thread waits for one answer. -/
structure Event where
  delay : Nat
  arrived : List Completion
  fault : Fault
  deriving DecidableEq, Repr

/-- The answers, in the order of the questions. -/
abbrev Env := Nat → Event

/-- A Stream with its fences, the unread completions in the ring of its session, the time and
the number of questions asked so far. -/
structure World where
  mach : Machine
  ring : List Completion
  time : Int
  asked : Nat

/-- Nanoseconds in a millisecond. -/
abbrev nsPerMs : Int := 1000000

/-- `static_cast<int>` of a 64-bit count. -/
def castInt (n : Int) : Int := n.bmod (2 ^ 32)

namespace World

/-- `is_ready()`. -/
def ready (w : World) (f : Fid) : Bool := w.mach.ready f

/-- The next event happens. -/
def pass (w : World) (e : Event) : World :=
  { w with ring := w.ring ++ e.arrived, time := w.time + e.delay, asked := w.asked + 1 }

/-- `clock::now()`, as the time of the new state. -/
def now (env : Env) (w : World) : World := w.pass (env w.asked)

end World

/-- Answer of `poll()`; with no timeout it may also never come back. -/
inductive Poll where
  | ready | timedOut | eintr | error | blocks
  deriving DecidableEq, Repr

/-- `poll(&pfd, 1, timeout)` for input: ready when the ring has an entry, even with a timeout
of zero; timed out not before the timeout is over. -/
def World.poll (env : Env) (timeout : Int) (w : World) : Poll × World :=
  match (env w.asked).fault with
  | .interrupted => (.eintr, w.pass (env w.asked))
  | .failed => (.error, w.pass (env w.asked))
  | .none =>
    if w.ring ++ (env w.asked).arrived ≠ [] then (.ready, w.pass (env w.asked))
    else if timeout < 0 then (.blocks, w)
    else (.timedOut,
      { w.pass (env w.asked) with
        time := w.time + max ((env w.asked).delay : Int) (timeout * nsPerMs) })

/-- `pump()`: reads the ring until it is empty, or throws. -/
def World.pump (env : Env) (w : World) : Option World :=
  match (env w.asked).fault with
  | .none => some
      { w.pass (env w.asked) with
        mach := (w.ring ++ (env w.asked).arrived).foldl Machine.deliver w.mach
        ring := [] }
  | _ => none

/-- The `poll_timeout` of one turn against a deadline: `none` when the deadline has passed.
`duration_cast` drops what is left of a millisecond. -/
def World.pollTimeout (env : Env) (deadline : Option Int) (w : World) : Option Int × World :=
  match deadline with
  | none => (some (-1), w)
  | some d =>
    let w := w.now env
    if d - w.time ≤ 0 then (none, w) else (some (castInt ((d - w.time).tdiv nsPerMs)), w)

/-- How a call of `Stream::wait` ends. -/
inductive WaitEnd where
  | returned (done : Bool)
  | threw
  | blocked
  | running
  deriving DecidableEq, Repr

/-- A call of `Stream::wait`: its end, the state then, and the timeouts given to `poll()`. -/
structure Waited where
  result : WaitEnd
  world : World
  polls : List Int

/-- The loop of `Stream::wait`. -/
def Stream.waitLoop (env : Env) (f : Fid) (deadline : Option Int) : Nat → World → List Int → Waited
  | 0, w, polls => ⟨.running, w, polls⟩
  | fuel + 1, w, polls =>
    if w.ready f then ⟨.returned true, w, polls⟩
    else
      match w.pollTimeout env deadline with
      | (none, w) => ⟨.returned false, w, polls⟩
      | (some timeout, w) =>
        let polls := polls ++ [timeout]
        match w.poll env timeout with
        | (.eintr, w) => waitLoop env f deadline fuel w polls
        | (.error, w) => ⟨.threw, w, polls⟩
        | (.blocks, w) => ⟨.blocked, w, polls⟩
        | (.timedOut, w) => ⟨.returned false, w, polls⟩
        | (.ready, w) =>
          match w.pump env with
          | none => ⟨.threw, w, polls⟩
          | some w => waitLoop env f deadline fuel w polls

/-- `deadline` of `wait(timeout_ms)` computed at the time of `w`; none for a negative one. -/
def World.deadline (w : World) (timeoutMs : Int) : Option Int :=
  if 0 ≤ timeoutMs then some (w.time + timeoutMs * nsPerMs) else none

/-- `Stream::wait(fence, timeout_ms)`. -/
def Stream.wait (env : Env) (fuel : Nat) (w : World) (f : Fid) (timeoutMs : Int) : Waited :=
  if w.ready f then ⟨.returned true, w, []⟩
  else Stream.waitLoop env f ((w.now env).deadline timeoutMs) fuel (w.now env) []

/-- `StreamObserver::wait(fence, timeout)` with the `count()` of the duration. `Completed` is
`returned true` and `Pending` is `returned false`. -/
def StreamObserver.wait (env : Env) (fuel : Nat) (w : World) (f : Fid) (count : Int) : Waited :=
  Stream.wait env fuel w f (castInt count)

/-- The scan of `CommandGroup::wait`: the first fence that is not ready, and whether one before
it has failed. -/
def World.scan (w : World) : List Fid → Bool → Option Fid × Bool
  | [], anyFailed => (none, anyFailed)
  | f :: fs, anyFailed =>
    if !w.ready f then (some f, anyFailed)
    else w.scan fs (anyFailed || (w.mach.heap.fences f).status ≠ statusOk)

/-- How a call of `CommandGroup::wait` ends. -/
inductive GroupEnd where
  | status (s : GroupStatus)
  | logicError (e : LogicError)
  | threw
  | blocked
  | running
  deriving DecidableEq, Repr

/-- The loop of `CommandGroup::wait`; every call of `Stream::wait` gets the fuel `inner`. -/
def CommandGroup.waitLoop (env : Env) (inner : Nat) (fences : List Fid) (deadline : Option Int) :
    Nat → World → GroupEnd × World
  | 0, w => (.running, w)
  | fuel + 1, w =>
    match w.scan fences false with
    | (none, anyFailed) => (.status (if anyFailed then .someFailed else .allOk), w)
    | (some f, _) =>
      match w.pollTimeout env deadline with
      | (none, w) => (.status .pending, w)
      | (some slice, w) =>
        let r := Stream.wait env inner w f slice
        match r.result with
        | .returned true => waitLoop env inner fences deadline fuel r.world
        | .returned false => (.status .pending, r.world)
        | .threw => (.threw, r.world)
        | .blocked => (.blocked, r.world)
        | .running => (.running, r.world)

/-- `CommandGroup::wait(timeout_ms)`. -/
def CommandGroup.wait (env : Env) (fuel inner : Nat) (w : World) (g : CommandGroup)
    (timeoutMs : Int) : GroupEnd × World :=
  if !g.isSealed then (.logicError .queryBeforeSeal, w)
  else CommandGroup.waitLoop env inner g.fences ((w.now env).deadline timeoutMs) fuel (w.now env)

end DmaAccel.Timed
