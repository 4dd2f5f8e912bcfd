import DmaAccel.Delivery.NoLoss
import DmaAccel.Driver.Frames
import DmaAccel.Runtime.Machine

/-!
# A Stream on top of the driver

Source `track-a/dma_accel_runtime.cpp` (94–99, 142–329) on top of `track-a/dma_accel_drv.c`.
The Stream owns one session. Its thread is either in its own code or inside a call of the
driver, whose steps it takes itself; the other sessions, the handler and the device move at any
time. `batch` is the array that `read()` fills. A Stream lives as long as its session, and the
only other calls that carry its file are those of its buffers, so that steps of allocation and
mapping are nobody's in particular.
-/

namespace DmaAccel.Runtime

open DmaAccel.Base
open DmaAccel.Driver (Sys Sid SubmitReq Completion Ret chrOpen chrPoll completionBytes ofSess)

/-- One Stream, its session and the rest of the system. `call` is the number of the driver's
call in which the Stream is. -/
structure Host where
  sys : Sys
  sess : Sid
  mach : Machine
  call : Option Nat
  batch : List Completion

/-- The constructor of a Stream has opened a session. -/
def Host.opened (st : Sys) : Host where
  sys := chrOpen st
  sess := st.nsess
  mach := ⟨.empty, .opened st.nsess, .idle⟩
  call := none
  batch := []

/-- Steps that are not taken by the thread of the Stream on session `s`. -/
def foreign (st : Sys) (s : Sid) : Driver.Act → Bool
  | .chrRelease r | .submit r _ | .read r _ => r ≠ s
  | .submitStep k | .submitFault k | .submitSignal k => (st.submits k).sess ≠ s
  | .readStep k | .readFault k => (st.reads k).sess ≠ s
  | _ => true

/-- Steps of the driver's call `k` in which a Stream is. -/
def ownStep (pc : Pc) (k : Nat) (a : Driver.Act) : Bool :=
  match pc with
  | .ioctl _ => a = .submitStep k || a = .submitFault k || a = .submitSignal k
  | .read _ => a = .readStep k || a = .readFault k
  | _ => false

/-- What a step of the driver copies into `batch`. -/
def copied (st : Sys) : Driver.Act → List Completion
  | .readStep k => if (st.reads k).pc = .copy then [(st.reads k).out] else []
  | _ => []

/-- A completion is copied out of the hand of a read. -/
theorem mem_copied {st : Sys} {a : Driver.Act} {c : Completion} (h : c ∈ copied st a) :
    ∃ k, a = .readStep k ∧ (st.reads k).pc = .copy ∧ c = (st.reads k).out := by
  unfold copied at h
  split at h
  · next k =>
    split at h
    · next hpc => exact ⟨k, rfl, hpc, List.mem_singleton.mp h⟩
    · cases h
  · cases h

namespace Host

/-- The return value of the call, once it has returned. -/
def result (w : Host) : Option Ret :=
  match w.mach.pc, w.call with
  | .ioctl _, some k =>
    if (w.sys.submits k).pc.finished then some (w.sys.submits k).ret else none
  | .read _, some k => if (w.sys.reads k).pc = .returned then some (w.sys.reads k).ret else none
  | _, _ => none

/-- The driver answers the Stream as the label says. -/
def answers (w : Host) : Label → Bool
  | .pollReady => chrPoll w.sys w.sess
  | .readBatch batch =>
    match w.result with
    | some (.ok n) => n ≠ 0 && batch = w.batch.take (n / completionBytes)
    | _ => false
  | .readZero => w.result = some (.ok 0)
  | .readEagain => w.result = some (.err .EAGAIN)
  | .readError =>
    match w.result with
    | some (.err e) => e ≠ .EAGAIN
    | _ => false
  | .ioctlOk cmdId =>
    match w.call with
    | some k => w.result = some (.ok 0) && cmdId = (w.sys.submits k).cmdId
    | none => false
  | .ioctlError =>
    match w.result with
    | some r => r ≠ .ok 0
    | none => false
  | _ => true

/-- A step of the system: of somebody else, of the Stream as it enters the driver, inside the
driver and in its own code; or the kernel issues an interrupted call again. -/
inductive Act where
  | other (a : Driver.Act)
  | enter
  | kernel (a : Driver.Act)
  | code (l : Label)
  | restart
  deriving DecidableEq, Repr

/-- The step function. -/
def step (w : Host) : Act → Option Host
  | .other a =>
    if foreign w.sys w.sess a then (Driver.step w.sys a).map fun st ↦ { w with sys := st }
    else none
  | .enter =>
    match w.mach.pc, w.call with
    | .ioctl req, none =>
      (Driver.step w.sys (.submit w.sess req)).map fun st ↦
        { w with sys := st, call := some w.sys.nsubmits }
    | .read _, none =>
      (Driver.step w.sys (.read w.sess (batchSize * completionBytes))).map fun st ↦
        { w with sys := st, call := some w.sys.nreads, batch := [] }
    | _, _ => none
  | .kernel a =>
    match w.call with
    | some k =>
      if ownStep w.mach.pc k a then
        (Driver.step w.sys a).map fun st ↦
          { w with sys := st, batch := w.batch ++ copied w.sys a }
      else none
    | none => none
  | .code l =>
    if w.answers l then (w.mach.step l).map fun m ↦ { w with mach := m, call := none }
    else none
  | .restart =>
    if w.result = some (.err .ERESTARTSYS) then some { w with call := none } else none

/-- The copy of the request back to the Stream does not fault. -/
def CopiesOut (w : Host) (a : Act) : Prop :=
  ∀ k, a = .kernel (.submitFault k) → (w.sys.submits k).pc ≠ .copyOut

/-- States of a Stream that was opened in any state of the driver. -/
def Reachable (w : Host) : Prop :=
  ∃ st, Driver.Reachable st ∧ Reach step CopiesOut (opened st) w

/-- Completions that no read has taken from the session's ring. -/
def unread (w : Host) : List Completion := (w.sys.compRing w.sess).unread

/-- Completions that reads have taken from the session's ring. -/
def taken (w : Host) : List Completion := ofSess w.sys.taken w.sess

/-- The Stream is in the call `k` of SUBMIT. -/
def Submitting (w : Host) (k : Nat) : Prop := w.call = some k ∧ ∃ req, w.mach.pc = .ioctl req

/-- Outside the driver the Stream is in no call. -/
theorem not_submitting {w : Host} (h : w.call = none) (k : Nat) : ¬w.Submitting k := by
  rintro ⟨hk, -⟩
  rw [h] at hk
  cases hk

end Host

end DmaAccel.Runtime
