import DmaAccel.Base.Run
import DmaAccel.Driver.Irq

/-!
# The system as a whole

Source `track-a/dma_accel_drv.c`: `dma_accel_chr_open` and `dma_accel_chr_release`
(1320–1401), and the entry points of `dma_accel_fops`. An action names the party that moves:
any thread of any session, the handler, the device, or the environment of a call (a fault in
user memory, a signal, the outcome of an allocation). Threads are calls: a thread is a
sequence of calls, and any interleaving of threads is an interleaving of their calls.
-/

namespace DmaAccel.Driver

open DmaAccel.Base

/-- One move of one party. -/
inductive Act where
  | chrOpen
  | chrRelease (s : Sid)
  | releaseStep (s : Sid)
  | submit (s : Sid) (req : SubmitReq)
  | submitStep (k : Nat)
  | submitFault (k : Nat)
  | submitSignal (k : Nat)
  | alloc (s : Sid) (size : U32)
  | allocStep (k : Nat) (mem : Option (Nat × Nat))
  | allocFault (k : Nat)
  | read (s : Sid) (bytes : Nat)
  | readStep (k : Nat)
  | readFault (k : Nat)
  | mmap (s : Sid) (bufferId reqSize : Nat)
  | poll (s : Sid)
  | irq
  | isrStep
  | fetch
  | post (j : Nat) (status : U32)
  | postStep
  deriving DecidableEq, Repr

/-- `dma_accel_chr_open`: a fresh session that counts towards the quota divisor. -/
def chrOpen (st : Sys) : Sys :=
  { st with
    nsess := st.nsess + 1
    phase := Function.update st.phase st.nsess .opened
    activeSessions := st.activeSessions + 1 }

/-- `dma_accel_chr_release` begins: the session leaves the quota divisor. -/
def chrRelease (st : Sys) (s : Sid) : Sys :=
  { st with
    phase := Function.update st.phase s .relWake
    activeSessions := st.activeSessions - 1 }

/-- The remaining steps of `dma_accel_chr_release`. -/
def releaseStep (st : Sys) (s : Sid) : Option Sys :=
  match st.phase s with
  | .relWake =>
    some { st with
      submits := fun k ↦ (st.submits k).wake
      phase := Function.update st.phase s .relPoll }
  | .relPoll =>
    if st.inflight s > 0 then some st
    else some { st with phase := Function.update st.phase s .relFree }
  | .relFree =>
    some { st with
      buffers := releaseSlots (setBits (st.ownedBuffers s)) st.buffers
      frees := st.frees ++ releaseFrees (setBits (st.ownedBuffers s)) st.buffers
      phase := Function.update st.phase s .relKfree }
  | .relKfree => some { st with phase := Function.update st.phase s .freed }
  | .closed => none
  | .opened => none
  | .freed => none

/-- The step function. Entry points need an open session; `release` needs, in addition, that
no call on the session is in progress. -/
def step (st : Sys) : Act → Option Sys
  | .chrOpen => some (chrOpen st)
  | .chrRelease s =>
    if st.phase s = .opened ∧ st.quiescent s then some (chrRelease st s) else none
  | .releaseStep s => releaseStep st s
  | .submit s req => if st.phase s = .opened then some (ioctlSubmit st s req) else none
  | .submitStep k => if k < st.nsubmits then submitStep st k else none
  | .submitFault k => if k < st.nsubmits then submitFault st k else none
  | .submitSignal k => if k < st.nsubmits then submitSignal st k else none
  | .alloc s size => if st.phase s = .opened then some (ioctlAlloc st s size) else none
  | .allocStep k mem => if k < st.nallocs then allocStep st k mem else none
  | .allocFault k => if k < st.nallocs then allocFault st k else none
  | .read s bytes => if st.phase s = .opened then some (chrRead st s bytes) else none
  | .readStep k => if k < st.nreads then readStep st k else none
  | .readFault k => if k < st.nreads then readFault st k else none
  | .mmap s _ _ => if st.phase s = .opened then some st else none
  | .poll s => if st.phase s = .opened then some st else none
  | .irq => irqEnter st
  | .isrStep => isrStep st
  | .fetch => devFetch st
  | .post j status => devPost st j status
  | .postStep => devPostStep st

/-- States reached by the runs all of whose steps meet `ok`. -/
abbrev ReachBy (ok : Sys → Act → Prop) (st : Sys) : Prop := Reach step ok Sys.init st

/-- States reached by any run. -/
abbrev Reachable (st : Sys) : Prop := ReachBy anyStep st

/-- A copy of 16 bytes inside one buffer. -/
def copyReq (buf : Nat) : SubmitReq :=
  { SubmitReq.zero with len := 16, srcBufferId := buf, dstBufferId := buf }

/-- Script: call `k` of BUFFER_ALLOC gives session `s` one page. -/
def allocScript (s k : Nat) : List Act :=
  [.alloc s 4096, .allocStep k none, .allocStep k (some (0, 4096 * (k + 1))), .allocStep k none]

/-- Script: call `k` of SUBMIT by session `s`, followed for `n` steps. A call that does not
block registers its entry in the fifth step and returns in the fourteenth. -/
def submitScript (s buf k n : Nat) : List Act :=
  .submit s (copyReq buf) :: List.replicate n (.submitStep k)

/-- Script: the device executes its next command, the `j`-th it fetches, and the handler
runs for `n` steps. A handler that finds one completion returns in the twelfth. -/
def completeScript (j n : Nat) : List Act :=
  [.fetch, .post j statusOk, .postStep, .postStep, .irq] ++ List.replicate n .isrStep

end DmaAccel.Driver
