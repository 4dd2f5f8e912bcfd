import DmaAccel.Driver.System

/-!
# Removal of a device in use

Source `track-a/dma_accel_drv.c`: `dma_accel_remove` (2027–2043), `dma_accel_queue_fini`
(803–819); the cleanup of a failed `dma_accel_probe` (2019–2024) is the second half of it. The
files that are open when the device goes stay open: their calls and the handler go on as in
`Driver.step`, and only `open()` and new interrupts end. The memory map and the device
structure, which devres releases after `remove()`, are left as they are.
-/

namespace DmaAccel.Teardown

open DmaAccel.Base
open DmaAccel.Driver (Sys U32)

/-- How far the removal has come. Each stage but the first names the step that was last. -/
inductive Stage where
  | registered
  | deregistered
  | cqFreed | cqCleared
  | sqFreed | sqCleared
  | irqFreed | vectorsFreed
  deriving DecidableEq, Repr

/-- `dma_free_coherent` has taken `cq_buf`. -/
def Stage.cqGone : Stage → Bool
  | .registered | .deregistered => false
  | .cqFreed | .cqCleared | .sqFreed | .sqCleared | .irqFreed | .vectorsFreed => true

/-- `dma_free_coherent` has taken `sq_buf`. -/
def Stage.sqGone : Stage → Bool
  | .registered | .deregistered | .cqFreed | .cqCleared => false
  | .sqFreed | .sqCleared | .irqFreed | .vectorsFreed => true

/-- The handler is still requested: `free_irq` has not returned. -/
def Stage.irqRequested : Stage → Bool
  | .irqFreed | .vectorsFreed => false
  | _ => true

/-- The driver with its removal. `present` is false once the device was pulled out. -/
structure State where
  sys : Sys
  stage : Stage
  present : Bool

/-- The device is in use, and no removal has begun. -/
def init : State := ⟨Sys.init, .registered, true⟩

/-- One move of one party: the thread that removes the device, the plug, or a party of the
driver. -/
inductive Act where
  | remove
  | unplug
  | driver (a : Driver.Act)
  deriving DecidableEq, Repr

/-- What every register of a device that is not there reads as. -/
def allOnes : U32 := 0xFFFFFFFF

/-- The registers as the driver reads them without the device. -/
def unplugged (st : Sys) : Sys :=
  { st with
    regSqTail := allOnes
    regSqHead := allOnes
    regCqTail := allOnes
    regCqHead := allOnes
    regIrqStatus := allOnes }

/-- The driver after a step of one of its parties. -/
def State.withSys (s : State) (st : Sys) : State :=
  { s with sys := if s.present then st else unplugged st }

/-- The next step of `dma_accel_remove`. `misc_deregister` does not wait for open files;
`free_irq` waits for a handler that runs. -/
def removeStep (s : State) : Option State :=
  -- a registered device has `uapi_active` and both rings, so the guards of the source hold
  match s.stage with
  | .registered => some { s with stage := .deregistered }
  | .deregistered => some { s with stage := .cqFreed }
  | .cqFreed => some { s with stage := .cqCleared }
  | .cqCleared => some { s with stage := .sqFreed }
  | .sqFreed => some { s with stage := .sqCleared }
  | .sqCleared => if s.sys.isr.pc = .idle then some { s with stage := .irqFreed } else none
  | .irqFreed => some { s with stage := .vectorsFreed }
  | .vectorsFreed => none

/-- A party of the driver may still move. -/
def State.admits (s : State) : Driver.Act → Bool
  | .chrOpen => s.stage = .registered
  | .irq => s.stage.irqRequested
  | .fetch => s.present
  | .post _ _ => s.present
  | .postStep => s.present
  | _ => true

/-- The step function. -/
def step (s : State) : Act → Option State
  | .remove => removeStep s
  | .unplug => some { s with present := false, sys := unplugged s.sys }
  | .driver a => if s.admits a then (Driver.step s.sys a).map s.withSys else none

/-- The step reads `cq_buf` or writes `sq_buf` after `dma_accel_queue_fini` has freed it. -/
def touches (s : State) : Act → Bool
  | .driver .isrStep =>
    s.stage.cqGone && s.sys.isr.pc = .drain && s.sys.cqHead != s.sys.isr.deviceCqTail
  | .driver (.submitStep k) =>
    s.stage.sqGone && k < s.sys.nsubmits && (s.sys.submits k).pc = .enqStore
  | _ => false

/-- Script: a session opens, gets a buffer, and its SUBMIT runs for `n` steps, before `as`. -/
def workScript (n : Nat) (as : List Driver.Act) : List Act :=
  (.chrOpen :: Driver.allocScript 0 0 ++ Driver.submitScript 0 0 0 n ++ as).map .driver

/-- Script: the first `n` steps of the removal, before `as`. -/
def removeScript (n : Nat) (as : List Driver.Act) : List Act :=
  List.replicate n .remove ++ as.map .driver

end DmaAccel.Teardown
