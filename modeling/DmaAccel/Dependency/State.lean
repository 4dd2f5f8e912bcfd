import DmaAccel.Base.Acyclic
import DmaAccel.Runtime.Request
import Mathlib.Logic.Function.Basic

/-!
# Deferred commands, groups and engines

Source `track-c/runtime/dma_accel_dependency.{cpp,hpp}` and
`track-c/runtime/dma_accel_command_group.{cpp,hpp}`. Shared states are numbered: a
`FenceState`, a `PendingCommandState`, a `CommandGroup` and a `DependencyEngine` are the
numbers of cells, and a `shared_ptr`, a moved-in `Fence` or a raw pointer is such a number. A
closure `submit_fn` is the request it hands to `Stream::do_submit`. Everything runs in one
thread, so that a call of `progress()` is the only one that other events, the completions that
`pump()` reads, can interrupt.
-/

namespace DmaAccel.Dependency

open DmaAccel.Base
open DmaAccel.Driver (U32 SubmitReq statusOk)

/-- Identity of a `FenceState`. -/
abbrev Fid := Nat

/-- Identity of a `PendingCommandState`. -/
abbrev Cid := Nat

/-- Identity of a `CommandGroup`. -/
abbrev Gid := Nat

/-- Identity of a `DependencyEngine`. -/
abbrev Eid := Nat

/-- `struct FenceState`, without the id of the command. -/
structure FenceState where
  ready : Bool
  status : U32
  deriving DecidableEq, Repr

/-- `FenceState` as `std::make_shared` builds it. -/
def FenceState.fresh : FenceState := ⟨false, 0⟩

/-- `struct PendingCommandState`. -/
structure PendingCommandState where
  submitFn : SubmitReq
  fenceDeps : List Fid
  groupDeps : List Gid
  pendingDeps : List Cid
  fence : Option Fid
  submitted : Bool
  blocked : Bool
  deriving DecidableEq, Repr

/-- `PendingCommandState` as `defer_submit` builds it. -/
def PendingCommandState.fresh (req : SubmitReq) : PendingCommandState :=
  ⟨req, [], [], [], none, false, false⟩

/-- Neither submitted nor blocked. -/
def PendingCommandState.undecided (c : PendingCommandState) : Bool := !(c.submitted || c.blocked)

/-- `class CommandGroup`. -/
structure CommandGroup where
  fences : List Fid
  isSealed : Bool
  deriving DecidableEq, Repr

/-- A `CommandGroup` after its constructor. -/
def CommandGroup.fresh : CommandGroup := ⟨[], false⟩

/-- The places that throw `std::logic_error`. -/
inductive LogicError where
  | fenceAfterSubmit | groupAfterSubmit | commandAfterSubmit | cycle | addAfterSeal
  | queryBeforeSeal
  deriving DecidableEq, Repr

/-- `what()` of the exception. -/
def LogicError.what : LogicError → String
  | .fenceAfterSubmit =>
    "PendingCommand::depends_on() called after this command was already " ++
      "submitted — dependencies only make sense before submission"
  | .groupAfterSubmit =>
    "PendingCommand::depends_on() called after this command was already submitted"
  | .commandAfterSubmit =>
    "PendingCommand::depends_on() called after this command was already submitted"
  | .cycle =>
    "depends_on() rejected: this edge would create a dependency cycle " ++
      "(target is already reachable from the given dependency, including " ++
      "the self-dependency case)"
  | .addAfterSeal =>
    "CommandGroup::add() called after seal() — a sealed group's " ++
      "membership is fixed; create a new group for further commands"
  | .queryBeforeSeal =>
    "CommandGroup::query()/wait() called before seal() — aggregate " ++
      "state is only meaningful once membership is fixed"

/-- A call of `progress()`: the registry entries still to visit, and the command whose
`submit_fn` is running. -/
structure Pass where
  rest : List Cid
  calling : Option Cid
  deriving DecidableEq, Repr

/-- All cells, the registries, and the call of `progress()` in progress. `returned` is history
only: the commands whose `submit_fn` has returned a fence, in order. -/
structure Rt where
  nfences : Nat
  fences : Fid → FenceState
  ncmds : Nat
  cmds : Cid → PendingCommandState
  ngroups : Nat
  groups : Gid → CommandGroup
  registry : Eid → List Cid
  pass : Option Pass
  returned : List Cid

/-- Nothing has been built yet. -/
def Rt.init : Rt where
  nfences := 0
  fences := fun _ ↦ .fresh
  ncmds := 0
  cmds := fun _ ↦ .fresh .zero
  ngroups := 0
  groups := fun _ ↦ .fresh
  registry := fun _ ↦ []
  pass := none
  returned := []

/-- `any_pending` and `any_failed` after a scan; the first dependency that is not satisfied
sets one of them and ends it. -/
inductive Verdict where
  | clear | pending | failed
  deriving DecidableEq, Repr

/-- The test of one fence in `progress()`. -/
def FenceState.verdict (f : FenceState) : Verdict :=
  if !f.ready then .pending
  else if f.status ≠ statusOk then .failed
  else .clear

/-- Scan in order and stop at the first verdict that is not `clear`. -/
def scan {α : Type} (v : α → Verdict) : List α → Verdict
  | [] => .clear
  | x :: l =>
    match v x with
    | .clear => scan v l
    | .pending => .pending
    | .failed => .failed

/-- The test of one `PendingCommand` dependency in `progress()`. -/
def Rt.depVerdict (st : Rt) (d : Cid) : Verdict :=
  if (st.cmds d).blocked then .failed
  else if !(st.cmds d).submitted then .pending
  else
    match (st.cmds d).fence with
    | some f => (st.fences f).verdict
    | none => .pending -- not reached: `fence` is set with `submitted`

/-- The three scans of `progress()` over the dependencies of a command. -/
def Rt.verdict (st : Rt) (c : Cid) : Verdict :=
  match scan (fun f ↦ (st.fences f).verdict) (st.cmds c).fenceDeps with
  | .clear =>
    match scan (fun g ↦ scan (fun f ↦ (st.fences f).verdict) (st.groups g).fences)
        (st.cmds c).groupDeps with
    | .clear => scan st.depVerdict (st.cmds c).pendingDeps
    | .pending => .pending
    | .failed => .failed
  | .pending => .pending
  | .failed => .failed

/-- Aggregate status of a group. -/
inductive GroupStatus where
  | pending | allOk | someFailed
  deriving DecidableEq, Repr

/-- `CommandGroup::query`, after its `pump()`. Unlike `progress()` it insists on a sealed
group, and it looks at every fence. -/
def Rt.query (st : Rt) (g : Gid) : Except LogicError GroupStatus :=
  if !(st.groups g).isSealed then .error .queryBeforeSeal
  else if (st.groups g).fences.any fun f ↦ !(st.fences f).ready then .ok .pending
  else if (st.groups g).fences.any fun f ↦ (st.fences f).status ≠ statusOk then .ok .someFailed
  else .ok .allOk

/-- `reachable`: the recursion over `pending_deps`, cut off below `n` commands of depth. -/
def Rt.reachable (st : Rt) (target : Cid) (n : Nat) (source : Cid) : Option Bool :=
  search (fun c ↦ (st.cmds c).pendingDeps) target n source

end DmaAccel.Dependency
