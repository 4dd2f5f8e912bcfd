import DmaAccel.Base.Run
import DmaAccel.Dependency.State

/-!
# The dependency engine step by step

Source `track-c/runtime/dma_accel_dependency.cpp` (44–202) and
`track-c/runtime/dma_accel_command_group.cpp` (44–57). A caller's operations run between two
calls of `progress()`; a completion can arrive at any time, in particular while `progress()`
is inside `Stream::submit`, whose throttle pumps. One step of `progress()` visits one entry of
the registry, another one returns from `submit_fn`, with a fence or with an exception.
`Trans` lists every effect once; the invariants are proved by cases on it.
-/

namespace DmaAccel.Dependency

open DmaAccel.Base
open DmaAccel.Driver (U32 SubmitReq statusOk)
open DmaAccel.Runtime

/-- Update one command. -/
def Rt.setCmd (st : Rt) (c : Cid) (x : PendingCommandState) : Rt :=
  { st with cmds := Function.update st.cmds c x }

/-- Register a deferred command: the part the three `defer_submit` functions share. -/
def deferRegister (st : Rt) (e : Eid) (req : SubmitReq) : Rt :=
  { st with
    ncmds := st.ncmds + 1
    cmds := Function.update st.cmds st.ncmds (.fresh req)
    registry := Function.update st.registry e (st.registry e ++ [st.ncmds]) }

/-- `DependencyEngine::defer_submit`. -/
def deferSubmit (st : Rt) (e : Eid) (opcode src srcOffset dst dstOffset len : U32) : Rt :=
  deferRegister st e (submitReq opcode src srcOffset dst dstOffset len)

/-- `DependencyEngine::defer_submit_scale_add`. -/
def deferSubmitScaleAdd (st : Rt) (e : Eid)
    (a aOffset b bOffset dst dstOffset len scalar : U32) : Rt :=
  deferRegister st e (submitScaleAddReq a aOffset b bOffset dst dstOffset len scalar)

/-- `DependencyEngine::defer_submit_tile_matmul`. -/
def deferSubmitTileMatmul (st : Rt) (e : Eid) (a aOffset b bOffset c cOffset : U32) : Rt :=
  deferRegister st e (submitTileMatmulReq a aOffset b bOffset c cOffset)

/-- `PendingCommand::depends_on(Fence&&)`. -/
def dependsOnFence (st : Rt) (c : Cid) (f : Fid) : Except LogicError Rt :=
  if (st.cmds c).submitted then .error .fenceAfterSubmit
  else .ok (st.setCmd c { st.cmds c with fenceDeps := (st.cmds c).fenceDeps ++ [f] })

/-- `PendingCommand::depends_on(const CommandGroup&)`. -/
def dependsOnGroup (st : Rt) (c : Cid) (g : Gid) : Except LogicError Rt :=
  if (st.cmds c).submitted then .error .groupAfterSubmit
  else .ok (st.setCmd c { st.cmds c with groupDeps := (st.cmds c).groupDeps ++ [g] })

/-- `PendingCommand::depends_on(const PendingCommand&)`. `none` where the recursion of
`reachable` goes deeper than there are commands, that is, where it runs in a circle. -/
def dependsOnCommand (st : Rt) (c d : Cid) : Option (Except LogicError Rt) :=
  if (st.cmds c).submitted then some (.error .commandAfterSubmit)
  else
    match st.reachable c st.ncmds d with
    | none => none
    | some true => some (.error .cycle)
    | some false =>
      some (.ok (st.setCmd c { st.cmds c with pendingDeps := (st.cmds c).pendingDeps ++ [d] }))

/-- `CommandGroup::add`. -/
def groupAdd (st : Rt) (g : Gid) (f : Fid) : Except LogicError Rt :=
  if (st.groups g).isSealed then .error .addAfterSeal
  else .ok { st with
    groups := Function.update st.groups g
      { st.groups g with fences := (st.groups g).fences ++ [f] } }

/-- `CommandGroup::seal`. -/
def groupSeal (st : Rt) (g : Gid) : Rt :=
  { st with groups := Function.update st.groups g { st.groups g with isSealed := true } }

/-- A command is submitted on a Stream without an engine; its fence is not ready. -/
def newFence (st : Rt) : Rt :=
  { st with
    nfences := st.nfences + 1
    fences := Function.update st.fences st.nfences .fresh }

/-- `Stream::pump` reads the completion of a command: its fence becomes ready, once. -/
def complete (st : Rt) (f : Fid) (status : U32) : Option Rt :=
  if f < st.nfences ∧ (st.fences f).ready = false then
    some { st with fences := Function.update st.fences f ⟨true, status⟩ }
  else none

/-- `progress()` comes to the next entry of the registry, or to its end. -/
def visit (st : Rt) : Option Rt :=
  match st.pass with
  | some ⟨[], none⟩ => some { st with pass := none }
  | some ⟨c :: rest, none⟩ =>
    if (st.cmds c).submitted || (st.cmds c).blocked then
      some { st with pass := some ⟨rest, none⟩ }
    else
      match st.verdict c with
      | .failed =>
        some { st with
          cmds := Function.update st.cmds c { st.cmds c with blocked := true }
          pass := some ⟨rest, none⟩ }
      | .pending => some { st with pass := some ⟨rest, none⟩ }
      | .clear => some { st with pass := some ⟨rest, some c⟩ }
  | _ => none

/-- `submit_fn` returns the fence of the command it submitted. -/
def submitReturn (st : Rt) : Option Rt :=
  match st.pass with
  | some ⟨rest, some c⟩ =>
    some { st with
      nfences := st.nfences + 1
      fences := Function.update st.fences st.nfences .fresh
      cmds := Function.update st.cmds c
        { st.cmds c with fence := some st.nfences, submitted := true }
      pass := some ⟨rest, none⟩
      returned := st.returned ++ [c] }
  | _ => none

/-- `submit_fn` throws: the exception leaves `progress()`. -/
def submitThrow (st : Rt) : Option Rt :=
  match st.pass with
  | some ⟨_, some _⟩ => some { st with pass := none }
  | _ => none

/-- One operation of the caller, one step of `progress()`, or one completion. -/
inductive Act where
  | newFence
  | complete (f : Fid) (status : U32)
  | newGroup
  | groupAdd (g : Gid) (f : Fid)
  | groupSeal (g : Gid)
  | deferSubmit (e : Eid) (req : SubmitReq)
  | dependsOnFence (c : Cid) (f : Fid)
  | dependsOnGroup (c : Cid) (g : Gid)
  | dependsOnCommand (c d : Cid)
  | progress (e : Eid)
  | visit
  | submitReturn
  | submitThrow
  deriving DecidableEq, Repr

/-- Completions and steps of `progress()`; the caller's other operations build the graph. -/
def Act.internal : Act → Bool
  | .complete _ _ | .progress _ | .visit | .submitReturn | .submitThrow => true
  | _ => false

/-- The caller catches an exception and goes on in the state it finds. -/
def Rt.catch (st : Rt) : Except LogicError Rt → Rt
  | .ok st' => st'
  | .error _ => st

/-- The step function. The caller's operations need that `progress()` is not running, and
handles of what exists. -/
def step (st : Rt) : Act → Option Rt
  | .newFence => if st.pass = none then some (newFence st) else none
  | .complete f status => complete st f status
  | .newGroup =>
    if st.pass = none then
      some { st with
        ngroups := st.ngroups + 1
        groups := Function.update st.groups st.ngroups .fresh }
    else none
  | .groupAdd g f =>
    if st.pass = none ∧ g < st.ngroups ∧ f < st.nfences then some (st.catch (groupAdd st g f))
    else none
  | .groupSeal g => if st.pass = none ∧ g < st.ngroups then some (groupSeal st g) else none
  | .deferSubmit e req => if st.pass = none then some (deferRegister st e req) else none
  | .dependsOnFence c f =>
    if st.pass = none ∧ c < st.ncmds ∧ f < st.nfences then
      some (st.catch (dependsOnFence st c f))
    else none
  | .dependsOnGroup c g =>
    if st.pass = none ∧ c < st.ncmds ∧ g < st.ngroups then
      some (st.catch (dependsOnGroup st c g))
    else none
  | .dependsOnCommand c d =>
    if st.pass = none ∧ c < st.ncmds ∧ d < st.ncmds then
      (dependsOnCommand st c d).map st.catch
    else none
  | .progress e =>
    if st.pass = none then some { st with pass := some ⟨st.registry e, none⟩ } else none
  | .visit => visit st
  | .submitReturn => submitReturn st
  | .submitThrow => submitThrow st

/-- States reached by any run. -/
abbrev Reachable (st : Rt) : Prop := Reach step anyStep Rt.init st

/-- Every effect of a step, with its guards. -/
inductive Trans (st : Rt) : Act → Rt → Prop where
  | stutter (a : Act) : Trans st a st
  | newFence : st.pass = none → Trans st .newFence (newFence st)
  | complete (f : Fid) (status : U32) : f < st.nfences → (st.fences f).ready = false →
      Trans st (.complete f status)
        { st with fences := Function.update st.fences f ⟨true, status⟩ }
  | newGroup : st.pass = none →
      Trans st .newGroup
        { st with
          ngroups := st.ngroups + 1
          groups := Function.update st.groups st.ngroups .fresh }
  | groupAdd (g : Gid) (f : Fid) : st.pass = none → g < st.ngroups → f < st.nfences →
      (st.groups g).isSealed = false →
      Trans st (.groupAdd g f)
        { st with
          groups := Function.update st.groups g
            { st.groups g with fences := (st.groups g).fences ++ [f] } }
  | groupSeal (g : Gid) : st.pass = none → g < st.ngroups →
      Trans st (.groupSeal g) (groupSeal st g)
  | deferSubmit (e : Eid) (req : SubmitReq) : st.pass = none →
      Trans st (.deferSubmit e req) (deferRegister st e req)
  | dependsOnFence (c : Cid) (f : Fid) : st.pass = none → c < st.ncmds → f < st.nfences →
      (st.cmds c).submitted = false →
      Trans st (.dependsOnFence c f)
        (st.setCmd c { st.cmds c with fenceDeps := (st.cmds c).fenceDeps ++ [f] })
  | dependsOnGroup (c : Cid) (g : Gid) : st.pass = none → c < st.ncmds → g < st.ngroups →
      (st.cmds c).submitted = false →
      Trans st (.dependsOnGroup c g)
        (st.setCmd c { st.cmds c with groupDeps := (st.cmds c).groupDeps ++ [g] })
  | dependsOnCommand (c d : Cid) : st.pass = none → c < st.ncmds → d < st.ncmds →
      (st.cmds c).submitted = false → st.reachable c st.ncmds d = some false →
      Trans st (.dependsOnCommand c d)
        (st.setCmd c { st.cmds c with pendingDeps := (st.cmds c).pendingDeps ++ [d] })
  | progress (e : Eid) : st.pass = none →
      Trans st (.progress e) { st with pass := some ⟨st.registry e, none⟩ }
  | finish : st.pass = some ⟨[], none⟩ → Trans st .visit { st with pass := none }
  | skip (c : Cid) (rest : List Cid) : st.pass = some ⟨c :: rest, none⟩ →
      (st.cmds c).undecided = false →
      Trans st .visit { st with pass := some ⟨rest, none⟩ }
  | block (c : Cid) (rest : List Cid) : st.pass = some ⟨c :: rest, none⟩ →
      (st.cmds c).undecided = true → st.verdict c = .failed →
      Trans st .visit
        { st with
          cmds := Function.update st.cmds c { st.cmds c with blocked := true }
          pass := some ⟨rest, none⟩ }
  | wait (c : Cid) (rest : List Cid) : st.pass = some ⟨c :: rest, none⟩ →
      (st.cmds c).undecided = true → st.verdict c = .pending →
      Trans st .visit { st with pass := some ⟨rest, none⟩ }
  | call (c : Cid) (rest : List Cid) : st.pass = some ⟨c :: rest, none⟩ →
      (st.cmds c).undecided = true → st.verdict c = .clear →
      Trans st .visit { st with pass := some ⟨rest, some c⟩ }
  | submitReturn (c : Cid) (rest : List Cid) : st.pass = some ⟨rest, some c⟩ →
      Trans st .submitReturn
        { st with
          nfences := st.nfences + 1
          fences := Function.update st.fences st.nfences .fresh
          cmds := Function.update st.cmds c
            { st.cmds c with fence := some st.nfences, submitted := true }
          pass := some ⟨rest, none⟩
          returned := st.returned ++ [c] }
  | submitThrow (c : Cid) (rest : List Cid) : st.pass = some ⟨rest, some c⟩ →
      Trans st .submitThrow { st with pass := none }

variable {st st' : Rt} {a : Act}

private theorem trans_visit (h : visit st = some st') : Trans st .visit st' := by
  simp only [visit] at h
  split at h
  · next hp =>
    cases h
    exact .finish hp
  · next c rest hp =>
    split at h
    · next hd =>
      cases h
      exact .skip c rest hp (by simp [PendingCommandState.undecided, hd])
    · next hd =>
      have hu : (st.cmds c).undecided = true := by simp [PendingCommandState.undecided, hd]
      split at h
      · next hv =>
        cases h
        exact .block c rest hp hu hv
      · next hv =>
        cases h
        exact .wait c rest hp hu hv
      · next hv =>
        cases h
        exact .call c rest hp hu hv
  · cases h

/-- The step function does nothing that `Trans` does not list. -/
theorem trans_of_step (h : step st a = some st') : Trans st a st' := by
  cases a with
  | visit => exact trans_visit h
  | complete f status =>
    simp only [step, complete, Option.ite_none_right_eq_some, Option.some.injEq] at h
    obtain ⟨⟨hf, hr⟩, rfl⟩ := h
    exact .complete f status hf hr
  | submitReturn =>
    simp only [step, submitReturn] at h
    split at h
    · next rest c hp =>
      cases h
      exact .submitReturn c rest hp
    · cases h
  | submitThrow =>
    simp only [step, submitThrow] at h
    split at h
    · next rest c hp =>
      cases h
      exact .submitThrow c rest hp
    · cases h
  | newFence =>
    simp only [step, Option.ite_none_right_eq_some, Option.some.injEq] at h
    obtain ⟨hp, rfl⟩ := h
    exact .newFence hp
  | newGroup =>
    simp only [step, Option.ite_none_right_eq_some, Option.some.injEq] at h
    obtain ⟨hp, rfl⟩ := h
    exact .newGroup hp
  | groupSeal g =>
    simp only [step, Option.ite_none_right_eq_some, Option.some.injEq] at h
    obtain ⟨⟨hp, hg⟩, rfl⟩ := h
    exact .groupSeal g hp hg
  | deferSubmit e req =>
    simp only [step, Option.ite_none_right_eq_some, Option.some.injEq] at h
    obtain ⟨hp, rfl⟩ := h
    exact .deferSubmit e req hp
  | progress e =>
    simp only [step, Option.ite_none_right_eq_some, Option.some.injEq] at h
    obtain ⟨hp, rfl⟩ := h
    exact .progress e hp
  | groupAdd g f =>
    simp only [step, Option.ite_none_right_eq_some, Option.some.injEq] at h
    obtain ⟨⟨hp, hg, hf⟩, rfl⟩ := h
    unfold groupAdd
    split
    · exact .stutter _
    · next hs => exact .groupAdd g f hp hg hf (Bool.not_eq_true _ ▸ hs)
  | dependsOnFence c f =>
    simp only [step, Option.ite_none_right_eq_some, Option.some.injEq] at h
    obtain ⟨⟨hp, hc, hf⟩, rfl⟩ := h
    unfold dependsOnFence
    split
    · exact .stutter _
    · next hs => exact .dependsOnFence c f hp hc hf (Bool.not_eq_true _ ▸ hs)
  | dependsOnGroup c g =>
    simp only [step, Option.ite_none_right_eq_some, Option.some.injEq] at h
    obtain ⟨⟨hp, hc, hg⟩, rfl⟩ := h
    unfold dependsOnGroup
    split
    · exact .stutter _
    · next hs => exact .dependsOnGroup c g hp hc hg (Bool.not_eq_true _ ▸ hs)
  | dependsOnCommand c d =>
    simp only [step, Option.ite_none_right_eq_some] at h
    obtain ⟨⟨hp, hc, hd⟩, h⟩ := h
    obtain ⟨r, hr, rfl⟩ := Option.map_eq_some_iff.mp h
    unfold dependsOnCommand at hr
    split at hr
    · cases hr
      exact .stutter _
    · next hs =>
      split at hr
      · cases hr
      · cases hr
        exact .stutter _
      · next hn =>
        cases hr
        exact .dependsOnCommand c d hp hc hd (Bool.not_eq_true _ ▸ hs) hn

/-- What holds at the start and survives every effect of an admitted step holds in every state
the restricted runs reach. -/
theorem invariant_of_trans {ok : Rt → Act → Prop} {st0 : Rt} {I : Rt → Prop} (h0 : I st0)
    (hstep : ∀ st a st', Reach step ok st0 st → I st → ok st a → Trans st a st' → I st')
    (h : Reach step ok st0 st) : I st :=
  h.invariant h0 fun st a st' hr hi hok hs ↦ hstep st a st' hr hi hok (trans_of_step hs)

end DmaAccel.Dependency
