import DmaAccel.Routing.Custody
import DmaAccel.Submission.Validation

/-!
# SUBMIT is all or nothing

Source `track-a/dma_accel_drv.c`: `dma_accel_ioc_submit` (1536–1708) and
`dma_accel_queue_submit_ext` (822–849). Along a run every step of one call is classified by what
it changes outside the locals of the call: nothing but `next_cmd_id`, or one effect. A call that
returns before its registration has had none, a call that returns after it has had each of them
once and in the order of the source, whatever it slept through in between.
-/

namespace DmaAccel.Driver

open DmaAccel.Base

/-- What SUBMIT does to the state that others see. -/
inductive SubmitEffect where
  | entry (s : Sid) (cmdId : Nat)
  | inflight (s : Sid)
  | total
  | descriptor (idx : Fin queueDepth) (d : Cmd)
  | tail
  | doorbell
  deriving DecidableEq, Repr

/-- The step of call `k` has this effect and no other. -/
def SubmitEffect.Does (k : Nat) (st st' : Sys) : SubmitEffect → Prop
  | .entry s cmdId => ∃ j, (st.cmdTable j).valid = false ∧
      st' = { st with
        cmdTable := Function.update st.cmdTable j ⟨true, cmdId, s⟩
        admitted := st'.admitted
        submits := Function.update st.submits k (st'.submits k) }
  | .inflight s =>
      st' = { st with
        inflight := Function.update st.inflight s (st.inflight s + 1)
        submits := Function.update st.submits k (st'.submits k) }
  | .total =>
      st' = { st with
        totalInflight := st.totalInflight + 1
        submits := Function.update st.submits k (st'.submits k) }
  | .descriptor idx d =>
      st' = { st with
        sqBuf := Function.update st.sqBuf idx d
        submits := Function.update st.submits k (st'.submits k) }
  | .tail =>
      st' = { st with
        sqTail := (st.submits k).tail + 1
        submits := Function.update st.submits k (st'.submits k) }
  | .doorbell =>
      st' = { st with
        regSqTail := (st.submits k).tail
        submits := Function.update st.submits k (st'.submits k) }

/-- The step of call `k` changes nothing but `next_cmd_id`. -/
def QuietStep (k : Nat) (st st' : Sys) : Prop :=
  st' = { st with
    nextCmdId := st'.nextCmdId
    submits := Function.update st.submits k (st'.submits k) }

/-- The effects of the steps of call `k` in a run, in order. -/
inductive Effects (k : Nat) : List (Sys × Act × Sys) → List SubmitEffect → Prop where
  | nil : Effects k [] []
  | other {ts : List (Sys × Act × Sys)} {es : List SubmitEffect} {st st' : Sys} {a : Act} :
      Effects k ts es → ¬a.ofSubmit k → Effects k (ts ++ [(st, a, st')]) es
  | quiet {ts : List (Sys × Act × Sys)} {es : List SubmitEffect} {st st' : Sys} {a : Act} :
      Effects k ts es → a.ofSubmit k → QuietStep k st st' →
      Effects k (ts ++ [(st, a, st')]) es
  | effect {ts : List (Sys × Act × Sys)} {es : List SubmitEffect} {st st' : Sys} {a : Act}
      (e : SubmitEffect) : Effects k ts es → a.ofSubmit k → e.Does k st st' →
      Effects k (ts ++ [(st, a, st')]) (es ++ [e])

/-- All effects of a call, in the order of the source. -/
def Submit.effects (c : Submit) : List SubmitEffect :=
  [.entry c.sess c.cmdId, .inflight c.sess, .total, .descriptor c.idx c.desc, .tail, .doorbell]

/-- How many of them a call has had at each point. -/
def SubmitPc.progress : SubmitPc → Nat
  | .incInflight => 1
  | .incTotal => 2
  | .enqIdx | .enqStore => 3
  | .enqReadTail | .enqWriteTail => 4
  | .enqLoadTail | .enqDoorbell => 5
  | .copyOut | .returned => 6
  | _ => 0

/-- The effects a call has had so far. -/
def Submit.done (c : Submit) : List SubmitEffect := c.effects.take c.pc.progress

variable {st st' : Sys} {a : Act} {k : Nat} {c c' : Submit}

/-- Steps within one call have no effect. -/
private theorem SubmitLocal.done_eq (h : SubmitLocal st c c') : c'.done = c.done := by
  cases h <;> simp_all [Submit.done, SubmitPc.progress, Submit.effects, Submit.desc]

private theorem Submit.done_wake (c : Submit) : c.wake.done = c.done := by
  unfold Submit.wake
  split
  · next hp => simp [Submit.done, SubmitPc.progress, hp]
  · rfl

/-- A step of the call extends the list by the effect it has. -/
theorem done_step (h : SubmitMove st k st') :
    (QuietStep k st st' ∧ (st'.submits k).done = (st.submits k).done) ∨
      ∃ e : SubmitEffect, e.Does k st st' ∧
        (st'.submits k).done = (st.submits k).done ++ [e] := by
  cases h with
  | quiet c hl =>
    left
    simp only [QuietStep, Sys.setSubmit, Function.update_self, true_and]
    exact hl.done_eq
  | newId hp =>
    left
    simp [QuietStep, Submit.done, SubmitPc.progress, hp]
  | register j hp ht hi hj =>
    right
    refine ⟨.entry (st.submits k).sess (st.submits k).cmdId, ?_, ?_⟩
    · refine ⟨j, freeCmdSlot_spec hj, ?_⟩
      simp
    · simp [Submit.done, SubmitPc.progress, Submit.effects, hp]
  | incInflight hp =>
    right
    refine ⟨.inflight (st.submits k).sess, ?_, ?_⟩
    · simp [SubmitEffect.Does]
    · simp [Submit.done, SubmitPc.progress, Submit.effects, hp]
  | incTotal hp =>
    right
    refine ⟨.total, ?_, ?_⟩
    · simp [SubmitEffect.Does]
    · simp [Submit.done, SubmitPc.progress, Submit.effects, hp]
  | enqIdx hp =>
    left
    simp [QuietStep, Sys.setSubmit, Submit.done, SubmitPc.progress, Submit.effects, hp]
  | enqStore hp =>
    right
    refine ⟨.descriptor (st.submits k).idx (st.submits k).desc, ?_, ?_⟩
    · simp [SubmitEffect.Does]
    · simp [Submit.done, SubmitPc.progress, Submit.effects, Submit.desc, hp]
  | enqWriteTail hp =>
    right
    refine ⟨.tail, ?_, ?_⟩
    · simp [SubmitEffect.Does]
    · simp [Submit.done, SubmitPc.progress, Submit.effects, Submit.desc, hp]
  | enqDoorbell hp =>
    right
    refine ⟨.doorbell, ?_, ?_⟩
    · simp [SubmitEffect.Does]
    · simp [Submit.done, SubmitPc.progress, Submit.effects, Submit.desc, hp]

/-- What the two kinds of return can say. -/
def Submit.Codes (c : Submit) : Prop :=
  (c.pc = .refused → c.ret ∈ [.err .EFAULT, .err .EINVAL, .err .EPERM, .err .ERESTARTSYS]) ∧
    (c.pc = .returned → c.ret ∈ [.ok 0, .err .EFAULT])

private theorem SubmitLocal.codes (h : SubmitLocal st c c') : c'.Codes := by
  cases h with
  | reject e hp he =>
    have hout := checkSubmit_outcome st.buffers c.sess c.req
    rw [he] at hout
    cases hout with
    | perm => simp [Submit.Codes]
    | inval => simp [Submit.Codes]
  | _ => simp [Submit.Codes]

private theorem codes_step (h : SubmitMove st k st') : (st'.submits k).Codes := by
  cases h with
  | quiet c hl =>
    simp only [Sys.setSubmit, Function.update_self]
    exact hl.codes
  | enqIdx hp => simp [Submit.Codes, Sys.setSubmit]
  | _ => simp [Submit.Codes]

/-- A call of SUBMIT along a run. -/
structure CallRun (k : Nat) (ts : List (Sys × Act × Sys)) (st : Sys) : Prop where
  lt : k < st.nsubmits
  effects : Effects k ts (st.submits k).done
  codes : (st.submits k).Codes

/-- Every step of anybody. -/
theorem CallRun.next {ts : List (Sys × Act × Sys)} (hi : CallRun k ts st)
    (h : step st a = some st') : CallRun k (ts ++ [(st, a, st')]) st' := by
  have hlt := Nat.lt_of_lt_of_le hi.lt (nsubmits_le h)
  by_cases ha : a.ofSubmit k
  · have hm := submitMove_of_step ha h
    refine ⟨hlt, ?_, codes_step hm⟩
    rcases done_step hm with ⟨hq, he⟩ | ⟨e, hd, he⟩
    · rw [he]
      exact .quiet hi.effects ha hq
    · rw [he]
      exact .effect e hi.effects ha hd
  · rcases step_submits h hi.lt ha with he | he
    · refine ⟨hlt, ?_, ?_⟩
      · rw [he]
        exact .other hi.effects ha
      · rw [he]
        exact hi.codes
    · refine ⟨hlt, ?_, ?_⟩
      · rw [he, Submit.done_wake]
        exact .other hi.effects ha
      · rw [he]
        unfold Submit.wake
        split
        · simp [Submit.Codes]
        · exact hi.codes

/-- A call that returns before its registration has changed nothing but `next_cmd_id`; one that
returns after it has registered one entry, counted it once in either counter, enqueued one
descriptor under its id and rung the doorbell, in this order. -/
structure AllOrNothing (k : Nat) (ts : List (Sys × Act × Sys)) (c : Submit) : Prop where
  nothing : c.pc = .refused →
    c.ret ∈ [.err .EFAULT, .err .EINVAL, .err .EPERM, .err .ERESTARTSYS] ∧ Effects k ts []
  all : c.pc = .returned → c.ret ∈ [.ok 0, .err .EFAULT] ∧ c.desc.cmdId = c.cmdId ∧
    Effects k ts [.entry c.sess c.cmdId, .inflight c.sess, .total, .descriptor c.idx c.desc,
      .tail, .doorbell]

/-- In every run, from any state, of a call together with whatever the others do. -/
theorem submit_all_or_nothing {st0 st1 : Sys} {s : Sid} {req : SubmitReq}
    {ts : List (Sys × Act × Sys)} (hs : step st0 (.submit s req) = some st1)
    (h : Trace step st1 ts st) :
    AllOrNothing st0.nsubmits ts (st.submits st0.nsubmits) := by
  have hrun : CallRun st0.nsubmits ts st := by
    induction h with
    | start =>
      obtain ⟨-, he⟩ := Option.ite_none_right_eq_some.mp hs
      cases he
      refine ⟨Nat.lt_succ_self _, ?_, ?_⟩
      · simp only [ioctlSubmit, Function.update_self]
        exact .nil
      · simp [ioctlSubmit, Submit.Codes]
    | next _ hstep ih => exact ih.next hstep
  have hdone := hrun.effects
  constructor
  · intro hp
    refine ⟨hrun.codes.1 hp, ?_⟩
    simpa [Submit.done, hp, SubmitPc.progress] using hdone
  · intro hp
    refine ⟨hrun.codes.2 hp, rfl, ?_⟩
    simpa [Submit.done, hp, SubmitPc.progress, Submit.effects] using hdone

/-- A copy inside a buffer of its session is submitted. -/
theorem submit_all_or_nothing_copy : ∃ (st0 st1 st : Sys) (ts : List (Sys × Act × Sys)),
    step st0 (.submit 0 (copyReq 0)) = some st1 ∧ Trace step st1 ts st ∧
      (st.submits st0.nsubmits).ret = .ok 0 ∧ ∃ cmdId idx d, d.cmdId = cmdId ∧
        Effects st0.nsubmits ts [.entry 0 cmdId, .inflight 0, .total, .descriptor idx d, .tail,
          .doorbell] := by
  have hrun : (run step Sys.init (.chrOpen :: allocScript 0 0)).any (fun st0 ↦
      (step st0 (.submit 0 (copyReq 0))).any fun st1 ↦
        (run step st1 (List.replicate 14 (.submitStep 0))).any fun st ↦
          decide ((st.submits st0.nsubmits).pc = .returned ∧
            (st.submits st0.nsubmits).ret = .ok 0 ∧
            (st.submits st0.nsubmits).sess = 0)) = true := by
    decide +kernel
  obtain ⟨st0, -, h0⟩ := (Option.any_eq_true _ _).mp hrun
  obtain ⟨st1, h1, h1'⟩ := (Option.any_eq_true _ _).mp h0
  obtain ⟨st, h2, h2'⟩ := (Option.any_eq_true _ _).mp h1'
  obtain ⟨hpc, hret, hsess⟩ := of_decide_eq_true h2'
  obtain ⟨ts, ht⟩ := Trace.start.of_run h2
  have hall := (submit_all_or_nothing h1 ht).all hpc
  rw [hsess] at hall
  exact ⟨st0, st1, st, ts, h1, ht, hret, _, _, _, hall.2⟩

end DmaAccel.Driver
