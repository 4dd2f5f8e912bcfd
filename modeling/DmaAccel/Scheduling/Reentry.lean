import DmaAccel.Base.History
import DmaAccel.Base.Run
import DmaAccel.Scheduling.StreamScheduler

/-!
# The stream scheduler while it is used

Source `track-c/runtime/dma_accel_stream_scheduler.cpp` (10–47). What is queued are functions of
the caller: while `run` invokes one, that function may add streams, queue more commands, call
`run` again, return a fence or throw. The calls of `run` that are not over form a stack. The
history records what has been queued and invoked, and how it ended.
-/

namespace DmaAccel.Scheduling

open Base

universe u v w

/-- `StreamScheduler`: each registered stream has its queue. -/
structure StreamQueues (ς : Type u) (κ : Type v) where
  streams : List ς
  queues : List (List κ)
  sized : queues.length = streams.length

/-- A call of `run` that is not over: its local variables, and the function it is invoking. Calls
are numbered as they are made. -/
structure RunCall (κ : Type v) (φ : Type w) where
  number : Nat
  i : Nat
  progressed : Bool
  results : List (ScheduledResult φ)
  fn : Option κ

/-- What happens to the commands; those of a call of `run` bear its number. -/
inductive RunEvent (κ : Type v) (φ : Type w) where
  | enqueued (j : Nat) (fn : κ)
  | refused (j : Nat) (what : String)
  | invoked (n i : Nat) (fn : κ)
  | returned (n i : Nat) (fn : κ) (f : φ)
  | threw (n i : Nat) (fn : κ)
  | ended (n : Nat) (results : List (ScheduledResult φ))

/-- The scheduler and the calls of `run` that are not over, the innermost first. -/
structure Process (ς : Type u) (κ : Type v) (φ : Type w) where
  sched : StreamQueues ς κ
  calls : List (RunCall κ φ)
  ncalls : Nat
  history : List (RunEvent κ φ)

/-- What the caller's code does with the scheduler, and `turn` for the loop of `run`. -/
inductive SchedAct (ς : Type u) (κ : Type v) (φ : Type w) where
  | addStream (s : ς)
  | enqueue (j : Nat) (fn : κ)
  | run
  | turn
  | ret (f : φ)
  | throw

variable {ς : Type u} {κ : Type v} {φ : Type w}

namespace StreamQueues

/-- A new scheduler. -/
def empty : StreamQueues ς κ := ⟨[], [], rfl⟩

/-- `StreamScheduler::add_stream`, with the index it returns. -/
def addStream (sched : StreamQueues ς κ) (s : ς) : StreamQueues ς κ × Nat :=
  let streams := sched.streams ++ [s]
  (⟨streams, sched.queues ++ [[]], by simp [streams, sched.sized]⟩, streams.length - 1)

/-- `queues_[i]` replaced. -/
def setQueue (sched : StreamQueues ς κ) (i : Nat) (queue : List κ) : StreamQueues ς κ :=
  ⟨sched.streams, sched.queues.set i queue, by rw [List.length_set, sched.sized]⟩

/-- `queues_[i]`. -/
def queue (sched : StreamQueues ς κ) (i : Nat) : List κ := sched.queues.getD i []

/-- `StreamScheduler::enqueue`. -/
def enqueue (sched : StreamQueues ς κ) (j : Nat) (fn : κ) : Except String (StreamQueues ς κ) :=
  if j ≥ sched.streams.length then
    .error "StreamScheduler::enqueue(): stream_index out of range"
  else .ok (sched.setQueue j (sched.queue j ++ [fn]))

end StreamQueues

namespace Process

/-- Nothing has been done with a new scheduler. -/
def init : Process ς κ φ := ⟨.empty, [], 0, []⟩

/-- The caller's code is running: outside every call of `run`, or in the function that the
innermost one invokes. -/
def outside (p : Process ς κ φ) : Bool :=
  match p.calls with
  | [] => true
  | c :: _ => c.fn.isSome

/-- One turn of the loops of `run` in the innermost call `c`. The function is moved out of its
queue before it is invoked, and the queues are looked at anew in every turn. -/
def turn (p : Process ς κ φ) (c : RunCall κ φ) (cs : List (RunCall κ φ)) : Process ς κ φ :=
  if c.i < p.sched.queues.length then
    match p.sched.queue c.i with
    | [] => { p with calls := { c with i := c.i + 1 } :: cs }
    | fn :: rest =>
      { p with
        sched := p.sched.setQueue c.i rest
        calls := { c with fn := some fn } :: cs
        history := p.history ++ [.invoked c.number c.i fn] }
  else if c.progressed then { p with calls := { c with i := 0, progressed := false } :: cs }
  else { p with calls := cs, history := p.history ++ [.ended c.number c.results] }

/-- One step; `none` where the code that takes it is not running. -/
def step (p : Process ς κ φ) : SchedAct ς κ φ → Option (Process ς κ φ)
  | .addStream s => if p.outside then some { p with sched := (p.sched.addStream s).1 } else none
  | .enqueue j fn =>
    if p.outside then
      match p.sched.enqueue j fn with
      | .ok sched => some { p with sched, history := p.history ++ [.enqueued j fn] }
      | .error what => some { p with history := p.history ++ [.refused j what] }
    else none
  | .run =>
    if p.outside then
      some { p with calls := ⟨p.ncalls, 0, false, [], none⟩ :: p.calls, ncalls := p.ncalls + 1 }
    else none
  | .turn =>
    match p.calls with
    | c :: cs => if c.fn.isNone then some (p.turn c cs) else none
    | [] => none
  | .ret f =>
    match p.calls with
    | c :: cs => c.fn.map fun fn ↦
        { p with
          calls := { c with
            i := c.i + 1, progressed := true, results := c.results ++ [⟨c.i, f⟩],
            fn := none } :: cs
          history := p.history ++ [.returned c.number c.i fn f] }
    | [] => none
  | .throw =>
    match p.calls with
    | c :: cs => c.fn.map fun fn ↦
        { p with calls := cs, history := p.history ++ [.threw c.number c.i fn] }
    | [] => none

end Process

/-! ### Reading the history -/

namespace RunEvent

/-- The command it queues for stream `j`. -/
@[simp] def queuedFor (j : Nat) : RunEvent κ φ → Option κ
  | .enqueued k fn => if k = j then some fn else none
  | _ => none

/-- The command it invokes from the queue of stream `j`. -/
@[simp] def takenFrom (j : Nat) : RunEvent κ φ → Option κ
  | .invoked _ i fn => if i = j then some fn else none
  | _ => none

/-- The command that it invokes in call `n` of `run`, with the stream index. -/
@[simp] def invokedIn (n : Nat) : RunEvent κ φ → Option (Nat × κ)
  | .invoked m i fn => if m = n then some (i, fn) else none
  | _ => none

/-- The command from which it returns in call `n`, with the stream index and the fence. -/
@[simp] def returnedIn (n : Nat) : RunEvent κ φ → Option (Nat × κ × φ)
  | .returned m i fn f => if m = n then some (i, fn, f) else none
  | _ => none

/-- The call of `run` that it belongs to. -/
@[simp] def call : RunEvent κ φ → Option Nat
  | .invoked n _ _ | .returned n _ _ _ | .threw n _ _ | .ended n _ => some n
  | _ => none

/-- It is the end of its call. -/
@[simp] def Closing : RunEvent κ φ → Prop
  | .threw _ _ _ | .ended _ _ => True
  | _ => False

end RunEvent

/-- Commands queued for stream `j`, in order. -/
def enqueuedTo (j : Nat) (history : List (RunEvent κ φ)) : List κ :=
  history.filterMap (·.queuedFor j)

/-- Commands of stream `j` that have been invoked, in order. -/
def invokedFrom (j : Nat) (history : List (RunEvent κ φ)) : List κ :=
  history.filterMap (·.takenFrom j)

/-- What call `n` of `run` has invoked, in order. -/
def invokedBy (n : Nat) (history : List (RunEvent κ φ)) : List (Nat × κ) :=
  history.filterMap (·.invokedIn n)

/-- What of it has returned. -/
def returnedBy (n : Nat) (history : List (RunEvent κ φ)) : List (Nat × κ × φ) :=
  history.filterMap (·.returnedIn n)

/-- The commands of returned invocations. -/
def commands (rs : List (Nat × κ × φ)) : List (Nat × κ) := rs.map fun r ↦ (r.1, r.2.1)

/-- Their fences, as `run` returns them. -/
def fences (rs : List (Nat × κ × φ)) : List (ScheduledResult φ) := rs.map fun r ↦ ⟨r.1, r.2.2⟩

/-- The end of a call of `run` after the history `pre`. It returns when every command queued so
far has been invoked, with the fences of its own commands, all of which have returned. When it is
left by a throw, the command that threw is the only one of its own that has not returned. -/
def EndsWell (pre : List (RunEvent κ φ)) : RunEvent κ φ → Prop
  | .ended n results =>
    (∀ j, invokedFrom j pre = enqueuedTo j pre) ∧
      invokedBy n pre = commands (returnedBy n pre) ∧ results = fences (returnedBy n pre)
  | .threw n i fn => invokedBy n pre = commands (returnedBy n pre) ++ [(i, fn)]
  | _ => True

/-- A call that is not over has returned from all its commands but the one it is invoking. -/
structure RunCall.Accounts (c : RunCall κ φ) (history : List (RunEvent κ φ)) : Prop where
  invoked : invokedBy c.number history =
    commands (returnedBy c.number history) ++ c.fn.toList.map (c.i, ·)
  results : c.results = fences (returnedBy c.number history)

section Append

variable (j n : Nat) (history : List (RunEvent κ φ)) (e : RunEvent κ φ)

@[simp] theorem enqueuedTo_concat :
    enqueuedTo j (history ++ [e]) = enqueuedTo j history ++ (e.queuedFor j).toList :=
  filterMap_concat _ history e

@[simp] theorem invokedFrom_concat :
    invokedFrom j (history ++ [e]) = invokedFrom j history ++ (e.takenFrom j).toList :=
  filterMap_concat _ history e

@[simp] theorem invokedBy_concat :
    invokedBy n (history ++ [e]) = invokedBy n history ++ (e.invokedIn n).toList :=
  filterMap_concat _ history e

@[simp] theorem returnedBy_concat :
    returnedBy n (history ++ [e]) = returnedBy n history ++ (e.returnedIn n).toList :=
  filterMap_concat _ history e

variable {n e}

/-- An event of another call does not count. -/
theorem invokedBy_concat_of_ne (h : e.call ≠ some n) :
    invokedBy n (history ++ [e]) = invokedBy n history := by
  have he : e.invokedIn n = none := by
    cases e with
    | invoked m i fn => exact if_neg fun hm ↦ h (congrArg some hm)
    | enqueued | refused | returned | threw | ended => rfl
  rw [invokedBy_concat, he]
  exact List.append_nil _

theorem returnedBy_concat_of_ne (h : e.call ≠ some n) :
    returnedBy n (history ++ [e]) = returnedBy n history := by
  have he : e.returnedIn n = none := by
    cases e with
    | returned m i fn f => exact if_neg fun hm ↦ h (congrArg some hm)
    | enqueued | refused | invoked | threw | ended => rfl
  rw [returnedBy_concat, he]
  exact List.append_nil _

/-- A closing event is one of a call. -/
theorem closing_call (h : e.Closing) : e.call ≠ none := by
  cases e with
  | threw | ended => exact fun he ↦ by cases he
  | enqueued | refused | invoked | returned => exact h.elim

theorem RunCall.Accounts.concat {c : RunCall κ φ} (h : c.Accounts history)
    (he : e.call ≠ some c.number) : c.Accounts (history ++ [e]) where
  invoked := by
    rw [invokedBy_concat_of_ne _ he, returnedBy_concat_of_ne _ he]
    exact h.invoked
  results := by
    rw [returnedBy_concat_of_ne _ he]
    exact h.results

end Append

/-! ### The steps -/

namespace StreamQueues

variable (sched : StreamQueues ς κ) (s : ς) (i j : Nat) (queue : List κ)

theorem queue_addStream : (sched.addStream s).1.queue j = sched.queue j := by
  show (sched.queues ++ [[]]).getD j [] = sched.queues.getD j []
  by_cases hj : j < sched.queues.length
  · rw [List.getD_append _ _ _ _ hj]
  · rw [List.getD_append_right _ _ _ _ (Nat.le_of_not_lt hj),
      List.getD_eq_default _ _ (Nat.le_of_not_lt hj)]
    cases j - sched.queues.length <;> rfl

theorem queue_setQueue_self (hi : i < sched.queues.length) :
    (sched.setQueue i queue).queue i = queue := by
  show (sched.queues.set i queue).getD i [] = queue
  rw [List.getD_eq_getElem _ _ (by rw [List.length_set]; exact hi), List.getElem_set_self]

theorem queue_setQueue_ne (hij : i ≠ j) : (sched.setQueue i queue).queue j = sched.queue j := by
  show (sched.queues.set i queue).getD j [] = sched.queues.getD j []
  rw [List.getD_eq_getElem?_getD, List.getElem?_set_ne hij, ← List.getD_eq_getElem?_getD]

theorem lt_of_queue {fn : κ} {rest : List κ} (h : sched.queue i = fn :: rest) :
    i < sched.queues.length := by
  by_contra hge
  rw [queue, List.getD_eq_default _ _ (Nat.le_of_not_lt hge)] at h
  cases h

end StreamQueues

/-- What one step does. -/
inductive Process.Move (p : Process ς κ φ) : SchedAct ς κ φ → Process ς κ φ → Prop where
  | addStream (s : ς) : p.outside = true →
      Move p (.addStream s) { p with sched := (p.sched.addStream s).1 }
  | enqueued (j : Nat) (fn : κ) : p.outside = true → j < p.sched.queues.length →
      Move p (.enqueue j fn) { p with
        sched := p.sched.setQueue j (p.sched.queue j ++ [fn])
        history := p.history ++ [.enqueued j fn] }
  | refused (j : Nat) (fn : κ) (what : String) : p.outside = true → p.sched.queues.length ≤ j →
      Move p (.enqueue j fn) { p with history := p.history ++ [.refused j what] }
  | run : p.outside = true → Move p .run { p with
      calls := ⟨p.ncalls, 0, false, [], none⟩ :: p.calls, ncalls := p.ncalls + 1 }
  | skip {c : RunCall κ φ} {cs : List (RunCall κ φ)} : p.calls = c :: cs → c.fn = none →
      p.sched.queue c.i = [] → c.i < p.sched.queues.length →
      Move p .turn { p with calls := { c with i := c.i + 1 } :: cs }
  | invoke {c : RunCall κ φ} {cs : List (RunCall κ φ)} {fn : κ} {rest : List κ} :
      p.calls = c :: cs → c.fn = none → p.sched.queue c.i = fn :: rest →
      Move p .turn { p with
        sched := p.sched.setQueue c.i rest
        calls := { c with fn := some fn } :: cs
        history := p.history ++ [.invoked c.number c.i fn] }
  | again {c : RunCall κ φ} {cs : List (RunCall κ φ)} : p.calls = c :: cs → c.fn = none →
      p.sched.queues.length ≤ c.i → c.progressed = true →
      Move p .turn { p with calls := { c with i := 0, progressed := false } :: cs }
  | ended {c : RunCall κ φ} {cs : List (RunCall κ φ)} : p.calls = c :: cs → c.fn = none →
      p.sched.queues.length ≤ c.i → c.progressed = false →
      Move p .turn { p with calls := cs, history := p.history ++ [.ended c.number c.results] }
  | returned {c : RunCall κ φ} {cs : List (RunCall κ φ)} {fn : κ} (f : φ) : p.calls = c :: cs →
      c.fn = some fn →
      Move p (.ret f) { p with
        calls := { c with
          i := c.i + 1, progressed := true, results := c.results ++ [⟨c.i, f⟩],
          fn := none } :: cs
        history := p.history ++ [.returned c.number c.i fn f] }
  | threw {c : RunCall κ φ} {cs : List (RunCall κ φ)} {fn : κ} : p.calls = c :: cs →
      c.fn = some fn →
      Move p .throw { p with calls := cs, history := p.history ++ [.threw c.number c.i fn] }

variable {p p' : Process ς κ φ} {a : SchedAct ς κ φ}

theorem Process.move_of_step (h : p.step a = some p') : p.Move a p' := by
  cases a with
  | addStream s =>
    obtain ⟨ho, rfl⟩ : p.outside = true ∧ { p with sched := (p.sched.addStream s).1 } = p' := by
      simpa [step] using h
    exact .addStream s ho
  | enqueue j fn =>
    simp only [step] at h
    split at h
    · next ho =>
      unfold StreamQueues.enqueue at h
      by_cases hj : j ≥ p.sched.streams.length
      · rw [if_pos hj] at h
        cases h
        exact .refused j fn _ ho (by rw [p.sched.sized]; exact hj)
      · rw [if_neg hj] at h
        cases h
        exact .enqueued j fn ho (by rw [p.sched.sized]; omega)
    · cases h
  | run =>
    simp only [step] at h
    split at h
    · next ho =>
      cases h
      exact .run ho
    · cases h
  | turn =>
    simp only [step] at h
    split at h
    · next c cs hc =>
      split at h
      · next hn =>
        have hfn : c.fn = none := Option.isNone_iff_eq_none.mp hn
        cases h
        unfold turn
        split
        · next hi =>
          split
          · next hq => exact .skip hc hfn hq hi
          · next fn rest hq => exact .invoke hc hfn hq
        · next hi =>
          split
          · next hp => exact .again hc hfn (Nat.le_of_not_lt hi) hp
          · next hp => exact .ended hc hfn (Nat.le_of_not_lt hi) (Bool.eq_false_iff.mpr hp)
      · cases h
    · cases h
  | ret f =>
    simp only [step] at h
    split at h
    · next c cs hc =>
      obtain ⟨fn, hfn, rfl⟩ := Option.map_eq_some_iff.mp h
      exact .returned f hc hfn
    · cases h
  | throw =>
    simp only [step] at h
    split at h
    · next c cs hc =>
      obtain ⟨fn, hfn, rfl⟩ := Option.map_eq_some_iff.mp h
      exact .threw hc hfn
    · cases h

/-! ### What holds in every state -/

/-- The queues are what has been queued and not invoked. -/
def Process.Fifo (p : Process ς κ φ) : Prop :=
  ∀ j, invokedFrom j p.history ++ p.sched.queue j = enqueuedTo j p.history

theorem Process.Fifo.move (hi : p.Fifo) (h : p.Move a p') : p'.Fifo := by
  intro j
  have hj := hi j
  cases h with
  | addStream s =>
    rw [StreamQueues.queue_addStream]
    exact hj
  | enqueued k fn _ hk =>
    by_cases hkj : k = j
    · subst hkj
      rw [StreamQueues.queue_setQueue_self _ _ _ hk]
      simp [← hj]
    · rw [StreamQueues.queue_setQueue_ne _ _ _ _ hkj]
      simp [← hj, hkj]
  | @invoke c cs fn rest _ _ hq =>
    have hlt := p.sched.lt_of_queue _ hq
    by_cases hij : c.i = j
    · subst hij
      rw [StreamQueues.queue_setQueue_self _ _ _ hlt]
      rw [hq] at hj
      simp [← hj]
    · rw [StreamQueues.queue_setQueue_ne _ _ _ _ hij]
      simp [← hj, hij]
  | run | skip | again => exact hj
  | refused | ended | returned | threw => simp [← hj]

/-- The calls of `run` are inside one another: all but the innermost one are invoking a function.
What the innermost one has passed over in a round in which it has invoked nothing is empty. -/
structure Process.Nested (p : Process ς κ φ) : Prop where
  numbers : (p.calls.map (·.number)).Nodup
  fresh : ∀ c ∈ p.calls, c.number < p.ncalls
  waiting : ∀ c ∈ p.calls.tail, c.fn ≠ none
  passed : ∀ c cs, p.calls = c :: cs → c.fn = none → c.progressed = false →
    ∀ j < c.i, p.sched.queue j = []

namespace Process.Nested

variable {c c' : RunCall κ φ} {cs : List (RunCall κ φ)}

/-- While the caller's code is running, all calls of `run` are invoking a function. -/
theorem all_waiting (hi : p.Nested) (ho : p.outside = true) : ∀ c ∈ p.calls, c.fn ≠ none := by
  intro d hd
  unfold outside at ho
  split at ho
  · next he =>
    rw [he] at hd
    cases hd
  · next c cs hc =>
    rw [hc] at hd
    rcases List.mem_cons.mp hd with rfl | hd
    · exact Option.isSome_iff_ne_none.mp ho
    · exact hi.waiting d (by rw [hc]; exact hd)

/-- The innermost call goes on, and looks at another queue or invokes a function. -/
theorem replace (hi : p.Nested) (hc : p.calls = c :: cs) (hcalls : p'.calls = c' :: cs)
    (hn : c'.number = c.number) (hcount : p'.ncalls = p.ncalls)
    (hpassed : c'.fn = none → c'.progressed = false → ∀ j < c'.i, p'.sched.queue j = []) :
    p'.Nested where
  numbers := by
    have h := hi.numbers
    rw [hc] at h
    rw [hcalls, List.map_cons, hn]
    exact h
  fresh := by
    have h := hi.fresh
    rw [hc] at h
    rw [hcalls, hcount]
    intro d hd
    rcases List.mem_cons.mp hd with rfl | hd
    · rw [hn]
      exact h c List.mem_cons_self
    · exact h d (List.mem_cons_of_mem _ hd)
  waiting := by
    have h := hi.waiting
    rw [hc] at h
    rw [hcalls]
    exact h
  passed := by
    intro d ds hd
    rw [hcalls] at hd
    cases hd
    exact hpassed

/-- The innermost call ends. -/
theorem pop (hi : p.Nested) (hc : p.calls = c :: cs) (hcalls : p'.calls = cs)
    (hcount : p'.ncalls = p.ncalls) : p'.Nested := by
  have hwait : ∀ d ∈ cs, d.fn ≠ none := by
    have h := hi.waiting
    rw [hc] at h
    exact h
  constructor
  · have h := hi.numbers
    rw [hc] at h
    rw [hcalls]
    exact (List.nodup_cons.mp h).2
  · intro d hd
    rw [hcalls] at hd
    rw [hcount]
    exact hi.fresh d (by rw [hc]; exact List.mem_cons_of_mem _ hd)
  · intro d hd
    rw [hcalls] at hd
    exact hwait d (List.mem_of_mem_tail hd)
  · intro d ds hd hfn
    rw [hcalls] at hd
    exact (hwait d (by rw [hd]; exact List.mem_cons_self) hfn).elim

theorem move (hi : p.Nested) (h : p.Move a p') : p'.Nested := by
  cases h with
  | addStream s ho =>
    refine ⟨hi.numbers, hi.fresh, hi.waiting, fun c cs hc hfn ↦ ?_⟩
    exact (hi.all_waiting ho c (by rw [hc]; exact List.mem_cons_self) hfn).elim
  | enqueued j fn ho | refused j fn what ho =>
    refine ⟨hi.numbers, hi.fresh, hi.waiting, fun c cs hc hfn ↦ ?_⟩
    exact (hi.all_waiting ho c (by rw [hc]; exact List.mem_cons_self) hfn).elim
  | run ho =>
    constructor
    · refine List.nodup_cons.mpr ⟨fun hmem ↦ ?_, hi.numbers⟩
      obtain ⟨d, hd, hnum⟩ := List.mem_map.mp hmem
      exact absurd hnum (Nat.ne_of_lt (hi.fresh d hd))
    · intro d hd
      rcases List.mem_cons.mp hd with rfl | hd
      · exact Nat.lt_succ_self _
      · exact Nat.lt_succ_of_lt (hi.fresh d hd)
    · exact hi.all_waiting ho
    · intro d ds hd _ _ j hj
      cases hd
      exact absurd hj (Nat.not_lt_zero j)
  | @skip c cs hc hfn hq hlt =>
    refine hi.replace hc rfl rfl rfl fun _ hp j hj ↦ ?_
    rcases Nat.lt_succ_iff_lt_or_eq.mp hj with hj | rfl
    · exact hi.passed c cs hc hfn hp j hj
    · exact hq
  | invoke hc hfn hq => exact hi.replace hc rfl rfl rfl fun h ↦ by cases h
  | again hc hfn hge hp =>
    exact hi.replace hc rfl rfl rfl fun _ _ j hj ↦ absurd hj (Nat.not_lt_zero j)
  | returned f hc hfn => exact hi.replace hc rfl rfl rfl fun _ h ↦ by cases h
  | ended hc hfn hge hp => exact hi.pop hc rfl rfl
  | threw hc hfn => exact hi.pop hc rfl rfl

end Process.Nested

/-- What the history says of the calls of `run`: nothing of those not made yet, of those that are
not over that they account for their commands, and the end of all others. -/
structure Process.Recorded (p : Process ς κ φ) : Prop where
  unknown : ∀ n, p.ncalls ≤ n → invokedBy n p.history = [] ∧ returnedBy n p.history = []
  accounts : ∀ c ∈ p.calls, c.Accounts p.history
  known : ∀ n < p.ncalls,
    (∃ c ∈ p.calls, c.number = n) ∨ ∃ e ∈ p.history, e.Closing ∧ e.call = some n
  gone : ∀ e ∈ p.history, e.Closing → ∀ n, e.call = some n →
    n < p.ncalls ∧ ∀ c ∈ p.calls, c.number ≠ n
  ends : Closes RunEvent.call RunEvent.Closing EndsWell p.history

namespace Process.Recorded

variable {c c' : RunCall κ φ} {cs : List (RunCall κ φ)} {e : RunEvent κ φ}

/-- One more event, of a call that is not over. -/
theorem extend (hi : p.Recorded) (hn : p.Nested) (hh : p'.history = p.history ++ [e])
    (hcount : p'.ncalls = p.ncalls)
    (hold : ∀ d ∈ p'.calls, ∃ c ∈ p.calls, c.number = d.number)
    (hcall : ∀ n, e.call = some n → ∃ c ∈ p.calls, c.number = n)
    (hacc : ∀ d ∈ p'.calls, d ∈ p.calls ∧ e.call ≠ some d.number ∨ d.Accounts p'.history)
    (hend : e.Closing → EndsWell p.history e ∧ ∀ d ∈ p'.calls, e.call ≠ some d.number)
    (hkeep : ∀ c ∈ p.calls,
      (∃ d ∈ p'.calls, d.number = c.number) ∨ e.Closing ∧ e.call = some c.number) :
    p'.Recorded where
  unknown n hle := by
    rw [hcount] at hle
    have hne : e.call ≠ some n := by
      intro he
      obtain ⟨c, hc, rfl⟩ := hcall n he
      exact absurd (hn.fresh c hc) (Nat.not_lt.mpr hle)
    rw [hh, invokedBy_concat_of_ne _ hne, returnedBy_concat_of_ne _ hne]
    exact hi.unknown n hle
  accounts d hd := by
    rcases hacc d hd with ⟨hmem, hne⟩ | h
    · rw [hh]
      exact (hi.accounts d hmem).concat _ hne
    · exact h
  known n hlt := by
    rw [hcount] at hlt
    rw [hh]
    rcases hi.known n hlt with ⟨c, hc, rfl⟩ | ⟨x, hx, hcl⟩
    · rcases hkeep c hc with h | h
      · exact .inl h
      · exact .inr ⟨e, List.mem_append_right _ (List.mem_singleton_self e), h⟩
    · exact .inr ⟨x, List.mem_append_left _ hx, hcl⟩
  gone x hx hcl n hxn := by
    rw [hcount]
    rw [hh] at hx
    rcases List.mem_append.mp hx with hx | hx
    · obtain ⟨hlt, hgone⟩ := hi.gone x hx hcl n hxn
      refine ⟨hlt, fun d hd hdn ↦ ?_⟩
      obtain ⟨c, hc, hcd⟩ := hold d hd
      exact hgone c hc (hcd.trans hdn)
    · rw [List.mem_singleton.mp hx] at hcl hxn
      obtain ⟨c, hc, rfl⟩ := hcall n hxn
      exact ⟨hn.fresh c hc, fun d hd hdn ↦ (hend hcl).2 d hd (by rw [hdn]; exact hxn)⟩
  ends := by
    rw [hh]
    refine hi.ends.concat (fun x hx hcl heq ↦ ?_) fun hcl ↦ (hend hcl).1
    cases hxn : x.call with
    | none => exact closing_call hcl hxn
    | some n =>
      obtain ⟨c, hc, hcn⟩ := hcall n (heq.trans hxn)
      exact (hi.gone x hx hcl n hxn).2 c hc hcn

/-- A step that records nothing. -/
theorem silent (hi : p.Recorded) (hh : p'.history = p.history) (hcount : p'.ncalls = p.ncalls)
    (hnum : p'.calls.map (·.number) = p.calls.map (·.number))
    (hacc : ∀ d ∈ p'.calls, d.Accounts p'.history) : p'.Recorded := by
  have hmem (n : Nat) : (∃ c ∈ p'.calls, c.number = n) ↔ ∃ c ∈ p.calls, c.number = n := by
    rw [← List.mem_map, ← List.mem_map, hnum]
  constructor
  · rw [hh, hcount]
    exact hi.unknown
  · exact hacc
  · intro n hlt
    rw [hcount] at hlt
    rw [hh, hmem]
    exact hi.known n hlt
  · intro e he hcl n hen
    rw [hh] at he
    obtain ⟨hlt, hgone⟩ := hi.gone e he hcl n hen
    refine ⟨by rw [hcount]; exact hlt, fun d hd hdn ↦ ?_⟩
    obtain ⟨c, hc, hcn⟩ := (hmem n).mp ⟨d, hd, hdn⟩
    exact hgone c hc hcn
  · rw [hh]
    exact hi.ends

/-- What the innermost call records about itself. -/
private theorem number_ne (hn : p.Nested) (hc : p.calls = c :: cs) {d : RunCall κ φ}
    (hd : d ∈ cs) : c.number ≠ d.number := by
  have h := hn.numbers
  rw [hc, List.map_cons] at h
  intro he
  exact (List.nodup_cons.mp h).1 (by rw [he]; exact List.mem_map_of_mem hd)

/-- The innermost call goes on. -/
private theorem replace (hi : p.Recorded) (hn : p.Nested) (hc : p.calls = c :: cs)
    (hcalls : p'.calls = c' :: cs) (hnum : c'.number = c.number)
    (hh : p'.history = p.history ++ [e]) (hcount : p'.ncalls = p.ncalls)
    (hcall : e.call = some c.number) (hopen : ¬e.Closing)
    (hacc : c'.Accounts (p.history ++ [e])) : p'.Recorded := by
  have hold : ∀ d ∈ p'.calls, ∃ b ∈ p.calls, b.number = d.number := by
    intro d hd
    rw [hcalls] at hd
    rw [hc]
    rcases List.mem_cons.mp hd with rfl | hd
    · exact ⟨c, List.mem_cons_self, hnum.symm⟩
    · exact ⟨d, List.mem_cons_of_mem _ hd, rfl⟩
  refine hi.extend hn hh hcount hold ?_ ?_ ?_ ?_
  · intro n he
    rw [hcall] at he
    cases he
    exact ⟨c, by rw [hc]; exact List.mem_cons_self, rfl⟩
  · intro d hd
    rw [hcalls] at hd
    rcases List.mem_cons.mp hd with rfl | hd
    · rw [hh]
      exact .inr hacc
    · refine .inl ⟨by rw [hc]; exact List.mem_cons_of_mem _ hd, ?_⟩
      rw [hcall]
      exact fun he ↦ number_ne hn hc hd (Option.some.inj he)
  · exact fun he ↦ (hopen he).elim
  · intro b hb
    rw [hc] at hb
    rw [hcalls]
    rcases List.mem_cons.mp hb with rfl | hb
    · exact .inl ⟨c', List.mem_cons_self, hnum⟩
    · exact .inl ⟨b, List.mem_cons_of_mem _ hb, rfl⟩

/-- The innermost call ends. -/
private theorem pop (hi : p.Recorded) (hn : p.Nested) (hc : p.calls = c :: cs)
    (hcalls : p'.calls = cs) (hh : p'.history = p.history ++ [e]) (hcount : p'.ncalls = p.ncalls)
    (hcall : e.call = some c.number) (hcl : e.Closing) (hend : EndsWell p.history e) :
    p'.Recorded := by
  have hne : ∀ d ∈ cs, c.number ≠ d.number := fun d hd ↦ number_ne hn hc hd
  refine hi.extend hn hh hcount ?_ ?_ ?_ ?_ ?_
  · intro d hd
    rw [hcalls] at hd
    exact ⟨d, by rw [hc]; exact List.mem_cons_of_mem _ hd, rfl⟩
  · intro n he
    rw [hcall] at he
    cases he
    exact ⟨c, by rw [hc]; exact List.mem_cons_self, rfl⟩
  · intro d hd
    rw [hcalls] at hd
    refine .inl ⟨by rw [hc]; exact List.mem_cons_of_mem _ hd, ?_⟩
    rw [hcall]
    exact fun he ↦ hne d hd (Option.some.inj he)
  · refine fun _ ↦ ⟨hend, fun d hd ↦ ?_⟩
    rw [hcalls] at hd
    rw [hcall]
    exact fun he ↦ hne d hd (Option.some.inj he)
  · intro b hb
    rw [hc] at hb
    rw [hcalls]
    rcases List.mem_cons.mp hb with rfl | hb
    · exact .inr ⟨hcl, hcall⟩
    · exact .inl ⟨b, hb, rfl⟩

/-- An event that belongs to no call. -/
private theorem note (hi : p.Recorded) (hn : p.Nested) (hcalls : p'.calls = p.calls)
    (hh : p'.history = p.history ++ [e]) (hcount : p'.ncalls = p.ncalls) (hcall : e.call = none) :
    p'.Recorded := by
  have hopen : ¬e.Closing := fun he ↦ closing_call he hcall
  refine hi.extend hn hh hcount ?_ ?_ ?_ ?_ ?_
  · intro d hd
    exact ⟨d, by rw [← hcalls]; exact hd, rfl⟩
  · intro n he
    rw [hcall] at he
    cases he
  · intro d hd
    rw [hcalls] at hd
    exact .inl ⟨hd, by rw [hcall]; exact fun he ↦ by cases he⟩
  · exact fun he ↦ (hopen he).elim
  · exact fun b hb ↦ .inl ⟨b, by rw [hcalls]; exact hb, rfl⟩

/-- A call of `run` begins. -/
private theorem begin (hi : p.Recorded) : Process.Recorded { p with
    calls := ⟨p.ncalls, 0, false, [], none⟩ :: p.calls, ncalls := p.ncalls + 1 } where
  unknown n hle := hi.unknown n (Nat.le_of_succ_le hle)
  accounts d hd := by
    rcases List.mem_cons.mp hd with rfl | hd
    · obtain ⟨h1, h2⟩ := hi.unknown p.ncalls (Nat.le_refl _)
      exact ⟨by rw [h1, h2]; rfl, by rw [h2]; rfl⟩
    · exact hi.accounts d hd
  known n hlt := by
    rcases Nat.lt_succ_iff_lt_or_eq.mp hlt with hlt | rfl
    · rcases hi.known n hlt with ⟨c, hc, hn⟩ | h
      · exact .inl ⟨c, List.mem_cons_of_mem _ hc, hn⟩
      · exact .inr h
    · exact .inl ⟨_, List.mem_cons_self, rfl⟩
  gone e he hcl n hen := by
    obtain ⟨hlt, hgone⟩ := hi.gone e he hcl n hen
    refine ⟨Nat.lt_succ_of_lt hlt, fun d hd ↦ ?_⟩
    rcases List.mem_cons.mp hd with rfl | hd
    · exact (Nat.ne_of_lt hlt).symm
    · exact hgone d hd
  ends := hi.ends

theorem move (hi : p.Recorded) (hn : p.Nested) (hf : p.Fifo) (h : p.Move a p') :
    p'.Recorded := by
  have head {c : RunCall κ φ} {cs : List (RunCall κ φ)} (hc : p.calls = c :: cs) :
      c.Accounts p.history := hi.accounts c (by rw [hc]; exact List.mem_cons_self)
  cases h with
  | addStream s ho => exact ⟨hi.unknown, hi.accounts, hi.known, hi.gone, hi.ends⟩
  | enqueued j fn ho hj => exact hi.note hn rfl rfl rfl rfl
  | refused j fn what ho hj => exact hi.note hn rfl rfl rfl rfl
  | run ho => exact hi.begin
  | skip hc hfn hq hlt =>
    refine hi.silent rfl rfl (by rw [hc]; rfl) fun d hd ↦ ?_
    rcases List.mem_cons.mp hd with rfl | hd
    · have hacc := head hc
      exact ⟨by rw [hacc.invoked, hfn]; rfl, hacc.results⟩
    · exact hi.accounts d (by rw [hc]; exact List.mem_cons_of_mem _ hd)
  | again hc hfn hge hp =>
    refine hi.silent rfl rfl (by rw [hc]; rfl) fun d hd ↦ ?_
    rcases List.mem_cons.mp hd with rfl | hd
    · have hacc := head hc
      exact ⟨by rw [hacc.invoked, hfn]; rfl, hacc.results⟩
    · exact hi.accounts d (by rw [hc]; exact List.mem_cons_of_mem _ hd)
  | invoke hc hfn hq =>
    have hacc := head hc
    refine hi.replace hn hc rfl rfl rfl rfl rfl id ⟨?_, ?_⟩
    · simp [hacc.invoked, hfn]
    · simp [hacc.results]
  | returned f hc hfn =>
    have hacc := head hc
    refine hi.replace hn hc rfl rfl rfl rfl rfl id ⟨?_, ?_⟩
    · simp [hacc.invoked, hfn, commands]
    · simp [hacc.results, fences]
  | @ended c cs hc hfn hge hp =>
    have hacc := head hc
    refine hi.pop hn hc rfl rfl rfl rfl trivial ⟨fun j ↦ ?_, ?_, hacc.results⟩
    · have hempty : p.sched.queue j = [] := by
        by_cases hj : j < c.i
        · exact hn.passed c cs hc hfn hp j hj
        · exact List.getD_eq_default _ _ (hge.trans (Nat.le_of_not_lt hj))
      have hj := hf j
      rw [hempty, List.append_nil] at hj
      exact hj
    · have h := hacc.invoked
      rw [hfn] at h
      simpa using h
  | threw hc hfn =>
    have hacc := head hc
    refine hi.pop hn hc rfl rfl rfl rfl trivial ?_
    have h := hacc.invoked
    rw [hfn] at h
    exact h

end Process.Recorded

/-- What holds in every state. -/
structure Process.Sound (p : Process ς κ φ) : Prop where
  fifo : p.Fifo
  nested : p.Nested
  recorded : p.Recorded

theorem Process.Sound.init : (Process.init : Process ς κ φ).Sound where
  fifo _ := rfl
  nested := by
    refine ⟨List.nodup_nil, ?_, ?_, ?_⟩
    · intro c h
      cases h
    · intro c h
      cases h
    · intro c cs h
      cases h
  recorded := by
    refine ⟨fun _ _ ↦ ⟨rfl, rfl⟩, ?_, ?_, ?_, .nil⟩
    · intro c h
      cases h
    · intro n h
      cases h
    · intro e h
      cases h

theorem Process.sound (h : Reach Process.step anyStep Process.init p) : p.Sound :=
  h.invariant .init fun _ _ _ _ hi _ hs ↦
    have hm := Process.move_of_step hs
    ⟨hi.fifo.move hm, hi.nested.move hm, hi.recorded.move hi.nested hi.fifo hm⟩

/-- What is asked of the scheduler: no command is lost, repeated or overtaken in its queue, and
each is invoked by one call of `run`. That call is not over, and has returned from all its commands
but the one it is invoking; or it has ended, and ended well. -/
structure Process.Orderly (p : Process ς κ φ) : Prop where
  fifo : ∀ j, invokedFrom j p.history ++ p.sched.queue j = enqueuedTo j p.history
  known : ∀ n, invokedBy n p.history ≠ [] →
    (∃ c ∈ p.calls, c.number = n) ∨ ∃ e ∈ p.history, e.Closing ∧ e.call = some n
  accounts : ∀ c ∈ p.calls, c.Accounts p.history
  ends : Closes RunEvent.call RunEvent.Closing EndsWell p.history

/-- Whatever the functions do that `run` invokes, the scheduler is orderly. -/
theorem reentrant_runs (h : Reach Process.step anyStep Process.init p) : p.Orderly := by
  obtain ⟨hf, -, hr⟩ := Process.sound h
  refine ⟨hf, fun n hn ↦ ?_, hr.accounts, hr.ends⟩
  apply hr.known
  by_contra hge
  exact hn (hr.unknown n (Nat.le_of_not_lt hge)).1

/-- A command of stream 0 queues another one for stream 1 and calls `run`, which invokes it, and
returns; a third command throws. -/
theorem reentrant_runs_nested :
    ∃ p : Process Nat Nat Nat, p.ncalls = 3 ∧ p.calls = [] ∧
      invokedBy 0 p.history = [(0, 10)] ∧ invokedBy 1 p.history = [(1, 20)] ∧ p.Orderly := by
  have hrun : (run Process.step (Process.init : Process Nat Nat Nat)
      [.addStream 7, .addStream 8, .enqueue 0 10, .run, .turn, .enqueue 1 20, .run, .turn, .turn,
        .ret 5, .turn, .turn, .turn, .turn, .ret 6, .turn, .turn, .turn, .turn, .turn,
        .enqueue 1 30, .run, .turn, .turn, .throw]).any
      (fun p ↦ p.ncalls = 3 ∧ p.calls.isEmpty = true ∧ invokedBy 0 p.history = [(0, 10)] ∧
        invokedBy 1 p.history = [(1, 20)]) = true := by
    decide
  obtain ⟨p, hp, htest⟩ := Reach.exists_of_run hrun
  obtain ⟨hcount, hcalls, h0, h1⟩ := of_decide_eq_true htest
  exact ⟨p, hcount, List.isEmpty_iff.mp hcalls, h0, h1, reentrant_runs hp⟩

end DmaAccel.Scheduling
