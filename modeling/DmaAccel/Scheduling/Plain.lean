import DmaAccel.Scheduling.Reentry

/-!
# Functions that do nothing with the scheduler

Source `track-c/runtime/dma_accel_stream_scheduler.cpp` (21–47). Where the functions that `run`
invokes only submit, a call of `run` takes the steps of `StreamScheduler.run`, also one that is
made while others are in progress; and every call of `run` comes to its end.
-/

namespace DmaAccel.Scheduling

open Base

universe u v w x y

variable {ς : Type u} {κ : Type v} {φ : Type w} {σ : Type x} {ε : Type y}

/-- The next step of a process in which invoking a function is what `call` says. -/
def drive (call : κ → σ → Except ε φ × σ) (x : Process ς κ φ × σ) (_ : Unit) :
    Option (Process ς κ φ × σ) :=
  match x.1.calls with
  | [] => none
  | c :: _ =>
    match c.fn with
    | none => (x.1.step .turn).map (·, x.2)
    | some fn =>
      match call fn x.2 with
      | (.ok f, world) => (x.1.step (.ret f)).map (·, world)
      | (.error _, world) => (x.1.step .throw).map (·, world)

/-- The innermost call of `run` stands where the loop over the streams is at `i`. -/
structure Stands (x : Process ς κ φ × σ) (n : Nat) (cs : List (RunCall κ φ)) (i : Nat)
    (st : StreamRun κ σ φ) : Prop where
  calls : x.1.calls = ⟨n, i, st.progressed, st.results, none⟩ :: cs
  queues : x.1.sched.queues = st.queues
  world : x.2 = st.world

/-- The innermost call invokes `fn`, which it has taken from queue `i`. -/
structure Invokes (x : Process ς κ φ × σ) (n : Nat) (cs : List (RunCall κ φ)) (i : Nat)
    (st : StreamRun κ σ φ) (fn : κ) (rest : List κ) : Prop where
  calls : x.1.calls = ⟨n, i, st.progressed, st.results, some fn⟩ :: cs
  queues : x.1.sched.queues = st.queues.set i rest
  world : x.2 = st.world

/-- The innermost call has ended, and `e` is the last that happened. -/
structure Over (x : Process ς κ φ × σ) (cs : List (RunCall κ φ)) (st : StreamRun κ σ φ)
    (e : RunEvent κ φ) : Prop where
  calls : x.1.calls = cs
  queues : x.1.sched.queues = st.queues
  world : x.2 = st.world
  last : x.1.history.getLast? = some e

section Drive

variable {call : κ → σ → Except ε φ × σ} {X X' : Process ς κ φ × σ} {n i : Nat}
  {cs : List (RunCall κ φ)} {st st' : StreamRun κ σ φ}

/-- Steps of `run`, and the ends of the functions it invokes. -/
def SchedAct.internal : SchedAct ς κ φ → Prop
  | .turn | .ret _ | .throw => True
  | _ => False

/-- Such a step is a step of the process. -/
theorem step_of_drive (h : drive call X () = some X') :
    ∃ a : SchedAct ς κ φ, a.internal ∧ X.1.step a = some X'.1 := by
  unfold drive at h
  split at h
  · cases h
  · split at h
    · obtain ⟨p, hp, rfl⟩ := Option.map_eq_some_iff.mp h
      exact ⟨.turn, trivial, hp⟩
    · split at h
      · next f _ _ =>
        obtain ⟨p, hp, rfl⟩ := Option.map_eq_some_iff.mp h
        exact ⟨.ret f, trivial, hp⟩
      · obtain ⟨p, hp, rfl⟩ := Option.map_eq_some_iff.mp h
        exact ⟨.throw, trivial, hp⟩

/-- As long as a call of `run` is in progress, there is one. -/
theorem exists_drive (call : κ → σ → Except ε φ × σ) (h : X.1.calls ≠ []) :
    ∃ X', drive call X () = some X' := by
  unfold drive
  cases hc : X.1.calls with
  | nil => exact (h hc).elim
  | cons c cs =>
    cases hfn : c.fn with
    | none => exact ⟨(X.1.turn c cs, X.2), by simp [Process.step, hc, hfn]⟩
    | some fn =>
      rcases hr : call fn X.2 with ⟨r, world⟩
      cases r with
      | ok f => simp [Process.step, hc, hfn, hr]
      | error e => simp [Process.step, hc, hfn, hr]

theorem reach_of_drive {p : Process ς κ φ} (hp : Reach Process.step anyStep Process.init p)
    {world : σ} (h : Reach (drive call) anyStep (p, world) X) :
    Reach Process.step anyStep Process.init X.1 := by
  induction h with
  | start => exact hp
  | next _ _ hs ih =>
    obtain ⟨a, -, ha⟩ := step_of_drive hs
    exact ih.next trivial ha

/-- One step. -/
private theorem reach_one (h : drive call X () = some X') : Reach (drive call) anyStep X X' :=
  Reach.next .start trivial h

namespace Stands

/-- A turn of the loop. -/
private theorem turn (h : Stands X n cs i st) :
    drive call X () = some (X.1.turn ⟨n, i, st.progressed, st.results, none⟩ cs, X.2) := by
  unfold drive
  simp only [h.calls, Process.step]
  rfl

private theorem queue (h : Stands X n cs i st) (j : Nat) :
    X.1.sched.queue j = st.queues.getD j [] := by
  unfold StreamQueues.queue
  rw [h.queues]

/-- An empty queue is skipped. -/
private theorem skip (h : Stands X n cs i st) (hi : i < st.queues.length)
    (hq : st.queues.getD i [] = []) :
    ∃ X', Reach (drive call) anyStep X X' ∧ Stands X' n cs (i + 1) st := by
  have hlt : i < X.1.sched.queues.length := by rw [h.queues]; exact hi
  have hturn := @h.turn _ _ _ _ _ call
  unfold Process.turn at hturn
  simp only [if_pos hlt, h.queue, hq] at hturn
  exact ⟨_, reach_one hturn, rfl, h.queues, h.world⟩

/-- The first command of another one is invoked. -/
private theorem invoke (h : Stands X n cs i st) (hi : i < st.queues.length) {fn : κ}
    {rest : List κ} (hq : st.queues.getD i [] = fn :: rest) :
    ∃ X', Reach (drive call) anyStep X X' ∧ Invokes X' n cs i st fn rest := by
  have hlt : i < X.1.sched.queues.length := by rw [h.queues]; exact hi
  have hturn := @h.turn _ _ _ _ _ call
  unfold Process.turn at hturn
  simp only [if_pos hlt, h.queue, hq] at hturn
  exact ⟨_, reach_one hturn, rfl, congrArg (List.set · i rest) h.queues, h.world⟩

end Stands

namespace Invokes

variable {fn : κ} {rest : List κ} {world : σ}

/-- The function returns. -/
private theorem ok (h : Invokes X n cs i st fn rest) {f : φ}
    (hc : call fn st.world = (.ok f, world)) :
    ∃ X', Reach (drive call) anyStep X X' ∧ Stands X' n cs (i + 1) { st with
      queues := st.queues.set i rest, progressed := true
      results := st.results ++ [⟨i, f⟩], world := world } := by
  have hstep : drive call X () = some ({ X.1 with
      calls := ⟨n, i + 1, true, st.results ++ [⟨i, f⟩], none⟩ :: cs
      history := X.1.history ++ [.returned n i fn f] }, world) := by
    unfold drive
    simp only [h.calls, h.world, hc, Process.step]
    rfl
  exact ⟨_, reach_one hstep, rfl, h.queues, rfl⟩

/-- It throws. -/
private theorem error (h : Invokes X n cs i st fn rest) {e : ε}
    (hc : call fn st.world = (.error e, world)) :
    ∃ X', Reach (drive call) anyStep X X' ∧ Over X' cs { st with
      queues := st.queues.set i rest, world := world } (.threw n i fn) := by
  have hstep : drive call X () = some ({ X.1 with
      calls := cs, history := X.1.history ++ [.threw n i fn] }, world) := by
    unfold drive
    simp only [h.calls, h.world, hc, Process.step]
    rfl
  exact ⟨_, reach_one hstep, rfl, h.queues, rfl, List.getLast?_concat⟩

end Invokes

namespace Stands

/-- A visit that does not throw. -/
private theorem visit_ok (h : Stands X n cs i st) (hi : i < st.queues.length)
    (hv : st.visit call i = .ok st') :
    st'.queues.length = st.queues.length ∧
      ∃ X', Reach (drive call) anyStep X X' ∧ Stands X' n cs (i + 1) st' := by
  unfold StreamRun.visit at hv
  cases hq : st.queues.getD i [] with
  | nil =>
    rw [hq] at hv
    cases hv
    exact ⟨rfl, h.skip hi hq⟩
  | cons fn rest =>
    rw [hq] at hv
    simp only at hv
    split at hv
    · cases hv
    · next f world hc =>
      cases hv
      obtain ⟨X₁, h₁, hinv⟩ := h.invoke hi hq
      obtain ⟨X₂, h₂, hst⟩ := hinv.ok hc
      exact ⟨List.length_set, X₂, h₁.trans h₂, hst⟩

/-- A visit that throws. -/
private theorem visit_error (h : Stands X n cs i st) (hi : i < st.queues.length) {e : ε}
    (hv : st.visit call i = .error (e, st')) :
    ∃ X' j fn, Reach (drive call) anyStep X X' ∧ Over X' cs st' (.threw n j fn) := by
  unfold StreamRun.visit at hv
  cases hq : st.queues.getD i [] with
  | nil =>
    rw [hq] at hv
    cases hv
  | cons fn rest =>
    rw [hq] at hv
    simp only at hv
    split at hv
    · next e world hc =>
      cases hv
      obtain ⟨X₁, h₁, hinv⟩ := h.invoke hi hq
      obtain ⟨X₂, h₂, hover⟩ := hinv.error hc
      exact ⟨X₂, i, fn, h₁.trans h₂, hover⟩
    · cases hv

/-- The rest of a round that does not throw. -/
private theorem visits_ok (k : Nat) (h : Stands X n cs i st) (hk : i + k = st.queues.length)
    (hv : StreamRun.visits call (List.range' i k) st = .ok st') :
    st'.queues.length = st.queues.length ∧
      ∃ X', Reach (drive call) anyStep X X' ∧ Stands X' n cs st.queues.length st' := by
  induction k generalizing X i st with
  | zero =>
    cases hv
    rw [Nat.add_zero] at hk
    exact ⟨rfl, X, .start, by rw [← hk]; exact h⟩
  | succ k ih =>
    rw [List.range'_succ] at hv
    unfold StreamRun.visits at hv
    split at hv
    · cases hv
    · next st₁ hs =>
      obtain ⟨hlen, X₁, h₁, hst⟩ := h.visit_ok (by omega) hs
      obtain ⟨hlen', X₂, h₂, hst'⟩ := ih hst (by omega) hv
      rw [hlen] at hlen' hst'
      exact ⟨hlen', X₂, h₁.trans h₂, hst'⟩

/-- The rest of one that does. -/
private theorem visits_error (k : Nat) (h : Stands X n cs i st) (hk : i + k = st.queues.length)
    {e : ε} (hv : StreamRun.visits call (List.range' i k) st = .error (e, st')) :
    ∃ X' j fn, Reach (drive call) anyStep X X' ∧ Over X' cs st' (.threw n j fn) := by
  induction k generalizing X i st with
  | zero => cases hv
  | succ k ih =>
    rw [List.range'_succ] at hv
    unfold StreamRun.visits at hv
    split at hv
    · next x hs =>
      cases hv
      exact h.visit_error (by omega) hs
    · next st₁ hs =>
      obtain ⟨hlen, X₁, h₁, hst⟩ := h.visit_ok (by omega) hs
      obtain ⟨X₂, j, fn, h₂, hover⟩ := ih hst (by omega) hv
      exact ⟨X₂, j, fn, h₁.trans h₂, hover⟩

/-- The end of a round in which something was invoked. -/
private theorem again (h : Stands X n cs i st) (hi : st.queues.length ≤ i)
    (hp : st.progressed = true) :
    ∃ X', Reach (drive call) anyStep X X' ∧ Stands X' n cs 0 { st with progressed := false } := by
  have hge : ¬i < X.1.sched.queues.length := by rw [h.queues]; omega
  have hturn := @h.turn _ _ _ _ _ call
  unfold Process.turn at hturn
  simp only [if_neg hge, if_pos hp] at hturn
  exact ⟨_, reach_one hturn, rfl, h.queues, h.world⟩

/-- The end of the last round. -/
private theorem finish (h : Stands X n cs i st) (hi : st.queues.length ≤ i)
    (hp : st.progressed = false) :
    ∃ X', Reach (drive call) anyStep X X' ∧ Over X' cs st (.ended n st.results) := by
  have hge : ¬i < X.1.sched.queues.length := by rw [h.queues]; omega
  have hturn := @h.turn _ _ _ _ _ call
  unfold Process.turn at hturn
  simp only [if_neg hge, hp, Bool.false_eq_true, if_false] at hturn
  exact ⟨_, reach_one hturn, rfl, h.queues, h.world, List.getLast?_concat⟩

end Stands

end Drive

/-- How a call of `run` ends, with which event. -/
def LastEvent (n : Nat) : Except (ε × StreamRun κ σ φ) (StreamRun κ σ φ) → RunEvent κ φ → Prop
  | .ok st, e => e = .ended n st.results
  | .error _, e => ∃ i fn, e = .threw n i fn

/-- What is left of the queues and the world when `run` ends. -/
def leftBy : Except (ε × StreamRun κ σ φ) (StreamRun κ σ φ) → StreamRun κ σ φ
  | .ok st => st
  | .error x => x.2

section Loop

variable {call : κ → σ → Except ε φ × σ} {X : Process ς κ φ × σ} {n : Nat}
  {cs : List (RunCall κ φ)} {st : StreamRun κ σ φ}

/-- The loop of `run`. -/
theorem Stands.loop {fuel : Nat} {r : Except (ε × StreamRun κ σ φ) (StreamRun κ σ φ)}
    (h : Stands X n cs 0 { st with progressed := false })
    (hr : StreamRun.loop call fuel st = some r) :
    ∃ X' e, Reach (drive call) anyStep X X' ∧ Over X' cs (leftBy r) e ∧ LastEvent n r e := by
  induction fuel generalizing X st with
  | zero => cases hr
  | succ fuel ih =>
    unfold StreamRun.loop at hr
    rw [List.range_eq_range'] at hr
    split at hr
    · next x hv =>
      cases hr
      obtain ⟨X', j, fn, hx, hover⟩ := h.visits_error _ (Nat.zero_add _) hv
      exact ⟨X', _, hx, hover, j, fn, rfl⟩
    · next st₁ hv =>
      obtain ⟨hlen, X₁, h₁, hst⟩ := h.visits_ok _ (Nat.zero_add _) hv
      have hge : st₁.queues.length ≤ st.queues.length := Nat.le_of_eq hlen
      split at hr
      · next hp =>
        obtain ⟨X₂, h₂, hst₂⟩ := hst.again hge hp
        obtain ⟨X₃, e, h₃, hover, hlast⟩ := ih hst₂ hr
        exact ⟨X₃, e, (h₁.trans h₂).trans h₃, hover, hlast⟩
      · next hp =>
        cases hr
        obtain ⟨X₂, h₂, hover⟩ := hst.finish hge (Bool.eq_false_iff.mpr hp)
        exact ⟨X₂, _, h₁.trans h₂, hover, rfl⟩

end Loop

/-- Where the functions only submit, a call of `run` is a run of the plain scheduler on the queues
as they are: it invokes the same commands in the same order, leaves the same queues and returns the
same results, or throws when that does. This is so for a call made by a function that another call
invokes, too, and the calls around it are as they were. -/
theorem run_refines_plain (call : κ → σ → Except ε φ × σ) (fuel : Nat) (p : Process ς κ φ)
    (world : σ) (ho : p.outside = true) (r : Except (ε × StreamRun κ σ φ) (StreamRun κ σ φ))
    (hr : StreamScheduler.run call fuel p.sched.queues world = some r) :
    ∃ p', p.step .run = some p' ∧ ∃ X e, Reach (drive call) anyStep (p', world) X ∧
      Over X p.calls (leftBy r) e ∧ LastEvent p.ncalls r e := by
  refine ⟨_, if_pos ho, ?_⟩
  have hloop : StreamRun.loop call fuel ⟨p.sched.queues, false, [], world⟩ = some r := hr
  exact Stands.loop (by exact ⟨rfl, rfl, rfl⟩) hloop

/-- A submission that returns the number of the submissions made so far. -/
def counting (fn world : Nat) : Except Unit Nat × Nat := (.ok (fn + world), world + 1)

/-- Three commands for two streams. -/
def threeQueued : Process Nat Nat Nat := ⟨⟨[7, 8], [[10, 30], [20]], rfl⟩, [], 0, []⟩

/-- They are submitted in turn. -/
theorem run_refines_plain_three :
    ∃ p', threeQueued.step .run = some p' ∧ ∃ X e, Reach (drive counting) anyStep (p', 0) X ∧
      Over X [] ⟨[[], []], false, [⟨0, 10⟩, ⟨1, 21⟩, ⟨0, 32⟩], 3⟩ e ∧
        e = .ended 0 [⟨0, 10⟩, ⟨1, 21⟩, ⟨0, 32⟩] :=
  run_refines_plain counting 4 threeQueued 0 rfl
    (.ok ⟨[[], []], false, [⟨0, 10⟩, ⟨1, 21⟩, ⟨0, 32⟩], 3⟩) rfl

/-! ### Every call comes to its end -/

/-- Commands in the queues. -/
def Process.queued (p : Process ς κ φ) : Nat := p.sched.queues.flatten.length

/-- Turns that the innermost call can take before it invokes a function or ends. -/
def Process.ahead (p : Process ς κ φ) : Nat :=
  match p.calls with
  | [] => 0
  | c :: _ =>
    if c.fn.isSome then 0
    else p.sched.queues.length - c.i + 1 + if c.progressed then p.sched.queues.length + 1 else 0

/-- Calls that are invoking a function. -/
def Process.invoking (p : Process ς κ φ) : Nat := p.calls.countP (·.fn.isSome)

/-- Bound for the steps to come: two rounds for each function that returns. -/
def Process.left (p : Process ς κ φ) : Nat :=
  (2 * p.sched.queues.length + 4) * p.queued + (2 * p.sched.queues.length + 3) * p.invoking +
    p.ahead

theorem length_flatten_set {qs : List (List κ)} {i : Nat} {fn : κ} {rest : List κ}
    (h : qs.getD i [] = fn :: rest) :
    (qs.set i rest).flatten.length + 1 = qs.flatten.length := by
  induction qs generalizing i with
  | nil => cases h
  | cons q qs ih =>
    cases i with
    | zero =>
      have hq : q = fn :: rest := h
      rw [List.set_cons_zero, List.flatten_cons, List.flatten_cons, hq, List.length_append,
        List.length_append, List.length_cons]
      omega
    | succ i =>
      have hi := ih h
      rw [List.set_cons_succ, List.flatten_cons, List.flatten_cons, List.length_append,
        List.length_append]
      omega

/-- The calls below the innermost one do not move by themselves. -/
theorem ahead_of_waiting {p : Process ς κ φ} (h : ∀ c ∈ p.calls, c.fn ≠ none) : p.ahead = 0 := by
  unfold Process.ahead
  cases hc : p.calls with
  | nil => rfl
  | cons c cs =>
    have hfn := h c (by rw [hc]; exact List.mem_cons_self)
    exact if_pos (Option.isSome_iff_ne_none.mpr hfn)

section Measure

variable {p p' : Process ς κ φ} {a : SchedAct ς κ φ} {c : RunCall κ φ} {cs : List (RunCall κ φ)}

/-- The innermost call takes a turn, or ends. -/
private theorem left_lt_of_turn (hs : p'.sched = p.sched) (hk : p'.invoking = p.invoking)
    (ha : p'.ahead < p.ahead) : p'.left < p.left := by
  have hq : p'.queued = p.queued := by rw [Process.queued, hs, Process.queued]
  rw [Process.left, Process.left, hs, hq, hk]
  omega

/-- It invokes a function. -/
private theorem left_lt_of_invoke (hl : p'.sched.queues.length = p.sched.queues.length)
    (hq : p'.queued + 1 = p.queued) (hk : p'.invoking = p.invoking + 1) (ha : p'.ahead = 0) :
    p'.left < p.left := by
  rw [Process.left, Process.left, hl, ← hq, hk, ha, Nat.mul_add, Nat.mul_add]
  omega

/-- The function is over. -/
private theorem left_lt_of_over (hs : p'.sched = p.sched) (hk : p'.invoking + 1 = p.invoking)
    (ha : p'.ahead ≤ 2 * p.sched.queues.length + 2) : p'.left < p.left := by
  have hq : p'.queued = p.queued := by rw [Process.queued, hs, Process.queued]
  rw [Process.left, Process.left, hs, hq, ← hk, Nat.mul_add]
  omega

private theorem invoking_none (hc : p.calls = c :: cs) (hfn : c.fn = none) :
    p.invoking = cs.countP (·.fn.isSome) := by
  rw [Process.invoking, hc, List.countP_cons_of_neg (by simp [hfn])]

private theorem invoking_some {fn : κ} (hc : p.calls = c :: cs) (hfn : c.fn = some fn) :
    p.invoking = cs.countP (·.fn.isSome) + 1 := by
  rw [Process.invoking, hc, List.countP_cons_of_pos (by simp [hfn])]

private theorem ahead_none (hc : p.calls = c :: cs) (hfn : c.fn = none) :
    p.ahead = p.sched.queues.length - c.i + 1 +
      if c.progressed then p.sched.queues.length + 1 else 0 := by
  unfold Process.ahead
  rw [hc]
  exact if_neg (by simp [hfn])

/-- Every such step leaves less to do. -/
theorem left_lt (hn : p.Nested) (ha : a.internal) (h : p.Move a p') : p'.left < p.left := by
  have below {c : RunCall κ φ} {cs : List (RunCall κ φ)} (hc : p.calls = c :: cs) :
      ∀ d ∈ cs, d.fn ≠ none := by
    have hw := hn.waiting
    rw [hc] at hw
    exact hw
  cases h with
  | addStream | enqueued | refused | run => exact ha.elim
  | skip hc hfn hq hlt =>
    refine left_lt_of_turn rfl ?_ ?_
    · rw [invoking_none hc hfn, invoking_none rfl (by exact hfn)]
    · rw [ahead_none hc hfn, ahead_none rfl (by exact hfn)]
      dsimp only
      omega
  | again hc hfn hge hp =>
    refine left_lt_of_turn rfl ?_ ?_
    · rw [invoking_none hc hfn, invoking_none rfl (by exact hfn)]
    · rw [ahead_none hc hfn, ahead_none rfl (by exact hfn), if_pos hp]
      dsimp only
      rw [if_neg (by decide)]
      omega
  | ended hc hfn hge hp =>
    refine left_lt_of_turn rfl (invoking_none hc hfn).symm ?_
    rw [ahead_of_waiting (by exact below hc), ahead_none hc hfn]
    omega
  | invoke hc hfn hq =>
    refine left_lt_of_invoke List.length_set (length_flatten_set hq) ?_ rfl
    rw [invoking_none hc hfn, invoking_some rfl rfl]
  | returned f hc hfn =>
    refine left_lt_of_over rfl ?_ ?_
    · rw [invoking_some hc hfn, invoking_none rfl rfl]
    · rw [ahead_none rfl rfl]
      dsimp only
      rw [if_pos rfl]
      omega
  | threw hc hfn =>
    refine left_lt_of_over rfl (invoking_some hc hfn).symm ?_
    rw [ahead_of_waiting (by exact below hc)]
    omega

end Measure

/-- In whatever state the scheduler has been used, once the functions it invokes only submit, every
call of `run` that is in progress comes to its end. -/
theorem runs_end (call : κ → σ → Except ε φ × σ) (p : Process ς κ φ)
    (h : Reach Process.step anyStep Process.init p) (world : σ) :
    ∃ X, Reach (drive call) anyStep (p, world) X ∧ X.1.calls = [] := by
  refine Reach.exists_of_measure (P := fun X ↦ X.1.Nested) (fun X ↦ X.1.left) ?_
    (Process.sound h).nested
  intro X hn
  by_cases hc : X.1.calls = []
  · exact .inl hc
  · right
    obtain ⟨X', hX⟩ := exists_drive call hc
    obtain ⟨a, ha, hs⟩ := step_of_drive hX
    have hm := Process.move_of_step hs
    exact ⟨(), X', trivial, hX, hn.move hm, left_lt hn ha hm⟩

/-- Also when a function has called `run` with more commands in the queues. -/
theorem runs_end_nested :
    ∃ p : Process Nat Nat Nat, p.calls.length = 2 ∧
      ∃ X, Reach (drive counting) anyStep (p, 0) X ∧ X.1.calls = [] := by
  have hrun : (run Process.step (Process.init : Process Nat Nat Nat)
      [.addStream 7, .enqueue 0 10, .enqueue 0 20, .run, .turn, .enqueue 0 30, .run]).any
      (fun p ↦ p.calls.length = 2) = true := by
    decide
  obtain ⟨p, hp, htest⟩ := Reach.exists_of_run hrun
  exact ⟨p, of_decide_eq_true htest, runs_end counting p hp 0⟩

end DmaAccel.Scheduling
