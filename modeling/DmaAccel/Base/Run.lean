import Mathlib.Data.Option.Basic

/-!
# Runs of a partial step function

A system is a partial step function `σ → α → Option σ`: `none` says that the action is not
enabled. `Reach` collects the states of the runs whose every step meets a side condition,
so that plain reachability is the condition `anyStep`. Each invariant is proved by one step
lemma and lifted to runs by `Reach.invariant`; concrete runs are executed by `runChecked`.
-/

namespace DmaAccel.Base

universe u v w

variable {σ : Type u} {α : Type v} {ω : Type w}

/-- States of the runs from `init` all of whose steps meet `ok`. -/
inductive Reach (step : σ → α → Option σ) (ok : σ → α → Prop) (init : σ) : σ → Prop where
  | start : Reach step ok init init
  | next {s s' : σ} {a : α} : Reach step ok init s → ok s a → step s a = some s' →
      Reach step ok init s'

/-- Runs from `init` with the steps they are made of, in order. -/
inductive Trace (step : σ → α → Option σ) (init : σ) : List (σ × α × σ) → σ → Prop where
  | start : Trace step init [] init
  | next {ts : List (σ × α × σ)} {s s' : σ} {a : α} : Trace step init ts s →
      step s a = some s' → Trace step init (ts ++ [(s, a, s')]) s'

/-- The side condition of an unrestricted run. -/
def anyStep (_ : σ) (_ : α) : Prop := True

/-- Execute the actions in order, testing each before it is taken; `none` as soon as a test
fails or an action is not enabled. -/
def runChecked (step : σ → α → Option σ) (check : σ → α → Bool) : σ → List α → Option σ
  | s, [] => some s
  | s, a :: as =>
    if check s a then
      match step s a with
      | some s' => runChecked step check s' as
      | none => none
    else none

/-- Execute the actions in order; `none` as soon as one of them is not enabled. -/
def run (step : σ → α → Option σ) (s : σ) (as : List α) : Option σ :=
  runChecked step (fun _ _ ↦ true) s as

variable {step : σ → α → Option σ} {ok ok' : σ → α → Prop} {init s t : σ}

/-- What holds at the start and survives every admitted step holds in every reached state. -/
theorem Reach.invariant {I : σ → Prop} (h0 : I init)
    (hstep : ∀ s a s', Reach step ok init s → I s → ok s a → step s a = some s' → I s')
    (h : Reach step ok init s) : I s := by
  induction h with
  | start => exact h0
  | next hr hok hs ih => exact hstep _ _ _ hr ih hok hs

/-- Weakening the side condition keeps every reached state. -/
theorem Reach.mono (himp : ∀ s a, ok s a → ok' s a) (h : Reach step ok init s) :
    Reach step ok' init s := by
  induction h with
  | start => exact .start
  | next _ hok hs ih => exact .next ih (himp _ _ hok) hs

/-- A restricted run is in particular an unrestricted one. -/
theorem Reach.any (h : Reach step ok init s) : Reach step anyStep init s :=
  h.mono fun _ _ _ ↦ trivial

/-- Reachability composes. -/
theorem Reach.trans (h : Reach step ok init s) (h' : Reach step ok s t) :
    Reach step ok init t := by
  induction h' with
  | start => exact h
  | next _ hok hs ih => exact .next ih hok hs

/-- Where every state of `P` is in `Q` or has a step to a state of `P` of smaller measure, `Q`
is reached from `P`. -/
theorem Reach.exists_of_measure {P Q : σ → Prop} (m : σ → Nat)
    (hstep : ∀ s, P s → Q s ∨ ∃ a s', ok s a ∧ step s a = some s' ∧ P s' ∧ m s' < m s)
    (h : P s) : ∃ t, Reach step ok s t ∧ Q t := by
  induction hm : m s using Nat.strongRecOn generalizing s with
  | ind n ih =>
    subst hm
    rcases hstep s h with hq | ⟨a, s', hok, hs, hp, hlt⟩
    · exact ⟨s, .start, hq⟩
    · obtain ⟨t, ht, hq⟩ := ih (m s') hlt hp rfl
      exact ⟨t, .trans (.next .start hok hs) ht, hq⟩

/-- A checked execution stays inside the runs of the condition it checks. -/
theorem Reach.of_runChecked {check : σ → α → Bool} (hc : ∀ s a, check s a = true → ok s a)
    {as : List α} (h : runChecked step check init as = some s) : Reach step ok init s := by
  suffices ∀ t, Reach step ok init t → runChecked step check t as = some s →
      Reach step ok init s from this init .start h
  clear h
  induction as with
  | nil =>
    intro t ht h
    cases h
    exact ht
  | cons a as ih =>
    intro t ht h
    simp only [runChecked] at h
    split at h
    · next hk =>
      split at h
      · next s' hs => exact ih s' (.next ht (hc _ _ hk) hs) h
      · cases h
    · cases h

/-- A test that a checked execution passes is passed by a state of the restricted runs. -/
theorem Reach.exists_of_runChecked {check : σ → α → Bool}
    (hc : ∀ s a, check s a = true → ok s a) {as : List α} {p : σ → Bool}
    (h : (runChecked step check init as).any p = true) :
    ∃ s, Reach step ok init s ∧ p s = true := by
  obtain ⟨s, hs, hp⟩ := (Option.any_eq_true p _).mp h
  exact ⟨s, .of_runChecked hc hs, hp⟩

/-- A test that an execution passes is passed by a state the execution reaches. -/
theorem Reach.exists_of_run {as : List α} {p : σ → Bool}
    (h : (run step init as).any p = true) :
    ∃ s, Reach step anyStep init s ∧ p s = true :=
  exists_of_runChecked (fun _ _ _ ↦ trivial) h

/-- The steps of a run of an execution. -/
theorem Trace.of_run {as : List α} {ts : List (σ × α × σ)} (ht : Trace step init ts s)
    (h : run step s as = some t) : ∃ ts', Trace step init ts' t := by
  induction as generalizing s ts with
  | nil =>
    cases h
    exact ⟨ts, ht⟩
  | cons a as ih =>
    simp only [run, runChecked, if_true] at h
    split at h
    · next s' hs => exact ih (ht.next hs) h
    · cases h

/-- The system that keeps a log of what is observed of each step before it is taken. -/
def logStep (obs : σ → α → List ω) (step : σ → α → Option σ) (s : σ × List ω) (a : α) :
    Option (σ × List ω) :=
  (step s.1 a).map fun s' ↦ (s', s.2 ++ obs s.1 a)

/-- A step of the logged system is a step of the system, and extends the log. -/
theorem logStep_eq_some {obs : σ → α → List ω} {x x' : σ × List ω} {a : α}
    (h : logStep obs step x a = some x') :
    step x.1 a = some x'.1 ∧ x'.2 = x.2 ++ obs x.1 a := by
  unfold logStep at h
  obtain ⟨s', hs, rfl⟩ := Option.map_eq_some_iff.mp h
  exact ⟨hs, rfl⟩

end DmaAccel.Base
