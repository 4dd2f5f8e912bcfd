import DmaAccel.Base.Run
import Mathlib.Logic.Function.Basic

/-!
# A bounded queue that threads share

What a concurrent queue is to be taken for: a list, oldest item first, which each call changes at
one moment between its start and its return. A call of `push` may be refused where the queue is
full, one of `pop` where it is empty, and each also while a call of the other kind that has had its
effect has not returned. The calls and their results are logged. `Reach.refine` carries a step by
step simulation to the runs.
-/

namespace DmaAccel.Base

universe u v w

/-- The start or the return of a call. -/
inductive CallEvent (α : Type u) where
  | push (t : Nat) (x : α)
  | pop (t : Nat)
  | pushed (t : Nat) (ok : Bool)
  | popped (t : Nat) (r : Option α)
  deriving DecidableEq

/-- Where a thread stands. -/
inductive CallPc (α : Type u) where
  | idle
  | pushing (x : α)
  | pushed
  | popping
  | popped (x : α)

/-- A pop that has had its effect. -/
def CallPc.hasPopped {α : Type u} : CallPc α → Bool
  | .popped _ => true
  | _ => false

/-- A push that has had its effect. -/
def CallPc.hasPushed {α : Type u} : CallPc α → Bool
  | .pushed => true
  | _ => false

/-- The queue, the threads and the log. -/
structure SharedQueue (α : Type u) where
  items : List α
  threads : Nat → CallPc α
  log : List (CallEvent α)

/-- A call starts, has its effect, returns or is refused. -/
inductive QueueAct (α : Type u) where
  | push (t : Nat) (x : α)
  | pop (t : Nat)
  | enq (t : Nat)
  | deq (t : Nat)
  | ret (t : Nat)
  | refuse (t other : Nat)

namespace SharedQueue

variable {α : Type u}

/-- Nothing is in the queue and no call in progress. -/
def init : SharedQueue α := ⟨[], fun _ ↦ .idle, []⟩

/-- A thread goes on. -/
def setPc (q : SharedQueue α) (t : Nat) (pc : CallPc α) : SharedQueue α :=
  { q with threads := Function.update q.threads t pc }

/-- A call starts or returns. -/
def logged (q : SharedQueue α) (e : CallEvent α) : SharedQueue α := { q with log := q.log ++ [e] }

/-- The steps of a queue of a capacity. -/
def step (capacity : Nat) (q : SharedQueue α) : QueueAct α → Option (SharedQueue α)
  | .push t x =>
    match q.threads t with
    | .idle => some ((q.setPc t (.pushing x)).logged (.push t x))
    | _ => none
  | .pop t =>
    match q.threads t with
    | .idle => some ((q.setPc t .popping).logged (.pop t))
    | _ => none
  | .enq t =>
    match q.threads t with
    | .pushing x =>
      if q.items.length < capacity then
        some { q.setPc t .pushed with items := q.items ++ [x] }
      else none
    | _ => none
  | .deq t =>
    match q.threads t, q.items with
    | .popping, x :: rest => some { q.setPc t (.popped x) with items := rest }
    | _, _ => none
  | .ret t =>
    match q.threads t with
    | .pushed => some ((q.setPc t .idle).logged (.pushed t true))
    | .popped x => some ((q.setPc t .idle).logged (.popped t (some x)))
    | _ => none
  | .refuse t other =>
    match q.threads t with
    | .pushing _ =>
      if q.items.length = capacity ∨ (q.threads other).hasPopped then
        some ((q.setPc t .idle).logged (.pushed t false))
      else none
    | .popping =>
      if q.items = [] ∨ (q.threads other).hasPushed then
        some ((q.setPc t .idle).logged (.popped t none))
      else none
    | _ => none

theorem of_step_push {capacity t : Nat} {q q' : SharedQueue α} {x : α}
    (h : q.step capacity (.push t x) = some q') :
    q.threads t = .idle ∧ q' = (q.setPc t (.pushing x)).logged (.push t x) := by
  simp only [step] at h
  split at h <;> cases h
  case h_1 ht => exact ⟨ht, rfl⟩

theorem of_step_pop {capacity t : Nat} {q q' : SharedQueue α}
    (h : q.step capacity (.pop t) = some q') :
    q.threads t = .idle ∧ q' = (q.setPc t .popping).logged (.pop t) := by
  simp only [step] at h
  split at h <;> cases h
  case h_1 ht => exact ⟨ht, rfl⟩

/-- What a thread's call comes to when it has its effect, returns or is refused. -/
inductive Effect (capacity : Nat) (q : SharedQueue α) (t : Nat) : SharedQueue α → Prop where
  | enq (x : α) : q.threads t = .pushing x → q.items.length < capacity →
      Effect capacity q t { q.setPc t .pushed with items := q.items ++ [x] }
  | deq (x : α) (rest : List α) : q.threads t = .popping → q.items = x :: rest →
      Effect capacity q t { q.setPc t (.popped x) with items := rest }
  | pushed : q.threads t = .pushed →
      Effect capacity q t ((q.setPc t .idle).logged (.pushed t true))
  | popped (x : α) : q.threads t = .popped x →
      Effect capacity q t ((q.setPc t .idle).logged (.popped t (some x)))
  | full (x : α) (other : Nat) : q.threads t = .pushing x →
      (q.items.length = capacity ∨ (q.threads other).hasPopped) →
      Effect capacity q t ((q.setPc t .idle).logged (.pushed t false))
  | empty (other : Nat) : q.threads t = .popping →
      (q.items = [] ∨ (q.threads other).hasPushed) →
      Effect capacity q t ((q.setPc t .idle).logged (.popped t none))

/-- An effect is a step. -/
theorem Effect.step {capacity t : Nat} {q q' : SharedQueue α} (h : Effect capacity q t q') :
    ∃ a, q.step capacity a = some q' := by
  cases h with
  | enq x ht hlt => exact ⟨.enq t, by simp only [SharedQueue.step, ht, if_pos hlt]⟩
  | deq x rest ht hitems => exact ⟨.deq t, by simp only [SharedQueue.step, ht, hitems]⟩
  | pushed ht => exact ⟨.ret t, by simp only [SharedQueue.step, ht]⟩
  | popped x ht => exact ⟨.ret t, by simp only [SharedQueue.step, ht]⟩
  | full x other ht hwhy =>
    exact ⟨.refuse t other, by simp only [SharedQueue.step, ht, if_pos hwhy]⟩
  | empty other ht hwhy =>
    exact ⟨.refuse t other, by simp only [SharedQueue.step, ht, if_pos hwhy]⟩

end SharedQueue

section Refine

variable {σ : Type u} {α : Type v} {τ : Type u} {β : Type w} {step : σ → α → Option σ}
  {spec : τ → β → Option τ} {init s : σ} {I : σ → Prop}

/-- A system refines a specification where each of its steps is one of the specification or
none, in the states that an invariant describes. -/
theorem Reach.refine (abs : σ → τ) (h0 : I init)
    (hstep : ∀ s a s', I s → step s a = some s' →
      I s' ∧ (abs s' = abs s ∨ ∃ b, spec (abs s) b = some (abs s')))
    (h : Reach step anyStep init s) : I s ∧ Reach spec anyStep (abs init) (abs s) := by
  induction h with
  | start => exact ⟨h0, .start⟩
  | next _ _ hs ih =>
    obtain ⟨hi, hr⟩ := ih
    obtain ⟨hi', habs | ⟨b, hb⟩⟩ := hstep _ _ _ hi hs
    · exact ⟨hi', by rwa [habs]⟩
    · exact ⟨hi', .next hr trivial hb⟩

end Refine

end DmaAccel.Base
