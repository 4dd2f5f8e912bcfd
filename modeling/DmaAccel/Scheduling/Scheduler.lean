import DmaAccel.Scheduling.StreamScheduler

/-!
# The context scheduler

Source `track-b/dma_accel_scheduler.cpp` (35–80). A round dispatches what was pending when
it began, counted by `remaining`; `submit i` is `Context::submit` of the `i`-th Context on
the rest of the process, which may return a fence or throw. A throw leaves `run_round` with
the queues as they then are.
-/

namespace DmaAccel.Scheduling

open Base

universe u v w x

/-- The pending queues of the `entries_` and the local variables of `run_round`. -/
structure Round (κ : Type u) (σ : Type v) (φ : Type x) where
  pending : List (List κ)
  remaining : List Nat
  madeProgress : Bool
  dispatched : List (Nat × φ)
  world : σ

variable {κ : Type u} {σ : Type v} {ε : Type w} {φ : Type x}

/-- Body of the inner loop of `run_round`; `none` is `front()` of an empty deque. -/
def Round.visit (submit : Nat → κ → σ → Except ε φ × σ) (st : Round κ σ φ) (i : Nat) :
    Option (Except (ε × Round κ σ φ) (Round κ σ φ)) :=
  if st.remaining.getD i 0 = 0 then some (.ok st)
  else
    match st.pending.getD i [] with
    | [] => none
    | req :: rest =>
      let st := { st with
        pending := st.pending.set i rest
        remaining := st.remaining.set i (st.remaining.getD i 0 - 1)
        madeProgress := true }
      match submit i req st.world with
      | (.error e, w) => some (.error (e, { st with world := w }))
      | (.ok fence, w) => some (.ok
          { st with world := w, dispatched := st.dispatched ++ [(i, fence)] })

/-- The inner loop, over the Contexts still to visit. -/
def Round.visits (submit : Nat → κ → σ → Except ε φ × σ) :
    List Nat → Round κ σ φ → Option (Except (ε × Round κ σ φ) (Round κ σ φ))
  | [], st => some (.ok st)
  | i :: is, st =>
    match st.visit submit i with
    | some (.ok st) => visits submit is st
    | r => r

/-- The outer loop of `run_round`: passes until one makes no progress. -/
def Round.loop (submit : Nat → κ → σ → Except ε φ × σ) :
    Nat → Round κ σ φ → Option (Except (ε × Round κ σ φ) (Round κ σ φ))
  | 0, _ => none
  | fuel + 1, st =>
    match Round.visits submit (List.range st.pending.length)
        { st with madeProgress := false } with
    | some (.ok st) => if st.madeProgress then loop submit fuel st else some (.ok st)
    | r => r

/-- `Scheduler::run_round` on the given queues. -/
def Scheduler.runRound (submit : Nat → κ → σ → Except ε φ × σ) (fuel : Nat)
    (pending : List (List κ)) (world : σ) : Option (Except (ε × Round κ σ φ) (Round κ σ φ)) :=
  Round.loop submit fuel
    { pending, remaining := pending.map List.length, madeProgress := true, dispatched := [],
      world }

/-! ### The service loop behind it -/

/-- What `run_round` has left and dispatched is what the service loop has; the counters are
the lengths of the queues. -/
structure Round.Left (st : Round κ σ φ) (sv : Served κ σ φ) : Prop where
  pending : st.pending = sv.queues
  remaining : st.remaining = sv.queues.map List.length
  dispatched : st.dispatched = sv.sent.results
  world : st.world = sv.sent.world

/-- `run_round` and the service loop are in the same state. -/
structure Round.Stands (st : Round κ σ φ) (sv : Served κ σ φ) : Prop extends st.Left sv where
  progress : st.madeProgress = sv.progressed

section Served

variable (submit : Nat → κ → σ → Except ε φ × σ)

/-- A visit of `run_round` serves the queue. -/
theorem Round.visit_served {st : Round κ σ φ} {sv : Served κ σ φ} (h : st.Stands sv) (i : Nat) :
    ∃ r, st.visit submit i = some r ∧ Exits Round.Stands Round.Left r (serve submit sv i) := by
  obtain ⟨⟨hp, hr, hd, hw⟩, hm⟩ := h
  unfold Round.visit serve
  rw [hp, hr, getD_length]
  cases hq : sv.queues.getD i [] with
  | nil => exact ⟨_, rfl, .ok ⟨⟨hp, hr, hd, hw⟩, hm⟩⟩
  | cons req rest =>
    have hne : (req :: rest).length ≠ 0 := by simp
    have hlen : (sv.queues.map List.length).set i ((req :: rest).length - 1) =
        (sv.queues.set i rest).map List.length := by
      rw [List.map_set]
      rfl
    rw [if_neg hne, hlen]
    simp only [send, hw]
    rcases hc : submit i req sv.sent.world with ⟨r, w⟩
    cases r with
    | error e => exact ⟨_, rfl, .error ⟨rfl, rfl, hd, rfl⟩⟩
    | ok f => exact ⟨_, rfl, .ok ⟨⟨rfl, rfl, by simp only [hd], rfl⟩, rfl⟩⟩

theorem Round.visits_served (is : List Nat) {st : Round κ σ φ} {sv : Served κ σ φ}
    (h : st.Stands sv) :
    ∃ r, Round.visits submit is st = some r ∧
      Exits Round.Stands Round.Left r (serveRound submit is sv) := by
  induction is generalizing st sv with
  | nil => exact ⟨_, rfl, .ok h⟩
  | cons i is ih =>
    obtain ⟨r, hv, hexit⟩ := Round.visit_served submit h i
    unfold Round.visits serveRound
    rw [hv]
    cases r with
    | error x =>
      obtain ⟨sv', hs, hleft⟩ := hexit.error_left
      rw [hs]
      exact ⟨_, rfl, .error hleft⟩
    | ok st₁ =>
      obtain ⟨sv', hs, hstands⟩ := hexit.ok_left
      rw [hs]
      exact ih hstands

/-- The outer loop of `run_round` is the service loop. -/
theorem Round.loop_served {fuel : Nat} {st : Round κ σ φ} {sv : Served κ σ φ}
    (h : st.Left sv) {r' : Except (ε × Served κ σ φ) (Served κ σ φ)}
    (hs : serveAll submit fuel sv = some r') :
    ∃ r, Round.loop submit fuel st = some r ∧ Exits Round.Stands Round.Left r r' := by
  induction fuel generalizing st sv with
  | zero => cases hs
  | succ fuel ih =>
    have hstart : ({ st with madeProgress := false } : Round κ σ φ).Stands
        { sv with progressed := false } := ⟨⟨h.pending, h.remaining, h.dispatched, h.world⟩, rfl⟩
    obtain ⟨r, hv, hexit⟩ := Round.visits_served submit (List.range sv.queues.length) hstart
    have hlen : st.pending.length = sv.queues.length := by rw [h.pending]
    unfold serveAll at hs
    unfold Round.loop
    rw [hlen, hv]
    cases r with
    | error x =>
      obtain ⟨sv', hr, hleft⟩ := hexit.error_left
      rw [hr] at hs
      cases hs
      exact ⟨_, rfl, .error hleft⟩
    | ok st₁ =>
      obtain ⟨sv', hr, hstands⟩ := hexit.ok_left
      rw [hr] at hs
      simp only [hstands.progress] at hs ⊢
      cases hp : sv'.progressed with
      | true =>
        rw [hp, if_pos rfl] at hs
        exact ih hstands.toLeft hs
      | false =>
        rw [hp, if_neg (by simp)] at hs
        cases hs
        exact ⟨_, rfl, .ok hstands⟩

end Served

/-- With more fuel than the longest queue has requests, `run_round` ends without taking from
an empty queue, and what it has done is to dispatch the requests in round-robin order. -/
theorem Scheduler.runRound_performs (submit : Nat → κ → σ → Except ε φ × σ) {fuel : Nat}
    {pending : List (List κ)} (world : σ) (hf : longest (pending.map List.length) < fuel) :
    ∃ r r', Scheduler.runRound submit fuel pending world = some r ∧
      Exits Round.Stands Round.Left r r' ∧
      Performs submit pending ⟨world, []⟩ (items pending) r' := by
  obtain ⟨r', hs, hperf⟩ := serveAll_performs submit ⟨pending, false, ⟨world, []⟩⟩ hf
  have hleft : (⟨pending, pending.map List.length, true, [], world⟩ : Round κ σ φ).Left
      ⟨pending, false, ⟨world, []⟩⟩ := ⟨rfl, rfl, rfl, rfl⟩
  obtain ⟨r, hr, hexit⟩ := Round.loop_served submit hleft hs
  exact ⟨r, r', hr, hexit, hperf⟩

end DmaAccel.Scheduling
