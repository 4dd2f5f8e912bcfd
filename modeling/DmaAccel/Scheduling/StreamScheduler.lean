import DmaAccel.Base.Service

/-!
# The stream scheduler

Source `track-c/runtime/dma_accel_stream_scheduler.cpp` (10–47). The queues hold deferred
submissions; `call` is what invoking one does to the rest of the process, which may return a
fence or throw. A throw leaves `run` with the queues as they then are. `run` takes a number
of passes as fuel.
-/

namespace DmaAccel.Scheduling

open Base

universe u v w x

/-- An element of the vector that `run` returns. -/
structure ScheduledResult (φ : Type x) where
  streamIndex : Nat
  fence : φ

/-- The scheduler's `queues_` and the local variables of `run`. -/
structure StreamRun (κ : Type u) (σ : Type v) (φ : Type x) where
  queues : List (List κ)
  progressed : Bool
  results : List (ScheduledResult φ)
  world : σ

variable {κ : Type u} {σ : Type v} {ε : Type w} {φ : Type x}

/-- Body of the inner loop of `run`. -/
def StreamRun.visit (call : κ → σ → Except ε φ × σ) (st : StreamRun κ σ φ) (i : Nat) :
    Except (ε × StreamRun κ σ φ) (StreamRun κ σ φ) :=
  match st.queues.getD i [] with
  | [] => .ok st
  | fn :: rest =>
    let st := { st with queues := st.queues.set i rest }
    match call fn st.world with
    | (.error e, w) => .error (e, { st with world := w })
    | (.ok f, w) => .ok
        { st with world := w, results := st.results ++ [⟨i, f⟩], progressed := true }

/-- The inner loop, over the stream indices still to visit. -/
def StreamRun.visits (call : κ → σ → Except ε φ × σ) :
    List Nat → StreamRun κ σ φ → Except (ε × StreamRun κ σ φ) (StreamRun κ σ φ)
  | [], st => .ok st
  | i :: is, st =>
    match st.visit call i with
    | .error e => .error e
    | .ok st => visits call is st

/-- The outer loop of `run`: passes until one submits nothing. -/
def StreamRun.loop (call : κ → σ → Except ε φ × σ) :
    Nat → StreamRun κ σ φ → Option (Except (ε × StreamRun κ σ φ) (StreamRun κ σ φ))
  | 0, _ => none
  | fuel + 1, st =>
    match StreamRun.visits call (List.range st.queues.length) { st with progressed := false } with
    | .error e => some (.error e)
    | .ok st => if st.progressed then loop call fuel st else some (.ok st)

/-- `StreamScheduler::run` on the given queues. -/
def StreamScheduler.run (call : κ → σ → Except ε φ × σ) (fuel : Nat) (queues : List (List κ))
    (world : σ) : Option (Except (ε × StreamRun κ σ φ) (StreamRun κ σ φ)) :=
  StreamRun.loop call fuel { queues, progressed := false, results := [], world }

/-! ### The service loop behind it -/

/-- The call of a tagged command: the tag plays no part. -/
def tagged (call : κ → σ → Except ε φ × σ) (_ : Nat) (c : κ) : σ → Except ε φ × σ := call c

/-- A state of `run` as a state of the service loop. -/
def StreamRun.served (st : StreamRun κ σ φ) : Served κ σ φ :=
  ⟨st.queues, st.progressed, ⟨st.world, st.results.map fun r ↦ (r.streamIndex, r.fence)⟩⟩

/-- `run` and the service loop are in the same state. -/
def StreamRun.Stands (st : StreamRun κ σ φ) (sv : Served κ σ φ) : Prop := st.served = sv

section Served

variable (call : κ → σ → Except ε φ × σ)

/-- A visit of `run` serves the queue. -/
theorem StreamRun.visit_served (st : StreamRun κ σ φ) (i : Nat) :
    Exits StreamRun.Stands StreamRun.Stands (st.visit call i)
      (serve (tagged call) st.served i) := by
  unfold StreamRun.visit serve
  cases hq : st.queues.getD i [] with
  | nil =>
    simp only [StreamRun.served, hq]
    exact .ok rfl
  | cons fn rest =>
    simp only [StreamRun.served, hq, send, tagged]
    rcases hc : call fn st.world with ⟨r, w⟩
    cases r with
    | error e => exact .error rfl
    | ok f => exact .ok (by simp [StreamRun.Stands, StreamRun.served])

theorem StreamRun.visits_served (is : List Nat) (st : StreamRun κ σ φ) :
    Exits StreamRun.Stands StreamRun.Stands (StreamRun.visits call is st)
      (serveRound (tagged call) is st.served) := by
  induction is generalizing st with
  | nil => exact .ok rfl
  | cons i is ih =>
    have hv := st.visit_served call i
    unfold StreamRun.visits serveRound
    cases hr : st.visit call i with
    | error x =>
      rw [hr] at hv
      obtain ⟨st', hs, rfl⟩ := hv.error_left
      rw [hs]
      exact .error rfl
    | ok st₁ =>
      rw [hr] at hv
      obtain ⟨st', hs, rfl⟩ := hv.ok_left
      rw [hs]
      exact ih st₁

/-- The outer loop of `run` is the service loop. -/
theorem StreamRun.loop_served {fuel : Nat} (st : StreamRun κ σ φ)
    {r' : Except (ε × Served κ σ φ) (Served κ σ φ)}
    (h : serveAll (tagged call) fuel st.served = some r') :
    ∃ r, StreamRun.loop call fuel st = some r ∧ Exits StreamRun.Stands StreamRun.Stands r r' := by
  induction fuel generalizing st with
  | zero => cases h
  | succ fuel ih =>
    have hv : Exits StreamRun.Stands StreamRun.Stands
        (StreamRun.visits call (List.range st.queues.length) { st with progressed := false })
        (serveRound (tagged call) (List.range st.served.queues.length)
          { st.served with progressed := false }) :=
      StreamRun.visits_served call _ { st with progressed := false }
    unfold serveAll at h
    unfold StreamRun.loop
    cases hr : StreamRun.visits call (List.range st.queues.length)
        { st with progressed := false } with
    | error x =>
      rw [hr] at hv
      obtain ⟨st', hs, rfl⟩ := hv.error_left
      rw [hs] at h
      cases h
      exact ⟨_, rfl, .error rfl⟩
    | ok st₁ =>
      rw [hr] at hv
      obtain ⟨st', hs, rfl⟩ := hv.ok_left
      rw [hs] at h
      simp only at h ⊢
      cases hp : st₁.progressed with
      | true =>
        rw [if_pos (by exact hp)] at h
        exact ih st₁ h
      | false =>
        rw [if_neg (by simp [StreamRun.served, hp])] at h
        cases h
        exact ⟨_, rfl, .ok rfl⟩

end Served

/-- With more fuel than the longest queue has commands, `run` ends, and what it has done is
to invoke the commands in round-robin order. -/
theorem StreamScheduler.run_performs (call : κ → σ → Except ε φ × σ) {fuel : Nat}
    {queues : List (List κ)} (world : σ) (hf : longest (queues.map List.length) < fuel) :
    ∃ r r', StreamScheduler.run call fuel queues world = some r ∧
      Exits StreamRun.Stands StreamRun.Stands r r' ∧
      Performs (tagged call) queues ⟨world, []⟩ (items queues) r' := by
  obtain ⟨r', hs, hperf⟩ :=
    serveAll_performs (tagged call) ⟨queues, false, ⟨world, []⟩⟩ hf
  obtain ⟨r, hr, hexit⟩ := StreamRun.loop_served call ⟨queues, false, [], world⟩ hs
  exact ⟨r, r', hr, hexit, hperf⟩

end DmaAccel.Scheduling
