import DmaAccel.Runtime.Pump
import DmaAccel.Timed.Turns

/-!
# The timed wait and the Stream's machine

The clock and the timeouts only decide which way the Stream goes: a call of `Stream::wait` that
ends takes its machine through steps that the untimed model has. The entries of a session's
ring are those that `read()` has not taken yet, and a fence that is not ready is registered.
-/

namespace DmaAccel.Timed

open DmaAccel.Base
open DmaAccel.Driver (Completion)
open DmaAccel.Runtime (Machine Fid Host Cont batchSize)

section Pump

variable {m : Machine}

/-- Delivery does not look at the program counter. -/
theorem foldl_deliver_pc (batch : List Completion) (m : Machine) (pc : Runtime.Pc) :
    batch.foldl Machine.deliver { m with pc := pc } =
      { batch.foldl Machine.deliver m with pc := pc } := by
  induction batch generalizing m with
  | nil => rfl
  | cons c batch ih =>
    have hone : ({ m with pc := pc } : Machine).deliver c = { m.deliver c with pc := pc } := by
      unfold Machine.deliver
      cases hc : m.stream.outstanding c.cmdId <;> rfl
    rw [List.foldl_cons, List.foldl_cons, hone, ih]

/-- One step of the machine. -/
theorem reach_one {m m' : Machine} {l : Runtime.Label} (h : m.step l = some m') :
    Reach Machine.step anyStep m m' :=
  .next .start trivial h

/-- `pump()` reads what is in the ring, in batches, up to the first short one. -/
theorem reach_pump (hfd : m.stream.fd.isSome = true) (c : Cont) (ring : List Completion) :
    Reach Machine.step anyStep { m with pc := .read c }
      { ring.foldl Machine.deliver m with pc := .test c } := by
  induction hn : ring.length using Nat.strong_induction_on generalizing m ring with
  | _ n ih =>
    by_cases hnil : ring = []
    · subst hnil
      apply reach_one (l := .readEagain)
      simp [Machine.step, hfd]
    · by_cases hlt : ring.length < batchSize
      · apply reach_one (l := .readBatch ring)
        simp only [Machine.step]
        rw [if_pos ⟨hfd, hnil, Nat.le_of_lt hlt⟩, if_pos hlt, foldl_deliver_pc]
      · have htake : (ring.take batchSize).length = batchSize := by
          rw [List.length_take]
          omega
        have hne : ring.take batchSize ≠ [] := by
          intro h
          rw [h] at htake
          cases htake
        have hstep : ({ m with pc := .read c } : Machine).step
            (.readBatch (ring.take batchSize)) =
              some { (ring.take batchSize).foldl Machine.deliver m with pc := .read c } := by
          simp only [Machine.step]
          rw [if_pos ⟨hfd, hne, Nat.le_of_eq htake⟩, if_neg (by omega), foldl_deliver_pc]
        have hdrop : (ring.drop batchSize).length < n := by
          have hpos : 0 < batchSize := by decide
          rw [List.length_drop]
          omega
        have hfd' : ((ring.take batchSize).foldl Machine.deliver m).stream.fd.isSome = true := by
          rw [(Machine.delivered_foldl m _).fd]
          exact hfd
        have hrest := ih _ hdrop hfd' (ring.drop batchSize) rfl
        rw [← List.foldl_append, List.take_append_drop] at hrest
        exact (reach_one hstep).trans hrest

end Pump

section Wait

variable {env : Env} {m : Machine} {f : Fid} {t : Int}

/-- `m` at the place `pc` of a call. -/
def stand (m : Machine) (pc : Runtime.Pc) : Machine := { m with pc := pc }

/-- The call has come to its end. -/
def Waited.ended (r : Waited) : Prop := r.result ≠ .blocked ∧ r.result ≠ .running

theorem stand_idle (h : m.pc = .idle) : stand m .idle = m := by
  rw [stand, ← h]

/-- A step by which a call returns, from one place of it, leaves the machine as it was. -/
theorem reach_return {l : Runtime.Label} {pc : Runtime.Pc} (hpc : m.pc = .idle)
    (h : (stand m pc).step l = some (stand m .idle)) :
    Reach Machine.step anyStep (stand m pc) m := by
  have hstep := reach_one h
  rw [stand_idle hpc] at hstep
  exact hstep

theorem step_test_ready (h : m.ready f = true) :
    (stand m (.test (.wait f t))).step .test = some (stand m .idle) :=
  if_pos h

theorem step_test_poll (h : m.ready f = false) :
    (stand m (.test (.wait f t))).step .test = some (stand m (.poll (.wait f t))) :=
  if_neg (by simpa [Machine.ready, stand] using h)

theorem step_expired (h : m.ready f = false) (ht : 0 ≤ t) :
    (stand m (.test (.wait f t))).step .expired = some (stand m .idle) :=
  if_pos ⟨h, ht⟩

theorem step_pollTimeout (ht : 0 ≤ t) :
    (stand m (.poll (.wait f t))).step .pollTimeout = some (stand m .idle) :=
  if_pos ht

theorem step_pollReady (h : m.stream.fd.isSome = true) :
    (stand m (.poll (.wait f t))).step .pollReady = some (stand m (.read (.wait f t))) :=
  if_pos h

/-- The loop of `wait` takes the machine through its own steps. -/
theorem reach_waitLoop {deadline : Option Int} (hdead : deadline ≠ none → 0 ≤ t) (fuel : Nat)
    (w : World) (polls : List Int) (hfd : w.mach.stream.fd.isSome = true)
    (hpc : w.mach.pc = .idle)
    (hend : (Stream.waitLoop env f deadline fuel w polls).ended) :
    Reach Machine.step anyStep (stand w.mach (.test (.wait f t)))
      (Stream.waitLoop env f deadline fuel w polls).world.mach := by
  induction fuel generalizing w polls with
  | zero => exact absurd rfl hend.2
  | succ fuel ih =>
    rw [Stream.waitLoop] at hend ⊢
    cases hr : w.ready f with
    | true =>
      rw [if_pos rfl]
      exact reach_return hpc (step_test_ready hr)
    | false =>
      rw [hr, if_neg (by simp)] at hend
      rw [if_neg (by simp)]
      rcases hpt : w.pollTimeout env deadline with ⟨o, w₁⟩
      rw [hpt] at hend
      have hm₁ : w₁.mach = w.mach := by
        have h := pollTimeout_mach env deadline w
        rw [hpt] at h
        exact h
      cases o with
      | none =>
        have ht : 0 ≤ t := by
          apply hdead
          rintro rfl
          simp [World.pollTimeout] at hpt
        simp only [hm₁]
        exact reach_return hpc (step_expired hr ht)
      | some timeout =>
        apply (reach_one (step_test_poll hr)).trans
        simp only at hend ⊢
        rcases hp : w₁.poll env timeout with ⟨answer, w₂⟩
        rw [hp] at hend
        have hm₂ : w₂.mach = w.mach := by
          have h := poll_mach env timeout w₁
          rw [hp] at h
          exact h.trans hm₁
        have hfd₂ : w₂.mach.stream.fd.isSome = true := by
          rw [hm₂]
          exact hfd
        cases answer with
        | eintr =>
          rw [← hm₂]
          apply (reach_one (l := .pollEintr) rfl).trans
          exact ih w₂ _ hfd₂ (by rw [hm₂]; exact hpc) hend
        | error =>
          simp only [hm₂]
          exact reach_return hpc (l := .pollError) rfl
        | blocks => exact absurd rfl hend.1
        | timedOut =>
          have ht : 0 ≤ t := by
            apply hdead
            rintro rfl
            have h0 : 0 ≤ timeout := timeout_of_timedOut (by rw [hp])
            simp only [World.pollTimeout, Prod.mk.injEq, Option.some.injEq] at hpt
            omega
          simp only [hm₂]
          exact reach_return hpc (step_pollTimeout ht)
        | ready =>
          apply (reach_one (step_pollReady hfd)).trans
          simp only at hend ⊢
          cases hpump : w₂.pump env with
          | none =>
            simp only [hm₂]
            exact reach_return hpc (l := .readError) rfl
          | some w₃ =>
            rw [hpump] at hend
            obtain ⟨entries, hm₃⟩ := pump_mach hpump
            rw [hm₂] at hm₃
            have hdel := Machine.delivered_foldl w.mach entries
            have hnext := reach_pump hfd (.wait f t) entries
            rw [← hm₃] at hnext hdel
            exact hnext.trans (ih w₃ _ (by rw [hdel.fd]; exact hfd) (hdel.pc.trans hpc) hend)

/-- A call of `wait` that ends takes the machine of an idle Stream through its own steps. -/
theorem reach_wait {w : World} (hfd : w.mach.stream.fd.isSome = true) (hpc : w.mach.pc = .idle)
    (hf : f < w.mach.heap.size) (fuel : Nat) (hend : (Stream.wait env fuel w f t).ended) :
    Reach Machine.step anyStep w.mach (Stream.wait env fuel w f t).world.mach := by
  have hcall : Reach Machine.step anyStep w.mach (stand w.mach (.test (.wait f t))) :=
    reach_one (l := .wait f t) (if_pos ⟨hpc, hf⟩)
  unfold Stream.wait at hend ⊢
  split
  · exact .start
  · next hr =>
    rw [if_neg hr] at hend
    apply hcall.trans
    have hdead : (w.now env).deadline t ≠ none → 0 ≤ t := by
      intro h
      by_contra hneg
      exact h (by simp [World.deadline, hneg])
    exact reach_waitLoop hdead fuel (w.now env) [] hfd hpc hend

end Wait

/-- A Stream on top of the driver, seen from its waiting thread at a given time. -/
def ofHost (w : Host) (time : Int) : World := ⟨w.mach, w.unread, time, 0⟩

/-- A fence of a Stream that is not ready is registered, so that an entry with its `cmd_id` in
the ring of the session announces it. -/
theorem announced_of_unread {w : Host} (h : w.Reachable) {f : Fid} (hf : f < w.mach.heap.size)
    (hr : w.mach.ready f = false) {c : Completion} (hc : c ∈ w.unread)
    (hid : c.cmdId = (w.mach.heap.fences f).cmdId) (time : Int) :
    (ofHost w time).Announced f := by
  refine ⟨c, hc, ?_⟩
  change w.mach.stream.outstanding c.cmdId = some f
  rw [hid]
  exact ((Runtime.hostInv h).table.pending f hf hr).2

end DmaAccel.Timed
