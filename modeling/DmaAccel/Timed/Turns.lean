import DmaAccel.Timed.World

/-!
# Turn by turn

A turn of the loop of `Stream::wait` asks for the time, then for `poll()`, and unless that was
interrupted reads the ring. With the completion of its fence in the ring a call can only end
in three ways: the deadline is found to have passed while all polls so far were interrupted,
the first poll that is not interrupted is followed by a read that finds the completion, or one
of these two fails.
-/

namespace DmaAccel.Timed

open DmaAccel.Driver (Completion)
open DmaAccel.Runtime (Machine Fid)

/-- Time that `n` events from the `i`-th on take. -/
def elapsed (env : Env) : Nat → Nat → Nat
  | _, 0 => 0
  | i, n + 1 => (env i).delay + elapsed env (i + 1) n

/-- In a loop that begins with question `i`, the first `n` polls are interrupted. -/
def Interrupted (env : Env) (i n : Nat) : Prop :=
  ∀ j < n, (env (i + 2 * j + 1)).fault = .interrupted

/-- In a loop that begins with question `i`, the test of turn `n` is made before the budget is
spent, all polls before it are interrupted, and its own poll and read do not fail. -/
def Reads (env : Env) (i : Nat) (budget : Int) : Prop :=
  ∃ n, Interrupted env i n ∧ (env (i + 2 * n + 1)).fault = .none ∧
    (env (i + 2 * n + 2)).fault = .none ∧ (elapsed env i (2 * n + 1) : Int) < budget

/-- In a loop that begins with question `i`, the test of turn `n` finds the budget spent, and
all polls before it are interrupted. -/
def Expires (env : Env) (i : Nat) (budget : Int) : Prop :=
  ∃ n, Interrupted env i n ∧ budget ≤ (elapsed env i (2 * n + 1) : Int)

/-- The completion of `f` is in the ring: an entry whose `cmd_id` the Stream has registered for
`f`. -/
def World.Announced (w : World) (f : Fid) : Prop :=
  ∃ c ∈ w.ring, w.mach.stream.outstanding c.cmdId = some f

section Conditions

variable {env : Env} {i n : Nat} {budget : Int}

theorem Interrupted.zero : Interrupted env i 0 := fun _ h ↦ absurd h (Nat.not_lt_zero _)

theorem Interrupted.succ (h0 : (env (i + 1)).fault = .interrupted)
    (h : Interrupted env (i + 2) n) : Interrupted env i (n + 1) := by
  intro j hj
  cases j with
  | zero => exact h0
  | succ j =>
    have hlt : j < n := by omega
    have he : i + 2 * (j + 1) + 1 = i + 2 + 2 * j + 1 := by omega
    rw [he]
    exact h j hlt

theorem Interrupted.tail (h : Interrupted env i (n + 1)) :
    (env (i + 1)).fault = .interrupted ∧ Interrupted env (i + 2) n := by
  refine ⟨h 0 (Nat.succ_pos n), fun j hj ↦ ?_⟩
  have he : i + 2 + 2 * j + 1 = i + 2 * (j + 1) + 1 := by omega
  rw [he]
  exact h (j + 1) (by omega)

/-- Two more questions in front. -/
theorem elapsed_turn (n : Nat) : elapsed env i (2 * (n + 1) + 1) =
    (env i).delay + (env (i + 1)).delay + elapsed env (i + 2) (2 * n + 1) := by
  have he : 2 * (n + 1) + 1 = 2 * n + 1 + 1 + 1 := by omega
  rw [he, elapsed, elapsed, ← Nat.add_assoc]

theorem elapsed_one : elapsed env i 1 = (env i).delay := by
  simp [elapsed]

/-- Conditions on the next turn, before which one poll is interrupted. -/
theorem Expires.next (h0 : (env (i + 1)).fault = .interrupted)
    (h : Expires env (i + 2) (budget - (env i).delay - (env (i + 1)).delay)) :
    Expires env i budget := by
  obtain ⟨n, hn, hb⟩ := h
  refine ⟨n + 1, .succ h0 hn, ?_⟩
  rw [elapsed_turn]
  omega

theorem Reads.next (h0 : (env (i + 1)).fault = .interrupted)
    (h : Reads env (i + 2) (budget - (env i).delay - (env (i + 1)).delay)) :
    Reads env i budget := by
  obtain ⟨n, hn, hp, hr, hb⟩ := h
  refine ⟨n + 1, .succ h0 hn, ?_, ?_, ?_⟩
  · have he : i + 2 * (n + 1) + 1 = i + 2 + 2 * n + 1 := by omega
    rw [he]
    exact hp
  · have he : i + 2 * (n + 1) + 2 = i + 2 + 2 * n + 2 := by omega
    rw [he]
    exact hr
  · rw [elapsed_turn]
    omega

end Conditions

section Delivery

variable {m : Machine} {f : Fid}

/-- An entry registered for `f` makes it ready, wherever it stands in the batch. -/
theorem ready_of_registered {batch : List Completion}
    (h : ∃ c ∈ batch, m.stream.outstanding c.cmdId = some f) :
    (batch.foldl Machine.deliver m).ready f = true := by
  induction batch generalizing m with
  | nil =>
    obtain ⟨c, hc, -⟩ := h
    cases hc
  | cons d batch ih =>
    obtain ⟨c, hc, hf⟩ := h
    by_cases hd : m.stream.outstanding d.cmdId = some f
    · have hready : (m.deliver d).ready f = true := by
        simp [Machine.deliver, hd, Machine.ready, Runtime.Heap.complete]
      exact (Machine.delivered_foldl (m.deliver d) batch).ready f hready
    · have hne : c.cmdId ≠ d.cmdId := by
        intro he
        rw [he] at hf
        exact hd hf
      have hmem : c ∈ batch := by
        rcases List.mem_cons.mp hc with rfl | hc
        · exact absurd rfl hne
        · exact hc
      have hstill : (m.deliver d).stream.outstanding c.cmdId = some f := by
        unfold Machine.deliver
        split
        · simp [Function.update_of_ne hne, hf]
        · exact hf
      exact ih ⟨c, hmem, hstill⟩

end Delivery

namespace World

variable {env : Env} {w : World} {f : Fid} {e : Event}

@[simp] theorem pass_ready : (w.pass e).ready f = w.ready f := rfl

@[simp] theorem now_ready : (w.now env).ready f = w.ready f := rfl

theorem Announced.pass (h : w.Announced f) (e : Event) : (w.pass e).Announced f := by
  obtain ⟨c, hc, hf⟩ := h
  exact ⟨c, List.mem_append_left _ hc, hf⟩

theorem Announced.now (h : w.Announced f) : (w.now env).Announced f := h.pass _

/-- With an entry in the ring, `poll()` neither times out nor blocks. -/
theorem Announced.poll (h : w.Announced f) (env : Env) (timeout : Int) :
    ((env w.asked).fault = .interrupted ∧ w.poll env timeout = (.eintr, w.pass (env w.asked))) ∨
    ((env w.asked).fault = .failed ∧ w.poll env timeout = (.error, w.pass (env w.asked))) ∨
    ((env w.asked).fault = .none ∧ w.poll env timeout = (.ready, w.pass (env w.asked))) := by
  obtain ⟨c, hc, -⟩ := h
  have hne : w.ring ++ (env w.asked).arrived ≠ [] := by
    intro hnil
    rw [(List.append_eq_nil_iff.mp hnil).1] at hc
    cases hc
  unfold World.poll
  cases hf : (env w.asked).fault with
  | interrupted => exact .inl ⟨rfl, rfl⟩
  | failed => exact .inr (.inl ⟨rfl, rfl⟩)
  | none =>
    exact .inr (.inr ⟨rfl, if_pos hne⟩)

/-- Every fence that is ready or announced in `w` is ready in `w'`. -/
def Settles (w w' : World) : Prop := ∀ g, w.ready g = true ∨ w.Announced g → w'.ready g = true

/-- A read that does not fail makes every announced fence ready. -/
theorem pump_cases (env : Env) (w : World) :
    ((env w.asked).fault = .none ∧ ∃ w', w.pump env = some w' ∧ w.Settles w') ∨
    ((env w.asked).fault ≠ .none ∧ w.pump env = none) := by
  unfold World.pump
  cases he : (env w.asked).fault with
  | none =>
    refine .inl ⟨rfl, _, rfl, ?_⟩
    rintro g (hg | ⟨c, hc, hg⟩)
    · exact (Machine.delivered_foldl w.mach _).ready g hg
    · exact ready_of_registered ⟨c, List.mem_append_left _ hc, hg⟩
  | interrupted => exact .inr ⟨by simp, rfl⟩
  | failed => exact .inr ⟨by simp, rfl⟩

end World

section Kernel

theorem castInt_of_lt {n : Int} (h0 : 0 ≤ n) (h : n < 2 ^ 31) : castInt n = n := by
  unfold castInt
  rw [Int.bmod_eq_of_le] <;> omega

theorem castInt_lt (n : Int) : castInt n < 2 ^ 31 := by
  have h := Int.bmod_lt (x := n) (m := 2 ^ 32) (by decide)
  unfold castInt
  omega

/-- Nothing but `pump()` changes the machine of a Stream. -/
theorem poll_mach (env : Env) (timeout : Int) (w : World) :
    (w.poll env timeout).2.mach = w.mach := by
  unfold World.poll
  cases (env w.asked).fault with
  | none =>
    simp only
    split
    · rfl
    · split <;> rfl
  | interrupted => rfl
  | failed => rfl

theorem pollTimeout_mach (env : Env) (deadline : Option Int) (w : World) :
    (w.pollTimeout env deadline).2.mach = w.mach := by
  unfold World.pollTimeout
  cases deadline with
  | none => rfl
  | some d =>
    simp only
    split <;> rfl

/-- What `pump()` makes of the machine. -/
theorem pump_mach {env : Env} {w w' : World} (h : w.pump env = some w') :
    ∃ entries : List Completion, w'.mach = entries.foldl Machine.deliver w.mach := by
  unfold World.pump at h
  split at h
  · cases h
    exact ⟨_, rfl⟩
  · cases h

/-- `poll()` times out only when it was given a timeout. -/
theorem timeout_of_timedOut {env : Env} {timeout : Int} {w : World}
    (h : (w.poll env timeout).1 = .timedOut) : 0 ≤ timeout := by
  unfold World.poll at h
  cases hf : (env w.asked).fault with
  | interrupted => simp [hf] at h
  | failed => simp [hf] at h
  | none =>
    simp only [hf] at h
    split at h
    · cases h
    · split at h
      · cases h
      · next hge => exact Int.not_lt.mp hge

end Kernel

section Loop

variable {env : Env} {w : World} {f : Fid} {d : Int} {polls : List Int} {fuel n : Nat}

/-- A loop whose fence is ready ends at once. -/
theorem waitLoop_ready (h : w.ready f = true) :
    Stream.waitLoop env f (some d) (fuel + 1) w polls = ⟨.returned true, w, polls⟩ := by
  rw [Stream.waitLoop, if_pos h]

/-- A turn that finds the deadline passed. -/
theorem waitLoop_expired (hr : w.ready f = false) (hd : d ≤ w.time + (env w.asked).delay) :
    Stream.waitLoop env f (some d) (fuel + 1) w polls =
      ⟨.returned false, w.now env, polls⟩ := by
  have htime : (w.now env).time = w.time + (env w.asked).delay := rfl
  have hle : d - (w.now env).time ≤ 0 := by omega
  rw [Stream.waitLoop, if_neg (by simp [hr])]
  simp only [World.pollTimeout, if_pos hle]

/-- What is left at the test, in whole milliseconds. -/
def World.left (env : Env) (w : World) (d : Int) : Int :=
  castInt ((d - (w.now env).time).tdiv nsPerMs)

/-- A turn that does not, with the completion in the ring: its poll is interrupted, fails, or
is followed by a read that fails or makes the fence ready. -/
theorem waitLoop_turn (ha : w.Announced f) (hr : w.ready f = false)
    (hd : w.time + (env w.asked).delay < d) (fuel : Nat) (polls : List Int) :
    ((env (w.asked + 1)).fault = .interrupted ∧
      Stream.waitLoop env f (some d) (fuel + 1) w polls =
        Stream.waitLoop env f (some d) fuel ((w.now env).pass (env (w.asked + 1)))
          (polls ++ [w.left env d])) ∨
    ((env (w.asked + 1)).fault ≠ .interrupted ∧
      ((env (w.asked + 1)).fault ≠ .none ∨ (env (w.asked + 2)).fault ≠ .none) ∧
      (Stream.waitLoop env f (some d) (fuel + 1) w polls).result = .threw) ∨
    ((env (w.asked + 1)).fault = .none ∧ (env (w.asked + 2)).fault = .none ∧ ∃ w',
      w.Settles w' ∧ Stream.waitLoop env f (some d) (fuel + 1) w polls =
        Stream.waitLoop env f (some d) fuel w' (polls ++ [w.left env d])) := by
  have htime : (w.now env).time = w.time + (env w.asked).delay := rfl
  have hlt : ¬d - (w.now env).time ≤ 0 := by omega
  have ha₁ : (w.now env).Announced f := ha.now
  rw [Stream.waitLoop, if_neg (by simp [hr])]
  simp only [World.pollTimeout, if_neg hlt]
  rcases ha₁.poll env (castInt ((d - (w.now env).time).tdiv nsPerMs)) with
    ⟨hf, hp⟩ | ⟨hf, hp⟩ | ⟨hf, hp⟩
  · rw [hp]
    exact .inl ⟨hf, rfl⟩
  · rw [hp]
    have hne : (env (w.asked + 1)).fault = .failed := hf
    exact .inr (.inl ⟨by simp [hne], .inl (by simp [hne]), rfl⟩)
  · rw [hp]
    have hnone : (env (w.asked + 1)).fault = .none := hf
    rcases World.pump_cases env ((w.now env).pass (env (w.now env).asked)) with
      ⟨hf', w', hsome, hready⟩ | ⟨hf', hsome⟩
    · refine .inr (.inr ⟨hnone, hf', w', ?_, ?_⟩)
      · rintro g (hg | hg)
        · exact hready g (.inl hg)
        · exact hready g (.inr (hg.now.pass _))
      · simp only [hsome]
        rfl
    · refine .inr (.inl ⟨by simp [hnone], .inr hf', ?_⟩)
      simp only [hsome]

/-- An interrupted turn leaves the conditions to the next one. -/
theorem asked_next : ((w.now env).pass (env (w.asked + 1))).asked = w.asked + 2 := rfl

theorem time_next : ((w.now env).pass (env (w.asked + 1))).time =
    w.time + (env w.asked).delay + (env (w.asked + 1)).delay := rfl

/-- A loop that finds the deadline passed while all polls are interrupted gives up. -/
theorem waitLoop_of_expires (hr : w.ready f = false) (ha : w.Announced f)
    (h : Expires env w.asked (d - w.time)) :
    ∃ fuel, (Stream.waitLoop env f (some d) fuel w polls).result = .returned false := by
  obtain ⟨n, hn, hb⟩ := h
  induction n generalizing w polls with
  | zero =>
    rw [Nat.mul_zero, Nat.zero_add, elapsed_one] at hb
    refine ⟨1, ?_⟩
    rw [waitLoop_expired hr (by omega)]
  | succ n ih =>
    obtain ⟨h0, hn⟩ := hn.tail
    by_cases hd : d ≤ w.time + (env w.asked).delay
    · refine ⟨1, ?_⟩
      rw [waitLoop_expired hr hd]
    · rw [elapsed_turn] at hb
      have hleft : d - ((w.now env).pass (env (w.asked + 1))).time ≤
          (elapsed env (w.asked + 2) (2 * n + 1) : Int) := by
        rw [time_next]
        omega
      have ha' : ((w.now env).pass (env (w.asked + 1))).Announced f := ha.now.pass _
      obtain ⟨fuel, hres⟩ : ∃ fuel, (Stream.waitLoop env f (some d) fuel
          ((w.now env).pass (env (w.asked + 1))) (polls ++ [w.left env d])).result =
            .returned false := ih hr ha' hn hleft
      refine ⟨fuel + 1, ?_⟩
      have hlt : w.time + (env w.asked).delay < d := by omega
      rcases waitLoop_turn ha hr hlt fuel polls with
        ⟨-, heq⟩ | ⟨hne, -⟩ | ⟨hnone, -⟩
      · rw [heq]
        exact hres
      · exact absurd h0 hne
      · rw [h0] at hnone
        cases hnone

/-- A loop whose first poll that is not interrupted comes before the deadline succeeds, unless
that poll or its read fails. -/
theorem waitLoop_of_reads (ha : w.Announced f) (h : Reads env w.asked (d - w.time)) :
    ∃ fuel, (Stream.waitLoop env f (some d) fuel w polls).result = .returned true := by
  obtain ⟨n, hn, hp, hread, hb⟩ := h
  induction n generalizing w polls with
  | zero =>
    rw [Nat.mul_zero, Nat.zero_add, elapsed_one] at hb
    refine ⟨2, ?_⟩
    cases hr : w.ready f with
    | true => rw [waitLoop_ready hr]
    | false =>
      have hlt : w.time + (env w.asked).delay < d := by omega
      rcases waitLoop_turn ha hr hlt 1 polls with
        ⟨hint, -⟩ | ⟨-, hfail, -⟩ | ⟨-, -, w', hw', heq⟩
      · rw [Nat.mul_zero, Nat.add_zero, hint] at hp
        cases hp
      · rcases hfail with hfail | hfail
        · exact absurd hp hfail
        · exact absurd hread hfail
      · rw [heq, waitLoop_ready (hw' f (.inr ha))]
  | succ n ih =>
    obtain ⟨h0, hn⟩ := hn.tail
    rw [elapsed_turn] at hb
    have hleft : (elapsed env (w.asked + 2) (2 * n + 1) : Int) <
        d - ((w.now env).pass (env (w.asked + 1))).time := by
      rw [time_next]
      omega
    have ha' : ((w.now env).pass (env (w.asked + 1))).Announced f := ha.now.pass _
    have hp' : (env (w.asked + 2 + 2 * n + 1)).fault = .none := by
      rw [show w.asked + 2 + 2 * n + 1 = w.asked + 2 * (n + 1) + 1 by omega]
      exact hp
    have hread' : (env (w.asked + 2 + 2 * n + 2)).fault = .none := by
      rw [show w.asked + 2 + 2 * n + 2 = w.asked + 2 * (n + 1) + 2 by omega]
      exact hread
    obtain ⟨fuel, hres⟩ : ∃ fuel, (Stream.waitLoop env f (some d) fuel
        ((w.now env).pass (env (w.asked + 1))) (polls ++ [w.left env d])).result =
          .returned true := ih ha' hn hp' hread' hleft
    refine ⟨fuel + 1, ?_⟩
    cases hr : w.ready f with
    | true => rw [waitLoop_ready hr]
    | false =>
      have hlt : w.time + (env w.asked).delay < d := by omega
      rcases waitLoop_turn ha hr hlt fuel polls with
        ⟨-, heq⟩ | ⟨hne, -⟩ | ⟨hnone, -⟩
      · rw [heq]
        exact hres
      · exact absurd h0 hne
      · rw [h0] at hnone
        cases hnone

/-- Conversely, what a loop returns says which of the two happened. -/
theorem waitLoop_returned (ha : w.Announced f) (hr : w.ready f = false) {done : Bool}
    (h : (Stream.waitLoop env f (some d) fuel w polls).result = .returned done) :
    if done then Reads env w.asked (d - w.time) else Expires env w.asked (d - w.time) := by
  induction fuel generalizing w polls with
  | zero => cases h
  | succ fuel ih =>
    by_cases hd : d ≤ w.time + (env w.asked).delay
    · rw [waitLoop_expired hr hd] at h
      cases h
      refine ⟨0, .zero, ?_⟩
      rw [Nat.mul_zero, Nat.zero_add, elapsed_one]
      omega
    · have hlt : w.time + (env w.asked).delay < d := by omega
      rcases waitLoop_turn ha hr hlt fuel polls with
        ⟨hint, heq⟩ | ⟨-, -, hthrew⟩ | ⟨hp, hread, w', hw', heq⟩
      · rw [heq] at h
        have hnext := ih (ha.now.pass (env (w.asked + 1))) hr h
        rw [asked_next, time_next] at hnext
        have hbudget : d - (w.time + (env w.asked).delay + (env (w.asked + 1)).delay) =
            d - w.time - (env w.asked).delay - (env (w.asked + 1)).delay := by omega
        rw [hbudget] at hnext
        cases done with
        | true => exact Reads.next hint hnext
        | false => exact Expires.next hint hnext
      · rw [hthrew] at h
        cases h
      · rw [heq] at h
        cases fuel with
        | zero => cases h
        | succ fuel =>
          rw [waitLoop_ready (hw' f (.inr ha))] at h
          cases h
          refine ⟨0, .zero, hp, hread, ?_⟩
          rw [Nat.mul_zero, Nat.zero_add, elapsed_one]
          omega

/-- A loop that succeeds has read every entry that was in the ring. -/
theorem waitLoop_settles (ha : w.Announced f) (hr : w.ready f = false)
    (h : (Stream.waitLoop env f (some d) fuel w polls).result = .returned true) :
    w.Settles (Stream.waitLoop env f (some d) fuel w polls).world := by
  induction fuel generalizing w polls with
  | zero => cases h
  | succ fuel ih =>
    by_cases hd : d ≤ w.time + (env w.asked).delay
    · rw [waitLoop_expired hr hd] at h
      cases h
    · have hlt : w.time + (env w.asked).delay < d := by omega
      rcases waitLoop_turn ha hr hlt fuel polls with
        ⟨hint, heq⟩ | ⟨-, -, hthrew⟩ | ⟨hp, hread, w', hw', heq⟩
      · rw [heq] at h ⊢
        rintro g (hg | hg)
        · exact ih (ha.now.pass _) hr h g (.inl hg)
        · exact ih (ha.now.pass _) hr h g (.inr (hg.now.pass _))
      · rw [hthrew] at h
        cases h
      · rw [heq] at h ⊢
        cases fuel with
        | zero => cases h
        | succ fuel =>
          rw [waitLoop_ready (hw' f (.inr ha))]
          exact hw'

end Loop

end DmaAccel.Timed
