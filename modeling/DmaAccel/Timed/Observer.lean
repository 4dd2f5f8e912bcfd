import DmaAccel.Timed.Turns

/-!
# Durations of an observer's wait

`StreamObserver::wait` takes a 64-bit count of milliseconds and hands it on as an `int`. Below
`2 ^ 31` the count arrives as it is, every `poll()` gets a timeout, and a call that returns
`Pending` has waited for its duration up to one millisecond. From `2 ^ 31` on the count arrives
as another one: a negative one waits without a deadline, any other one gives up too early.
-/

namespace DmaAccel.Timed

open DmaAccel.Runtime (Machine Fid)

/-- What is asked of a wait of `count` milliseconds that begins in `w`: no `poll()` without a
timeout, and `Pending` only for a fence that is not ready when the time, up to the last
millisecond, is over. -/
def Bounded (w : World) (f : Fid) (count : Int) (r : Waited) : Prop :=
  (∀ p ∈ r.polls, 0 ≤ p) ∧
    (r.result = .returned false →
      r.world.ready f = false ∧ (count - 1) * nsPerMs < r.world.time - w.time)

section Loop

variable {env : Env} {w : World} {f : Fid} {d : Int}

theorem poll_time (env : Env) (timeout : Int) (w : World) :
    w.time ≤ (w.poll env timeout).2.time := by
  have hpass : w.time ≤ (w.pass (env w.asked)).time := by
    change w.time ≤ w.time + ((env w.asked).delay : Int)
    omega
  unfold World.poll
  cases (env w.asked).fault with
  | none =>
    simp only
    split
    · exact hpass
    · split
      · exact Int.le_refl _
      · have hmax : ((env w.asked).delay : Int) ≤ max ((env w.asked).delay : Int)
          (timeout * nsPerMs) := Int.le_max_left _ _
        change w.time ≤ w.time + _
        omega
  | interrupted => exact hpass
  | failed => exact hpass

theorem pump_time {w' : World} (h : w.pump env = some w') : w.time ≤ w'.time := by
  unfold World.pump at h
  split at h
  · cases h
    change w.time ≤ w.time + ((env w.asked).delay : Int)
    omega
  · cases h

/-- A poll that times out has taken its timeout. -/
theorem time_of_timedOut {timeout : Int} (h : (w.poll env timeout).1 = .timedOut) :
    w.time + timeout * nsPerMs ≤ (w.poll env timeout).2.time := by
  unfold World.poll at h ⊢
  cases hf : (env w.asked).fault with
  | interrupted => simp [hf] at h
  | failed => simp [hf] at h
  | none =>
    simp only [hf] at h ⊢
    split at h
    · cases h
    · next hne =>
      split at h
      · cases h
      · next hge =>
        rw [if_neg hne, if_neg hge]
        have hmax : timeout * nsPerMs ≤ max ((env w.asked).delay : Int) (timeout * nsPerMs) :=
          Int.le_max_right _ _
        change w.time + timeout * nsPerMs ≤ w.time + _
        omega

/-- With no entry in the ring and none arriving, `poll()` takes its whole timeout. -/
theorem poll_empty {timeout : Int} (env : Env) (w : World) (hf : (env w.asked).fault = .none)
    (he : w.ring ++ (env w.asked).arrived = []) (ht : 0 ≤ timeout) :
    w.poll env timeout = (.timedOut, { w.pass (env w.asked) with
      time := w.time + max ((env w.asked).delay : Int) (timeout * nsPerMs) }) := by
  unfold World.poll
  simp [hf, he, Int.not_lt.mpr ht]

/-- The loop against a deadline less than `2 ^ 31` milliseconds away. -/
theorem waitLoop_bounded (env : Env) (w : World) (fuel : Nat) (polls : List Int)
    (hd : d - w.time < 2 ^ 31 * nsPerMs) (hp : ∀ p ∈ polls, 0 ≤ p) :
    (∀ p ∈ (Stream.waitLoop env f (some d) fuel w polls).polls, 0 ≤ p) ∧
      ((Stream.waitLoop env f (some d) fuel w polls).result = .returned false →
        (Stream.waitLoop env f (some d) fuel w polls).world.ready f = false ∧
          d - nsPerMs < (Stream.waitLoop env f (some d) fuel w polls).world.time) := by
  induction fuel generalizing w polls with
  | zero => exact ⟨hp, fun h ↦ by cases h⟩
  | succ fuel ih =>
    cases hr : w.ready f with
    | true =>
      rw [waitLoop_ready hr]
      exact ⟨hp, fun h ↦ by cases h⟩
    | false =>
      by_cases hexp : d ≤ w.time + (env w.asked).delay
      · rw [waitLoop_expired hr hexp]
        refine ⟨hp, fun _ ↦ ⟨hr, ?_⟩⟩
        change d - nsPerMs < w.time + ((env w.asked).delay : Int)
        unfold nsPerMs
        omega
      · have htime : (w.now env).time = w.time + (env w.asked).delay := rfl
        have hlt : ¬d - (w.now env).time ≤ 0 := by omega
        have hpos : 0 ≤ d - (w.now env).time := by omega
        have hq0 : 0 ≤ (d - (w.now env).time) / nsPerMs := Int.ediv_nonneg hpos (by decide)
        have hq : (d - (w.now env).time) / nsPerMs < 2 ^ 31 := by
          unfold nsPerMs at hd ⊢
          omega
        have hcast : castInt ((d - (w.now env).time).tdiv nsPerMs) =
            (d - (w.now env).time) / nsPerMs := by
          rw [Int.tdiv_eq_ediv_of_nonneg hpos]
          exact castInt_of_lt hq0 hq
        have hp' : ∀ p ∈ polls ++ [(d - (w.now env).time) / nsPerMs], 0 ≤ p := by
          intro p hmem
          rcases List.mem_append.mp hmem with hmem | hmem
          · exact hp p hmem
          · rw [List.mem_singleton.mp hmem]
            exact hq0
        rw [Stream.waitLoop, if_neg (by simp [hr])]
        simp only [World.pollTimeout, if_neg hlt, hcast]
        rcases hpoll : (w.now env).poll env ((d - (w.now env).time) / nsPerMs) with ⟨answer, w₂⟩
        have hlater : (w.now env).time ≤ w₂.time := by
          have h := poll_time env ((d - (w.now env).time) / nsPerMs) (w.now env)
          rw [hpoll] at h
          exact h
        cases answer with
        | eintr => exact ih w₂ _ (by omega) hp'
        | error => exact ⟨hp', fun h ↦ by cases h⟩
        | blocks => exact ⟨hp', fun h ↦ by cases h⟩
        | timedOut =>
          have hwait := time_of_timedOut (w := w.now env) (by rw [hpoll])
          have hmach := poll_mach env ((d - (w.now env).time) / nsPerMs) (w.now env)
          rw [hpoll] at hwait hmach
          refine ⟨hp', fun _ ↦ ⟨?_, ?_⟩⟩
          · change w₂.mach.ready f = false
            rw [hmach]
            exact hr
          · change (w.now env).time + (d - (w.now env).time) / nsPerMs * nsPerMs ≤ w₂.time at hwait
            change d - nsPerMs < w₂.time
            unfold nsPerMs at hwait ⊢
            omega
        | ready =>
          simp only
          cases hpump : w₂.pump env with
          | none => exact ⟨hp', fun h ↦ by cases h⟩
          | some w₃ =>
            have hlater' := pump_time hpump
            exact ih w₃ _ (by omega) hp'

end Loop

/-- A duration below `2 ^ 31` milliseconds is kept to. -/
theorem observer_bounded {count : Int} (h0 : 0 ≤ count) (h : count < 2 ^ 31) (env : Env)
    (w : World) (f : Fid) (fuel : Nat) :
    Bounded w f count (StreamObserver.wait env fuel w f count) := by
  unfold StreamObserver.wait Stream.wait
  rw [castInt_of_lt h0 h]
  cases hr : w.ready f with
  | true =>
    rw [if_pos rfl]
    exact ⟨by simp, fun h ↦ by cases h⟩
  | false =>
    rw [if_neg (by simp), World.deadline, if_pos h0]
    have htime : (w.now env).time = w.time + (env w.asked).delay := rfl
    obtain ⟨hpolls, hpending⟩ := waitLoop_bounded env (w.now env) (f := f)
      (d := (w.now env).time + count * nsPerMs) fuel [] (by unfold nsPerMs; omega) (by simp)
    refine ⟨hpolls, fun hres ↦ ?_⟩
    obtain ⟨hready, hlate⟩ := hpending hres
    refine ⟨hready, ?_⟩
    unfold nsPerMs at hlate ⊢
    omega

/-- One command has been submitted, and its completion never comes. -/
def oneSubmitted : World where
  mach := Machine.track ⟨.empty, .opened 0, .idle⟩ 0 2
  ring := []
  time := 0
  asked := 0

/-- A kernel that answers at once, and nothing arrives. -/
def idleEnv : Env := fun _ ↦ ⟨0, [], .none⟩

/-- Where the `int` is negative, the first poll has no timeout. -/
theorem idle_negative {count : Int} (h : castInt count < 0) :
    (StreamObserver.wait idleEnv 1 oneSubmitted 0 count).polls = [-1] := by
  have hready : oneSubmitted.ready 0 = false := rfl
  unfold StreamObserver.wait Stream.wait
  rw [if_neg (by simp [hready]), World.deadline, if_neg (by omega)]
  rfl

/-- Otherwise the call returns when the `int` is over. -/
theorem idle_nonneg {count : Int} (h : 0 ≤ castInt count) :
    (StreamObserver.wait idleEnv 1 oneSubmitted 0 count).result = .returned false ∧
      (StreamObserver.wait idleEnv 1 oneSubmitted 0 count).world.time =
        castInt count * nsPerMs := by
  have hready : (oneSubmitted.now idleEnv).ready 0 = false := rfl
  have hsmall := castInt_lt count
  unfold StreamObserver.wait Stream.wait
  rw [if_neg (by simp [show oneSubmitted.ready 0 = false from rfl]), World.deadline, if_pos h]
  have htime : (oneSubmitted.now idleEnv).time = 0 := rfl
  rw [htime, Int.zero_add]
  by_cases hz : castInt count = 0
  · rw [hz, Int.zero_mul, waitLoop_expired hready (by decide)]
    exact ⟨rfl, rfl⟩
  · have hpos : 0 < castInt count * nsPerMs := by
      unfold nsPerMs
      omega
    have hlt : ¬castInt count * nsPerMs - 0 ≤ 0 := by omega
    have hcast : castInt ((castInt count * nsPerMs - 0).tdiv nsPerMs) = castInt count := by
      rw [Int.sub_zero, Int.mul_tdiv_cancel _ (by decide)]
      exact castInt_of_lt h hsmall
    have hpoll := poll_empty idleEnv ((oneSubmitted.now idleEnv).now idleEnv) rfl rfl h
    have htime' : ((oneSubmitted.now idleEnv).now idleEnv).time = 0 := rfl
    rw [Stream.waitLoop, if_neg (by simp [hready])]
    simp only [World.pollTimeout, htime', if_neg hlt, hcast, hpoll]
    refine ⟨trivial, ?_⟩
    change 0 + max (0 : Int) (castInt count * nsPerMs) = castInt count * nsPerMs
    omega

/-- An observer's wait keeps to its duration in all circumstances exactly when the count fits
into the `int` of `Stream::wait`. -/
theorem observer_bounded_iff (count : Int) (h0 : 0 ≤ count) (_ : count < 2 ^ 63) :
    (∀ env w f fuel, Bounded w f count (StreamObserver.wait env fuel w f count)) ↔
      count < 2 ^ 31 := by
  refine ⟨fun h ↦ ?_, fun h env w f fuel ↦ observer_bounded h0 h env w f fuel⟩
  by_contra hge
  have hsmall := castInt_lt count
  obtain ⟨hpolls, hpending⟩ := h idleEnv oneSubmitted 0 1
  by_cases hneg : castInt count < 0
  · rw [idle_negative hneg] at hpolls
    exact absurd (hpolls (-1) List.mem_cons_self) (by decide)
  · obtain ⟨hres, htime⟩ := idle_nonneg (Int.not_lt.mp hneg)
    have hlate := (hpending hres).2
    rw [htime] at hlate
    change (count - 1) * nsPerMs < castInt count * nsPerMs - 0 at hlate
    unfold nsPerMs at hlate
    omega

/-- Thirty milliseconds fit. -/
theorem observer_bounded_iff_thirty :
    Bounded oneSubmitted 0 30 (StreamObserver.wait idleEnv 8 oneSubmitted 0 30) :=
  (observer_bounded_iff 30 (by decide) (by decide)).mpr (by decide) idleEnv oneSubmitted 0 8

/-- A duration of `2 ^ 31` milliseconds is waited for without a deadline. -/
theorem observer_unbounded : ¬∀ (count : Int), 0 ≤ count → count < 2 ^ 63 → ∀ env w f fuel,
    Bounded w f count (StreamObserver.wait env fuel w f count) := by
  intro h
  have hpolls := (h (2 ^ 31) (by decide) (by decide) idleEnv oneSubmitted 0 1).1
  rw [idle_negative (by decide)] at hpolls
  exact absurd (hpolls (-1) List.mem_cons_self) (by decide)

end DmaAccel.Timed
