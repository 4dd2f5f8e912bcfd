import DmaAccel.Timed.Turns

/-!
# A completion that is already in the ring

`Stream::wait`, `CommandGroup::wait` and `StreamObserver::wait` test whether the deadline has
passed before they poll. A completion that is in the ring when they are called is therefore
found exactly when the clock lets them get as far as a poll that is not interrupted.
-/

namespace DmaAccel.Timed

open DmaAccel.Runtime (Machine Fid)
open DmaAccel.Dependency (CommandGroup GroupStatus)

section Stream

variable {env : Env} {w : World} {f : Fid} {t : Int}

/-- A wait with a timeout on a fence that is not ready. -/
theorem wait_eq_loop (hr : w.ready f = false) (ht : 0 ≤ t) (fuel : Nat) :
    Stream.wait env fuel w f t =
      Stream.waitLoop env f (some ((w.now env).time + t * nsPerMs)) fuel (w.now env) [] := by
  rw [Stream.wait, if_neg (by simp [hr]), World.deadline, if_pos ht]

/-- When a wait on a fence whose completion is in the ring succeeds. -/
theorem wait_true_iff (env : Env) (ha : w.Announced f) (ht : 0 ≤ t) :
    (∃ fuel, (Stream.wait env fuel w f t).result = .returned true) ↔
      w.ready f = true ∨ Reads env (w.asked + 1) (t * nsPerMs) := by
  have hbudget : (w.now env).time + t * nsPerMs - (w.now env).time = t * nsPerMs := by omega
  cases hr : w.ready f with
  | true =>
    refine ⟨fun _ ↦ .inl rfl, fun _ ↦ ⟨0, ?_⟩⟩
    rw [Stream.wait, if_pos hr]
  | false =>
    simp only [wait_eq_loop hr ht, Bool.false_eq_true, false_or]
    constructor
    · rintro ⟨fuel, h⟩
      have hreads := waitLoop_returned ha.now hr h
      rw [hbudget] at hreads
      exact hreads
    · intro h
      apply waitLoop_of_reads ha.now
      rw [hbudget]
      exact h

/-- When it gives up. -/
theorem wait_false_iff (env : Env) (ha : w.Announced f) (ht : 0 ≤ t) :
    (∃ fuel, (Stream.wait env fuel w f t).result = .returned false) ↔
      w.ready f = false ∧ Expires env (w.asked + 1) (t * nsPerMs) := by
  have hbudget : (w.now env).time + t * nsPerMs - (w.now env).time = t * nsPerMs := by omega
  cases hr : w.ready f with
  | true => simp [Stream.wait, hr]
  | false =>
    simp only [wait_eq_loop hr ht, true_and]
    constructor
    · rintro ⟨fuel, h⟩
      have hexp := waitLoop_returned ha.now hr h
      rw [hbudget] at hexp
      exact hexp
    · intro h
      rw [← hbudget] at h
      exact waitLoop_of_expires (w := w.now env) hr ha.now h

/-- A wait that had to wait and succeeded has read every entry that was in the ring. -/
theorem wait_settles (ha : w.Announced f) (hr : w.ready f = false) (ht : 0 ≤ t) {fuel : Nat}
    (h : (Stream.wait env fuel w f t).result = .returned true) :
    w.Settles (Stream.wait env fuel w f t).world := by
  rw [wait_eq_loop hr ht] at h ⊢
  rintro g (hg | hg)
  · exact waitLoop_settles ha.now hr h g (.inl hg)
  · exact waitLoop_settles ha.now hr h g (.inr hg.now)

end Stream

section Group

variable {env : Env} {w : World} {fences : List Fid} {t : Int}

/-- The scan finds nothing exactly when all fences are ready. -/
theorem scan_eq_none_iff (anyFailed : Bool) :
    (w.scan fences anyFailed).1 = none ↔ ∀ f ∈ fences, w.ready f = true := by
  induction fences generalizing anyFailed with
  | nil => simp [World.scan]
  | cons f fences ih =>
    cases hr : w.ready f with
    | true => simp [World.scan, hr, ih]
    | false => simp [World.scan, hr]

/-- What it finds is a fence of the group that is not ready. -/
theorem scan_eq_some {anyFailed : Bool} {f : Fid} (h : (w.scan fences anyFailed).1 = some f) :
    f ∈ fences ∧ w.ready f = false := by
  induction fences generalizing anyFailed with
  | nil => cases h
  | cons g fences ih =>
    cases hr : w.ready g with
    | true =>
      simp only [World.scan, hr, Bool.not_true, Bool.false_eq_true, if_false] at h
      obtain ⟨hf, hready⟩ := ih h
      exact ⟨List.mem_cons_of_mem _ hf, hready⟩
    | false =>
      simp only [World.scan, hr, Bool.not_false, if_true] at h
      cases h
      exact ⟨List.mem_cons_self, hr⟩

/-- Whole milliseconds that a call with timeout `t` has left after `spent` nanoseconds. -/
def slice (t : Int) (spent : Nat) : Int := (t * nsPerMs - spent) / nsPerMs

/-- A loop whose fences are all ready reports no fence as pending. -/
theorem groupLoop_ready {inner fuel : Nat} {d : Option Int}
    (h : ∀ f ∈ fences, w.ready f = true) :
    (CommandGroup.waitLoop env inner fences d fuel w).1 ≠ .status .pending := by
  cases fuel with
  | zero => simp [CommandGroup.waitLoop]
  | succ fuel =>
    have hnone := (scan_eq_none_iff false).mpr h
    rw [CommandGroup.waitLoop]
    rcases hs : w.scan fences false with ⟨found, anyFailed⟩
    rw [hs] at hnone
    cases hnone
    cases anyFailed <;> simp

/-- The slice that `CommandGroup::wait` hands on is what is left in whole milliseconds. -/
theorem castInt_slice {spent : Nat} (ht : t < 2 ^ 31) (h : (spent : Int) < t * nsPerMs) :
    castInt ((t * nsPerMs - spent).tdiv nsPerMs) = slice t spent ∧ 0 ≤ slice t spent := by
  have hpos : 0 ≤ t * nsPerMs - spent := by omega
  have h0 : 0 ≤ slice t spent := Int.ediv_nonneg hpos (by decide)
  have hle : slice t spent ≤ t := by
    unfold slice nsPerMs
    omega
  rw [Int.tdiv_eq_ediv_of_nonneg hpos]
  exact ⟨castInt_of_lt h0 (Int.lt_of_le_of_lt hle ht), h0⟩

/-- The test of a deadline `t` milliseconds away, once those are over. -/
theorem pollTimeout_expired (h : t * nsPerMs ≤ (env w.asked).delay) :
    w.pollTimeout env (some (w.time + t * nsPerMs)) = (none, w.now env) := by
  have htime : (w.now env).time = w.time + (env w.asked).delay := rfl
  have hle : w.time + t * nsPerMs - (w.now env).time ≤ 0 := by omega
  simp only [World.pollTimeout, if_pos hle]

/-- The test of a deadline `t` milliseconds away, before they are over. -/
theorem pollTimeout_slice (ht : t < 2 ^ 31) (h : ((env w.asked).delay : Int) < t * nsPerMs) :
    w.pollTimeout env (some (w.time + t * nsPerMs)) =
      (some (slice t (env w.asked).delay), w.now env) := by
  have htime : (w.now env).time = w.time + (env w.asked).delay := rfl
  have hlt : ¬w.time + t * nsPerMs - (w.now env).time ≤ 0 := by omega
  have hleft : w.time + t * nsPerMs - (w.now env).time = t * nsPerMs - (env w.asked).delay := by
    omega
  simp only [World.pollTimeout, if_neg hlt]
  rw [hleft, (castInt_slice ht h).1]

/-- One turn of `CommandGroup::wait` decides: with every completion in the ring, the fences are
all ready after the first `Stream::wait` that succeeds. -/
theorem groupLoop_pending_iff (env : Env) (ht : t < 2 ^ 31)
    (ha : ∀ f ∈ fences, w.ready f = true ∨ w.Announced f)
    (hn : ¬∀ f ∈ fences, w.ready f = true) :
    (∃ fuel inner, (CommandGroup.waitLoop env inner fences (some (w.time + t * nsPerMs)) fuel
      w).1 = .status .pending) ↔
      t * nsPerMs ≤ (env w.asked).delay ∨
        Expires env (w.asked + 2) (slice t (env w.asked).delay * nsPerMs) := by
  rcases hs : w.scan fences false with ⟨found, anyFailed⟩
  have hfound : found ≠ none := by
    rintro rfl
    exact hn ((scan_eq_none_iff false).mp (by rw [hs]))
  obtain ⟨f, rfl⟩ := Option.ne_none_iff_exists'.mp hfound
  obtain ⟨hf, hr⟩ : f ∈ fences ∧ w.ready f = false := scan_eq_some (by rw [hs])
  have hann : w.Announced f := by
    rcases ha f hf with hready | hann
    · rw [hr] at hready
      cases hready
    · exact hann
  have hann' : (w.now env).Announced f := hann.now
  by_cases hd : t * nsPerMs ≤ (env w.asked).delay
  · refine ⟨fun _ ↦ .inl hd, fun _ ↦ ⟨1, 0, ?_⟩⟩
    rw [CommandGroup.waitLoop, hs]
    simp only [pollTimeout_expired hd]
  · have hlt : ((env w.asked).delay : Int) < t * nsPerMs := Int.not_le.mp hd
    have h0 := (castInt_slice ht hlt).2
    have hwait := wait_false_iff env hann' h0
    constructor
    · rintro ⟨fuel, inner, h⟩
      right
      cases fuel with
      | zero => cases h
      | succ fuel =>
        rw [CommandGroup.waitLoop, hs] at h
        simp only [pollTimeout_slice ht hlt] at h
        cases hres : (Stream.wait env inner (w.now env) f
            (slice t (env w.asked).delay)).result with
        | returned done =>
          cases done with
          | false => exact (hwait.mp ⟨inner, hres⟩).2
          | true =>
            exfalso
            simp only [hres] at h
            apply groupLoop_ready _ h
            intro g hg
            apply wait_settles hann' hr h0 hres
            rcases ha g hg with hready | hann
            · exact .inl hready
            · exact .inr hann.now
        | threw =>
          simp only [hres] at h
          cases h
        | blocked =>
          simp only [hres] at h
          cases h
        | running =>
          simp only [hres] at h
          cases h
    · intro h
      obtain ⟨inner, hres⟩ := hwait.mpr ⟨hr, h.resolve_left hd⟩
      refine ⟨1, inner, ?_⟩
      rw [CommandGroup.waitLoop, hs]
      simp only [pollTimeout_slice ht hlt, hres]

end Group

/-- No whole budget, no poll. -/
theorem not_reads_zero {env : Env} {i : Nat} : ¬Reads env i 0 := by
  rintro ⟨n, -, -, -, h⟩
  omega

/-- When the three waits find completions that are in the ring at the call: a fence is ready
already, or the clock lets the call get as far as a poll that is not interrupted, and that poll
and its read do not fail. The slice of a group has to hold a whole millisecond besides, and an
observer's wait with `0ms` never gets to poll. -/
theorem waits_find_completion (env : Env) (w : World) :
    (∀ f t, 0 ≤ t → t < 2 ^ 31 → w.Announced f →
      ((∃ fuel, (Stream.wait env fuel w f t).result = .returned true) ↔
        w.ready f = true ∨ Reads env (w.asked + 1) (t * nsPerMs))) ∧
    (∀ (g : CommandGroup) t, 0 ≤ t → t < 2 ^ 31 →
      (∀ f ∈ g.fences, w.ready f = true ∨ w.Announced f) →
      ((∀ fuel inner, (CommandGroup.wait env fuel inner w g t).1 ≠ .status .pending) ↔
        g.isSealed = false ∨ (∀ f ∈ g.fences, w.ready f = true) ∨
          ((env (w.asked + 1)).delay : Int) < t * nsPerMs ∧
            ¬Expires env (w.asked + 3) (slice t (env (w.asked + 1)).delay * nsPerMs))) ∧
    ∀ f, w.Announced f →
      ((∃ fuel, (StreamObserver.wait env fuel w f 0).result = .returned true) ↔
        w.ready f = true) := by
  refine ⟨?_, ?_, ?_⟩
  · intro f t ht _ ha
    exact wait_true_iff env ha ht
  · intro g t h0 ht ha
    have ha' : ∀ f ∈ g.fences, (w.now env).ready f = true ∨ (w.now env).Announced f := by
      intro f hf
      exact (ha f hf).imp id World.Announced.now
    cases hsealed : g.isSealed with
    | false => simp [CommandGroup.wait, hsealed]
    | true =>
      have hwait (fuel inner : Nat) : CommandGroup.wait env fuel inner w g t =
          CommandGroup.waitLoop env inner g.fences (some ((w.now env).time + t * nsPerMs)) fuel
            (w.now env) := by
        simp [CommandGroup.wait, hsealed, World.deadline, h0]
      simp only [hwait, Bool.true_eq_false, false_or]
      by_cases hn : ∀ f ∈ g.fences, w.ready f = true
      · refine ⟨fun _ ↦ .inl hn, fun _ fuel inner ↦ ?_⟩
        exact groupLoop_ready hn
      · have hiff := groupLoop_pending_iff env ht ha' hn
        constructor
        · intro h
          right
          have hno := mt hiff.mpr fun ⟨fuel, inner, hp⟩ ↦ h fuel inner hp
          rw [not_or, Int.not_le] at hno
          exact hno
        · intro h fuel inner hp
          obtain ⟨hlt, hexp⟩ := h.resolve_left hn
          rcases hiff.mp ⟨fuel, inner, hp⟩ with hle | hexp'
          · exact absurd hle (Int.not_le.mpr hlt)
          · exact hexp hexp'
  · intro f ha
    have hzero : castInt 0 = 0 := by decide
    have hiff := wait_true_iff env ha (Int.le_refl 0)
    rw [Int.zero_mul] at hiff
    simp only [StreamObserver.wait, hzero]
    rw [hiff]
    constructor
    · rintro (h | h)
      · exact h
      · exact absurd h not_reads_zero
    · exact .inl

/-- One command has been submitted, and its completion has reached the ring. -/
def oneCompleted : World where
  mach := Machine.track ⟨.empty, .opened 0, .idle⟩ 0 2
  ring := [⟨2, Driver.statusOk, 0⟩]
  time := 0
  asked := 0

/-- A kernel that answers every question after a microsecond. -/
def promptEnv : Env := fun _ ↦ ⟨1000, [], .none⟩

theorem oneCompleted_announced : oneCompleted.Announced 0 :=
  ⟨⟨2, Driver.statusOk, 0⟩, by decide, by decide⟩

/-- A wait of one millisecond finds the completion. -/
theorem waits_find_completion_prompt :
    ∃ fuel, (Stream.wait promptEnv fuel oneCompleted 0 1).result = .returned true := by
  apply ((waits_find_completion promptEnv oneCompleted).1 0 1 (by decide) (by decide)
    oneCompleted_announced).mpr
  exact .inr ⟨0, .zero, rfl, rfl, by decide⟩

/-- A wait of zero milliseconds does not, although nothing delays or interrupts it. -/
theorem wait_zero_misses : ¬∀ (env : Env) (w : World) (f : Fid) (t : Int), 0 ≤ t → t < 2 ^ 31 →
    w.Announced f → ∃ fuel, (Stream.wait env fuel w f t).result = .returned true := by
  intro h
  obtain ⟨fuel, hres⟩ := h promptEnv oneCompleted 0 0 (by decide) (by decide)
    oneCompleted_announced
  cases fuel with
  | zero => cases hres
  | succ fuel => cases hres

end DmaAccel.Timed
