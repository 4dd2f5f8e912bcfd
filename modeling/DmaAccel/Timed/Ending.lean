import DmaAccel.Timed.Observer
import DmaAccel.Timed.Waits

/-!
# Timed waits end, with the right answer

Source `track-a/dma_accel_runtime.cpp`, `Stream::wait` (290–329), and
`track-c/runtime/dma_accel_command_group.cpp`, `CommandGroup::wait` (89–138). A turn of either
loop asks at least one question, and a clock that goes on passes every deadline in the end. A
group wait takes at most one call of `Stream::wait` for each of its fences. What it returns is
what its fences say at that moment, and it gives up at most two milliseconds early: one is
dropped by its own `duration_cast`, and one by that of `Stream::wait`.
-/

namespace DmaAccel.Timed

open DmaAccel.Driver (Completion statusOk)
open DmaAccel.Runtime (Machine Fid)
open DmaAccel.Dependency (CommandGroup GroupStatus)

/-- Time goes on: however many questions have been asked, a later one takes time. -/
def Ticks (env : Env) : Prop := ∀ i, ∃ j, i ≤ j ∧ 0 < (env j).delay

section Clock

variable {env : Env} {i : Nat}

theorem elapsed_add (env : Env) (i n m : Nat) :
    elapsed env i (n + m) = elapsed env i n + elapsed env (i + n) m := by
  induction n generalizing i with
  | zero => simp [elapsed]
  | succ n ih =>
    have he : n + 1 + m = n + m + 1 := by omega
    have hi : i + (n + 1) = i + 1 + n := by omega
    rw [he, elapsed, elapsed, ih, hi]
    omega

theorem elapsed_mono (env : Env) (i : Nat) {n m : Nat} (h : n ≤ m) :
    elapsed env i n ≤ elapsed env i m := by
  obtain ⟨k, rfl⟩ := Nat.exists_eq_add_of_le h
  rw [elapsed_add]
  exact Nat.le_add_right _ _

/-- A clock that goes on passes every bound. -/
theorem Ticks.unbounded (h : Ticks env) (i bound : Nat) : ∃ n, bound ≤ elapsed env i n := by
  induction bound with
  | zero => exact ⟨0, Nat.zero_le _⟩
  | succ bound ih =>
    obtain ⟨n, hn⟩ := ih
    obtain ⟨j, hj, hpos⟩ := h (i + n)
    refine ⟨n + (j - (i + n)) + 1, ?_⟩
    have hone : elapsed env j 1 = (env j).delay := by simp [elapsed]
    have hidx : i + (n + (j - (i + n))) = j := by omega
    rw [elapsed_add, elapsed_add, hidx, hone]
    omega

end Clock

namespace World

/-- `w'` comes after `w`: the questions asked in between have taken their time, and the machine
has only taken completions in. -/
structure Later (env : Env) (w w' : World) : Prop where
  asked : w.asked ≤ w'.asked
  time : w.time + elapsed env w.asked (w'.asked - w.asked) ≤ w'.time
  mach : ∃ batch : List Completion, w'.mach = batch.foldl Machine.deliver w.mach

namespace Later

variable {env : Env} {w w' w'' : World}

theorem refl (env : Env) (w : World) : Later env w w :=
  ⟨Nat.le_refl _, by simp [elapsed], [], rfl⟩

theorem trans (h : Later env w w') (h' : Later env w' w'') : Later env w w'' where
  asked := h.asked.trans h'.asked
  time := by
    have h1 := h.time
    have h2 := h'.time
    have hsplit : w''.asked - w.asked = w'.asked - w.asked + (w''.asked - w'.asked) := by
      have := h.asked
      have := h'.asked
      omega
    have hidx : w.asked + (w'.asked - w.asked) = w'.asked := Nat.add_sub_cancel' h.asked
    rw [hsplit, elapsed_add, hidx]
    omega
  mach := by
    obtain ⟨b, hb⟩ := h.mach
    obtain ⟨b', hb'⟩ := h'.mach
    exact ⟨b ++ b', by rw [hb', hb, List.foldl_append]⟩

/-- Fences that were ready still are. -/
theorem ready (h : Later env w w') {f : Fid} (hf : w.ready f = true) : w'.ready f = true := by
  obtain ⟨batch, hb⟩ := h.mach
  unfold World.ready
  rw [hb]
  exact (Machine.delivered_foldl w.mach batch).ready f hf

theorem le_time (h : Later env w w') : w.time ≤ w'.time := by
  have := h.time
  omega

/-- One question takes at least its time. -/
theorem of_one (ha : w'.asked = w.asked + 1) (ht : w.time + (env w.asked).delay ≤ w'.time)
    (hm : ∃ batch : List Completion, w'.mach = batch.foldl Machine.deliver w.mach) :
    Later env w w' where
  asked := by omega
  time := by
    have hone : w'.asked - w.asked = 1 := by omega
    rw [hone, elapsed_one]
    exact ht
  mach := hm

theorem now (env : Env) (w : World) : Later env w (w.now env) :=
  of_one rfl (Int.le_refl _) ⟨[], rfl⟩

/-- A poll that comes back. -/
theorem poll {timeout : Int} {p : Poll} (h : w.poll env timeout = (p, w')) (hp : p ≠ .blocks) :
    Later env w w' ∧ w'.asked = w.asked + 1 := by
  unfold World.poll at h
  have hpass : Later env w (w.pass (env w.asked)) := of_one rfl (Int.le_refl _) ⟨[], rfl⟩
  cases hf : (env w.asked).fault with
  | interrupted | failed =>
    rw [hf] at h
    cases h
    exact ⟨hpass, rfl⟩
  | none =>
    rw [hf] at h
    simp only at h
    split at h
    · cases h
      exact ⟨hpass, rfl⟩
    · split at h
      · cases h
        exact (hp rfl).elim
      · cases h
        refine ⟨of_one rfl ?_ ⟨[], rfl⟩, rfl⟩
        have hmax := Int.le_max_left ((env w.asked).delay : Int) (timeout * nsPerMs)
        change w.time + ((env w.asked).delay : Int) ≤ w.time + _
        omega

/-- Only a poll without a timeout may never come back. -/
theorem poll_blocks {timeout : Int} (h : w.poll env timeout = (.blocks, w')) :
    w' = w ∧ timeout < 0 := by
  unfold World.poll at h
  cases hf : (env w.asked).fault with
  | interrupted | failed =>
    rw [hf] at h
    cases h
  | none =>
    rw [hf] at h
    simp only at h
    split at h
    · cases h
    · split at h
      · next hneg =>
        cases h
        exact ⟨rfl, hneg⟩
      · cases h

theorem pump (h : w.pump env = some w') : Later env w w' := by
  unfold World.pump at h
  split at h
  · cases h
    exact of_one rfl (Int.le_refl _) ⟨_, rfl⟩
  · cases h

theorem pollTimeout {deadline : Option Int} {timeout : Option Int}
    (h : w.pollTimeout env deadline = (timeout, w')) : Later env w w' := by
  unfold World.pollTimeout at h
  cases deadline with
  | none =>
    cases h
    exact refl env w
  | some d =>
    simp only at h
    split at h
    · cases h
      exact now env w
    · cases h
      exact now env w

end Later
end World

section StreamWait

variable {env : Env} {w : World} {f : Fid} {d : Int} {deadline : Option Int} {polls : List Int}
  {fuel : Nat}

/-- What one turn of the loop of `Stream::wait` comes to, whatever fuel is left: it goes on from
a later state, or the call has ended. -/
inductive Turn (env : Env) (f : Fid) (deadline : Option Int) (w : World) (polls : List Int) :
    Prop where
  | again (w' : World) (polls' : List Int) : w.Later env w' → w.asked < w'.asked →
      (∀ fuel, Stream.waitLoop env f deadline (fuel + 1) w polls =
        Stream.waitLoop env f deadline fuel w' polls') → Turn env f deadline w polls
  | done (r : Waited) : w.Later env r.world → r.result ≠ .running →
      (r.result = .blocked → ∃ p ∈ r.polls, p < 0) →
      (r.result = .returned true → r.world.ready f = true) →
      (r.result = .returned false → deadline ≠ none ∧ r.world.ready f = false) →
      (∀ fuel, Stream.waitLoop env f deadline (fuel + 1) w polls = r) →
      Turn env f deadline w polls

theorem turn (env : Env) (f : Fid) (deadline : Option Int) (w : World) (polls : List Int) :
    Turn env f deadline w polls := by
  cases hr : w.ready f with
  | true =>
    refine .done ⟨.returned true, w, polls⟩ (.refl env w) (by simp) (by simp) (fun _ ↦ hr)
      (by simp) ?_
    intro fuel
    rw [Stream.waitLoop, if_pos hr]
  | false =>
    have hnot : ¬w.ready f = true := by simp [hr]
    rcases hpt : w.pollTimeout env deadline with ⟨timeout, w₁⟩
    have h1 := World.Later.pollTimeout hpt
    cases timeout with
    | none =>
      refine .done ⟨.returned false, w₁, polls⟩ h1 (by simp) (by simp) (by simp) ?_ ?_
      · refine fun _ ↦ ⟨?_, ?_⟩
        · rintro rfl
          simp [World.pollTimeout] at hpt
        · have hmach := pollTimeout_mach env deadline w
          rw [hpt] at hmach
          change w₁.mach.ready f = false
          rw [hmach]
          exact hr
      · intro fuel
        rw [Stream.waitLoop, if_neg hnot, hpt]
    | some timeout =>
      rcases hp : w₁.poll env timeout with ⟨answer, w₂⟩
      cases answer with
      | blocks =>
        obtain ⟨rfl, hneg⟩ := World.Later.poll_blocks hp
        refine .done ⟨.blocked, w₂, polls ++ [timeout]⟩ h1 (by simp) ?_ (by simp) (by simp) ?_
        · exact fun _ ↦ ⟨timeout, by simp, hneg⟩
        · intro fuel
          rw [Stream.waitLoop, if_neg hnot, hpt]
          simp only [hp]
      | eintr =>
        obtain ⟨h2, hasked⟩ := World.Later.poll hp (by simp)
        refine .again w₂ (polls ++ [timeout]) (h1.trans h2) ?_ ?_
        · have := h1.asked
          omega
        · intro fuel
          rw [Stream.waitLoop, if_neg hnot, hpt]
          simp only [hp]
      | error =>
        obtain ⟨h2, -⟩ := World.Later.poll hp (by simp)
        refine .done ⟨.threw, w₂, polls ++ [timeout]⟩ (h1.trans h2) (by simp) (by simp)
          (by simp) (by simp) ?_
        intro fuel
        rw [Stream.waitLoop, if_neg hnot, hpt]
        simp only [hp]
      | timedOut =>
        obtain ⟨h2, -⟩ := World.Later.poll hp (by simp)
        refine .done ⟨.returned false, w₂, polls ++ [timeout]⟩ (h1.trans h2) (by simp)
          (by simp) (by simp) ?_ ?_
        · refine fun _ ↦ ⟨?_, ?_⟩
          · rintro rfl
            have hge := timeout_of_timedOut (w := w₁) (by rw [hp])
            simp only [World.pollTimeout, Prod.mk.injEq, Option.some.injEq] at hpt
            omega
          · have hmach := poll_mach env timeout w₁
            have hmach' := pollTimeout_mach env deadline w
            rw [hp] at hmach
            rw [hpt] at hmach'
            change w₂.mach.ready f = false
            rw [hmach, hmach']
            exact hr
        · intro fuel
          rw [Stream.waitLoop, if_neg hnot, hpt]
          simp only [hp]
      | ready =>
        obtain ⟨h2, hasked⟩ := World.Later.poll hp (by simp)
        cases hpump : w₂.pump env with
        | none =>
          refine .done ⟨.threw, w₂, polls ++ [timeout]⟩ (h1.trans h2) (by simp) (by simp)
            (by simp) (by simp) ?_
          intro fuel
          rw [Stream.waitLoop, if_neg hnot, hpt]
          simp only [hp, hpump]
        | some w₃ =>
          have h3 := World.Later.pump hpump
          refine .again w₃ (polls ++ [timeout]) ((h1.trans h2).trans h3) ?_ ?_
          · have := h1.asked
            have := h3.asked
            omega
          · intro fuel
            rw [Stream.waitLoop, if_neg hnot, hpt]
            simp only [hp, hpump]

/-- A call of `Stream::wait` only moves on. -/
theorem waitLoop_later (env : Env) (f : Fid) (deadline : Option Int) (fuel : Nat) (w : World)
    (polls : List Int) :
    w.Later env (Stream.waitLoop env f deadline fuel w polls).world := by
  induction fuel generalizing w polls with
  | zero => exact .refl env w
  | succ fuel ih =>
    cases turn env f deadline w polls with
    | again w' polls' hlater _ he =>
      rw [he]
      exact hlater.trans (ih w' polls')
    | done r hlater _ _ _ _ he =>
      rw [he]
      exact hlater

/-- A call that has ended takes no more fuel. -/
theorem waitLoop_mono (h : (Stream.waitLoop env f deadline fuel w polls).result ≠ .running)
    {fuel' : Nat} (hle : fuel ≤ fuel') : Stream.waitLoop env f deadline fuel' w polls =
      Stream.waitLoop env f deadline fuel w polls := by
  induction fuel generalizing w polls fuel' with
  | zero => exact (h rfl).elim
  | succ fuel ih =>
    obtain ⟨k, rfl⟩ := Nat.exists_eq_add_of_le hle
    have hk : fuel + 1 + k = fuel + k + 1 := by omega
    rw [hk]
    cases turn env f deadline w polls with
    | again w' polls' _ _ he =>
      rw [he] at h ⊢
      rw [he]
      exact ih h (Nat.le_add_right _ _)
    | done r _ _ _ _ _ he => rw [he, he]

/-- A loop against a deadline ends as soon as the questions asked have taken long enough. -/
theorem waitLoop_ends_by (n : Nat) (w : World) (polls : List Int)
    (h : d - w.time ≤ elapsed env w.asked n) :
    ∃ fuel, (Stream.waitLoop env f (some d) fuel w polls).result ≠ .running := by
  induction n generalizing w polls with
  | zero =>
    refine ⟨1, ?_⟩
    have hd : d ≤ w.time + (env w.asked).delay := by
      simp only [elapsed] at h
      omega
    cases hr : w.ready f with
    | true =>
      rw [waitLoop_ready hr]
      simp
    | false =>
      rw [waitLoop_expired hr hd]
      simp
  | succ n ih =>
    cases turn env f (some d) w polls with
    | done r _ hne _ _ _ he =>
      refine ⟨1, ?_⟩
      rw [he]
      exact hne
    | again w' polls' hlater hlt he =>
      have htime := hlater.time
      have hidx : w.asked + (w'.asked - w.asked) = w'.asked := Nat.add_sub_cancel' hlater.asked
      -- either the turn has used up what was missing, or the rest comes after it
      have hsplit := elapsed_add env w.asked (w'.asked - w.asked) n
      have hmono := elapsed_mono env w.asked (n := n + 1) (m := w'.asked - w.asked + n) (by omega)
      rw [hidx] at hsplit
      obtain ⟨fuel, hfuel⟩ := ih w' polls' (by omega)
      exact ⟨fuel + 1, by rw [he]; exact hfuel⟩

/-- A loop against a deadline ends when the clock goes on. -/
theorem waitLoop_ends (ht : Ticks env) (d : Int) (w : World) (polls : List Int) :
    ∃ fuel, (Stream.waitLoop env f (some d) fuel w polls).result ≠ .running := by
  obtain ⟨n, hn⟩ := ht.unbounded w.asked (d - w.time).toNat
  refine waitLoop_ends_by n w polls ?_
  have := Int.self_le_toNat (d - w.time)
  omega

/-- A call that blocks has made a poll without a timeout. -/
theorem waitLoop_blocked (h : (Stream.waitLoop env f deadline fuel w polls).result = .blocked) :
    ∃ p ∈ (Stream.waitLoop env f deadline fuel w polls).polls, p < 0 := by
  induction fuel generalizing w polls with
  | zero => cases h
  | succ fuel ih =>
    cases turn env f deadline w polls with
    | again w' polls' _ _ he =>
      rw [he] at h ⊢
      exact ih h
    | done r _ _ hb _ _ he =>
      rw [he] at h ⊢
      exact hb h

/-- A call that returns true leaves the fence ready. -/
theorem waitLoop_true
    (h : (Stream.waitLoop env f deadline fuel w polls).result = .returned true) :
    (Stream.waitLoop env f deadline fuel w polls).world.ready f = true := by
  induction fuel generalizing w polls with
  | zero => cases h
  | succ fuel ih =>
    cases turn env f deadline w polls with
    | again w' polls' _ _ he =>
      rw [he] at h ⊢
      exact ih h
    | done r _ _ _ hr _ he =>
      rw [he] at h ⊢
      exact hr h

/-- A call that returns false had a deadline, and leaves the fence as it was. -/
theorem waitLoop_false
    (h : (Stream.waitLoop env f deadline fuel w polls).result = .returned false) :
    deadline ≠ none ∧ (Stream.waitLoop env f deadline fuel w polls).world.ready f = false := by
  induction fuel generalizing w polls with
  | zero => cases h
  | succ fuel ih =>
    cases turn env f deadline w polls with
    | again w' polls' _ _ he =>
      rw [he] at h ⊢
      exact ih h
    | done r _ _ _ _ hr he =>
      rw [he] at h ⊢
      exact hr h

end StreamWait

section Calls

variable {env : Env} {w : World} {f : Fid} {t : Int}

theorem wait_later (env : Env) (fuel : Nat) (w : World) (f : Fid) (t : Int) :
    w.Later env (Stream.wait env fuel w f t).world := by
  unfold Stream.wait
  split
  · exact .refl env w
  · exact (World.Later.now env w).trans (waitLoop_later env f _ fuel _ _)

/-- `true` means that the fence is ready. -/
theorem wait_true {fuel : Nat} (h : (Stream.wait env fuel w f t).result = .returned true) :
    (Stream.wait env fuel w f t).world.ready f = true := by
  unfold Stream.wait at h ⊢
  split at h
  · next hr =>
    rw [if_pos hr]
    exact hr
  · next hr =>
    rw [if_neg hr]
    exact waitLoop_true h

/-- `false` means that the fence is not ready although the time, up to the last millisecond, is
over; it is never the answer without a timeout. -/
theorem wait_false (ht : t < 2 ^ 31) {fuel : Nat}
    (h : (Stream.wait env fuel w f t).result = .returned false) :
    0 ≤ t ∧ (Stream.wait env fuel w f t).world.ready f = false ∧
      w.time + t * nsPerMs - nsPerMs < (Stream.wait env fuel w f t).world.time := by
  unfold Stream.wait at h ⊢
  split at h
  · cases h
  · next hr =>
    rw [if_neg hr]
    obtain ⟨hd, hready⟩ := waitLoop_false h
    have h0 : 0 ≤ t := by
      by_contra hneg
      rw [World.deadline, if_neg hneg] at hd
      exact hd rfl
    refine ⟨h0, hready, ?_⟩
    rw [World.deadline, if_pos h0] at h ⊢
    have htime : (w.now env).time = w.time + (env w.asked).delay := rfl
    have hb := waitLoop_bounded env (w.now env) (f := f) (d := (w.now env).time + t * nsPerMs) fuel
      [] (by unfold nsPerMs; omega) (by simp)
    have hlate := (hb.2 h).2
    omega

/-- A call with a timeout ends, if the clock goes on: it returns or throws. -/
theorem wait_ends (hc : Ticks env) (h0 : 0 ≤ t) (ht : t < 2 ^ 31) (w : World) (f : Fid) :
    ∃ r : Waited, r.result ≠ .running ∧ r.result ≠ .blocked ∧
      ∃ n, ∀ fuel, n ≤ fuel → Stream.wait env fuel w f t = r := by
  by_cases hr : w.ready f = true
  · refine ⟨⟨.returned true, w, []⟩, by simp, by simp, 0, fun fuel _ ↦ ?_⟩
    rw [Stream.wait, if_pos hr]
  · have htime : (w.now env).time = w.time + (env w.asked).delay := rfl
    obtain ⟨n, hn⟩ := waitLoop_ends (f := f) hc ((w.now env).time + t * nsPerMs) (w.now env) []
    refine ⟨_, hn, ?_, n, fun fuel hle ↦ ?_⟩
    · intro hb
      obtain ⟨p, hp, hneg⟩ := waitLoop_blocked hb
      have hpos := (waitLoop_bounded env (w.now env) (f := f)
        (d := (w.now env).time + t * nsPerMs) n [] (by unfold nsPerMs; omega) (by simp)).1 p hp
      omega
    · rw [Stream.wait, if_neg hr, World.deadline, if_pos h0]
      exact waitLoop_mono hn hle

end Calls

section Group

variable {env : Env} {w : World} {fences : List Fid} {deadline : Option Int} {d : Int}

/-- What a `GroupStatus` says of the fences of a group. -/
def Verdict (w : World) (fences : List Fid) : GroupStatus → Prop
  | .allOk => ∀ f ∈ fences, w.ready f = true ∧ (w.mach.heap.fences f).status = statusOk
  | .someFailed =>
    (∀ f ∈ fences, w.ready f = true) ∧ ∃ f ∈ fences, (w.mach.heap.fences f).status ≠ statusOk
  | .pending => ∃ f ∈ fences, w.ready f = false

/-- A scan that finds every fence ready has looked at the status of each. -/
theorem scan_none {anyFailed failed : Bool} (h : w.scan fences anyFailed = (none, failed)) :
    failed = (anyFailed || fences.any fun f ↦ (w.mach.heap.fences f).status ≠ statusOk) := by
  induction fences generalizing anyFailed with
  | nil =>
    cases h
    simp
  | cons f fences ih =>
    cases hr : w.ready f with
    | true =>
      simp only [World.scan, hr, Bool.not_true, Bool.false_eq_true, if_false] at h
      rw [ih h, List.any_cons, Bool.or_assoc]
    | false =>
      simp only [World.scan, hr, Bool.not_false, if_true] at h
      cases h

/-- The status that a scan without a pending fence ends with. -/
theorem verdict_of_scan {failed : Bool} (h : w.scan fences false = (none, failed)) :
    Verdict w fences (if failed then .someFailed else .allOk) := by
  have hall := (scan_eq_none_iff false).mp (congrArg Prod.fst h)
  have hf := scan_none h
  rw [Bool.false_or] at hf
  cases failed with
  | true =>
    obtain ⟨f, hmem, hst⟩ := List.any_eq_true.mp hf.symm
    exact ⟨hall, f, hmem, of_decide_eq_true hst⟩
  | false =>
    intro f hmem
    refine ⟨hall f hmem, ?_⟩
    have hst := List.any_eq_false.mp hf.symm f hmem
    simpa using hst

/-- Milliseconds left before a deadline that is less than `2 ^ 31` of them away. -/
theorem slice_of_pollTimeout {w₁ : World} {slice : Int} (hd : d - w.time < 2 ^ 31 * nsPerMs)
    (h : w.pollTimeout env (some d) = (some slice, w₁)) :
    0 ≤ slice ∧ slice < 2 ^ 31 ∧ d - nsPerMs < w₁.time + slice * nsPerMs := by
  unfold World.pollTimeout at h
  simp only at h
  split at h
  · cases h
  · next hlt =>
    cases h
    have hlater := (World.Later.now env w).le_time
    have hpos : 0 ≤ d - (w.now env).time := by omega
    have hq0 : 0 ≤ (d - (w.now env).time) / nsPerMs := Int.ediv_nonneg hpos (by decide)
    have hq : (d - (w.now env).time) / nsPerMs < 2 ^ 31 := by
      unfold nsPerMs at hd ⊢
      omega
    rw [Int.tdiv_eq_ediv_of_nonneg hpos, castInt_of_lt hq0 hq]
    refine ⟨hq0, hq, ?_⟩
    unfold nsPerMs
    omega

/-- A deadline that is found to have passed has passed. -/
theorem expired_of_pollTimeout {w₁ : World} (h : w.pollTimeout env deadline = (none, w₁)) :
    ∃ d, deadline = some d ∧ d ≤ w₁.time := by
  unfold World.pollTimeout at h
  cases deadline with
  | none => cases h
  | some d =>
    simp only at h
    split at h
    · cases h
      exact ⟨d, rfl, by omega⟩
    · cases h

/-- The fences of a group that are not ready. -/
def unready (w : World) (fences : List Fid) : Nat := fences.countP fun f ↦ !w.ready f

/-- A wait on one of them that succeeds leaves fewer. -/
theorem unready_lt {w' : World} (h : w.Later env w') {f : Fid} (hf : f ∈ fences)
    (hr : w.ready f = false) (hr' : w'.ready f = true) :
    unready w' fences < unready w fences := by
  unfold unready
  have hle : ∀ g, (!w'.ready g) = true → (!w.ready g) = true := by
    intro g hg
    cases hw : w.ready g with
    | true => simp [h.ready hw] at hg
    | false => rfl
  induction fences with
  | nil => cases hf
  | cons g fences ih =>
    have hmono : fences.countP (fun f ↦ !w'.ready f) ≤ fences.countP fun f ↦ !w.ready f :=
      List.countP_mono_left fun g _ ↦ hle g
    rcases List.mem_cons.mp hf with rfl | hf
    · simp only [List.countP_cons, hr, hr']
      simp
      omega
    · have hlt := ih hf
      have hg := hle g
      simp only [List.countP_cons]
      by_cases hnew : (!w'.ready g) = true
      · rw [if_pos hnew, if_pos (hg hnew)]
        exact Nat.add_lt_add_right hlt 1
      · rw [if_neg hnew]
        exact Nat.lt_add_right _ hlt

/-- The loop of a group wait against a deadline ends, if the clock goes on. -/
theorem groupLoop_ends (hc : Ticks env) (w : World) (hd : d - w.time < 2 ^ 31 * nsPerMs) :
    ∃ r : GroupEnd × World, r.1 ≠ .running ∧ r.1 ≠ .blocked ∧ ∃ n, ∀ fuel inner, n ≤ fuel →
      n ≤ inner → CommandGroup.waitLoop env inner fences (some d) fuel w = r := by
  induction hm : unready w fences using Nat.strong_induction_on generalizing w with
  | _ m ih =>
    subst hm
    have hone {r : GroupEnd × World} (h1 : r.1 ≠ .running) (h2 : r.1 ≠ .blocked) (n : Nat)
        (h : ∀ fuel inner, n ≤ inner →
          CommandGroup.waitLoop env inner fences (some d) (fuel + 1) w = r) :
        ∃ r : GroupEnd × World, r.1 ≠ .running ∧ r.1 ≠ .blocked ∧ ∃ n, ∀ fuel inner, n ≤ fuel →
          n ≤ inner → CommandGroup.waitLoop env inner fences (some d) fuel w = r := by
      refine ⟨r, h1, h2, n + 1, ?_⟩
      intro fuel inner hf hi
      obtain ⟨k, rfl⟩ := Nat.exists_eq_add_of_le hf
      have hk : n + 1 + k = n + k + 1 := by omega
      rw [hk]
      exact h (n + k) inner (by omega)
    rcases hs : w.scan fences false with ⟨found, failed⟩
    cases found with
    | none =>
      refine hone (r := (.status (if failed then .someFailed else .allOk), w)) (by simp) (by simp) 0
        fun fuel inner _ ↦ ?_
      rw [CommandGroup.waitLoop, hs]
    | some f =>
      obtain ⟨hf, hr⟩ := scan_eq_some (congrArg Prod.fst hs)
      rcases hpt : w.pollTimeout env (some d) with ⟨slice, w₁⟩
      have h1 := World.Later.pollTimeout hpt
      cases slice with
      | none =>
        refine hone (r := (.status .pending, w₁)) (by simp) (by simp) 0 fun fuel inner _ ↦ ?_
        rw [CommandGroup.waitLoop, hs]
        simp only [hpt]
      | some slice =>
        obtain ⟨h0, ht, -⟩ := slice_of_pollTimeout hd hpt
        obtain ⟨r, hrun, hblock, n, hn⟩ := wait_ends hc h0 ht w₁ f
        have hlater := wait_later env n w₁ f slice
        have htrue := fun h ↦ @wait_true env w₁ f slice n h
        rw [hn n (Nat.le_refl _)] at hlater htrue
        cases hres : r.result with
        | running => exact (hrun hres).elim
        | blocked => exact (hblock hres).elim
        | threw =>
          refine hone (r := (.threw, r.world)) (by simp) (by simp) n fun fuel inner hi ↦ ?_
          rw [CommandGroup.waitLoop, hs]
          simp only [hpt, hn inner hi, hres]
        | returned done =>
          cases done with
          | false =>
            refine hone (r := (.status .pending, r.world)) (by simp) (by simp) n
              fun fuel inner hi ↦ ?_
            rw [CommandGroup.waitLoop, hs]
            simp only [hpt, hn inner hi, hres]
          | true =>
            have hall := h1.trans hlater
            obtain ⟨r', hr1, hr2, n', hn'⟩ :=
              ih _ (unready_lt hall hf hr (htrue hres)) r.world
                (by have := hall.le_time; omega) rfl
            refine ⟨r', hr1, hr2, max n n' + 1, ?_⟩
            intro fuel inner hfuel hi
            obtain ⟨k, rfl⟩ := Nat.exists_eq_add_of_le hfuel
            have hk : max n n' + 1 + k = max n n' + k + 1 := by omega
            rw [hk, CommandGroup.waitLoop, hs]
            simp only [hpt, hn inner (by omega), hres]
            exact hn' _ inner (by omega) (by omega)

/-- What the loop of a group wait returns is what its fences say. It gives up at most two
milliseconds early, and never without a deadline. -/
theorem groupLoop_verdict {inner : Nat} (fuel : Nat) (w : World)
    (hd : ∀ d, deadline = some d → d - w.time < 2 ^ 31 * nsPerMs) {s : GroupStatus}
    (h : (CommandGroup.waitLoop env inner fences deadline fuel w).1 = .status s) :
    Verdict (CommandGroup.waitLoop env inner fences deadline fuel w).2 fences s ∧
      (s = .pending → ∃ d, deadline = some d ∧
        d - 2 * nsPerMs < (CommandGroup.waitLoop env inner fences deadline fuel w).2.time) := by
  induction fuel generalizing w with
  | zero => cases h
  | succ fuel ih =>
    rcases hs : w.scan fences false with ⟨found, failed⟩
    rw [CommandGroup.waitLoop, hs] at h ⊢
    cases found with
    | none =>
      cases h
      refine ⟨verdict_of_scan hs, fun hp ↦ ?_⟩
      split at hp <;> cases hp
    | some f =>
      obtain ⟨hf, hr⟩ := scan_eq_some (congrArg Prod.fst hs)
      simp only at h ⊢
      rcases hpt : w.pollTimeout env deadline with ⟨slice, w₁⟩
      rw [hpt] at h
      have h1 := World.Later.pollTimeout hpt
      cases slice with
      | none =>
        cases h
        obtain ⟨d, hdl, hlate⟩ := expired_of_pollTimeout hpt
        refine ⟨⟨f, hf, ?_⟩, fun _ ↦ ⟨d, hdl, ?_⟩⟩
        · have hmach := pollTimeout_mach env deadline w
          rw [hpt] at hmach
          change w₁.mach.ready f = false
          rw [hmach]
          exact hr
        · change d - 2 * nsPerMs < w₁.time
          unfold nsPerMs
          omega
      | some slice =>
        simp only at h ⊢
        have hlater := wait_later env inner w₁ f slice
        cases hres : (Stream.wait env inner w₁ f slice).result with
        | returned done =>
          rw [hres] at h
          cases done with
          | true =>
            refine ih _ (fun d hdl ↦ ?_) h
            have := hd d hdl
            have := (h1.trans hlater).le_time
            omega
          | false =>
            cases h
            cases deadline with
            | none =>
              cases hpt
              obtain ⟨h0, -⟩ := wait_false (by decide) hres
              omega
            | some d =>
              obtain ⟨-, ht, hslice⟩ := slice_of_pollTimeout (hd d rfl) hpt
              obtain ⟨-, hready, hlate⟩ := wait_false ht hres
              refine ⟨⟨f, hf, hready⟩, fun _ ↦ ⟨d, rfl, ?_⟩⟩
              dsimp only
              omega
        | threw | blocked | running =>
          rw [hres] at h
          cases h

end Group

/-- Where the clock goes on, every wait with a timeout ends: `Stream::wait` returns or throws,
and so does `CommandGroup::wait`, whatever the fences do in the meantime. -/
theorem timed_waits_end (env : Env) (hc : Ticks env) (t : Int) (h0 : 0 ≤ t) (ht : t < 2 ^ 31)
    (w : World) :
    (∀ f, ∃ r : Waited, r.result ≠ .running ∧ r.result ≠ .blocked ∧
      ∃ n, ∀ fuel, n ≤ fuel → Stream.wait env fuel w f t = r) ∧
    ∀ g : CommandGroup, ∃ r : GroupEnd × World, r.1 ≠ .running ∧ r.1 ≠ .blocked ∧
      ∃ n, ∀ fuel inner, n ≤ fuel → n ≤ inner → CommandGroup.wait env fuel inner w g t = r := by
  refine ⟨fun f ↦ wait_ends hc h0 ht w f, fun g ↦ ?_⟩
  cases hs : g.isSealed with
  | false =>
    refine ⟨(.logicError .queryBeforeSeal, w), by simp, by simp, 0, fun fuel inner _ _ ↦ ?_⟩
    simp [CommandGroup.wait, hs]
  | true =>
    have hd : (w.now env).time + t * nsPerMs - (w.now env).time < 2 ^ 31 * nsPerMs := by
      unfold nsPerMs
      omega
    obtain ⟨r, h1, h2, n, hn⟩ := @groupLoop_ends env g.fences _ hc (w.now env) hd
    refine ⟨r, h1, h2, n, fun fuel inner hf hi ↦ ?_⟩
    simp only [CommandGroup.wait, hs, Bool.not_true, Bool.false_eq_true, if_false,
      World.deadline, if_pos h0]
    exact hn fuel inner hf hi

/-- A wait of five milliseconds for a completion that never comes. -/
theorem timed_waits_end_silent :
    ∃ r : Waited, r.result ≠ .running ∧ r.result ≠ .blocked ∧
      ∃ n, ∀ fuel, n ≤ fuel → Stream.wait promptEnv fuel oneSubmitted 0 5 = r :=
  (timed_waits_end promptEnv (fun i ↦ ⟨i, Nat.le_refl i, Nat.succ_pos 999⟩) 5 (by decide)
    (by decide) oneSubmitted).1 0

/-- The status that `CommandGroup::wait` returns is right when it returns: the group is sealed,
`AllOk` and `SomeFailed` are said of fences that are all ready, and `Pending` only when one is
not ready and the timeout, which is then not negative, is over up to two milliseconds. -/
theorem group_wait_verdict (env : Env) (fuel inner : Nat) (w : World) (g : CommandGroup) (t : Int)
    (ht : t < 2 ^ 31) (s : GroupStatus) (w' : World)
    (h : CommandGroup.wait env fuel inner w g t = (.status s, w')) :
    g.isSealed = true ∧ Verdict w' g.fences s ∧
      (s = .pending → 0 ≤ t ∧ (t - 2) * nsPerMs < w'.time - w.time) := by
  unfold CommandGroup.wait at h
  cases hs : g.isSealed with
  | false => simp [hs] at h
  | true =>
    simp only [hs, Bool.not_true, Bool.false_eq_true, if_false] at h
    have htime : (w.now env).time = w.time + (env w.asked).delay := rfl
    have hd : ∀ d, (w.now env).deadline t = some d →
        d - (w.now env).time < 2 ^ 31 * nsPerMs := by
      intro d hd
      unfold World.deadline at hd
      split at hd
      · cases hd
        unfold nsPerMs
        omega
      · cases hd
    obtain ⟨hv, hlate⟩ := groupLoop_verdict fuel (w.now env) hd (congrArg Prod.fst h)
    rw [h] at hv hlate
    refine ⟨rfl, hv, fun hp ↦ ?_⟩
    obtain ⟨d, hdl, hd'⟩ := hlate hp
    unfold World.deadline at hdl
    split at hdl
    · next h0 =>
      cases hdl
      refine ⟨h0, ?_⟩
      change (w.now env).time + t * nsPerMs - 2 * nsPerMs < w'.time at hd'
      rw [Int.sub_mul]
      omega
    · cases hdl

/-- A group whose only command has completed by the time it is waited for. -/
theorem group_wait_verdict_completed :
    Verdict (CommandGroup.wait promptEnv 2 8 oneCompleted ⟨[0], true⟩ 5).2 [0] .allOk :=
  (group_wait_verdict promptEnv 2 8 oneCompleted ⟨[0], true⟩ 5 (by decide) .allOk _ rfl).2.1

end DmaAccel.Timed
