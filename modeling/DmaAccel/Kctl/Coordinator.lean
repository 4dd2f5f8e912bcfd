import DmaAccel.Kctl.Refinement
import Mathlib.Algebra.BigOperators.Group.Finset.Basic
import Mathlib.Algebra.Order.Group.Multiset
import Mathlib.Tactic.Abel

/-!
# The coordinator of several Streams

Source `track-c/tests/dma_accel_multistream_threaded_test.cpp`: `stream_worker` (74–124) and `main`
(128–172). Each worker reports its completions through the queue, and calls `try_push` again where
it was refused; `main` joins the workers and only then empties the queue. What a worker reports and
in which order is a parameter, and a worker whose Stream throws is left out.
-/

namespace DmaAccel.Kctl

open DmaAccel.Base

universe u

variable {T : Type u}

/-- Where `main` is: at the `join` of the workers, in its loop of `try_pop`, or past it. -/
inductive Stage where
  | joining
  | draining
  | done
  deriving DecidableEq

/-- The queue, what each worker has yet to report, and `timeline`. -/
structure Coordinator (T : Type u) where
  queue : MpmcBoundedQueue T
  todo : Nat → List T
  timeline : List T
  stage : Stage

namespace Coordinator

/-- A worker calls `try_push`, `main` calls `try_pop` or ends its wait, or a thread goes on with its
call. -/
inductive Act where
  | report (i : Nat)
  | join
  | pop
  | access (t seen : Nat)
  | fail (t seen : Nat)

/-- The workers begin. -/
def start (events : Nat → List T) (zero : T) : Coordinator T :=
  ⟨.construct zero, events, [], .joining⟩

/-- A thread has gone on with its call. An event that is in the queue is not reported again, one
that has come out is put on the timeline, and a refusal ends the loop of `main`. -/
def after (s : Coordinator T) (q : MpmcBoundedQueue T) : Coordinator T :=
  match q.log.drop s.queue.log.length with
  | [.pushed i true] => { s with queue := q, todo := Function.update s.todo i (s.todo i).tail }
  | [.popped _ (some ev)] => { s with queue := q, timeline := s.timeline ++ [ev] }
  | [.popped _ none] => { s with queue := q, stage := .done }
  | _ => { s with queue := q }

/-- The step function, for workers `0` to `n - 1`; `main` is thread `n`. -/
def step (n k : Nat) (moved : T → T) (s : Coordinator T) : Act → Option (Coordinator T)
  | .report i =>
    match s.todo i with
    | ev :: _ =>
      if i < n then (s.queue.step k moved (.tryPush i ev)).map fun q ↦ { s with queue := q }
      else none
    | [] => none
  | .join =>
    if s.stage = .joining ∧ ∀ i < n, s.todo i = [] then some { s with stage := .draining } else none
  | .pop =>
    if s.stage = .draining then
      (s.queue.step k moved (.tryPop n)).map fun q ↦ { s with queue := q }
    else none
  | .access t seen => (s.queue.access k moved t seen).map s.after
  | .fail t seen => (s.queue.step k moved (.fail t seen)).map s.after

end Coordinator

section Reported

/-- What a worker's call is about. -/
def WorkerCall : CallPc T → List T → Prop
  | .idle, _ => True
  | .pushing x, todo => ∃ rest, todo = x :: rest
  | .pushed, todo => todo ≠ []
  | _, _ => False

/-- `main` calls only in its loop. -/
def MainCall : CallPc T → Stage → Prop
  | .idle, _ => True
  | .popping, stage | .popped _, stage => stage = .draining
  | _, _ => False

/-- The event that a consumer has taken. -/
def inHand : CallPc T → Multiset T
  | .popped x => {x}
  | _ => 0

/-- The events of a worker that are not in the queue. -/
def pending : CallPc T → List T → Multiset T
  | .pushed, todo => todo.tail
  | _, todo => todo

/-- Every event is in one place, and `main` ends its loop on an empty queue. -/
structure Reported (n c : Nat) (events : Nat → List T) (q : SharedQueue T) (todo : Nat → List T)
    (timeline : List T) (stage : Stage) : Prop where
  worker : ∀ i < n, WorkerCall (q.threads i) (todo i)
  main : MainCall (q.threads n) stage
  others : ∀ t, n < t → q.threads t = .idle
  room : q.items.length ≤ c
  joined : stage ≠ .joining → ∀ i < n, todo i = []
  first : stage = .joining → timeline = []
  fits : stage ≠ .joining → ∑ i ∈ Finset.range n, (events i).length ≤ c
  ended : stage = .done → q.items = []
  conserved : (q.items : Multiset T) + inHand (q.threads n) + timeline +
    ∑ i ∈ Finset.range n, pending (q.threads i) (todo i) =
      ∑ i ∈ Finset.range n, (events i : Multiset T)
  accepted : ∑ i ∈ Finset.range n, (events i).length ≤ c → ∀ i, .pushed i false ∉ q.log

variable {n c : Nat} {events todo todo' : Nat → List T} {q q' : SharedQueue T}
  {timeline : List T} {stage : Stage} {t i : Nat} {x : T}

namespace Reported

variable (h : Reported n c events q todo timeline stage)
include h

/-- A call is one of a worker or of `main`. -/
theorem caller (t : Nat) : (t < n ∧ WorkerCall (q.threads t) (todo t)) ∨
    (t = n ∧ MainCall (q.threads t) stage) ∨ q.threads t = .idle := by
  obtain hlt | rfl | hgt := Nat.lt_trichotomy t n
  · exact .inl ⟨hlt, h.worker t hlt⟩
  · exact .inr (.inl ⟨rfl, h.main⟩)
  · exact .inr (.inr (h.others t hgt))

/-- Only workers push. -/
theorem worker_of_pushing (ht : q.threads t = .pushing x) :
    t < n ∧ ∃ rest, todo t = x :: rest := by
  have hcaller := h.caller t
  rw [ht] at hcaller
  obtain ⟨hlt, hw⟩ | ⟨-, hm⟩ | hidle := hcaller
  · exact ⟨hlt, hw⟩
  · exact hm.elim
  · cases hidle

theorem worker_of_pushed (ht : q.threads t = .pushed) : t < n ∧ todo t ≠ [] := by
  have hcaller := h.caller t
  rw [ht] at hcaller
  obtain ⟨hlt, hw⟩ | ⟨-, hm⟩ | hidle := hcaller
  · exact ⟨hlt, hw⟩
  · exact hm.elim
  · cases hidle

/-- Only `main` pops. -/
theorem main_of_popping (ht : q.threads t = .popping) : t = n ∧ stage = .draining := by
  have hcaller := h.caller t
  rw [ht] at hcaller
  obtain ⟨-, hw⟩ | ⟨hn, hm⟩ | hidle := hcaller
  · exact hw.elim
  · exact ⟨hn, hm⟩
  · cases hidle

theorem main_of_popped (ht : q.threads t = .popped x) : t = n ∧ stage = .draining := by
  have hcaller := h.caller t
  rw [ht] at hcaller
  obtain ⟨-, hw⟩ | ⟨hn, hm⟩ | hidle := hcaller
  · exact hw.elim
  · exact ⟨hn, hm⟩
  · cases hidle

/-- After the `join` no worker calls. -/
theorem joining_of_call (ht : t < n) (htodo : todo t ≠ []) : stage = .joining := by
  by_contra hne
  exact htodo (h.joined hne t ht)

/-- A worker goes on. -/
theorem moveWorker {pc : CallPc T} (ht : t < n)
    (hthreads : q'.threads = Function.update q.threads t pc) (htodo : ∀ j, j ≠ t → todo' j = todo j)
    (hworker : WorkerCall pc (todo' t)) (hroom : q'.items.length ≤ c)
    (hjoined : stage ≠ .joining → todo' t = []) (hended : stage = .done → q'.items = [])
    (hconserved : (q'.items : Multiset T) + pending pc (todo' t) =
      q.items + pending (q.threads t) (todo t))
    (haccepted : ∑ i ∈ Finset.range n, (events i).length ≤ c → ∀ i, .pushed i false ∉ q'.log) :
    Reported n c events q' todo' timeline stage := by
  have hself : q'.threads t = pc := by rw [hthreads, Function.update_self]
  have hother : ∀ j, j ≠ t → q'.threads j = q.threads j := fun j hj ↦ by
    rw [hthreads, Function.update_of_ne hj]
  have hn : q'.threads n = q.threads n := hother n (Nat.ne_of_gt ht)
  refine ⟨?_, by rw [hn]; exact h.main, ?_, hroom, ?_, h.first, h.fits, hended, ?_, haccepted⟩
  · intro i hi
    by_cases heq : i = t
    · rw [heq, hself]
      exact hworker
    · rw [hother i heq, htodo i heq]
      exact h.worker i hi
  · intro j hj
    rw [hother j (by omega)]
    exact h.others j hj
  · intro hne i hi
    by_cases heq : i = t
    · rw [heq]
      exact hjoined hne
    · rw [htodo i heq]
      exact h.joined hne i hi
  · have hmem := Finset.mem_range.mpr ht
    have hrest : ∑ j ∈ (Finset.range n).erase t, pending (q'.threads j) (todo' j) =
        ∑ j ∈ (Finset.range n).erase t, pending (q.threads j) (todo j) := by
      refine Finset.sum_congr rfl fun j hj ↦ ?_
      have hne := Finset.ne_of_mem_erase hj
      rw [hother j hne, htodo j hne]
    have hsum := h.conserved
    rw [← Finset.add_sum_erase _ _ hmem] at hsum ⊢
    rw [hn, hself, hrest, ← hsum]
    calc (q'.items : Multiset T) + inHand (q.threads n) + timeline + (pending pc (todo' t) +
          ∑ j ∈ (Finset.range n).erase t, pending (q.threads j) (todo j))
        = (q'.items + pending pc (todo' t)) + (inHand (q.threads n) + timeline +
          ∑ j ∈ (Finset.range n).erase t, pending (q.threads j) (todo j)) := by abel
      _ = (q.items + pending (q.threads t) (todo t)) + (inHand (q.threads n) + timeline +
          ∑ j ∈ (Finset.range n).erase t, pending (q.threads j) (todo j)) := by rw [hconserved]
      _ = _ := by abel

/-- `main` goes on in its loop. -/
theorem moveMain {pc : CallPc T} {timeline' : List T} {stage' : Stage}
    (hdraining : stage = .draining)
    (hthreads : q'.threads = Function.update q.threads n pc) (hmain : MainCall pc stage')
    (hstage : stage' ≠ .joining) (hlength : q'.items.length ≤ q.items.length)
    (hended : stage' = .done → q'.items = [])
    (hconserved : (q'.items : Multiset T) + inHand pc + timeline' =
      q.items + inHand (q.threads n) + timeline)
    (hlog : ∀ i, .pushed i false ∈ q'.log → .pushed i false ∈ q.log) :
    Reported n c events q' todo timeline' stage' := by
  have hself : q'.threads n = pc := by rw [hthreads, Function.update_self]
  have hother : ∀ j, j ≠ n → q'.threads j = q.threads j := fun j hj ↦ by
    rw [hthreads, Function.update_of_ne hj]
  have hjoined : stage ≠ .joining := by rw [hdraining]; decide
  refine ⟨?_, by rw [hself]; exact hmain, ?_, hlength.trans h.room, fun _ ↦ h.joined hjoined,
    fun heq ↦ absurd heq hstage, fun _ ↦ h.fits hjoined, hended, ?_,
    fun hle i hi ↦ h.accepted hle i (hlog i hi)⟩
  · intro i hi
    rw [hother i (Nat.ne_of_lt hi)]
    exact h.worker i hi
  · intro j hj
    rw [hother j (Nat.ne_of_gt hj)]
    exact h.others j hj
  · have hrest : ∑ j ∈ Finset.range n, pending (q'.threads j) (todo j) =
        ∑ j ∈ Finset.range n, pending (q.threads j) (todo j) :=
      Finset.sum_congr rfl fun j hj ↦ by rw [hother j (Finset.mem_range.mp hj).ne]
    rw [hself, hconserved, hrest]
    exact h.conserved

/-- The `join` ends where no worker has anything left to report. -/
theorem join (hjoin : ∀ i < n, todo i = []) (hjoining : stage = .joining)
    (hidle : q.threads n = .idle) : Reported n c events q todo timeline .draining := by
  have hpending : ∑ i ∈ Finset.range n, pending (q.threads i) (todo i) = 0 := by
    refine Finset.sum_eq_zero fun i hi ↦ ?_
    rw [hjoin i (Finset.mem_range.mp hi)]
    cases q.threads i <;> rfl
  have hall : (q.items : Multiset T) = ∑ i ∈ Finset.range n, (events i : Multiset T) := by
    have hsum := h.conserved
    rw [hpending, h.first hjoining, hidle] at hsum
    simpa [inHand] using hsum
  have hfits : ∑ i ∈ Finset.range n, (events i).length ≤ c := by
    have hcard := congrArg Multiset.card hall
    rw [Multiset.card_sum] at hcard
    simp only [Multiset.coe_card] at hcard
    rw [← hcard]
    exact h.room
  exact ⟨h.worker, by rw [hidle]; trivial, h.others, h.room, fun _ ↦ hjoin,
    (fun heq ↦ by cases heq), fun _ ↦ hfits, (fun heq ↦ by cases heq), h.conserved, h.accepted⟩

/-- No event is refused where all of them fit. -/
theorem not_full {other : Nat} (ht : q.threads t = .pushing x)
    (hwhy : q.items.length = c ∨ (q.threads other).hasPopped) :
    c < ∑ i ∈ Finset.range n, (events i).length := by
  obtain ⟨hlt, rest, htodo⟩ := h.worker_of_pushing ht
  have hjoining := h.joining_of_call hlt (by rw [htodo]; exact List.cons_ne_nil x rest)
  obtain hfull | hpopped := hwhy
  · have hcard := congrArg Multiset.card h.conserved
    rw [← Finset.add_sum_erase _ _ (Finset.mem_range.mpr hlt), ht, htodo] at hcard
    simp only [Multiset.card_add, Multiset.card_sum, Multiset.coe_card, pending,
      List.length_cons] at hcard
    omega
  · exfalso
    cases hpc : q.threads other with
    | popped y =>
      have := (h.main_of_popped hpc).2
      rw [hjoining] at this
      cases this
    | _ => rw [hpc] at hpopped; cases hpopped

/-- The loop of `main` ends on an empty queue. -/
theorem empty_of_refused {other : Nat} (ht : q.threads t = .popping)
    (hwhy : q.items = [] ∨ (q.threads other).hasPushed) : q.items = [] := by
  obtain hempty | hpushed := hwhy
  · exact hempty
  · exfalso
    cases hpc : q.threads other with
    | pushed =>
      obtain ⟨hlt, htodo⟩ := h.worker_of_pushed hpc
      have hjoining := h.joining_of_call hlt htodo
      rw [(h.main_of_popping ht).2] at hjoining
      cases hjoining
    | _ => rw [hpc] at hpushed; cases hpushed

end Reported

end Reported

namespace Coordinator

variable {n k : Nat} {moved : T → T} {events : Nat → List T} {s s' : Coordinator T}
  {m : MpmcBoundedQueue T} {t : Nat}

theorem after_same (hlog : m.log = s.queue.log) : s.after m = { s with queue := m } := by
  rw [after, hlog, List.drop_length]

theorem after_pushed (hlog : m.log = s.queue.log ++ [.pushed t true]) :
    s.after m = { s with queue := m, todo := Function.update s.todo t (s.todo t).tail } := by
  rw [after, hlog, List.drop_left]

theorem after_popped {x : T} (hlog : m.log = s.queue.log ++ [.popped t (some x)]) :
    s.after m = { s with queue := m, timeline := s.timeline ++ [x] } := by
  rw [after, hlog, List.drop_left]

theorem after_full (hlog : m.log = s.queue.log ++ [.pushed t false]) :
    s.after m = { s with queue := m } := by
  rw [after, hlog, List.drop_left]

theorem after_empty (hlog : m.log = s.queue.log ++ [.popped t none]) :
    s.after m = { s with queue := m, stage := .done } := by
  rw [after, hlog, List.drop_left]

/-- The invariant of the queue, and what has become of the events. -/
structure Inv (n k : Nat) (events : Nat → List T) (s : Coordinator T) : Prop where
  ticketed : s.queue.Ticketed k
  reported : Reported n (capacity k) events s.queue.shared s.todo s.timeline s.stage

/-- What a thread's call comes to. -/
theorem Inv.after (h : Inv n k events s) (hm : m.Ticketed k)
    (hf : MpmcBoundedQueue.Follows k t s.queue m) : Inv n k events (s.after m) := by
  have hr := h.reported
  unfold MpmcBoundedQueue.Follows at hf
  generalize hq : m.shared = q' at hf
  obtain rfl | he := hf
  · have hlog : m.log = s.queue.log := congrArg SharedQueue.log hq
    rw [after_same hlog]
    exact ⟨hm, by rw [hq]; exact hr⟩
  cases he with
  | enq x ht hlt =>
    obtain ⟨hn, rest, htodo⟩ := hr.worker_of_pushing ht
    have hjoining := hr.joining_of_call hn (by rw [htodo]; exact List.cons_ne_nil x rest)
    have hlog : m.log = s.queue.log := congrArg SharedQueue.log hq
    rw [after_same hlog]
    refine ⟨hm, ?_⟩
    rw [hq]
    refine hr.moveWorker hn rfl (fun _ _ ↦ rfl) (by rw [htodo]; exact List.cons_ne_nil x rest) ?_
      (fun hne ↦ absurd hjoining hne) (fun heq ↦ by rw [hjoining] at heq; cases heq) ?_ hr.accepted
    · rw [List.length_append]
      exact hlt
    · rw [ht, htodo]
      simp only [pending, List.tail_cons, Multiset.coe_add, List.append_assoc,
        List.singleton_append]
  | deq x rest ht hitems =>
    obtain ⟨rfl, hdraining⟩ := hr.main_of_popping ht
    have hlog : m.log = s.queue.log := congrArg SharedQueue.log hq
    rw [after_same hlog]
    refine ⟨hm, ?_⟩
    rw [hq]
    refine hr.moveMain hdraining rfl hdraining (by rw [hdraining]; decide) ?_
      (fun heq ↦ by rw [hdraining] at heq; cases heq) ?_ fun _ hi ↦ hi
    · rw [hitems]
      exact Nat.le_succ _
    · rw [ht, hitems]
      simp only [inHand, add_zero, ← Multiset.cons_coe, ← Multiset.singleton_add,
        add_comm {x}]
  | pushed ht =>
    obtain ⟨hn, htodo⟩ := hr.worker_of_pushed ht
    have hjoining := hr.joining_of_call hn htodo
    have hlog : m.log = s.queue.log ++ [.pushed t true] := congrArg SharedQueue.log hq
    rw [after_pushed hlog]
    refine ⟨hm, ?_⟩
    rw [hq]
    refine hr.moveWorker hn rfl (fun j hj ↦ Function.update_of_ne hj _ _) trivial hr.room
      (fun hne ↦ absurd hjoining hne) (fun heq ↦ by rw [hjoining] at heq; cases heq) ?_ ?_
    · simp only [ht, Function.update_self]
      rfl
    · intro hle i hi
      simpa using hr.accepted hle i (by simpa [SharedQueue.logged, SharedQueue.setPc] using hi)
  | popped x ht =>
    obtain ⟨rfl, hdraining⟩ := hr.main_of_popped ht
    have hlog : m.log = s.queue.log ++ [.popped t (some x)] := congrArg SharedQueue.log hq
    rw [after_popped hlog]
    refine ⟨hm, ?_⟩
    rw [hq]
    refine hr.moveMain hdraining rfl trivial (by rw [hdraining]; decide) le_rfl
      (fun heq ↦ by rw [hdraining] at heq; cases heq) ?_ ?_
    · rw [ht, ← Multiset.coe_add]
      simp only [inHand, add_zero, Multiset.coe_singleton, add_assoc, add_comm {x}]
      rfl
    · intro i hi
      simpa [SharedQueue.logged, SharedQueue.setPc] using hi
  | full x other ht hwhy =>
    obtain ⟨hn, rest, htodo⟩ := hr.worker_of_pushing ht
    have hjoining := hr.joining_of_call hn (by rw [htodo]; exact List.cons_ne_nil x rest)
    have hlog : m.log = s.queue.log ++ [.pushed t false] := congrArg SharedQueue.log hq
    rw [after_full hlog]
    refine ⟨hm, ?_⟩
    rw [hq]
    refine hr.moveWorker hn rfl (fun _ _ ↦ rfl) trivial hr.room (fun hne ↦ absurd hjoining hne)
      (fun heq ↦ by rw [hjoining] at heq; cases heq) ?_ ?_
    · rw [ht]
      rfl
    · intro hle
      exact absurd (hr.not_full ht hwhy) (Nat.not_lt.mpr hle)
  | empty other ht hwhy =>
    obtain ⟨rfl, hdraining⟩ := hr.main_of_popping ht
    have hlog : m.log = s.queue.log ++ [.popped t none] := congrArg SharedQueue.log hq
    rw [after_empty hlog]
    refine ⟨hm, ?_⟩
    rw [hq]
    refine hr.moveMain hdraining rfl trivial (by simp) le_rfl
      (fun _ ↦ hr.empty_of_refused ht hwhy) ?_ ?_
    · rw [ht]
      rfl
    · intro i hi
      simpa [SharedQueue.logged, SharedQueue.setPc] using hi

/-- Every step keeps it. -/
theorem Inv.step {a : Act} (h : Inv n k events s) (hk : 1 ≤ k)
    (hs : s.step n k moved a = some s') : Inv n k events s' := by
  have hr := h.reported
  cases a with
  | report i =>
    simp only [Coordinator.step] at hs
    split at hs
    case h_1 ev rest htodo =>
      split at hs
      case isTrue hi =>
        obtain ⟨m, hm, rfl⟩ := Option.map_eq_some_iff.mp hs
        obtain ⟨hm', hstep⟩ := h.ticketed.tryPush hm
        obtain ⟨hidle, hq⟩ := SharedQueue.of_step_push hstep
        refine ⟨hm', ?_⟩
        rw [hq]
        refine hr.moveWorker hi rfl (fun _ _ ↦ rfl) ⟨rest, htodo⟩ hr.room
          (fun hne ↦ hr.joined hne i hi) hr.ended ?_ ?_
        · rw [hidle]
          rfl
        · intro hle j hj
          simpa using hr.accepted hle j (by simpa [SharedQueue.logged, SharedQueue.setPc] using hj)
      case isFalse => cases hs
    case h_2 => cases hs
  | join =>
    simp only [Coordinator.step] at hs
    split at hs
    case isFalse => cases hs
    case isTrue hjoin =>
      cases hs
      have hmain := hr.main
      refine ⟨h.ticketed, hr.join hjoin.2 hjoin.1 ?_⟩
      cases hpc : s.queue.shared.threads n with
      | idle => rfl
      | pushing x | pushed => rw [hpc] at hmain; cases hmain
      | popping | popped x =>
        rw [hpc, hjoin.1] at hmain
        cases hmain
  | pop =>
    simp only [Coordinator.step] at hs
    split at hs
    case isTrue hdraining =>
      obtain ⟨m, hm, rfl⟩ := Option.map_eq_some_iff.mp hs
      obtain ⟨hm', hstep⟩ := h.ticketed.tryPop hm
      obtain ⟨hidle, hq⟩ := SharedQueue.of_step_pop hstep
      refine ⟨hm', ?_⟩
      rw [hq]
      refine hr.moveMain hdraining rfl hdraining (by rw [hdraining]; decide) le_rfl hr.ended ?_ ?_
      · rw [hidle]
        rfl
      · intro i hi
        simpa [SharedQueue.logged, SharedQueue.setPc] using hi
    case isFalse => cases hs
  | access t seen =>
    obtain ⟨m, hm, rfl⟩ := Option.map_eq_some_iff.mp hs
    obtain ⟨hm', hf⟩ := h.ticketed.access hk hm
    exact h.after hm' hf
  | fail t seen =>
    obtain ⟨m, hm, rfl⟩ := Option.map_eq_some_iff.mp hs
    obtain ⟨hm', hf⟩ := h.ticketed.fail hm
    exact h.after hm' hf

theorem Inv.start (zero : T) : Inv n k events (.start events zero) where
  ticketed := MpmcBoundedQueue.ticketed_construct k zero
  reported :=
    { worker := fun _ _ ↦ trivial
      main := trivial
      others := fun _ _ ↦ rfl
      room := Nat.zero_le _
      joined := fun hne ↦ absurd rfl hne
      first := fun _ ↦ rfl
      fits := fun hne ↦ absurd rfl hne
      ended := fun _ ↦ rfl
      conserved := by
        have hitems : (Coordinator.start events zero).queue.shared.items = [] := rfl
        rw [hitems]
        exact (zero_add _).trans (by rfl)
      accepted := fun _ _ hi ↦ by cases hi }

/-- The coordinator loses no event and makes none up: where `main` has come past its loop, the
timeline is made up of the events of all workers. If these are no more than the queue has cells, no
`try_push` is refused; if they are more, `main` never gets past the `join`. -/
theorem coordinator_reports (hk : 1 ≤ k) (zero : T)
    (h : Reach (Coordinator.step n k moved) anyStep (.start events zero) s) :
    (s.stage = .done →
      (s.timeline : Multiset T) = ∑ i ∈ Finset.range n, (events i : Multiset T)) ∧
    (∑ i ∈ Finset.range n, (events i).length ≤ capacity k → ∀ i, .pushed i false ∉ s.queue.log) ∧
    (capacity k < ∑ i ∈ Finset.range n, (events i).length → s.stage = .joining) := by
  have hr := (h.invariant (.start zero) fun _ _ _ _ hi _ hs ↦ hi.step hk hs :
    Inv n k events s).reported
  refine ⟨fun hdone ↦ ?_, hr.accepted, fun hlt ↦ ?_⟩
  · have hne : s.stage ≠ .joining := by rw [hdone]; decide
    have hpending : ∑ i ∈ Finset.range n, pending (s.queue.shared.threads i) (s.todo i) = 0 := by
      refine Finset.sum_eq_zero fun i hi ↦ ?_
      rw [hr.joined hne i (Finset.mem_range.mp hi)]
      cases s.queue.shared.threads i <;> rfl
    have hhand : inHand (s.queue.shared.threads n) = 0 := by
      have hmain := hr.main
      cases hpc : s.queue.shared.threads n with
      | popped x =>
        rw [hpc, hdone] at hmain
        cases hmain
      | _ => rfl
    have hsum := hr.conserved
    rw [hr.ended hdone, hhand, hpending] at hsum
    simpa using hsum
  · by_contra hne
    exact absurd (hr.fits hne) (Nat.not_le.mpr hlt)

/-- Two workers of which one takes its ticket from under the other. -/
theorem coordinator_reports_two : ∃ s : Coordinator Nat,
    Reach (Coordinator.step 2 5 id) anyStep (.start (fun i ↦ [10 * (i + 1)]) 0) s ∧
    s.stage = .done ∧
    (s.timeline : Multiset Nat) =
      ∑ i ∈ Finset.range 2, (([10 * (i + 1)] : List Nat) : Multiset Nat) ∧
    ∀ i, .pushed i false ∉ s.queue.log := by
  have hrun : (run (Coordinator.step 2 5 id) (.start (fun i ↦ [10 * (i + 1)]) 0)
      ([.report 0, .report 1, .access 0 0, .access 1 0, .access 0 0, .access 1 0, .access 0 0,
        .access 1 1, .access 1 0, .access 1 0, .access 1 0, .access 1 0, .access 0 0, .access 0 0,
        .join] ++ .pop :: List.replicate 5 (.access 2 0) ++
        .pop :: List.replicate 5 (.access 2 1) ++ .pop :: List.replicate 2 (.access 2 2))).any
      (fun s ↦ s.stage = .done) = true := by
    decide +kernel
  obtain ⟨s, hs, hp⟩ := Reach.exists_of_run hrun
  have hdone : s.stage = .done := of_decide_eq_true hp
  obtain ⟨htimeline, haccepted, -⟩ := coordinator_reports (by decide) 0 hs
  exact ⟨s, hs, hdone, htimeline hdone, haccepted (by decide)⟩

end Coordinator

end DmaAccel.Kctl
