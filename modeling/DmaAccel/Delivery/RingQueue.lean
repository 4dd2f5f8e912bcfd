import DmaAccel.Base.Lossy
import DmaAccel.Delivery.NoLoss
import DmaAccel.Driver.Frames

/-!
# The completion ring as a queue

Source `track-a/dma_accel_drv.c`: the ring of `struct dma_accel_session` (257–266), the push of
`dma_accel_irq_handler` (342–358), the pops of `dma_accel_chr_read` (1765–1817) and
`dma_accel_chr_poll` (1819–1838). Pushes and pops are atomic under `comp_lock`, and a reader
looks at the counters again before each of them. Whatever their order, and however often the
counters wrap, the ring is a queue of `COMP_RING_SIZE` elements that discards the oldest one when
it overflows.
-/

namespace DmaAccel.Driver

open DmaAccel.Base

/-- The ring stands for the queue, its counters give the length, and it polls readable when
there is something in it. -/
structure CompRing.Represents (r : CompRing) (queue : List Completion) : Prop where
  unread : r.unread = queue
  length : (r.tail - r.head).toNat = queue.length
  bounded : queue.length ≤ compRingSize
  readable : (r.head != r.tail) = true ↔ queue ≠ []

/-- The operations lead from ring `r0` to ring `r` and give the readers `outs`. -/
structure RingRun (r0 : CompRing) (ops : List (QueueOp Completion Nat)) (r : CompRing)
    (outs : List (Completion × Nat)) : Prop where
  queue : r.Represents (LossyQueue.run compRingSize ⟨r0.unread, []⟩ ops).items
  taken : outs = (LossyQueue.run compRingSize ⟨r0.unread, []⟩ ops).taken
  /-- In the order of the pushes each element has been discarded or taken by one reader, or is
  in the queue. -/
  order : (LossyQueue.run compRingSize ⟨r0.unread, []⟩ ops).gone.map (·.1) ++
      (LossyQueue.run compRingSize ⟨r0.unread, []⟩ ops).items =
    r0.unread ++ ops.filterMap QueueOp.pushed

/-- A step of a run: the state before it, the action, the state after it. -/
abbrev RunStep := Sys × Act × Sys

/-- What a step does to the ring of session `s` under `comp_lock`. A reader is its call. -/
def ringOps (s : Sid) : RunStep → List (QueueOp Completion Nat)
  | (st, .isrStep, _) =>
    if st.isr.pc = .push ∧ st.isr.owner = s then [.push st.isr.comp] else []
  | (st, .readStep k, _) =>
    if (st.reads k).pc = .pop ∧ (st.reads k).sess = s ∧
        (st.reads k).copied < (st.reads k).nWant then [.pop k] else []
  | _ => []

/-- The entry that a step puts into the locals of a reader of session `s`. -/
def handed (s : Sid) : RunStep → Option (Completion × Nat)
  | (st, .readStep k, st') =>
    if (st.reads k).pc = .pop ∧ (st.reads k).sess = s ∧ (st'.reads k).pc = .copy then
      some ((st'.reads k).out, k)
    else none
  | _ => none

/-! ## The ring -/

namespace CompRing

variable {r : CompRing}

/-- The ring has the operations of a queue that discards its oldest element. -/
theorem implements : Implements compRingSize (fun r : CompRing ↦ r.pending ≤ compRingSize)
    unread push pop where
  push_ok _ _ h := pending_push h
  pop_ok r x r' h hp := by
    have hlen := congrArg List.length (unread_pop hp)
    rw [List.length_cons, length_unread, length_unread] at hlen
    omega
  view_push r c h := by
    rw [length_unread]
    rcases Nat.lt_or_eq_of_le h with hlt | heq
    · rw [if_pos hlt, unread_push hlt]
    · obtain ⟨x, rest, hu, hpush⟩ := unread_push_full (c := c) heq
      rw [if_neg (Nat.not_lt.mpr heq.ge), hpush, hu, List.tail_cons]
  view_pop _ _ _ _ hp := unread_pop hp
  view_empty _ _ hp := unread_of_pop_none hp

/-- A ring within its size stands for what is unread. -/
theorem represents (h : r.pending ≤ compRingSize) : r.Represents r.unread where
  unread := rfl
  length := (length_unread r).symm
  bounded := (length_unread r).trans_le h
  readable := by
    rw [bne_iff_ne, not_iff_not, ← List.length_eq_zero_iff, length_unread, pending,
      span_eq_zero_iff]

end CompRing

/-- Any sequence of pushes and pops, from any ring within its size. -/
theorem ringRun_exec {r : CompRing} (h : r.pending ≤ compRingSize)
    (ops : List (QueueOp Completion Nat)) :
    RingRun r ops (ops.foldl (exec CompRing.push CompRing.pop) (r, [])).1
      (ops.foldl (exec CompRing.push CompRing.pop) (r, [])).2 := by
  obtain ⟨hok, hview, hout⟩ := CompRing.implements.exec_run (s := (r, []))
    (q := ⟨r.unread, []⟩) h rfl rfl ops
  refine ⟨?_, hout, LossyQueue.gone_run ..⟩
  rw [← hview]
  exact CompRing.represents hok

/-! ## The driver -/

variable {st st' : Sys} {a : Act} {s : Sid}

/-- What the steps of a run do to a ring, and what they hand to its readers. -/
def ringFollow (s : Sid) (x : CompRing × List (Completion × Nat)) (t : RunStep) :
    CompRing × List (Completion × Nat) :=
  (ringOps s t).foldl (exec CompRing.push CompRing.pop) x

/-- A step of the driver is the operation on the ring that it is taken for. -/
theorem ringFollow_eq (outs : List (Completion × Nat)) (h : step st a = some st') :
    ∃ got, ringFollow s (st.compRing s, outs) (st, a, st') = (st'.compRing s, outs ++ got) ∧
      (handed s (st, a, st')).toList = got.map fun p ↦ (p.1.toUser, p.2) := by
  have ht := trans_of_step h
  cases a with
  | isrStep =>
    by_cases hp : st.isr.pc = .push ∧ st.isr.owner = s
    · obtain ⟨hpc, rfl⟩ := hp
      simp only [step, isrStep, hpc, Option.some.injEq] at h
      subst h
      exact ⟨[], by simp [ringFollow, ringOps, hpc, exec], rfl⟩
    · have hsame := ht.compRing_eq (s := s) (fun hc ↦ hp hc.2) (by simp)
      exact ⟨[], by simp [ringFollow, ringOps, hp, hsame], rfl⟩
  | readStep k =>
    obtain ⟨-, hr⟩ := Option.ite_none_right_eq_some.mp h
    by_cases hp : (st.reads k).pc = .pop ∧ (st.reads k).sess = s ∧
        (st.reads k).copied < (st.reads k).nWant
    · obtain ⟨hpc, rfl, hlt⟩ := hp
      simp only [readStep, hpc, hlt, if_true] at hr
      split at hr
      · next out r hpop =>
        cases hr
        refine ⟨[(out, k)], ?_, ?_⟩
        · simp [ringFollow, ringOps, hpc, hlt, exec, hpop]
        · simp [handed, hpc, Completion.toUser]
      · next hpop =>
        cases hr
        refine ⟨[], ?_, ?_⟩
        · simp [ringFollow, ringOps, hpc, hlt, exec, hpop, Sys.setRead]
        · simp [handed, Sys.setRead]
    · have hsame : st'.compRing s = st.compRing s := by
        refine ht.compRing_eq (by simp) ?_
        rintro l ⟨hl, hc⟩
        cases hl
        exact hp hc
      -- A reader goes on to its copy only with an entry, which it has taken.
      have hnone : ¬((st.reads k).pc = .pop ∧ (st.reads k).sess = s ∧
          (st'.reads k).pc = .copy) := by
        rintro ⟨hpc, hs, hcopy⟩
        have hge : ¬(st.reads k).copied < (st.reads k).nWant := fun hlt ↦ hp ⟨hpc, hs, hlt⟩
        simp only [readStep, hpc, hge, if_false, Option.some.injEq] at hr
        subst hr
        simp [Sys.setRead] at hcopy
      refine ⟨[], ?_, ?_⟩
      · simp only [ringFollow, ringOps, if_neg hp, hsame]
        simp
      · simp [handed, hnone]
  | _ =>
    have hsame : st'.compRing s = st.compRing s := ht.compRing_eq (by simp) (by simp)
    exact ⟨[], by simp [ringFollow, ringOps, hsame], rfl⟩

/-- The ring after a run is what its operations make of the ring before. -/
theorem ring_of_trace {st0 : Sys} {ts : List RunStep} (h : Trace step st0 ts st) (s : Sid) :
    ∃ outs, (ts.flatMap (ringOps s)).foldl (exec CompRing.push CompRing.pop)
        (st0.compRing s, []) = (st.compRing s, outs) ∧
      ts.filterMap (handed s) = outs.map fun p ↦ (p.1.toUser, p.2) := by
  induction h with
  | start => exact ⟨[], rfl, rfl⟩
  | next _ hs ih =>
    obtain ⟨outs, hring, hhanded⟩ := ih
    obtain ⟨got, hstep, hgot⟩ := ringFollow_eq (s := s) outs hs
    refine ⟨outs ++ got, ?_, ?_⟩
    · rw [List.flatMap_append, List.foldl_append, hring, List.flatMap_singleton]
      exact hstep
    · rw [List.filterMap_append, List.map_append, hhanded, ← hgot]
      congr 1

/-- From a ring with any counters, any sequence of pushes and of pops by any readers is one of a
bounded queue that discards its oldest element; and every run of the driver, of any number of
readers, is such a sequence on the ring of each session. -/
theorem comp_ring_refines :
    (∀ (r : CompRing) (ops : List (QueueOp Completion Nat)), r.pending ≤ compRingSize →
      RingRun r ops (ops.foldl (exec CompRing.push CompRing.pop) (r, [])).1
        (ops.foldl (exec CompRing.push CompRing.pop) (r, [])).2) ∧
    ∀ (st0 st : Sys) (ts : List RunStep) (s : Sid), Trace step st0 ts st →
      (st0.compRing s).pending ≤ compRingSize →
      ∃ outs, RingRun (st0.compRing s) (ts.flatMap (ringOps s)) (st.compRing s) outs ∧
        ts.filterMap (handed s) = outs.map (fun p ↦ (p.1.toUser, p.2)) ∧
        (chrPoll st s = true ↔ (st.compRing s).unread ≠ []) := by
  refine ⟨fun r ops h ↦ ringRun_exec h ops, ?_⟩
  intro st0 st ts s ht h
  obtain ⟨outs, hring, hhanded⟩ := ring_of_trace ht s
  have hrun := ringRun_exec h (ts.flatMap (ringOps s))
  rw [hring] at hrun
  refine ⟨outs, hrun, hhanded, ?_⟩
  rw [hrun.queue.unread]
  exact hrun.queue.readable

/-- A driver whose rings are empty, with counters that are about to wrap. -/
def beforeWrap : Sys := { Sys.init with compRing := fun _ ↦ ⟨fun _ ↦ .zero, -1, -1⟩ }

/-- Two completions are routed and one of them is read, past the wrap of both counters. -/
theorem comp_ring_refines_wrap : ∃ st ts outs, Trace step beforeWrap ts st ∧
    ((st.compRing 0).head, (st.compRing 0).tail) = (0, 1) ∧
    RingRun (beforeWrap.compRing 0) (ts.flatMap (ringOps 0)) (st.compRing 0) outs := by
  have hrun : (run step beforeWrap (.chrOpen :: allocScript 0 0 ++ roundsScript 2 ++
      .read 0 16 :: List.replicate 4 (.readStep 0))).any
      (fun st ↦ decide (((st.compRing 0).head, (st.compRing 0).tail) = (0, 1))) = true := by
    decide +kernel
  obtain ⟨st, hs, hp⟩ := (Option.any_eq_true _ _).mp hrun
  obtain ⟨ts, ht⟩ := Trace.start.of_run hs
  obtain ⟨outs, hring, -⟩ := comp_ring_refines.2 beforeWrap st ts 0 ht (by decide)
  exact ⟨st, ts, outs, ht, of_decide_eq_true hp, hring⟩

end DmaAccel.Driver
