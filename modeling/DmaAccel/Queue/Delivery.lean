import DmaAccel.Delivery.Isolation
import DmaAccel.Queue.Refinement

/-!
# Every completion reaches its session

Source `track-a/dma_accel_drv.c`: the drain loop of `dma_accel_irq_handler` (315–406) copies a
completion out, looks its id up in the routing table and pushes it into the ring of the session
that it finds there; a completion whose id is not in the table it drops. With one submitting
thread and a device that reports every descriptor once, none is dropped: what the device posted
has been pushed, in order, but for what is in the ring or in the hand of the handler. When the
device has answered everything and the handler is idle, nothing is in flight.
-/

namespace DmaAccel.Driver

open DmaAccel.Base

/-- The completion that the handler has copied out and not yet pushed. -/
def beingRouted (st : Sys) : List Completion :=
  if st.isr.pc = .lookup ∨ st.isr.pc = .push then [st.isr.comp] else []

/-- Completions are routed without loss: in order, and each to the session whose SUBMIT it
answers. -/
structure Routed (st : Sys) (log : List RingEvent) : Prop where
  order : postedOf log = st.pushed.map Prod.snd ++ beingRouted st ++ cqPending st
  once : ((postedOf log).map (·.cmdId)).Nodup
  owner : ∀ p ∈ st.pushed, ∃ x ∈ st.admitted, x.sess = p.1 ∧ x.cmd.cmdId = p.2.cmdId

/-- The device and the handler have nothing to do: every descriptor up to the doorbell has been
fetched and reported, and the handler is idle with no bit of `IRQ_STATUS` set. -/
structure Quiet (st : Sys) (log : List RingEvent) : Prop where
  fetched : st.regSqHead = st.regSqTail
  reported : ∀ j < st.fetched.length, j ∈ log.filterMap RingEvent.answers
  device : st.post = .idle
  handler : st.isr.pc = .idle
  quiet : st.regIrqStatus = 0

/-- Moreover every SUBMIT has returned. -/
structure AtRest (st : Sys) (log : List RingEvent) : Prop extends Quiet st log where
  returned : ∀ k < st.nsubmits, (st.submits k).pc.finished = true

variable {st st' : Sys} {a : Act} {log es : List RingEvent} {x : Sys × List RingEvent}

theorem copiedOf_append (log es : List RingEvent) :
    copiedOf (log ++ es) = copiedOf log ++ copiedOf es := by
  unfold copiedOf
  rw [List.filterMap_append, List.filterMap_append]

/-- Nothing is in the hand of the handler outside the lookup and the push. -/
theorem beingRouted_eq_nil (hl : st.isr.pc ≠ .lookup) (hp : st.isr.pc ≠ .push) :
    beingRouted st = [] := by
  unfold beingRouted
  rw [if_neg]
  rintro (h | h)
  · exact hl h
  · exact hp h

/-- A step that copies no completion out passes on what has been copied out, unless it is the
one by which the handler drops the completion in its hand. -/
private theorem Trans.keepsCopied (h : Trans st a st')
    (hk : st.isr.pc = .lookup → findCmd st.cmdTable st.isr.comp.cmdId ≠ none)
    (hc : a = .isrStep → ¬(st.isr.pc = .drain ∧ st.cqHead ≠ st.isr.deviceCqTail)) :
    st'.pushed.map Prod.snd ++ beingRouted st' = st.pushed.map Prod.snd ++ beingRouted st := by
  have hsame (hp : st'.pushed = st.pushed) (hi : st'.isr = st.isr) :
      st'.pushed.map Prod.snd ++ beingRouted st' = st.pushed.map Prod.snd ++ beingRouted st := by
    unfold beingRouted
    rw [hp, hi]
  cases h with
  | isrLocal _ h' hl =>
    cases hl with
    | unknown hp hf => exact (hk hp hf).elim
    | enter hp | readTail hp | drained hp | wakeComp hp => simp [beingRouted, hp]
  | drain hp hne => exact (hc rfl ⟨hp, hne⟩).elim
  | push hp => simp [beingRouted, hp]
  | ack hp | complete hp | lookup _ hp | decInflight hp | decTotal hp | wakeQuota hp
  | next hp | writeHead hp => simp [beingRouted, hp]
  | _ => exact hsame rfl rfl

/-- Only the handler copies completions out. -/
private theorem copiedOf_ringEvents (ha : ¬(a = .isrStep ∧ st.isr.pc = .drain ∧
    st.cqHead ≠ st.isr.deviceCqTail)) : copiedOf (ringEvents st a) = [] := by
  cases a with
  | submitStep k =>
    simp only [ringEvents]
    split <;> rfl
  | post j status =>
    simp only [ringEvents]
    split <;> rfl
  | isrStep =>
    simp only [ringEvents]
    split
    · next hc => exact (ha ⟨rfl, hc⟩).elim
    · rfl
  | _ => rfl

/-- Every step, but one by which the handler drops a completion, passes on what has been
copied out. -/
private theorem routed_step (h : step st a = some st')
    (hk : st.isr.pc = .lookup → findCmd st.cmdTable st.isr.comp.cmdId ≠ none) :
    st'.pushed.map Prod.snd ++ beingRouted st' =
      st.pushed.map Prod.snd ++ beingRouted st ++ copiedOf (ringEvents st a) := by
  by_cases hc : a = .isrStep ∧ st.isr.pc = .drain ∧ st.cqHead ≠ st.isr.deviceCqTail
  · obtain ⟨rfl, hp, hne⟩ := hc
    simp only [step, isrStep, hp, if_neg hne, Option.some.injEq] at h
    subst h
    simp [beingRouted, copiedOf, ringEvents, RingEvent.cqOp, FifoOp.removed, hp, hne]
  · rw [copiedOf_ringEvents hc, List.append_nil]
    exact (trans_of_step h).keepsCopied hk fun ha hd ↦ hc ⟨ha, hd⟩

/-- The runs of one submitting thread: what was copied out is pushed or in hand. -/
structure RoutedInv (x : Sys × List RingEvent) : Prop extends RingsInv x where
  routed : copiedOf x.2 = x.1.pushed.map Prod.snd ++ beingRouted x.1

namespace RoutedInv

/-- A posted completion reports a command that was handed to the device. -/
private theorem queued_of_posted (hi : RingsInv x) {c : Completion} (hc : c ∈ postedOf x.2) :
    ∃ k, (x.1.submits k).pc.queued = true ∧ (x.1.submits k).cmdId = c.cmdId := by
  obtain ⟨j, -, hj⟩ := hi.cq.answer_of_posted hc
  obtain ⟨d, hd, hid⟩ := List.mem_map.mp (List.mem_of_getElem? hj)
  obtain ⟨k, hk, rfl⟩ := ((queueInv hi.serial).mem d).mp (List.mem_append_left _ hd)
  exact ⟨k, hk, hid⟩

/-- A command of which no completion has been pushed is in the table, unless the handler has
just taken it out. -/
private theorem valid_of_unpushed {ok : Sys → Act → Prop} (h : ReachBy ok st) {k : Nat}
    (hk : (st.submits k).pc.committed = true) (hp : st.isr.pc ≠ .push)
    (hn : (st.submits k).cmdId ∉ st.pushed.map (·.2.cmdId)) :
    ∃ i, (st.cmdTable i).valid = true ∧ (st.cmdTable i).cmdId = (st.submits k).cmdId := by
  have hadm : (st.submits k).toAdmitted.ticket ∈ (ledgerOf st).admitted :=
    List.mem_map_of_mem (((admInv h).mem_iff _).mpr ⟨k, hk, rfl⟩)
  have hdel : (st.submits k).toAdmitted.ticket ∉ (ledgerOf st).delivered := by
    intro hmem
    obtain ⟨p, hp, he⟩ := List.mem_map.mp hmem
    exact hn (List.mem_map.mpr ⟨p, hp, congrArg Prod.snd he⟩)
  rcases (balanced h).mem_held_or_hand hadm hdel with hheld | hhand
  · have hcell : _ ∈ bag CmdCtx.ticket Finset.univ st.cmdTable := hheld
    obtain ⟨i, -, hi⟩ := mem_bag.mp hcell
    simp only [CmdCtx.ticket, Option.ite_none_right_eq_some] at hi
    exact ⟨i, hi.1, congrArg Prod.snd (Option.some.inj hi.2)⟩
  · simp [ledgerOf, Isr.ticket, hp] at hhand

/-- The handler finds the entry of the completion it has copied out. -/
private theorem found (hi : RoutedInv x) (hp : x.1.isr.pc = .lookup) :
    findCmd x.1.cmdTable x.1.isr.comp.cmdId ≠ none := by
  have hcop := hi.cq.held (by rw [hp]; rfl)
  have hpost : x.1.isr.comp ∈ postedOf x.2 := by
    rw [hi.cq.posted_eq]
    exact List.mem_append_left _ hcop
  obtain ⟨k, hk, hid⟩ := queued_of_posted hi.toRingsInv hpost
  -- its id has not been pushed, since no id is posted twice
  have hnew : x.1.isr.comp.cmdId ∉ x.1.pushed.map (·.2.cmdId) := by
    have hnodup := hi.cq.posted_nodup (queueInv hi.serial)
    rw [hi.cq.posted_eq, List.map_append, List.nodup_append] at hnodup
    have hcopied := hnodup.1
    rw [hi.routed, beingRouted, if_pos (.inl hp), List.map_append, List.nodup_append] at hcopied
    intro hmem
    refine hcopied.2.2 _ ?_ _ (List.mem_singleton.mpr rfl) rfl
    rw [List.map_map]
    exact hmem
  have hentry := valid_of_unpushed hi.serial (committed_of_queued hk) (by rw [hp]; decide)
    (by rw [hid]; exact hnew)
  obtain ⟨i, hv, he⟩ := hentry
  unfold findCmd
  rw [Ne, List.find?_eq_none]
  intro hall
  refine hall i (List.mem_finRange i) ?_
  rw [hv, he, hid]
  simp

/-- Every step passes on what has been copied out. -/
private theorem step (hi : RoutedInv x) {x' : Sys × List RingEvent}
    (hr : RingsInv x') (h : ringStep x a = some x') : RoutedInv x' := by
  obtain ⟨hs, hlog⟩ := logStep_eq_some h
  refine ⟨hr, ?_⟩
  rw [hlog, copiedOf_append, hi.routed]
  exact (routed_step hs hi.found).symm

end RoutedInv

/-- The invariant of the runs of one submitting thread. -/
theorem routedInv (h : Reach ringStep SingleThreaded (Sys.init, []) x) : RoutedInv x := by
  refine h.invariant ⟨ringsInv .start, rfl⟩ ?_
  intro x a x' hr hi hok hs
  exact hi.step (ringsInv (.next hr hok hs)) hs

/-- Whatever is pushed into a ring answers a command that its session has submitted. -/
private theorem owner_of_pushed {ok : Sys → Act → Prop} (h : ReachBy ok st)
    {p : Sid × Completion} (hp : p ∈ st.pushed) :
    ∃ x ∈ st.admitted, x.sess = p.1 ∧ x.cmd.cmdId = p.2.cmdId := by
  obtain ⟨k, -, hk, hs, hid⟩ := pushed_committed h hp
  exact ⟨_, ((admInv h).mem_iff _).mpr ⟨k, hk, rfl⟩, hs, hid⟩

/-- With one submitting thread and a device that reports each descriptor once, the handler
drops no completion: what was posted has been pushed, in order and each to the session whose
command it answers, but for what is in the hand of the handler or in the ring. -/
theorem completions_routed (h : Reach ringStep SingleThreaded (Sys.init, []) (st, log)) :
    Routed st log := by
  have hi := routedInv h
  refine ⟨?_, hi.cq.posted_nodup (queueInv hi.serial), fun p hp ↦ owner_of_pushed hi.serial hp⟩
  rw [hi.cq.posted_eq, hi.routed]

/-- Script: two sessions submit three commands, which the device answers out of order. -/
def threeScript : List Act :=
  .chrOpen :: .chrOpen :: allocScript 0 0 ++ allocScript 1 1 ++ submitScript 0 0 0 14 ++
    submitScript 1 1 1 14 ++ submitScript 0 0 2 14 ++
    [.fetch, .fetch, .fetch, .post 1 statusOk, .postStep, .postStep, .post 0 statusOk, .postStep,
      .postStep, .post 2 statusOk, .postStep, .postStep, .irq]

/-- One completion has been pushed, one is in the hand of the handler and one in the ring. -/
theorem completions_routed_midway : ∃ x : Sys × List RingEvent,
    x.1.pushed.map (fun p ↦ (p.1, p.2.cmdId)) = [(1, 3)] ∧
      (beingRouted x.1).map (·.cmdId) = [2] ∧ (cqPending x.1).map (·.cmdId) = [4] ∧
      Routed x.1 x.2 := by
  have hrun : (runChecked ringStep (fun x a ↦ decide (SingleThreaded x a)) (Sys.init, [])
      (threeScript ++ List.replicate 11 .isrStep)).any
      (fun x ↦ decide (x.1.pushed.map (fun p ↦ (p.1, p.2.cmdId)) = [(1, 3)] ∧
        (beingRouted x.1).map (·.cmdId) = [2] ∧ (cqPending x.1).map (·.cmdId) = [4])) = true := by
    decide +kernel
  obtain ⟨x, hr, hp⟩ := Reach.exists_of_runChecked (fun _ _ hc ↦ of_decide_eq_true hc) hrun
  obtain ⟨hpush, hhand, hpend⟩ := of_decide_eq_true hp
  exact ⟨x, hpush, hhand, hpend, completions_routed hr⟩

section Rest

/-- Then the completion ring is empty and the handler holds nothing. -/
private theorem pending_eq_nil (h : ReachBy EnqueueSerial st) (hq : Quiet st log) :
    beingRouted st = [] ∧ cqPending st = [] := by
  have hstart : CqEmpty Sys.init := ⟨rfl, rfl, rfl⟩
  have hdrain : DrainInv st :=
    h.invariant (.start hstart) fun _ _ _ _ hi _ hs ↦ hi.step (trans_of_step hs)
  have hhead := (hdrain.idle hq.handler hq.quiet).eq (by simp [hq.device])
  constructor
  · refine beingRouted_eq_nil ?_ ?_
    · rw [hq.handler]
      decide
    · rw [hq.handler]
      decide
  · unfold cqPending cqRead cqWritten
    rw [hq.handler, hq.device, hhead]
    exact window_self _ _

/-- The device has fetched every command whose SUBMIT has returned. -/
private theorem fetched_of_returned (h : ReachBy EnqueueSerial st) (hq : Quiet st log)
    (hret : ∀ k, (st.submits k).pc.committed = true → (st.submits k).pc = .returned) {k : Nat}
    (hk : (st.submits k).pc.committed = true) : (st.submits k).desc ∈ st.fetched := by
  have hqi := queueInv h
  have hqueued : (st.submits k).pc.queued = true := by
    rw [hret k hk]
    rfl
  have hbell (l : Nat) : (st.submits l).pc.ringing = false := by
    by_contra hne
    have hl : (st.submits l).pc.ringing = true := Bool.not_eq_false _ ▸ hne
    rw [hret l (committed_of_ringing hl)] at hl
    cases hl
  have hmem := (hqi.mem (st.submits k).desc).mpr ⟨k, hqueued, rfl⟩
  unfold queue at hmem
  rw [hq.fetched, hqi.rung hbell, window_self, List.append_nil] at hmem
  exact hmem

/-- Every command whose SUBMIT has returned has been answered. -/
theorem unrouted_eq_nil (hi : RoutedInv (st, log)) (hq : Quiet st log)
    (hret : ∀ k, (st.submits k).pc.committed = true → (st.submits k).pc = .returned) :
    unrouted st = [] := by
  unfold unrouted
  rw [List.filter_eq_nil_iff]
  intro x hx
  rw [decide_eq_true_iff, not_not]
  obtain ⟨k, hk, rfl⟩ := ((admInv hi.serial).mem_iff x).mp hx
  obtain ⟨j, hlt, hj⟩ := List.getElem_of_mem (fetched_of_returned hi.serial hq hret hk)
  have hrep : some (st.submits k).cmdId ∈ (postedOf log).map fun c ↦ some c.cmdId := by
    rw [← hi.cq.ids]
    refine List.mem_map.mpr ⟨j, hq.reported j hlt, ?_⟩
    rw [List.getElem?_map, List.getElem?_eq_getElem hlt, hj]
    rfl
  obtain ⟨c, hc, hid⟩ := List.mem_map.mp hrep
  obtain ⟨hhand, hpend⟩ := pending_eq_nil hi.serial hq
  rw [hi.cq.posted_eq, hi.routed, hhand, hpend, List.append_nil, List.append_nil] at hc
  obtain ⟨p, hp, rfl⟩ := List.mem_map.mp hc
  obtain ⟨l, -, hl, hs, hlid⟩ := pushed_committed hi.serial hp
  have hkl : k = l :=
    (callInv hi.serial).inj k l ((callInv hi.serial).cmdId_ne hk)
      (by rw [hlid]; exact (Option.some.inj hid).symm)
  subst hkl
  exact List.mem_map.mpr ⟨p, hp, Prod.ext hs.symm (Option.some.inj hid)⟩

/-- A call that has returned is between no two updates of a counter. -/
private theorem callsBy_of_returned
    (hret : ∀ k, (st.submits k).pc.committed = true → (st.submits k).pc = .returned)
    {pcs : SubmitPc → Bool} {q : Sid → Prop} [DecidablePred q]
    (hp : ∀ pc, pcs pc = true → pc.committed = true ∧ pc ≠ .returned) : callsBy pcs q st = 0 := by
  refine callsBy_eq_zero.mpr ?_
  rintro k - ⟨hpc, -⟩
  obtain ⟨hc, hne⟩ := hp _ hpc
  exact hne (hret k hc)

/-- Then the counters that hold SUBMIT back are zero, and the table is empty. -/
theorem counters_eq_zero {ok : Sys → Act → Prop} (h : ReachBy ok st)
    (hret : ∀ k, (st.submits k).pc.committed = true → (st.submits k).pc = .returned)
    (hisr : st.isr.pc = .idle) (hu : unrouted st = []) :
    st.totalInflight = 0 ∧ (∀ s, st.inflight s = 0) ∧ ∀ i, (st.cmdTable i).valid = false := by
  have hcount (s : Sid) : uncountedOf st s = 0 := by
    refine callsBy_of_returned hret fun pc hp ↦ ?_
    cases pc <;> simp_all [SubmitPc.uncounted, SubmitPc.committed]
  have hsess (s : Sid) : st.inflight s = 0 := by
    have heq := outstanding_sess h s
    have hlate : lateOf st s = 0 := by simp [lateOf, handBy, hisr, IsrPc.late]
    rw [← length_unroutedOf h, unroutedOf, hu, hcount s, hlate] at heq
    simpa using heq.symm
  refine ⟨?_, hsess, ?_⟩
  · have heq := outstanding_all h
    have hlate : lateAll st = 0 := by simp [lateAll, handBy, hisr, IsrPc.lateTotal]
    have hzero : uncountedAll st = 0 := by
      refine callsBy_of_returned hret fun pc hp ↦ ?_
      cases pc <;> simp_all [SubmitPc.uncountedTotal, SubmitPc.committed]
    rw [← length_unrouted h, hu, hzero, hlate] at heq
    simpa using heq.symm
  · intro i
    by_contra hv
    rw [Bool.not_eq_false] at hv
    exact (drained_of_counted h (hcount _) (hsess (st.cmdTable i).sess)).1 i hv rfl

/-- A committed call that has returned has not been refused. -/
theorem returned_of_finished {pc : SubmitPc} (hf : pc.finished = true)
    (hc : pc.committed = true) : pc = .returned := by
  cases pc <;> simp_all [SubmitPc.finished, SubmitPc.committed]

/-- When everybody has come to rest nothing is in flight: every command has been answered, and
once, the answers are pushed in the order in which the device posted them, and the counters that
hold SUBMIT back are zero. -/
theorem nothing_in_flight_at_rest
    (h : Reach ringStep SingleThreaded (Sys.init, []) (st, log)) (hq : AtRest st log) :
    st.pushed.map Prod.snd = postedOf log ∧
      (st.pushed.map fun p ↦ p.2.cmdId).Nodup ∧
      (∀ x ∈ st.admitted, ∃ p ∈ st.pushed, p.1 = x.sess ∧ p.2.cmdId = x.cmd.cmdId) ∧
      (∀ i, (st.cmdTable i).valid = false) ∧ st.totalInflight = 0 ∧ ∀ s, st.inflight s = 0 := by
  have hi := routedInv h
  have hret (k : Nat) (hc : (st.submits k).pc.committed = true) :
      (st.submits k).pc = .returned :=
    returned_of_finished (hq.returned k ((callInv hi.serial).lt_of_committed hc)) hc
  have hu := unrouted_eq_nil hi hq.toQuiet hret
  obtain ⟨htotal, hsess, htable⟩ := counters_eq_zero hi.serial hret hq.handler hu
  have hpushed : st.pushed.map Prod.snd = postedOf log := by
    obtain ⟨hhand, hpend⟩ := pending_eq_nil hi.serial hq.toQuiet
    rw [hi.cq.posted_eq, hi.routed, hhand, hpend, List.append_nil, List.append_nil]
  refine ⟨hpushed, ?_, ?_, htable, htotal, hsess⟩
  · have hnodup := hi.cq.posted_nodup (queueInv hi.serial)
    rw [← hpushed, List.map_map] at hnodup
    exact hnodup
  · intro x hx
    have hmem := (List.filter_eq_nil_iff.mp hu) x hx
    rw [decide_eq_true_iff, not_not] at hmem
    obtain ⟨p, hp, he⟩ := List.mem_map.mp hmem
    exact ⟨p, hp, congrArg Prod.fst he, congrArg Prod.snd he⟩

/-- The handler has returned, and all three commands have been answered. -/
theorem nothing_in_flight_at_rest_three : ∃ x : Sys × List RingEvent,
    x.1.pushed.map (fun p ↦ (p.1, p.2.cmdId)) = [(1, 3), (0, 2), (0, 4)] ∧
      x.1.pushed.map Prod.snd = postedOf x.2 ∧ x.1.totalInflight = 0 := by
  have hrun : (runChecked ringStep (fun x a ↦ decide (SingleThreaded x a)) (Sys.init, [])
      (threeScript ++ List.replicate 28 .isrStep)).any
      (fun x ↦ decide (x.1.pushed.map (fun p ↦ (p.1, p.2.cmdId)) = [(1, 3), (0, 2), (0, 4)] ∧
        (∀ k < x.1.nsubmits, (x.1.submits k).pc.finished = true) ∧
        x.1.regSqHead = x.1.regSqTail ∧
        (∀ j < x.1.fetched.length, j ∈ x.2.filterMap RingEvent.answers) ∧
        x.1.post = .idle ∧ x.1.isr.pc = .idle ∧ x.1.regIrqStatus = 0)) = true := by
    decide +kernel
  obtain ⟨x, hr, hp⟩ := Reach.exists_of_runChecked (fun _ _ hc ↦ of_decide_eq_true hc) hrun
  obtain ⟨hpush, hret, hf, hrep, hdev, hisr, hirq⟩ := of_decide_eq_true hp
  obtain ⟨horder, -, -, -, htotal, -⟩ :=
    nothing_in_flight_at_rest hr ⟨⟨hf, hrep, hdev, hisr, hirq⟩, hret⟩
  exact ⟨x, hpush, horder, htotal⟩

end Rest

end DmaAccel.Driver
