import DmaAccel.Base.Fifo
import DmaAccel.Admission.Starvation
import DmaAccel.Queue.Drain
import DmaAccel.Queue.Publication

/-!
# The two rings are queues

Source `track-a/dma_accel_drv.c`: `dma_accel_queue_submit_ext` (822–849) writes the submission
ring, `dma_accel_irq_handler` (315–406) reads the completion ring; both counters wrap at
`2 ^ 32` and neither side looks for a full ring. With one submitting thread and a device that
reports every descriptor it fetched once, each ring implements an unbounded queue. The only
thing that keeps them from overflowing is `total_inflight < DMA_ACCEL_QUEUE_DEPTH` at
admission: descriptors in the ring, commands the device executes and completions the handler
has not copied out all belong to distinct unrouted commands.
-/

namespace DmaAccel.Driver

open DmaAccel.Base

/-- What is observed of the two rings. -/
inductive RingEvent where
  | queued (d : Cmd)
  | fetched (d : Cmd)
  | posted (j : Nat) (c : Completion)
  | copied (c : Completion)
  deriving DecidableEq, Repr

/-- Events of a step: a submitter advances `sq_tail` past its descriptor, the device reads a
descriptor, the device writes the completion of its `j`-th descriptor, the handler copies a
completion out. -/
def ringEvents (st : Sys) : Act → List RingEvent
  | .submitStep k =>
    if (st.submits k).pc = .enqWriteTail then [.queued (st.submits k).desc] else []
  | .fetch => [.fetched (st.sqBuf (slotOf _ st.regSqHead))]
  | .post j status =>
    match st.fetched[j]? with
    | some d => [.posted j ⟨d.cmdId, status, 0⟩]
    | none => []
  | .isrStep =>
    if st.isr.pc = .drain ∧ st.cqHead ≠ st.isr.deviceCqTail then
      [.copied (st.cqBuf (slotOf _ st.cqHead))]
    else []
  | _ => []

/-- An event as an operation on the submission queue. -/
def RingEvent.sqOp : RingEvent → Option (FifoOp Cmd)
  | .queued d => some (.enq d)
  | .fetched d => some (.deq d)
  | _ => none

/-- An event as an operation on the completion queue. -/
def RingEvent.cqOp : RingEvent → Option (FifoOp Completion)
  | .posted _ c => some (.enq c)
  | .copied c => some (.deq c)
  | _ => none

/-- The descriptor, by its place in the order of fetches, that an event reports. -/
def RingEvent.answers : RingEvent → Option Nat
  | .posted j _ => some j
  | _ => none

/-- The driver with a log of the events at its rings. -/
abbrev ringStep : Sys × List RingEvent → Act → Option (Sys × List RingEvent) :=
  logStep ringEvents step

/-- One thread issues all SUBMIT ioctls, and the device reports no descriptor twice. -/
def SingleThreaded (x : Sys × List RingEvent) (a : Act) : Prop :=
  (a.isSubmit = true → noSubmit x.1) ∧
    ∀ j ∈ (ringEvents x.1 a).filterMap RingEvent.answers,
      j ∉ x.2.filterMap RingEvent.answers

instance (x : Sys × List RingEvent) (a : Act) : Decidable (SingleThreaded x a) :=
  inferInstanceAs (Decidable (_ ∧ ∀ j ∈ List.filterMap _ _, _))

/-- The handler has copied out the entry at `cq_head` and not yet stepped past it. -/
def IsrPc.holding : IsrPc → Bool
  | .lookup | .push | .decInflight | .decTotal | .wakeQuota | .wakeComp | .next => true
  | _ => false

/-- Count of the first completion the handler has not copied out. -/
def cqRead (st : Sys) : U32 := if st.isr.pc.holding then st.cqHead + 1 else st.cqHead

/-- Count past the last completion the device has written. -/
def cqWritten (st : Sys) : U32 :=
  match st.post with
  | .advance _ => st.regCqTail + 1
  | _ => st.regCqTail

/-- Descriptors in the ring that the device has not fetched. -/
def sqPending (st : Sys) : List Cmd := window st.sqBuf st.regSqHead st.sqTail

/-- Completions in the ring that the handler has not copied out. -/
def cqPending (st : Sys) : List Completion := window st.cqBuf (cqRead st) (cqWritten st)

/-- The rings implement two unbounded queues: every event so far was an operation of the
queue it belongs to, and the ring holds what the queue holds. A submitter about to store its
descriptor finds a slot whose descriptor has been fetched, and a device about to write a
completion a slot whose completion has been copied out. -/
structure RingsRefine (st : Sys) (log : List RingEvent) : Prop where
  sq : fifoRun [] (log.filterMap RingEvent.sqOp) = some (sqPending st)
  cq : fifoRun [] (log.filterMap RingEvent.cqOp) = some (cqPending st)
  sqFree : ∀ k, (st.submits k).pc = .enqStore →
    (st.submits k).idx ∉ window id st.regSqHead st.sqTail
  cqFree : ∀ j status, SingleThreaded (st, log) (.post j status) →
    (devPost st j status).isSome = true →
    slotOf queueDepth st.regCqTail ∉ window id (cqRead st) (cqWritten st)

variable {st st' : Sys} {a : Act} {log : List RingEvent} {x : Sys × List RingEvent}

/-- Steps that neither write the completion ring nor move one of its counters. -/
structure CqQuiet (st st' : Sys) : Prop where
  cqBuf : st'.cqBuf = st.cqBuf
  read : cqRead st' = cqRead st
  tail : st'.regCqTail = st.regCqTail
  written : cqWritten st' = cqWritten st
  fetched : st.fetched <+: st'.fetched
  comp : st'.isr.pc.holding = true → st.isr.pc.holding = true ∧ st'.isr.comp = st.isr.comp
  pushed : ∀ p ∈ st'.pushed, p ∈ st.pushed ∨ st.isr.pc.holding = true ∧ p.2 = st.isr.comp
  draining : st'.isr.pc.draining = true →
    st.isr.pc.draining = true ∧ st'.isr.deviceCqTail = st.isr.deviceCqTail ∨
      st'.isr.deviceCqTail = st.regCqTail

/-- Steps that leave both rings alone. -/
structure RingQuiet (st st' : Sys) : Prop extends CqQuiet st st' where
  sq : sqPending st' = sqPending st

/-- What a step does to the rings, with the events it is observed by. -/
inductive RingMove (st : Sys) : List RingEvent → Sys → Prop where
  | quiet (st' : Sys) : RingQuiet st st' → RingMove st [] st'
  | store (k : Nat) : (st.submits k).pc = .enqStore →
      RingMove st []
        { st with
          sqBuf := Function.update st.sqBuf (st.submits k).idx (st.submits k).desc
          submits := Function.update st.submits k { st.submits k with pc := .enqReadTail } }
  | queued (k : Nat) : (st.submits k).pc = .enqWriteTail →
      RingMove st [.queued (st.submits k).desc]
        { st with
          sqTail := (st.submits k).tail + 1
          submits := Function.update st.submits k { st.submits k with pc := .enqLoadTail } }
  | fetched : st.regSqHead ≠ st.regSqTail →
      RingMove st [.fetched (st.sqBuf (slotOf _ st.regSqHead))]
        { st with
          fetched := st.fetched ++ [st.sqBuf (slotOf _ st.regSqHead)]
          regSqHead := st.regSqHead + 1 }
  | posted (j : Nat) (status : U32) (d : Cmd) : st.post = .idle → st.fetched[j]? = some d →
      RingMove st [.posted j ⟨d.cmdId, status, 0⟩]
        { st with
          cqBuf := Function.update st.cqBuf (slotOf _ st.regCqTail) ⟨d.cmdId, status, 0⟩
          post := .advance status }
  | advance (status : U32) : st.post = .advance status →
      RingMove st [] { st with regCqTail := st.regCqTail + 1, post := .raise status }
  | copied : st.isr.pc = .drain → st.cqHead ≠ st.isr.deviceCqTail →
      RingMove st [.copied (st.cqBuf (slotOf _ st.cqHead))]
        { st with
          isr := { st.isr with pc := .lookup, comp := st.cqBuf (slotOf _ st.cqHead) } }

/-- The handler stays where it is. -/
private theorem cqQuiet_outside (hcq : st'.cqBuf = st.cqBuf) (hh : st'.cqHead = st.cqHead)
    (ht : st'.regCqTail = st.regCqTail) (hw : cqWritten st' = cqWritten st)
    (hf : st.fetched <+: st'.fetched) (hisr : st'.isr = st.isr) (hp : st'.pushed = st.pushed) :
    CqQuiet st st' where
  cqBuf := hcq
  read := by
    unfold cqRead
    rw [hisr, hh]
  tail := ht
  written := hw
  fetched := hf
  comp h := by
    rw [hisr] at h ⊢
    exact ⟨h, rfl⟩
  pushed p hmem := .inl (hp ▸ hmem)
  draining h := by
    rw [hisr] at h ⊢
    exact .inl ⟨h, rfl⟩

/-- The handler moves on with the completion it holds, if it holds one. -/
private theorem cqQuiet_handler {h : Isr} (hcq : st'.cqBuf = st.cqBuf)
    (hh : st'.cqHead = st.cqHead) (ht : st'.regCqTail = st.regCqTail)
    (hw : cqWritten st' = cqWritten st) (hf : st'.fetched = st.fetched)
    (hp : st'.pushed = st.pushed) (hisr : st'.isr = h) (hcomp : h.comp = st.isr.comp)
    (htail : h.deviceCqTail = st.isr.deviceCqTail)
    (hhold : h.pc.holding = st.isr.pc.holding)
    (hdrain : h.pc.draining = true → st.isr.pc.draining = true) : CqQuiet st st' where
  cqBuf := hcq
  read := by
    unfold cqRead
    rw [hisr, hh, hhold]
  tail := ht
  written := hw
  fetched := hf ▸ List.prefix_rfl
  comp hc := by
    rw [hisr] at hc ⊢
    exact ⟨hhold ▸ hc, hcomp⟩
  pushed p hmem := .inl (hp ▸ hmem)
  draining hd := by
    rw [hisr] at hd ⊢
    exact .inl ⟨hdrain hd, htail⟩

/-- A step outside the device that neither stores a descriptor, nor advances `sq_tail`, nor
copies a completion out leaves the rings alone. -/
private theorem Trans.ringQuiet (h : Trans st a st')
    (hsub : ∀ k, a = .submitStep k →
      (st.submits k).pc ≠ .enqStore ∧ (st.submits k).pc ≠ .enqWriteTail)
    (hisr : a = .isrStep → ¬(st.isr.pc = .drain ∧ st.cqHead ≠ st.isr.deviceCqTail))
    (hf : a ≠ .fetch) (hp : ∀ j status, a ≠ .post j status) (hs : a ≠ .postStep) :
    RingQuiet st st' := by
  cases h with
  | enqStore k hk hpc => exact ((hsub k rfl).1 hpc).elim
  | enqWriteTail k hk hpc => exact ((hsub k rfl).2 hpc).elim
  | drain hpc hne => exact (hisr rfl ⟨hpc, hne⟩).elim
  | fetch hne => exact (hf rfl).elim
  | post j status d hpost hd => exact (hp j status rfl).elim
  | postAdvance status hpost => exact (hs rfl).elim
  | postRaise status hpost => exact (hs rfl).elim
  | isrLocal _ h hl =>
    refine ⟨?_, rfl⟩
    cases hl with
    | readTail hpc ha =>
      exact ⟨rfl, by simp [cqRead, hpc, IsrPc.holding], rfl, rfl, List.prefix_rfl, nofun,
        fun p hmem ↦ .inl hmem, fun _ ↦ .inr rfl⟩
    | _ hpc =>
      refine cqQuiet_handler rfl rfl rfl rfl rfl rfl rfl rfl rfl ?_ ?_ <;>
        simp [hpc, IsrPc.holding, IsrPc.draining]
  | push hpc =>
    refine ⟨⟨rfl, by simp [cqRead, hpc, IsrPc.holding], rfl, rfl, List.prefix_rfl, ?_, ?_, ?_⟩,
      rfl⟩
    · intro _
      exact ⟨by rw [hpc]; rfl, rfl⟩
    · intro p hmem
      rcases List.mem_append.mp hmem with hmem | hmem
      · exact .inl hmem
      · rw [List.mem_singleton.mp hmem]
        exact .inr ⟨by rw [hpc]; rfl, rfl⟩
    · intro _
      exact .inl ⟨by rw [hpc]; rfl, rfl⟩
  | next hpc =>
    refine ⟨⟨rfl, by simp [cqRead, hpc, IsrPc.holding], rfl, rfl, List.prefix_rfl, nofun,
      fun p hmem ↦ .inl hmem, ?_⟩, rfl⟩
    intro _
    exact .inl ⟨by rw [hpc]; rfl, rfl⟩
  | ack hpc | complete hpc | lookup _ hpc | decInflight hpc | decTotal hpc | wakeQuota hpc
  | writeHead hpc =>
    refine ⟨cqQuiet_handler rfl rfl rfl rfl rfl rfl rfl rfl rfl ?_ ?_, rfl⟩ <;>
      simp [hpc, IsrPc.holding, IsrPc.draining]
  | _ => exact ⟨cqQuiet_outside rfl rfl rfl rfl List.prefix_rfl rfl rfl, rfl⟩

/-- The effect of every step on the rings is one of `RingMove`. -/
theorem ringMove_of_step (h : step st a = some st') : RingMove st (ringEvents st a) st' := by
  have hquiet := (trans_of_step h).ringQuiet
  cases a with
  | submitStep k =>
    by_cases hw : (st.submits k).pc = .enqWriteTail
    · simp only [step, submitStep, hw, Option.ite_none_right_eq_some, Option.some.injEq] at h
      rw [← h.2]
      simpa [ringEvents, hw] using RingMove.queued k hw
    by_cases hst : (st.submits k).pc = .enqStore
    · simp only [step, submitStep, hst, Option.ite_none_right_eq_some, Option.some.injEq] at h
      rw [← h.2]
      simpa [ringEvents, hw] using RingMove.store k hst
    simp only [ringEvents, hw, if_false]
    refine .quiet _ (hquiet ?_ (by simp) (by simp) (by simp) (by simp))
    rintro l ⟨⟩
    exact ⟨hst, hw⟩
  | isrStep =>
    by_cases hc : st.isr.pc = .drain ∧ st.cqHead ≠ st.isr.deviceCqTail
    · simp only [step, isrStep, hc.1, if_neg hc.2, Option.some.injEq] at h
      rw [← h]
      simpa only [ringEvents, if_pos hc] using RingMove.copied hc.1 hc.2
    · simp only [ringEvents, if_neg hc]
      exact .quiet _ (hquiet (by simp) (fun _ ↦ hc) (by simp) (by simp) (by simp))
  | fetch =>
    simp only [step, devFetch, Option.ite_none_left_eq_some, Option.some.injEq] at h
    rw [← h.2]
    exact .fetched h.1
  | post j status =>
    simp only [step, devPost] at h
    split at h
    · next d hp hd =>
      cases h
      simpa only [ringEvents, hd] using RingMove.posted j status d hp hd
    · cases h
  | postStep =>
    simp only [step, devPostStep] at h
    split at h
    · cases h
    · next status hp =>
      cases h
      exact .advance status hp
    · next status hp =>
      cases h
      exact .quiet _ ⟨cqQuiet_outside rfl rfl rfl (by simp [cqWritten, hp]) List.prefix_rfl rfl
        rfl, rfl⟩
  | _ => exact .quiet _ (hquiet (by simp) (by simp) (by simp) (by simp) (by simp))

/-- Completions the device has posted. -/
def postedOf (log : List RingEvent) : List Completion :=
  (log.filterMap RingEvent.cqOp).filterMap FifoOp.added

/-- Completions the handler has copied out. -/
def copiedOf (log : List RingEvent) : List Completion :=
  (log.filterMap RingEvent.cqOp).filterMap FifoOp.removed

/-- The completion ring, its counters and the log agree. -/
structure CqInv (st : Sys) (log : List RingEvent) : Prop where
  run : fifoRun [] (log.filterMap RingEvent.cqOp) = some (cqPending st)
  once : (log.filterMap RingEvent.answers).Nodup
  ids : (log.filterMap RingEvent.answers).map (fun j ↦ (st.fetched.map (·.cmdId))[j]?) =
    (postedOf log).map fun c ↦ some c.cmdId
  held : st.isr.pc.holding = true → st.isr.comp ∈ copiedOf log
  pushed : ∀ p ∈ st.pushed, p.2 ∈ copiedOf log
  target : st.isr.pc.draining = true →
    span (cqRead st) st.isr.deviceCqTail + span st.isr.deviceCqTail st.regCqTail =
      span (cqRead st) st.regCqTail
  written : span (cqRead st) st.regCqTail + span st.regCqTail (cqWritten st) =
    span (cqRead st) (cqWritten st)

namespace CqInv

/-- No command id is posted twice. -/
theorem posted_nodup (hi : CqInv st log) (hq : QueueInv st) :
    ((postedOf log).map (·.cmdId)).Nodup := by
  have hsome : ((postedOf log).map fun c ↦ some c.cmdId).Nodup := by
    rw [← hi.ids]
    refine List.Nodup.map_on ?_ hi.once
    intro i hmem j _ he
    have hin : (st.fetched.map (·.cmdId))[i]? ∈ (postedOf log).map fun c ↦ some c.cmdId := by
      rw [← hi.ids]
      exact List.mem_map_of_mem hmem
    obtain ⟨c, -, hc⟩ := List.mem_map.mp hin
    obtain ⟨hlt, -⟩ := List.getElem?_eq_some_iff.mp hc.symm
    exact (List.getElem?_inj hlt hq.fetched_nodup).mp he
  rw [show (fun c : Completion ↦ some c.cmdId) = some ∘ (·.cmdId) from rfl,
    ← List.map_map] at hsome
  exact hsome.of_map _

/-- What was posted has been copied out or is in the ring. -/
theorem posted_eq (hi : CqInv st log) : postedOf log = copiedOf log ++ cqPending st := by
  have := fifoRun_eq_some hi.run
  rwa [List.nil_append] at this

/-- Every posted id is that of a descriptor reported in the log. -/
theorem answer_of_posted (hi : CqInv st log) {c : Completion} (hc : c ∈ postedOf log) :
    ∃ j ∈ log.filterMap RingEvent.answers, (st.fetched.map (·.cmdId))[j]? = some c.cmdId := by
  have hmem : some c.cmdId ∈ (postedOf log).map fun c ↦ some c.cmdId :=
    List.mem_map.mpr ⟨c, hc, rfl⟩
  rw [← hi.ids] at hmem
  exact List.mem_map.mp hmem

/-- Distinct ids that were fetched and of which no completion was copied out belong to
distinct unrouted commands. -/
private theorem length_le (hi : CqInv st log) (h : ReachBy EnqueueSerial st) {l : List Nat}
    (hl : l.Nodup) (hids : ∀ id ∈ l, id ∈ st.fetched.map (·.cmdId) ∧
      id ∉ (copiedOf log).map (·.cmdId)) : l.length ≤ queueDepth := by
  have hsub : l ⊆ (unrouted st).map (·.cmd.cmdId) := by
    intro id hid
    obtain ⟨d, hd, rfl⟩ := List.mem_map.mp (hids id hid).1
    obtain ⟨k, hk, rfl⟩ := ((queueInv h).mem d).mp (List.mem_append_left _ hd)
    refine unrouted_of_unpushed h (committed_of_queued hk) ?_
    intro p hp he
    exact (hids _ hid).2 (List.mem_map.mpr ⟨p.2, hi.pushed p hp, he⟩)
  have hlen := (List.subperm_of_subset hl hsub).length_le
  rw [List.length_map, length_unrouted h] at hlen
  exact hlen.trans (outstanding_le_queueDepth (h.mono fun _ _ hok ↦ hok.1))

/-- Ids in the ring are distinct, were fetched, and were not copied out. -/
private theorem pending_ids (hi : CqInv st log) (hq : QueueInv st) :
    ((cqPending st).map (·.cmdId)).Nodup ∧ ∀ id ∈ (cqPending st).map (·.cmdId),
      id ∈ st.fetched.map (·.cmdId) ∧ id ∉ (copiedOf log).map (·.cmdId) := by
  have hnodup := hi.posted_nodup hq
  rw [hi.posted_eq, List.map_append, List.nodup_append] at hnodup
  obtain ⟨-, hpend, hdisj⟩ := hnodup
  refine ⟨hpend, ?_⟩
  intro id hid
  constructor
  · obtain ⟨c, hc, rfl⟩ := List.mem_map.mp hid
    obtain ⟨j, -, hj⟩ := hi.answer_of_posted (hi.posted_eq ▸ List.mem_append_right _ hc)
    exact List.mem_of_getElem? hj
  · intro hmem
    exact hdisj _ hmem _ hid rfl

/-- The completion ring is never more than full. -/
theorem span_le (hi : CqInv st log) (h : ReachBy EnqueueSerial st) :
    span (cqRead st) (cqWritten st) ≤ queueDepth := by
  obtain ⟨hnodup, hids⟩ := hi.pending_ids (queueInv h)
  have hlen := hi.length_le h hnodup hids
  rwa [List.length_map, cqPending, length_window] at hlen

/-- While a fetched descriptor has not been reported the completion ring is not full. -/
theorem span_lt (hi : CqInv st log) (h : ReachBy EnqueueSerial st) {j : Nat} {d : Cmd}
    (hj : st.fetched[j]? = some d) (hnew : j ∉ log.filterMap RingEvent.answers) :
    span (cqRead st) (cqWritten st) < queueDepth := by
  have hq := queueInv h
  obtain ⟨hnodup, hids⟩ := hi.pending_ids hq
  have hjid : (st.fetched.map (·.cmdId))[j]? = some d.cmdId := by
    rw [List.getElem?_map, hj]
    rfl
  obtain ⟨hlt, -⟩ := List.getElem?_eq_some_iff.mp hjid
  have hunposted : d.cmdId ∉ (postedOf log).map (·.cmdId) := by
    intro hmem
    obtain ⟨c, hc, he⟩ := List.mem_map.mp hmem
    obtain ⟨i, hi', hiid⟩ := hi.answer_of_posted hc
    have hij : j = i := (List.getElem?_inj hlt hq.fetched_nodup).mp (by rw [hjid, hiid, he])
    rw [hij] at hnew
    exact hnew hi'
  rw [hi.posted_eq, List.map_append, List.mem_append, not_or] at hunposted
  have hlen := hi.length_le h (List.nodup_cons.mpr ⟨hunposted.2, hnodup⟩)
    (List.forall_mem_cons.mpr ⟨⟨List.mem_of_getElem? hjid, hunposted.1⟩, hids⟩)
  rw [List.length_cons, List.length_map, cqPending, length_window] at hlen
  omega

/-- Descriptors reported so far keep their place in the order of fetches. -/
private theorem ids_mono (hi : CqInv st log) (hf : st.fetched <+: st'.fetched) :
    (log.filterMap RingEvent.answers).map (fun j ↦ (st'.fetched.map (·.cmdId))[j]?) =
      (postedOf log).map fun c ↦ some c.cmdId := by
  rw [← hi.ids]
  apply List.map_congr_left
  intro j hj
  have hmem : (st.fetched.map (·.cmdId))[j]? ∈ (postedOf log).map fun c ↦ some c.cmdId := by
    rw [← hi.ids]
    exact List.mem_map_of_mem hj
  obtain ⟨c, -, hc⟩ := List.mem_map.mp hmem
  obtain ⟨hlt, -⟩ := List.getElem?_eq_some_iff.mp hc.symm
  obtain ⟨l, hl⟩ := hf
  rw [← hl, List.map_append, List.getElem?_append_left hlt]

/-- Steps that post and copy nothing. -/
private theorem quiet (hi : CqInv st log) (es : List RingEvent) (h : CqQuiet st st')
    (hop : es.filterMap RingEvent.cqOp = []) (hans : es.filterMap RingEvent.answers = []) :
    CqInv st' (log ++ es) := by
  have hops : (log ++ es).filterMap RingEvent.cqOp = log.filterMap RingEvent.cqOp := by
    rw [List.filterMap_append, hop, List.append_nil]
  have hanss : (log ++ es).filterMap RingEvent.answers = log.filterMap RingEvent.answers := by
    rw [List.filterMap_append, hans, List.append_nil]
  have hposted : postedOf (log ++ es) = postedOf log := by
    unfold postedOf
    rw [hops]
  have hcopied : copiedOf (log ++ es) = copiedOf log := by
    unfold copiedOf
    rw [hops]
  refine ⟨?_, ?_, ?_, ?_, ?_, ?_, ?_⟩
  · unfold cqPending
    rw [hops, h.cqBuf, h.read, h.written]
    exact hi.run
  · rw [hanss]
    exact hi.once
  · rw [hanss, hposted]
    exact hi.ids_mono h.fetched
  · intro hp
    obtain ⟨hp, he⟩ := h.comp hp
    rw [hcopied, he]
    exact hi.held hp
  · intro p hp
    rw [hcopied]
    rcases h.pushed p hp with hp | ⟨hp, he⟩
    · exact hi.pushed p hp
    · rw [he]
      exact hi.held hp
  · intro hd
    rw [h.read, h.tail]
    rcases h.draining hd with ⟨hd, he⟩ | he
    · rw [he]
      exact hi.target hd
    · rw [he, span_eq_zero_iff.mpr rfl, Nat.add_zero]
  · rw [h.read, h.tail, h.written]
    exact hi.written

/-- The device writes a completion into a ring that is not full. -/
private theorem posted (hi : CqInv st log) {j : Nat} {status : U32} {d : Cmd}
    (hroom : span (cqRead st) (cqWritten st) < queueDepth) (hp : st.post = .idle)
    (hj : st.fetched[j]? = some d) (hnew : j ∉ log.filterMap RingEvent.answers) :
    CqInv
      { st with
        cqBuf := Function.update st.cqBuf (slotOf _ st.regCqTail) ⟨d.cmdId, status, 0⟩
        post := .advance status }
      (log ++ [.posted j ⟨d.cmdId, status, 0⟩]) := by
  have hw : cqWritten st = st.regCqTail := by simp [cqWritten, hp]
  rw [hw] at hroom
  have hcopied : copiedOf (log ++ [.posted j ⟨d.cmdId, status, 0⟩]) = copiedOf log := by
    simp [copiedOf, RingEvent.cqOp, FifoOp.removed]
  refine ⟨?_, ?_, ?_, ?_, ?_, hi.target, ?_⟩
  · have hrun := hi.run
    unfold cqPending at hrun
    rw [hw] at hrun
    rw [List.filterMap_append]
    change fifoRun [] (_ ++ [FifoOp.enq _]) = _
    rw [fifoRun_concat, hrun]
    change some _ = some _
    congr 1
    exact (window_push (by decide) (by decide) st.cqBuf hroom _).symm
  · rw [List.filterMap_append]
    change (_ ++ [j]).Nodup
    rw [List.nodup_append]
    refine ⟨hi.once, List.nodup_singleton _, ?_⟩
    intro i hmem k hk he
    rw [List.mem_singleton] at hk
    rw [he, hk] at hmem
    exact hnew hmem
  · have hids := hi.ids
    simp only [postedOf, List.filterMap_append] at hids ⊢
    rw [List.map_append, List.map_append, hids]
    simp [RingEvent.answers, RingEvent.cqOp, FifoOp.added, hj]
  · rw [hcopied]
    exact hi.held
  · rw [hcopied]
    exact hi.pushed
  · change span (cqRead st) st.regCqTail + span st.regCqTail (st.regCqTail + 1) =
      span (cqRead st) (st.regCqTail + 1)
    have hlt : queueDepth < 2 ^ 32 := by decide
    have hself : span st.regCqTail st.regCqTail = 0 := span_eq_zero_iff.mpr rfl
    rw [span_succ (by omega), span_succ (by omega), hself]

/-- The device advances `CQ_TAIL` past the completion it wrote. -/
private theorem advance (hi : CqInv st log) {status : U32}
    (hroom : span (cqRead st) (cqWritten st) ≤ queueDepth) (hp : st.post = .advance status) :
    CqInv { st with regCqTail := st.regCqTail + 1, post := .raise status } log := by
  have hw : cqWritten st = st.regCqTail + 1 := by simp [cqWritten, hp]
  have hlt : queueDepth < 2 ^ 32 - 1 := by decide
  have hwritten := hi.written
  rw [hw] at hroom hwritten
  refine ⟨?_, hi.once, hi.ids, hi.held, hi.pushed, ?_, ?_⟩
  · have hrun := hi.run
    unfold cqPending at hrun
    rw [hw] at hrun
    exact hrun
  · intro hd
    change span (cqRead st) st.isr.deviceCqTail + span st.isr.deviceCqTail (st.regCqTail + 1) =
      span (cqRead st) (st.regCqTail + 1)
    have htarget := hi.target hd
    rw [span_succ (by omega), span_succ (by omega)]
    omega
  · change span (cqRead st) (st.regCqTail + 1) + span (st.regCqTail + 1) (st.regCqTail + 1) =
      span (cqRead st) (st.regCqTail + 1)
    rw [span_eq_zero_iff.mpr rfl, Nat.add_zero]

/-- The handler copies the oldest completion out. -/
private theorem copied (hi : CqInv st log) (hp : st.isr.pc = .drain)
    (hne : st.cqHead ≠ st.isr.deviceCqTail) :
    CqInv
      { st with
        isr := { st.isr with pc := .lookup, comp := st.cqBuf (slotOf _ st.cqHead) } }
      (log ++ [.copied (st.cqBuf (slotOf _ st.cqHead))]) := by
  have hr : cqRead st = st.cqHead := by simp [cqRead, hp, IsrPc.holding]
  have htarget := hi.target (by rw [hp]; rfl)
  have hwritten := hi.written
  rw [hr] at htarget hwritten
  -- the target of the drain is between `cq_head` and what the device has written
  have hpos : span st.cqHead st.isr.deviceCqTail ≠ 0 := by
    rw [Ne, span_eq_zero_iff]
    exact hne
  have hreg : st.cqHead ≠ st.regCqTail := by
    intro he
    rw [span_eq_zero_iff.mpr he] at htarget
    omega
  have hwr : st.cqHead ≠ cqWritten st := by
    intro he
    rw [← he, span_eq_zero_iff.mpr rfl] at hwritten
    exact hreg (span_eq_zero_iff.mp (by omega))
  have hcopied : copiedOf (log ++ [.copied (st.cqBuf (slotOf _ st.cqHead))]) =
      copiedOf log ++ [st.cqBuf (slotOf _ st.cqHead)] := by
    simp [copiedOf, RingEvent.cqOp, FifoOp.removed]
  refine ⟨?_, ?_, ?_, ?_, ?_, ?_, ?_⟩
  · have hrun := hi.run
    unfold cqPending at hrun
    rw [hr, window_pop _ hwr] at hrun
    rw [List.filterMap_append]
    change fifoRun [] (_ ++ [FifoOp.deq _]) = _
    rw [fifoRun_concat, hrun]
    change (if _ then _ else _) = _
    rw [if_pos rfl]
    rfl
  · rw [List.filterMap_append]
    change (_ ++ []).Nodup
    rw [List.append_nil]
    exact hi.once
  · have hids := hi.ids
    simp only [postedOf, List.filterMap_append] at hids ⊢
    simpa [List.filterMap_cons, RingEvent.answers, RingEvent.cqOp, FifoOp.added] using hids
  · intro _
    rw [hcopied]
    exact List.mem_append_right _ (List.mem_singleton.mpr rfl)
  · intro p hmem
    rw [hcopied]
    exact List.mem_append_left _ (hi.pushed p hmem)
  · intro _
    change span (st.cqHead + 1) st.isr.deviceCqTail + span st.isr.deviceCqTail st.regCqTail =
      span (st.cqHead + 1) st.regCqTail
    rw [span_pop hne, span_pop hreg] at htarget
    omega
  · change span (st.cqHead + 1) st.regCqTail + span st.regCqTail (cqWritten st) =
      span (st.cqHead + 1) (cqWritten st)
    rw [span_pop hreg, span_pop hwr] at hwritten
    omega

/-- Every step keeps the completion ring and the log in agreement, as long as no descriptor is
reported twice. -/
theorem step (hi : CqInv st log) (hr : ReachBy EnqueueSerial st) {es : List RingEvent}
    (hnew : ∀ j ∈ es.filterMap RingEvent.answers, j ∉ log.filterMap RingEvent.answers)
    (h : RingMove st es st') : CqInv st' (log ++ es) := by
  cases h with
  | quiet _ hq => exact hi.quiet [] hq.toCqQuiet rfl rfl
  | store k hk =>
    exact hi.quiet [] (cqQuiet_outside rfl rfl rfl rfl List.prefix_rfl rfl rfl) rfl rfl
  | queued k hk =>
    exact hi.quiet [_] (cqQuiet_outside rfl rfl rfl rfl List.prefix_rfl rfl rfl) rfl rfl
  | fetched hne =>
    exact hi.quiet [_] (cqQuiet_outside rfl rfl rfl rfl (List.prefix_append _ _) rfl rfl) rfl rfl
  | posted j status d hp hj =>
    have hj' := hnew j (List.mem_singleton.mpr rfl)
    exact hi.posted (hi.span_lt hr hj hj') hp hj hj'
  | advance status hp =>
    rw [List.append_nil]
    exact hi.advance (hi.span_le hr) hp
  | copied hp hne => exact hi.copied hp hne

/-- The empty ring agrees with the empty log. -/
theorem init : CqInv Sys.init [] := by
  refine ⟨?_, List.nodup_nil, rfl, nofun, nofun, nofun, rfl⟩
  change some [] = some (window Sys.init.cqBuf 0 0)
  rw [window_self]

end CqInv

/-- A submitter that has yet to advance `sq_tail` finds room in the submission ring. -/
private theorem sq_room (h : ReachBy EnqueueSerial st) {k : Nat}
    (hk : (st.submits k).pc.committed = true) (hn : (st.submits k).pc.queued = false) :
    span st.regSqHead st.sqTail < queueDepth := by
  refine (queueInv h).span_lt h ?_ hk hn
  rw [length_unrouted h]
  exact outstanding_le_queueDepth (h.mono fun _ _ hok ↦ hok.1)

/-- The submission ring follows the submission queue. -/
private theorem sq_step (hr : ReachBy EnqueueSerial st)
    (hrun : fifoRun [] (log.filterMap RingEvent.sqOp) = some (sqPending st))
    {es : List RingEvent} (h : RingMove st es st') :
    fifoRun [] ((log ++ es).filterMap RingEvent.sqOp) = some (sqPending st') := by
  have hq := queueInv hr
  rw [List.filterMap_append]
  cases h with
  | quiet _ h =>
    rw [List.filterMap_nil, List.append_nil, h.sq]
    exact hrun
  | store k hk =>
    rw [List.filterMap_nil, List.append_nil, hrun]
    unfold sqPending
    rw [hq.idx k hk, window_store (by decide) st.sqBuf (sq_room hr (k := k) (hk ▸ rfl) (hk ▸ rfl))]
  | queued k hk =>
    have hroom := sq_room hr (k := k) (hk ▸ rfl) (hk ▸ rfl)
    have hlt : queueDepth < 2 ^ 32 - 1 := by decide
    change fifoRun [] (_ ++ [FifoOp.enq _]) = _
    rw [fifoRun_concat, hrun]
    change some (window _ _ _ ++ _) =
      some (window st.sqBuf st.regSqHead ((st.submits k).tail + 1))
    rw [hq.tail k (.inl hk), window_advance _ (by omega), hq.stored k (.inr hk)]
  | fetched hne =>
    change fifoRun [] (_ ++ [FifoOp.deq _]) = _
    rw [fifoRun_concat, hrun, sqPending, window_pop _ (hq.head_ne hne)]
    change (if _ then _ else _) = _
    rw [if_pos rfl]
    rfl
  | posted j status d hp hj =>
    change fifoRun [] (_ ++ []) = _
    rw [List.append_nil]
    exact hrun
  | advance status hp =>
    rw [List.filterMap_nil, List.append_nil]
    exact hrun
  | copied hp hne =>
    change fifoRun [] (_ ++ []) = _
    rw [List.append_nil]
    exact hrun

/-- With one submitting thread, neither enqueues nor admissions overlap. -/
private theorem enqueueSerial
    (hone : ∀ k l, (st.submits k).pc.finished = false → (st.submits l).pc.finished = false →
      k = l) (a : Act) : EnqueueSerial st a := by
  constructor
  · intro k _ hadm l _
    by_contra hne
    have hl : (st.submits l).pc.uncountedTotal = true := Bool.not_eq_false _ ▸ hne
    have hkl : k = l := hone k l (hadm.1 ▸ rfl) (by
      cases hp : (st.submits l).pc <;> simp_all [SubmitPc.uncountedTotal, SubmitPc.finished])
    rw [← hkl, hadm.1] at hl
    cases hl
  · intro k _ hk l _
    by_contra hne
    have hl : (st.submits l).pc.enqueuing = true := Bool.not_eq_false _ ▸ hne
    have hkl : k = l := hone k l (hk ▸ rfl) (by
      cases hp : (st.submits l).pc <;> simp_all [SubmitPc.enqueuing, SubmitPc.finished])
    rw [← hkl, hk] at hl
    cases hl

/-- A slot outside the window is not one of its slots. -/
private theorem slotOf_not_mem {head tail : U32} (h : span head tail < queueDepth) :
    slotOf queueDepth tail ∉ window id head tail := by
  intro hmem
  obtain ⟨j, hj, he⟩ := List.mem_map.mp hmem
  exact slotOf_ne (by decide) h (List.mem_range.mp hj) he

/-- Runs with one submitting thread: the queues are in order, and one call is in progress. -/
structure RingsInv (x : Sys × List RingEvent) : Prop where
  serial : ReachBy EnqueueSerial x.1
  single : ∀ k l, (x.1.submits k).pc.finished = false →
    (x.1.submits l).pc.finished = false → k = l
  sq : fifoRun [] (x.2.filterMap RingEvent.sqOp) = some (sqPending x.1)
  cq : CqInv x.1 x.2

/-- The invariant of these runs. -/
theorem ringsInv (h : Reach ringStep SingleThreaded (Sys.init, []) x) : RingsInv x := by
  refine h.invariant ?_ ?_
  · refine ⟨.start, nofun, ?_, .init⟩
    change some [] = some (window Sys.init.sqBuf 0 0)
    rw [window_self]
  · intro x a x' _ hi hok hs
    obtain ⟨hstep, hlog⟩ := logStep_eq_some hs
    have hmove := ringMove_of_step hstep
    refine ⟨.next hi.serial (enqueueSerial hi.single a) hstep, ?_, ?_, ?_⟩
    · exact (trans_of_step hstep).single (callInv hi.serial) hok.1 hi.single
    · rw [hlog]
      exact sq_step hi.serial hi.sq hmove
    · rw [hlog]
      exact hi.cq.step hi.serial hok.2 hmove

/-- With one submitting thread and a device that reports each descriptor once, the two rings
refine two unbounded queues, and nothing in them is overwritten early. -/
theorem rings_refine_queues (h : Reach ringStep SingleThreaded (Sys.init, []) (st, log)) :
    RingsRefine st log := by
  have hi := ringsInv h
  refine ⟨hi.sq, hi.cq.run, ?_, ?_⟩
  · intro k hk
    rw [(queueInv hi.serial).idx k hk]
    exact slotOf_not_mem (sq_room hi.serial (k := k) (hk ▸ rfl) (hk ▸ rfl))
  · intro j status hok hpost
    obtain ⟨st', hst'⟩ := Option.isSome_iff_exists.mp hpost
    simp only [devPost] at hst'
    split at hst'
    · next d hp hd =>
      have hw : cqWritten st = st.regCqTail := by simp [cqWritten, hp]
      have hnew : j ∉ log.filterMap RingEvent.answers := by
        refine hok.2 j ?_
        simp [ringEvents, hd, RingEvent.answers]
      have hroom := hi.cq.span_lt hi.serial hd hnew
      rw [hw] at hroom ⊢
      exact slotOf_not_mem hroom
    · cases hst'

/-- Eighteen commands go round the rings, the last two of them reported in reverse order. -/
theorem rings_refine_queues_reversed : ∃ x : Sys × List RingEvent,
    Reach ringStep SingleThreaded (Sys.init, []) x ∧ x.1.sqTail = 18 ∧ x.1.cqHead = 18 ∧
      ((copiedOf x.2).map (·.cmdId)).drop 16 = [19, 18] ∧ RingsRefine x.1 x.2 := by
  have hrun : (runChecked ringStep (fun x a ↦ decide (SingleThreaded x a)) (Sys.init, [])
      (.chrOpen :: allocScript 0 0 ++
        (List.range 16).flatMap (fun k ↦ submitScript 0 0 k 14 ++ completeScript k 12) ++
        submitScript 0 0 16 14 ++ submitScript 0 0 17 14 ++
        [.fetch, .fetch, .post 17 statusOk, .postStep, .postStep, .post 16 statusOk,
          .postStep, .postStep, .irq] ++ List.replicate 20 .isrStep)).any
      (fun x ↦ decide (x.1.sqTail = 18 ∧ x.1.cqHead = 18 ∧
        ((copiedOf x.2).map (·.cmdId)).drop 16 = [19, 18])) = true := by decide +kernel
  obtain ⟨x, hr, hp⟩ := Reach.exists_of_runChecked (fun _ _ hc ↦ of_decide_eq_true hc) hrun
  obtain ⟨htail, hhead, hids⟩ := of_decide_eq_true hp
  exact ⟨x, hr, htail, hhead, hids, rings_refine_queues hr⟩

end DmaAccel.Driver
