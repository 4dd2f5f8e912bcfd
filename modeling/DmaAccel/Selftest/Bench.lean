import DmaAccel.Queue.Drain

/-!
# The queue under test

Source `track-a/dma_accel_drv.c`: before the character device is registered, `dma_accel_probe`
tests the queue with commands of its own (M6 to M8, 1959–1991). In this phase
`dma_accel_irq_handler` (299–313) acknowledges the interrupt and calls `complete(&irq_done)`, and
the test that waits for `irq_done` drains the completion queue itself. The device is that of
`DmaAccel.Driver`, here with a list of what it has posted, and it reports no descriptor twice.
-/

namespace DmaAccel.Selftest

open DmaAccel.Base DmaAccel.Driver

/-- The commands of a test, of distinct ids and no more of them than the rings hold. -/
structure Plan where
  count : Nat
  cmd : Nat → Cmd
  fits : count ≤ queueDepth
  distinct : ∀ i < count, ∀ j < count, (cmd i).cmdId = (cmd j).cmdId → i = j

/-- What the device posts for a command. -/
def Plan.completion (P : Plan) (p : Nat × U32) : Completion := ⟨(P.cmd p.1).cmdId, p.2, 0⟩

/-- The descriptor of `dma_accel_queue_submit`. -/
def queueSubmit (opcode : U32) (src dst : Nat) (len : U32) (cmdId : Nat) : Cmd :=
  ⟨opcode, len, src, dst, cmdId, 0, 0, 0⟩

/-- The driver and the device, and what the device has posted: the number of the descriptor and
the status. -/
structure Bench where
  sys : Sys
  posted : List (Nat × U32)

/-- A step of the device or of the interrupt handler. -/
inductive EnvAct where
  | irq | isrStep | fetch
  | post (j : Nat) (status : U32)
  | postStep

/-- The steps of the device and of the handler. -/
def envStep (b : Bench) : EnvAct → Option Bench
  | .irq => (irqEnter b.sys).map fun s ↦ { b with sys := s }
  | .isrStep => (isrStep b.sys).map fun s ↦ { b with sys := s }
  | .fetch => (devFetch b.sys).map fun s ↦ { b with sys := s }
  | .post j status =>
    if j ∈ b.posted.map Prod.fst then none
    else (devPost b.sys j status).map fun s ↦ ⟨s, b.posted ++ [(j, status)]⟩
  | .postStep => (devPostStep b.sys).map fun s ↦ { b with sys := s }

/-- `dma_accel_queue_submit_ext` writes the descriptor. -/
def Bench.store (b : Bench) (c : Cmd) : Bench :=
  { b with sys := { b.sys with
    sqBuf := Function.update b.sys.sqBuf (slotOf _ b.sys.sqTail) c } }

/-- `dma_accel_queue_submit_ext` advances `sq_tail` and rings the doorbell. -/
def Bench.doorbell (b : Bench) : Bench :=
  { b with sys := { b.sys with sqTail := b.sys.sqTail + 1, regSqTail := b.sys.sqTail + 1 } }

/-- `reinit_completion(&irq_done)`, or the count that a wait leaves. -/
def Bench.setIrqDone (b : Bench) (n : Nat) : Bench := { b with sys := { b.sys with irqDone := n } }

/-- The completion at `cq_head`. -/
def Bench.comp (b : Bench) : Completion := b.sys.cqBuf (slotOf _ b.sys.cqHead)

/-- `cq_head++`. -/
def Bench.next (b : Bench) : Bench := { b with sys := { b.sys with cqHead := b.sys.cqHead + 1 } }

/-- `CQ_HEAD` is written. -/
def Bench.writeHead (b : Bench) : Bench :=
  { b with sys := { b.sys with regCqHead := b.sys.cqHead } }

/-- What the device has posted with `CQ_TAIL` advanced past it. -/
def Bench.announced (b : Bench) : List (Nat × U32) :=
  match b.sys.post with
  | .advance _ => b.posted.dropLast
  | _ => b.posted

/-- The device and the handler have nothing to do. -/
structure AtRest (b : Bench) : Prop where
  fetched : b.sys.regSqHead = b.sys.regSqTail
  reported : ∀ j < b.sys.fetched.length, j ∈ b.posted.map Prod.fst
  device : b.sys.post = .idle
  handler : b.sys.isr.pc = .idle
  quiet : b.sys.regIrqStatus = 0

/-- Between two tests: the rings are empty and the device has answered all that it fetched, but
an interrupt may still be pending or on its way, and `irq_done` may count one. -/
structure Ready (sys : Sys) : Prop where
  inactive : sys.uapiActive = false
  handler : sys.isr.pc.draining = false
  device : ∀ status, sys.post ≠ .advance status
  sqEmpty : sys.regSqHead = sys.regSqTail
  sqTail : sys.sqTail = sys.regSqTail
  cqEmpty : sys.cqHead = sys.regCqTail
  answered : sys.fetched = []

/-- `dma_accel_queue_init` before the first test. -/
theorem ready_init : Ready { Sys.init with uapiActive := false } :=
  ⟨rfl, rfl, by simp [Sys.init], rfl, rfl, rfl, rfl⟩

/-- After the last test `uapi_active` is set with nothing in the completion queue. -/
theorem Ready.handOver {sys : Sys} (h : Ready sys) : CqEmpty { sys with uapiActive := true } :=
  ⟨rfl, h.cqEmpty, h.handler⟩

/-- With `sub` of its commands submitted and `d` completions drained, the submission ring holds
the former, and the completion ring what the device has announced beyond the latter. -/
structure Served (P : Plan) (b : Bench) (sub d : Nat) : Prop where
  inactive : b.sys.uapiActive = false
  handler : b.sys.isr.pc.draining = false
  sub_le : sub ≤ P.count
  sqTail : b.sys.sqTail = b.sys.regSqTail
  sq : b.sys.fetched ++ window b.sys.sqBuf b.sys.regSqHead b.sys.regSqTail =
    (List.range sub).map P.cmd
  once : (b.posted.map Prod.fst).Nodup
  known : ∀ p ∈ b.posted, p.1 < b.sys.fetched.length
  d_le : d ≤ b.announced.length
  cq : window b.sys.cqBuf b.sys.cqHead b.sys.regCqTail = (b.announced.drop d).map P.completion
  written : ∀ status, b.sys.post = .advance status → ∃ j, b.posted = b.announced ++ [(j, status)] ∧
    b.sys.cqBuf (slotOf _ b.sys.regCqTail) = P.completion (j, status)

/-- An interrupt is on its way. -/
def Interrupting (sys : Sys) : Prop :=
  sys.regIrqStatus ≠ 0 ∨ sys.isr.pc ≠ .idle ∨ ∃ status, sys.post = .raise status

/-- An interrupt will wake the test, or has. -/
def Signalled (b : Bench) : Prop := b.sys.irqDone ≠ 0 ∨ Interrupting b.sys

/-- Who has read `CQ_TAIL` as `x` has seen everything, or will be woken. -/
def Covered (b : Bench) (x : U32) : Prop := x ≠ b.sys.regCqTail → Signalled b

/-- A step of the device or of the handler in this phase. -/
inductive EnvMove (b : Bench) : Bench → Prop where
  | spurious : EnvMove b b
  | enter : b.sys.isr.pc = .idle → b.sys.regIrqStatus ≠ 0 →
      EnvMove b { b with sys := { b.sys with
        isr := { b.sys.isr with pc := .ack, irqStatus := b.sys.regIrqStatus } } }
  | ack : b.sys.isr.pc = .ack →
      EnvMove b { b with sys := { b.sys with
        regIrqStatus := b.sys.regIrqStatus &&& ~~~b.sys.isr.irqStatus
        isr := { b.sys.isr with pc := .readTail } } }
  | complete : b.sys.isr.pc = .readTail →
      EnvMove b { b with sys := { b.sys with
        irqDone := b.sys.irqDone + 1, isr := { b.sys.isr with pc := .idle } } }
  | fetch : b.sys.regSqHead ≠ b.sys.regSqTail →
      EnvMove b { b with sys := { b.sys with
        fetched := b.sys.fetched ++ [b.sys.sqBuf (slotOf _ b.sys.regSqHead)]
        regSqHead := b.sys.regSqHead + 1 } }
  | post (j : Nat) (status : U32) (c : Cmd) : b.sys.post = .idle → j ∉ b.posted.map Prod.fst →
      b.sys.fetched[j]? = some c →
      EnvMove b ⟨{ b.sys with
        cqBuf := Function.update b.sys.cqBuf (slotOf _ b.sys.regCqTail) ⟨c.cmdId, status, 0⟩
        post := .advance status }, b.posted ++ [(j, status)]⟩
  | advance (status : U32) : b.sys.post = .advance status →
      EnvMove b { b with sys := { b.sys with
        regCqTail := b.sys.regCqTail + 1, post := .raise status } }
  | raise (status : U32) : b.sys.post = .raise status →
      EnvMove b { b with sys := { b.sys with
        regIrqStatus :=
          b.sys.regIrqStatus ||| (if status = statusOk then irqDmaDone else irqDmaError)
        post := .idle } }

variable {P : Plan} {b b' : Bench} {a : EnvAct} {sub d : Nat} {x : U32}

/-- What the steps of the device and of the handler do as long as `uapi_active` is not set. -/
theorem envMove_of_envStep (hu : b.sys.uapiActive = false)
    (hd : b.sys.isr.pc.draining = false) (h : envStep b a = some b') : EnvMove b b' := by
  cases a with
  | irq =>
    obtain ⟨s, hs, rfl⟩ := Option.map_eq_some_iff.mp h
    unfold irqEnter at hs
    split at hs
    next hpc =>
      split at hs
      next h0 =>
        cases hs
        exact .spurious
      next h0 =>
        cases hs
        exact .enter hpc h0
    next => cases hs
  | isrStep =>
    obtain ⟨s, hs, rfl⟩ := Option.map_eq_some_iff.mp h
    cases hpc : b.sys.isr.pc with
    | ack =>
      simp only [isrStep, hpc, Option.some.injEq] at hs
      subst hs
      exact .ack hpc
    | readTail =>
      simp only [isrStep, hpc] at hs
      rw [if_neg (by simp [hu])] at hs
      cases hs
      exact .complete hpc
    | idle => simp [isrStep, hpc] at hs
    | _ => simp [hpc, IsrPc.draining] at hd
  | fetch =>
    obtain ⟨s, hs, rfl⟩ := Option.map_eq_some_iff.mp h
    unfold devFetch at hs
    split at hs
    next => cases hs
    next hne =>
      cases hs
      exact .fetch hne
  | post j status =>
    simp only [envStep] at h
    split at h
    next => cases h
    next hj =>
      obtain ⟨s, hs, rfl⟩ := Option.map_eq_some_iff.mp h
      unfold devPost at hs
      split at hs
      next c hpost hc =>
        cases hs
        exact .post j status c hpost hj hc
      next => cases hs
  | postStep =>
    obtain ⟨s, hs, rfl⟩ := Option.map_eq_some_iff.mp h
    unfold devPostStep at hs
    split at hs
    next => cases hs
    next status hpost =>
      cases hs
      exact .advance status hpost
    next status hpost =>
      cases hs
      exact .raise status hpost

/-- Unless the device is about to advance `CQ_TAIL`, all that it posted is announced. -/
theorem announced_eq (h : ∀ status, b.sys.post ≠ .advance status) : b.announced = b.posted := by
  unfold Bench.announced
  split
  next status hpost => exact absurd hpost (h status)
  next => rfl

/-- Distinct descriptors are no more than there are. -/
theorem length_le_of_indices {ps : List (Nat × U32)} {n : Nat} (honce : (ps.map Prod.fst).Nodup)
    (hknown : ∀ p ∈ ps, p.1 < n) : ps.length ≤ n := by
  have hsub : ps.map Prod.fst ⊆ List.range n := by
    intro j hj
    obtain ⟨p, hp, rfl⟩ := List.mem_map.mp hj
    exact List.mem_range.mpr (hknown p hp)
  simpa using (honce.subperm hsub).length_le

/-- No more is announced than is posted. -/
theorem announced_within (b : Bench) : b.announced <+: b.posted := by
  unfold Bench.announced
  split
  next => exact List.dropLast_prefix _
  next => exact List.prefix_rfl

namespace Served

variable (h : Served P b sub d)
include h

/-- What is submitted has been fetched or is in the ring. -/
theorem fetched_add : b.sys.fetched.length + span b.sys.regSqHead b.sys.regSqTail = sub := by
  have hlen := congrArg List.length h.sq
  simpa [length_window] using hlen

/-- What is announced has been drained or is in the ring. -/
theorem span_cq : span b.sys.cqHead b.sys.regCqTail = b.announced.length - d := by
  have hlen := congrArg List.length h.cq
  simpa [length_window] using hlen

/-- The device has fetched the commands in order. -/
theorem fetched_eq {j : Nat} {c : Cmd} (hc : b.sys.fetched[j]? = some c) : c = P.cmd j := by
  obtain ⟨hj, rfl⟩ := List.getElem?_eq_some_iff.mp hc
  have hlt : j < sub := by
    have := h.fetched_add
    omega
  have hget := congrArg (·[j]?) h.sq
  simp only [List.getElem?_append_left hj, List.getElem?_map, List.getElem?_range hlt,
    Option.map_some] at hget
  rw [List.getElem?_eq_getElem hj] at hget
  exact Option.some.inj hget

/-- The device posts no more than it has fetched. -/
theorem posted_le : b.posted.length ≤ b.sys.fetched.length :=
  length_le_of_indices h.once h.known

end Served

/-- What a step of the device or of the handler leaves to the test. -/
structure EnvFrame (b b' : Bench) : Prop where
  cqHead : b'.sys.cqHead = b.sys.cqHead
  sqTail : b'.sys.sqTail = b.sys.sqTail
  sqBuf : b'.sys.sqBuf = b.sys.sqBuf
  announced : b.announced <+: b'.announced
  covered : ∀ x, Covered b x → Covered b' x
  tail : b'.sys.regCqTail = b.sys.regCqTail ∨ b'.sys.regCqTail = b.sys.regCqTail + 1

/-- The test finds the rings as it left them, and no announcement goes unnoticed. -/
theorem EnvMove.frame (h : EnvMove b b') : EnvFrame b b' := by
  have hkeep : ∀ x, b'.sys.regCqTail = b.sys.regCqTail → (Signalled b → Signalled b') →
      Covered b x → Covered b' x := by
    intro x ht hs hc hx
    rw [ht] at hx
    exact hs (hc hx)
  cases h with
  | spurious => exact ⟨rfl, rfl, rfl, List.prefix_rfl, fun _ hc ↦ hc, .inl rfl⟩
  | enter hpc h0 =>
    refine ⟨rfl, rfl, rfl, List.prefix_rfl, fun x ↦ hkeep x rfl fun _ ↦ ?_, .inl rfl⟩
    exact .inr (.inr (.inl (by simp)))
  | ack hpc =>
    refine ⟨rfl, rfl, rfl, List.prefix_rfl, fun x ↦ hkeep x rfl fun _ ↦ ?_, .inl rfl⟩
    exact .inr (.inr (.inl (by simp)))
  | complete hpc =>
    refine ⟨rfl, rfl, rfl, List.prefix_rfl, fun x ↦ hkeep x rfl fun _ ↦ ?_, .inl rfl⟩
    exact .inl (Nat.succ_ne_zero _)
  | fetch hne =>
    exact ⟨rfl, rfl, rfl, List.prefix_rfl, fun x ↦ hkeep x rfl fun hs ↦ hs, .inl rfl⟩
  | post j status c hpost hj hc =>
    refine ⟨rfl, rfl, rfl, ?_, fun x ↦ hkeep x rfl fun hs ↦ ?_, .inl rfl⟩
    · rw [announced_eq (by simp [hpost])]
      simp [Bench.announced]
    · obtain hs | hs | hs | ⟨status', hs⟩ := hs
      · exact .inl hs
      · exact .inr (.inl hs)
      · exact .inr (.inr (.inl hs))
      · simp [hpost] at hs
  | advance status hpost =>
    refine ⟨rfl, rfl, rfl, ?_, fun x _ _ ↦ .inr (.inr (.inr ⟨status, rfl⟩)), .inr rfl⟩
    simp only [Bench.announced, hpost]
    exact List.dropLast_prefix _
  | raise status hpost =>
    refine ⟨rfl, rfl, rfl, ?_, fun x ↦ hkeep x rfl fun _ ↦ ?_, .inl rfl⟩
    · simp [Bench.announced, hpost]
    · exact .inr (.inl (raise_ne_zero _ _))

/-- What is announced fits into the ring. -/
theorem Served.span_le (h : Served P b sub d) : span b.sys.cqHead b.sys.regCqTail ≤ 16 := by
  have hspan := h.span_cq
  have hannounced := (announced_within b).length_le
  have hposted := h.posted_le
  have hfetched := h.fetched_add
  have hsub := h.sub_le
  have hfits : P.count ≤ 16 := P.fits
  omega

namespace EnvFrame

variable (h : EnvFrame b b')
include h

/-- A test that has drained all it was told of still has, or is told of more. -/
theorem covered_head (hc : Covered b b.sys.cqHead) : Covered b' b'.sys.cqHead := by
  rw [h.cqHead]
  exact h.covered _ hc

/-- What lay before `CQ_TAIL` still does. -/
theorem span_le (hroom : span b.sys.cqHead b.sys.regCqTail ≤ 16)
    (hle : span b.sys.cqHead x ≤ span b.sys.cqHead b.sys.regCqTail) :
    span b'.sys.cqHead x ≤ span b'.sys.cqHead b'.sys.regCqTail := by
  rw [h.cqHead]
  obtain ht | ht := h.tail
  · rw [ht]
    exact hle
  · rw [ht, span_succ (by omega)]
    omega

end EnvFrame

/-- An interrupt has been on its way or comes with an announcement. -/
theorem Served.interrupting (h : Served P b sub d) (hm : EnvMove b b')
    (hs : Interrupting b'.sys) : Interrupting b.sys ∨ b'.announced ≠ [] := by
  cases hm with
  | spurious => exact .inl hs
  | enter hpc h0 => exact .inl (.inl h0)
  | ack hpc => exact .inl (.inr (.inl (by simp [hpc])))
  | complete hpc => exact .inl (.inr (.inl (by simp [hpc])))
  | fetch hne => exact .inl hs
  | post j status c hpost hj hc =>
    obtain hs | hs | ⟨status', hs⟩ := hs
    · exact .inl (.inl hs)
    · exact .inl (.inr (.inl hs))
    · cases hs
  | advance status hpost =>
    obtain ⟨j, hlast, -⟩ := h.written status hpost
    refine .inr ?_
    show b.posted ≠ []
    rw [hlast]
    exact List.append_ne_nil_of_right_ne_nil _ (List.cons_ne_nil _ _)
  | raise status hpost => exact .inl (.inr (.inr ⟨status, hpost⟩))

/-- And so has what wakes the test. -/
theorem Served.signalled (h : Served P b sub d) (hm : EnvMove b b') (hs : Signalled b') :
    Signalled b ∨ b'.announced ≠ [] := by
  obtain hdone | hs := hs
  · cases hm with
    | complete hpc => exact .inl (.inr (.inr (.inl (by simp [hpc]))))
    | _ => exact .inl (.inl hdone)
  · obtain hs | hs := h.interrupting hm hs
    · exact .inl (.inr hs)
    · exact .inr hs

/-- The device and the handler serve the test. -/
theorem Served.env (h : Served P b sub d) (hm : EnvMove b b') : Served P b' sub d := by
  have hannounced := (announced_within b).length_le
  have hposted := h.posted_le
  have hfetched := h.fetched_add
  have hspan := h.span_cq
  have hsub := h.sub_le
  have hfits : P.count ≤ 16 := P.fits
  cases hm with
  | spurious => exact h
  | enter hpc h0 => exact { h with handler := rfl }
  | ack hpc => exact { h with handler := rfl }
  | complete hpc => exact { h with handler := rfl }
  | fetch hne =>
    refine { h with sq := ?_, known := ?_ }
    · have hsq := h.sq
      rw [window_pop _ hne] at hsq
      simpa using hsq
    · intro p hp
      have hlt := h.known p hp
      simp only [List.length_append, List.length_singleton]
      omega
  | post j status c hpost hj hc =>
    have hall : b.announced = b.posted := announced_eq (by simp [hpost])
    have hlt : j < b.sys.fetched.length := (List.getElem?_eq_some_iff.mp hc).1
    have honce : ((b.posted ++ [(j, status)]).map Prod.fst).Nodup := by
      rw [List.map_append]
      exact h.once.append (List.nodup_singleton _) (by simpa using hj)
    have hknown : ∀ p ∈ b.posted ++ [(j, status)], p.1 < b.sys.fetched.length := by
      intro p hp
      obtain hp | hp := List.mem_append.mp hp
      · exact h.known p hp
      · rw [List.mem_singleton.mp hp]
        exact hlt
    have hroom : span b.sys.cqHead b.sys.regCqTail < 16 := by
      have hle := length_le_of_indices honce hknown
      simp only [List.length_append, List.length_singleton] at hle
      omega
    have hnew : Bench.announced ⟨{ b.sys with
        cqBuf := Function.update b.sys.cqBuf (slotOf _ b.sys.regCqTail) ⟨c.cmdId, status, 0⟩
        post := .advance status }, b.posted ++ [(j, status)]⟩ = b.announced := by
      rw [hall]
      exact List.dropLast_concat
    refine { h with once := honce, known := hknown, d_le := ?_, cq := ?_, written := ?_ }
    · rw [hnew]
      exact h.d_le
    · rw [hnew, window_store (by decide) _ hroom]
      exact h.cq
    · intro status' hstatus
      cases hstatus
      refine ⟨j, by rw [hnew, hall], ?_⟩
      show Function.update b.sys.cqBuf _ _ (slotOf _ b.sys.regCqTail) = _
      rw [Function.update_self, h.fetched_eq hc]
      rfl
  | advance status hpost =>
    obtain ⟨j, hlast, hslot⟩ := h.written status hpost
    have hnew : Bench.announced { b with sys := { b.sys with
        regCqTail := b.sys.regCqTail + 1, post := .raise status } } =
          b.announced ++ [(j, status)] := by
      rw [← hlast]
      rfl
    have hd := h.d_le
    refine { h with d_le := ?_, cq := ?_, written := ?_ }
    · rw [hnew, List.length_append]
      omega
    · rw [hnew, List.drop_append_of_le_length hd, List.map_append]
      show window b.sys.cqBuf b.sys.cqHead (b.sys.regCqTail + 1) = _
      rw [window_advance _ (by omega), h.cq, hslot]
      rfl
    · intro status' hstatus
      cases hstatus
  | raise status hpost =>
    have hnew : Bench.announced { b with sys := { b.sys with
        regIrqStatus :=
          b.sys.regIrqStatus ||| (if status = statusOk then irqDmaDone else irqDmaError)
        post := .idle } } = b.announced := by
      simp [Bench.announced, hpost]
    refine { h with d_le := ?_, cq := ?_, written := ?_ }
    · rw [hnew]
      exact h.d_le
    · rw [hnew]
      exact h.cq
    · intro status' hstatus
      cases hstatus

namespace Served

/-- A test starts between two tests. -/
theorem start {sys : Sys} (h : Ready sys) : Served P ⟨sys, []⟩ 0 0 where
  inactive := h.inactive
  handler := h.handler
  sub_le := Nat.zero_le _
  sqTail := h.sqTail
  sq := by rw [h.answered, h.sqEmpty, window_self]; rfl
  once := List.nodup_nil
  known := by simp
  d_le := Nat.zero_le _
  cq := by
    rw [h.cqEmpty, window_self, announced_eq h.device]
    rfl
  written status hpost := absurd hpost (h.device status)

/-- A descriptor is written where the device does not read. -/
theorem store (h : Served P b sub d) (hlt : sub < P.count) (c : Cmd) :
    Served P (b.store c) sub d := by
  have hfetched := h.fetched_add
  have hfits : P.count ≤ 16 := P.fits
  have hroom : span b.sys.regSqHead b.sys.regSqTail < 16 := by omega
  refine { h with sq := ?_ }
  show b.sys.fetched ++ window (Function.update b.sys.sqBuf (slotOf _ b.sys.sqTail) c)
    b.sys.regSqHead b.sys.regSqTail = _
  rw [h.sqTail, window_store (by decide) _ hroom]
  exact h.sq

/-- The next command is submitted. -/
theorem doorbell (h : Served P b sub d) (hlt : sub < P.count)
    (hc : b.sys.sqBuf (slotOf _ b.sys.sqTail) = P.cmd sub) :
    Served P b.doorbell (sub + 1) d := by
  have hfetched := h.fetched_add
  have hfits : P.count ≤ 16 := P.fits
  refine { h with sub_le := hlt, sqTail := rfl, sq := ?_ }
  show b.sys.fetched ++ window b.sys.sqBuf b.sys.regSqHead (b.sys.sqTail + 1) = _
  rw [h.sqTail] at hc ⊢
  rw [window_advance _ (by omega), ← List.append_assoc, h.sq, hc, List.range_succ, List.map_append]
  rfl

/-- The wait and `reinit_completion` do not touch the rings. -/
theorem setIrqDone (h : Served P b sub d) (n : Nat) : Served P (b.setIrqDone n) sub d := { h with }

/-- Nor does the write of `CQ_HEAD`. -/
theorem writeHead (h : Served P b sub d) : Served P b.writeHead sub d := { h with }

/-- The next completion to drain is the next that was announced. -/
theorem next (h : Served P b sub d) (hne : b.sys.cqHead ≠ b.sys.regCqTail) :
    ∃ p, b.announced[d]? = some p ∧ b.comp = P.completion p ∧ Served P b.next sub (d + 1) := by
  have hspan := h.span_cq
  have hlt : d < b.announced.length := by
    have hpos : span b.sys.cqHead b.sys.regCqTail ≠ 0 := fun h0 ↦ hne (span_eq_zero_iff.mp h0)
    omega
  have hcq := h.cq
  rw [window_pop _ hne, List.drop_eq_getElem_cons hlt, List.map_cons] at hcq
  obtain ⟨hcomp, hrest⟩ := List.cons.inj hcq
  exact ⟨_, List.getElem?_eq_getElem hlt, hcomp, { h with d_le := hlt, cq := hrest }⟩

/-- All that is announced has been drained once the ring is empty. -/
theorem drained (h : Served P b sub d) (he : b.sys.cqHead = b.sys.regCqTail) :
    d = b.announced.length := by
  have hspan := h.span_cq
  rw [span_eq_zero_iff.mpr he] at hspan
  have := h.d_le
  omega

/-- Nothing is announced before anything is submitted. -/
theorem nothing (h : Served P b 0 d) : b.announced = [] ∧ b.sys.cqHead = b.sys.regCqTail := by
  have hfetched := h.fetched_add
  have hposted := h.posted_le
  have hpre := (announced_within b).length_le
  have hspan := h.span_cq
  have hempty : span b.sys.cqHead b.sys.regCqTail = 0 := by omega
  exact ⟨List.eq_nil_of_length_eq_zero (by omega), span_eq_zero_iff.mp hempty⟩

/-- A device and a handler at rest have left everything in the ring. -/
theorem drained_of_atRest (h : Served P b sub d) (hrest : AtRest b)
    (hc : Covered b b.sys.cqHead) (hdone : b.sys.irqDone = 0) : d = sub := by
  have hhead : b.sys.cqHead = b.sys.regCqTail := by
    by_contra hne
    obtain hs | hs | hs | ⟨status, hs⟩ := hc hne
    · exact hs hdone
    · exact hs hrest.quiet
    · exact hs hrest.handler
    · simp [hrest.device] at hs
  have hfetched := h.fetched_add
  rw [span_eq_zero_iff.mpr hrest.fetched] at hfetched
  have hposted : b.sys.fetched.length ≤ b.posted.length := by
    have hsub : List.range b.sys.fetched.length ⊆ b.posted.map Prod.fst :=
      fun j hj ↦ hrest.reported j (List.mem_range.mp hj)
    simpa using (List.nodup_range.subperm hsub).length_le
  have hle := h.posted_le
  have hd := h.drained hhead
  rw [announced_eq (by simp [hrest.device])] at hd
  omega

/-- Once as many completions are drained as commands are submitted, the rings are empty and the
device has nothing to answer. -/
theorem ready (h : Served P b sub sub) : Ready { b.sys with fetched := [] } := by
  have hfetched := h.fetched_add
  have hposted := h.posted_le
  have hpre := (announced_within b).length_le
  have hd := h.d_le
  have hspan := h.span_cq
  have hsq : span b.sys.regSqHead b.sys.regSqTail = 0 := by omega
  have hcq : span b.sys.cqHead b.sys.regCqTail = 0 := by omega
  refine ⟨h.inactive, h.handler, ?_, span_eq_zero_iff.mp hsq, h.sqTail,
    span_eq_zero_iff.mp hcq, rfl⟩
  intro status hstatus
  obtain ⟨j, hj, -⟩ := h.written status hstatus
  have hlen := congrArg List.length hj
  simp only [List.length_append, List.length_singleton] at hlen
  omega

/-- Before anything is submitted the device has fetched nothing either. -/
theorem untouched (h : Served P b 0 d) : Ready b.sys := by
  obtain rfl : d = 0 := by
    have hd := h.d_le
    rw [h.nothing.1] at hd
    exact Nat.le_zero.mp hd
  have hf : b.sys.fetched = [] := (List.append_eq_nil_iff.mp h.sq).1
  have hready := h.ready
  rwa [← hf] at hready

end Served

end DmaAccel.Selftest
