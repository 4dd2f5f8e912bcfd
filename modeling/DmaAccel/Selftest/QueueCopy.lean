import DmaAccel.Selftest.Concurrency

/-!
# One copy through the queue

Source `track-a/dma_accel_drv.c`, `dma_accel_queue_do_copy` (868–913), by which M6 makes its one
copy and M8 the copy after the reset. It waits for `irq_done` once, and it does not wait again if
the interrupt was an older one. With none on its way at the call the copy is reported or the wait
times out; with one, `-ENOENT` is returned while the copy is still to be made.
-/

namespace DmaAccel.Selftest

open DmaAccel.Base DmaAccel.Driver

namespace QueueCopy

/-- The one command. -/
def single (c : Cmd) : Plan where
  count := 1
  cmd _ := c
  fits := by decide
  distinct i hi j hj _ := by omega

variable (c : Cmd)

/-- The body of the drain loop: `*status_out` and `found` are `reaped 0`. -/
def record (t : Test) (comp : Completion) : Test :=
  if comp.cmdId = c.cmdId then
    { t with reaped := Function.update t.reaped 0 (some comp.status) }
  else t

/-- One step of `dma_accel_queue_do_copy`. -/
def testStep (w : World) : Option World :=
  let t := w.test
  match t.pc with
  | .reinit => some { w with bench := w.bench.setIrqDone 0, test := { t with pc := .enqStore } }
  | .enqStore => some { w with bench := w.bench.store c, test := { t with pc := .enqDoorbell } }
  | .enqDoorbell =>
    some { w with bench := w.bench.doorbell, test := { t with pc := .wait, submitted := 1 } }
  | .wait =>
    if w.bench.sys.irqDone = 0 then none
    else some { w with
      bench := w.bench.setIrqDone (w.bench.sys.irqDone - 1), test := { t with pc := .readTail } }
  | .readTail =>
    some { w with test := { t with pc := .drain, deviceCqTail := w.bench.sys.regCqTail } }
  | .drain =>
    if w.bench.sys.cqHead = t.deviceCqTail then
      some { w with test := { t with pc := .writeHead } }
    else some { w with bench := w.bench.next, test := record c t w.bench.comp }
  | .writeHead =>
    some { w with
      bench := w.bench.writeHead
      test := { t with
        pc := .returned, ret := if (t.reaped 0).isSome then none else some .ENOENT } }
  | _ => none

/-- Every step. -/
def step (w : World) : Act → Option World
  | .env a => (envStep w.bench a).map fun b ↦ { w with bench := b }
  | .test => testStep c w
  | .timeOut =>
    if w.test.pc = .wait ∧ w.bench.sys.irqDone = 0 then
      some { w with test := { w.test with pc := .returned, ret := some .ETIMEDOUT } }
    else none
  | .noMem | .expire => none

/-- How many completions have been drained. -/
def drained (t : Test) : Nat := if (t.reaped 0).isSome then 1 else 0

/-- What holds at each point of the test. -/
def AtPc (b : Bench) (t : Test) : Prop :=
  match t.pc with
  | .reinit => t.submitted = 0
  | .enqStore => Covered b b.sys.cqHead ∧ t.submitted = 0
  | .enqDoorbell => Covered b b.sys.cqHead ∧ t.submitted = 0 ∧
      b.sys.sqBuf (slotOf _ b.sys.sqTail) = c
  | .wait => Covered b b.sys.cqHead ∧ t.submitted = 1 ∧ t.reaped 0 = none
  | .readTail => t.submitted = 1
  | .drain => t.submitted = 1 ∧
      span b.sys.cqHead t.deviceCqTail ≤ span b.sys.cqHead b.sys.regCqTail
  | .writeHead => t.submitted = 1
  | .returned => t.submitted = 1 ∧ (t.ret = none → (t.reaped 0).isSome)
  | _ => False

/-- Where the interrupt that woke the test was that of its own command. -/
def Own (b : Bench) (t : Test) : Prop :=
  match t.pc with
  | .reinit => Interrupting b.sys → b.announced ≠ []
  | .enqStore | .enqDoorbell | .wait => Signalled b → b.announced ≠ []
  | .readTail => b.announced ≠ []
  | .drain => (t.reaped 0).isSome ∨ b.sys.cqHead ≠ t.deviceCqTail
  | .writeHead => (t.reaped 0).isSome
  | .returned => t.ret ≠ some .ENOENT
  | _ => False

/-- The test has drained the completion of its command, or none. -/
structure Copying (w : World) : Prop where
  served : Served (single c) w.bench w.test.submitted (drained w.test)
  reaped : ∀ status, w.test.reaped 0 = some status → (0, status) ∈ w.bench.announced
  atPc : AtPc c w.bench w.test

variable {c} {sys : Sys} {w w' : World} {a : Act} {b b' : Bench} {t : Test}

/-- What the test relies on survives what the device and the handler do. -/
theorem AtPc.env (h : AtPc c b t) (hf : EnvFrame b b')
    (hroom : span b.sys.cqHead b.sys.regCqTail ≤ 16) : AtPc c b' t := by
  unfold AtPc at h ⊢
  split at h
  next => exact h
  next => exact ⟨hf.covered_head h.1, h.2⟩
  next =>
    obtain ⟨hcov, hsub, hslot⟩ := h
    refine ⟨hf.covered_head hcov, hsub, ?_⟩
    rw [hf.sqBuf, hf.sqTail]
    exact hslot
  next => exact ⟨hf.covered_head h.1, h.2⟩
  next => exact h
  next => exact ⟨h.1, hf.span_le hroom h.2⟩
  all_goals exact h

/-- An interrupt that comes while the test goes on is that of its command. -/
theorem Own.env {sub d : Nat} (h : Own b t) (hserved : Served (single c) b sub d)
    (hm : EnvMove b b') : Own b' t := by
  have hf := hm.frame
  have hkeep : b.announced ≠ [] → b'.announced ≠ [] := fun hne hnil ↦
    hne (List.prefix_nil.mp (hnil ▸ hf.announced))
  have hsignalled : (Signalled b → b.announced ≠ []) → Signalled b' → b'.announced ≠ [] := by
    intro h hs
    obtain hs | hs := hserved.signalled hm hs
    · exact hkeep (h hs)
    · exact hs
  unfold Own at h ⊢
  split at h
  next =>
    intro hs
    obtain hs | hs := hserved.interrupting hm hs
    · exact hkeep (h hs)
    · exact hs
  next => exact hsignalled h
  next => exact hsignalled h
  next => exact hsignalled h
  next => exact hkeep h
  next =>
    rw [hf.cqHead]
    exact h
  all_goals exact h

namespace Copying

/-- The device and the handler go on. -/
theorem env (h : Copying c w) {b' : Bench} (hm : EnvMove w.bench b') :
    Copying c { w with bench := b' } where
  served := h.served.env hm
  reaped status hs := hm.frame.announced.subset (h.reaped status hs)
  atPc := h.atPc.env hm.frame h.served.span_le

/-- The completion that is drained is that of the command. -/
theorem drain (h : Copying c w) (hpc : w.test.pc = .drain)
    (hne : w.bench.sys.cqHead ≠ w.test.deviceCqTail) :
    ∃ status, record c w.test w.bench.comp =
        { w.test with reaped := Function.update w.test.reaped 0 (some status) } ∧
      Copying c { w with
        bench := w.bench.next, test := record c w.test w.bench.comp } := by
  have hatPc := h.atPc
  simp only [AtPc, hpc] at hatPc
  obtain ⟨hsub, hle⟩ := hatPc
  have hspan := span_pop hne
  have hne' : w.bench.sys.cqHead ≠ w.bench.sys.regCqTail := by
    intro heq
    rw [span_eq_zero_iff.mpr heq] at hle
    omega
  have hspan' := span_pop hne'
  obtain ⟨p, hp, hcomp, hserved⟩ := h.served.next hne'
  have hmem := (announced_within w.bench).subset (List.mem_of_getElem? hp)
  have hknown := h.served.known p hmem
  have hfetched := h.served.fetched_add
  have hlen := (List.getElem?_eq_some_iff.mp hp).1
  have hpre := (announced_within w.bench).length_le
  have hposted := h.served.posted_le
  have hp0 : p = (0, p.2) := Prod.ext (by omega) rfl
  have hd : drained w.test = 0 := by omega
  have hrecord : record c w.test w.bench.comp =
      { w.test with reaped := Function.update w.test.reaped 0 (some p.2) } := by
    rw [record, if_pos (by rw [hcomp]; rfl), hcomp]
    rfl
  refine ⟨p.2, hrecord, ?_⟩
  rw [hrecord]
  rw [hd] at hserved
  refine ⟨?_, ?_, ?_⟩
  · have hone : drained { w.test with
        reaped := Function.update w.test.reaped 0 (some p.2) } = 1 := by
      simp [drained]
    rw [hone]
    exact hserved
  · intro status hstatus
    have heq : p.2 = status := by simpa using hstatus
    rw [← heq, ← hp0]
    exact List.mem_of_getElem? hp
  · simp only [AtPc, hpc]
    refine ⟨hsub, ?_⟩
    show span (w.bench.sys.cqHead + 1) w.test.deviceCqTail ≤
      span (w.bench.sys.cqHead + 1) w.bench.sys.regCqTail
    omega

/-- The test goes on. -/
theorem test (h : Copying c w) (hs : testStep c w = some w') :
    Copying c w' ∧ (Own w.bench w.test → Own w'.bench w'.test) := by
  have hatPc := h.atPc
  cases hpc : w.test.pc with
  | reinit =>
    simp only [testStep, AtPc, hpc, Option.some.injEq] at hs hatPc
    subst hs
    have hserved := h.served
    rw [hatPc] at hserved
    refine ⟨⟨h.served.setIrqDone 0, h.reaped, fun hne ↦ absurd hserved.nothing.2 hne, hatPc⟩, ?_⟩
    intro hown
    simp only [Own, hpc] at hown
    rintro (hdone | hs)
    · exact absurd rfl hdone
    · exact hown hs
  | enqStore =>
    simp only [testStep, AtPc, hpc, Option.some.injEq] at hs hatPc
    subst hs
    obtain ⟨hcov, hsub⟩ := hatPc
    have hlt : w.test.submitted < (single c).count := by
      rw [hsub]
      exact Nat.zero_lt_one
    refine ⟨⟨h.served.store hlt _, h.reaped, hcov, hsub, Function.update_self ..⟩, ?_⟩
    intro hown
    simp only [Own, hpc] at hown
    exact hown
  | enqDoorbell =>
    simp only [testStep, AtPc, hpc, Option.some.injEq] at hs hatPc
    subst hs
    obtain ⟨hcov, hsub, hslot⟩ := hatPc
    have hserved := h.served
    rw [hsub] at hserved
    have hnone : w.test.reaped 0 = none := by
      cases hr : w.test.reaped 0 with
      | none => rfl
      | some status =>
        have hmem := h.reaped status hr
        rw [hserved.nothing.1] at hmem
        cases hmem
    refine ⟨⟨hserved.doorbell Nat.zero_lt_one hslot, h.reaped, hcov, rfl, hnone⟩, ?_⟩
    intro hown
    simp only [Own, hpc] at hown
    exact hown
  | wait =>
    simp only [testStep, AtPc, hpc] at hs hatPc
    split at hs
    next => cases hs
    next hdone =>
      cases hs
      refine ⟨⟨h.served.setIrqDone _, h.reaped, hatPc.2.1⟩, ?_⟩
      intro hown
      simp only [Own, hpc] at hown
      exact hown (.inl hdone)
  | readTail =>
    simp only [testStep, AtPc, hpc, Option.some.injEq] at hs hatPc
    subst hs
    refine ⟨⟨h.served, h.reaped, hatPc, Nat.le_refl _⟩, ?_⟩
    intro hown
    simp only [Own, hpc] at hown
    by_cases heq : w.bench.sys.cqHead = w.bench.sys.regCqTail
    · have hd := h.served.drained heq
      refine .inl (by_contra fun hno ↦ hown ?_)
      rw [drained, if_neg hno] at hd
      exact List.eq_nil_of_length_eq_zero hd.symm
    · exact .inr heq
  | drain =>
    simp only [testStep, hpc] at hs
    split at hs
    next heq =>
      cases hs
      simp only [AtPc, hpc] at hatPc
      refine ⟨⟨h.served, h.reaped, hatPc.1⟩, ?_⟩
      intro hown
      simp only [Own, hpc] at hown
      exact hown.resolve_right (not_not_intro heq)
    next hne =>
      cases hs
      obtain ⟨status, hrecord, hcopying⟩ := h.drain hpc hne
      refine ⟨hcopying, fun _ ↦ ?_⟩
      simp only [hrecord, Own, hpc]
      simp
  | writeHead =>
    simp only [testStep, AtPc, hpc, Option.some.injEq] at hs hatPc
    subst hs
    refine ⟨⟨h.served.writeHead, h.reaped, hatPc, ?_⟩, ?_⟩
    · intro hret
      by_contra hno
      simp [hno] at hret
    · intro hown
      simp only [Own, hpc] at hown
      simp [Own, hown]
  | alloc i => simp [testStep, hpc] at hs
  | loop => simp [testStep, hpc] at hs
  | rearm => simp [testStep, hpc] at hs
  | verify => simp [testStep, hpc] at hs
  | returned => simp [testStep, hpc] at hs

/-- Every step keeps it up, and keeps the interrupt the test's own. -/
theorem step (h : Copying c w) (hs : QueueCopy.step c w a = some w') :
    Copying c w' ∧ (Own w.bench w.test → Own w'.bench w'.test) := by
  cases a with
  | env a =>
    obtain ⟨b', hb, rfl⟩ := Option.map_eq_some_iff.mp hs
    have hm := envMove_of_envStep h.served.inactive h.served.handler hb
    exact ⟨h.env hm, fun hown ↦ hown.env h.served hm⟩
  | test => exact h.test hs
  | timeOut =>
    simp only [QueueCopy.step] at hs
    split at hs
    next hwait =>
      cases hs
      have hatPc := h.atPc
      simp only [AtPc, hwait.1] at hatPc
      refine ⟨⟨h.served, h.reaped, hatPc.2.1, by simp⟩, fun _ ↦ ?_⟩
      simp [Own]
    next => cases hs
  | noMem | expire => cases hs

/-- Every state of every run. -/
theorem reach (hsys : Ready sys)
    (hr : Reach (QueueCopy.step c) anyStep (World.start sys) w) :
    Copying c w ∧ (¬Interrupting sys → Own w.bench w.test) := by
  have hstart : Copying c (World.start sys) :=
    ⟨.start hsys, by simp [World.start, Test.init], rfl⟩
  refine hr.invariant (I := fun w ↦ Copying c w ∧ (¬Interrupting sys → Own w.bench w.test))
    ⟨hstart, fun hno hs ↦ absurd hs hno⟩ ?_
  intro s a s' _ hi _ hs
  obtain ⟨hcopying, hown⟩ := hi.1.step hs
  exact ⟨hcopying, fun hno ↦ hown (hi.2 hno)⟩

end Copying

/-- In every run of the function from empty rings, the status that it reports is the one that the
device posted, and its wait times out only while the device or the handler has something left to
do. If it returns 0 it has the status and leaves the rings as it found them. `-ENOENT` it returns
only if an interrupt was on its way when it was called. -/
theorem queue_do_copy_reports (c : Cmd) {sys : Sys} (hsys : Ready sys) {w : World}
    (h : Reach (step c) anyStep (World.start sys) w) :
    (∀ status, w.test.reaped 0 = some status → (0, status) ∈ w.bench.posted) ∧
    (w.test.pc = .wait → w.bench.sys.irqDone = 0 → ¬AtRest w.bench) ∧
    (w.test.pc = .returned → w.test.ret = none →
      (w.test.reaped 0).isSome ∧ Ready { w.bench.sys with fetched := [] }) ∧
    (w.test.pc = .returned → w.test.ret = some .ENOENT → Interrupting sys) := by
  obtain ⟨hi, hown⟩ := Copying.reach hsys h
  have hatPc := hi.atPc
  refine ⟨?_, ?_, ?_, ?_⟩
  · intro status hs
    exact (announced_within w.bench).subset (hi.reaped status hs)
  · intro hpc hdone hrest
    simp only [AtPc, hpc] at hatPc
    obtain ⟨hcov, hsub, hnone⟩ := hatPc
    have hd := hi.served.drained_of_atRest hrest hcov hdone
    rw [hsub, drained, hnone] at hd
    cases hd
  · intro hpc hret
    simp only [AtPc, hpc] at hatPc
    have hfound := hatPc.2 hret
    have hserved := hi.served
    rw [hatPc.1, drained, if_pos hfound] at hserved
    exact ⟨hfound, hserved.ready⟩
  · intro hpc hret
    by_contra hno
    have hothers := hown hno
    simp only [Own, hpc] at hothers
    exact hothers hret

/-- The copy of M6. -/
def m6 : Cmd := queueSubmit opcodeCopy 0 4096 256 0xFACADE

/-- After `dma_accel_queue_init` the copy is made and reported. -/
theorem queue_do_copy_reports_m6 : ∃ w : World, w.test.ret = none ∧
    w.test.reaped 0 = some statusOk ∧ Ready { w.bench.sys with fetched := [] } := by
  have hrun : (runChecked (step m6) (fun _ _ ↦ true)
      (World.start { Sys.init with uapiActive := false })
      (List.replicate 3 .test ++ [.env .fetch, .env (.post 0 0), .env .postStep, .env .postStep,
        .env .irq, .env .isrStep, .env .isrStep] ++ List.replicate 5 .test)).any
      (fun w ↦ decide (w.test.pc = .returned ∧ w.test.ret = none ∧
        w.test.reaped 0 = some statusOk)) = true := by
    decide +kernel
  obtain ⟨w, hr, hp⟩ := Reach.exists_of_runChecked (fun _ _ _ ↦ trivial) hrun
  obtain ⟨hpc, hret, hstatus⟩ := of_decide_eq_true hp
  obtain ⟨-, -, hend, -⟩ := queue_do_copy_reports m6 ready_init hr
  exact ⟨w, hret, hstatus, (hend hpc hret).2⟩

/-- With the bit of an older interrupt still set it returns `-ENOENT` for a copy that the device
makes and reports all the same. -/
theorem noEntry_of_older_interrupt : ∃ sys, Ready sys ∧ ∃ w : World,
    Reach (step m6) anyStep (World.start sys) w ∧ w.test.pc = .returned ∧
      w.test.ret = some .ENOENT ∧ w.bench.announced = [(0, statusOk)] := by
  have hrun : (runChecked (step m6) (fun _ _ ↦ true)
      (World.start { Sys.init with uapiActive := false, regIrqStatus := irqDmaDone })
      (List.replicate 3 .test ++ [.env .irq, .env .isrStep, .env .isrStep] ++
        List.replicate 4 .test ++ [.env .fetch, .env (.post 0 0), .env .postStep])).any
      (fun w ↦ decide (w.test.pc = .returned ∧ w.test.ret = some .ENOENT ∧
        w.bench.announced = [(0, statusOk)])) = true := by
    decide +kernel
  obtain ⟨w, hr, hp⟩ := Reach.exists_of_runChecked (fun _ _ _ ↦ trivial) hrun
  exact ⟨_, ⟨rfl, rfl, by simp [Sys.init], rfl, rfl, rfl, rfl⟩, w, hr, of_decide_eq_true hp⟩

end QueueCopy

end DmaAccel.Selftest
