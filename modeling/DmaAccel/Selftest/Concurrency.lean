import DmaAccel.Selftest.Bench

/-!
# The concurrency test

Source `track-a/dma_accel_drv.c`, `dma_accel_concurrency_test` (989–1114). The test allocates its
buffers, submits its commands back to back and reaps their completions in waves: it waits for
`irq_done`, reinitialises it, reads `CQ_TAIL` once and drains up to there. The interrupts go on
meanwhile. No completion is missed: the test waits in vain only while the device or the handler
has something left to do. How much time passes is open, and `same` is what `memcmp` finds in the
buffers.
-/

namespace DmaAccel.Selftest

open DmaAccel.Base DmaAccel.Driver

/-- Program counter of a test. `alloc i` allocates the buffers of command `i`, where a test does
that itself. -/
inductive TestPc where
  | alloc (i : Nat)
  | reinit | enqStore | enqDoorbell | loop | wait | rearm | readTail | drain | writeHead | verify
  | returned
  deriving DecidableEq, Repr

/-- Error numbers that a test returns, `EIo` for `EIO`. -/
inductive TestErrno where
  | ETIMEDOUT | EIo | ENOENT | ENOMEM
  deriving DecidableEq, Repr

/-- A test with its locals: `reaped` with `reaped_status`, and `none` in `ret` for 0. -/
structure Test where
  pc : TestPc
  submitted : Nat
  deviceCqTail : U32
  reaped : Nat → Option U32
  reapedCount : Nat
  ret : Option TestErrno

/-- A test that is called. -/
def Test.init : Test := ⟨.reinit, 0, 0, fun _ ↦ none, 0, none⟩

/-- The test, what it tests, and whether its deadline has passed. -/
structure World where
  bench : Bench
  test : Test
  expired : Bool

/-- The test is called between two tests. -/
def World.start (sys : Sys) : World := ⟨⟨sys, []⟩, .init, false⟩

/-- A step of the device or the handler, of the test, of its clock or of the allocator. -/
inductive Act where
  | env (a : EnvAct)
  | test
  | noMem
  | timeOut
  | expire

namespace Concurrency

variable (P : Plan) (same : Nat → Bool)

/-- The body of the drain loop looks a completion up among the ids not reaped yet. -/
def record (t : Test) (comp : Completion) : Test :=
  match (List.range P.count).find? fun j ↦
      (t.reaped j).isNone && comp.cmdId == (P.cmd j).cmdId with
  | some j =>
    { t with
      reaped := Function.update t.reaped j (some comp.status)
      reapedCount := t.reapedCount + 1 }
  | none => t

/-- The test is called between two tests, before it has allocated anything. -/
def start (sys : Sys) : World := { World.start sys with test := { Test.init with pc := .alloc 0 } }

/-- What the test returns once its commands are submitted. -/
def verdict (t : Test) : Option TestErrno :=
  if t.reapedCount ≠ P.count then some .ETIMEDOUT
  else if ∀ j < P.count, t.reaped j = some statusOk ∧ same j = true then none
  else some .EIo

/-- One step of `dma_accel_concurrency_test`. -/
def testStep (w : World) : Option World :=
  let t := w.test
  match t.pc with
  | .alloc i =>
    if i < P.count then some { w with test := { t with pc := .alloc (i + 1) } }
    else some { w with test := { t with pc := .reinit } }
  | .reinit => some { w with bench := w.bench.setIrqDone 0, test := { t with pc := .enqStore } }
  | .enqStore =>
    if t.submitted < P.count then
      some { w with
        bench := w.bench.store (P.cmd t.submitted), test := { t with pc := .enqDoorbell } }
    else some { w with test := { t with pc := .loop } }
  | .enqDoorbell =>
    some { w with
      bench := w.bench.doorbell
      test := { t with pc := .enqStore, submitted := t.submitted + 1 } }
  | .loop =>
    if t.reapedCount < P.count ∧ w.expired = false then
      some { w with test := { t with pc := .wait } }
    else some { w with test := { t with pc := .verify } }
  | .wait =>
    if w.bench.sys.irqDone = 0 then none
    else some { w with
      bench := w.bench.setIrqDone (w.bench.sys.irqDone - 1), test := { t with pc := .rearm } }
  | .rearm => some { w with bench := w.bench.setIrqDone 0, test := { t with pc := .readTail } }
  | .readTail =>
    some { w with test := { t with pc := .drain, deviceCqTail := w.bench.sys.regCqTail } }
  | .drain =>
    if w.bench.sys.cqHead = t.deviceCqTail then
      some { w with test := { t with pc := .writeHead } }
    else some { w with bench := w.bench.next, test := record P t w.bench.comp }
  | .writeHead => some { w with bench := w.bench.writeHead, test := { t with pc := .loop } }
  | .verify => some { w with test := { t with pc := .returned, ret := verdict P same t } }
  | .returned => none

/-- Every step. A wait times out only with `irq_done` at zero, and `dma_alloc_coherent` may fail
for any of the buffers. -/
def step (w : World) : Act → Option World
  | .env a => (envStep w.bench a).map fun b ↦ { w with bench := b }
  | .test => testStep P same w
  | .noMem =>
    match w.test.pc with
    | .alloc i =>
      if i < P.count then
        some { w with test := { w.test with pc := .returned, ret := some .ENOMEM } }
      else none
    | _ => none
  | .timeOut =>
    if w.test.pc = .wait ∧ w.bench.sys.irqDone = 0 then
      some { w with test := { w.test with pc := .verify } }
    else none
  | .expire => some { w with expired := true }

/-- What holds at each point of the test besides what it has reaped. -/
def AtPc (b : Bench) (t : Test) : Prop :=
  match t.pc with
  | .alloc _ | .reinit => t.submitted = 0
  | .enqStore => Covered b b.sys.cqHead
  | .enqDoorbell => Covered b b.sys.cqHead ∧ t.submitted < P.count ∧
      b.sys.sqBuf (slotOf _ b.sys.sqTail) = P.cmd t.submitted
  | .wait => Covered b b.sys.cqHead ∧ t.submitted = P.count ∧ t.reapedCount < P.count
  | .loop | .writeHead => Covered b b.sys.cqHead ∧ t.submitted = P.count
  | .drain => Covered b t.deviceCqTail ∧ t.submitted = P.count ∧
      span b.sys.cqHead t.deviceCqTail ≤ span b.sys.cqHead b.sys.regCqTail
  | .rearm | .readTail | .verify => t.submitted = P.count
  | .returned => (t.submitted = P.count ∧ t.ret = verdict P same t) ∨
      (t.submitted = 0 ∧ t.ret = some .ENOMEM)

/-- A test that has submitted its commands did not run out of memory. -/
theorem verdict_ne_noMem (t : Test) : verdict P same t ≠ some .ENOMEM := by
  unfold verdict
  split
  · nofun
  · split <;> nofun

/-- The test has reaped what was announced first, each completion once. -/
structure Reaping (w : World) : Prop where
  served : Served P w.bench w.test.submitted w.test.reapedCount
  reaped : ∀ j status, w.test.reaped j = some status ↔
    (j, status) ∈ w.bench.announced.take w.test.reapedCount
  atPc : AtPc P same w.bench w.test

variable {P same} {w w' : World} {a : Act} {b b' : Bench} {t : Test}

/-- What the test relies on survives what the device and the handler do. -/
theorem AtPc.env (h : AtPc P same b t) (hf : EnvFrame b b')
    (hroom : span b.sys.cqHead b.sys.regCqTail ≤ 16) : AtPc P same b' t := by
  unfold AtPc at h ⊢
  split at h
  next => exact h
  next => exact h
  next => exact hf.covered_head h
  next =>
    obtain ⟨hc, hlt, hslot⟩ := h
    refine ⟨hf.covered_head hc, hlt, ?_⟩
    rw [hf.sqBuf, hf.sqTail]
    exact hslot
  next => exact ⟨hf.covered_head h.1, h.2⟩
  next => exact ⟨hf.covered_head h.1, h.2⟩
  next => exact ⟨hf.covered_head h.1, h.2⟩
  next =>
    obtain ⟨hc, hsub, hle⟩ := h
    exact ⟨hf.covered _ hc, hsub, hf.span_le hroom hle⟩
  all_goals exact h

/-- A completion is recorded for the command it answers. -/
theorem record_eq {p : Nat × U32} (hlt : p.1 < P.count) (hnew : t.reaped p.1 = none) :
    record P t (P.completion p) = { t with
      reaped := Function.update t.reaped p.1 (some p.2), reapedCount := t.reapedCount + 1 } := by
  have hfind : (List.range P.count).find? (fun j ↦
      (t.reaped j).isNone && (P.completion p).cmdId == (P.cmd j).cmdId) = some p.1 := by
    cases hj : (List.range P.count).find? (fun j ↦
        (t.reaped j).isNone && (P.completion p).cmdId == (P.cmd j).cmdId) with
    | none =>
      have hno := List.find?_eq_none.mp hj p.1 (List.mem_range.mpr hlt)
      simp [hnew, Plan.completion] at hno
    | some j =>
      have hmem := List.mem_range.mp (List.mem_of_find?_eq_some hj)
      have hpred := List.find?_some hj
      simp only [Plan.completion, Bool.and_eq_true, beq_iff_eq] at hpred
      rw [P.distinct p.1 hlt j hmem hpred.2]
  unfold record
  rw [hfind]
  rfl

namespace Reaping

/-- The device and the handler go on. -/
theorem env (h : Reaping P same w) {b' : Bench} (hm : EnvMove w.bench b') :
    Reaping P same { w with bench := b' } := by
  have hf := hm.frame
  refine ⟨h.served.env hm, ?_, h.atPc.env hf h.served.span_le⟩
  intro j status
  obtain ⟨rest, hrest⟩ := hf.announced
  show _ ↔ _ ∈ b'.announced.take _
  rw [← hrest, List.take_append_of_le_length h.served.d_le]
  exact h.reaped j status

/-- The next completion is reaped. -/
theorem drain (h : Reaping P same w) (hne : w.bench.sys.cqHead ≠ w.bench.sys.regCqTail)
    (hpc : ∀ reaped n,
      AtPc P same w.bench.next { w.test with reaped := reaped, reapedCount := n }) :
    Reaping P same { w with bench := w.bench.next, test := record P w.test w.bench.comp } := by
  obtain ⟨p, hp, hcomp, hserved⟩ := h.served.next hne
  have honce : (w.bench.announced.map Prod.fst).Nodup :=
    h.served.once.sublist ((announced_within w.bench).sublist.map _)
  have hlt : p.1 < P.count := by
    have hmem := (announced_within w.bench).subset (List.mem_of_getElem? hp)
    have := h.served.known p hmem
    have := h.served.fetched_add
    have := h.served.sub_le
    omega
  have htake : w.bench.announced.take (w.test.reapedCount + 1) =
      w.bench.announced.take w.test.reapedCount ++ [p] := by
    rw [List.take_add_one, hp]
    rfl
  -- No earlier completion answers the same command.
  have hfresh : ∀ status, (p.1, status) ∉ w.bench.announced.take w.test.reapedCount := by
    intro status hmem
    have hnodup := honce.sublist ((List.take_sublist (w.test.reapedCount + 1) _).map Prod.fst)
    rw [htake, List.map_append, List.nodup_append] at hnodup
    exact hnodup.2.2 p.1 (List.mem_map.mpr ⟨_, hmem, rfl⟩) p.1 (by simp) rfl
  have hnew : w.test.reaped p.1 = none := by
    cases hr : w.test.reaped p.1 with
    | none => rfl
    | some status => exact absurd ((h.reaped _ _).mp hr) (hfresh status)
  rw [hcomp, record_eq hlt hnew]
  refine ⟨hserved, ?_, hpc _ _⟩
  intro j status
  show Function.update w.test.reaped p.1 (some p.2) j = some status ↔
    (j, status) ∈ w.bench.announced.take (w.test.reapedCount + 1)
  rw [htake, List.mem_append, List.mem_singleton]
  by_cases hj : j = p.1
  · subst hj
    rw [Function.update_self, Option.some.injEq]
    constructor
    · rintro rfl
      exact .inr rfl
    · rintro (hold | hlast)
      · exact absurd hold (hfresh status)
      · exact (congrArg Prod.snd hlast).symm
  · rw [Function.update_of_ne hj, h.reaped]
    constructor
    · exact .inl
    · rintro (hold | hlast)
      · exact hold
      · exact absurd (congrArg Prod.fst hlast) hj

/-- The test goes on. -/
theorem test (h : Reaping P same w) (hs : testStep P same w = some w') : Reaping P same w' := by
  have hatPc := h.atPc
  cases hpc : w.test.pc with
  | alloc i =>
    simp only [testStep, AtPc, hpc] at hs hatPc
    split at hs
    next =>
      cases hs
      exact ⟨h.served, h.reaped, hatPc⟩
    next =>
      cases hs
      exact ⟨h.served, h.reaped, hatPc⟩
  | reinit =>
    simp only [testStep, AtPc, hpc, Option.some.injEq] at hs hatPc
    subst hs
    have hserved := h.served
    rw [hatPc] at hserved
    exact ⟨h.served.setIrqDone 0, h.reaped, fun hne ↦ absurd hserved.nothing.2 hne⟩
  | enqStore =>
    simp only [testStep, AtPc, hpc] at hs hatPc
    split at hs
    next hlt =>
      cases hs
      refine ⟨h.served.store hlt _, h.reaped, hatPc, hlt, ?_⟩
      exact Function.update_self ..
    next hge =>
      cases hs
      have hle := h.served.sub_le
      have heq : w.test.submitted = P.count := by omega
      exact ⟨h.served, h.reaped, hatPc, heq⟩
  | enqDoorbell =>
    simp only [testStep, AtPc, hpc, Option.some.injEq] at hs hatPc
    subst hs
    obtain ⟨hcov, hlt, hslot⟩ := hatPc
    exact ⟨h.served.doorbell hlt hslot, h.reaped, hcov⟩
  | loop =>
    simp only [testStep, AtPc, hpc] at hs hatPc
    split at hs
    next hgo =>
      cases hs
      exact ⟨h.served, h.reaped, hatPc.1, hatPc.2, hgo.1⟩
    next =>
      cases hs
      exact ⟨h.served, h.reaped, hatPc.2⟩
  | wait =>
    simp only [testStep, AtPc, hpc] at hs hatPc
    split at hs
    next => cases hs
    next =>
      cases hs
      exact ⟨h.served.setIrqDone _, h.reaped, hatPc.2.1⟩
  | rearm =>
    simp only [testStep, AtPc, hpc, Option.some.injEq] at hs hatPc
    subst hs
    exact ⟨h.served.setIrqDone 0, h.reaped, hatPc⟩
  | readTail =>
    simp only [testStep, AtPc, hpc, Option.some.injEq] at hs hatPc
    subst hs
    exact ⟨h.served, h.reaped, fun hne ↦ absurd rfl hne, hatPc, Nat.le_refl _⟩
  | drain =>
    simp only [testStep, AtPc, hpc] at hs hatPc
    obtain ⟨hcov, hsub, hle⟩ := hatPc
    split at hs
    next heq =>
      cases hs
      refine ⟨h.served, h.reaped, ?_, hsub⟩
      rw [heq]
      exact hcov
    next hne =>
      cases hs
      have hspan := span_pop hne
      have hne' : w.bench.sys.cqHead ≠ w.bench.sys.regCqTail := by
        intro heq
        rw [span_eq_zero_iff.mpr heq] at hle
        omega
      have hspan' := span_pop hne'
      refine h.drain hne' fun reaped n ↦ ?_
      simp only [AtPc, hpc]
      refine ⟨hcov, hsub, ?_⟩
      show span (w.bench.sys.cqHead + 1) w.test.deviceCqTail ≤
        span (w.bench.sys.cqHead + 1) w.bench.sys.regCqTail
      omega
  | writeHead =>
    simp only [testStep, AtPc, hpc, Option.some.injEq] at hs hatPc
    subst hs
    exact ⟨h.served.writeHead, h.reaped, hatPc⟩
  | verify =>
    simp only [testStep, AtPc, hpc, Option.some.injEq] at hs hatPc
    subst hs
    exact ⟨h.served, h.reaped, .inl ⟨hatPc, rfl⟩⟩
  | returned => simp [testStep, hpc] at hs

/-- Every step keeps it up. -/
theorem step (h : Reaping P same w) (hs : Concurrency.step P same w a = some w') :
    Reaping P same w' := by
  cases a with
  | env a =>
    obtain ⟨b', hb, rfl⟩ := Option.map_eq_some_iff.mp hs
    exact h.env (envMove_of_envStep h.served.inactive h.served.handler hb)
  | test => exact h.test hs
  | noMem =>
    have hatPc := h.atPc
    simp only [Concurrency.step] at hs
    split at hs
    next i hpc =>
      split at hs
      next =>
        cases hs
        simp only [AtPc, hpc] at hatPc
        exact ⟨h.served, h.reaped, .inr ⟨hatPc, rfl⟩⟩
      next => cases hs
    next => cases hs
  | timeOut =>
    simp only [Concurrency.step] at hs
    split at hs
    next hwait =>
      cases hs
      have hatPc := h.atPc
      simp only [AtPc, hwait.1] at hatPc
      exact ⟨h.served, h.reaped, hatPc.2.1⟩
    next => cases hs
  | expire =>
    cases hs
    exact ⟨h.served, h.reaped, h.atPc⟩

/-- Every state of every run is one of a reaping test. -/
theorem reach {sys : Sys} (hsys : Ready sys)
    (hr : Reach (Concurrency.step P same) anyStep (start sys) w) : Reaping P same w := by
  have hstart : Reaping P same (start sys) := by
    refine ⟨.start hsys, fun j status ↦ ?_, rfl⟩
    simp [Concurrency.start, Test.init]
  exact hr.invariant hstart fun s a s' _ hi _ hs ↦ hi.step hs

/-- The test counts the commands it has reaped. -/
theorem count (h : Reaping P same w) :
    ((List.range P.count).filter fun j ↦ (w.test.reaped j).isSome).length =
      w.test.reapedCount := by
  have honce : ((w.bench.announced.take w.test.reapedCount).map Prod.fst).Nodup :=
    h.served.once.sublist
      (((List.take_sublist _ _).trans (announced_within w.bench).sublist).map _)
  have hperm : ((List.range P.count).filter fun j ↦ (w.test.reaped j).isSome).Perm
      ((w.bench.announced.take w.test.reapedCount).map Prod.fst) := by
    rw [List.perm_ext_iff_of_nodup (List.nodup_range.filter _) honce]
    intro j
    rw [List.mem_filter, List.mem_range, Option.isSome_iff_exists]
    constructor
    · rintro ⟨-, status, hstatus⟩
      exact List.mem_map.mpr ⟨_, (h.reaped _ _).mp hstatus, rfl⟩
    · intro hj
      obtain ⟨p, hp, rfl⟩ := List.mem_map.mp hj
      have hmem := (announced_within w.bench).subset (List.mem_of_mem_take hp)
      have hlt := h.served.known p hmem
      have hfetched := h.served.fetched_add
      have hsub := h.served.sub_le
      exact ⟨by omega, p.2, (h.reaped _ _).mpr hp⟩
  have hlen := hperm.length_eq
  rw [List.length_map, List.length_take, Nat.min_eq_left h.served.d_le] at hlen
  exact hlen

end Reaping

/-- In every run of the test, from rings that are empty but with any interrupt still pending, a
command is recorded as reaped only with the status that the device posted for it, and the commands
so recorded are as many as the test counts. A wait times out only while the device or the handler
has something left to do. A test that returns `-ENOMEM` has submitted nothing and left the rings
alone. One that returns anything else but `-ETIMEDOUT` has reaped every command and leaves the
rings as it found them, with nothing in the completion queue that the driver would find after
`uapi_active` is set, and it returns 0 exactly if the device has reported every command without an
error and copied its data. -/
theorem concurrency_test_reaps (P : Plan) (same : Nat → Bool) {sys : Sys} (hsys : Ready sys)
    {w : World} (h : Reach (step P same) anyStep (start sys) w) :
    (∀ j status, w.test.reaped j = some status → (j, status) ∈ w.bench.posted) ∧
    ((List.range P.count).filter fun j ↦ (w.test.reaped j).isSome).length = w.test.reapedCount ∧
    (w.test.pc = .wait → w.bench.sys.irqDone = 0 → ¬AtRest w.bench) ∧
    (w.test.pc = .returned → w.test.ret = some .ENOMEM →
      w.test.submitted = 0 ∧ Ready w.bench.sys) ∧
    (w.test.pc = .returned → w.test.ret ≠ some .ENOMEM → w.test.ret ≠ some .ETIMEDOUT →
      (∀ j < P.count, (w.test.reaped j).isSome) ∧ Ready { w.bench.sys with fetched := [] } ∧
      CqEmpty { w.bench.sys with fetched := [], uapiActive := true } ∧
      (w.test.ret = none ↔
        ∀ j < P.count, (j, statusOk) ∈ w.bench.posted ∧ same j = true)) := by
  have hi := Reaping.reach hsys h
  have hatPc := hi.atPc
  have hposted : ∀ j status, w.test.reaped j = some status → (j, status) ∈ w.bench.posted :=
    fun j status hj ↦
      (announced_within w.bench).subset (List.mem_of_mem_take ((hi.reaped j status).mp hj))
  refine ⟨hposted, hi.count, ?_, ?_, ?_⟩
  · intro hpc hdone hrest
    simp only [AtPc, hpc] at hatPc
    obtain ⟨hcov, hsub, hlt⟩ := hatPc
    have hd := hi.served.drained_of_atRest hrest hcov hdone
    omega
  · intro hpc hret
    simp only [AtPc, hpc] at hatPc
    rcases hatPc with ⟨-, hverdict⟩ | ⟨hsub, -⟩
    · exact absurd (hverdict.symm.trans hret) (verdict_ne_noMem P same _)
    · have hserved := hi.served
      rw [hsub] at hserved
      exact ⟨hsub, hserved.untouched⟩
  · intro hpc hmem hret
    simp only [AtPc, hpc] at hatPc
    obtain ⟨hsub, hverdict⟩ := hatPc.resolve_right fun h ↦ hmem h.2
    have hcount : w.test.reapedCount = P.count := by
      by_contra hne
      rw [verdict, if_pos hne] at hverdict
      exact hret hverdict
    have hserved := hi.served
    rw [hsub, hcount] at hserved
    have hall : ∀ j < P.count, (w.test.reaped j).isSome := by
      have hlen := hi.count
      rw [hcount] at hlen
      have hfilter := List.length_filter_eq_length_iff.mp (hlen.trans List.length_range.symm)
      exact fun j hj ↦ hfilter j (List.mem_range.mpr hj)
    refine ⟨hall, hserved.ready, hserved.ready.handOver, ?_⟩
    -- The status that is recorded is the only one that is posted.
    have hok : ∀ j < P.count, w.test.reaped j = some statusOk ↔
        (j, statusOk) ∈ w.bench.posted := by
      intro j hj
      refine ⟨hposted j statusOk, fun hmem ↦ ?_⟩
      obtain ⟨status, hstatus⟩ := Option.isSome_iff_exists.mp (hall j hj)
      have heq : (j, status) = (j, statusOk) :=
        List.inj_on_of_nodup_map hserved.once (hposted j status hstatus) hmem rfl
      have hsame : status = statusOk := congrArg Prod.snd heq
      rw [hstatus, hsame]
    rw [hverdict, verdict, if_neg (not_not_intro hcount)]
    constructor
    · intro hnone j hj
      split at hnone
      next hgood => exact ⟨(hok j hj).mp (hgood j hj).1, (hgood j hj).2⟩
      next => cases hnone
    · intro hgood
      rw [if_pos]
      exact fun j hj ↦ ⟨(hok j hj).mpr (hgood j hj).1, (hgood j hj).2⟩

/-- `M7_TEST_COUNT` copies of `M7_TEST_LEN` bytes. -/
def m7 (src dst : Nat → Nat) : Plan where
  count := 6
  cmd i := queueSubmit opcodeCopy (src i) (dst i) 128 (0x7000 + i)
  fits := by decide
  distinct i _ j _ h := by
    simp only [queueSubmit] at h
    omega

/-- What the device does for one command, and the interrupt that follows. -/
private def answer (j : Nat) : List Act := [.env (.post j 0), .env .postStep, .env .postStep]

private def interrupt : List Act := [.env .irq, .env .isrStep, .env .isrStep]

/-- An old interrupt makes for a wave without completions; then come two of three each. -/
theorem concurrency_test_reaps_m7 : ∃ w : World, w.test.ret = none ∧
    (∀ j < 6, (j, statusOk) ∈ w.bench.posted) ∧ Ready { w.bench.sys with fetched := [] } := by
  have hrun : (runChecked (step (m7 id (· + 64)) fun _ ↦ true) (fun _ _ ↦ true)
      (start { Sys.init with uapiActive := false, irqDone := 3, regIrqStatus := irqDmaDone })
      (List.replicate 22 .test ++ interrupt ++ List.replicate 6 .test ++
        List.replicate 6 (.env .fetch) ++ answer 2 ++ answer 0 ++ answer 1 ++ interrupt ++
        List.replicate 3 .test ++ answer 5 ++ List.replicate 6 .test ++ answer 3 ++ answer 4 ++
        interrupt ++ List.replicate 10 .test)).any
      (fun w ↦ decide (w.test.pc = .returned ∧ w.test.ret = none)) = true := by
    decide +kernel
  obtain ⟨w, hr, hp⟩ := Reach.exists_of_runChecked (fun _ _ _ ↦ trivial) hrun
  obtain ⟨hpc, hret⟩ := of_decide_eq_true hp
  have hsys : Ready { Sys.init with
      uapiActive := false, irqDone := 3, regIrqStatus := irqDmaDone } :=
    ⟨rfl, rfl, by simp [Sys.init], rfl, rfl, rfl, rfl⟩
  obtain ⟨-, -, -, -, hend⟩ := concurrency_test_reaps (m7 id (· + 64)) (fun _ ↦ true) hsys hr
  obtain ⟨-, hready, -, hok⟩ := hend hpc (by rw [hret]; decide) (by rw [hret]; decide)
  exact ⟨w, hret, fun j hj ↦ (hok.mp hret j hj).1, hready⟩

end Concurrency

end DmaAccel.Selftest
