import DmaAccel.Admission.Wakeup
import DmaAccel.Queue.Delivery

/-!
# The driver comes to rest

Source `track-a/dma_accel_drv.c`: the admission loop of `dma_accel_ioc_submit` (1647–1691) and
the drain loop of `dma_accel_irq_handler` (315–406). A submitter may have to wait for the
handler, and the handler for the device, but never in a circle: from every state that one
submitting thread can reach, the calls in progress, the device and the handler can go on, with
no new call, no signal and no fault, until every SUBMIT has returned and nothing is in flight.
-/

namespace DmaAccel.Driver

open DmaAccel.Base

/-- Steps that take up no new work: of the calls in progress, of the sessions being closed, of
the device and of the handler. -/
def Act.goesOn : Act → Bool
  | .submitStep _ | .releaseStep _ | .irq | .isrStep | .fetch | .post _ _ | .postStep => true
  | _ => false

/-- Steps that a call of SUBMIT has still to take if nothing holds it back. -/
def SubmitPc.left : SubmitPc → Nat
  | .copyIn => 16
  | .check => 15
  | .newId => 14
  | .asleep => 13
  | .waitTest => 12
  | .readActive => 11
  | .admission => 10
  | .incInflight => 9
  | .incTotal => 8
  | .enqIdx => 7
  | .enqStore => 6
  | .enqReadTail => 5
  | .enqWriteTail => 4
  | .enqLoadTail => 3
  | .enqDoorbell => 2
  | .copyOut => 1
  | .refused | .returned => 0

/-- Steps of all calls of SUBMIT. -/
def callsLeft (st : Sys) : Nat := ∑ k ∈ Finset.range st.nsubmits, (st.submits k).pc.left

/-- Descriptors that the device has fetched and not reported. -/
def unreported (x : Sys × List RingEvent) : Nat :=
  ((Finset.range x.1.fetched.length).filter (· ∉ x.2.filterMap RingEvent.answers)).card

/-- Steps of the device for the completion that it has written. -/
def Post.left : Post → Nat
  | .idle => 0
  | .raise _ => 1
  | .advance _ => 2

/-- Interrupts that are due, a pending acknowledgement of all bits being half of one. -/
def irqLeft (st : Sys) : Nat :=
  if st.regIrqStatus = 0 then 0
  else if st.isr.pc = .ack ∧ st.isr.irqStatus = st.regIrqStatus then 1
  else 2

/-- Steps of the handler until it returns. -/
def isrLeft (st : Sys) : Nat :=
  match st.isr.pc with
  | .idle => 0
  | .ack => 10 * span st.cqHead st.regCqTail + 4
  | .readTail => 10 * span st.cqHead st.regCqTail + 3
  | .drain => 10 * span (cqRead st) st.isr.deviceCqTail + 2
  | .lookup => 10 * span (cqRead st) st.isr.deviceCqTail + 9
  | .push => 10 * span (cqRead st) st.isr.deviceCqTail + 8
  | .decInflight => 10 * span (cqRead st) st.isr.deviceCqTail + 7
  | .decTotal => 10 * span (cqRead st) st.isr.deviceCqTail + 6
  | .wakeQuota => 10 * span (cqRead st) st.isr.deviceCqTail + 5
  | .wakeComp => 10 * span (cqRead st) st.isr.deviceCqTail + 4
  | .next => 10 * span (cqRead st) st.isr.deviceCqTail + 3
  | .writeHead => 1

/-- What is left to do, weighted so that nobody makes more work for the others than it gets
done itself. -/
def work (x : Sys × List RingEvent) : Nat :=
  2 ^ 80 * callsLeft x.1 + 2 ^ 45 * span x.1.regSqHead x.1.regSqTail + 2 ^ 44 * unreported x +
    2 ^ 42 * x.1.post.left + 2 ^ 40 * irqLeft x.1 + isrLeft x.1

variable {st st' : Sys} {a : Act} {log : List RingEvent} {x x' : Sys × List RingEvent}

section Bounds

private theorem isrLeft_lt (st : Sys) : isrLeft st < 2 ^ 40 := by
  have hlt (a b : U32) : span a b < 2 ^ 32 := (b - a).isLt
  have h1 := hlt st.cqHead st.regCqTail
  have h2 := hlt (cqRead st) st.isr.deviceCqTail
  unfold isrLeft
  cases st.isr.pc <;> simp only <;> omega

private theorem irqLeft_le (st : Sys) : irqLeft st ≤ 2 := by
  unfold irqLeft
  split
  · omega
  · split <;> omega

end Bounds

/-- A step of a call pays for whatever it makes the device do. -/
private theorem work_lt_of_calls (hc : callsLeft x'.1 < callsLeft x.1)
    (hu : unreported x' = unreported x) (hp : x'.1.post = x.1.post) : work x' < work x := by
  have h1 := isrLeft_lt x'.1
  have h2 := irqLeft_le x'.1
  have h3 : span x'.1.regSqHead x'.1.regSqTail < 2 ^ 32 := (x'.1.regSqTail - x'.1.regSqHead).isLt
  unfold work
  rw [hu, hp]
  omega

/-- The handler works off what is due. -/
private theorem work_lt_of_isr (hc : callsLeft x'.1 ≤ callsLeft x.1)
    (hs : span x'.1.regSqHead x'.1.regSqTail = span x.1.regSqHead x.1.regSqTail)
    (hu : unreported x' = unreported x) (hp : x'.1.post = x.1.post)
    (hi : 2 ^ 40 * irqLeft x'.1 + isrLeft x'.1 < 2 ^ 40 * irqLeft x.1 + isrLeft x.1) :
    work x' < work x := by
  unfold work
  rw [hs, hu, hp]
  omega

/-- The device works off what it has been handed. -/
private theorem work_lt_of_device (hc : callsLeft x'.1 = callsLeft x.1)
    (hd : 8 * span x'.1.regSqHead x'.1.regSqTail + 4 * unreported x' + x'.1.post.left <
      8 * span x.1.regSqHead x.1.regSqTail + 4 * unreported x + x.1.post.left) :
    work x' < work x := by
  have h1 := isrLeft_lt x'.1
  have h2 := irqLeft_le x'.1
  unfold work
  rw [hc]
  omega

/-- Where one call moves on, fewer steps are left. -/
private theorem callsLeft_update {k : Nat} {c : Submit} (hk : k < st.nsubmits)
    (hs : st'.submits = Function.update st.submits k c) (hn : st'.nsubmits = st.nsubmits)
    (hc : c.pc.left < (st.submits k).pc.left) : callsLeft st' < callsLeft st := by
  unfold callsLeft
  rw [hn, hs]
  refine Finset.sum_lt_sum ?_ ⟨k, Finset.mem_range.mpr hk, ?_⟩
  · intro l _
    by_cases hl : l = k
    · subst hl
      rw [Function.update_self]
      exact Nat.le_of_lt hc
    · rw [Function.update_of_ne hl]
  · rw [Function.update_self]
    exact hc

/-- Waking the sleepers leaves no more steps. -/
private theorem left_wake (c : Submit) : c.wake.pc.left ≤ c.pc.left := by
  unfold Submit.wake
  split
  · next hp =>
    rw [hp]
    exact show SubmitPc.waitTest.left ≤ SubmitPc.asleep.left by decide
  · exact Nat.le_refl _

/-- A step that neither fetches nor reports. -/
private theorem unreported_same {es : List RingEvent} (hf : st'.fetched = st.fetched)
    (he : es.filterMap RingEvent.answers = []) :
    unreported (st', log ++ es) = unreported (st, log) := by
  unfold unreported
  rw [hf, List.filterMap_append, he, List.append_nil]

/-- Only the device reports. -/
private theorem answers_ringEvents (h : ∀ j status, a ≠ .post j status) :
    (ringEvents st a).filterMap RingEvent.answers = [] := by
  cases a with
  | post j status => exact (h j status rfl).elim
  | submitStep k =>
    simp only [ringEvents]
    split <;> rfl
  | isrStep =>
    simp only [ringEvents]
    split <;> rfl
  | _ => rfl

/-- A handler that has been entered can go on. -/
private theorem isrStep_isSome (hp : st.isr.pc ≠ .idle) : ∃ st', isrStep st = some st' := by
  unfold isrStep
  dsimp only
  split
  · next he => exact (hp he).elim
  all_goals repeat' split
  all_goals exact ⟨_, rfl⟩

/-- It leaves the device alone, and wakes submitters at most. -/
private theorem isrStep_others (h : isrStep st = some st') :
    callsLeft st' ≤ callsLeft st ∧ st'.regSqHead = st.regSqHead ∧ st'.regSqTail = st.regSqTail ∧
      st'.fetched = st.fetched ∧ st'.post = st.post := by
  unfold isrStep at h
  dsimp only at h
  repeat' split at h
  all_goals cases h
  all_goals refine ⟨?_, rfl, rfl, rfl, rfl⟩
  all_goals first
    | exact Nat.le_refl _
    | exact Finset.sum_le_sum fun k _ ↦ left_wake (st.submits k)

private theorem irqLeft_eq_two (h0 : st.regIrqStatus ≠ 0)
    (h : ¬(st.isr.pc = .ack ∧ st.isr.irqStatus = st.regIrqStatus)) : irqLeft st = 2 := by
  unfold irqLeft
  rw [if_neg h0, if_neg h]

/-- The acknowledgement clears the bits that were read on entry. -/
private theorem irqLeft_ack (st : Sys) :
    irqLeft { st with
      regIrqStatus := st.regIrqStatus &&& ~~~st.isr.irqStatus
      isr := { st.isr with pc := .readTail } } ≤ irqLeft st := by
  by_cases h0 : st.regIrqStatus = 0
  · simp [irqLeft, h0]
  by_cases he : st.isr.irqStatus = st.regIrqStatus
  · simp [irqLeft, he]
  · rw [irqLeft_eq_two h0 fun h ↦ he h.2]
    exact irqLeft_le _

/-- It gets closer to its return with every step. -/
private theorem isrStep_left (hu : st.uapiActive = true) (h : isrStep st = some st') :
    2 ^ 40 * irqLeft st' + isrLeft st' < 2 ^ 40 * irqLeft st + isrLeft st := by
  -- outside the acknowledgement only the place in the loop counts
  have hloop (hirq : st'.regIrqStatus = st.regIrqStatus) (hack : st.isr.pc ≠ .ack)
      (hack' : st'.isr.pc ≠ .ack) (hi : isrLeft st' < isrLeft st) :
      2 ^ 40 * irqLeft st' + isrLeft st' < 2 ^ 40 * irqLeft st + isrLeft st := by
    have hsame : irqLeft st' = irqLeft st := by
      unfold irqLeft
      rw [hirq, if_neg fun he : _ ∧ _ ↦ hack he.1, if_neg fun he : _ ∧ _ ↦ hack' he.1]
    omega
  cases hp : st.isr.pc with
  | idle =>
    simp only [isrStep, hp] at h
    cases h
  | ack =>
    simp only [isrStep, hp, Option.some.injEq] at h
    subst h
    refine Nat.add_lt_add_of_le_of_lt (Nat.mul_le_mul_left _ (irqLeft_ack st)) ?_
    simp [isrLeft, hp]
  | readTail =>
    simp only [isrStep, hp, hu, if_true, Option.some.injEq] at h
    subst h
    refine hloop rfl (by simp [hp]) (by simp) ?_
    simp [isrLeft, hp, cqRead, IsrPc.holding]
  | drain =>
    simp only [isrStep, hp] at h
    split at h
    · cases h
      refine hloop rfl (by simp [hp]) (by simp) ?_
      simp [isrLeft, hp]
    · next hne =>
      cases h
      refine hloop rfl (by simp [hp]) (by simp) ?_
      have hpop := span_pop hne
      simp only [isrLeft, hp, cqRead, IsrPc.holding, if_true, Bool.false_eq_true, if_false]
      omega
  | lookup =>
    simp only [isrStep, hp] at h
    split at h
    all_goals cases h
    all_goals refine hloop rfl (by simp [hp]) (by simp) ?_
    all_goals simp [isrLeft, hp, cqRead, IsrPc.holding]
  | push | decInflight | decTotal | wakeQuota | wakeComp | next | writeHead =>
    simp only [isrStep, hp, Option.some.injEq] at h
    subst h
    refine hloop rfl (by simp [hp]) (by simp) ?_
    simp [isrLeft, hp, cqRead, IsrPc.holding]

/-- The handler takes its next step. -/
private theorem isr_goesOn (hu : st.uapiActive = true) (hp : st.isr.pc ≠ .idle) :
    ∃ st', step st .isrStep = some st' ∧
      work (st', log ++ ringEvents st .isrStep) < work (st, log) := by
  obtain ⟨st', h⟩ := isrStep_isSome hp
  obtain ⟨hc, hhead, htail, hf, hpost⟩ := isrStep_others h
  refine ⟨st', h, work_lt_of_isr hc ?_ ?_ hpost (isrStep_left hu h)⟩
  · rw [hhead, htail]
  · exact unreported_same hf (answers_ringEvents (by simp))

/-- An interrupt that is due is delivered. -/
private theorem irq_goesOn (hp : st.isr.pc = .idle) (hq : st.regIrqStatus ≠ 0) :
    ∃ st', step st .irq = some st' ∧
      work (st', log ++ ringEvents st .irq) < work (st, log) := by
  obtain ⟨st', hs⟩ : ∃ st',
      { st with isr := { st.isr with pc := .ack, irqStatus := st.regIrqStatus } } = st' :=
    ⟨_, rfl⟩
  have h : irqEnter st = some st' := by
    rw [irqEnter, if_pos hp, if_neg hq, hs]
  have hleft : 2 ^ 40 * irqLeft st' + isrLeft st' < 2 ^ 40 * irqLeft st + isrLeft st := by
    have hnew : irqLeft st' = 1 := by
      subst hs
      unfold irqLeft
      rw [if_neg hq, if_pos ⟨rfl, rfl⟩]
    have hold := irqLeft_eq_two hq fun he ↦ by simp [hp] at he
    have hlt := isrLeft_lt st'
    omega
  subst hs
  exact ⟨_, h, work_lt_of_isr (Nat.le_refl _) rfl (unreported_same rfl rfl) rfl hleft⟩

/-- A step of the device for its completion leaves the submission ring alone. -/
private theorem devPostStep_others (h : devPostStep st = some st') :
    callsLeft st' = callsLeft st ∧ st'.regSqHead = st.regSqHead ∧ st'.regSqTail = st.regSqTail ∧
      st'.fetched = st.fetched ∧ st'.post.left < st.post.left := by
  unfold devPostStep at h
  split at h
  · cases h
  · next hp =>
    cases h
    refine ⟨rfl, rfl, rfl, rfl, ?_⟩
    simp [hp, Post.left]
  · next hp =>
    cases h
    refine ⟨rfl, rfl, rfl, rfl, ?_⟩
    simp [hp, Post.left]

/-- The device goes on with the completion that it has written. -/
private theorem post_goesOn (hp : st.post ≠ .idle) :
    ∃ st', step st .postStep = some st' ∧
      work (st', log ++ ringEvents st .postStep) < work (st, log) := by
  obtain ⟨st', h⟩ : ∃ st', devPostStep st = some st' := by
    unfold devPostStep
    split
    · next he => exact (hp he).elim
    · exact ⟨_, rfl⟩
    · exact ⟨_, rfl⟩
  obtain ⟨hc, hhead, htail, hf, hlt⟩ := devPostStep_others h
  refine ⟨st', h, work_lt_of_device hc ?_⟩
  have hu : unreported (st', log ++ []) = unreported (st, log) := unreported_same hf rfl
  change 8 * span st'.regSqHead st'.regSqTail + 4 * unreported (st', log ++ []) + _ < _
  rw [hhead, htail, hu]
  exact Nat.add_lt_add_left hlt _

/-- The device fetches the next descriptor. -/
private theorem fetch_goesOn (hne : st.regSqHead ≠ st.regSqTail) :
    ∃ st', step st .fetch = some st' ∧
      work (st', log ++ ringEvents st .fetch) < work (st, log) := by
  refine ⟨_, if_neg hne, work_lt_of_device rfl ?_⟩
  have hpop := span_pop hne
  have hu : unreported ({ st with
      fetched := st.fetched ++ [st.sqBuf (slotOf _ st.regSqHead)]
      regSqHead := st.regSqHead + 1 }, log ++ ringEvents st .fetch) ≤
        unreported (st, log) + 1 := by
    unfold unreported
    dsimp only
    rw [List.filterMap_append, answers_ringEvents (by simp), List.append_nil, List.length_append,
      List.length_singleton, Finset.range_add_one, Finset.filter_insert]
    split
    · exact Finset.card_insert_le _ _
    · exact Nat.le_succ _
  dsimp only at hu ⊢
  omega

/-- The device reports a descriptor that it has fetched. -/
private theorem report_goesOn (hp : st.post = .idle) {j : Nat} (hj : j < st.fetched.length)
    (hnew : j ∉ log.filterMap RingEvent.answers) :
    ∃ st', step st (.post j statusOk) = some st' ∧
      work (st', log ++ ringEvents st (.post j statusOk)) < work (st, log) := by
  have hd := List.getElem?_eq_getElem hj
  have hs : devPost st j statusOk = some { st with
      cqBuf := Function.update st.cqBuf (slotOf _ st.regCqTail) ⟨st.fetched[j].cmdId, statusOk, 0⟩
      post := .advance statusOk } := by
    simp only [devPost, hp, hd]
  refine ⟨_, hs, work_lt_of_device rfl ?_⟩
  have hlt : unreported ({ st with
      cqBuf := Function.update st.cqBuf (slotOf _ st.regCqTail) ⟨st.fetched[j].cmdId, statusOk, 0⟩
      post := .advance statusOk }, log ++ ringEvents st (.post j statusOk)) <
        unreported (st, log) := by
    unfold unreported
    refine Finset.card_lt_card ⟨?_, ?_⟩
    · intro i hi
      rw [Finset.mem_filter] at hi ⊢
      refine ⟨hi.1, fun hmem ↦ hi.2 ?_⟩
      rw [List.filterMap_append]
      exact List.mem_append_left _ hmem
    · intro hsub
      have hmem := hsub (Finset.mem_filter.mpr ⟨Finset.mem_range.mpr hj, hnew⟩)
      refine (Finset.mem_filter.mp hmem).2 ?_
      simp [ringEvents, hd, RingEvent.answers]
  dsimp only [Post.left] at hlt ⊢
  omega

/-- Nothing holds the call back. -/
structure Unhindered (st : Sys) (k : Nat) : Prop where
  admits : (st.submits k).pc = .admission → admits st k
  likely : (st.submits k).pc = .waitTest → admissionLikelyOk st (st.submits k).sess = true

/-- A call that is awake and has not returned can go on. -/
private theorem submitStep_isSome {k : Nat} (hf : (st.submits k).pc.finished = false)
    (ha : (st.submits k).pc ≠ .asleep) : ∃ st', submitStep st k = some st' := by
  unfold submitStep
  dsimp only
  split
  all_goals first | next he => exact (ha he).elim | skip
  all_goals first | next he => rw [he] at hf; cases hf | skip
  all_goals repeat' split
  all_goals exact ⟨_, rfl⟩

/-- It gets closer to its return if nothing holds it back. -/
private theorem submitStep_left {k : Nat} (hk : k < st.nsubmits) (hr : Unhindered st k)
    (h : submitStep st k = some st') :
    callsLeft st' < callsLeft st ∧ st'.fetched = st.fetched ∧ st'.post = st.post := by
  have hdone {s' : Sys} {c : Submit} (hs : s'.submits = Function.update st.submits k c)
      (hn : s'.nsubmits = st.nsubmits) (hf : s'.fetched = st.fetched) (hp : s'.post = st.post)
      (hc : c.pc.left < (st.submits k).pc.left) :
      callsLeft s' < callsLeft st ∧ s'.fetched = st.fetched ∧ s'.post = st.post :=
    ⟨callsLeft_update hk hs hn hc, hf, hp⟩
  cases hp : (st.submits k).pc with
  | admission =>
    obtain ⟨-, ht, hq, hfree⟩ := hr.admits hp
    obtain ⟨j, hj⟩ := Option.isSome_iff_exists.mp hfree
    simp only [submitStep, hp, if_pos (And.intro ht hq), hj, Option.some.injEq] at h
    subst h
    exact hdone rfl rfl rfl rfl (by simp [hp, SubmitPc.left])
  | waitTest =>
    simp only [submitStep, hp, hr.likely hp, if_true, Option.some.injEq] at h
    subst h
    exact hdone rfl rfl rfl rfl (by simp [hp, SubmitPc.left])
  | check =>
    simp only [submitStep, hp] at h
    split at h
    · cases h
      exact hdone rfl rfl rfl rfl (by simp [hp, SubmitPc.left])
    · cases h
      exact hdone rfl rfl rfl rfl (by simp [hp, SubmitPc.left])
  | asleep | refused | returned =>
    simp only [submitStep, hp] at h
    cases h
  | _ =>
    simp only [submitStep, hp, Option.some.injEq] at h
    subst h
    exact hdone rfl rfl rfl rfl (by simp [hp, SubmitPc.left])

/-- A call of SUBMIT takes its next step. -/
private theorem submit_goesOn {k : Nat} (hk : k < st.nsubmits)
    (hf : (st.submits k).pc.finished = false) (ha : (st.submits k).pc ≠ .asleep)
    (hr : Unhindered st k) : ∃ st', step st (.submitStep k) = some st' ∧
      work (st', log ++ ringEvents st (.submitStep k)) < work (st, log) := by
  obtain ⟨st', h⟩ := submitStep_isSome hf ha
  obtain ⟨hc, hfetched, hpost⟩ := submitStep_left hk hr h
  refine ⟨st', (if_pos hk).trans h, work_lt_of_calls hc ?_ hpost⟩
  exact unreported_same hfetched (answers_ringEvents (by simp))

/-- A session being closed wakes a sleeper. -/
private theorem wake_goesOn {k : Nat} (hk : k < st.nsubmits) (ha : (st.submits k).pc = .asleep)
    {s : Sid} (hs : st.phase s = .relWake) : ∃ st', step st (.releaseStep s) = some st' ∧
      work (st', log ++ ringEvents st (.releaseStep s)) < work (st, log) := by
  have h : releaseStep st s = some { st with
      submits := fun k ↦ (st.submits k).wake
      phase := Function.update st.phase s .relPoll } := by
    simp only [releaseStep, hs]
  refine ⟨_, h, work_lt_of_calls ?_ (unreported_same rfl rfl) rfl⟩
  refine Finset.sum_lt_sum (fun l _ ↦ left_wake _) ⟨k, Finset.mem_range.mpr hk, ?_⟩
  simp [Submit.wake, ha, SubmitPc.left]

/-- Where nothing is in flight the condition of a sleeper holds. -/
private theorem likely_of_drained (ht : st.totalInflight = 0) (hs : ∀ s, st.inflight s = 0)
    (s : Sid) : admissionLikelyOk st s = true := by
  have hq := quotaOf_pos st.activeSessions
  simp only [admissionLikelyOk, ht, hs, Bool.and_eq_true, decide_eq_true_eq]
  exact ⟨by decide, hq⟩

/-- Where nothing is in flight nothing holds a call back. -/
private theorem unhindered {ok : Sys → Act → Prop} (h : ReachBy ok st)
    (ht : st.totalInflight = 0) (hs : ∀ s, st.inflight s = 0)
    (hv : ∀ i, (st.cmdTable i).valid = false) (k : Nat) : Unhindered st k := by
  constructor
  · intro hp
    refine ⟨hp, ?_, ?_, ?_⟩
    · rw [ht]
      decide
    · rw [hs, quota_eq h hp]
      exact quotaOf_pos _
    · unfold freeCmdSlot
      rw [List.find?_isSome]
      exact ⟨0, List.mem_finRange _, by rw [hv]; rfl⟩
  · intro _
    exact likely_of_drained ht hs _

/-- Whoever sleeps although its condition holds is owed a wake. -/
private theorem attended {ok : Sys → Act → Prop} (h : ReachBy ok st) {k : Nat}
    (hk : (st.submits k).pc = .asleep)
    (hok : admissionLikelyOk st (st.submits k).sess = true) : WakeOwed st := by
  have hinv := invariant_of_trans (I := fun st ↦ ∀ k, (st.submits k).pc = .asleep →
    admissionLikelyOk st (st.submits k).sess = true → WakeOwed st) nofun
      (fun st a st' hr hi _ ht k ↦ attended_step (sessInv hr) ht hi k) h
  exact hinv k hk hok

/-- The step that one submitting thread, the device or the handler takes next. -/
private def Next (x : Sys × List RingEvent) : Prop :=
  ∃ a x', (SingleThreaded x a ∧ a.goesOn = true) ∧ ringStep x a = some x' ∧ work x' < work x

/-- A step that brings less work than it does is one to take next. -/
private theorem Next.intro (hg : a.goesOn = true)
    (hans : ∀ j ∈ (ringEvents st a).filterMap RingEvent.answers,
      j ∉ log.filterMap RingEvent.answers)
    (h : ∃ st', step st a = some st' ∧ work (st', log ++ ringEvents st a) < work (st, log)) :
    Next (st, log) := by
  obtain ⟨st', hs, hlt⟩ := h
  refine ⟨a, _, ⟨⟨?_, hans⟩, hg⟩, ?_, hlt⟩
  · intro hsub
    cases a <;> simp_all [Act.goesOn, Act.isSubmit]
  · unfold ringStep logStep
    rw [hs]
    rfl

/-- While the device or the handler has something to do there is a step to take next. -/
private theorem next_of_not_quiet (hu : st.uapiActive = true) (hq : ¬Quiet st log) :
    Next (st, log) := by
  have hnone {a : Act} (ha : ∀ j status, a ≠ .post j status) :
      ∀ j ∈ (ringEvents st a).filterMap RingEvent.answers,
        j ∉ log.filterMap RingEvent.answers := by
    rw [answers_ringEvents ha]
    nofun
  by_cases hisr : st.isr.pc = .idle
  · by_cases hpost : st.post = .idle
    · by_cases hf : st.regSqHead = st.regSqTail
      · by_cases hrep : ∃ j < st.fetched.length, j ∉ log.filterMap RingEvent.answers
        · obtain ⟨j, hj, hnew⟩ := hrep
          refine .intro rfl ?_ (report_goesOn hpost hj hnew)
          simpa [ringEvents, List.getElem?_eq_getElem hj, RingEvent.answers] using hnew
        · by_cases hirq : st.regIrqStatus = 0
          · refine (hq ⟨hf, ?_, hpost, hisr, hirq⟩).elim
            intro j hj
            by_contra hn
            exact hrep ⟨j, hj, hn⟩
          · exact .intro rfl (hnone (by simp)) (irq_goesOn hisr hirq)
      · exact .intro rfl (hnone (by simp)) (fetch_goesOn hf)
    · exact .intro rfl (hnone (by simp)) (post_goesOn hpost)
  · exact .intro rfl (hnone (by simp)) (isr_goesOn hu hisr)

/-- While a SUBMIT has not returned there is a step to take next. -/
private theorem next_of_quiet (hi : RoutedInv (st, log)) (hq : Quiet st log) {k : Nat}
    (hk : k < st.nsubmits) (hf : (st.submits k).pc.finished = false) : Next (st, log) := by
  have hnone {a : Act} (ha : ∀ j status, a ≠ .post j status) :
      ∀ j ∈ (ringEvents st a).filterMap RingEvent.answers,
        j ∉ log.filterMap RingEvent.answers := by
    rw [answers_ringEvents ha]
    nofun
  by_cases hc : (st.submits k).pc.committed = true
  · have hr : Unhindered st k := by
      constructor
      · intro hp
        rw [hp] at hc
        cases hc
      · intro hp
        rw [hp] at hc
        cases hc
    refine .intro rfl (hnone (by simp)) (submit_goesOn hk hf ?_ hr)
    intro hp
    rw [hp] at hc
    cases hc
  -- everybody else has returned, so that nothing is in flight
  · have hret (l : Nat) (hl : (st.submits l).pc.committed = true) :
        (st.submits l).pc = .returned := by
      refine returned_of_finished ?_ hl
      by_contra hne
      have hkl := hi.single k l hf (Bool.not_eq_true _ ▸ hne)
      rw [hkl] at hc
      exact hc hl
    obtain ⟨ht, hs, hv⟩ :=
      counters_eq_zero hi.serial hret hq.handler (unrouted_eq_nil hi hq hret)
    have hr := unhindered hi.serial ht hs hv k
    by_cases hp : (st.submits k).pc = .asleep
    · rcases attended hi.serial hp (likely_of_drained ht hs _) with hw | hw | ⟨s, hw⟩
      · rw [hq.handler] at hw
        cases hw
      · rw [hq.handler] at hw
        cases hw
      · exact .intro rfl (hnone (by simp)) (wake_goesOn hk hp hw)
    · exact .intro rfl (hnone (by simp)) (submit_goesOn hk hf hp hr)

/-- In every run of one submitting thread, whatever state it has reached, the calls in
progress, the device and the handler can go on until everybody is at rest, and then nothing is
in flight. -/
theorem comes_to_rest (h : Reach ringStep SingleThreaded (Sys.init, []) x) :
    ∃ y, Reach ringStep (fun x a ↦ SingleThreaded x a ∧ a.goesOn = true) x y ∧
      AtRest y.1 y.2 ∧ unrouted y.1 = [] ∧ y.1.totalInflight = 0 ∧ ∀ s, y.1.inflight s = 0 := by
  refine Reach.exists_of_measure (P := Reach ringStep SingleThreaded (Sys.init, [])) work ?_ h
  rintro ⟨st, log⟩ hr
  have hi := routedInv hr
  have hnext (hn : Next (st, log)) : ∃ a x', (SingleThreaded (st, log) a ∧ a.goesOn = true) ∧
      ringStep (st, log) a = some x' ∧ Reach ringStep SingleThreaded (Sys.init, []) x' ∧
        work x' < work (st, log) := by
    obtain ⟨a, x', hok, hs, hlt⟩ := hn
    exact ⟨a, x', hok, hs, .next hr hok.1 hs, hlt⟩
  by_cases hq : Quiet st log
  · by_cases hf : ∀ k < st.nsubmits, (st.submits k).pc.finished = true
    · have hret (k : Nat) (hc : (st.submits k).pc.committed = true) :
          (st.submits k).pc = .returned :=
        returned_of_finished (hf k ((callInv hi.serial).lt_of_committed hc)) hc
      have hu := unrouted_eq_nil hi hq hret
      obtain ⟨ht, hs, -⟩ := counters_eq_zero hi.serial hret hq.handler hu
      exact .inl ⟨⟨hq, hf⟩, hu, ht, hs⟩
    · simp only [not_forall, Bool.not_eq_true] at hf
      obtain ⟨k, hk, hne⟩ := hf
      exact .inr (hnext (next_of_quiet hi hq hk hne))
  · have hdrain : DrainInv st :=
      hi.serial.invariant (.start ⟨rfl, rfl, rfl⟩) fun _ _ _ _ hd _ hs ↦
        hd.step (trans_of_step hs)
    exact .inr (hnext (next_of_not_quiet hdrain.active hq))

/-- Session 0 of two has filled its share, and a ninth SUBMIT sleeps. -/
theorem comes_to_rest_asleep : ∃ x y : Sys × List RingEvent, (x.1.submits 8).pc = .asleep ∧
    x.1.totalInflight = 8 ∧
      Reach ringStep (fun x a ↦ SingleThreaded x a ∧ a.goesOn = true) x y ∧
        AtRest y.1 y.2 ∧ y.1.totalInflight = 0 := by
  have hrun : (runChecked ringStep (fun x a ↦ decide (SingleThreaded x a)) (Sys.init, [])
      (.chrOpen :: .chrOpen :: allocScript 0 0 ++
        (List.range 8).flatMap (fun k ↦ submitScript 0 0 k 14) ++ submitScript 0 0 8 6)).any
      (fun x ↦ decide ((x.1.submits 8).pc = .asleep ∧ x.1.totalInflight = 8)) = true := by
    decide +kernel
  obtain ⟨x, hr, hp⟩ := Reach.exists_of_runChecked (fun _ _ hc ↦ of_decide_eq_true hc) hrun
  obtain ⟨hasleep, htotal⟩ := of_decide_eq_true hp
  obtain ⟨y, hy, hrest, -, hzero, -⟩ := comes_to_rest hr
  exact ⟨x, y, hasleep, htotal, hy, hrest, hzero⟩

end DmaAccel.Driver
