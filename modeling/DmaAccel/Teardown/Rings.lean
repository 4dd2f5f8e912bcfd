import DmaAccel.Driver.Frames
import DmaAccel.Teardown.Remove

/-!
# The rings after they are freed

`dma_accel_remove` frees the rings before it frees the interrupt, and nothing keeps the calls
on open files away. Whether somebody touches a freed ring is decided by four kinds of step: the
two that free a ring while a user is on the way to it, and the two that set out for a ring that
is gone. A run without them never touches a freed ring, and each of them leads to a touch.
-/

namespace DmaAccel.Teardown

open DmaAccel.Base
open DmaAccel.Driver (Sys Submit SubmitPc IsrPc queueDepth freeCmdSlot Trans SubmitLocal
  trans_of_step)

/-- The handler has an entry of the completion ring left to read. -/
def undrained (st : Sys) : Bool :=
  match st.isr.pc with
  | .drain => st.cqHead != st.isr.deviceCqTail
  | .lookup | .push | .decInflight | .decTotal | .wakeQuota | .wakeComp | .next =>
    st.cqHead + 1 != st.isr.deviceCqTail
  | .idle | .ack | .readTail | .writeHead => false

/-- The handler is about to find an entry to read. -/
def finds (st : Sys) : Bool :=
  st.isr.pc = .readTail && st.uapiActive && st.cqHead != st.regCqTail

/-- The call has passed admission and has its descriptor still to store. -/
def storing (c : Submit) : Bool :=
  match c.pc with
  | .incInflight | .incTotal | .enqIdx | .enqStore => true
  | _ => false

/-- The call is about to pass admission. -/
def enters (st : Sys) (k : Nat) : Bool :=
  k < st.nsubmits && (st.submits k).pc = .admission && st.totalInflight < queueDepth &&
    st.inflight (st.submits k).sess < (st.submits k).quota && (freeCmdSlot st.cmdTable).isSome

/-- A call has a descriptor still to store. -/
def unstored (st : Sys) : Bool := (List.range st.nsubmits).any fun k ↦ storing (st.submits k)

/-- The step frees a ring that a user is on the way to, or sets out for a ring that is gone. -/
def exposes (s : State) : Act → Bool
  | .remove =>
    (s.stage = .deregistered && undrained s.sys) || (s.stage = .cqCleared && unstored s.sys)
  | .driver .isrStep => s.stage.cqGone && finds s.sys
  | .driver (.submitStep k) => s.stage.sqGone && enters s.sys k
  | _ => false

/-- A step that exposes no freed ring. -/
def Careful (s : State) (a : Act) : Prop := exposes s a = false

variable {st st' : Sys} {s s' : State} {a : Act} {k : Nat}

/-! ## The handler -/

/-- Without the device the handler stands where it stood. -/
@[simp] theorem undrained_unplugged (st : Sys) : undrained (unplugged st) = undrained st := rfl

@[simp] theorem undrained_withSys (s : State) (st : Sys) :
    undrained (s.withSys st).sys = undrained st := by
  unfold State.withSys
  cases s.present <;> simp

theorem undrained_congr (hisr : st'.isr = st.isr) (hhead : st'.cqHead = st.cqHead) :
    undrained st' = undrained st := by
  unfold undrained
  rw [hisr, hhead]

/-- A handler that has drained the ring and finds no new entry stays drained. -/
theorem undrained_isrStep (h : Driver.isrStep st = some st') (hu : undrained st = false)
    (hf : finds st = false) : undrained st' = false := by
  unfold Driver.isrStep at h
  unfold undrained at hu
  cases hpc : st.isr.pc with
  | idle => simp [hpc] at h
  | ack | writeHead =>
    simp only [hpc, Option.some.injEq] at h
    subst h
    rfl
  | push | decInflight | decTotal | wakeQuota | wakeComp =>
    simp only [hpc, Option.some.injEq] at h hu
    subst h
    simpa [undrained] using hu
  | readTail =>
    simp only [hpc] at h
    split at h
    · next hactive =>
      cases h
      simpa [finds, undrained, hpc, hactive] using hf
    · cases h
      rfl
  | drain =>
    simp only [hpc, bne_eq_false_iff_eq] at h hu
    rw [if_pos hu] at h
    cases h
    rfl
  | lookup =>
    simp only [hpc] at h hu
    split at h
    all_goals
      cases h
      simpa [undrained] using hu
  | next =>
    simp only [hpc, Option.some.injEq] at h hu
    subst h
    simpa [undrained] using hu

/-- An interrupt finds the handler idle, and leaves it with nothing to drain. -/
theorem undrained_irqEnter (h : Driver.irqEnter st = some st') (hu : undrained st = false) :
    undrained st' = false := by
  unfold Driver.irqEnter at h
  split at h
  · split at h
    · cases h
      exact hu
    · cases h
      rfl
  · cases h

theorem undrained_step {b : Driver.Act} (h : Driver.step st b = some st')
    (hu : undrained st = false) (hf : b = .isrStep → finds st = false) :
    undrained st' = false := by
  by_cases hb : b = .isrStep
  · subst hb
    exact undrained_isrStep h hu (hf rfl)
  · by_cases hi : b = .irq
    · subst hi
      exact undrained_irqEnter h hu
    · obtain ⟨hisr, hhead⟩ := Driver.step_isr h hb hi
      rw [undrained_congr hisr hhead]
      exact hu

/-! ## The calls of SUBMIT -/

theorem storing_wake (c : Submit) : storing c.wake = storing c := by
  unfold Submit.wake
  split
  · next h => simp [storing, h]
  · rfl

/-- A local step of a call never leads to a descriptor that has to be stored. -/
theorem storing_local {c c' : Submit} (h : SubmitLocal st c c') : storing c' = false := by
  cases h <;> rfl

/-- A call has a descriptor to store after a step only if it had one before, or has just
passed admission. -/
theorem storing_step {b : Driver.Act} (h : Driver.step st b = some st')
    (hu : ∀ k < st.nsubmits, storing (st.submits k) = false)
    (he : ∀ k, b = .submitStep k → enters st k = false) :
    ∀ k < st'.nsubmits, storing (st'.submits k) = false := by
  have hupd : ∀ {k : Nat} {c : Submit}, storing c = false →
      ∀ l < st.nsubmits, storing (Function.update st.submits k c l) = false := by
    intro k c hc l hl
    by_cases hlk : l = k
    · subst hlk
      rw [Function.update_self]
      exact hc
    · rw [Function.update_of_ne hlk]
      exact hu l hl
  cases trans_of_step h with
  | submit s req hs =>
    intro k hk
    by_cases hkn : k = st.nsubmits
    · subst hkn
      simp [Driver.ioctlSubmit, storing]
    · change storing (Function.update st.submits st.nsubmits _ k) = false
      rw [Function.update_of_ne hkn]
      exact hu k (Nat.lt_of_le_of_ne (Nat.lt_succ_iff.mp hk) hkn)
  | submitLocal b k c hk hc => exact hupd (storing_local hc)
  | newId k hk hpc => exact hupd rfl
  | register k j hk hpc htotal hquota hslot =>
    have hin := he k rfl
    rw [enters, decide_eq_true hk, decide_eq_true hpc, decide_eq_true htotal,
      decide_eq_true hquota, hslot] at hin
    cases hin
  | incInflight k hk hpc | incTotal k hk hpc | enqIdx k hk hpc | enqStore k hk hpc =>
    have hno := hu k hk
    simp [storing, hpc] at hno
  | enqWriteTail k hk hpc => exact hupd rfl
  | enqDoorbell k hk hpc => exact hupd rfl
  | relWake s hs =>
    intro k hk
    change storing (st.submits k).wake = false
    rw [storing_wake]
    exact hu k hk
  | wakeQuota hpc =>
    intro k hk
    change storing (st.submits k).wake = false
    rw [storing_wake]
    exact hu k hk
  | _ => exact hu

theorem unstored_eq_false :
    unstored st = false ↔ ∀ k < st.nsubmits, storing (st.submits k) = false := by
  simp [unstored, List.any_eq_false]

@[simp] theorem unstored_unplugged (st : Sys) : unstored (unplugged st) = unstored st := rfl

@[simp] theorem unstored_withSys (s : State) (st : Sys) :
    unstored (s.withSys st).sys = unstored st := by
  unfold State.withSys
  cases s.present <;> simp

/-! ## Careful runs -/

/-- Nobody is on the way to a ring that has been freed. -/
structure Clear (s : State) : Prop where
  cq : s.stage.cqGone = true → undrained s.sys = false
  sq : s.stage.sqGone = true → unstored s.sys = false

theorem clear_init : Clear init := ⟨fun h ↦ Bool.noConfusion h, fun h ↦ Bool.noConfusion h⟩

theorem clear_remove (hi : Clear s) (hc : Careful s .remove) (h : removeStep s = some s') :
    Clear s' := by
  obtain ⟨hcq, hsq⟩ := hi
  unfold Careful exposes at hc
  unfold removeStep at h
  cases hst : s.stage with
  | registered =>
    simp only [hst, Option.some.injEq] at h
    subst h
    exact ⟨fun h ↦ Bool.noConfusion h, fun h ↦ Bool.noConfusion h⟩
  | deregistered =>
    simp only [hst, Option.some.injEq] at h
    subst h
    exact ⟨fun _ ↦ by simpa [hst] using hc, fun h ↦ Bool.noConfusion h⟩
  | cqFreed =>
    simp only [hst, Option.some.injEq] at h
    subst h
    exact ⟨fun _ ↦ hcq (by rw [hst]; rfl), fun h ↦ Bool.noConfusion h⟩
  | cqCleared =>
    simp only [hst, Option.some.injEq] at h
    subst h
    exact ⟨fun _ ↦ hcq (by rw [hst]; rfl), fun _ ↦ by simpa [hst] using hc⟩
  | sqFreed | irqFreed =>
    simp only [hst, Option.some.injEq] at h
    subst h
    exact ⟨fun _ ↦ hcq (by rw [hst]; rfl), fun _ ↦ hsq (by rw [hst]; rfl)⟩
  | sqCleared =>
    simp only [hst, Option.ite_none_right_eq_some] at h
    obtain ⟨-, hs⟩ := h
    cases hs
    exact ⟨fun _ ↦ hcq (by rw [hst]; rfl), fun _ ↦ hsq (by rw [hst]; rfl)⟩
  | vectorsFreed => simp [hst] at h

theorem eq_withSys_of_step {b : Driver.Act} (h : step s (.driver b) = some s') :
    ∃ st', Driver.step s.sys b = some st' ∧ s' = s.withSys st' := by
  simp only [step, Option.ite_none_right_eq_some, Option.map_eq_some_iff] at h
  obtain ⟨-, st', hst, heq⟩ := h
  exact ⟨st', hst, heq.symm⟩

theorem clear_driver {b : Driver.Act} (hi : Clear s) (hc : Careful s (.driver b))
    (h : step s (.driver b) = some s') : Clear s' := by
  obtain ⟨st', hst, rfl⟩ := eq_withSys_of_step h
  constructor
  · intro hgone
    rw [undrained_withSys]
    apply undrained_step hst (hi.cq hgone)
    rintro rfl
    have hgone' : s.stage.cqGone = true := hgone
    simpa [Careful, exposes, hgone'] using hc
  · intro hgone
    rw [unstored_withSys, unstored_eq_false]
    apply storing_step hst (unstored_eq_false.mp (hi.sq hgone))
    rintro k rfl
    have hgone' : s.stage.sqGone = true := hgone
    simpa [Careful, exposes, hgone'] using hc

theorem clear_step (hi : Clear s) (hc : Careful s a) (h : step s a = some s') : Clear s' := by
  cases a with
  | remove => exact clear_remove hi hc h
  | unplug =>
    cases h
    exact ⟨hi.cq, hi.sq⟩
  | driver b => exact clear_driver hi hc h

theorem clear_of_reach (h : Reach step Careful init s) : Clear s :=
  h.invariant clear_init fun _ _ _ _ hi hc hs ↦ clear_step hi hc hs

/-- Where nobody is on the way to a freed ring, no step touches one. -/
theorem Clear.untouched (hi : Clear s) (a : Act) : touches s a = false := by
  by_contra ht
  rw [Bool.not_eq_false] at ht
  unfold touches at ht
  split at ht
  · simp only [Bool.and_eq_true, decide_eq_true_eq] at ht
    obtain ⟨⟨hgone, hpc⟩, hne⟩ := ht
    have hu := hi.cq hgone
    simp only [undrained, hpc] at hu
    rw [hu] at hne
    cases hne
  · next k =>
    simp only [Bool.and_eq_true, decide_eq_true_eq] at ht
    obtain ⟨⟨hgone, hk⟩, hpc⟩ := ht
    have hu := unstored_eq_false.mp (hi.sq hgone) k hk
    simp [storing, hpc] at hu
  · cases ht

/-! ## What the other steps lead to -/

/-- Steps of the handler until it looks at the ring again. -/
def toDrain : IsrPc → Nat
  | .lookup => 7
  | .push => 6
  | .decInflight => 5
  | .decTotal => 4
  | .wakeQuota => 3
  | .wakeComp => 2
  | .next => 1
  | _ => 0

/-- Steps of a call until it stores its descriptor. -/
def toStore : SubmitPc → Nat
  | .incInflight => 3
  | .incTotal => 2
  | .enqIdx => 1
  | _ => 0

/-- A handler with an entry left to read comes closer to reading it. -/
theorem isrStep_toward (hu : undrained st = true) (hpc : st.isr.pc ≠ .drain) :
    ∃ st', Driver.isrStep st = some st' ∧ undrained st' = true ∧
      toDrain st'.isr.pc < toDrain st.isr.pc := by
  unfold undrained at hu
  unfold Driver.isrStep
  cases h : st.isr.pc with
  | idle | ack | readTail | writeHead => simp [h] at hu
  | drain => exact absurd h hpc
  | lookup =>
    simp only [h] at hu ⊢
    cases hf : Driver.findCmd st.cmdTable st.isr.comp.cmdId with
    | some i => exact ⟨_, rfl, hu, Nat.lt_succ_self _⟩
    | none => exact ⟨_, rfl, hu, show (1 : Nat) < 7 by decide⟩
  | push | decInflight | decTotal | wakeQuota | wakeComp | next =>
    simp only [h] at hu ⊢
    exact ⟨_, rfl, hu, Nat.lt_succ_self _⟩

/-- A call with a descriptor to store comes closer to storing it. -/
theorem submitStep_toward (hs : storing (st.submits k) = true)
    (hpc : (st.submits k).pc ≠ .enqStore) :
    ∃ st', Driver.submitStep st k = some st' ∧ st'.nsubmits = st.nsubmits ∧
      storing (st'.submits k) = true ∧ toStore (st'.submits k).pc < toStore (st.submits k).pc := by
  unfold storing at hs
  unfold Driver.submitStep
  cases h : (st.submits k).pc with
  | incInflight | incTotal | enqIdx =>
    simp only [h]
    refine ⟨_, rfl, rfl, ?_⟩
    simp [storing, toStore, Sys.setSubmit]
  | enqStore => exact absurd h hpc
  | _ => simp [h] at hs

theorem step_driver {b : Driver.Act} (ha : s.admits b = true)
    (h : Driver.step s.sys b = some st') : step s (.driver b) = some (s.withSys st') := by
  simp [step, ha, h]

@[simp] theorem withSys_isr (s : State) (st : Sys) : (s.withSys st).sys.isr = st.isr := by
  unfold State.withSys
  cases s.present <;> rfl

@[simp] theorem withSys_submits (s : State) (st : Sys) :
    (s.withSys st).sys.submits = st.submits := by
  unfold State.withSys
  cases s.present <;> rfl

@[simp] theorem withSys_nsubmits (s : State) (st : Sys) :
    (s.withSys st).sys.nsubmits = st.nsubmits := by
  unfold State.withSys
  cases s.present <;> rfl

/-- A handler that has an entry left reads it from the freed ring. -/
theorem handler_touches (hgone : s.stage.cqGone = true) (hu : undrained s.sys = true) :
    ∃ t, Reach step anyStep s t ∧ touches t (.driver .isrStep) = true := by
  apply Reach.exists_of_measure (P := fun t ↦ t.stage.cqGone = true ∧ undrained t.sys = true)
    (fun t ↦ toDrain t.sys.isr.pc) _ ⟨hgone, hu⟩
  intro t ⟨htgone, htu⟩
  by_cases hpc : t.sys.isr.pc = .drain
  · left
    simp only [undrained, hpc] at htu
    simp [touches, htgone, hpc, htu]
  · right
    obtain ⟨st', hs, hu', hlt⟩ := isrStep_toward htu hpc
    have hstep : step t (.driver .isrStep) = some (t.withSys st') := step_driver rfl hs
    refine ⟨_, _, trivial, hstep, ⟨htgone, ?_⟩, ?_⟩
    · rw [undrained_withSys]
      exact hu'
    · rw [withSys_isr]
      exact hlt

/-- A call that has its descriptor to store writes it to the freed ring. -/
theorem submit_touches (hgone : s.stage.sqGone = true) (hk : k < s.sys.nsubmits)
    (hs : storing (s.sys.submits k) = true) :
    ∃ t, Reach step anyStep s t ∧ touches t (.driver (.submitStep k)) = true := by
  apply Reach.exists_of_measure (P := fun t ↦ t.stage.sqGone = true ∧ k < t.sys.nsubmits ∧
    storing (t.sys.submits k) = true) (fun t ↦ toStore (t.sys.submits k).pc) _ ⟨hgone, hk, hs⟩
  intro t ⟨htgone, htk, hts⟩
  by_cases hpc : (t.sys.submits k).pc = .enqStore
  · left
    simp [touches, htgone, htk, hpc]
  · right
    obtain ⟨st', hst, hn, hs', hlt⟩ := submitStep_toward hts hpc
    have hstep : step t (.driver (.submitStep k)) = some (t.withSys st') := by
      apply step_driver rfl
      rw [← hst]
      exact if_pos htk
    refine ⟨_, _, trivial, hstep, ⟨htgone, ?_, ?_⟩, ?_⟩
    · rw [withSys_nsubmits, hn]
      exact htk
    · rw [withSys_submits]
      exact hs'
    · rw [withSys_submits]
      exact hlt

/-- A handler that finds a new entry has it left to read. -/
theorem undrained_of_finds (h : Driver.isrStep st = some st') (hf : finds st = true) :
    undrained st' = true := by
  simp only [finds, Bool.and_eq_true, decide_eq_true_eq] at hf
  obtain ⟨⟨hpc, hactive⟩, hne⟩ := hf
  simp only [Driver.isrStep, hpc, hactive, if_true, Option.some.injEq] at h
  subst h
  exact hne

/-- A call that passes admission has a descriptor to store. -/
theorem storing_of_enters (h : Driver.step st (.submitStep k) = some st')
    (he : enters st k = true) : k < st'.nsubmits ∧ storing (st'.submits k) = true := by
  simp only [enters, Bool.and_eq_true, decide_eq_true_eq] at he
  obtain ⟨⟨⟨⟨hk, hpc⟩, htotal⟩, hquota⟩, hslot⟩ := he
  obtain ⟨j, hj⟩ := Option.isSome_iff_exists.mp hslot
  simp only [Driver.step, if_pos hk, Driver.submitStep, hpc, if_pos (And.intro htotal hquota),
    hj, Option.some.injEq] at h
  subst h
  simp [storing, hk]

/-- An exposing step leads to a touch. -/
theorem exposes_touches (h : step s a = some s') (he : exposes s a = true) :
    ∃ t b, Reach step anyStep s' t ∧ touches t b = true := by
  unfold exposes at he
  split at he
  · simp only [Bool.or_eq_true, Bool.and_eq_true, decide_eq_true_eq] at he
    rcases he with ⟨hst, hu⟩ | ⟨hst, hu⟩
    · simp only [step, removeStep, hst, Option.some.injEq] at h
      subst h
      obtain ⟨t, ht, hb⟩ := handler_touches (s := { s with stage := .cqFreed }) rfl hu
      exact ⟨t, _, ht, hb⟩
    · simp only [step, removeStep, hst, Option.some.injEq] at h
      subst h
      simp only [unstored, List.any_eq_true, List.mem_range] at hu
      obtain ⟨k, hk, hs⟩ := hu
      obtain ⟨t, ht, hb⟩ := submit_touches (s := { s with stage := .sqFreed }) rfl hk hs
      exact ⟨t, _, ht, hb⟩
  · obtain ⟨hgone, hf⟩ := (Bool.and_eq_true _ _).mp he
    obtain ⟨st', hs, rfl⟩ := eq_withSys_of_step h
    obtain ⟨t, ht, hb⟩ := handler_touches (s := s.withSys st') hgone (by
      rw [undrained_withSys]
      exact undrained_of_finds hs hf)
    exact ⟨t, _, ht, hb⟩
  · next k =>
    obtain ⟨hgone, hen⟩ := (Bool.and_eq_true _ _).mp he
    obtain ⟨st', hs, rfl⟩ := eq_withSys_of_step h
    obtain ⟨hk, hstore⟩ := storing_of_enters hs hen
    obtain ⟨t, ht, hb⟩ := submit_touches (s := s.withSys st') hgone
      (by rwa [withSys_nsubmits]) (by rwa [withSys_submits])
    exact ⟨t, _, ht, hb⟩
  · cases he

/-- A step that touches a freed ring is one the system takes. -/
theorem enabled_of_touches (ht : touches s a = true) : (step s a).isSome = true := by
  unfold touches at ht
  split at ht
  · simp only [Bool.and_eq_true, decide_eq_true_eq, bne_iff_ne] at ht
    obtain ⟨⟨-, hpc⟩, hne⟩ := ht
    obtain ⟨st', hs⟩ : ∃ st', Driver.step s.sys .isrStep = some st' := by
      simp only [Driver.step, Driver.isrStep, hpc, if_neg hne]
      exact ⟨_, rfl⟩
    rw [step_driver rfl hs]
    rfl
  · next k =>
    simp only [Bool.and_eq_true, decide_eq_true_eq] at ht
    obtain ⟨⟨-, hk⟩, hpc⟩ := ht
    obtain ⟨st', hs⟩ : ∃ st', Driver.step s.sys (.submitStep k) = some st' := by
      simp only [Driver.step, if_pos hk, Driver.submitStep, hpc]
      exact ⟨_, rfl⟩
    rw [step_driver rfl hs]
    rfl
  · cases ht

/-! ## Results -/

/-- No run of careful steps touches a freed ring, and every other step leads to a touch. -/
theorem rings_untouched (h : Reach step Careful init s) :
    (∀ a, touches s a = false) ∧
      ∀ a s', step s a = some s' → ¬Careful s a →
        ∃ t b, Reach step anyStep s' t ∧ (step t b).isSome = true ∧ touches t b = true := by
  refine ⟨(clear_of_reach h).untouched, ?_⟩
  intro a s' hs hc
  obtain ⟨t, b, ht, hb⟩ := exposes_touches hs (Bool.not_eq_false _ ▸ hc)
  exact ⟨t, b, ht, enabled_of_touches hb, hb⟩

/-- A device whose only command has completed is removed under an open file. -/
theorem rings_untouched_drained : ∃ s, Reach step Careful init s ∧ s.stage = .vectorsFreed ∧
    s.sys.phase 0 = .opened ∧ ∀ a, touches s a = false := by
  have hrun : (runChecked step (fun s a ↦ !exposes s a) init
      (workScript 13 (Driver.completeScript 0 12) ++ removeScript 7 [])).any
      (fun s ↦ decide (s.stage = .vectorsFreed ∧ s.sys.phase 0 = .opened)) = true := by
    decide +kernel
  obtain ⟨s, hr, hp⟩ := Reach.exists_of_runChecked
    (fun _ _ hc ↦ (Bool.not_eq_true' _).mp hc) hrun
  obtain ⟨hstage, hopen⟩ := of_decide_eq_true hp
  exact ⟨s, hr, hstage, hopen, (rings_untouched hr).1⟩

/-- Between `dma_accel_queue_fini` and `free_irq` an interrupt makes the handler read the freed
completion ring, and a call that passed admission before stores into the freed submission
ring. -/
theorem rings_touched :
    (¬∀ s, Reach step anyStep init s → touches s (.driver .isrStep) = false) ∧
      ¬∀ s k, Reach step anyStep init s → touches s (.driver (.submitStep k)) = false := by
  constructor
  · have hrun : (run step init
        (workScript 13 [.fetch, .post 0 Driver.statusOk, .postStep, .postStep] ++
          removeScript 2 [.irq, .isrStep, .isrStep])).any
        (fun s ↦ touches s (.driver .isrStep)) = true := by
      decide +kernel
    obtain ⟨s, hr, hp⟩ := Reach.exists_of_run hrun
    intro hall
    rw [hall s hr] at hp
    cases hp
  · have hrun : (run step init (workScript 8 [] ++ removeScript 4 [])).any
        (fun s ↦ touches s (.driver (.submitStep 0))) = true := by
      decide +kernel
    obtain ⟨s, hr, hp⟩ := Reach.exists_of_run hrun
    intro hall
    rw [hall s 0 hr] at hp
    cases hp

/-! ## A failed probe -/

/-- No file is open, no call in progress, and the handler only completes `irq_done`. -/
structure Probing (st : Sys) : Prop where
  inactive : st.uapiActive = false
  closed : ∀ f, st.phase f ≠ .opened
  noCall : st.nsubmits = 0
  handler : st.isr.pc = .idle ∨ st.isr.pc = .ack ∨ st.isr.pc = .readTail

theorem probing_isrLocal {h : Driver.Isr} (hp : Probing st)
    (hl : Driver.IsrLocal st st.isr h) : Probing { st with isr := h } := by
  refine ⟨hp.inactive, hp.closed, hp.noCall, ?_⟩
  cases hl with
  | enter hpc hirq => exact .inr (.inl rfl)
  | readTail hpc hactive =>
    rw [hp.inactive] at hactive
    cases hactive
  | drained hpc | unknown hpc | wakeComp hpc =>
    have hpc' := hp.handler
    simp [hpc] at hpc'

theorem probing_step {b : Driver.Act} (hp : Probing st) (hb : b ≠ .chrOpen)
    (h : Driver.step st b = some st') : Probing st' := by
  have hnone : ∀ {pc}, pc ≠ .idle → pc ≠ .ack → pc ≠ .readTail → st.isr.pc ≠ pc := by
    rintro pc h1 h2 h3 rfl
    rcases hp.handler with hpc | hpc | hpc
    exacts [h1 hpc, h2 hpc, h3 hpc]
  have hphase : ∀ f p, p ≠ .opened → ∀ g, Function.update st.phase f p g ≠ .opened := by
    intro f p hne g
    by_cases hg : g = f
    · subst hg
      rw [Function.update_self]
      exact hne
    · rw [Function.update_of_ne hg]
      exact hp.closed g
  cases trans_of_step h with
  | chrOpen => exact absurd rfl hb
  | chrRelease f hf | submit f req hf | alloc f size hf | read f bytes hf =>
    exact absurd hf (hp.closed f)
  | relWake f hf => exact ⟨hp.inactive, hphase f _ (by decide), hp.noCall, hp.handler⟩
  | relPoll f hf hz => exact ⟨hp.inactive, hphase f _ (by decide), hp.noCall, hp.handler⟩
  | relFree f hf => exact ⟨hp.inactive, hphase f _ (by decide), hp.noCall, hp.handler⟩
  | relKfree f hf => exact ⟨hp.inactive, hphase f _ (by decide), hp.noCall, hp.handler⟩
  | isrLocal b i hl => exact probing_isrLocal hp hl
  | ack hpc => exact ⟨hp.inactive, hp.closed, hp.noCall, .inr (.inr rfl)⟩
  | complete hpc hoff => exact ⟨hp.inactive, hp.closed, hp.noCall, .inl rfl⟩
  | drain hpc | lookup i hpc | push hpc | decInflight hpc | decTotal hpc | wakeQuota hpc
  | next hpc | writeHead hpc => exact absurd hpc (hnone (by decide) (by decide) (by decide))
  | _ => exact ⟨hp.inactive, hp.closed, hp.noCall, hp.handler⟩

theorem probing_withSys (hp : Probing st) : Probing (s.withSys st).sys := by
  unfold State.withSys
  cases s.present
  · exact ⟨hp.inactive, hp.closed, hp.noCall, hp.handler⟩
  · exact hp

/-- A probe that fails before `uapi_active` is set cleans up in the same order, and nobody
touches the rings it frees. -/
theorem probe_cleanup {s0 : State} (hp : Probing s0.sys) (h0 : s0.stage = .deregistered)
    (h : Reach step anyStep s0 s) : ∀ a, touches s a = false := by
  have hi : Probing s.sys ∧ s.stage ≠ .registered := by
    apply h.invariant (I := fun s ↦ Probing s.sys ∧ s.stage ≠ .registered)
    · rw [h0]
      exact ⟨hp, by decide⟩
    · intro s a s' _ ⟨hp, hst⟩ _ hs
      cases a with
      | remove =>
        simp only [step, removeStep] at hs
        repeat' split at hs
        all_goals cases hs
        all_goals exact ⟨hp, Stage.noConfusion⟩
      | unplug =>
        cases hs
        exact ⟨⟨hp.inactive, hp.closed, hp.noCall, hp.handler⟩, hst⟩
      | driver b =>
        have hb : b ≠ .chrOpen := by
          rintro rfl
          simp [step, State.admits, hst] at hs
        obtain ⟨st', hst', rfl⟩ := eq_withSys_of_step hs
        exact ⟨probing_withSys (probing_step hp hb hst'), hst⟩
  intro a
  by_contra ht
  rw [Bool.not_eq_false] at ht
  unfold touches at ht
  split at ht
  · rcases hi.1.handler with hpc | hpc | hpc
    all_goals simp [hpc] at ht
  · simp [hi.1.noCall] at ht
  · cases ht

end DmaAccel.Teardown
