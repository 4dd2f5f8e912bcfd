import DmaAccel.Driver.Transitions

/-!
# Who moves a call

A call of `dma_accel_chr_read` is moved by its own thread only. A call of
`dma_accel_ioc_submit` is moved by its own thread, and woken up by anybody.
-/

namespace DmaAccel.Driver

open DmaAccel.Base

variable {st st' : Sys} {a : Act} {k : Nat}

/-- The action is a step of call `k` of `dma_accel_chr_read`. -/
def Act.ofRead (k : Nat) (a : Act) : Prop := a = .readStep k ∨ a = .readFault k

private theorem submitStep_frame (h : submitStep st k = some st') :
    st'.reads = st.reads ∧ ∀ l, l ≠ k → st'.submits l = st.submits l := by
  unfold submitStep at h
  dsimp only at h
  repeat' split at h
  all_goals cases h
  all_goals exact ⟨rfl, fun l hl ↦ Function.update_of_ne hl _ _⟩

private theorem submitFault_frame (h : submitFault st k = some st') :
    st'.reads = st.reads ∧ ∀ l, l ≠ k → st'.submits l = st.submits l := by
  unfold submitFault at h
  dsimp only at h
  repeat' split at h
  all_goals cases h
  all_goals exact ⟨rfl, fun l hl ↦ Function.update_of_ne hl _ _⟩

private theorem submitSignal_frame (h : submitSignal st k = some st') :
    st'.reads = st.reads ∧ ∀ l, l ≠ k → st'.submits l = st.submits l := by
  unfold submitSignal at h
  dsimp only at h
  repeat' split at h
  all_goals cases h
  all_goals exact ⟨rfl, fun l hl ↦ Function.update_of_ne hl _ _⟩

private theorem allocStep_frame {mem : Option (Nat × Nat)} (h : allocStep st k mem = some st') :
    st'.reads = st.reads ∧ st'.submits = st.submits := by
  unfold allocStep at h
  dsimp only at h
  repeat' split at h
  all_goals cases h
  all_goals exact ⟨rfl, rfl⟩

private theorem allocFault_frame (h : allocFault st k = some st') :
    st'.reads = st.reads ∧ st'.submits = st.submits := by
  unfold allocFault at h
  dsimp only at h
  repeat' split at h
  all_goals cases h
  all_goals exact ⟨rfl, rfl⟩

private theorem readStep_frame (h : readStep st k = some st') :
    st'.submits = st.submits ∧ ∀ l, l ≠ k → st'.reads l = st.reads l := by
  unfold readStep at h
  dsimp only at h
  repeat' split at h
  all_goals cases h
  all_goals exact ⟨rfl, fun l hl ↦ Function.update_of_ne hl _ _⟩

private theorem readFault_frame (h : readFault st k = some st') :
    st'.submits = st.submits ∧ ∀ l, l ≠ k → st'.reads l = st.reads l := by
  unfold readFault at h
  dsimp only at h
  repeat' split at h
  all_goals cases h
  all_goals exact ⟨rfl, fun l hl ↦ Function.update_of_ne hl _ _⟩

private theorem releaseStep_frame {s : Sid} (h : releaseStep st s = some st') :
    st'.reads = st.reads ∧
      ∀ l, st'.submits l = st.submits l ∨ st'.submits l = (st.submits l).wake := by
  unfold releaseStep at h
  repeat' split at h
  all_goals cases h
  all_goals refine ⟨rfl, fun l ↦ ?_⟩
  all_goals first | exact .inl rfl | exact .inr rfl

private theorem isrStep_frame (h : isrStep st = some st') :
    st'.reads = st.reads ∧
      ∀ l, st'.submits l = st.submits l ∨ st'.submits l = (st.submits l).wake := by
  unfold isrStep at h
  dsimp only at h
  repeat' split at h
  all_goals cases h
  all_goals refine ⟨rfl, fun l ↦ ?_⟩
  all_goals first | exact .inl rfl | exact .inr rfl

private theorem irqEnter_frame (h : irqEnter st = some st') :
    st'.reads = st.reads ∧ st'.submits = st.submits := by
  unfold irqEnter at h
  repeat' split at h
  all_goals cases h
  all_goals exact ⟨rfl, rfl⟩

private theorem device_frame (ha : a = .fetch ∨ (∃ j x, a = .post j x) ∨ a = .postStep)
    (h : step st a = some st') : st'.reads = st.reads ∧ st'.submits = st.submits := by
  rcases ha with rfl | ⟨j, x, rfl⟩ | rfl
  · simp only [step, devFetch] at h
    split at h
    all_goals cases h
    all_goals exact ⟨rfl, rfl⟩
  · simp only [step, devPost] at h
    split at h
    all_goals cases h
    all_goals exact ⟨rfl, rfl⟩
  · simp only [step, devPostStep] at h
    split at h
    all_goals cases h
    all_goals exact ⟨rfl, rfl⟩

/-- A call of `read()` stays as it is in every step but its own. -/
theorem step_reads (h : step st a = some st') (hk : k < st.nreads) (ha : ¬a.ofRead k) :
    st'.reads k = st.reads k := by
  cases a with
  | read s bytes =>
    obtain ⟨-, hs⟩ := Option.ite_none_right_eq_some.mp h
    cases hs
    exact Function.update_of_ne (Nat.ne_of_lt hk) _ _
  | readStep l =>
    obtain ⟨-, hs⟩ := Option.ite_none_right_eq_some.mp h
    refine (readStep_frame hs).2 k ?_
    rintro rfl
    exact ha (.inl rfl)
  | readFault l =>
    obtain ⟨-, hs⟩ := Option.ite_none_right_eq_some.mp h
    refine (readFault_frame hs).2 k ?_
    rintro rfl
    exact ha (.inr rfl)
  | submitStep l =>
    obtain ⟨-, hs⟩ := Option.ite_none_right_eq_some.mp h
    rw [(submitStep_frame hs).1]
  | submitFault l =>
    obtain ⟨-, hs⟩ := Option.ite_none_right_eq_some.mp h
    rw [(submitFault_frame hs).1]
  | submitSignal l =>
    obtain ⟨-, hs⟩ := Option.ite_none_right_eq_some.mp h
    rw [(submitSignal_frame hs).1]
  | allocStep l mem =>
    obtain ⟨-, hs⟩ := Option.ite_none_right_eq_some.mp h
    rw [(allocStep_frame hs).1]
  | allocFault l =>
    obtain ⟨-, hs⟩ := Option.ite_none_right_eq_some.mp h
    rw [(allocFault_frame hs).1]
  | releaseStep s => rw [(releaseStep_frame h).1]
  | isrStep => rw [(isrStep_frame h).1]
  | irq => rw [(irqEnter_frame h).1]
  | fetch => rw [(device_frame (.inl rfl) h).1]
  | post j x => rw [(device_frame (.inr (.inl ⟨j, x, rfl⟩)) h).1]
  | postStep => rw [(device_frame (.inr (.inr rfl)) h).1]
  | chrOpen =>
    cases h
    rfl
  | chrRelease s | submit s req | alloc s size | mmap s i n | poll s =>
    obtain ⟨-, hs⟩ := Option.ite_none_right_eq_some.mp h
    cases hs
    rfl

/-- A call of SUBMIT stays as it is in every step but its own, unless it is woken up. -/
theorem step_submits (h : step st a = some st') (hk : k < st.nsubmits) (ha : ¬a.ofSubmit k) :
    st'.submits k = st.submits k ∨ st'.submits k = (st.submits k).wake := by
  cases a with
  | submit s req =>
    obtain ⟨-, hs⟩ := Option.ite_none_right_eq_some.mp h
    cases hs
    exact .inl (Function.update_of_ne (Nat.ne_of_lt hk) _ _)
  | submitStep l =>
    obtain ⟨-, hs⟩ := Option.ite_none_right_eq_some.mp h
    refine .inl ((submitStep_frame hs).2 k ?_)
    rintro rfl
    exact ha (.inl rfl)
  | submitFault l =>
    obtain ⟨-, hs⟩ := Option.ite_none_right_eq_some.mp h
    refine .inl ((submitFault_frame hs).2 k ?_)
    rintro rfl
    exact ha (.inr (.inl rfl))
  | submitSignal l =>
    obtain ⟨-, hs⟩ := Option.ite_none_right_eq_some.mp h
    refine .inl ((submitSignal_frame hs).2 k ?_)
    rintro rfl
    exact ha (.inr (.inr rfl))
  | readStep l =>
    obtain ⟨-, hs⟩ := Option.ite_none_right_eq_some.mp h
    exact .inl (by rw [(readStep_frame hs).1])
  | readFault l =>
    obtain ⟨-, hs⟩ := Option.ite_none_right_eq_some.mp h
    exact .inl (by rw [(readFault_frame hs).1])
  | allocStep l mem =>
    obtain ⟨-, hs⟩ := Option.ite_none_right_eq_some.mp h
    exact .inl (by rw [(allocStep_frame hs).2])
  | allocFault l =>
    obtain ⟨-, hs⟩ := Option.ite_none_right_eq_some.mp h
    exact .inl (by rw [(allocFault_frame hs).2])
  | releaseStep s => exact (releaseStep_frame h).2 k
  | isrStep => exact (isrStep_frame h).2 k
  | irq => exact .inl (by rw [(irqEnter_frame h).2])
  | fetch => exact .inl (by rw [(device_frame (.inl rfl) h).2])
  | post j x => exact .inl (by rw [(device_frame (.inr (.inl ⟨j, x, rfl⟩)) h).2])
  | postStep => exact .inl (by rw [(device_frame (.inr (.inr rfl)) h).2])
  | chrOpen =>
    cases h
    exact .inl rfl
  | chrRelease s | read s bytes | alloc s size | mmap s i n | poll s =>
    obtain ⟨-, hs⟩ := Option.ite_none_right_eq_some.mp h
    cases hs
    exact .inl rfl

/-- Calls of SUBMIT are never removed. -/
theorem nsubmits_le (h : step st a = some st') : st.nsubmits ≤ st'.nsubmits := by
  cases trans_of_step h with
  | submit s req hs => exact Nat.le_succ _
  | _ => exact Nat.le_refl _

private theorem allocStep_isr {mem : Option (Nat × Nat)} (h : allocStep st k mem = some st') :
    st'.isr = st.isr ∧ st'.cqHead = st.cqHead := by
  unfold allocStep at h
  dsimp only at h
  repeat' split at h
  all_goals cases h
  all_goals exact ⟨rfl, rfl⟩

private theorem readStep_isr (h : readStep st k = some st') :
    st'.isr = st.isr ∧ st'.cqHead = st.cqHead := by
  unfold readStep at h
  dsimp only at h
  repeat' split at h
  all_goals cases h
  all_goals exact ⟨rfl, rfl⟩

private theorem submit_isr (ha : a.ofSubmit k) (h : step st a = some st') :
    st'.isr = st.isr ∧ st'.cqHead = st.cqHead := by
  cases submitMove_of_step ha h
  all_goals exact ⟨rfl, rfl⟩

/-- The handler and its position in the completion ring are moved by the handler only. -/
theorem step_isr (h : step st a = some st') (hs : a ≠ .isrStep) (hi : a ≠ .irq) :
    st'.isr = st.isr ∧ st'.cqHead = st.cqHead := by
  cases a with
  | isrStep => exact absurd rfl hs
  | irq => exact absurd rfl hi
  | submitStep k => exact submit_isr (.inl rfl) h
  | submitFault k => exact submit_isr (.inr (.inl rfl)) h
  | submitSignal k => exact submit_isr (.inr (.inr rfl)) h
  | allocStep k mem =>
    obtain ⟨-, h⟩ := Option.ite_none_right_eq_some.mp h
    exact allocStep_isr h
  | readStep k =>
    obtain ⟨-, h⟩ := Option.ite_none_right_eq_some.mp h
    exact readStep_isr h
  | allocFault k =>
    obtain ⟨-, h⟩ := Option.ite_none_right_eq_some.mp h
    unfold allocFault at h
    dsimp only at h
    split at h
    all_goals cases h
    all_goals exact ⟨rfl, rfl⟩
  | readFault k =>
    obtain ⟨-, h⟩ := Option.ite_none_right_eq_some.mp h
    unfold readFault at h
    dsimp only at h
    split at h
    all_goals cases h
    all_goals exact ⟨rfl, rfl⟩
  | releaseStep s =>
    simp only [step, releaseStep] at h
    repeat' split at h
    all_goals cases h
    all_goals exact ⟨rfl, rfl⟩
  | fetch =>
    simp only [step, devFetch] at h
    split at h
    all_goals cases h
    all_goals exact ⟨rfl, rfl⟩
  | post j x =>
    simp only [step, devPost] at h
    split at h
    all_goals cases h
    all_goals exact ⟨rfl, rfl⟩
  | postStep =>
    simp only [step, devPostStep] at h
    split at h
    all_goals cases h
    all_goals exact ⟨rfl, rfl⟩
  | chrOpen =>
    cases h
    exact ⟨rfl, rfl⟩
  | chrRelease s | submit s req | alloc s size | read s bytes | mmap s i n | poll s =>
    obtain ⟨-, h⟩ := Option.ite_none_right_eq_some.mp h
    cases h
    exact ⟨rfl, rfl⟩

/-- A ring changes by a push to its session and by a pop of one of its readers. -/
theorem Trans.compRing_eq {s : Sid} (h : Trans st a st')
    (hpush : ¬(a = .isrStep ∧ st.isr.pc = .push ∧ st.isr.owner = s))
    (hpop : ∀ k, ¬(a = .readStep k ∧ (st.reads k).pc = .pop ∧ (st.reads k).sess = s ∧
      (st.reads k).copied < (st.reads k).nWant)) : st'.compRing s = st.compRing s := by
  cases h with
  | push hp =>
    refine Function.update_of_ne ?_ _ _
    rintro rfl
    exact hpush ⟨rfl, hp, rfl⟩
  | pop k out r hk hp hc hr =>
    refine Function.update_of_ne ?_ _ _
    rintro rfl
    exact hpop k ⟨rfl, hp, rfl, hc⟩
  | _ => rfl

end DmaAccel.Driver
