import DmaAccel.Routing.Accounting

/-!
# Lifetime of a session against the interrupt handler

Source `track-a/dma_accel_drv.c`: the routing steps of `dma_accel_irq_handler` (342–374) and
`dma_accel_chr_release` (1346–1401). `release` polls `inflight` down to zero before it frees
the session. That covers the handler's push and decrement, which come before the counter
reaches zero, but not its last step on the session, the wake of `comp_wq`, which comes after.
-/

namespace DmaAccel.Driver

open DmaAccel.Base

/-- `release` has seen `inflight` at zero. -/
def Phase.polled : Phase → Bool
  | .relFree | .relKfree | .freed => true
  | _ => false

/-- The handler has decremented `owner->inflight` and has not yet woken `owner->comp_wq`. -/
def IsrPc.wakePending : IsrPc → Bool
  | .decTotal | .wakeQuota | .wakeComp => true
  | _ => false

/-- `kfree` of a session waits for a handler that is about to wake its readers. -/
def KfreeWaits (st : Sys) (a : Act) : Prop :=
  st.isr.pc.wakePending = true → a = .releaseStep st.isr.owner →
    st.phase st.isr.owner ≠ .relKfree

instance (st : Sys) (a : Act) : Decidable (KfreeWaits st a) :=
  inferInstanceAs (Decidable (_ → _ → _))

variable {st st' : Sys} {a : Act}

private theorem opened_not_polled {s : Sid} (ho : st.phase s = .opened) :
    (st.phase s).polled = false := ho ▸ rfl

/-- A session enters the polled phases when `release` reads a zero. -/
private theorem Trans.polled (h : Trans st a st') {s : Sid} (hp : (st'.phase s).polled = true) :
    (st.phase s).polled = true ∨ st.phase s = .relPoll ∧ ¬st.inflight s > 0 := by
  cases h.phaseMove s with
  | keep he => exact .inl (he ▸ hp)
  | opens _ _ he => rw [he] at hp; cases hp
  | closes _ _ _ he => rw [he] at hp; cases hp
  | wakes _ he => rw [he] at hp; cases hp
  | polls hr h0 _ => exact .inr ⟨hr, h0⟩
  | frees hr _ => exact .inl (hr ▸ rfl)
  | kfrees _ hr _ => exact .inl (hr ▸ rfl)

/-- The counter of a session that is not open falls only for a completion in hand. -/
private theorem Trans.inflight_closed (h : Trans st a st') (hc : CallInv st) {s : Sid}
    (hs : st.phase s ≠ .opened) (hr : removedOf st s = 0) : st'.inflight s = st.inflight s := by
  cases h with
  | incInflight k hk hp =>
    have hne : s ≠ (st.submits k).sess := by
      rintro rfl
      exact hs (hc.opened k (hp ▸ rfl))
    exact Function.update_of_ne hne _ _
  | decInflight hp =>
    have hne : s ≠ st.isr.owner := by
      rintro rfl
      simp [removedOf, handBy, hp, IsrPc.undrained] at hr
    exact Function.update_of_ne hne _ _
  | _ => rfl

/-- A session whose `release` has seen zero is not open. -/
theorem polled_not_opened {s : Sid} (hp : (st.phase s).polled = true) :
    st.phase s ≠ .opened := by
  intro ho
  rw [opened_not_polled ho] at hp
  cases hp

/-- Once `release` has seen zero, the counter stays at zero. -/
theorem inflight_polled {ok : Sys → Act → Prop} (h : ReachBy ok st) (s : Sid) :
    (st.phase s).polled = true → st.inflight s = 0 := by
  refine invariant_of_trans (I := fun st ↦ (st.phase s).polled = true → st.inflight s = 0)
    (fun _ ↦ rfl) ?_ h
  intro st a st' hr hi _ ht hp
  have h0 : st.inflight s = 0 := by
    rcases ht.polled hp with hq | ⟨_, hle⟩
    · exact hi hq
    · have := inflight_nonneg hr s
      omega
  have hne : st.phase s ≠ .opened := by
    rcases ht.polled hp with hq | ⟨hq, _⟩
    · exact polled_not_opened hq
    · simp [hq]
  rw [ht.inflight_closed (callInv hr) hne (drained hr hne h0).2, h0]

/-- A completion in the handler's hand, not yet counted off, keeps its session unpolled. -/
private theorem owner_not_polled {ok : Sys → Act → Prop} (h : ReachBy ok st)
    (hp : st.isr.pc.undrained = true) : (st.phase st.isr.owner).polled = false := by
  by_contra hq
  rw [Bool.not_eq_false] at hq
  have := (drained h (polled_not_opened hq) (inflight_polled h _ hq)).2
  simp [removedOf, handBy, hp] at this

/-- A handler about to wake the readers of a session finds it not yet freed. -/
private theorem wakePending_step {ok : Sys → Act → Prop} (hr : ReachBy ok st)
    (hi : st.isr.pc.wakePending = true → st.phase st.isr.owner ≠ .freed)
    (hok : KfreeWaits st a) (h : Trans st a st') (hp : st'.isr.pc.wakePending = true) :
    st'.phase st'.isr.owner ≠ .freed := by
  -- the handler stands still: only `kfree` could free the session under it
  have hstill (hisr : st'.isr = st.isr) : st'.phase st'.isr.owner ≠ .freed := by
    rw [hisr] at hp ⊢
    cases h.phaseMove st.isr.owner with
    | keep he => rw [he]; exact hi hp
    | opens _ _ he => rw [he]; exact nofun
    | closes _ _ _ he => rw [he]; exact nofun
    | wakes _ he => rw [he]; exact nofun
    | polls _ _ he => rw [he]; exact nofun
    | frees _ he => rw [he]; exact nofun
    | kfrees ha hk _ => exact (hok hp ha hk).elim
  cases h with
  | decInflight hd =>
    intro hf
    have := owner_not_polled hr (hd ▸ rfl)
    rw [show st.phase st.isr.owner = .freed from hf] at this
    cases this
  | isrLocal _ h' hl => cases hl <;> cases hp
  | ack hd => cases hp
  | complete hd => cases hp
  | drain hd => cases hp
  | lookup i hd hf => cases hp
  | push hd => cases hp
  | decTotal hd => exact hi (hd ▸ rfl)
  | wakeQuota hd => exact hi (hd ▸ rfl)
  | next hd => cases hp
  | writeHead hd => cases hp
  | _ => exact hstill rfl

/-- Where `kfree` waits for the wake, the handler never touches a freed session. -/
theorem touches_not_freed (h : ReachBy KfreeWaits st) (s : Sid)
    (ht : st.isr.touches = some s) : st.phase s ≠ .freed := by
  have hwake : st.isr.pc.wakePending = true → st.phase st.isr.owner ≠ .freed :=
    invariant_of_trans (I := fun st ↦ st.isr.pc.wakePending = true →
      st.phase st.isr.owner ≠ .freed) nofun
      (fun _ _ _ hr hi hok ht ↦ wakePending_step hr hi hok ht) h
  have hhand (hu : st.isr.pc.undrained = true) : st.phase st.isr.owner ≠ .freed := by
    intro hf
    have := owner_not_polled h hu
    rw [hf] at this
    cases this
  unfold Isr.touches at ht
  split at ht
  · next hp => cases ht; exact hhand (hp ▸ rfl)
  · next hp => cases ht; exact hhand (hp ▸ rfl)
  · next hp => cases ht; exact hwake (hp ▸ rfl)
  · cases ht

/-- Session 0 submits one command and the handler routes it up to the decrement of
`inflight`; `release` may then run all its steps. -/
def releaseRaceScript : List Act :=
  .chrOpen :: allocScript 0 0 ++ submitScript 0 0 0 14 ++ completeScript 0 6 ++
    [.chrRelease 0, .releaseStep 0, .releaseStep 0, .releaseStep 0]

/-- The handler is about to wake a session whose `release` has come as far as `kfree`. -/
theorem touches_not_freed_waiting : ∃ st : Sys, ReachBy KfreeWaits st ∧
    st.isr.touches = some 0 ∧ st.phase 0 = .relKfree ∧ st.phase 0 ≠ .freed := by
  have hrun : (runChecked step (fun st a ↦ decide (KfreeWaits st a)) Sys.init
      (releaseRaceScript ++ [.isrStep, .isrStep])).any
      (fun st ↦ decide (st.isr.touches = some 0 ∧ st.phase 0 = .relKfree)) = true := by
    decide +kernel
  obtain ⟨st, hr, hp⟩ := Reach.exists_of_runChecked (fun _ _ hc ↦ of_decide_eq_true hc) hrun
  obtain ⟨ht, hk⟩ := of_decide_eq_true hp
  exact ⟨st, hr, ht, hk, touches_not_freed hr 0 ht⟩

/-- `release` polls zero, frees and returns between the handler's decrement of `inflight`
and its wake of `comp_wq`: the wake touches freed memory. -/
theorem wake_after_kfree : ¬∀ (st : Sys) (s : Sid), Reachable st → st.isr.touches = some s →
    st.phase s ≠ .freed := by
  have hrun : (run step Sys.init
      (releaseRaceScript ++ [.releaseStep 0, .isrStep, .isrStep])).any
      (fun st ↦ decide (st.isr.touches = some 0 ∧ st.phase 0 = .freed)) = true := by
    decide +kernel
  obtain ⟨st, hr, hp⟩ := Reach.exists_of_run hrun
  obtain ⟨ht, hf⟩ := of_decide_eq_true hp
  intro hall
  exact hall st 0 hr ht hf

end DmaAccel.Driver
