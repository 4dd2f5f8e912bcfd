import DmaAccel.Routing.Calls
import DmaAccel.Routing.Sessions

/-!
# No lost wake-up in blocking admission

Source `track-a/dma_accel_drv.c`: `dma_accel_admission_likely_ok` (1526–1534), the admission
loop of `dma_accel_ioc_submit` (1647–1691), the decrements and wakes of
`dma_accel_irq_handler` (360–374) and the start of `dma_accel_chr_release` (1352–1366). The
condition a submitter sleeps on becomes true only through a decrement, and every decrement
is followed by a wake of `quota_wq`. Between the two the wake is owed.
-/

namespace DmaAccel.Driver

open DmaAccel.Base

/-- Some party has decremented a counter and has yet to wake `quota_wq`: the handler between
its first decrement and its wake, or a session at the start of its `release`. -/
def WakeOwed (st : Sys) : Prop :=
  st.isr.pc = .decTotal ∨ st.isr.pc = .wakeQuota ∨ ∃ s, st.phase s = .relWake

variable {st st' : Sys} {a : Act}

/-- The condition of a sleeper depends on the three counters only, and on each one way. -/
private theorem likelyOk_mono {s : Sid} (hok : admissionLikelyOk st' s = true)
    (ha : st.activeSessions ≤ st'.activeSessions) (ht : st.totalInflight ≤ st'.totalInflight)
    (hf : st.inflight s ≤ st'.inflight s) : admissionLikelyOk st s = true := by
  have hquota := quotaOf_anti ha
  simp only [admissionLikelyOk, Bool.and_eq_true, decide_eq_true_eq] at hok ⊢
  omega

/-- The condition of a sleeper becomes true only where a wake is owed for it. -/
private theorem Trans.likelyOk (h : Trans st a st') {s : Sid}
    (hok : admissionLikelyOk st' s = true) :
    admissionLikelyOk st s = true ∨ WakeOwed st' := by
  cases h with
  | chrOpen =>
    refine .inl (likelyOk_mono hok ?_ (Int.le_refl _) (Int.le_refl _))
    change st.activeSessions ≤ st.activeSessions + 1
    omega
  | incInflight k hk hp =>
    refine .inl (likelyOk_mono hok (Int.le_refl _) (Int.le_refl _) ?_)
    change st.inflight s ≤ Function.update st.inflight _ _ s
    rw [Function.update_apply]
    split
    · next he => rw [he]; omega
    · exact Int.le_refl _
  | incTotal k hk hp =>
    refine .inl (likelyOk_mono hok (Int.le_refl _) ?_ (Int.le_refl _))
    change st.totalInflight ≤ st.totalInflight + 1
    omega
  | chrRelease r hr hq =>
    exact .inr (.inr (.inr ⟨r, Function.update_self ..⟩))
  | decInflight hp => exact .inr (.inl rfl)
  | decTotal hp => exact .inr (.inr (.inl rfl))
  | _ => exact .inl hok

/-- A wake that is owed stays owed until it leaves nobody asleep. -/
private theorem Trans.wakeOwed (h : Trans st a st') (hs : SessInv st) (hw : WakeOwed st) :
    WakeOwed st' ∨ ∀ k, (st'.submits k).pc ≠ .asleep := by
  have hwake (k : Nat) : (st.submits k).wake.pc ≠ .asleep := by
    unfold Submit.wake
    split
    · nofun
    · next hp => exact hp
  -- the handler and the releasing sessions stand still, or have just decremented
  have hstay (hisr : st'.isr.pc = st.isr.pc ∨ st'.isr.pc = .decTotal ∨ st'.isr.pc = .wakeQuota)
      (hphase : ∀ s, st.phase s = .relWake → st'.phase s = .relWake) : WakeOwed st' := by
    rcases hisr with he | he | he
    · rcases hw with hp | hp | ⟨s, hp⟩
      · exact .inl (he.trans hp)
      · exact .inr (.inl (he.trans hp))
      · exact .inr (.inr ⟨s, hphase s hp⟩)
    · exact .inl he
    · exact .inr (.inl he)
  have hother {r : Sid} {p : Phase} (hr : st.phase r ≠ .relWake) (s : Sid)
      (hp : st.phase s = .relWake) : Function.update st.phase r p s = .relWake := by
    rw [Function.update_of_ne, hp]
    rintro rfl
    exact hr hp
  have hisr (hp : st.isr.pc ≠ .decTotal ∧ st.isr.pc ≠ .wakeQuota)
      (hphase : st'.phase = st.phase) : WakeOwed st' := by
    rcases hw with hd | hd | ⟨s, hd⟩
    · exact (hp.1 hd).elim
    · exact (hp.2 hd).elim
    · exact .inr (.inr ⟨s, hphase ▸ hd⟩)
  cases h with
  | chrOpen =>
    refine .inl (hstay (.inl rfl) (hother ?_))
    rw [hs.fresh st.nsess (Nat.le_refl _)]
    nofun
  | chrRelease r hr hq => exact .inl (hstay (.inl rfl) (hother (by simp [hr])))
  | relPoll r hr h0 => exact .inl (hstay (.inl rfl) (hother (by simp [hr])))
  | relFree r hr => exact .inl (hstay (.inl rfl) (hother (by simp [hr])))
  | relKfree r hr => exact .inl (hstay (.inl rfl) (hother (by simp [hr])))
  | relWake r hr => exact .inr hwake
  | wakeQuota hp => exact .inr hwake
  | decInflight hp => exact .inl (.inl rfl)
  | decTotal hp => exact .inl (.inr (.inl rfl))
  | isrLocal _ h' hl => exact .inl (hisr (by cases hl <;> simp_all) rfl)
  | ack hp => exact .inl (hisr (by simp [hp]) rfl)
  | complete hp => exact .inl (hisr (by simp [hp]) rfl)
  | drain hp => exact .inl (hisr (by simp [hp]) rfl)
  | lookup i hp hi => exact .inl (hisr (by simp [hp]) rfl)
  | push hp => exact .inl (hisr (by simp [hp]) rfl)
  | next hp => exact .inl (hisr (by simp [hp]) rfl)
  | writeHead hp => exact .inl (hisr (by simp [hp]) rfl)
  | _ => exact .inl (hstay (.inl rfl) fun _ hp ↦ hp)

/-- A sleeper was asleep before, or has just found its condition false. -/
private theorem Trans.asleep (h : Trans st a st') {k : Nat}
    (hk : (st'.submits k).pc = .asleep) :
    ((st.submits k).pc = .asleep ∧ (st'.submits k).sess = (st.submits k).sess) ∨
      admissionLikelyOk st' (st'.submits k).sess = false := by
  have hcell {l : Nat} {x : Submit} (hs : st'.submits = Function.update st.submits l x)
      (hx : x.pc = .asleep → admissionLikelyOk st' x.sess = false) :
      ((st.submits k).pc = .asleep ∧ (st'.submits k).sess = (st.submits k).sess) ∨
        admissionLikelyOk st' (st'.submits k).sess = false := by
    by_cases he : k = l
    · subst he
      rw [hs, Function.update_self] at hk ⊢
      exact .inr (hx hk)
    · rw [hs, Function.update_of_ne he] at hk ⊢
      exact .inl ⟨hk, rfl⟩
  have hwake (hs : st'.submits = fun l ↦ (st.submits l).wake) :
      (st.submits k).pc = .asleep ∧ (st'.submits k).sess = (st.submits k).sess := by
    rw [hs] at hk ⊢
    dsimp only [Submit.wake] at hk
    split at hk
    · cases hk
    · next hne => exact (hne hk).elim
  cases h with
  | submit s req ho => exact hcell rfl nofun
  | submitLocal _ l c hl hloc =>
    refine hcell rfl fun hx ↦ ?_
    cases hloc with
    | sleep hp hno => exact hno
    | _ => cases hx
  | newId l hl hp => exact hcell rfl nofun
  | register l j hl hp => exact hcell rfl nofun
  | incInflight l hl hp => exact hcell rfl nofun
  | incTotal l hl hp => exact hcell rfl nofun
  | enqIdx l hl hp => exact hcell rfl nofun
  | enqStore l hl hp => exact hcell rfl nofun
  | enqWriteTail l hl hp => exact hcell rfl nofun
  | enqDoorbell l hl hp => exact hcell rfl nofun
  | relWake r hr => exact .inl (hwake rfl)
  | wakeQuota hp => exact .inl (hwake rfl)
  | _ => exact .inl ⟨hk, rfl⟩

/-- Whoever sleeps although its condition holds is owed a wake. -/
theorem attended_step (hs : SessInv st) (h : Trans st a st')
    (hi : ∀ k, (st.submits k).pc = .asleep →
      admissionLikelyOk st (st.submits k).sess = true → WakeOwed st) (k : Nat)
    (hk : (st'.submits k).pc = .asleep)
    (hok : admissionLikelyOk st' (st'.submits k).sess = true) : WakeOwed st' := by
  rcases h.asleep hk with ⟨hp, hsess⟩ | hno
  · rcases h.likelyOk hok with hold | hw
    · rw [hsess] at hold
      rcases h.wakeOwed hs (hi k hp hold) with hw | hnone
      · exact hw
      · exact (hnone k hk).elim
    · exact hw
  · rw [hno] at hok
    cases hok

/-- No lost wake-up: while a submitter is asleep on `quota_wq` and its admission would be
likely to succeed, some party still has its wake of `quota_wq` to execute. -/
theorem no_lost_wakeup (h : Reachable st) (k : Nat) (hk : (st.submits k).pc = .asleep)
    (hok : admissionLikelyOk st (st.submits k).sess = true) : WakeOwed st := by
  have hinv : ∀ k, (st.submits k).pc = .asleep →
      admissionLikelyOk st (st.submits k).sess = true → WakeOwed st := by
    refine invariant_of_trans (I := fun st ↦ ∀ k, (st.submits k).pc = .asleep →
      admissionLikelyOk st (st.submits k).sess = true → WakeOwed st) nofun ?_ h
    intro st a st' hr hi _ ht k
    exact attended_step (sessInv hr) ht hi k
  exact hinv k hk hok

/-- Session 0 of two has filled its share and sleeps on a ninth SUBMIT; the handler has
decremented `inflight` for one of its commands and is on its way to the wake. -/
theorem no_lost_wakeup_midway : ∃ st : Sys, Reachable st ∧ (st.submits 8).pc = .asleep ∧
    admissionLikelyOk st (st.submits 8).sess = true ∧ WakeOwed st := by
  have hrun : (run step Sys.init (.chrOpen :: .chrOpen :: allocScript 0 0 ++
      (List.range 8).flatMap (fun k ↦ submitScript 0 0 k 14) ++ submitScript 0 0 8 6 ++
      completeScript 0 6)).any (fun st ↦ decide ((st.submits 8).pc = .asleep ∧
        admissionLikelyOk st (st.submits 8).sess = true)) = true := by decide +kernel
  obtain ⟨st, hr, hp⟩ := Reach.exists_of_run hrun
  obtain ⟨hk, hok⟩ := of_decide_eq_true hp
  exact ⟨st, hr, hk, hok, no_lost_wakeup hr 8 hk hok⟩

end DmaAccel.Driver
