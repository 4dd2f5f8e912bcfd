import DmaAccel.Routing.Outstanding
import DmaAccel.Routing.Sessions

/-!
# The fair share of one session

Source `track-a/dma_accel_drv.c`, the admission loop of `dma_accel_ioc_submit` (1647–1691),
`dma_accel_chr_open` and `dma_accel_chr_release` (1320–1366). The share is computed from
`active_sessions` before `cmd_lock` is taken, and `inflight` is incremented after the lock
is dropped. The locked check keeps the share of an admission whose divisor has not been
outgrown since it was read, and which no other submitter of the session overlaps on its way
to the counter.
-/

namespace DmaAccel.Driver

open DmaAccel.Base

variable {st st' : Sys} {a : Act}

/-- A submitter's own session is open, so the divisor is positive. -/
theorem active_pos {ok : Sys → Act → Prop} (h : ReachBy ok st) {k : Nat}
    (hk : (st.submits k).pc.finished = false) : 1 ≤ st.activeSessions := by
  have hs := sessInv h
  have ho := (callInv h).opened k hk
  have hpos : 0 < openCount st :=
    count_pos_iff.mpr ⟨_, Finset.mem_range.mpr (hs.lt (by simp [ho])), ho⟩
  have := hs.active
  omega

/-- A call about to be checked has just read the divisor, or was there already. -/
theorem Trans.admission_cases (h : Trans st a st') {k : Nat}
    (hk : (st'.submits k).pc = .admission) :
    ((st'.submits k).active = st.activeSessions ∧
      (st'.submits k).quota = quotaOf st.activeSessions) ∨
      (st.submits k).pc = .admission ∧ st'.submits k = st.submits k := by
  have hcell {l : Nat} {x : Submit} (hs : st'.submits = Function.update st.submits l x)
      (hx : x.pc = .admission →
        x.active = st.activeSessions ∧ x.quota = quotaOf st.activeSessions) :
      ((st'.submits k).active = st.activeSessions ∧
        (st'.submits k).quota = quotaOf st.activeSessions) ∨
        (st.submits k).pc = .admission ∧ st'.submits k = st.submits k := by
    rw [hs] at hk ⊢
    by_cases he : k = l
    · subst he
      rw [Function.update_self] at hk ⊢
      exact .inl (hx hk)
    · rw [Function.update_of_ne he] at hk ⊢
      exact .inr ⟨hk, rfl⟩
  have hwake (hs : st'.submits = fun l ↦ (st.submits l).wake) :
      (st.submits k).pc = .admission ∧ st'.submits k = st.submits k := by
    rw [hs] at hk ⊢
    dsimp only [Submit.wake] at hk ⊢
    split at hk
    · cases hk
    · next hne => rw [if_neg hne]; exact ⟨hk, rfl⟩
  cases h with
  | submit s req ho => exact hcell rfl nofun
  | submitLocal _ l c hl hloc =>
    refine hcell rfl fun hx ↦ ?_
    cases hloc <;> first | exact ⟨rfl, rfl⟩ | cases hx
  | newId l hl hp => exact hcell rfl nofun
  | register l j hl hp => exact hcell rfl nofun
  | incInflight l hl hp => exact hcell rfl nofun
  | incTotal l hl hp => exact hcell rfl nofun
  | enqIdx l hl hp => exact hcell rfl nofun
  | enqStore l hl hp => exact hcell rfl nofun
  | enqWriteTail l hl hp => exact hcell rfl nofun
  | enqDoorbell l hl hp => exact hcell rfl nofun
  | relWake r hr => exact .inr (hwake rfl)
  | wakeQuota hp => exact .inr (hwake rfl)
  | _ => exact .inr ⟨hk, rfl⟩

/-- A call about to be checked carries the quota of the divisor it read. -/
theorem quota_eq {ok : Sys → Act → Prop} (h : ReachBy ok st) {k : Nat}
    (hk : (st.submits k).pc = .admission) :
    (st.submits k).quota = quotaOf (st.submits k).active := by
  have hinv := invariant_of_trans (I := fun st ↦ ∀ k, (st.submits k).pc = .admission →
    (st.submits k).quota = quotaOf (st.submits k).active) nofun ?_ h
  · exact hinv k hk
  · intro st a st' _ hi _ ht k hk
    rcases ht.admission_cases hk with ⟨ha, hq⟩ | ⟨hp, he⟩
    · rw [ha, hq]
    · rw [he]
      exact hi k hp

/-- Whoever passes the locked check does so with a divisor that `active_sessions` has not
outgrown since it was read, and while no other submitter of its session is between the
registration of its entry and its increment of `inflight`. -/
def ShareSerial (st : Sys) (a : Act) : Prop :=
  ∀ k ∈ a.submitCall, admits st k → st.activeSessions ≤ (st.submits k).active ∧
    ∀ l < st.nsubmits, (st.submits l).sess = (st.submits k).sess →
      (st.submits l).pc.uncounted = false

instance (st : Sys) (a : Act) : Decidable (ShareSerial st a) :=
  inferInstanceAs (Decidable (∀ k ∈ a.submitCall, _))

/-- An admission of this kind, in whatever run, leaves its session with at most
`ceil (16 / active_sessions)` commands admitted and not routed. -/
theorem unroutedOf_le_share (h : Reachable st) (hok : ShareSerial st a)
    (hs : step st a = some st') :
    ∀ k ∈ a.submitCall, admits st k →
      1 ≤ st.activeSessions ∧
      ((unroutedOf st' (st.submits k).sess).length : Int) ≤
        divRoundUp queueDepth st.activeSessions := by
  intro k hk hadm
  have hpos : 1 ≤ st.activeSessions := active_pos h (k := k) (hadm.1 ▸ rfl)
  refine ⟨hpos, ?_⟩
  obtain ⟨hactive, hserial⟩ := hok k hk hadm
  -- the counter the check reads misses nobody, and the quota it reads is no larger than now
  have hzero : uncountedOf st (st.submits k).sess = 0 := by
    apply callsBy_eq_zero.mpr
    rintro l hl ⟨hu, he⟩
    rw [hserial l hl he] at hu
    cases hu
  have hquota : (st.submits k).quota ≤ divRoundUp queueDepth st.activeSessions := by
    rw [quota_eq h hadm.1, ← quotaOf_eq hpos]
    exact quotaOf_anti hactive
  have hcheck : st.inflight (st.submits k).sess < (st.submits k).quota := hadm.2.2.1
  have hbound := outstanding_sess h (st.submits k).sess
  rw [length_unroutedOf (.next h trivial hs)]
  rcases (trans_of_step hs).outstanding (· = (st.submits k).sess) with hle | ⟨l, -, -, -, he⟩
  · omega
  · rw [he]
    split <;> omega

/-- Session 0 of two fills its share of eight. -/
theorem unroutedOf_le_share_full : ∃ st st' : Sys, Reachable st ∧
    ShareSerial st (.submitStep 7) ∧ step st (.submitStep 7) = some st' ∧ admits st 7 ∧
    st.activeSessions = 2 ∧ (unroutedOf st' 0).length = 8 ∧
    ((unroutedOf st' (st.submits 7).sess).length : Int) ≤ divRoundUp queueDepth 2 := by
  have hrun : (run step Sys.init
      (.chrOpen :: .chrOpen :: allocScript 0 0 ++
        (List.range 7).flatMap (fun k ↦ submitScript 0 0 k 14) ++ submitScript 0 0 7 4)).any
      (fun st ↦ decide (ShareSerial st (.submitStep 7) ∧ admits st 7 ∧
        st.activeSessions = 2) &&
        (step st (.submitStep 7)).any fun st' ↦ (unroutedOf st' 0).length == 8) = true := by
    decide +kernel
  obtain ⟨st, hr, hp⟩ := Reach.exists_of_run hrun
  rw [Bool.and_eq_true] at hp
  obtain ⟨hok, hadm, hact⟩ := of_decide_eq_true hp.1
  obtain ⟨st', hs, hlen⟩ := (Option.any_eq_true _ _).mp hp.2
  have hshare := (unroutedOf_le_share hr hok hs 7 rfl hadm).2
  rw [hact] at hshare
  exact ⟨st, st', hr, hok, hs, hadm, hact, eq_of_beq hlen, hshare⟩

/-- With sixteen open sessions the share is one, but two threads of session 0 register one
after the other before either increments `inflight`. -/
theorem share_overrun : ¬∀ (st st' : Sys) (k : Nat), Reachable st → admits st k →
    step st (.submitStep k) = some st' →
    ((unroutedOf st' (st.submits k).sess).length : Int) ≤
      divRoundUp queueDepth st.activeSessions := by
  have hrun : (run step Sys.init (List.replicate 16 .chrOpen ++ allocScript 0 0 ++
      submitScript 0 0 0 5 ++ submitScript 0 0 1 4)).any
      (fun st ↦ decide (admits st 1 ∧ st.activeSessions = 16) &&
        (step st (.submitStep 1)).any fun st' ↦
          (unroutedOf st' (st.submits 1).sess).length == 2) = true := by
    decide +kernel
  obtain ⟨st, hr, hp⟩ := Reach.exists_of_run hrun
  rw [Bool.and_eq_true] at hp
  obtain ⟨hadm, hact⟩ := of_decide_eq_true hp.1
  obtain ⟨st', hs, hlen⟩ := (Option.any_eq_true _ _).mp hp.2
  intro hall
  have hle := hall st st' 1 hr hadm hs
  rw [eq_of_beq hlen, hact] at hle
  exact absurd hle (by decide)

end DmaAccel.Driver
