import DmaAccel.Routing.Outstanding

/-!
# The hard cap on the submission ring

Source `track-a/dma_accel_drv.c`, the admission loop of `dma_accel_ioc_submit`
(1643–1697). `total_inflight` is compared with the ring depth under `cmd_lock`, but a
submitter increments it only after it has dropped the lock. The locked check keeps the cap
as long as nobody passes it in the meantime: the counter it reads is then no smaller than
the number of unrouted commands.
-/

namespace DmaAccel.Driver

open DmaAccel.Base

/-- Nobody passes the locked check of the admission loop while another submitter is between
the registration of its entry and its increment of `total_inflight`. -/
def CapSerial (st : Sys) (a : Act) : Prop :=
  ∀ k ∈ a.submitCall, admits st k →
    ∀ l < st.nsubmits, (st.submits l).pc.uncountedTotal = false

instance (st : Sys) (a : Act) : Decidable (CapSerial st a) :=
  inferInstanceAs (Decidable (∀ k ∈ a.submitCall, _))

variable {st st' : Sys} {a : Act}

/-- No submitter is on its way to the device counter. -/
private theorem uncountedAll_eq_zero
    (h : ∀ l < st.nsubmits, (st.submits l).pc.uncountedTotal = false) : uncountedAll st = 0 := by
  apply callsBy_eq_zero.mpr
  rintro l hl ⟨hu, -⟩
  rw [h l hl] at hu
  cases hu

private theorem cap_step {ok : Sys → Act → Prop} (hr : ReachBy ok st)
    (hi : (ledgerOf st).outstanding (fun _ ↦ True) ≤ queueDepth) (hok : CapSerial st a)
    (h : Trans st a st') : (ledgerOf st').outstanding (fun _ ↦ True) ≤ queueDepth := by
  rcases h.outstanding (fun _ ↦ True) with hle | ⟨k, hk, _, hadm, he⟩
  · exact hle.trans hi
  · -- the check that has just passed counted every unrouted command
    have hcheck : st.totalInflight < queueDepth := hadm.2.1
    have hbound := outstanding_all hr
    rw [uncountedAll_eq_zero (hok k hk hadm)] at hbound
    rw [if_pos trivial] at he
    rw [he]
    omega

/-- The outstanding commands of a run in which nobody passes the check while another submitter
is on its way to the counter. -/
theorem outstanding_le_queueDepth (h : ReachBy CapSerial st) :
    (ledgerOf st).outstanding (fun _ ↦ True) ≤ queueDepth := by
  refine invariant_of_trans ?_ (fun _ _ _ hr hi hok ht ↦ cap_step hr hi hok ht) h
  rw [← length_unrouted (Reach.start : Reachable Sys.init)]
  exact Nat.zero_le _

/-- Where nobody passes the locked check while another submitter is between its registration
and its increment of `total_inflight`, at most `DMA_ACCEL_QUEUE_DEPTH` commands are admitted
and not routed. -/
theorem unrouted_le_queueDepth (h : ReachBy CapSerial st) :
    (unrouted st).length ≤ queueDepth := by
  rw [length_unrouted h]
  exact outstanding_le_queueDepth h

/-- Sixteen commands of one session, submitted one after the other, fill the ring. -/
theorem unrouted_le_queueDepth_full : ∃ st : Sys, ReachBy CapSerial st ∧
    (unrouted st).length = 16 ∧ (unrouted st).length ≤ queueDepth := by
  have hrun : (runChecked step (fun st a ↦ decide (CapSerial st a)) Sys.init
      (.chrOpen :: allocScript 0 0 ++
        (List.range 16).flatMap fun k ↦ submitScript 0 0 k 14)).any
      (fun st ↦ (unrouted st).length == 16) = true := by decide +kernel
  obtain ⟨st, hr, hp⟩ := Reach.exists_of_runChecked (fun _ _ hc ↦ of_decide_eq_true hc) hrun
  exact ⟨st, hr, eq_of_beq hp, unrouted_le_queueDepth hr⟩

/-- Seventeen submitters register one after the other before any of them increments the
counter: all seventeen pass the locked check. -/
theorem seventeen_unrouted : ¬∀ st : Sys, Reachable st → (unrouted st).length ≤ queueDepth := by
  have hrun : (run step Sys.init (.chrOpen :: allocScript 0 0 ++
      (List.range 17).flatMap fun k ↦ submitScript 0 0 k 5)).any
      (fun st ↦ (unrouted st).length == 17) = true := by decide +kernel
  obtain ⟨st, hr, hp⟩ := Reach.exists_of_run hrun
  intro hall
  have hle := hall st hr
  rw [eq_of_beq hp] at hle
  exact absurd hle (by decide)

end DmaAccel.Driver
