import DmaAccel.Driver.Transitions

/-!
# No stranded completion

Source `track-a/dma_accel_drv.c`: `dma_accel_irq_handler` (299–406) reads `IRQ_STATUS`,
acknowledges it, reads `CQ_TAIL` once and drains up to that value; `dma_accel_probe`
(1993–2013) sets `uapi_active` before the character device exists. The device writes the
entry, advances `CQ_TAIL` and raises a bit, in this order. Because the handler reads
`CQ_TAIL` after the acknowledgement, a completion it does not see has a bit that the
acknowledgement did not clear, or one that is still to be raised.
-/

namespace DmaAccel.Driver

open DmaAccel.Base

/-- The handler has read `CQ_TAIL` and not yet returned. -/
def IsrPc.draining : IsrPc → Bool
  | .idle | .ack | .readTail => false
  | _ => true

/-- `uapi_active` is set, the completion queue is empty and the handler, which reads `CQ_TAIL`
only after `uapi_active`, has not read it. -/
structure CqEmpty (st : Sys) : Prop where
  active : st.uapiActive = true
  empty : st.cqHead = st.regCqTail
  unread : st.isr.pc.draining = false

/-- The count `x` has caught up with `CQ_TAIL`, but for a completion whose bit the device is
about to raise. -/
def CaughtUp (st : Sys) (x : U32) : Prop :=
  x = st.regCqTail ∨ (∃ status, st.post = .raise status) ∧ x + 1 = st.regCqTail

/-- While no bit is set, the idle handler has consumed everything and the running one will. -/
structure DrainInv (st : Sys) : Prop where
  active : st.uapiActive = true
  idle : st.isr.pc = .idle → st.regIrqStatus = 0 → CaughtUp st st.cqHead
  running : st.isr.pc.draining = true → st.regIrqStatus = 0 → CaughtUp st st.isr.deviceCqTail
  drained : st.isr.pc = .writeHead → st.cqHead = st.isr.deviceCqTail

variable {st0 st st' : Sys} {a : Act}

/-- Raising a completion leaves a bit set. -/
theorem raise_ne_zero (r status : U32) :
    r ||| (if status = statusOk then irqDmaDone else irqDmaError) ≠ 0 := by
  intro h
  have hbit := (BitVec.or_eq_zero_iff.mp h).2
  split at hbit
  · exact absurd hbit (by decide)
  · exact absurd hbit (by decide)

namespace CaughtUp

variable {x : U32}

/-- An engine that has no bit to raise leaves no exception. -/
theorem eq (h : CaughtUp st x) (hp : ∀ status, st.post ≠ .raise status) :
    x = st.regCqTail := by
  rcases h with he | ⟨⟨status, hr⟩, _⟩
  · exact he
  · exact (hp status hr).elim

/-- The device writes an entry. -/
private theorem write (h : CaughtUp st x) (hp : st.post = .idle)
    (ht : st'.regCqTail = st.regCqTail) : CaughtUp st' x :=
  .inl ((h.eq (by simp [hp])).trans ht.symm)

/-- The device advances `CQ_TAIL`. -/
private theorem advance (h : CaughtUp st x) {status : U32} (hp : st.post = .advance status)
    (ht : st'.regCqTail = st.regCqTail + 1) (hr : st'.post = .raise status) :
    CaughtUp st' x := by
  refine .inr ⟨⟨status, hr⟩, ?_⟩
  rw [ht, h.eq (by simp [hp])]

end CaughtUp

namespace DrainInv

/-- A device step that sets no bit. -/
private theorem device (hi : DrainInv st) (hu : st'.uapiActive = st.uapiActive)
    (hisr : st'.isr = st.isr) (hh : st'.cqHead = st.cqHead)
    (hq : st'.regIrqStatus = st.regIrqStatus)
    (hx : ∀ x, CaughtUp st x → CaughtUp st' x) : DrainInv st' where
  active := hu.trans hi.active
  idle hp h0 := by
    rw [hisr] at hp
    rw [hq] at h0
    rw [hh]
    exact hx _ (hi.idle hp h0)
  running hp h0 := by
    rw [hisr] at hp ⊢
    rw [hq] at h0
    exact hx _ (hi.running hp h0)
  drained hp := by
    rw [hisr] at hp ⊢
    rw [hh]
    exact hi.drained hp

/-- A handler step inside the drain loop. -/
private theorem loop (hi : DrainInv st) (hp : st.isr.pc.draining = true)
    (hu : st'.uapiActive = st.uapiActive) (ht : st'.isr.deviceCqTail = st.isr.deviceCqTail)
    (hd : st'.isr.pc.draining = true) (hw : st'.isr.pc ≠ .writeHead)
    (hq : st'.regIrqStatus = st.regIrqStatus) (htail : st'.regCqTail = st.regCqTail)
    (hpost : st'.post = st.post) : DrainInv st' where
  active := hu.trans hi.active
  idle hidle _ := by
    rw [hidle] at hd
    cases hd
  running _ h0 := by
    rw [hq] at h0
    have hx := hi.running hp h0
    rw [ht]
    unfold CaughtUp at hx ⊢
    rw [htail, hpost]
    exact hx
  drained hwrite := (hw hwrite).elim

/-- Steps of the handler that change only its locals. -/
private theorem isrLocal (hi : DrainInv st) {h : Isr} (hl : IsrLocal st st.isr h) :
    DrainInv { st with isr := h } := by
  cases hl with
  | enter hp hq => exact ⟨hi.active, nofun, nofun, nofun⟩
  | readTail hp hu => exact ⟨hi.active, nofun, fun _ _ ↦ .inl rfl, nofun⟩
  | drained hp he => exact ⟨hi.active, nofun, fun _ h0 ↦ hi.running (hp ▸ rfl) h0, fun _ ↦ he⟩
  | unknown hp hf => exact hi.loop (hp ▸ rfl) rfl rfl rfl nofun rfl rfl rfl
  | wakeComp hp => exact hi.loop (hp ▸ rfl) rfl rfl rfl nofun rfl rfl rfl

/-- Every step keeps the handler up with the device. -/
theorem step (hi : DrainInv st) (h : Trans st a st') : DrainInv st' := by
  cases h with
  | isrLocal _ h' hl => exact hi.isrLocal hl
  | ack hp => exact ⟨hi.active, nofun, nofun, nofun⟩
  | complete hp hu =>
    rw [hi.active] at hu
    cases hu
  | drain hp hne => exact hi.loop (hp ▸ rfl) rfl rfl rfl nofun rfl rfl rfl
  | lookup i hp hf => exact hi.loop (hp ▸ rfl) rfl rfl rfl nofun rfl rfl rfl
  | push hp => exact hi.loop (hp ▸ rfl) rfl rfl rfl nofun rfl rfl rfl
  | decInflight hp => exact hi.loop (hp ▸ rfl) rfl rfl rfl nofun rfl rfl rfl
  | decTotal hp => exact hi.loop (hp ▸ rfl) rfl rfl rfl nofun rfl rfl rfl
  | wakeQuota hp => exact hi.loop (hp ▸ rfl) rfl rfl rfl nofun rfl rfl rfl
  | next hp => exact hi.loop (hp ▸ rfl) rfl rfl rfl nofun rfl rfl rfl
  | writeHead hp =>
    refine ⟨hi.active, ?_, nofun, nofun⟩
    intro _ h0
    have hx := hi.running (hp ▸ rfl) h0
    rw [← hi.drained hp] at hx
    exact hx
  | post j x d hp hd => exact hi.device rfl rfl rfl rfl fun _ hx ↦ hx.write hp rfl
  | postAdvance x hp => exact hi.device rfl rfl rfl rfl fun _ hx ↦ hx.advance hp rfl rfl
  | postRaise x hp =>
    exact ⟨hi.active, fun _ h0 ↦ (raise_ne_zero _ _ h0).elim,
      fun _ h0 ↦ (raise_ne_zero _ _ h0).elim, hi.drained⟩
  | _ => exact ⟨hi.active, hi.idle, hi.running, hi.drained⟩

/-- An empty queue is caught up with. -/
theorem start (h : CqEmpty st) : DrainInv st where
  active := h.active
  idle _ _ := .inl h.empty
  running hd _ := by
    rw [h.unread] at hd
    cases hd
  drained hp := by
    have := h.unread
    rw [hp] at this
    cases this

end DrainInv

/-- No stranded completion: whenever the handler is not running and `IRQ_STATUS` is zero, it
has consumed all completions, but for one whose bit the device is about to raise. -/
theorem no_stranded_completion (h0 : CqEmpty st0) (h : Reach step anyStep st0 st)
    (hidle : st.isr.pc = .idle) (hirq : st.regIrqStatus = 0) :
    st.cqHead = st.regCqTail ∨
      (∃ status, st.post = .raise status) ∧ st.cqHead + 1 = st.regCqTail := by
  have hinv : DrainInv st :=
    h.invariant (.start h0) fun _ _ _ _ hi _ hs ↦ hi.step (trans_of_step hs)
  exact hinv.idle hidle hirq

/-- Two completions share one interrupt; afterwards both have been consumed. -/
theorem no_stranded_completion_two : ∃ st : Sys, CqEmpty Sys.init ∧
    Reach step anyStep Sys.init st ∧ st.isr.pc = .idle ∧ st.regIrqStatus = 0 ∧
    st.cqHead = 2 ∧ st.post = .idle ∧ (st.cqHead = st.regCqTail ∨
      (∃ status, st.post = .raise status) ∧ st.cqHead + 1 = st.regCqTail) := by
  have hrun : (run step Sys.init (.chrOpen :: allocScript 0 0 ++ submitScript 0 0 0 14 ++
      submitScript 0 0 1 14 ++ [.fetch, .fetch, .post 1 statusOk, .postStep, .postStep,
        .post 0 statusOk, .postStep, .postStep, .irq] ++ List.replicate 20 .isrStep)).any
      (fun st ↦ decide (st.isr.pc = .idle ∧ st.regIrqStatus = 0 ∧ st.cqHead = 2 ∧
        st.post = .idle)) = true := by decide +kernel
  obtain ⟨st, hr, hp⟩ := Reach.exists_of_run hrun
  obtain ⟨hidle, hirq, hhead, hpost⟩ := of_decide_eq_true hp
  have hempty : CqEmpty Sys.init := ⟨rfl, rfl, rfl⟩
  exact ⟨st, hempty, hr, hidle, hirq, hhead, hpost,
    no_stranded_completion hempty hr hidle hirq⟩

/-- Between advancing `CQ_TAIL` and raising its bit, the device has a completion that neither
the handler nor `IRQ_STATUS` knows about. -/
theorem stranded_before_raise : ¬∀ st0 st : Sys, CqEmpty st0 → Reach step anyStep st0 st →
    st.isr.pc = .idle → st.regIrqStatus = 0 → st.cqHead = st.regCqTail := by
  have hrun : (run step Sys.init (.chrOpen :: allocScript 0 0 ++ submitScript 0 0 0 14 ++
      [.fetch, .post 0 statusOk, .postStep])).any (fun st ↦ decide (st.isr.pc = .idle ∧
        st.regIrqStatus = 0 ∧ st.cqHead ≠ st.regCqTail)) = true := by decide +kernel
  obtain ⟨st, hr, hp⟩ := Reach.exists_of_run hrun
  obtain ⟨hidle, hirq, hne⟩ := of_decide_eq_true hp
  intro hall
  exact hne (hall Sys.init st ⟨rfl, rfl, rfl⟩ hr hidle hirq)

end DmaAccel.Driver
