import DmaAccel.Base.Tally
import DmaAccel.Driver.Transitions

/-!
# Open sessions

Source `track-a/dma_accel_drv.c`, `dma_accel_chr_open` and `dma_accel_chr_release`
(1320–1366): `active_sessions` counts the sessions that are open and not yet in `release`,
and a session number that has not been handed out is closed.
-/

namespace DmaAccel.Driver

open DmaAccel.Base

/-- Number of open sessions. -/
def openCount (st : Sys) : Nat := count (· = Phase.opened) (Finset.range st.nsess) st.phase

/-- `active_sessions` counts the open sessions; a session not opened yet is closed. -/
structure SessInv (st : Sys) : Prop where
  active : st.activeSessions = openCount st
  fresh : ∀ s, st.nsess ≤ s → st.phase s = .closed

variable {st st' : Sys} {a : Act}

namespace SessInv

/-- A session that has left the closed phase has been opened. -/
theorem lt (hi : SessInv st) {s : Sid} (hs : st.phase s ≠ .closed) : s < st.nsess := by
  by_contra h
  exact hs (hi.fresh s (Nat.not_lt.mp h))

/-- One session moves on from a phase other than closed. -/
private theorem move (hi : SessInv st) {r : Sid} {p : Phase} (hr : st.phase r ≠ .closed)
    (hp : st'.phase = Function.update st.phase r p) (hn : st'.nsess = st.nsess)
    (ha : st'.activeSessions + (if st.phase r = .opened then 1 else 0) =
      st.activeSessions + (if p = .opened then 1 else 0)) : SessInv st' where
  active := by
    have hcount := count_update (p := (· = Phase.opened)) (f := st.phase)
      (Finset.mem_range.mpr (hi.lt hr)) p
    have := hi.active
    unfold openCount at this ⊢
    rw [hp, hn]
    generalize count (· = Phase.opened) (Finset.range st.nsess)
      (Function.update st.phase r p) = m at hcount ⊢
    by_cases hr' : st.phase r = .opened <;> by_cases hp' : p = .opened
    all_goals simp only [hr', hp', ite_true, ite_false] at ha hcount
    all_goals omega
  fresh s hs := by
    rw [hn] at hs
    rw [hp, Function.update_of_ne (Nat.ne_of_gt (Nat.lt_of_lt_of_le (hi.lt hr) hs))]
    exact hi.fresh s hs

/-- Every step keeps the divisor in step with the open sessions. -/
theorem step (hi : SessInv st) (h : Trans st a st') : SessInv st' := by
  cases h with
  | chrOpen =>
    constructor
    · change st.activeSessions + 1 = ((openCount (Driver.chrOpen st) : Nat) : Int)
      have : openCount (Driver.chrOpen st) = openCount st + 1 := count_range_succ _
      rw [this, hi.active]
      rfl
    · intro s hs
      change Function.update st.phase st.nsess .opened s = .closed
      change st.nsess + 1 ≤ s at hs
      rw [Function.update_of_ne (Nat.ne_of_gt hs)]
      exact hi.fresh s (Nat.le_of_succ_le hs)
  | chrRelease r hr hq => exact hi.move (by simp [hr]) rfl rfl (by simp [hr, chrRelease])
  | relWake r hr => exact hi.move (by simp [hr]) rfl rfl (by simp [hr])
  | relPoll r hr => exact hi.move (by simp [hr]) rfl rfl (by simp [hr])
  | relFree r hr => exact hi.move (by simp [hr]) rfl rfl (by simp [hr])
  | relKfree r hr => exact hi.move (by simp [hr]) rfl rfl (by simp [hr])
  | _ => exact ⟨hi.active, hi.fresh⟩

/-- No session is open before the first `open`. -/
theorem init : SessInv Sys.init := ⟨rfl, fun _ _ ↦ rfl⟩

end SessInv

/-- The divisor counts the open sessions along every run. -/
theorem sessInv {ok : Sys → Act → Prop} (h : ReachBy ok st) : SessInv st :=
  invariant_of_trans SessInv.init (fun _ _ _ _ hi _ ht ↦ hi.step ht) h

end DmaAccel.Driver
