import DmaAccel.Client.Holdings
import Mathlib.Data.Finset.Range

/-!
# What uses up a session's quota

Source `track-a/dma_accel_drv.c`: `dma_accel_ioc_buffer_alloc` (1403–1484), whose quota (1431) is
tested against the bitmap. The slots of the bitmap are those of the calls that have succeeded or
are about to report, each call with a slot of its own: nothing else uses up the quota, and nothing
gives it back before the file is released.
-/

namespace DmaAccel.Driver

open DmaAccel.Base

/-- The calls of BUFFER_ALLOC by session `s` that have a slot. -/
def holders (st : Sys) (s : Sid) : Finset Nat :=
  (Finset.range st.nallocs).filter fun k ↦ (st.allocs k).sess = s ∧ (st.allocs k).hasSlot = true

variable {st st' : Sys} {a : Act} {k l : Nat} {s : Sid}

theorem mem_holders : k ∈ holders st s ↔
    k < st.nallocs ∧ (st.allocs k).sess = s ∧ (st.allocs k).hasSlot = true := by
  simp [holders]

/-- Calls with a slot have it in the bitmap, each its own. -/
structure SlotsOwned (st : Sys) : Prop where
  owned : ∀ s, ∀ k ∈ holders st s, (st.allocs k).slot ∈ st.ownedBuffers s
  apart : ∀ s, ∀ k ∈ holders st s, ∀ l ∈ holders st s,
    (st.allocs k).slot = (st.allocs l).slot → k = l

/-- A call that has a slot after a step is a call that was made before it. -/
theorem Trans.holder_old (h : Trans st a st') (hk : k ∈ holders st' s) :
    k < st.nallocs ∧ (st.allocs k).sess = s := by
  obtain ⟨hlt, hs, hslot⟩ := mem_holders.mp hk
  by_cases hold : k < st.nallocs
  · exact ⟨hold, (h.alloc_sess hold).2.symm.trans hs⟩
  · cases h with
    | alloc r size ho =>
      have hnew : k = st.nallocs := by
        have hlt' : k < st.nallocs + 1 := hlt
        omega
      rw [hnew, show (ioctlAlloc st r size).allocs st.nallocs = _ from Function.update_self ..]
        at hslot
      cases hslot
    | _ => exact absurd hlt hold

namespace SlotsOwned

/-- Where the bitmap of the session stays, so do its holders and their slots. -/
private theorem keep_mem (h : Trans st a st')
    (hcalls : ∀ k < st.nallocs, (st.allocs k).sess = s →
      (st'.allocs k).hasSlot = (st.allocs k).hasSlot ∧
        (st'.allocs k).slot = (st.allocs k).slot) (hk : k ∈ holders st' s) :
    k ∈ holders st s ∧ (st'.allocs k).slot = (st.allocs k).slot := by
  obtain ⟨hlt, hs⟩ := h.holder_old hk
  obtain ⟨hsame, hslot⟩ := hcalls k hlt hs
  exact ⟨mem_holders.mpr ⟨hlt, hs, hsame ▸ (mem_holders.mp hk).2.2⟩, hslot⟩

/-- A publication gives its call a slot that no call has. -/
theorem step (hi : SlotsOwned st) (hb : BufInv st) (ha : AllocInv st) (h : Trans st a st') :
    SlotsOwned st' := by
  -- one session at a time
  have hone (s : Sid) : (∀ k ∈ holders st' s, (st'.allocs k).slot ∈ st'.ownedBuffers s) ∧
      ∀ k ∈ holders st' s, ∀ l ∈ holders st' s,
        (st'.allocs k).slot = (st'.allocs l).slot → k = l := by
    cases h.bitmapMove s with
    | keep ho hcalls =>
      constructor
      · intro k hk
        obtain ⟨hk', hslot⟩ := keep_mem h hcalls hk
        rw [ho, hslot]
        exact hi.owned s k hk'
      · intro k hk l hl heq
        obtain ⟨hk', hsk⟩ := keep_mem h hcalls hk
        obtain ⟨hl', hsl⟩ := keep_mem h hcalls hl
        rw [hsk, hsl] at heq
        exact hi.apart s k hk' l hl' heq
    | publish n c hn hs hp hfree hc hallocs ho =>
      have hself : st'.allocs n = c := by rw [hallocs, Function.update_self]
      have hother {k : Nat} (hk : k ∈ holders st' s) (hne : k ≠ n) :
          k ∈ holders st s ∧ st'.allocs k = st.allocs k := by
        have hsame : st'.allocs k = st.allocs k := by rw [hallocs, Function.update_of_ne hne]
        obtain ⟨hlt, hsess⟩ := h.holder_old hk
        exact ⟨mem_holders.mpr ⟨hlt, hsess, hsame ▸ (mem_holders.mp hk).2.2⟩, hsame⟩
      have hnew {k : Nat} (hk : k ∈ holders st s) : (st.allocs k).slot ≠ c.slot := by
        intro heq
        have hopen : st.phase s = .opened := hs ▸ ha.opened n (by simp [hp])
        have hused := (hb.held (hopen ▸ rfl) (hi.owned s k hk)).1
        rw [heq, hfree] at hused
        cases hused
      constructor
      · intro k hk
        rw [ho]
        by_cases hkn : k = n
        · rw [hkn, hself]
          exact Finset.mem_insert_self _ _
        · obtain ⟨hk', hsame⟩ := hother hk hkn
          rw [hsame]
          exact Finset.mem_insert_of_mem (hi.owned s k hk')
      · intro k hk l hl heq
        by_cases hkn : k = n <;> by_cases hln : l = n
        · rw [hkn, hln]
        · obtain ⟨hl', hsame⟩ := hother hl hln
          rw [hkn, hself, hsame] at heq
          exact absurd heq.symm (hnew hl')
        · obtain ⟨hk', hsame⟩ := hother hk hkn
          rw [hln, hself, hsame] at heq
          exact absurd heq (hnew hk')
        · obtain ⟨hk', hsk⟩ := hother hk hkn
          obtain ⟨hl', hsl⟩ := hother hl hln
          rw [hsk, hsl] at heq
          exact hi.apart s k hk' l hl' heq
    | rollback n c hn hs hp hc hallocs ho =>
      have hother {k : Nat} (hk : k ∈ holders st' s) :
          k ≠ n ∧ k ∈ holders st s ∧ st'.allocs k = st.allocs k := by
        have hne : k ≠ n := by
          rintro rfl
          have hslot := (mem_holders.mp hk).2.2
          rw [hallocs, Function.update_self, hc] at hslot
          cases hslot
        have hsame : st'.allocs k = st.allocs k := by rw [hallocs, Function.update_of_ne hne]
        obtain ⟨hlt, hsess⟩ := h.holder_old hk
        exact ⟨hne, mem_holders.mpr ⟨hlt, hsess, hsame ▸ (mem_holders.mp hk).2.2⟩, hsame⟩
      have hmem : n ∈ holders st s := mem_holders.mpr ⟨hn, hs, Alloc.hasSlot_rollback hp⟩
      constructor
      · intro k hk
        obtain ⟨hne, hk', hsame⟩ := hother hk
        rw [ho, hsame, Finset.mem_erase]
        exact ⟨fun heq ↦ hne (hi.apart s k hk' n hmem heq), hi.owned s k hk'⟩
      · intro k hk l hl heq
        obtain ⟨-, hk', hsk⟩ := hother hk
        obtain ⟨-, hl', hsl⟩ := hother hl
        rw [hsk, hsl] at heq
        exact hi.apart s k hk' l hl' heq
  exact ⟨fun s ↦ (hone s).1, fun s ↦ (hone s).2⟩

/-- No call has a slot before any call. -/
theorem init : SlotsOwned .init := by
  have hnone (s : Sid) (k : Nat) : k ∉ holders Sys.init s := by
    intro hk
    exact absurd (mem_holders.mp hk).1 (Nat.not_lt_zero k)
  exact ⟨fun s k hk ↦ absurd hk (hnone s k), fun s k hk ↦ absurd hk (hnone s k)⟩

end SlotsOwned

/-- It holds along every run. -/
theorem slotsOwned {ok : Sys → Act → Prop} (h : ReachBy ok st) : SlotsOwned st :=
  invariant_of_trans SlotsOwned.init
    (fun _ _ _ hr hi _ ht ↦ hi.step (bufInv hr).1 (allocInv hr) ht) h

/-- No session has more calls with a slot than its quota. -/
theorem card_holders_le {ok : Sys → Act → Prop} (h : ReachBy ok st) (s : Sid) :
    (holders st s).card ≤ defaultBufferQuota := by
  have howned := slotsOwned h
  calc (holders st s).card ≤ (st.ownedBuffers s).card :=
        Finset.card_le_card_of_injOn (fun k ↦ (st.allocs k).slot) (howned.owned s)
          fun k hk l hl heq ↦ howned.apart s k hk l hl heq
    _ ≤ defaultBufferQuota := (bufInv h).1.quota s

/-- Quota accounting: the bitmap of a session is made up of the slots of its calls of BUFFER_ALLOC
that have succeeded or are about to report, one for each; over its whole life no more than
`DEFAULT_BUFFER_QUOTA` of its calls succeed; and a call is refused with `EDQUOT` exactly when that
many have or are about to report. -/
theorem quota_accounting (h : Reachable st) (s : Sid) :
    (holders st s).image (fun k ↦ (st.allocs k).slot) = st.ownedBuffers s ∧
    (holders st s).card = (st.ownedBuffers s).card ∧
    (holders st s).card ≤ defaultBufferQuota ∧
    ∀ k mem st', (st.allocs k).pc = .publish → (st.allocs k).sess = s →
      step st (.allocStep k mem) = some st' →
      ((st'.allocs k).pc = .returned ∧ (st'.allocs k).ret = .err .EDQUOT ↔
        (holders st s).card = defaultBufferQuota) := by
  have howned := slotsOwned h
  have himage : (holders st s).image (fun k ↦ (st.allocs k).slot) = st.ownedBuffers s := by
    ext i
    rw [Finset.mem_image]
    constructor
    · rintro ⟨k, hk, rfl⟩
      exact howned.owned s k hk
    · intro hi
      obtain ⟨k, hk, hs, hslot, hsi⟩ := slotsNamed h s i hi
      exact ⟨k, mem_holders.mpr ⟨hk, hs, hslot⟩, hsi⟩
  have hcard : (holders st s).card = (st.ownedBuffers s).card := by
    rw [← himage]
    exact (Finset.card_image_of_injOn fun k hk l hl heq ↦ howned.apart s k hk l hl heq).symm
  have hquota := (bufInv h).1.quota s
  refine ⟨himage, hcard, hcard ▸ hquota, ?_⟩
  intro k mem st' hp hs hstep
  rw [hcard]
  simp only [step] at hstep
  split at hstep
  · simp only [allocStep, hp, hs] at hstep
    split at hstep
    · next hfull =>
      cases hstep
      simp only [Sys.setAlloc, Function.update_self, true_and, true_iff]
      omega
    · next hroom =>
      have hne : (st.ownedBuffers s).card ≠ defaultBufferQuota := by omega
      split at hstep <;> cases hstep <;> simp [Sys.setAlloc, hne]
  · cases hstep

/-- A session that has succeeded sixteen times asks once more. -/
theorem quota_accounting_full : ∃ st st' : Sys, Reachable st ∧ (st.ownedBuffers 0).card = 16 ∧
    step st (.allocStep 16 (some (0, 0))) = some st' ∧ (st'.allocs 16).ret = .err .EDQUOT ∧
    (holders st 0).card = defaultBufferQuota := by
  have hrun : (run step Sys.init (.chrOpen :: (List.range 16).flatMap (allocScript 0) ++
      [.alloc 0 4096, .allocStep 16 none])).any (fun st ↦
        decide ((st.ownedBuffers 0).card = 16 ∧ (st.allocs 16).pc = .publish ∧
          (st.allocs 16).sess = 0) &&
        (step st (.allocStep 16 (some (0, 0)))).any fun st' ↦
          decide ((st'.allocs 16).pc = .returned ∧ (st'.allocs 16).ret = .err .EDQUOT)) = true := by
    decide +kernel
  obtain ⟨st, hr, hp⟩ := Reach.exists_of_run hrun
  rw [Bool.and_eq_true] at hp
  obtain ⟨hcard, hpc, hsess⟩ := of_decide_eq_true hp.1
  obtain ⟨st', hs, htest⟩ := (Option.any_eq_true _ _).mp hp.2
  have hfull := ((quota_accounting hr 0).2.2.2 16 _ st' hpc hsess hs).mp (of_decide_eq_true htest)
  exact ⟨st, st', hr, hcard, hs, (of_decide_eq_true htest).2, hfull⟩

end DmaAccel.Driver
