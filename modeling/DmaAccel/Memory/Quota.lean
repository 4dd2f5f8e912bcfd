import DmaAccel.Memory.Ownership

/-!
# Quotas that do not disturb each other

Source `track-a/dma_accel_drv.c`: `MAX_BUFFERS` and `DEFAULT_BUFFER_QUOTA` (81–112), the
publishing section of `dma_accel_ioc_buffer_alloc` (1421–1463) and the freeing section of
`dma_accel_chr_release` (1390–1397). A session has slots from its first allocation until its
`release` has freed them. Four shares of sixteen make up the table of sixty-four.
-/

namespace DmaAccel.Driver

open DmaAccel.Base

/-- The sessions that exist: opened, and not yet through the freeing section of `release`. -/
def sessions (st : Sys) : Finset Sid :=
  (Finset.range st.nsess).filter fun s ↦ (st.phase s).live = true

/-- As many sessions exist as the table has full quotas, or fewer. -/
def WithinShares (st : Sys) : Prop :=
  (sessions st).card ≤ maxBuffers / defaultBufferQuota

instance (st : Sys) : Decidable (WithinShares st) := inferInstanceAs (Decidable (_ ≤ _))

/-- The sessions keep within the shares while the step is taken. -/
def FourSessions (st : Sys) (_ : Act) : Prop := WithinShares st

variable {st st' : Sys} {a : Act} {s : Sid}

theorem mem_sessions (h : SessInv st) : s ∈ sessions st ↔ (st.phase s).live = true := by
  simp only [sessions, Finset.mem_filter, Finset.mem_range, and_iff_right_iff_imp]
  intro hl
  by_contra hge
  rw [h.fresh s (Nat.le_of_not_lt hge)] at hl
  cases hl

/-- A session below its quota finds a free slot, whatever the others hold. -/
theorem exists_freeBufSlot (hs : SessInv st) (hb : BufInv st) (hw : WithinShares st)
    (hlive : (st.phase s).live = true) (hq : (st.ownedBuffers s).card < defaultBufferQuota) :
    ∃ i, freeBufSlot st.buffers = some i := by
  have hfit : (sessions st).card * defaultBufferQuota ≤ Fintype.card (Fin maxBuffers) := by
    rw [Fintype.card_fin]
    exact Nat.mul_le_of_le_div _ _ _ hw
  obtain ⟨i, hi⟩ := hb.agree.exists_unowned (fun r hr ↦ (mem_sessions hs).mpr hr)
    (fun r _ ↦ hb.quota r) hfit ((mem_sessions hs).mpr hlive) hq
  have hfree : (st.buffers i).inUse = false := by
    rw [hb.inUse, show (st.buffers i).owner = none from hi]
    rfl
  rw [← Option.isSome_iff_exists, freeBufSlot, List.find?_isSome]
  exact ⟨i, List.mem_finRange i, by rw [hfree]; rfl⟩

/-- A call is told that the table is full only where it is. -/
theorem AllocLocal.full {c c' : Alloc} (h : AllocLocal st c c') (hr : c'.ret = .err .ENOSPC) :
    c.ret = .err .ENOSPC ∨ c.pc = .publish ∧
      (st.ownedBuffers c.sess).card < defaultBufferQuota ∧ freeBufSlot st.buffers = none := by
  cases h with
  | noSlot hp hq hn => exact .inr ⟨hp, hq, hn⟩
  | sized | fault => exact .inl hr
  | copyInFault | badSize | overQuota | noMem | report => cases hr

/-- No step refuses a call for want of a slot. -/
private theorem not_full_step (ha : AllocInv st) (hs : SessInv st) (hb : BufInv st)
    (hw : WithinShares st) (hi : ∀ k, (st.allocs k).ret ≠ .err .ENOSPC) (h : Trans st a st') :
    ∀ k, (st'.allocs k).ret ≠ .err .ENOSPC := by
  have hupdate {k : Nat} {c : Alloc} (hc : c.ret ≠ .err .ENOSPC) :
      ∀ l, (Function.update st.allocs k c l).ret ≠ .err .ENOSPC := by
    intro l
    rw [Function.update_apply]
    split
    · exact hc
    · exact hi l
  cases h with
  | alloc s size ho => exact hupdate (by simp [Alloc.none])
  | allocLocal a k c hk hl =>
    apply hupdate
    intro hr
    rcases hl.full hr with hold | ⟨hp, hq, hn⟩
    · exact hi k hold
    · have hopen := ha.opened k (by simp [hp])
      obtain ⟨i, hf⟩ := exists_freeBufSlot hs hb hw (hopen ▸ rfl) hq
      rw [hn] at hf
      cases hf
  | publish k i kaddr dmaAddr hk hp => exact hupdate (hi k)
  | rollback k mem hk hp => exact hupdate (by simp)
  | _ => exact hi

/-- While no more than four sessions exist, no BUFFER_ALLOC returns `-ENOSPC`: a session below
its quota finds a free slot, whatever the others do. -/
theorem quota_independent (h : ReachBy FourSessions st) :
    (∀ k < st.nallocs, (st.allocs k).ret ≠ .err .ENOSPC) ∧
      (WithinShares st → ∀ s, (st.phase s).live = true →
        (st.ownedBuffers s).card < defaultBufferQuota →
          ∃ i, freeBufSlot st.buffers = some i) := by
  constructor
  · have hall : ∀ k, (st.allocs k).ret ≠ .err .ENOSPC := by
      refine invariant_of_trans (I := fun st ↦ ∀ k, (st.allocs k).ret ≠ .err .ENOSPC)
        (fun _ ↦ by simp [Sys.init, Alloc.none]) ?_ h
      intro st a st' hr hi hw ht
      exact not_full_step (allocInv hr) (sessInv hr) (bufInv hr).1 hw hi ht
    exact fun k _ ↦ hall k
  · intro hw s hlive hq
    exact exists_freeBufSlot (sessInv h) (bufInv h).1 hw hlive hq

/-- Four sessions with a buffer each, one of which is closed and replaced by a fifth. -/
theorem quota_independent_four : ∃ st : Sys, ReachBy FourSessions st ∧ st.nsess = 5 ∧
    (sessions st).card = 4 ∧ st.nallocs = 5 ∧
    ∀ k < st.nallocs, (st.allocs k).ret ≠ .err .ENOSPC := by
  have hrun : (runChecked step (fun st _ ↦ decide (WithinShares st)) Sys.init
      ([.chrOpen, .chrOpen, .chrOpen, .chrOpen] ++ allocScript 0 0 ++ allocScript 1 1 ++
        allocScript 2 2 ++ allocScript 3 3 ++ .chrRelease 1 :: List.replicate 4 (.releaseStep 1) ++
        .chrOpen :: allocScript 4 4)).any
      (fun st ↦ decide (st.nsess = 5 ∧ (sessions st).card = 4 ∧ st.nallocs = 5)) = true := by
    decide +kernel
  obtain ⟨st, hr, hp⟩ := Reach.exists_of_runChecked (fun _ _ hc ↦ of_decide_eq_true hc) hrun
  obtain ⟨hsess, hcard, hn⟩ := of_decide_eq_true hp
  exact ⟨st, hr, hsess, hcard, hn, (quota_independent hr).1⟩

end DmaAccel.Driver
