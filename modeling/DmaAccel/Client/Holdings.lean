import DmaAccel.Client.Grants

/-!
# What the bitmap of a session consists of

Source `track-a/dma_accel_drv.c`: `dma_accel_ioc_buffer_alloc` (1403–1484). The bitmap of an open
session has one slot for each call of the session that has succeeded or is about to return, and
changes in the publishing section and in the rollback only.
-/

namespace DmaAccel.Driver

open DmaAccel.Base

/-- The call has succeeded, or has a slot that it reports or rolls back next. -/
def Alloc.hasSlot (c : Alloc) : Bool := c.granted || c.pc.published

variable {st st' : Sys} {a : Act} {k : Nat} {s : Sid}

theorem Alloc.granted_of_hasSlot {c : Alloc} (h : c.hasSlot = true) (hr : c.pc = .returned) :
    c.granted = true := by
  unfold hasSlot at h
  rw [hr] at h
  simpa [AllocPc.published] using h

theorem Alloc.hasSlot_publish {c : Alloc} (h : c.pc = .publish) : c.hasSlot = false := by
  simp [hasSlot, granted, AllocPc.published, h]

theorem Alloc.hasSlot_rollback {c : Alloc} (h : c.pc = .rollback) : c.hasSlot = true := by
  simp [hasSlot, AllocPc.published, h]

/-- Only the publishing section gives a call a slot, and only the rollback takes it away. -/
theorem AllocLocal.hasSlot {c c' : Alloc} (h : AllocLocal st c c') :
    c'.hasSlot = c.hasSlot ∧ c'.slot = c.slot ∧ c'.sess = c.sess := by
  cases h with
  | copyInFault hp | badSize hp | sized hp | overQuota hp | noSlot hp | noMem _ hp | report hp
  | fault hp => simp [Alloc.hasSlot, Alloc.granted, AllocPc.published, hp]

/-- How one step changes the bitmap of session `s` and its calls of BUFFER_ALLOC. -/
inductive BitmapMove (st st' : Sys) (s : Sid) : Prop where
  | keep : st'.ownedBuffers s = st.ownedBuffers s →
      (∀ k < st.nallocs, (st.allocs k).sess = s →
        (st'.allocs k).hasSlot = (st.allocs k).hasSlot ∧
          (st'.allocs k).slot = (st.allocs k).slot) → BitmapMove st st' s
  | publish (k : Nat) (c : Alloc) : k < st.nallocs → (st.allocs k).sess = s →
      (st.allocs k).pc = .publish → (st.buffers c.slot).inUse = false → c.hasSlot = true →
      st'.allocs = Function.update st.allocs k c →
      st'.ownedBuffers s = insert c.slot (st.ownedBuffers s) → BitmapMove st st' s
  | rollback (k : Nat) (c : Alloc) : k < st.nallocs → (st.allocs k).sess = s →
      (st.allocs k).pc = .rollback → c.hasSlot = false →
      st'.allocs = Function.update st.allocs k c →
      st'.ownedBuffers s = (st.ownedBuffers s).erase (st.allocs k).slot → BitmapMove st st' s

/-- Every step of the system changes a bitmap in one of these ways. -/
theorem Trans.bitmapMove (h : Trans st a st') (s : Sid) : BitmapMove st st' s := by
  cases h with
  | alloc r size ho =>
    refine .keep rfl fun k hk _ ↦ ?_
    have hold : (ioctlAlloc st r size).allocs k = st.allocs k :=
      Function.update_of_ne (Nat.ne_of_lt hk) _ _
    rw [hold]
    exact ⟨rfl, rfl⟩
  | allocLocal a k c hk hl =>
    obtain ⟨hslot, hsame, -⟩ := hl.hasSlot
    refine .keep rfl fun l _ _ ↦ ?_
    change (Function.update st.allocs k c l).hasSlot = _ ∧
      (Function.update st.allocs k c l).slot = _
    by_cases hlk : l = k
    · rw [hlk, Function.update_self]
      exact ⟨hslot, hsame⟩
    · rw [Function.update_of_ne hlk]
      exact ⟨rfl, rfl⟩
  | publish k i kaddr dmaAddr hk hp hq hf =>
    by_cases hs : (st.allocs k).sess = s
    · refine .publish k _ hk hs hp (freeBufSlot_spec hf) ?_ rfl ?_
      · simp [Alloc.hasSlot, AllocPc.published]
      · simp only [hs, Function.update_self]
    · refine .keep (Function.update_of_ne (Ne.symm hs) _ _) fun l _ hl ↦ ?_
      have hlk : l ≠ k := fun he ↦ hs (he ▸ hl)
      simp only [Function.update_of_ne hlk]
      exact ⟨trivial, trivial⟩
  | rollback k mem hk hp =>
    by_cases hs : (st.allocs k).sess = s
    · refine .rollback k _ hk hs hp ?_ rfl ?_
      · simp [Alloc.hasSlot, Alloc.granted, AllocPc.published]
      · simp only [hs, Function.update_self]
    · refine .keep (Function.update_of_ne (Ne.symm hs) _ _) fun l _ hl ↦ ?_
      have hlk : l ≠ k := fun he ↦ hs (he ▸ hl)
      simp only [Function.update_of_ne hlk]
      exact ⟨trivial, trivial⟩
  | _ => exact .keep rfl fun _ _ _ ↦ ⟨rfl, rfl⟩

/-- The calls of a session are those it had, where none is entered. -/
theorem Trans.alloc_old (h : Trans st a st') (ha : ∀ size, a ≠ .alloc s size)
    (hk : k < st'.nallocs) (hs : (st'.allocs k).sess = s) :
    k < st.nallocs ∧ (st.allocs k).sess = s := by
  by_cases hlt : k < st.nallocs
  · exact ⟨hlt, (h.alloc_sess hlt).2.symm.trans hs⟩
  · cases h with
    | alloc r size ho =>
      have hnew : k = st.nallocs := Nat.le_antisymm (Nat.lt_succ_iff.mp hk) (Nat.le_of_not_lt hlt)
      have hself : (ioctlAlloc st r size).allocs st.nallocs = _ := Function.update_self ..
      rw [hnew, hself] at hs
      exact absurd rfl (hs ▸ ha size)
    | _ => exact absurd hk hlt

/-- An open session stays open until it is closed. -/
theorem Trans.opened_after (h : Trans st a st') (ha : a ≠ .chrRelease s)
    (ho : st.phase s = .opened) : st'.phase s = .opened := by
  cases h.phaseMove s with
  | keep hp => exact hp.trans ho
  | opens _ _ hp => exact hp
  | closes he => exact absurd he ha
  | wakes hp | polls hp | frees hp | kfrees _ hp =>
    rw [ho] at hp
    cases hp

/-- Every slot of a bitmap is the slot of a call of the session. -/
def SlotsNamed (st : Sys) : Prop :=
  ∀ s, ∀ i ∈ st.ownedBuffers s, ∃ k < st.nallocs, (st.allocs k).sess = s ∧
    (st.allocs k).hasSlot = true ∧ (st.allocs k).slot = i

/-- A slot enters a bitmap with its call, and leaves it with its call. -/
theorem SlotsNamed.step (hi : SlotsNamed st) (h : Trans st a st') : SlotsNamed st' := by
  intro s i hmem
  cases h.bitmapMove s with
  | keep ho hcalls =>
    rw [ho] at hmem
    obtain ⟨k, hk, hs, hslot, hsi⟩ := hi s i hmem
    obtain ⟨hk', hs'⟩ := h.alloc_sess hk
    obtain ⟨hsame, hsl⟩ := hcalls k hk hs
    exact ⟨k, hk', hs'.trans hs, hsame.trans hslot, hsl.trans hsi⟩
  | publish k c hk hs hp hfree hc ha ho =>
    obtain ⟨hk', hs'⟩ := h.alloc_sess hk
    rw [ho, Finset.mem_insert] at hmem
    rcases hmem with rfl | hmem
    · refine ⟨k, hk', hs'.trans hs, ?_⟩
      rw [ha, Function.update_self]
      exact ⟨hc, rfl⟩
    · obtain ⟨l, hl, hls, hslot, hsi⟩ := hi s i hmem
      obtain ⟨hl', hls'⟩ := h.alloc_sess hl
      refine ⟨l, hl', hls'.trans hls, ?_⟩
      have hne : l ≠ k := by
        rintro rfl
        rw [Alloc.hasSlot_publish hp] at hslot
        cases hslot
      rw [ha, Function.update_of_ne hne]
      exact ⟨hslot, hsi⟩
  | rollback k c hk hs hp hc ha ho =>
    rw [ho, Finset.mem_erase] at hmem
    obtain ⟨hne, hmem⟩ := hmem
    obtain ⟨l, hl, hls, hslot, hsi⟩ := hi s i hmem
    obtain ⟨hl', hls'⟩ := h.alloc_sess hl
    refine ⟨l, hl', hls'.trans hls, ?_⟩
    have hlk : l ≠ k := by
      rintro rfl
      exact hne hsi.symm
    rw [ha, Function.update_of_ne hlk]
    exact ⟨hslot, hsi⟩

/-- The slots of a bitmap are those of calls of the session, along every run. -/
theorem slotsNamed {ok : Sys → Act → Prop} (h : ReachBy ok st) : SlotsNamed st :=
  invariant_of_trans (fun _ _ hmem ↦ by cases hmem) (fun _ _ _ _ hi _ ht ↦ hi.step ht) h

/-- The call returns its slot only with the file: a run that leaves the file open leaves a slot
that was granted in the bitmap. -/
theorem ownedBuffers_mono {t : Sys} (h : Reachable st)
    (hret : ∀ k < st.nallocs, (st.allocs k).sess = s → (st.allocs k).pc = .returned)
    (ht : Reach step anyStep st t) (ho : t.phase s = .opened) :
    st.ownedBuffers s ⊆ t.ownedBuffers s := by
  intro i hmem
  obtain ⟨k, hk, hs, hslot, rfl⟩ := slotsNamed h s i hmem
  have hgr := Alloc.granted_of_hasSlot hslot (hret k hk hs)
  have hkept : k < t.nallocs ∧ t.allocs k = st.allocs k := by
    refine ht.invariant (I := fun t ↦ k < t.nallocs ∧ t.allocs k = st.allocs k) ⟨hk, rfl⟩ ?_
    rintro u b u' - ⟨hku, he⟩ - hstep
    have hr : (u.allocs k).pc = .returned := by
      rw [he]
      exact hret k hk hs
    obtain ⟨hk', he'⟩ := (trans_of_step hstep).allocs_returned hku hr
    exact ⟨hk', he'.trans he⟩
  have hsettled := (grantInv (h.trans ht)).kept k hkept.1 (by rw [hkept.2]; exact hgr)
    (by rw [hkept.2, hs]; exact ho)
  rw [hkept.2] at hsettled
  exact hs ▸ hsettled.owned

end DmaAccel.Driver
