import DmaAccel.Client.Usage

/-!
# What BUFFER_ALLOC serves

Source `track-a/dma_accel_drv.c`: `dma_accel_ioc_buffer_alloc` (1403–1484). A call is served
exactly if its size is one that the driver takes, its session is below the quota, a slot is free
and there is memory. A session below its quota may still be refused, beside others that fill the
table.
-/

namespace DmaAccel.Driver

open DmaAccel.Base

/-- The sizes that BUFFER_ALLOC takes. -/
def acceptsSize (size : U32) : Prop := size.toNat ≠ 0 ∧ size.toNat ≤ bufferAllocMax

instance (size : U32) : Decidable (acceptsSize size) := inferInstanceAs (Decidable (_ ∧ _))

/-- The slots that are not in use. -/
def freeSlots (st : Sys) : Finset (Fin maxBuffers) :=
  Finset.univ.filter fun i ↦ (st.buffers i).inUse = false

variable {st st' : Sys} {a : Act} {k : Nat} {s : Sid} {size : U32} {i : Fin maxBuffers}

theorem mem_freeSlots : i ∈ freeSlots st ↔ (st.buffers i).inUse = false := by
  simp [freeSlots]

/-- The scan finds a slot wherever there is one. -/
theorem exists_freeBufSlot_of_card (h : 0 < (freeSlots st).card) :
    ∃ i, freeBufSlot st.buffers = some i := by
  obtain ⟨i, hi⟩ := Finset.card_pos.mp h
  rw [← Option.isSome_iff_exists, freeBufSlot, List.find?_isSome]
  exact ⟨i, List.mem_finRange i, by rw [mem_freeSlots.mp hi]; rfl⟩

/-! ## The sizes of the calls -/

/-- Calls of BUFFER_ALLOC keep what they asked for. -/
theorem Trans.alloc_reqSize (h : Trans st a st') (hk : k < st.nallocs) :
    (st'.allocs k).reqSize = (st.allocs k).reqSize := by
  have hupdate {n : Nat} {c : Alloc} (hc : c.reqSize = (st.allocs n).reqSize) :
      (Function.update st.allocs n c k).reqSize = (st.allocs k).reqSize :=
    rel_update (R := fun x y : Alloc ↦ y.reqSize = x.reqSize) (fun _ ↦ rfl) hc k
  cases h with
  | alloc r size ho => exact congrArg _ (Function.update_of_ne (Nat.ne_of_lt hk) _ _)
  | allocLocal a n c hn hl => exact hupdate (by cases hl <;> rfl)
  | publish n i kaddr dmaAddr hn hp => exact hupdate rfl
  | rollback n mem hn hp => exact hupdate rfl
  | _ => rfl

/-- A call past the test of its size has one that is taken. -/
def Alloc.Sized (c : Alloc) : Prop := c.pc = .publish ∨ c.hasSlot = true → acceptsSize c.reqSize

/-- Only the test of the size lets a call go on to the publishing section. -/
theorem AllocLocal.sized_keep {c c' : Alloc} (h : AllocLocal st c c') (hc : c.Sized) :
    c'.Sized := by
  intro hgo
  have hslot := h.hasSlot.1
  cases h with
  | sized _ h0 hmax => exact ⟨h0, hmax⟩
  | report hp | fault hp =>
    refine hc (.inr ?_)
    simp [Alloc.hasSlot, AllocPc.published, hp]
  | copyInFault | badSize | overQuota | noSlot | noMem =>
    simp [Alloc.hasSlot, Alloc.granted, AllocPc.published] at hgo

/-- Each step keeps it. -/
private theorem sized_step (hi : ∀ k < st.nallocs, (st.allocs k).Sized) (h : Trans st a st') :
    ∀ k < st'.nallocs, (st'.allocs k).Sized := by
  have hupdate {n : Nat} {c : Alloc} (hc : c.Sized) :
      ∀ k < st.nallocs, (Function.update st.allocs n c k).Sized := by
    intro k hk
    rw [Function.update_apply]
    split
    · exact hc
    · exact hi k hk
  cases h with
  | alloc r size ho =>
    intro k hk
    change (Function.update st.allocs st.nallocs _ k).Sized
    rw [Function.update_apply]
    split
    · intro hgo
      simp [Alloc.hasSlot, Alloc.granted, AllocPc.published] at hgo
    · next hne =>
      have hk' : k < st.nallocs + 1 := hk
      exact hi k (by omega)
  | allocLocal a n c hn hl => exact hupdate (hl.sized_keep (hi n hn))
  | publish n i kaddr dmaAddr hn hp => exact hupdate fun _ ↦ hi n hn (.inl hp)
  | rollback n mem hn hp =>
    refine hupdate fun hgo ↦ ?_
    simp [Alloc.hasSlot, Alloc.granted, AllocPc.published] at hgo
  | _ => exact hi

/-- Only calls of an accepted size succeed. -/
theorem acceptsSize_of_hasSlot {ok : Sys → Act → Prop} (h : ReachBy ok st) (hk : k < st.nallocs)
    (hs : (st.allocs k).hasSlot = true) : acceptsSize (st.allocs k).reqSize := by
  have hall : ∀ k < st.nallocs, (st.allocs k).Sized :=
    invariant_of_trans (I := fun st ↦ ∀ k < st.nallocs, (st.allocs k).Sized)
      (fun _ hk ↦ absurd hk (Nat.not_lt_zero _)) (fun _ _ _ _ hi _ ht ↦ sized_step hi ht) h
  exact hall k hk (.inr hs)

/-! ## A call by itself -/

/-- The call that was served with slot `i`. -/
def Alloc.served (s : Sid) (size : U32) (i : Fin maxBuffers) (kaddr dmaAddr : Nat) : Alloc :=
  ⟨s, size, .returned, pageAlign size.toNat, i, kaddr, dmaAddr, .ok 0⟩

/-- The driver after a call of session `s` by itself that was served with slot `i`. -/
def Sys.served (st : Sys) (s : Sid) (size : U32) (i : Fin maxBuffers) (kaddr dmaAddr : Nat) : Sys :=
  { st with
    nallocs := st.nallocs + 1
    buffers := Function.update st.buffers i ⟨kaddr, dmaAddr, pageAlign size.toNat, true, some s⟩
    ownedBuffers := Function.update st.ownedBuffers s (insert i (st.ownedBuffers s))
    allocs := Function.update st.allocs st.nallocs (.served s size i kaddr dmaAddr) }

/-- A step of the call `k`. -/
def stepOf (k : Nat) (_ : Sys) (a : Act) : Prop := ∃ mem, a = .allocStep k mem

/-- A call by itself is served where its size is taken, its session is below the quota, a slot is
free and there is memory. -/
theorem reach_served (hsize : acceptsSize size)
    (hq : (st.ownedBuffers s).card < defaultBufferQuota) (hi : freeBufSlot st.buffers = some i)
    (kaddr dmaAddr : Nat) :
    Reach step (stepOf st.nallocs) (ioctlAlloc st s size) (st.served s size i kaddr dmaAddr) := by
  obtain ⟨h0, hmax⟩ := hsize
  have hlt : st.nallocs < st.nallocs + 1 := Nat.lt_succ_self _
  let entered : Alloc := { Alloc.none with sess := s, reqSize := size, pc := .copyIn }
  let checked : Alloc := { entered with pc := .publish, size := pageAlign size.toNat }
  let published : Alloc :=
    { checked with pc := .copyOut, slot := i, kaddr := kaddr, dmaAddr := dmaAddr }
  let inTable (c : Alloc) : Sys :=
    { st.served s size i kaddr dmaAddr with allocs := Function.update st.allocs st.nallocs c }
  have hcheck : step (ioctlAlloc st s size) (.allocStep st.nallocs none) =
      some ((ioctlAlloc st s size).setAlloc st.nallocs checked) := by
    simp [step, allocStep, ioctlAlloc, Sys.setAlloc, checked, entered, h0, Nat.not_lt.mpr hmax]
  have hpublish : step ((ioctlAlloc st s size).setAlloc st.nallocs checked)
      (.allocStep st.nallocs (some (kaddr, dmaAddr))) = some (inTable published) := by
    simp [step, allocStep, ioctlAlloc, Sys.setAlloc, checked, entered, published, inTable,
      Sys.served, Nat.not_le.mpr hq, hi]
  have hreport : step (inTable published) (.allocStep st.nallocs none) =
      some (st.served s size i kaddr dmaAddr) := by
    simp [step, allocStep, Sys.setAlloc, published, checked, entered, inTable, Sys.served,
      Alloc.served, Alloc.none]
  exact .next (.next (.next .start ⟨_, rfl⟩ hcheck) ⟨_, rfl⟩ hpublish) ⟨_, rfl⟩ hreport

/-- One slot fewer is free. -/
theorem card_freeSlots_served (s : Sid) (size : U32) (kaddr dmaAddr : Nat)
    (hi : freeBufSlot st.buffers = some i) :
    (freeSlots (st.served s size i kaddr dmaAddr)).card + 1 = (freeSlots st).card := by
  have hfree : i ∈ freeSlots st := mem_freeSlots.mpr (freeBufSlot_spec hi)
  have herase : freeSlots (st.served s size i kaddr dmaAddr) = (freeSlots st).erase i := by
    ext j
    simp only [Finset.mem_erase, mem_freeSlots, Sys.served, Function.update_apply]
    by_cases hj : j = i <;> simp [hj]
  rw [herase, Finset.card_erase_add_one hfree]

/-- The session owns at most one slot more. -/
theorem card_ownedBuffers_served (st : Sys) (s : Sid) (size : U32) (i : Fin maxBuffers)
    (kaddr dmaAddr : Nat) :
    ((st.served s size i kaddr dmaAddr).ownedBuffers s).card ≤ (st.ownedBuffers s).card + 1 := by
  simp only [Sys.served, Function.update_self]
  exact Finset.card_insert_le ..

/-- The mapping of the Buffer passes the checks of the driver. -/
theorem chrMmap_served (st : Sys) (s : Sid) (size : U32) (i : Fin maxBuffers)
    (kaddr dmaAddr : Nat) (mapped : Ret) :
    chrMmap (st.served s size i kaddr dmaAddr) s
      ((Alloc.served s size i kaddr dmaAddr).mmapOffset >>> pageShift) (pageAlign size.toNat)
      mapped = mapped := by
  have hid : (Alloc.served s size i kaddr dmaAddr).mmapOffset >>> pageShift = i.val :=
    Nat.shiftLeft_shiftRight ..
  simp [chrMmap, hid, Sys.served]

end DmaAccel.Driver
