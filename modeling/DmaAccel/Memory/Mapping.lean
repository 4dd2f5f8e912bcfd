import DmaAccel.Memory.InFlight
import Mathlib.Order.CompletePartialOrder
import Mathlib.Order.Interval.Set.Disjoint

/-!
# Memory that user space has mapped

Source `track-a/dma_accel_drv.c`: `dma_accel_chr_mmap` (1724–1763) beside the other entries of
`dma_accel_fops` (1840–1848). The driver keeps no record of the mappings it makes, and the kernel
copies, cuts and removes them without a word to it. That mapped memory is not freed rests on the
file, which a mapping keeps open: `release` comes after the last one. The rollback of a
BUFFER_ALLOC (1467–1481) asks nobody.
-/

namespace DmaAccel.Driver

open DmaAccel.Base

/-- The addresses of `len` bytes. -/
def bytes (addr len : Nat) : Set Nat := Set.Ico addr (addr + len)

instance (a n b m : Nat) : Decidable (Disjoint (bytes a n) (bytes b m)) :=
  decidable_of_iff _ Set.Ico_disjoint_Ico.symm

/-- The memory of a slot on the bus. -/
abbrev BufEntry.bytes (e : BufEntry) : Set Nat := Driver.bytes e.dmaAddr e.size

/-- A `vm_area_struct` of the device: `len` bytes from byte `off` of the memory that
`dma_mmap_coherent` was given. -/
structure Vma where
  sess : Sid
  slot : Fin maxBuffers
  kaddr : Nat
  dmaAddr : Nat
  off : Nat
  len : Nat
  deriving DecidableEq, Repr

/-- What the mapping shows. -/
abbrev Vma.bytes (v : Vma) : Set Nat := Driver.bytes (v.dmaAddr + v.off) v.len

/-- The driver, and the mappings of its device in all processes. -/
structure Maps where
  sys : Sys
  vmas : List Vma

/-- Nothing is mapped yet. -/
def Maps.init : Maps := ⟨.init, []⟩

/-- The driver moves, a process maps a buffer, or the kernel copies (a part of) a mapping or
removes one. -/
inductive MapAct where
  | driver (a : Act)
  | mmap (s : Sid) (bufferId reqSize : Nat) (mapped : Ret)
  | copy (v : Vma) (off len : Nat)
  | unmap (v : Vma)
  deriving DecidableEq, Repr

/-- The session whose `release` begins. -/
def Act.closes : Act → Option Sid
  | .chrRelease s => some s
  | _ => none

/-- The mapping that `dma_accel_chr_mmap` makes where it succeeds. -/
def chrMmapVma (st : Sys) (s : Sid) (bufferId reqSize : Nat) (mapped : Ret) : List Vma :=
  if h : bufferId < maxBuffers then
    match chrMmap st s bufferId reqSize mapped with
    | .ok _ =>
      [⟨s, ⟨bufferId, h⟩, (st.buffers ⟨bufferId, h⟩).kaddr, (st.buffers ⟨bufferId, h⟩).dmaAddr,
        0, reqSize⟩]
    | .err _ => []
  else []

/-- One move. A file is released when nothing maps it. -/
def Maps.step (m : Maps) : MapAct → Option Maps
  | .driver a =>
    if ∀ s ∈ a.closes, ∀ v ∈ m.vmas, v.sess ≠ s then
      (Driver.step m.sys a).map fun st ↦ { m with sys := st }
    else none
  | .mmap s bufferId reqSize mapped =>
    if m.sys.phase s = .opened then
      some { m with vmas := m.vmas ++ chrMmapVma m.sys s bufferId reqSize mapped }
    else none
  | .copy v off len =>
    if v ∈ m.vmas ∧ off + len ≤ v.len then
      some { m with vmas := { v with off := v.off + off, len := len } :: m.vmas }
    else none
  | .unmap v => if v ∈ m.vmas then some { m with vmas := m.vmas.erase v } else none

/-- The call of BUFFER_ALLOC that `dma_alloc_coherent` returns to, and the bus address it
returns. -/
def Act.grants : Act → Option (Nat × Nat)
  | .allocStep k (some (_, dmaAddr)) => some (k, dmaAddr)
  | _ => none

/-- `dma_alloc_coherent` returns memory apart from all it has handed out and not got back. -/
def FreshMemory (st : Sys) (a : Act) : Prop :=
  ∀ g ∈ a.grants, (st.allocs g.1).pc = .publish → ∀ i, (st.buffers i).inUse = true →
    Disjoint (bytes g.2 (st.allocs g.1).size) (st.buffers i).bytes

instance (st : Sys) (a : Act) : Decidable (FreshMemory st a) :=
  inferInstanceAs (Decidable (∀ g ∈ a.grants, _))

/-- No rollback takes a slot that a mapping shows. -/
def RollbackUnmapped (m : Maps) (a : Act) : Prop :=
  ∀ k ∈ a.allocCall, (m.sys.allocs k).pc = .rollback → ∀ v ∈ m.vmas,
    v.slot ≠ (m.sys.allocs k).slot

instance (m : Maps) (a : Act) : Decidable (RollbackUnmapped m a) :=
  inferInstanceAs (Decidable (∀ k ∈ a.allocCall, _))

/-- The step of the driver in a move. -/
def MapAct.driverAct : MapAct → Option Act
  | .driver a => some a
  | _ => none

/-- Fresh memory is fresh, and no rollback takes a slot that a command or a mapping uses. -/
def Undisturbed (m : Maps) (a : MapAct) : Prop :=
  ∀ b ∈ a.driverAct, FreshMemory m.sys b ∧ RollbackUnused m.sys b ∧ RollbackUnmapped m b

instance (m : Maps) (a : MapAct) : Decidable (Undisturbed m a) :=
  inferInstanceAs (Decidable (∀ b ∈ a.driverAct, _))

/-- Reached by moves that are all undisturbed. -/
abbrev MapsReach (m : Maps) : Prop := Reach Maps.step Undisturbed .init m

section Table

variable {st st' : Sys} {a : Act}

/-- A step takes slot `i` from the table: a rollback its own, `release` those of its session. -/
def Takes (st : Sys) (a : Act) (i : Fin maxBuffers) : Prop :=
  (∃ k ∈ a.allocCall, (st.allocs k).pc = .rollback ∧ (st.allocs k).slot = i) ∨
    ∃ s, st.phase s = .relFree ∧ i ∈ st.ownedBuffers s

/-- How the table changes in one step, and what is freed. -/
inductive TableMove (st : Sys) (a : Act) (st' : Sys) : Prop where
  | keep : st'.buffers = st.buffers → st'.frees = st.frees → TableMove st a st'
  | publish (k : Nat) (i : Fin maxBuffers) (kaddr dmaAddr : Nat) :
      a.grants = some (k, dmaAddr) → (st.allocs k).pc = .publish →
      (st.buffers i).inUse = false →
      st'.buffers = Function.update st.buffers i
        ⟨kaddr, dmaAddr, (st.allocs k).size, true, some (st.allocs k).sess⟩ →
      st'.frees = st.frees → TableMove st a st'
  | take (slots : List (Fin maxBuffers)) (freed : List DmaFree) :
      (∀ i ∈ slots, Takes st a i) →
      (∀ i, st'.buffers i = if i ∈ slots then (st.buffers i).release else st.buffers i) →
      st'.frees = st.frees ++ freed → (∀ f ∈ freed, f.slot ∈ slots) → TableMove st a st'

/-- Every step changes the table in one of these ways. -/
theorem Trans.tableMove (h : Trans st a st') : TableMove st a st' := by
  cases h with
  | publish k i kaddr dmaAddr hk hp hq hf =>
    exact .publish k i kaddr dmaAddr rfl hp (freeBufSlot_spec hf) rfl rfl
  | rollback k mem hk hp =>
    refine .take [(st.allocs k).slot] _ ?_ ?_ rfl ?_
    · intro i hi
      rw [List.mem_singleton] at hi
      exact .inl ⟨k, rfl, hp, hi.symm⟩
    · intro i
      show Function.update st.buffers _ _ i = _
      simp only [Function.update_apply, List.mem_singleton]
      split
      · next he => rw [he]
      · rfl
    · intro f hf
      rw [List.mem_singleton] at hf ⊢
      rw [hf]
  | relFree s hs =>
    refine .take (setBits (st.ownedBuffers s)) _ ?_ (releaseSlots_apply _ _) rfl ?_
    · intro i hi
      exact .inr ⟨s, hs, mem_setBits.mp hi⟩
    · intro f hf
      rw [releaseFrees_eq] at hf
      obtain ⟨i, hi, rfl⟩ := List.mem_map.mp hf
      exact hi
  | _ => exact .keep rfl rfl

/-- A slot of an open session that no rollback takes keeps its entry. -/
theorem Trans.entry_kept {ok : Sys → Act → Prop} (hr : ReachBy ok st) (h : Trans st a st')
    {s : Sid} {i : Fin maxBuffers} (hs : st.phase s = .opened)
    (hu : (st.buffers i).inUse = true) (ho : (st.buffers i).owner = some s)
    (hroll : ∀ k ∈ a.allocCall, (st.allocs k).pc = .rollback → i ≠ (st.allocs k).slot) :
    st'.buffers i = st.buffers i := by
  cases h.tableMove with
  | keep hb _ => rw [hb]
  | publish k j kaddr dmaAddr _ _ hf hb =>
    rw [hb, Function.update_of_ne]
    rintro rfl
    rw [hf] at hu
    cases hu
  | take slots freed ht hb =>
    rw [hb, if_neg]
    intro hi
    rcases ht i hi with ⟨k, hk, hp, he⟩ | ⟨r, hp, hmem⟩
    · exact hroll k hk hp he.symm
    · -- the slot would belong to a session that is being released
      have hown := ((bufInv hr).1.held (hp ▸ rfl) hmem).2
      rw [ho] at hown
      rw [Option.some.inj hown, hp] at hs
      cases hs

/-- The memory of slots in use does not overlap. -/
def SlotsApart (b : Fin maxBuffers → BufEntry) : Prop :=
  ∀ i j, (b i).inUse = true → (b j).inUse = true → i ≠ j → Disjoint (b i).bytes (b j).bytes

/-- Fresh memory and slots given back leave the slots apart. -/
theorem Trans.slotsApart (h : Trans st a st') (hfresh : FreshMemory st a)
    (hi : SlotsApart st.buffers) : SlotsApart st'.buffers := by
  cases h.tableMove with
  | keep hb _ => rwa [hb]
  | publish k n kaddr dmaAddr hg hp _ hb =>
    have hnew := hfresh _ hg hp
    intro i j hui huj hne
    rw [hb] at hui huj ⊢
    simp only [Function.update_apply] at hui huj ⊢
    split at hui
    · next hin =>
      have hjn : j ≠ n := fun he ↦ hne (hin.trans he.symm)
      rw [if_neg hjn] at huj
      rw [if_pos hin, if_neg hjn]
      exact hnew j huj
    · next hin =>
      rw [if_neg hin]
      split at huj
      · next hjn =>
        rw [if_pos hjn]
        exact (hnew i hui).symm
      · next hjn =>
        rw [if_neg hjn]
        exact hi i j hui huj hne
  | take slots freed _ hb =>
    have hback {i : Fin maxBuffers} (hu : (st'.buffers i).inUse = true) :
        st'.buffers i = st.buffers i := by
      rw [hb] at hu ⊢
      split
      · next hin =>
        rw [if_pos hin] at hu
        cases hu
      · rfl
    intro i j hui huj hne
    have hbi := hback hui
    have hbj := hback huj
    rw [hbi] at hui ⊢
    rw [hbj] at huj ⊢
    exact hi i j hui huj hne

/-- What a step frees is in use no longer. -/
theorem Trans.freed_unused (h : Trans st a st') {freed : List DmaFree}
    (hf : st'.frees = st.frees ++ freed) : ∀ f ∈ freed, (st'.buffers f.slot).inUse = false := by
  have hnone (he : st'.frees = st.frees) : freed = [] := by
    rw [he] at hf
    exact List.self_eq_append_right.mp hf
  intro f hmem
  cases h.tableMove with
  | keep _ he => simp [hnone he] at hmem
  | publish _ _ _ _ _ _ _ _ he => simp [hnone he] at hmem
  | take slots freed' _ hb he hslots =>
    rw [hf] at he
    obtain rfl := List.append_cancel_left he
    rw [hb, if_pos (hslots f hmem)]
    rfl

end Table

/-- The mapping shows memory of a slot that its session, which is open, has in use. -/
structure Vma.Shows (st : Sys) (v : Vma) : Prop where
  opened : st.phase v.sess = .opened
  inUse : (st.buffers v.slot).inUse = true
  owner : (st.buffers v.slot).owner = some v.sess
  kaddr : (st.buffers v.slot).kaddr = v.kaddr
  dmaAddr : (st.buffers v.slot).dmaAddr = v.dmaAddr
  fits : v.off + v.len ≤ (st.buffers v.slot).size

namespace Vma.Shows

variable {st st' : Sys} {v : Vma}

/-- What is shown is memory of the slot. -/
theorem bytes_subset (h : v.Shows st) : v.bytes ⊆ (st.buffers v.slot).bytes := by
  have hfits := h.fits
  have hstart := h.dmaAddr
  apply Set.Ico_subset_Ico
  · omega
  · omega

/-- It lasts while the session stays open and the entry as it is. -/
theorem frame (h : v.Shows st) (hphase : st'.phase v.sess = .opened)
    (hentry : st'.buffers v.slot = st.buffers v.slot) : v.Shows st' := by
  constructor
  · exact hphase
  · rw [hentry]; exact h.inUse
  · rw [hentry]; exact h.owner
  · rw [hentry]; exact h.kaddr
  · rw [hentry]; exact h.dmaAddr
  · rw [hentry]; exact h.fits

/-- A part of a mapping shows what it is a part of. -/
theorem part (h : v.Shows st) {off len : Nat} (hlen : off + len ≤ v.len) :
    Vma.Shows st { v with off := v.off + off, len := len } := by
  have hfits := h.fits
  refine ⟨h.opened, h.inUse, h.owner, h.kaddr, h.dmaAddr, ?_⟩
  show v.off + off + len ≤ (st.buffers v.slot).size
  omega

/-- What `dma_accel_chr_mmap` makes shows memory of the caller. -/
theorem of_chrMmap {s : Sid} {bufferId reqSize : Nat} {mapped : Ret}
    (ho : st.phase s = .opened) (hv : v ∈ chrMmapVma st s bufferId reqSize mapped) :
    v.Shows st := by
  unfold chrMmapVma at hv
  split at hv
  · next hid =>
    split at hv
    · next n hret =>
      rw [List.mem_singleton] at hv
      subst hv
      simp only [chrMmap, dif_pos hid] at hret
      split at hret
      · cases hret
      · next huse =>
        split at hret
        · cases hret
        · next howner =>
          simp only [Bool.or_eq_true, Bool.not_eq_true', decide_eq_true_eq, not_or,
            Bool.not_eq_false, Nat.not_lt] at huse
          refine ⟨ho, huse.1, not_not.mp howner, rfl, rfl, ?_⟩
          rw [Nat.zero_add]
          exact huse.2
    · cases hv
  · cases hv

end Vma.Shows

section Runs

variable {m m' : Maps} {a : MapAct}

/-- The invariant of the runs. -/
structure MapsInv (m : Maps) : Prop where
  reach : ReachBy RollbackUnused m.sys
  apart : SlotsApart m.sys.buffers
  shows : ∀ v ∈ m.vmas, v.Shows m.sys

namespace MapsInv

/-- It holds before anything is mapped. -/
theorem init : MapsInv .init := by
  constructor
  · exact .start
  · intro i j hi
    cases hi
  · intro v hv
    cases hv

/-- A step of the driver pulls nothing from under a mapping. -/
theorem driver (h : MapsInv m) {b : Act} {st' : Sys} (hok : Undisturbed m (.driver b))
    (hopen : ∀ s ∈ b.closes, ∀ v ∈ m.vmas, v.sess ≠ s) (hs : Driver.step m.sys b = some st') :
    MapsInv { m with sys := st' } := by
  obtain ⟨hfresh, hunused, hunmapped⟩ := hok b rfl
  have ht := trans_of_step hs
  constructor
  · exact .next h.reach hunused hs
  · exact ht.slotsApart hfresh h.apart
  · intro v hv
    have hv' := h.shows v hv
    apply hv'.frame
    · cases ht.phaseMove v.sess with
      | keep hp => exact hp.trans hv'.opened
      | opens _ _ hp => exact hp
      | closes he =>
        subst he
        exact absurd rfl (hopen v.sess rfl v hv)
      | wakes hp | polls hp | frees hp | kfrees _ hp =>
        rw [hv'.opened] at hp
        cases hp
    · exact ht.entry_kept h.reach hv'.opened hv'.inUse hv'.owner fun k hk hp ↦
        hunmapped k hk hp v hv

/-- Every undisturbed move keeps it. -/
theorem step (h : MapsInv m) (hok : Undisturbed m a) (hs : m.step a = some m') : MapsInv m' := by
  cases a with
  | driver b =>
    simp only [Maps.step] at hs
    split at hs
    · next hopen =>
      obtain ⟨st', hst, rfl⟩ := Option.map_eq_some_iff.mp hs
      exact h.driver hok hopen hst
    · cases hs
  | mmap s bufferId reqSize mapped =>
    simp only [Maps.step] at hs
    split at hs
    · next ho =>
      cases hs
      refine ⟨h.reach, h.apart, ?_⟩
      intro v hv
      rcases List.mem_append.mp hv with hold | hnew
      · exact h.shows v hold
      · exact .of_chrMmap ho hnew
    · cases hs
  | copy v off len =>
    simp only [Maps.step] at hs
    split at hs
    · next hpart =>
      cases hs
      refine ⟨h.reach, h.apart, ?_⟩
      intro w hw
      rcases List.mem_cons.mp hw with rfl | hold
      · exact (h.shows v hpart.1).part hpart.2
      · exact h.shows w hold
    · cases hs
  | unmap v =>
    simp only [Maps.step] at hs
    split at hs
    · cases hs
      refine ⟨h.reach, h.apart, ?_⟩
      intro w hw
      exact h.shows w (List.mem_of_mem_erase hw)
    · cases hs

end MapsInv

/-- It holds along every undisturbed run. -/
theorem mapsInv (h : MapsReach m) : MapsInv m :=
  h.invariant MapsInv.init fun _ _ _ _ hi hok hs ↦ hi.step hok hs

/-- A move takes a step of the driver or leaves it as it is. -/
theorem Maps.driver_step (hs : m.step a = some m') :
    (∃ b, Driver.step m.sys b = some m'.sys) ∨ m'.sys = m.sys := by
  cases a with
  | driver b =>
    simp only [Maps.step] at hs
    split at hs
    · obtain ⟨st', hst, rfl⟩ := Option.map_eq_some_iff.mp hs
      exact .inl ⟨b, hst⟩
    · cases hs
  | mmap | copy | unmap =>
    simp only [Maps.step] at hs
    split at hs
    · cases hs
      exact .inr rfl
    · cases hs

/-- What a move frees is in use no longer. -/
theorem Maps.freed_unused (hs : m.step a = some m') {freed : List DmaFree}
    (hf : m'.sys.frees = m.sys.frees ++ freed) :
    ∀ f ∈ freed, (m'.sys.buffers f.slot).inUse = false := by
  rcases Maps.driver_step hs with ⟨b, hstep⟩ | hsame
  · exact (trans_of_step hstep).freed_unused hf
  · rw [hsame] at hf
    simp [List.self_eq_append_right.mp hf]

/-- Slots of different sessions are different slots. -/
theorem Vma.Shows.apart {v : Vma} {st : Sys} (h : v.Shows st) (ha : SlotsApart st.buffers)
    {i : Fin maxBuffers} {s : Sid} (hu : (st.buffers i).inUse = true)
    (ho : (st.buffers i).owner = some s) (hne : s ≠ v.sess) :
    Disjoint (st.buffers i).bytes v.bytes := by
  refine (ha i v.slot hu h.inUse ?_).mono_right h.bytes_subset
  rintro rfl
  rw [h.owner] at ho
  exact hne (Option.some.inj ho).symm

/-- A covered range is apart from what another session's mappings show. -/
theorem Vma.Shows.covered_apart {v : Vma} {st : Sys} (h : v.Shows st)
    (ha : SlotsApart st.buffers) {s : Sid} {addr len : Nat} (hc : covered st.buffers s addr len)
    (hne : s ≠ v.sess) : Disjoint (Driver.bytes addr len) v.bytes := by
  obtain ⟨i, hu, ho, hlo, hhi⟩ := hc
  exact (h.apart ha hu ho hne).mono_left (Set.Ico_subset_Ico hlo hhi)

/-- The memory that the device reads and writes for a command. -/
def Admitted.touches (x : Admitted) (addr : Nat) : Prop :=
  addr = x.cmd.srcAddr ∨ addr = x.cmd.dstAddr ∨
    opcodeNeedsSrc2 x.cmd.opcode = true ∧ addr = x.cmd.src2Addr

/-- Isolation of memory: in every run in which `dma_alloc_coherent` hands out memory that is free
and no rollback takes a slot from under a command or a mapping, whatever is mapped, copied, cut
and unmapped beside the calls of the driver, a mapping shows the memory of a slot that is in use
and belongs to the session of its file, which is open; mappings of different sessions show
different memory; no command in flight makes the device touch what another session's mapping
shows; and no step frees memory that is mapped. -/
theorem mappings_isolated (h : MapsReach m) :
    (∀ v ∈ m.vmas, v.Shows m.sys) ∧
    (∀ v ∈ m.vmas, ∀ w ∈ m.vmas, v.sess ≠ w.sess → Disjoint v.bytes w.bytes) ∧
    (∀ x ∈ unrouted m.sys, ∀ v ∈ m.vmas, x.sess ≠ v.sess → ∀ addr, x.touches addr →
      Disjoint (bytes addr x.cmd.len.toNat) v.bytes) ∧
    ∀ a m', Undisturbed m a → m.step a = some m' → ∀ freed, m'.sys.frees = m.sys.frees ++ freed →
      ∀ f ∈ freed, ∀ v ∈ m'.vmas, v.slot ≠ f.slot := by
  have hi := mapsInv h
  refine ⟨hi.shows, ?_, ?_, ?_⟩
  · intro v hv w hw hne
    have hv' := hi.shows v hv
    exact ((hi.shows w hw).apart hi.apart hv'.inUse hv'.owner hne).mono_left hv'.bytes_subset
  · intro x hx v hv hne addr ht
    obtain ⟨hsrc, hdst, hsrc2⟩ := unrouted_backed hi.reach x hx
    have hshows := hi.shows v hv
    rcases ht with rfl | rfl | ⟨hop, rfl⟩
    · exact hshows.covered_apart hi.apart hsrc hne
    · exact hshows.covered_apart hi.apart hdst hne
    · exact hshows.covered_apart hi.apart (hsrc2 hop) hne
  · intro a m' hok hs freed hf f hmem v hv heq
    have hused := ((hi.step hok hs).shows v hv).inUse
    rw [heq, Maps.freed_unused hs hf f hmem] at hused
    cases hused

/-- The second session's buffer is mapped and the mapping copied in part; the first has its own
buffer mapped and a command on it in flight. -/
theorem mappings_isolated_two : ∃ m : Maps, MapsReach m ∧ m.vmas.length = 3 ∧
    (unrouted m.sys).length = 1 ∧ ∀ x ∈ unrouted m.sys, ∀ v ∈ m.vmas, x.sess ≠ v.sess →
      Disjoint (bytes x.cmd.dstAddr x.cmd.len.toNat) v.bytes := by
  have hrun : (runChecked Maps.step (fun m a ↦ decide (Undisturbed m a)) .init
      ((.chrOpen :: .chrOpen :: allocScript 0 0 ++ allocScript 1 1).map .driver ++
        [.mmap 1 1 4096 (.ok 0), .copy ⟨1, 1, 0, 8192, 0, 4096⟩ 1024 1024, .mmap 1 0 4096 (.ok 0),
          .mmap 0 0 4096 (.ok 0)] ++
        (submitScript 0 0 0 14).map .driver)).any
      (fun m ↦ decide (m.vmas.length = 3 ∧ (unrouted m.sys).length = 1)) = true := by
    decide +kernel
  obtain ⟨m, hm, hp⟩ := Reach.exists_of_runChecked (fun _ _ hc ↦ of_decide_eq_true hc) hrun
  obtain ⟨hmaps, hone⟩ := of_decide_eq_true hp
  refine ⟨m, hm, hmaps, hone, ?_⟩
  intro x hx v hv hne
  exact (mappings_isolated hm).2.2.1 x hx v hv hne _ (.inr (.inl rfl))

/-- A thread maps slot 0 while the BUFFER_ALLOC that published it has yet to return. The call
faults, its rollback frees the memory under the mapping, and another session is given it. -/
theorem rollback_under_mapping : ¬∀ m : Maps,
    Reach Maps.step (fun m a ↦ ∀ b ∈ a.driverAct, FreshMemory m.sys b) .init m →
      ∀ v ∈ m.vmas, ∀ w ∈ m.vmas, v.sess ≠ w.sess → Disjoint v.bytes w.bytes := by
  have hrun : (runChecked Maps.step
      (fun m a ↦ decide (∀ b ∈ a.driverAct, FreshMemory m.sys b)) .init
      ([.driver .chrOpen, .driver .chrOpen, .driver (.alloc 0 4096), .driver (.allocStep 0 none),
          .driver (.allocStep 0 (some (0, 4096))), .mmap 0 0 4096 (.ok 0),
          .driver (.allocFault 0), .driver (.allocStep 0 none), .driver (.alloc 1 4096),
          .driver (.allocStep 1 none), .driver (.allocStep 1 (some (0, 4096))),
          .driver (.allocStep 1 none), .mmap 1 0 4096 (.ok 0)])).any
      (fun m ↦ decide (m.vmas = [⟨0, 0, 0, 4096, 0, 4096⟩, ⟨1, 0, 0, 4096, 0, 4096⟩])) = true := by
    decide +kernel
  obtain ⟨m, hm, hp⟩ := Reach.exists_of_runChecked (fun _ _ hc ↦ of_decide_eq_true hc) hrun
  have hvmas := of_decide_eq_true hp
  intro hall
  have hapart := hall m hm ⟨0, 0, 0, 4096, 0, 4096⟩ (by simp [hvmas]) ⟨1, 0, 0, 4096, 0, 4096⟩
    (by simp [hvmas]) (by decide)
  revert hapart
  decide

end Runs

end DmaAccel.Driver
