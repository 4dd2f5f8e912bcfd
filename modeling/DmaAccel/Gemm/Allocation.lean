import DmaAccel.Client.Serving
import DmaAccel.Gemm.Stages
import DmaAccel.Runtime.Context

/-!
# What the GEMM programs ask of the driver

Source `track-a/dma_accel_gemm_stage1.cpp`, `track-a/dma_accel_gemm_stage2.cpp`,
`track-a/dma_accel_gemm_stage3.cpp` and `track-a/dma_accel_gemm_row_via_scale_add.cpp`: each `main`
opens one Stream, asks for Buffers of one size, keeps every Buffer that `alloc_buffer` returns until
it ends, and returns 1 on an exception. There is no BUFFER_FREE, so that a program comes to its
comparison only within the quota of its session. Stage 3 and the row were sized for `MAX_BUFFERS`,
before there was a quota.
-/

namespace DmaAccel.Gemm

open DmaAccel.Base
open DmaAccel.Driver (Sys Sid U32 Ret maxBuffers bufferAllocMax defaultBufferQuota acceptsSize
  freeSlots stepOf holders mem_holders)
open DmaAccel.Runtime (Buffer Stream Thrown)

/-- Where a program is: outside `alloc_buffer`, in its ioctl as the driver's call `k`, or at the
handler of an exception. -/
inductive Program.Point where
  | running
  | ioctl (k : Nat)
  | caught (e : Thrown)
  deriving DecidableEq

/-- The driver, and a program on the Stream of session `sess` with the Buffers it has got. The
driver's calls they came from are history. -/
structure Program where
  sys : Sys
  sess : Sid
  buffers : List Buffer
  calls : List Nat
  point : Program.Point

/-- The program opens its Stream. -/
def Program.start (sys : Sys) : Program := ⟨Driver.chrOpen sys, sys.nsess, [], [], .running⟩

/-- A move of any party of the driver, which the program's own calls of the Stream are made of, or
the start or the end of an `alloc_buffer` of the program. -/
inductive Program.Act where
  | driver (a : Driver.Act)
  | allocBuffer
  | allocReturn (mapped : Ret)
  deriving DecidableEq

/-- The step function of a program with Buffers of `size` bytes. -/
def Program.step (size : U32) (p : Program) : Act → Option Program
  | .driver a => (Driver.step p.sys a).map fun st ↦ { p with sys := st }
  | .allocBuffer =>
    if p.point = .running then
      (Driver.step p.sys (.alloc p.sess size)).map fun st ↦
        { p with sys := st, point := .ioctl p.sys.nallocs }
    else none
  | .allocReturn mapped =>
    match p.point with
    | .ioctl k =>
      if (p.sys.allocs k).pc = .returned then
        match Stream.allocBuffer p.sys k mapped with
        | .ok buf =>
          some { p with buffers := p.buffers ++ [buf], calls := p.calls ++ [k], point := .running }
        | .error e => some { p with point := .caught e }
      else none
    | _ => none

/-- Nobody but the program allocates on its file or closes it. -/
def Program.OwnFile (p : Program) : Act → Prop
  | .driver (.alloc s _) => s ≠ p.sess
  | .driver (.chrRelease s) => s ≠ p.sess
  | _ => True

/-- The step is one of the program's `alloc_buffer`. -/
def Program.OwnStep (p : Program) : Act → Prop
  | .driver a => ∃ k, p.point = .ioctl k ∧ stepOf k p.sys a
  | _ => True

/-- A program may get the Buffers that it takes to reach its comparison. -/
def Obtainable (size : U32) (n : Nat) : Prop :=
  ∃ st p, Driver.Reachable st ∧ Reach (Program.step size) anyStep (.start st) p ∧
    p.buffers.length = n

/-- Whatever the other parties have done, a program that has not been refused gets the Buffers that
are missing, given memory for them, where the table has a slot for each. -/
def Secured (size : U32) (n : Nat) : Prop :=
  ∀ st p, Driver.Reachable st → Reach (Program.step size) Program.OwnFile (.start st) p →
    p.point = .running → p.buffers.length ≤ n → n ≤ p.buffers.length + (freeSlots p.sys).card →
      ∃ p', Reach (Program.step size) Program.OwnStep p p' ∧ p'.buffers.length = n

/-- The Buffers of a program come from calls of its session that have succeeded, each from one of
its own. -/
structure Obtained (size : U32) (p : Program) : Prop where
  reach : Driver.Reachable p.sys
  length : p.calls.length = p.buffers.length
  nodup : p.calls.Nodup
  granted : ∀ k ∈ p.calls, k < p.sys.nallocs ∧ (p.sys.allocs k).sess = p.sess ∧
    (p.sys.allocs k).reqSize = size ∧ (p.sys.allocs k).granted = true
  calling : ∀ k, p.point = .ioctl k → k ∉ p.calls ∧ k < p.sys.nallocs ∧
    (p.sys.allocs k).sess = p.sess ∧ (p.sys.allocs k).reqSize = size

variable {size : U32} {p p' : Program} {b : Program.Act} {st st' : Sys} {a : Driver.Act} {k n : Nat}

/-- What a step of a program can be. -/
theorem Program.step_cases (h : p.step size b = some p') :
    (∃ a st, b = .driver a ∧ Driver.step p.sys a = some st ∧ p' = { p with sys := st }) ∨
    (b = .allocBuffer ∧ p.point = .running ∧
      Driver.step p.sys (.alloc p.sess size) = some (Driver.ioctlAlloc p.sys p.sess size) ∧
      p' = { p with
        sys := Driver.ioctlAlloc p.sys p.sess size
        point := .ioctl p.sys.nallocs }) ∨
    ∃ k mapped, p.point = .ioctl k ∧ (p.sys.allocs k).pc = .returned ∧
      ((∃ buf, Stream.allocBuffer p.sys k mapped = .ok buf ∧
        p' = { p with
          buffers := p.buffers ++ [buf]
          calls := p.calls ++ [k]
          point := .running }) ∨
        ∃ e, p' = { p with point := .caught e }) := by
  cases b with
  | driver a =>
    obtain ⟨st, hs, rfl⟩ := Option.map_eq_some_iff.mp h
    exact .inl ⟨a, st, rfl, hs, rfl⟩
  | allocBuffer =>
    simp only [Program.step, Option.ite_none_right_eq_some, Option.map_eq_some_iff] at h
    obtain ⟨hp, st, hs, rfl⟩ := h
    obtain ⟨-, rfl⟩ : _ ∧ Driver.ioctlAlloc p.sys p.sess size = st := by
      simpa [Driver.step] using hs
    exact .inr (.inl ⟨rfl, hp, hs, rfl⟩)
  | allocReturn mapped =>
    simp only [Program.step] at h
    split at h
    case h_1 k hp =>
      rw [Option.ite_none_right_eq_some] at h
      obtain ⟨hr, h⟩ := h
      refine .inr (.inr ⟨k, mapped, hp, hr, ?_⟩)
      split at h <;> cases h
      case h_1 buf hbuf => exact .inl ⟨buf, hbuf, rfl⟩
      case h_2 e _ => exact .inr ⟨e, rfl⟩
    case h_2 => cases h

/-- `alloc_buffer` returns a Buffer only if its ioctl has succeeded. -/
theorem granted_of_allocBuffer {mapped : Ret} {buf : Buffer} (hr : (st.allocs k).pc = .returned)
    (h : Stream.allocBuffer st k mapped = .ok buf) : (st.allocs k).granted = true := by
  unfold Stream.allocBuffer at h
  cases hret : (st.allocs k).ret with
  | err e => simp [hret] at h
  | ok n => simp [Driver.Alloc.granted, hr, hret]

namespace Obtained

theorem start (h : Driver.Reachable st) : Obtained size (.start st) where
  reach := .next (a := .chrOpen) h trivial rfl
  length := rfl
  nodup := List.nodup_nil
  granted _ hk := by cases hk
  calling _ hp := by cases hp

/-- Other parties leave the program's calls as they are. -/
theorem driver (hi : Obtained size p) (h : Driver.step p.sys a = some st) :
    Obtained size { p with sys := st } := by
  have ht := Driver.trans_of_step h
  refine ⟨.next hi.reach trivial h, hi.length, hi.nodup, ?_, ?_⟩
  · intro k hk
    obtain ⟨hlt, hs, hsize, hg⟩ := hi.granted k hk
    obtain ⟨hlt', hsame⟩ := ht.allocs_returned hlt (Driver.Alloc.returned_of_granted hg)
    refine ⟨hlt', ?_⟩
    rw [hsame]
    exact ⟨hs, hsize, hg⟩
  · intro k hp
    obtain ⟨hnot, hlt, hs, hsize⟩ := hi.calling k hp
    obtain ⟨hlt', hs'⟩ := ht.alloc_sess hlt
    exact ⟨hnot, hlt', hs'.trans hs, (ht.alloc_reqSize hlt).trans hsize⟩

/-- Each step keeps it. -/
theorem step (hi : Obtained size p) (h : p.step size b = some p') : Obtained size p' := by
  rcases Program.step_cases h with ⟨a, st, -, hs, rfl⟩ | ⟨-, -, hs, rfl⟩ |
    ⟨k, mapped, hpoint, hr, ⟨buf, hbuf, rfl⟩ | ⟨e, rfl⟩⟩
  · exact hi.driver hs
  · have hnew := hi.driver hs
    refine ⟨hnew.reach, hnew.length, hnew.nodup, hnew.granted, ?_⟩
    rintro k ⟨⟩
    refine ⟨fun hk ↦ absurd (hi.granted _ hk).1 (Nat.lt_irrefl _), ?_⟩
    exact ⟨Nat.lt_succ_self _, by simp [Driver.ioctlAlloc], by simp [Driver.ioctlAlloc]⟩
  · obtain ⟨hnot, hlt, hs, hsize⟩ := hi.calling k hpoint
    refine ⟨hi.reach, ?_, ?_, ?_, fun _ hp ↦ by cases hp⟩
    · simp only [List.length_append, hi.length, List.length_singleton]
    · refine List.nodup_append.mpr ⟨hi.nodup, List.nodup_singleton k, ?_⟩
      rintro x hx y hy rfl
      exact hnot (List.mem_singleton.mp hy ▸ hx)
    · intro l hl
      obtain hl | hl := List.mem_append.mp hl
      · exact hi.granted l hl
      · rw [List.mem_singleton.mp hl]
        exact ⟨hlt, hs, hsize, granted_of_allocBuffer hr hbuf⟩
  · exact ⟨hi.reach, hi.length, hi.nodup, hi.granted, fun _ hp ↦ by cases hp⟩

/-- It holds along every run. -/
theorem of_reach {ok : Program → Program.Act → Prop} (hst : Driver.Reachable st)
    (h : Reach (Program.step size) ok (.start st) p) : Obtained size p :=
  h.invariant (.start hst) fun _ _ _ _ hi _ hs ↦ hi.step hs

/-- The quota bounds what a program gets. -/
theorem length_le (hi : Obtained size p) : p.buffers.length ≤ defaultBufferQuota := by
  have hsub : p.calls.toFinset ⊆ holders p.sys p.sess := by
    intro k hk
    obtain ⟨hlt, hs, -, hg⟩ := hi.granted k (List.mem_toFinset.mp hk)
    exact mem_holders.mpr ⟨hlt, hs, by rw [Driver.Alloc.hasSlot, hg, Bool.true_or]⟩
  calc p.buffers.length = p.calls.toFinset.card := by
        rw [List.toFinset_card_of_nodup hi.nodup, hi.length]
    _ ≤ (holders p.sys p.sess).card := Finset.card_le_card hsub
    _ ≤ defaultBufferQuota := Driver.card_holders_le hi.reach p.sess

/-- A program that has got a Buffer asks for a size that the driver takes. -/
theorem acceptsSize_of_pos (hi : Obtained size p) (h : 0 < p.buffers.length) :
    acceptsSize size := by
  obtain ⟨k, hk⟩ := List.exists_mem_of_length_pos (hi.length ▸ h)
  obtain ⟨hlt, -, hsize, hg⟩ := hi.granted k hk
  rw [← hsize]
  exact Driver.acceptsSize_of_hasSlot hi.reach hlt (by rw [Driver.Alloc.hasSlot, hg, Bool.true_or])

end Obtained

/-- The file of a program is open, and its calls of BUFFER_ALLOC are those that gave the program a
Buffer, the one it is in and one that threw. -/
structure Exclusive (p : Program) : Prop where
  opened : p.sys.phase p.sess = .opened
  calls : ∀ k < p.sys.nallocs, (p.sys.allocs k).sess = p.sess →
    k ∈ p.calls ∨ p.point = .ioctl k ∨ ∃ e, p.point = .caught e

namespace Exclusive

/-- No call has been made on a file that was never opened. -/
theorem start (h : Driver.Reachable st) : Exclusive (.start st) where
  opened := Function.update_self ..
  calls k hk hs := by
    have hs : (st.allocs k).sess = st.nsess := hs
    refine absurd ((Driver.sessInv h).fresh _ (Nat.le_of_eq rfl)) ?_
    exact hs ▸ (Driver.grantInv h).known k hk

/-- Others leave the file alone. -/
theorem driver (hi : Exclusive p) (hok : p.OwnFile (.driver a))
    (h : Driver.step p.sys a = some st) : Exclusive { p with sys := st } := by
  have ht := Driver.trans_of_step h
  constructor
  · refine ht.opened_after ?_ hi.opened
    rintro rfl
    exact hok rfl
  · intro k hk hs
    have hne : ∀ size, a ≠ .alloc p.sess size := by
      rintro size rfl
      exact hok rfl
    obtain ⟨hlt, hs'⟩ := ht.alloc_old hne hk hs
    exact hi.calls k hlt hs'

/-- Each step keeps it. -/
theorem step (hi : Exclusive p) (hok : p.OwnFile b) (h : p.step size b = some p') :
    Exclusive p' := by
  rcases Program.step_cases h with ⟨a, st, rfl, hs, rfl⟩ | ⟨-, hp, hs, rfl⟩ |
    ⟨k, mapped, hpoint, -, ⟨buf, -, rfl⟩ | ⟨e, rfl⟩⟩
  · exact hi.driver hok hs
  · refine ⟨hi.opened, fun k hk hsess ↦ ?_⟩
    by_cases hnew : k = p.sys.nallocs
    · exact .inr (.inl (hnew ▸ rfl))
    · have hlt : k < p.sys.nallocs + 1 := hk
      have hold : (Driver.ioctlAlloc p.sys p.sess size).allocs k = p.sys.allocs k :=
        Function.update_of_ne hnew _ _
      have hcalls := hi.calls k (by omega) (hold ▸ hsess)
      simpa [hp] using hcalls.imp_right (by simp [hp])
  · refine ⟨hi.opened, fun l hl hs ↦ .inl (List.mem_append.mpr ?_)⟩
    have hcalls := hi.calls l hl hs
    simpa [hpoint, eq_comm] using hcalls
  · exact ⟨hi.opened, fun l _ _ ↦ .inr (.inr ⟨e, rfl⟩)⟩

/-- It holds along every run that leaves the file alone. -/
theorem of_reach (hst : Driver.Reachable st)
    (h : Reach (Program.step size) Program.OwnFile (.start st) p) : Exclusive p :=
  h.invariant (.start hst) fun _ _ _ _ hi hok hs ↦ hi.step hok hs

/-- The slots of the session are those of the program's Buffers. -/
theorem card_owned_le (hi : Exclusive p) (ho : Obtained size p) (hp : p.point = .running) :
    (p.sys.ownedBuffers p.sess).card ≤ p.buffers.length := by
  have hsub : p.sys.ownedBuffers p.sess ⊆
      p.calls.toFinset.image fun k ↦ (p.sys.allocs k).slot := by
    intro i hmem
    obtain ⟨k, hk, hs, -, hslot⟩ := Driver.slotsNamed ho.reach _ i hmem
    have hcalls : k ∈ p.calls := by simpa [hp] using hi.calls k hk hs
    exact Finset.mem_image.mpr ⟨k, List.mem_toFinset.mpr hcalls, hslot⟩
  calc (p.sys.ownedBuffers p.sess).card ≤ p.calls.toFinset.card :=
        (Finset.card_le_card hsub).trans Finset.card_image_le
    _ = p.buffers.length := by rw [List.toFinset_card_of_nodup ho.nodup, ho.length]

end Exclusive

/-! ## A program by itself -/

/-- The program with the Buffer that slot `i` has become. -/
def Program.got (p : Program) (size : U32) (i : Fin maxBuffers) : Program :=
  { p with
    sys := p.sys.served p.sess size i 0 0
    buffers := p.buffers ++ [⟨some p.sess, size, BitVec.ofNat 32 i.val⟩]
    calls := p.calls ++ [p.sys.nallocs] }

/-- Steps of the driver in a call of the program are steps of the program. -/
theorem Program.reach_of_driver (size : U32) (hp : p.point = .ioctl k)
    (h : Reach Driver.step (stepOf k) st st') :
    Reach (Program.step size) Program.OwnStep { p with sys := st } { p with sys := st' } := by
  induction h with
  | start => exact .start
  | next _ hok hs ih =>
    refine .next (a := .driver _) ih ⟨k, hp, hok⟩ ?_
    simp only [Program.step, hs, Option.map_some]

/-- An `alloc_buffer` by itself returns a Buffer, given a size that is taken, a session below its
quota and a free slot. -/
theorem Program.reach_got {i : Fin maxBuffers} (hp : p.point = .running)
    (ho : p.sys.phase p.sess = .opened) (hsize : acceptsSize size)
    (hq : (p.sys.ownedBuffers p.sess).card < defaultBufferQuota)
    (hi : Driver.freeBufSlot p.sys.buffers = some i) :
    Reach (Program.step size) Program.OwnStep p (p.got size i) := by
  have hcall : p.step size .allocBuffer = some
      { p with
        sys := Driver.ioctlAlloc p.sys p.sess size
        point := .ioctl p.sys.nallocs } := by
    simp [Program.step, Driver.step, hp, ho]
  have hioctl := Program.reach_of_driver (p := { p with point := .ioctl p.sys.nallocs }) size rfl
    (Driver.reach_served hsize hq hi 0 0)
  have hreturn : Program.step size
      { p with
        sys := p.sys.served p.sess size i 0 0
        point := .ioctl p.sys.nallocs } (.allocReturn (.ok 0)) = some (p.got size i) := by
    have hself : (p.sys.served p.sess size i 0 0).allocs p.sys.nallocs =
        .served p.sess size i 0 0 := Function.update_self ..
    have hmap : Stream.allocBuffer (p.sys.served p.sess size i 0 0) p.sys.nallocs (.ok 0) =
        .ok ⟨some p.sess, size, BitVec.ofNat 32 i.val⟩ := by
      have hcheck := Driver.chrMmap_served p.sys p.sess size i 0 0 (.ok 0)
      simp only [Stream.allocBuffer, hself]
      simp only [Driver.Alloc.served] at hcheck ⊢
      simp only [hcheck]
      rfl
    simp [Program.step, hself, hmap, Driver.Alloc.served, Program.got, hp]
  have hcalled : Reach (Program.step size) Program.OwnStep p _ :=
    .next (a := .allocBuffer) .start trivial hcall
  exact .next (a := .allocReturn (.ok 0)) (hcalled.trans hioctl) trivial hreturn

/-- So it goes on as long as there are slots. -/
theorem Program.reach_length (hsize : acceptsSize size) : ∀ (d : Nat) (p : Program),
    p.point = .running → p.sys.phase p.sess = .opened →
    (p.sys.ownedBuffers p.sess).card + d ≤ defaultBufferQuota → d ≤ (freeSlots p.sys).card →
      ∃ p', Reach (Program.step size) Program.OwnStep p p' ∧
        p'.buffers.length = p.buffers.length + d := by
  intro d
  induction d with
  | zero => exact fun p _ _ _ _ ↦ ⟨p, .start, rfl⟩
  | succ d ih =>
    intro p hp ho hq hfree
    obtain ⟨i, hi⟩ := Driver.exists_freeBufSlot_of_card (Nat.lt_of_lt_of_le d.succ_pos hfree)
    have hgot := Program.reach_got hp ho hsize (by omega) hi
    have hcard := Driver.card_freeSlots_served p.sess size 0 0 hi
    have howned := Driver.card_ownedBuffers_served p.sys p.sess size i 0 0
    have hq' : ((p.got size i).sys.ownedBuffers p.sess).card + d ≤ defaultBufferQuota := by
      change ((p.sys.served p.sess size i 0 0).ownedBuffers p.sess).card + d ≤ _
      omega
    have hfree' : d ≤ (freeSlots (p.got size i).sys).card := by
      change d ≤ (freeSlots (p.sys.served p.sess size i 0 0)).card
      omega
    obtain ⟨p', hp', hlen⟩ := ih (p.got size i) hp ho hq' hfree'
    refine ⟨p', hgot.trans hp', ?_⟩
    rw [hlen, Program.got, List.length_append, List.length_singleton]
    omega

/-- Within the quota, and with a size that the driver takes, the Buffers are secured. -/
theorem secured_of_le (hn : n ≤ defaultBufferQuota) (hsize : n = 0 ∨ acceptsSize size) :
    Secured size n := by
  intro st p hst hreach hp hle hroom
  rcases hsize with rfl | hsize
  · exact ⟨p, .start, Nat.le_zero.mp hle⟩
  · have hi := Exclusive.of_reach hst hreach
    have howned := hi.card_owned_le (.of_reach hst hreach) hp
    obtain ⟨p', hp', hlen⟩ := Program.reach_length hsize (n - p.buffers.length) p hp hi.opened
      (by omega) (by omega)
    exact ⟨p', hp', by omega⟩

/-- A program may come to its comparison exactly if it needs no more Buffers than the quota, and
none that is empty or beyond `DMA_ACCEL_BUFFER_ALLOC_MAX`. -/
theorem obtainable_iff (size : U32) (n : Nat) :
    Obtainable size n ↔ n ≤ defaultBufferQuota ∧ (n = 0 ∨ acceptsSize size) := by
  constructor
  · rintro ⟨st, p, hst, hp, rfl⟩
    have hobtained : Obtained size p := .of_reach hst hp
    exact ⟨hobtained.length_le, (Nat.eq_zero_or_pos _).imp_right hobtained.acceptsSize_of_pos⟩
  · rintro ⟨hn, hsize⟩
    have hfree : (freeSlots (Program.start Sys.init).sys).card = maxBuffers := by decide +kernel
    have hroom : n ≤ (Program.start Sys.init).buffers.length +
        (freeSlots (Program.start Sys.init).sys).card := by
      rw [hfree]
      exact (hn.trans (by decide)).trans (Nat.le_add_left ..)
    obtain ⟨p, hp, hlen⟩ := secured_of_le hn hsize Sys.init _ .start .start rfl n.zero_le hroom
    exact ⟨_, p, .start, hp.any, hlen⟩

/-- What a program may come by in some run it comes by in every run, where there is room. -/
theorem secured_of_obtainable (h : Obtainable size n) : Secured size n := by
  obtain ⟨hn, hsize⟩ := (obtainable_iff size n).mp h
  exact secured_of_le hn hsize

namespace Shape

/-- How many tiles A, B and C are cut into. -/
def tiles (S : Shape) : Nat :=
  S.kMTiles.toNat * S.kKTiles.toNat + S.kKTiles.toNat * S.kNTiles.toNat +
    S.kMTiles.toNat * S.kNTiles.toNat

example : stage1.tiles = 8 ∧ stage2.tiles = 12 := by decide

end Shape

end DmaAccel.Gemm
