import DmaAccel.Pool.Construction

/-!
# What a failed allocation leaves behind

Source: as for `DmaAccel.Pool.Construction`. A slot is the session's once the publishing section
of its BUFFER_ALLOC has run, and stays so until the file is closed unless the same ioctl rolls
it back. A call that throws has used up the slots of its ioctls that succeeded: those of the
Buffers it had got, and one more where it was `mmap` that failed.
-/

namespace DmaAccel.Pool.Construction

open DmaAccel.Base
open DmaAccel.Driver (Sys Sid U32 Ret maxBuffers bufInv)
open DmaAccel.Runtime (Buffer Stream Thrown)

variable {s0 s s' : State} {st : Sys} {a : Act} {k : Nat} {base : Finset (Fin maxBuffers)}

/-- The bitmap of the session. -/
def State.owned (s : State) : Finset (Fin maxBuffers) := s.sys.ownedBuffers s.sess

/-- The bitmap is `base` and what the call of `alloc_buffer` in progress, or the one that threw,
has added. -/
inductive Bitmap (s : State) (base : Finset (Fin maxBuffers)) : Prop where
  | between : (∀ k, s.point ≠ .ioctl k) → (∀ e, s.point ≠ .threw e) → s.owned = base →
      Bitmap s base
  | without (k : Nat) : s.point = .ioctl k → (s.sys.allocs k).hasSlot = false →
      s.owned = base → Bitmap s base
  | with (k : Nat) : s.point = .ioctl k → (s.sys.allocs k).hasSlot = true →
      (s.sys.allocs k).slot ∉ base → s.owned = insert (s.sys.allocs k).slot base →
      Bitmap s base
  | threw (e : Failure) : s.point = .threw e → base ⊆ s.owned →
      s.owned.card = base.card + e.slots → Bitmap s base

/-- What holds throughout a call that began in `s0`. -/
structure Inv (s0 s : State) : Prop where
  reach : Driver.Reachable s.sys
  sess : s.sess = s0.sess
  call : s.call = s0.call
  opened : s.sys.phase s.sess = .opened
  /-- No other call of BUFFER_ALLOC is in progress on the file. -/
  alone : ∀ l < s.sys.nallocs, (s.sys.allocs l).sess = s.sess → s.point ≠ .ioctl l →
    (s.sys.allocs l).pc = .returned
  calling : ∀ k, s.point = .ioctl k → k < s.sys.nallocs ∧ (s.sys.allocs k).sess = s.sess
  short : (∃ k, s.point = .ioctl k) ∨ (∃ e, s.point = .threw (.alloc e)) →
    s.buffers.length < s.call.count
  single : ∀ size, s.call = .allocBuffer size →
    s.point ≠ .reserveBuffers ∧ s.point ≠ .reserveFreeList ∧ s.point ≠ .threw .reserve
  slots : ∃ base, s0.owned ⊆ base ∧ base.card = s0.owned.card + s.buffers.length ∧ Bitmap s base

/-- The loop of the constructor is followed by its second `reserve`. -/
theorem Call.last_spec (c : Call) :
    (∀ k, c.last ≠ .ioctl k) ∧ (∀ e, c.last ≠ .threw (.alloc e)) ∧
      ∀ size, c = .allocBuffer size →
        c.last ≠ .reserveBuffers ∧ c.last ≠ .reserveFreeList ∧ c.last ≠ .threw .reserve := by
  cases c <;> simp [last]

/-- The error of `alloc_buffer` tells whether its ioctl had succeeded. -/
theorem allocBuffer_spec (mapped : Ret) (hr : (st.allocs k).pc = .returned) :
    match Stream.allocBuffer st k mapped with
    | .ok _ => (st.allocs k).hasSlot = true
    | .error e => (Failure.alloc e).slots = if (st.allocs k).hasSlot then 1 else 0 := by
  unfold Stream.allocBuffer
  cases hret : (st.allocs k).ret with
  | err e => simp [Driver.Alloc.hasSlot, Driver.Alloc.granted, Driver.AllocPc.published, hr, hret,
      Failure.slots]
  | ok n =>
    have hslot : (st.allocs k).hasSlot = true := by
      simp [Driver.Alloc.hasSlot, Driver.Alloc.granted, hr, hret]
    cases hm : Driver.chrMmap st (st.allocs k).sess ((st.allocs k).mmapOffset >>> Driver.pageShift)
        (Driver.pageAlign (st.allocs k).reqSize.toNat) mapped with
    | err e => simp [hret, hm, hslot, Failure.slots]
    | ok m => simp [hret, hm, hslot]

/-- Between two calls of `alloc_buffer` the bitmap is `base`. -/
theorem Bitmap.owned_between (h : Bitmap s base) (hk : ∀ k, s.point ≠ .ioctl k)
    (he : ∀ e, s.point ≠ .threw e) : s.owned = base := by
  cases h with
  | between _ _ h => exact h
  | without k h | «with» k h => exact absurd h (hk k)
  | threw e h => exact absurd h (he e)

/-- In the ioctl the bitmap is `base`, with the slot of the call once it has one. -/
theorem Bitmap.owned_ioctl (h : Bitmap s base) (hp : s.point = .ioctl k) :
    (s.sys.allocs k).hasSlot = false ∧ s.owned = base ∨
      (s.sys.allocs k).hasSlot = true ∧ (s.sys.allocs k).slot ∉ base ∧
        s.owned = insert (s.sys.allocs k).slot base := by
  cases h with
  | between hk _ _ => exact absurd hp (hk k)
  | threw e he => rw [hp] at he; cases he
  | without l hl hslot hbase =>
    rw [hp] at hl
    cases hl
    exact .inl ⟨hslot, hbase⟩
  | «with» l hl hslot hnot hbase =>
    rw [hp] at hl
    cases hl
    exact .inr ⟨hslot, hnot, hbase⟩

namespace Inv

/-- A call on the file that has not returned is the one in progress. -/
private theorem point_eq (hi : Inv s0 s) (hlt : k < s.sys.nallocs)
    (hs : (s.sys.allocs k).sess = s.sess) (hpc : (s.sys.allocs k).pc ≠ .returned) :
    s.point = .ioctl k := by
  by_contra hne
  exact hpc (hi.alone k hlt hs hne)

section Driver

variable {b : Driver.Act}

/-- A step of somebody else adds nothing to the bitmap, beyond what the call in progress does. -/
private theorem bitmap (hi : Inv s0 s) (h : Driver.Trans s.sys b st) (hb : Bitmap s base) :
    Bitmap { s with sys := st } base := by
  have hlive : (s.sys.phase s.sess).live = true := hi.opened ▸ rfl
  cases h.bitmapMove s.sess with
  | keep ho hcalls =>
    cases hb with
    | between hk he hbase => exact .between hk he (ho.trans hbase)
    | without k hp hslot hbase =>
      obtain ⟨hlt, hs⟩ := hi.calling k hp
      exact .without k hp ((hcalls k hlt hs).1.trans hslot) (ho.trans hbase)
    | «with» k hp hslot hnot hbase =>
      obtain ⟨hlt, hs⟩ := hi.calling k hp
      obtain ⟨hsame, hsl⟩ := hcalls k hlt hs
      exact .with k hp (hsame.trans hslot) (hsl ▸ hnot) (hsl ▸ ho.trans hbase)
    | threw e hp hsub hcard =>
      exact .threw e hp (hsub.trans_eq ho.symm) ((congrArg Finset.card ho).trans hcard)
  | publish k c hlt hs hpc hfree hc ha ho =>
    have hp : s.point = .ioctl k := hi.point_eq hlt hs (by simp [hpc])
    have hself : st.allocs k = c := by rw [ha, Function.update_self]
    rcases hb.owned_ioctl hp with ⟨-, hbase⟩ | ⟨hslot, -, -⟩
    · have hnot : c.slot ∉ base := by
        intro hmem
        rw [← hbase] at hmem
        rw [((bufInv hi.reach).1.held hlive hmem).1] at hfree
        cases hfree
      refine .with k hp (hself.symm ▸ hc) (hself.symm ▸ hnot) ?_
      change st.ownedBuffers s.sess = insert (st.allocs k).slot base
      rw [ho, hself, ← hbase]
      rfl
    · rw [Driver.Alloc.hasSlot_publish hpc] at hslot
      cases hslot
  | rollback k c hlt hs hpc hc ha ho =>
    have hp : s.point = .ioctl k := hi.point_eq hlt hs (by simp [hpc])
    rcases hb.owned_ioctl hp with ⟨hslot, -⟩ | ⟨-, hnot, hbase⟩
    · rw [Driver.Alloc.hasSlot_rollback hpc] at hslot
      cases hslot
    · refine .without k hp ?_ ?_
      · change (st.allocs k).hasSlot = false
        rw [ha, Function.update_self, hc]
      · change st.ownedBuffers s.sess = base
        rw [ho]
        change s.owned.erase _ = base
        rw [hbase, Finset.erase_insert hnot]

/-- Somebody else moves. -/
theorem driver (hi : Inv s0 s) (ha : s.admits b = true) (h : Driver.step s.sys b = some st) :
    Inv s0 { s with sys := st } := by
  have ht := Driver.trans_of_step h
  have halloc (size : U32) : b ≠ .alloc s.sess size := by
    rintro rfl
    simp [State.admits] at ha
  have hrel : b ≠ .chrRelease s.sess := by
    rintro rfl
    simp [State.admits] at ha
  obtain ⟨base, hsub, hcard, hb⟩ := hi.slots
  refine ⟨.next hi.reach trivial h, hi.sess, hi.call, ht.opened_after hrel hi.opened, ?_, ?_,
    hi.short, hi.single, base, hsub, hcard, hi.bitmap ht hb⟩
  · intro l hl hs hne
    obtain ⟨hl', hs'⟩ := ht.alloc_old halloc hl hs
    have hr := hi.alone l hl' hs' hne
    exact (ht.allocs_returned hl' hr).2 ▸ hr
  · intro k hp
    obtain ⟨hk, hs⟩ := hi.calling k hp
    obtain ⟨hk', hs'⟩ := ht.alloc_sess hk
    exact ⟨hk', hs'.trans hs⟩

end Driver

/-- A step of the caller that leaves the driver alone, between two calls of `alloc_buffer`. -/
private theorem moves (hi : Inv s0 s) {p : Point} (hk : ∀ k, s.point ≠ .ioctl k)
    (he : ∀ e, s.point ≠ .threw e) (hp : ∀ k, p ≠ .ioctl k) (hpe : ∀ e, p ≠ .threw (.alloc e))
    (hsingle : ∀ size, s.call = .allocBuffer size →
      p ≠ .reserveBuffers ∧ p ≠ .reserveFreeList ∧ p ≠ .threw .reserve) :
    Inv s0 { s with point := p } := by
  obtain ⟨base, hsub, hcard, hb⟩ := hi.slots
  have hbase : s.owned = base := hb.owned_between hk he
  refine ⟨hi.reach, hi.sess, hi.call, hi.opened, fun l hl hs _ ↦ hi.alone l hl hs (hk l),
    fun k h ↦ absurd h (hp k), ?_, hsingle, base, hsub, hcard, ?_⟩
  · rintro (⟨k, h⟩ | ⟨e, h⟩)
    · exact absurd h (hp k)
    · exact absurd h (hpe e)
  · cases p with
    | ioctl k => exact absurd rfl (hp k)
    | threw e =>
      cases e with
      | alloc e => exact absurd rfl (hpe e)
      | reserve => exact .threw .reserve rfl hbase.ge (congrArg Finset.card hbase)
    | reserveBuffers | next | reserveFreeList | returned =>
      exact .between (by simp) (by simp) hbase

/-- The ioctl of the next `alloc_buffer` enters the driver. -/
private theorem enters (hi : Inv s0 s) (hp : s.point = .next)
    (hlt : s.buffers.length < s.call.count)
    (h : Driver.step s.sys (.alloc s.sess s.call.size) = some st) :
    Inv s0 { s with sys := st, point := .ioctl s.sys.nallocs } := by
  have hreach : Driver.Reachable st := .next hi.reach trivial h
  obtain ⟨-, hs⟩ := Option.ite_none_right_eq_some.mp h
  cases hs
  have hnew : (Driver.ioctlAlloc s.sys s.sess s.call.size).allocs s.sys.nallocs =
      { Driver.Alloc.none with sess := s.sess, reqSize := s.call.size, pc := .copyIn } :=
    Function.update_self ..
  have hold {l : Nat} (hne : l ≠ s.sys.nallocs) :
      (Driver.ioctlAlloc s.sys s.sess s.call.size).allocs l = s.sys.allocs l :=
    Function.update_of_ne hne _ _
  obtain ⟨base, hsub, hcard, hb⟩ := hi.slots
  have hbase : s.owned = base := hb.owned_between (by simp [hp]) (by simp [hp])
  refine ⟨hreach, hi.sess, hi.call, hi.opened, ?_, ?_, fun _ ↦ hlt, by simp, base, hsub,
    hcard, .without s.sys.nallocs rfl ?_ hbase⟩
  · intro l hl hls hne
    have hne' : l ≠ s.sys.nallocs := fun he ↦ hne (he ▸ rfl)
    have hlt' : l < s.sys.nallocs := Nat.lt_of_le_of_ne (Nat.lt_succ_iff.mp hl) hne'
    change ((Driver.ioctlAlloc s.sys s.sess s.call.size).allocs l).sess = s.sess at hls
    change ((Driver.ioctlAlloc s.sys s.sess s.call.size).allocs l).pc = .returned
    rw [hold hne'] at hls ⊢
    exact hi.alone l hlt' hls (by simp [hp])
  · intro k hk
    cases hk
    refine ⟨Nat.lt_succ_self _, ?_⟩
    change ((Driver.ioctlAlloc s.sys s.sess s.call.size).allocs s.sys.nallocs).sess = s.sess
    rw [hnew]
  · change ((Driver.ioctlAlloc s.sys s.sess s.call.size).allocs s.sys.nallocs).hasSlot = false
    rw [hnew]
    rfl

/-- `alloc_buffer` returns a Buffer, or throws. -/
private theorem leaves (hi : Inv s0 s) {mapped : Ret} (hp : s.point = .ioctl k)
    (hr : (s.sys.allocs k).pc = .returned)
    (h : (match Stream.allocBuffer s.sys k mapped with
      | .ok buf => some { s with buffers := s.buffers ++ [buf], point := .next }
      | .error e => some { s with point := .threw (.alloc e) }) = some s') : Inv s0 s' := by
  obtain ⟨base, hsub, hcard, hb⟩ := hi.slots
  have hspec := allocBuffer_spec mapped hr
  have halone : ∀ l < s.sys.nallocs, (s.sys.allocs l).sess = s.sess →
      (s.sys.allocs l).pc = .returned := by
    intro l hl hs
    by_cases hlk : s.point = .ioctl l
    · rw [hp] at hlk
      cases hlk
      exact hr
    · exact hi.alone l hl hs hlk
  split at h
  · next buf hbuf =>
    cases h
    rw [hbuf] at hspec
    rcases hb.owned_ioctl hp with ⟨hslot, -⟩ | ⟨-, hnot, hbase⟩
    · rw [hslot] at hspec
      cases hspec
    · refine ⟨hi.reach, hi.sess, hi.call, hi.opened, fun l hl hs _ ↦ halone l hl hs, by simp,
        by simp, by simp, insert (s.sys.allocs k).slot base, ?_, ?_,
        .between (by simp) (by simp) hbase⟩
      · exact hsub.trans (Finset.subset_insert _ _)
      · rw [Finset.card_insert_of_notMem hnot, hcard, List.length_append]
        rfl
  · next e he =>
    cases h
    rw [he] at hspec
    refine ⟨hi.reach, hi.sess, hi.call, hi.opened, fun l hl hs _ ↦ halone l hl hs, by simp,
      fun _ ↦ hi.short (.inl ⟨k, hp⟩), by simp, base, hsub, hcard, ?_⟩
    rcases hb.owned_ioctl hp with ⟨hslot, hbase⟩ | ⟨hslot, hnot, hbase⟩
    · rw [hslot] at hspec
      refine .threw (.alloc e) rfl hbase.ge ?_
      rw [hspec]
      exact congrArg Finset.card hbase
    · rw [hslot] at hspec
      refine .threw (.alloc e) rfl ((Finset.subset_insert _ _).trans hbase.ge) ?_
      rw [hspec, if_pos rfl]
      exact (congrArg Finset.card hbase).trans (Finset.card_insert_of_notMem hnot)

/-- Every step keeps what holds during the call. -/
theorem step (hi : Inv s0 s) (h : Construction.step s a = some s') : Inv s0 s' := by
  cases a with
  | driver b =>
    obtain ⟨hb, h⟩ := Option.ite_none_right_eq_some.mp h
    obtain ⟨st, hst, rfl⟩ := Option.map_eq_some_iff.mp h
    exact hi.driver hb hst
  | reserve ok =>
    simp only [Construction.step] at h
    split at h
    · next hp =>
      cases h
      have hpool (size : U32) : s.call ≠ .allocBuffer size :=
        fun hc ↦ (hi.single size hc).1 hp
      cases ok with
      | true => exact hi.moves (by simp [hp]) (by simp [hp]) (by simp) (by simp) (by simp)
      | false =>
        exact hi.moves (by simp [hp]) (by simp [hp]) (by simp) (by simp)
          fun size hc ↦ absurd hc (hpool size)
    · next hp =>
      cases h
      have hpool (size : U32) : s.call ≠ .allocBuffer size :=
        fun hc ↦ (hi.single size hc).2.1 hp
      cases ok with
      | true => exact hi.moves (by simp [hp]) (by simp [hp]) (by simp) (by simp) (by simp)
      | false =>
        exact hi.moves (by simp [hp]) (by simp [hp]) (by simp) (by simp)
          fun size hc ↦ absurd hc (hpool size)
    · cases h
  | next =>
    obtain ⟨hp, h⟩ := Option.ite_none_right_eq_some.mp h
    split at h
    · next hlt =>
      obtain ⟨st, hst, rfl⟩ := Option.map_eq_some_iff.mp h
      exact hi.enters hp hlt hst
    · cases h
      obtain ⟨hk, he, hs⟩ := s.call.last_spec
      exact hi.moves (by simp [hp]) (by simp [hp]) hk he hs
  | allocReturn mapped =>
    simp only [Construction.step] at h
    split at h
    · next k hp =>
      obtain ⟨hr, hs⟩ := Option.ite_none_right_eq_some.mp h
      exact hi.leaves hp hr hs
    · cases h

/-- The call begins. -/
theorem start {s : Sid} {call : Call} (h : Driver.Reachable st) (ho : st.phase s = .opened)
    (hret : ∀ l < st.nallocs, (st.allocs l).sess = s → (st.allocs l).pc = .returned) :
    Inv (.start st s call) (.start st s call) := by
  have hfirst : (∀ k, call.first ≠ .ioctl k) ∧ (∀ e, call.first ≠ .threw e) ∧
      ∀ size, call = .allocBuffer size → call.first = .next := by
    cases call <;> simp [Call.first]
  obtain ⟨hk, he, hn⟩ := hfirst
  refine ⟨h, rfl, rfl, ho, fun l hl hs _ ↦ hret l hl hs, fun k hp ↦ absurd hp (hk k), ?_, ?_,
    _, subset_rfl, rfl, .between hk he rfl⟩
  · rintro (⟨k, hp⟩ | ⟨e, hp⟩)
    · exact absurd hp (hk k)
    · exact absurd hp (he _)
  · intro size hc
    have hpoint : (State.start st s call).point = .next := hn size hc
    rw [hpoint]
    simp

end Inv

/-! ## Result -/

/-- What a call that began in `s0` has done to the slots of its session in `s`. -/
structure SlotsUsed (s0 s : State) : Prop where
  /-- It takes nothing away, -/
  kept : s0.owned ⊆ s.owned
  /-- has used up what its ioctls were given if it throws: nothing where its only ioctl failed, -/
  threw : ∀ e, s.point = .threw e →
    s.owned.card = s0.owned.card + s.buffers.length + e.slots
  single : ∀ size e, s0.call = .allocBuffer size → s.point = .threw e → s.buffers = []
  /-- and what it has used up is the session's as long as the file is open. -/
  stays : ∀ e, s.point = .threw e → ∀ t, Reach Driver.step anyStep s.sys t →
    t.phase s.sess = .opened → s.owned ⊆ t.ownedBuffers s.sess

/-- In every run of a call that has the Stream for itself, among any other sessions, the slots
used up by a failure are those of the ioctls that succeeded. -/
theorem failed_alloc_slots {s : Sid} {call : Call} {t : State} (h0 : Driver.Reachable st)
    (ho : st.phase s = .opened)
    (hret : ∀ l < st.nallocs, (st.allocs l).sess = s → (st.allocs l).pc = .returned)
    (h : Reach step anyStep (.start st s call) t) : SlotsUsed (.start st s call) t := by
  have hi : Inv (.start st s call) t :=
    h.invariant (.start h0 ho hret) fun _ _ _ _ hi _ hs ↦ hi.step hs
  obtain ⟨base, hsub, hcard, hb⟩ := hi.slots
  have hthrew {e : Failure} (hp : t.point = .threw e) : base ⊆ t.owned ∧
      t.owned.card = base.card + e.slots := by
    cases hb with
    | between _ he _ => exact absurd hp (he e)
    | without k hk | «with» k hk => rw [hp] at hk; cases hk
    | threw e' he' hsub hcard =>
      rw [hp] at he'
      cases he'
      exact ⟨hsub, hcard⟩
  constructor
  · apply hsub.trans
    cases hb with
    | between _ _ hbase | without _ _ _ hbase => exact hbase.ge
    | «with» k _ _ _ hbase => exact (Finset.subset_insert _ _).trans hbase.ge
    | threw _ _ hsub _ => exact hsub
  · intro e hp
    rw [(hthrew hp).2, hcard]
  · intro size e hc hp
    have hc' : t.call = .allocBuffer size := hi.call.trans hc
    cases e with
    | reserve => exact absurd hp (hi.single size hc').2.2
    | alloc e =>
      have hshort := hi.short (.inr ⟨e, hp⟩)
      rw [hc'] at hshort
      exact List.eq_nil_of_length_eq_zero (Nat.lt_one_iff.mp hshort)
  · intro e hp u hu hopen
    exact Driver.ownedBuffers_mono hi.reach
      (fun l hl hs ↦ hi.alone l hl hs (by simp [hp])) hu hopen

/-- Two sessions are open. -/
private theorem reachable_two : Driver.Reachable (Driver.chrOpen (Driver.chrOpen Sys.init)) :=
  .next (a := .chrOpen) (.next (a := .chrOpen) .start trivial rfl) trivial rfl

/-- Script: `alloc_buffer` with the driver's call `k`, whose slot is taken and then mapped. -/
def allocScript (k : Nat) (mapped : Ret) : List Act :=
  [.next, .driver (.allocStep k none), .driver (.allocStep k (some (0, 4096 * (k + 1)))),
    .driver (.allocStep k none), .allocReturn mapped]

/-- Script: session 1 takes a slot with the driver's call `k`. -/
def otherScript (k : Nat) : List Act := (Driver.allocScript 1 k).map .driver

/-- A pool of three, while another session allocates: the third `mmap` fails. -/
theorem failed_alloc_slots_third : ∃ t, Reach step anyStep
      (.start (Driver.chrOpen (Driver.chrOpen Sys.init)) 0 (.bufferPool 4096 3)) t ∧
    t.point = .threw (.alloc (.systemError .ENOMEM "mmap(buffer)")) ∧ t.owned.card = 0 + 2 + 1 := by
  have hrun : (run step
      (.start (Driver.chrOpen (Driver.chrOpen Sys.init)) 0 (.bufferPool 4096 3))
      (.reserve true :: allocScript 0 (.ok 0) ++ otherScript 1 ++ allocScript 2 (.ok 0) ++
        allocScript 3 (.err .ENOMEM))).any
      (fun t ↦ decide (t.point = .threw (.alloc (.systemError .ENOMEM "mmap(buffer)")) ∧
        t.buffers.length = 2)) = true := by
    decide +kernel
  obtain ⟨t, hr, hp⟩ := Reach.exists_of_run hrun
  obtain ⟨hthrew, hlen⟩ := of_decide_eq_true hp
  have hused := failed_alloc_slots reachable_two (by decide)
    (fun l hl ↦ absurd hl (Nat.not_lt_zero l)) hr
  refine ⟨t, hr, hthrew, ?_⟩
  rw [hused.threw _ hthrew, hlen]
  rfl

/-- A call that throws leaves the number of slots of its session as it was. -/
def KeepsQuota (call : Call) : Prop :=
  ∀ st s t e, Driver.Reachable st → st.phase s = .opened →
    (∀ l < st.nallocs, (st.allocs l).sess = s → (st.allocs l).pc = .returned) →
    Reach step anyStep (.start st s call) t → t.point = .threw e →
    t.owned.card = (State.start st s call).owned.card

/-- An `alloc_buffer` whose `mmap` fails has used up a slot, and so has a pool of two whose second
ioctl fails. -/
theorem failed_alloc_keeps_slot :
    (¬∀ size, KeepsQuota (.allocBuffer size)) ∧
      ¬∀ bufferSize count, KeepsQuota (.bufferPool bufferSize count) := by
  constructor
  · have hrun : (run step
        (.start (Driver.chrOpen (Driver.chrOpen Sys.init)) 0 (.allocBuffer 4096))
        (allocScript 0 (.err .ENOMEM))).any
        (fun t ↦ decide (t.point = .threw (.alloc (.systemError .ENOMEM "mmap(buffer)")) ∧
          t.owned.card = 1)) = true := by
      decide +kernel
    obtain ⟨t, hr, hp⟩ := Reach.exists_of_run hrun
    obtain ⟨hthrew, hcard⟩ := of_decide_eq_true hp
    intro hall
    have hsame := hall 4096 _ 0 t _ reachable_two (by decide)
      (fun l hl ↦ absurd hl (Nat.not_lt_zero l)) hr hthrew
    rw [hcard] at hsame
    cases hsame
  · have hrun : (run step
        (.start (Driver.chrOpen (Driver.chrOpen Sys.init)) 0 (.bufferPool 4096 2))
        (.reserve true :: allocScript 0 (.ok 0) ++ [.next, .driver (.allocStep 1 none),
          .driver (.allocStep 1 none), .allocReturn (.ok 0)])).any
        (fun t ↦ decide (t.point =
            .threw (.alloc (.systemError .ENOMEM "ioctl(DMA_ACCEL_IOC_BUFFER_ALLOC)")) ∧
          t.owned.card = 1)) = true := by
      decide +kernel
    obtain ⟨t, hr, hp⟩ := Reach.exists_of_run hrun
    obtain ⟨hthrew, hcard⟩ := of_decide_eq_true hp
    intro hall
    have hsame := hall 4096 2 _ 0 t _ reachable_two (by decide)
      (fun l hl ↦ absurd hl (Nat.not_lt_zero l)) hr hthrew
    rw [hcard] at hsame
    cases hsame

end DmaAccel.Pool.Construction
