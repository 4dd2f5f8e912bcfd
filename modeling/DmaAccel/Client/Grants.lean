import DmaAccel.Memory.Ownership
import DmaAccel.Submission.Validation

/-!
# What a session has been granted

A BUFFER_ALLOC that has succeeded has granted its session a buffer id. Nothing takes the slot
away before the file is released: a slot in use is not given out again, and the rollback of a
call in progress frees a slot of its own. A SUBMIT that names granted ids only is not rejected
with `EPERM`.
-/

namespace DmaAccel.Driver

open DmaAccel.Base

/-- The call has returned without an error. -/
def Alloc.granted (c : Alloc) : Bool :=
  match c.pc, c.ret with
  | .returned, .ok _ => true
  | _, _ => false

/-- Session `s` has been granted the buffer `id`. -/
def Grant (st : Sys) (s : Sid) (id : U32) : Prop :=
  ∃ k < st.nallocs, (st.allocs k).granted = true ∧ (st.allocs k).sess = s ∧
    (st.allocs k).bufferId = id

/-- The session of the call has the slot in its bitmap, and no call in progress is about to roll
the slot back. -/
structure Settled (st : Sys) (c : Alloc) : Prop where
  owned : c.slot ∈ st.ownedBuffers c.sess
  apart : ∀ l, (st.allocs l).pc.published = true → (st.allocs l).slot ≠ c.slot

/-- Sessions of calls have been opened, and a session that is still open keeps what it was
granted. -/
structure GrantInv (st : Sys) : Prop where
  known : ∀ k < st.nallocs, st.phase (st.allocs k).sess ≠ .closed
  kept : ∀ k < st.nallocs, (st.allocs k).granted = true →
    st.phase (st.allocs k).sess = .opened → Settled st (st.allocs k)

variable {st st' : Sys} {a : Act} {k : Nat} {s : Sid} {id : U32}

/-- Calls of BUFFER_ALLOC keep their session. -/
theorem Trans.alloc_sess (h : Trans st a st') (hk : k < st.nallocs) :
    k < st'.nallocs ∧ (st'.allocs k).sess = (st.allocs k).sess := by
  cases h.allocMove with
  | keep ha hn => exact ⟨hn ▸ hk, by rw [ha]⟩
  | enter s size hs hp ha hn =>
    refine ⟨by omega, ?_⟩
    rw [ha, Function.update_of_ne (Nat.ne_of_lt hk)]
  | move l c hl hpc ha hc hp hn =>
    refine ⟨hn ▸ hk, ?_⟩
    rw [ha]
    exact rel_update (R := fun x y : Alloc ↦ y.sess = x.sess) (fun _ ↦ rfl) hc k

/-- A call that has returned stays as it is. -/
theorem Trans.allocs_returned (h : Trans st a st') (hk : k < st.nallocs)
    (hr : (st.allocs k).pc = .returned) : k < st'.nallocs ∧ st'.allocs k = st.allocs k := by
  cases h.allocMove with
  | keep ha hn => exact ⟨hn ▸ hk, by rw [ha]⟩
  | enter s size hs hp ha hn =>
    refine ⟨by omega, ?_⟩
    rw [ha, Function.update_of_ne (Nat.ne_of_lt hk)]
  | move l c hl hpc ha hc hp hn =>
    have hne : k ≠ l := by
      rintro rfl
      exact hpc hr
    exact ⟨hn ▸ hk, by rw [ha, Function.update_of_ne hne]⟩

theorem Alloc.returned_of_granted {c : Alloc} (h : c.granted = true) : c.pc = .returned := by
  unfold Alloc.granted at h
  split at h
  · assumption
  · cases h

/-- A grant is never revoked. -/
theorem Grant.step (hg : Grant st s id) (h : Trans st a st') : Grant st' s id := by
  obtain ⟨k, hk, hgr, hs, hid⟩ := hg
  obtain ⟨hk', he⟩ := h.allocs_returned hk (Alloc.returned_of_granted hgr)
  refine ⟨k, hk', ?_⟩
  rw [he]
  exact ⟨hgr, hs, hid⟩

/-- `closed` is the phase of sessions that were never opened. -/
theorem Trans.phase_known (h : Trans st a st') (hs : st.phase s ≠ .closed) :
    st'.phase s ≠ .closed := by
  cases h.phaseMove s with
  | keep hp => exact hp ▸ hs
  | opens _ _ hp | closes _ _ _ hp | wakes _ hp | polls _ _ hp | frees _ hp | kfrees _ _ hp =>
    rw [hp]
    decide

/-- A session that was opened before is open after a step only if it was open. -/
theorem Trans.opened_before (h : Trans st a st') (hi : SessInv st) (hs : st.phase s ≠ .closed)
    (ho : st'.phase s = .opened) : st.phase s = .opened := by
  cases h.phaseMove s with
  | keep hp => exact hp ▸ ho
  | opens _ hn _ => exact absurd (hi.fresh s (Nat.le_of_eq hn.symm)) hs
  | closes _ _ _ hp | wakes _ hp | polls _ _ hp | frees _ hp | kfrees _ _ hp =>
    rw [hp] at ho
    cases ho

/-- A call that is about to be granted its slot was published before. -/
theorem AllocLocal.published_of_granted {c c' : Alloc} (h : AllocLocal st c c')
    (hg : c'.granted = true) :
    c.pc.published = true ∧ c'.slot = c.slot ∧ c'.sess = c.sess ∧ c'.pc.published = false := by
  cases h with
  | report hpc => exact ⟨by rw [hpc]; rfl, rfl, rfl, rfl⟩
  | _ => simp [Alloc.granted] at hg

/-- A call that is granted is another than the one that is not. -/
private theorem ne_of_granted {allocs : Nat → Alloc} {c : Alloc} {l : Nat}
    (hc : c.granted = false) (h : (Function.update allocs k c l).granted = true) : l ≠ k := by
  rintro rfl
  rw [Function.update_self, hc] at h
  cases h

/-- A bitmap that keeps the slot of a grant may replace the one of its session. -/
private theorem Settled.owned_update {c : Alloc} {S : Finset (Fin maxBuffers)}
    (hk : Settled st c) (hS : c.sess = s → c.slot ∈ S) :
    c.slot ∈ Function.update st.ownedBuffers s S c.sess := by
  by_cases he : c.sess = s
  · rw [he, Function.update_self]
    exact hS he
  · rw [Function.update_of_ne he]
    exact hk.owned

namespace GrantInv

/-- The sessions of the calls so far stay known. -/
theorem known_step (hi : GrantInv st) (h : Trans st a st') :
    ∀ k < st'.nallocs, st'.phase (st'.allocs k).sess ≠ .closed := by
  intro k hk
  cases h.allocMove with
  | keep ha hn =>
    rw [ha]
    exact h.phase_known (hi.known k (hn ▸ hk))
  | enter s size ho hp ha hn =>
    rw [ha, hp]
    by_cases he : k = st.nallocs
    · subst he
      rw [Function.update_self]
      simp [ho]
    · rw [Function.update_of_ne he]
      exact hi.known k (by omega)
  | move l c hl hpc ha hc hp hn =>
    rw [ha, hp]
    by_cases he : k = l
    · subst he
      rw [Function.update_self, hc]
      exact hi.known k hl
    · rw [Function.update_of_ne he]
      exact hi.known k (hn ▸ hk)

/-- Steps that report no grant, take no granted slot out of a bitmap and publish free slots
only. -/
private theorem keep (hi : GrantInv st) (hs : SessInv st) (hb : BufInv st) (h : Trans st a st')
    (hgrant : ∀ k < st'.nallocs, (st'.allocs k).granted = true →
      k < st.nallocs ∧ st'.allocs k = st.allocs k)
    (howned : ∀ c, Settled st c → c.slot ∈ st'.ownedBuffers c.sess)
    (hpub : ∀ l, (st'.allocs l).pc.published = true →
      (st.allocs l).pc.published = true ∧ (st'.allocs l).slot = (st.allocs l).slot ∨
        (st.buffers (st'.allocs l).slot).inUse = false) : GrantInv st' := by
  refine ⟨hi.known_step h, ?_⟩
  intro k hk hg ho
  obtain ⟨hk', he⟩ := hgrant k hk hg
  rw [he] at hg ho ⊢
  have ho' := h.opened_before hs (hi.known k hk') ho
  have hkept := hi.kept k hk' hg ho'
  refine ⟨howned _ hkept, ?_⟩
  intro l hl
  rcases hpub l hl with ⟨hl', hslot⟩ | hfree
  · rw [hslot]
    exact hkept.apart l hl'
  · intro heq
    rw [heq, (hb.held (ho' ▸ rfl) hkept.owned).1] at hfree
    cases hfree

/-- A call of BUFFER_ALLOC reports its slot. -/
private theorem report (hi : GrantInv st) (hc : SlotInv st) {c : Alloc} (hk : k < st.nallocs)
    (hl : AllocLocal st (st.allocs k) c) (hg : c.granted = true)
    (h : Trans st a (st.setAlloc k c)) : GrantInv (st.setAlloc k c) := by
  obtain ⟨hpub, hslot, hsess, hnot⟩ := hl.published_of_granted hg
  have hself : (st.setAlloc k c).allocs k = c := Function.update_self ..
  have hother {l : Nat} (hne : l ≠ k) : (st.setAlloc k c).allocs l = st.allocs l :=
    Function.update_of_ne hne _ _
  have hold {l : Nat} (hp : ((st.setAlloc k c).allocs l).pc.published = true) :
      l ≠ k ∧ (st.allocs l).pc.published = true ∧
        ((st.setAlloc k c).allocs l).slot = (st.allocs l).slot := by
    have hne : l ≠ k := by
      rintro rfl
      rw [hself, hnot] at hp
      cases hp
    rw [hother hne] at hp ⊢
    exact ⟨hne, hp, rfl⟩
  refine ⟨hi.known_step h, ?_⟩
  intro l hl hgl ho
  by_cases he : l = k
  · subst he
    rw [hself]
    constructor
    · rw [hslot, hsess]
      exact hc.slot l hpub
    · intro m hm
      obtain ⟨hne, hpm, hsm⟩ := hold hm
      rw [hsm, hslot]
      exact fun heq ↦ hne (hc.inj m l hpm hpub heq)
  · rw [hother he] at hgl ho ⊢
    have hkept := hi.kept l hl hgl ho
    refine ⟨hkept.owned, ?_⟩
    intro m hm
    obtain ⟨-, hpm, hsm⟩ := hold hm
    rw [hsm]
    exact hkept.apart m hpm

/-- Every step keeps the grants. -/
theorem step (hi : GrantInv st) (hs : SessInv st) (hb : BufInv st) (hc : SlotInv st)
    (h : Trans st a st') : GrantInv st' := by
  have ht := h
  cases h with
  | alloc s size ho =>
    have hother {l : Nat} (hne : l ≠ st.nallocs) :
        (ioctlAlloc st s size).allocs l = st.allocs l := Function.update_of_ne hne _ _
    apply hi.keep hs hb ht
    · intro k hk hg
      have hne := ne_of_granted rfl hg
      exact ⟨Nat.lt_of_le_of_ne (Nat.lt_succ_iff.mp hk) hne, hother hne⟩
    · exact fun c hk ↦ hk.owned
    · intro l hl
      have hne : l ≠ st.nallocs := by
        rintro rfl
        simp [ioctlAlloc, AllocPc.published] at hl
      rw [hother hne] at hl ⊢
      exact .inl ⟨hl, rfl⟩
  | allocLocal a k c hk hl =>
    cases hg : c.granted with
    | true => exact hi.report hc hk hl hg ht
    | false =>
      apply hi.keep hs hb ht
      · exact fun l hlt hgl ↦ ⟨hlt, Function.update_of_ne (ne_of_granted hg hgl) _ _⟩
      · exact fun c hk ↦ hk.owned
      · intro l hp
        left
        by_cases he : l = k
        · subst he
          rw [show (st.setAlloc l c).allocs l = c from Function.update_self ..] at hp ⊢
          exact hl.spec.2.2 hp
        · rw [show (st.setAlloc k c).allocs l = st.allocs l from
            Function.update_of_ne he _ _] at hp ⊢
          exact ⟨hp, rfl⟩
  | publish k i kaddr dmaAddr hk hpc hquota hfree =>
    apply hi.keep hs hb ht
    · exact fun l hlt hg ↦ ⟨hlt, Function.update_of_ne (ne_of_granted rfl hg) _ _⟩
    · intro c hkept
      apply hkept.owned_update
      exact fun he ↦ Finset.mem_insert_of_mem (he ▸ hkept.owned)
    · intro l hl
      by_cases he : l = k
      · subst he
        right
        simpa using freeBufSlot_spec hfree
      · left
        simp only [Function.update_of_ne he] at hl ⊢
        exact ⟨hl, trivial⟩
  | rollback k mem hk hpc =>
    apply hi.keep hs hb ht
    · exact fun l hlt hg ↦ ⟨hlt, Function.update_of_ne (ne_of_granted rfl hg) _ _⟩
    · intro c hkept
      apply hkept.owned_update
      intro he
      have hne := hkept.apart k (hpc ▸ rfl)
      exact Finset.mem_erase.mpr ⟨hne.symm, he ▸ hkept.owned⟩
    · intro l hl
      have hne : l ≠ k := by
        rintro rfl
        simp [AllocPc.published] at hl
      left
      simp only [Function.update_of_ne hne] at hl ⊢
      exact ⟨hl, trivial⟩
  | _ =>
    exact hi.keep hs hb ht (fun k hk _ ↦ ⟨hk, rfl⟩) (fun c hk ↦ hk.owned)
      (fun l hl ↦ .inl ⟨hl, rfl⟩)

/-- No call has been made. -/
theorem init : GrantInv Sys.init :=
  ⟨fun _ h ↦ absurd h (Nat.not_lt_zero _), fun _ h ↦ absurd h (Nat.not_lt_zero _)⟩

end GrantInv

/-- Open sessions keep what they were granted, along every run. -/
theorem grantInv {ok : Sys → Act → Prop} (h : ReachBy ok st) : GrantInv st :=
  invariant_of_trans GrantInv.init (fun _ _ _ hr hi _ ht ↦
    hi.step (sessInv hr) (bufInv hr).1 (bufInv hr).2 ht) h

/-- A granted id names a slot in use of the session, as long as the session is open. -/
theorem Grant.bufOf {ok : Sys → Act → Prop} (hg : Grant st s id) (h : ReachBy ok st)
    (ho : st.phase s = .opened) : ∃ e, bufOf st.buffers id = some e ∧ e.owner = some s := by
  obtain ⟨k, hk, hgr, rfl, rfl⟩ := hg
  have hkept := (grantInv h).kept k hk hgr ho
  obtain ⟨huse, howner⟩ := (bufInv h).1.held (ho ▸ rfl) hkept.owned
  have hval : ((st.allocs k).bufferId).toNat = (st.allocs k).slot.val := by
    have hlt : (st.allocs k).slot.val < 64 := (st.allocs k).slot.isLt
    simp only [Alloc.bufferId, BitVec.toNat_ofNat]
    omega
  refine ⟨st.buffers (st.allocs k).slot, ?_, howner⟩
  unfold Driver.bufOf
  rw [dif_pos (hval ▸ (st.allocs k).slot.isLt)]
  have hslot : (⟨((st.allocs k).bufferId).toNat, hval ▸ (st.allocs k).slot.isLt⟩ :
      Fin maxBuffers) = (st.allocs k).slot := Fin.ext hval
  rw [hslot, if_pos huse]

/-- A granted id belongs to one open session. -/
theorem Grant.unique {ok : Sys → Act → Prop} {r : Sid} (hg : Grant st s id)
    (hg' : Grant st r id) (h : ReachBy ok st) (ho : st.phase s = .opened)
    (ho' : st.phase r = .opened) : s = r := by
  obtain ⟨e, he, howner⟩ := hg.bufOf h ho
  obtain ⟨e', he', howner'⟩ := hg'.bufOf h ho'
  rw [he] at he'
  cases he'
  exact Option.some.inj (howner.symm.trans howner')

/-! ## `EPERM` -/

/-- The request names only buffers that were granted to the session. -/
def GrantedReq (st : Sys) (s : Sid) (req : SubmitReq) : Prop :=
  Grant st s req.srcBufferId ∧ Grant st s req.dstBufferId ∧
    (opcodeNeedsSrc2 req.opcode = true → Grant st s req.src2BufferId)

/-- A request for granted buffers is not rejected with `EPERM`. -/
theorem checkSubmit_granted {ok : Sys → Act → Prop} {req : SubmitReq}
    (hg : GrantedReq st s req) (h : ReachBy ok st) (ho : st.phase s = .opened) :
    checkSubmit st.buffers s req ≠ .error .EPERM := by
  have howned {id : U32} (hid : Grant st s id) : OwnedBy st.buffers s id := by
    obtain ⟨e, he, howner⟩ := hid.bufOf h ho
    exact (slotOf_bufOf he).mpr howner
  obtain ⟨hsrc, hdst, hsrc2⟩ := hg
  intro herr
  have hout := checkSubmit_outcome st.buffers s req
  rw [herr] at hout
  cases hout with
  | perm hno hnot =>
    rcases hnot with ⟨-, -, hne⟩ | ⟨-, -, hop, -, hne⟩
    · exact hne ⟨howned hsrc, howned hdst⟩
    · exact hne (howned (hsrc2 hop))

/-- A call of SUBMIT keeps its session and its request, and ends with `EPERM` only in the
validation of the request. -/
structure PermFrom (st : Sys) (c c' : Submit) : Prop where
  sess : c'.sess = c.sess
  req : c'.req = c.req
  perm : c'.ret = .err .EPERM →
    c.ret = .err .EPERM ∨ checkSubmit st.buffers c.sess c.req = .error .EPERM

theorem PermFrom.of_eq {c c' : Submit} (hs : c'.sess = c.sess) (hr : c'.req = c.req)
    (he : c'.ret = c.ret) : PermFrom st c c' :=
  ⟨hs, hr, fun h ↦ .inl (he ▸ h)⟩

theorem SubmitLocal.permFrom {c c' : Submit} (h : SubmitLocal st c c') : PermFrom st c c' := by
  cases h with
  | reject e hpc hcheck =>
    refine ⟨rfl, rfl, fun hp ↦ .inr ?_⟩
    cases hp
    exact hcheck
  | copyInFault hpc | interrupt hpc hlike | copyOut hpc | copyOutFault hpc =>
    exact ⟨rfl, rfl, fun hp ↦ by cases hp⟩
  | _ => exact .of_eq rfl rfl rfl

theorem Submit.permFrom_wake (c : Submit) : PermFrom st c c.wake := by
  unfold Submit.wake
  split
  · exact .of_eq rfl rfl rfl
  · exact .of_eq rfl rfl rfl

theorem Trans.permFrom (h : Trans st a st') (hk : k < st.nsubmits) :
    k < st'.nsubmits ∧ PermFrom st (st.submits k) (st'.submits k) := by
  have hrefl (c : Submit) : PermFrom st c c := .of_eq rfl rfl rfl
  cases h with
  | submit s req ho =>
    refine ⟨Nat.lt_succ_of_lt hk, ?_⟩
    change PermFrom st _ (Function.update st.submits st.nsubmits _ k)
    rw [Function.update_of_ne (Nat.ne_of_lt hk)]
    exact hrefl _
  | submitLocal a l c hl hloc => exact ⟨hk, rel_update hrefl hloc.permFrom k⟩
  | newId l hl hpc | register l j hl hpc | incInflight l hl hpc | incTotal l hl hpc
  | enqIdx l hl hpc | enqStore l hl hpc | enqWriteTail l hl hpc | enqDoorbell l hl hpc =>
    refine ⟨hk, rel_update hrefl ?_ k⟩
    exact .of_eq rfl rfl rfl
  | relWake r hr => exact ⟨hk, Submit.permFrom_wake _⟩
  | wakeQuota hpc => exact ⟨hk, Submit.permFrom_wake _⟩
  | _ => exact ⟨hk, hrefl _⟩

end DmaAccel.Driver
