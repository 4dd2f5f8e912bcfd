import DmaAccel.Driver.Frames

/-!
# What SUBMIT lets through

Source `track-a/dma_accel_drv.c`: the validation of `dma_accel_ioc_submit` (1546–1606),
`dma_accel_opcode_needs_src2` (1486–1508) and the descriptor that `dma_accel_queue_submit_ext`
stores (822–849). The tests of the source are stated one by one, over the slot a request names,
and the outcome of the validation is classified by them.
-/

namespace DmaAccel.Driver

open DmaAccel.Base

/-- The id names a slot, and the slot has the property. -/
def SlotOf (b : Fin maxBuffers → BufEntry) (id : U32) (p : BufEntry → Prop) : Prop :=
  ∃ h : id.toNat < maxBuffers, p (b ⟨id.toNat, h⟩)

/-- The id is below `MAX_BUFFERS` and its slot is in use. -/
def HandleOk (b : Fin maxBuffers → BufEntry) (id : U32) : Prop := SlotOf b id (·.inUse = true)

/-- The slot belongs to the session. -/
def OwnedBy (b : Fin maxBuffers → BufEntry) (s : Sid) (id : U32) : Prop :=
  SlotOf b id (·.owner = some s)

/-- The range ends inside the slot; the sum is that of natural numbers. -/
def FitsIn (b : Fin maxBuffers → BufEntry) (id off len : U32) : Prop :=
  SlotOf b id (off.toNat + len.toNat ≤ ·.size)

/-- Every check a buffer argument has to pass. -/
structure ArgOk (b : Fin maxBuffers → BufEntry) (s : Sid) (id off len : U32) : Prop where
  handle : HandleOk b id
  owned : OwnedBy b s id
  fits : FitsIn b id off len

/-- Every check a request has to pass. -/
structure RequestOk (b : Fin maxBuffers → BufEntry) (s : Sid) (req : SubmitReq) : Prop where
  src : ArgOk b s req.srcBufferId req.srcOffset req.len
  dst : ArgOk b s req.dstBufferId req.dstOffset req.len
  src2 : opcodeNeedsSrc2 req.opcode = true → ArgOk b s req.src2BufferId req.src2Offset req.len

/-- The request names a slot that is valid but not the caller's: source or destination once both
are valid, or the second source once these two pass every check. -/
def NotYours (b : Fin maxBuffers → BufEntry) (s : Sid) (req : SubmitReq) : Prop :=
  HandleOk b req.srcBufferId ∧ HandleOk b req.dstBufferId ∧
      ¬(OwnedBy b s req.srcBufferId ∧ OwnedBy b s req.dstBufferId) ∨
    ArgOk b s req.srcBufferId req.srcOffset req.len ∧
      ArgOk b s req.dstBufferId req.dstOffset req.len ∧ opcodeNeedsSrc2 req.opcode = true ∧
      HandleOk b req.src2BufferId ∧ ¬OwnedBy b s req.src2BufferId

/-- The range lies inside the DMA range of the slot. -/
def InsideSlot (b : Fin maxBuffers → BufEntry) (id : U32) (addr len : Nat) : Prop :=
  SlotOf b id fun e ↦ e.dmaAddr ≤ addr ∧ addr + len ≤ e.dmaAddr + e.size

/-- The addresses of a descriptor are those the request may use. -/
structure DescOk (b : Fin maxBuffers → BufEntry) (req : SubmitReq) (d : Cmd) : Prop where
  opcode : d.opcode = req.opcode
  len : d.len = req.len
  src : InsideSlot b req.srcBufferId d.srcAddr d.len.toNat
  dst : InsideSlot b req.dstBufferId d.dstAddr d.len.toNat
  src2 : opcodeNeedsSrc2 req.opcode = true →
    InsideSlot b req.src2BufferId d.src2Addr d.len.toNat
  unused : opcodeNeedsSrc2 req.opcode = false → d.src2Addr = 0

section Check

variable {b : Fin maxBuffers → BufEntry} {s : Sid} {id off len : U32} {e : BufEntry}
  {req : SubmitReq}

theorem bufOf_eq_some (h : bufOf b id = some e) :
    ∃ hid : id.toNat < maxBuffers, b ⟨id.toNat, hid⟩ = e ∧ e.inUse = true := by
  unfold bufOf at h
  split at h
  · next hid =>
    split at h
    · next hu =>
      cases h
      exact ⟨hid, rfl, hu⟩
    · cases h
  · cases h

/-- A slot that was found is the one the id names. -/
theorem slotOf_bufOf (h : bufOf b id = some e) {p : BufEntry → Prop} : SlotOf b id p ↔ p e := by
  obtain ⟨hid, rfl, -⟩ := bufOf_eq_some h
  exact ⟨fun ⟨_, hp⟩ ↦ hp, fun hp ↦ ⟨hid, hp⟩⟩

theorem handleOk_iff : HandleOk b id ↔ ∃ e, bufOf b id = some e := by
  constructor
  · rintro ⟨hid, hu⟩
    exact ⟨b ⟨id.toNat, hid⟩, by simp only [bufOf, hid, dif_pos, hu, if_true]⟩
  · rintro ⟨e, he⟩
    obtain ⟨hid, rfl, hu⟩ := bufOf_eq_some he
    exact ⟨hid, hu⟩

/-- The checks of one argument, over the slot that was found. -/
theorem argOk_iff (h : bufOf b id = some e) :
    ArgOk b s id off len ↔ e.owner = some s ∧ off.toNat + len.toNat ≤ e.size := by
  constructor
  · intro ha
    exact ⟨(slotOf_bufOf h).mp ha.owned, (slotOf_bufOf h).mp ha.fits⟩
  · rintro ⟨ho, hl⟩
    exact ⟨handleOk_iff.mpr ⟨e, h⟩, (slotOf_bufOf h).mpr ho, (slotOf_bufOf h).mpr hl⟩

/-- A valid range of a slot lies inside its DMA range. -/
theorem insideSlot_of_bufOf (h : bufOf b id = some e) (hl : off.toNat + len.toNat ≤ e.size) :
    InsideSlot b id (e.dmaAddr + off.toNat) len.toNat := by
  apply (slotOf_bufOf h).mpr
  omega

/-- What the validation answers. -/
inductive Outcome (b : Fin maxBuffers → BufEntry) (s : Sid) (req : SubmitReq) :
    Except Errno Resolved → Prop where
  | ok (r : Resolved) : RequestOk b s req →
      InsideSlot b req.srcBufferId r.src req.len.toNat →
      InsideSlot b req.dstBufferId r.dst req.len.toNat →
      (opcodeNeedsSrc2 req.opcode = true →
        InsideSlot b req.src2BufferId r.src2 req.len.toNat) →
      (opcodeNeedsSrc2 req.opcode = false → r.src2 = 0) → Outcome b s req (.ok r)
  | perm : ¬RequestOk b s req → NotYours b s req → Outcome b s req (.error .EPERM)
  | inval : ¬RequestOk b s req → ¬NotYours b s req → Outcome b s req (.error .EINVAL)

/-- Nothing is said to be another's where a handle is bad. -/
private theorem outcome_badHandle
    (h : ¬(HandleOk b req.srcBufferId ∧ HandleOk b req.dstBufferId)) :
    Outcome b s req (.error .EINVAL) := by
  apply Outcome.inval
  · intro hr
    exact h ⟨hr.src.handle, hr.dst.handle⟩
  · rintro (⟨hs, hd, -⟩ | ⟨hs, hd, -⟩)
    · exact h ⟨hs, hd⟩
    · exact h ⟨hs.handle, hd.handle⟩

/-- Nor where source and destination are the caller's and a range leaves its slot. -/
private theorem outcome_badRange
    (ho : OwnedBy b s req.srcBufferId ∧ OwnedBy b s req.dstBufferId)
    (h : ¬(ArgOk b s req.srcBufferId req.srcOffset req.len ∧
      ArgOk b s req.dstBufferId req.dstOffset req.len)) :
    Outcome b s req (.error .EINVAL) := by
  apply Outcome.inval
  · intro hr
    exact h ⟨hr.src, hr.dst⟩
  · rintro (⟨-, -, hn⟩ | ⟨hs, hd, -⟩)
    · exact hn ho
    · exact h ⟨hs, hd⟩

/-- The second source decides once source and destination have passed. -/
private theorem outcome_src2 (hs : ArgOk b s req.srcBufferId req.srcOffset req.len)
    (hd : ArgOk b s req.dstBufferId req.dstOffset req.len)
    (hop : opcodeNeedsSrc2 req.opcode = true)
    (h : ¬ArgOk b s req.src2BufferId req.src2Offset req.len)
    (ho : ¬(HandleOk b req.src2BufferId ∧ ¬OwnedBy b s req.src2BufferId)) :
    Outcome b s req (.error .EINVAL) := by
  apply Outcome.inval
  · intro hr
    exact h (hr.src2 hop)
  · rintro (⟨-, -, hn⟩ | ⟨-, -, -, hh, hn⟩)
    · exact hn ⟨hs.owned, hd.owned⟩
    · exact ho ⟨hh, hn⟩

/-- The validation answers by the checks of the request, in the order of the source. -/
theorem checkSubmit_outcome (b : Fin maxBuffers → BufEntry) (s : Sid) (req : SubmitReq) :
    Outcome b s req (checkSubmit b s req) := by
  unfold checkSubmit
  split
  · next src dst hsrc hdst =>
    have hh : HandleOk b req.srcBufferId ∧ HandleOk b req.dstBufferId :=
      ⟨handleOk_iff.mpr ⟨src, hsrc⟩, handleOk_iff.mpr ⟨dst, hdst⟩⟩
    split
    · next howner =>
      have hn : ¬(OwnedBy b s req.srcBufferId ∧ OwnedBy b s req.dstBufferId) := by
        rintro ⟨hs, hd⟩
        rcases howner with ho | ho
        · exact ho ((slotOf_bufOf hsrc).mp hs)
        · exact ho ((slotOf_bufOf hdst).mp hd)
      apply Outcome.perm
      · intro hr
        exact hn ⟨hr.src.owned, hr.dst.owned⟩
      · exact .inl ⟨hh.1, hh.2, hn⟩
    · next howner =>
      rw [not_or, not_not, not_not] at howner
      split
      · next hlen =>
        apply outcome_badRange
        · exact ⟨(slotOf_bufOf hsrc).mpr howner.1, (slotOf_bufOf hdst).mpr howner.2⟩
        · rintro ⟨hs, hd⟩
          have hs' := (argOk_iff hsrc).mp hs
          have hd' := (argOk_iff hdst).mp hd
          omega
      · next hlen =>
        rw [not_or, Nat.not_lt, Nat.not_lt] at hlen
        have hs := (argOk_iff hsrc).mpr ⟨howner.1, hlen.1⟩
        have hd := (argOk_iff hdst).mpr ⟨howner.2, hlen.2⟩
        split
        · next hop =>
          split
          · next src2 hsrc2 =>
            split
            · next ho =>
              have hn : ¬OwnedBy b s req.src2BufferId := fun hq ↦ ho ((slotOf_bufOf hsrc2).mp hq)
              apply Outcome.perm
              · intro hr
                exact hn (hr.src2 hop).owned
              · exact .inr ⟨hs, hd, hop, handleOk_iff.mpr ⟨src2, hsrc2⟩, hn⟩
            · next ho =>
              rw [not_not] at ho
              split
              · next hl =>
                apply outcome_src2 hs hd hop
                · intro h2
                  have hl' := ((argOk_iff hsrc2).mp h2).2
                  omega
                · rintro ⟨-, hn⟩
                  exact hn ((slotOf_bufOf hsrc2).mpr ho)
              · next hl =>
                rw [Nat.not_lt] at hl
                have h2 := (argOk_iff hsrc2).mpr ⟨ho, hl⟩
                apply Outcome.ok
                · exact ⟨hs, hd, fun _ ↦ h2⟩
                · exact insideSlot_of_bufOf hsrc hlen.1
                · exact insideSlot_of_bufOf hdst hlen.2
                · exact fun _ ↦ insideSlot_of_bufOf hsrc2 hl
                · exact fun hno ↦ by simp [hop] at hno
          · next hnone =>
            have hno : ¬HandleOk b req.src2BufferId := by
              rw [handleOk_iff]
              simp [hnone]
            apply outcome_src2 hs hd hop
            · exact fun h2 ↦ hno h2.handle
            · exact fun h2 ↦ hno h2.1
        · next hop =>
          apply Outcome.ok
          · exact ⟨hs, hd, fun h2 ↦ (hop h2).elim⟩
          · exact insideSlot_of_bufOf hsrc hlen.1
          · exact insideSlot_of_bufOf hdst hlen.2
          · exact fun h2 ↦ (hop h2).elim
          · exact fun _ ↦ rfl
  · next hnone =>
    apply outcome_badHandle
    rintro ⟨hs, hd⟩
    obtain ⟨src, hsrc⟩ := handleOk_iff.mp hs
    obtain ⟨dst, hdst⟩ := handleOk_iff.mp hd
    exact hnone src dst hsrc hdst

end Check

section Call

variable {st st' : Sys} {a : Act} {k : Nat} {c c' c'' : Submit}

/-- The call is past its validation, refused or not. -/
def SubmitPc.past : SubmitPc → Bool
  | .copyIn | .check => false
  | _ => true

/-- What a call keeps after its validation. -/
structure SameAddresses (c c' : Submit) : Prop where
  past : c'.pc.past = true
  req : c'.req = c.req
  src : c'.srcDma = c.srcDma
  dst : c'.dstDma = c.dstDma
  src2 : c'.src2Dma = c.src2Dma

theorem SameAddresses.trans (h : SameAddresses c c') (h' : SameAddresses c' c'') :
    SameAddresses c c'' :=
  ⟨h'.past, h'.req.trans h.req, h'.src.trans h.src, h'.dst.trans h.dst, h'.src2.trans h.src2⟩

private theorem SubmitLocal.addresses (h : SubmitLocal st c c') (hp : c.pc.past = true) :
    SameAddresses c c' := by
  cases h with
  | copyIn hc | copyInFault hc | resolve _ hc | reject _ hc =>
    rw [hc] at hp
    cases hp
  | _ => exact ⟨rfl, rfl, rfl, rfl, rfl⟩

/-- A call never goes back to its validation, and keeps what it has resolved. -/
theorem addresses_step (h : step st a = some st') (hk : k < st.nsubmits)
    (hp : (st.submits k).pc.past = true) : SameAddresses (st.submits k) (st'.submits k) := by
  by_cases ha : a.ofSubmit k
  · cases submitMove_of_step ha h with
    | quiet c hl =>
      simp only [Sys.setSubmit, Function.update_self]
      exact hl.addresses hp
    | enqIdx hpc =>
      simp only [Sys.setSubmit, Function.update_self]
      exact ⟨rfl, rfl, rfl, rfl, rfl⟩
    | _ =>
      simp only [Function.update_self]
      exact ⟨rfl, rfl, rfl, rfl, rfl⟩
  · rcases step_submits h hk ha with he | he
    · rw [he]
      exact ⟨hp, rfl, rfl, rfl, rfl⟩
    · rw [he]
      unfold Submit.wake
      split
      · exact ⟨rfl, rfl, rfl, rfl, rfl⟩
      · exact ⟨hp, rfl, rfl, rfl, rfl⟩

/-- Along every run. -/
theorem addresses_run (h : Reach step anyStep st st') (hk : k < st.nsubmits)
    (hp : (st.submits k).pc.past = true) :
    k < st'.nsubmits ∧ SameAddresses (st.submits k) (st'.submits k) := by
  induction h with
  | start => exact ⟨hk, hp, rfl, rfl, rfl, rfl⟩
  | next _ _ hs ih =>
    exact ⟨Nat.lt_of_lt_of_le ih.1 (nsubmits_le hs),
      ih.2.trans (addresses_step hs ih.1 ih.2.past)⟩

/-- What the validation of a request makes of the call. -/
structure Decided (b : Fin maxBuffers → BufEntry) (s : Sid) (req : SubmitReq) (c : Submit) :
    Prop where
  admitted : c.pc = .newId ↔ RequestOk b s req
  refused : c.pc ≠ .newId → c.pc = .refused
  eperm : c.pc = .refused → (c.ret = .err .EPERM ↔ NotYours b s req)
  einval : c.pc = .refused → ¬NotYours b s req → c.ret = .err .EINVAL

/-- A call that is about to validate its request goes on to admission exactly when the request
passes every check, and otherwise returns the error that the failed check calls for. The
descriptor it stores after any number of steps of anybody keeps to the slots it has checked. -/
theorem submit_validates (st : Sys) (k : Nat) (hk : k < st.nsubmits)
    (hpc : (st.submits k).pc = .check) :
    ∃ st', step st (.submitStep k) = some st' ∧
      Decided st.buffers (st.submits k).sess (st.submits k).req (st'.submits k) ∧
      ((st'.submits k).pc = .newId →
        ∀ t, Reach step anyStep st' t → (t.submits k).pc = .enqStore →
          ∃ t', step t (.submitStep k) = some t' ∧
            DescOk st.buffers (st.submits k).req (t'.sqBuf (t.submits k).idx)) := by
  have hout := checkSubmit_outcome st.buffers (st.submits k).sess (st.submits k).req
  generalize hr : checkSubmit st.buffers (st.submits k).sess (st.submits k).req = r at hout
  have hrefused {e : Errno} (he : r = .error e) : step st (.submitStep k) =
      some (st.setSubmit k { st.submits k with pc := .refused, ret := .err e }) := by
    simp only [step, hk, if_true, submitStep, hpc, hr, he]
  cases hout with
  | ok r hreq hsrc hdst hsrc2 hunused =>
    refine ⟨st.setSubmit k { st.submits k with
      pc := .newId, srcDma := r.src, dstDma := r.dst, src2Dma := r.src2 }, ?_, ?_, ?_⟩
    · simp only [step, hk, if_true, submitStep, hpc, hr]
    · simp only [Sys.setSubmit, Function.update_self]
      exact ⟨iff_of_true rfl hreq, fun hn ↦ (hn rfl).elim, by simp, by simp⟩
    · intro _ t ht hstore
      obtain ⟨hlt, hsame⟩ := addresses_run (k := k) ht hk (by simp [Sys.setSubmit, SubmitPc.past])
      simp only [Sys.setSubmit, Function.update_self] at hsame
      refine ⟨_, by simp only [step, hlt, if_true, submitStep, hstore]; rfl, ?_⟩
      simp only [Function.update_self, Submit.desc, hsame.req, hsame.src, hsame.dst, hsame.src2]
      exact ⟨rfl, rfl, hsrc, hdst, hsrc2, hunused⟩
  | perm hreq hperm =>
    refine ⟨_, hrefused rfl, ?_, ?_⟩
    · simp only [Sys.setSubmit, Function.update_self]
      exact ⟨iff_of_false (by simp) hreq, fun _ ↦ rfl, fun _ ↦ iff_of_true rfl hperm,
        fun _ hn ↦ (hn hperm).elim⟩
    · simp [Sys.setSubmit]
  | inval hreq hperm =>
    refine ⟨_, hrefused rfl, ?_, ?_⟩
    · simp only [Sys.setSubmit, Function.update_self]
      exact ⟨iff_of_false (by simp) hreq, fun _ ↦ rfl, fun _ ↦ iff_of_false (by simp) hperm,
        fun _ _ ↦ rfl⟩
    · simp [Sys.setSubmit]

/-- A copy inside a buffer of its session passes. -/
theorem submit_validates_copy : ∃ st st' : Sys, Reachable st ∧ (st.submits 0).pc = .check ∧
    step st (.submitStep 0) = some st' ∧ (st'.submits 0).pc = .newId ∧
    RequestOk st.buffers (st.submits 0).sess (st.submits 0).req := by
  have hrun : (run step Sys.init (.chrOpen :: allocScript 0 0 ++ submitScript 0 0 0 1)).any
      (fun st ↦ decide (0 < st.nsubmits ∧ (st.submits 0).pc = .check) &&
        (step st (.submitStep 0)).any (fun st' ↦ (st'.submits 0).pc == .newId)) = true := by
    decide +kernel
  obtain ⟨st, hr, hp⟩ := Reach.exists_of_run hrun
  rw [Bool.and_eq_true, decide_eq_true_eq] at hp
  obtain ⟨⟨hk, hpc⟩, hnext⟩ := hp
  obtain ⟨st', hst, hdec, -⟩ := submit_validates st 0 hk hpc
  rw [hst, Option.any_some, beq_iff_eq] at hnext
  exact ⟨st, st', hr, hpc, hst, hnext, hdec.admitted.mp hnext⟩

end Call

end DmaAccel.Driver
