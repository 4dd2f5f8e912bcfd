import DmaAccel.Memory.Ownership
import DmaAccel.Routing.Lifetime
import DmaAccel.Routing.Outstanding

/-!
# Buffers under commands in flight

Source `track-a/dma_accel_drv.c`: `dma_accel_ioc_submit` resolves bus addresses under
`buf_mutex` (1546–1606) and uses them long after it has dropped it. `release` frees a
session's buffers only when none of its commands is left, so what can pull a buffer from
under a command is the rollback of a BUFFER_ALLOC (1453–1484): its slot is published, and
usable by SUBMIT, before the call knows that it can report it.
-/

namespace DmaAccel.Driver

open DmaAccel.Base

/-- The range lies in a slot that is in use and owned by the session. -/
def covered (b : Fin maxBuffers → BufEntry) (s : Sid) (addr len : Nat) : Prop :=
  ∃ i, (b i).inUse = true ∧ (b i).owner = some s ∧ (b i).dmaAddr ≤ addr ∧
    addr + len ≤ (b i).dmaAddr + (b i).size

instance (b : Fin maxBuffers → BufEntry) (s : Sid) (addr len : Nat) :
    Decidable (covered b s addr len) := inferInstanceAs (Decidable (∃ _, _))

/-- Every range an admitted command refers to is covered. -/
def cmdBacked (b : Fin maxBuffers → BufEntry) (x : Admitted) : Prop :=
  covered b x.sess x.cmd.srcAddr x.cmd.len.toNat ∧
  covered b x.sess x.cmd.dstAddr x.cmd.len.toNat ∧
  (opcodeNeedsSrc2 x.cmd.opcode = true → covered b x.sess x.cmd.src2Addr x.cmd.len.toNat)

instance (b : Fin maxBuffers → BufEntry) (x : Admitted) : Decidable (cmdBacked b x) :=
  inferInstanceAs (Decidable (_ ∧ _))

/-- The request has been validated and not refused. -/
def SubmitPc.resolved : SubmitPc → Bool
  | .copyIn | .check | .refused => false
  | _ => true

/-- The request names slot `i` as source, destination or, where it has one, second source. -/
def SubmitReq.uses (r : SubmitReq) (i : Fin maxBuffers) : Prop :=
  r.srcBufferId.toNat = i.val ∨ r.dstBufferId.toNat = i.val ∨
    opcodeNeedsSrc2 r.opcode = true ∧ r.src2BufferId.toNat = i.val

instance (r : SubmitReq) (i : Fin maxBuffers) : Decidable (r.uses i) :=
  inferInstanceAs (Decidable (_ ∨ _))

/-- The call is between its validation and the routing of its completion. -/
def inFlight (st : Sys) (c : Submit) : Prop :=
  c.pc.resolved = true ∧
    (c.pc.committed = true → (c.sess, c.cmdId) ∉ st.pushed.map pushTicket)

instance (st : Sys) (c : Submit) : Decidable (inFlight st c) := inferInstanceAs (Decidable (_ ∧ _))

/-- The call of BUFFER_ALLOC an action moves on. -/
def Act.allocCall : Act → Option Nat
  | .allocStep k _ => some k
  | _ => none

/-- No rollback takes a slot that a SUBMIT between validation and routing refers to. -/
def RollbackUnused (st : Sys) (a : Act) : Prop :=
  ∀ k ∈ a.allocCall, (st.allocs k).pc = .rollback →
    ∀ l < st.nsubmits, inFlight st (st.submits l) →
      ¬(st.submits l).req.uses (st.allocs k).slot

instance (st : Sys) (a : Act) : Decidable (RollbackUnused st a) :=
  inferInstanceAs (Decidable (∀ k ∈ a.allocCall, _))

/-- The slot named by `id` is in use, owned by the session, and resolves the range to
`addr`. -/
def resolves (b : Fin maxBuffers → BufEntry) (s : Sid) (id off len : U32) (addr : Nat) : Prop :=
  ∃ i : Fin maxBuffers, id.toNat = i.val ∧ (b i).inUse = true ∧ (b i).owner = some s ∧
    addr = (b i).dmaAddr + off.toNat ∧ off.toNat + len.toNat ≤ (b i).size

/-- The addresses of a call are those its slots resolve to. -/
def callBacked (b : Fin maxBuffers → BufEntry) (c : Submit) : Prop :=
  resolves b c.sess c.req.srcBufferId c.req.srcOffset c.req.len c.srcDma ∧
  resolves b c.sess c.req.dstBufferId c.req.dstOffset c.req.len c.dstDma ∧
  (opcodeNeedsSrc2 c.req.opcode = true →
    resolves b c.sess c.req.src2BufferId c.req.src2Offset c.req.len c.src2Dma)

section Table

variable {b b' : Fin maxBuffers → BufEntry} {s : Sid} {c : Submit}

private theorem resolves_of_bufOf {id off len : U32} {e : BufEntry} (h : bufOf b id = some e)
    (ho : e.owner = some s) (hl : off.toNat + len.toNat ≤ e.size) :
    resolves b s id off len (e.dmaAddr + off.toNat) := by
  unfold bufOf at h
  split at h
  · next hid =>
    split at h
    · next hu =>
      cases h
      exact ⟨⟨id.toNat, hid⟩, rfl, hu, ho, rfl, hl⟩
    · cases h
  · cases h

/-- Validation resolves every address to a slot in use and owned by the caller. -/
theorem checkSubmit_ok {req : SubmitReq} {r : Resolved} (h : checkSubmit b s req = .ok r) :
    resolves b s req.srcBufferId req.srcOffset req.len r.src ∧
    resolves b s req.dstBufferId req.dstOffset req.len r.dst ∧
    (opcodeNeedsSrc2 req.opcode = true →
      resolves b s req.src2BufferId req.src2Offset req.len r.src2) := by
  unfold checkSubmit at h
  split at h
  · next src dst hsrc hdst =>
    split at h
    · cases h
    · next howner =>
      rw [not_or, not_not, not_not] at howner
      split at h
      · cases h
      · next hlen =>
        rw [not_or, Nat.not_lt, Nat.not_lt] at hlen
        have h1 := resolves_of_bufOf hsrc howner.1 hlen.1
        have h2 := resolves_of_bufOf hdst howner.2 hlen.2
        split at h
        · split at h
          · next src2 hsrc2 =>
            split at h
            · cases h
            · next howner2 =>
              split at h
              · cases h
              · next hlen2 =>
                cases h
                exact ⟨h1, h2, fun _ ↦ resolves_of_bufOf hsrc2 (not_not.mp howner2)
                  (Nat.not_lt.mp hlen2)⟩
          · cases h
        · next hno =>
          cases h
          exact ⟨h1, h2, fun hyes ↦ (hno hyes).elim⟩
  · cases h

/-- A slot a backed call names is in use and owned by the call's session. -/
theorem callBacked.slot (h : callBacked b c) {i : Fin maxBuffers} (hi : c.req.uses i) :
    (b i).inUse = true ∧ (b i).owner = some c.sess := by
  have hpick {id off len : U32} {addr : Nat} (hr : resolves b c.sess id off len addr)
      (hid : id.toNat = i.val) : (b i).inUse = true ∧ (b i).owner = some c.sess := by
    obtain ⟨j, hj, hu, ho, -⟩ := hr
    have : j = i := Fin.ext (hj.symm.trans hid)
    subst this
    exact ⟨hu, ho⟩
  rcases hi with hid | hid | ⟨hop, hid⟩
  · exact hpick h.1 hid
  · exact hpick h.2.1 hid
  · exact hpick (h.2.2 hop) hid

/-- A backed call stays backed while the slots it names keep their entries. -/
theorem callBacked.frame (h : callBacked b c) (hs : ∀ i, c.req.uses i → b' i = b i) :
    callBacked b' c := by
  have hkeep {id off len : U32} {addr : Nat} (hr : resolves b c.sess id off len addr)
      (hu : ∀ i : Fin maxBuffers, id.toNat = i.val → c.req.uses i) :
      resolves b' c.sess id off len addr := by
    obtain ⟨i, hid, hrest⟩ := hr
    refine ⟨i, hid, ?_⟩
    rw [hs i (hu i hid)]
    exact hrest
  exact ⟨hkeep h.1 fun _ ↦ .inl, hkeep h.2.1 fun _ hid ↦ .inr (.inl hid),
    fun hop ↦ hkeep (h.2.2 hop) fun _ hid ↦ .inr (.inr ⟨hop, hid⟩)⟩

private theorem resolves.covered {id off len : U32} {addr : Nat}
    (h : resolves b s id off len addr) : covered b s addr len.toNat := by
  obtain ⟨i, -, hu, ho, rfl, hl⟩ := h
  exact ⟨i, hu, ho, by omega, by omega⟩

/-- The command of a backed call is backed. -/
theorem callBacked.cmd (h : callBacked b c) : cmdBacked b c.toAdmitted :=
  ⟨h.1.covered, h.2.1.covered, fun hop ↦ (h.2.2 hop).covered⟩

end Table

variable {st st' : Sys} {a : Act}

/-- What a step keeps of a call whose request is resolved. -/
structure SameRequest (c c' : Submit) : Prop where
  resolved : c.pc.resolved = true
  sess : c'.sess = c.sess
  req : c'.req = c.req
  src : c'.srcDma = c.srcDma
  dst : c'.dstDma = c.dstDma
  src2 : c'.src2Dma = c.src2Dma
  committed : c.pc.committed = true → c'.pc.committed = true ∧ c'.cmdId = c.cmdId

private theorem SameRequest.early {c c' : Submit} (hr : c.pc.resolved = true)
    (hn : c.pc.committed = false) (hs : c'.sess = c.sess) (hq : c'.req = c.req)
    (h0 : c'.srcDma = c.srcDma) (h1 : c'.dstDma = c.dstDma) (h2 : c'.src2Dma = c.src2Dma) :
    SameRequest c c' :=
  ⟨hr, hs, hq, h0, h1, h2, fun h ↦ by rw [hn] at h; cases h⟩

private theorem SameRequest.late {c c' : Submit} (hr : c.pc.resolved = true)
    (hc : c'.pc.committed = true) (hid : c'.cmdId = c.cmdId) (hs : c'.sess = c.sess)
    (hq : c'.req = c.req) (h0 : c'.srcDma = c.srcDma) (h1 : c'.dstDma = c.dstDma)
    (h2 : c'.src2Dma = c.src2Dma) : SameRequest c c' :=
  ⟨hr, hs, hq, h0, h1, h2, fun _ ↦ ⟨hc, hid⟩⟩

private theorem callBacked.congr {b : Fin maxBuffers → BufEntry} {c c' : Submit}
    (h : SameRequest c c') (hb : callBacked b c) : callBacked b c' := by
  unfold callBacked at hb ⊢
  rw [h.sess, h.req, h.src, h.dst, h.src2]
  exact hb

/-- A local step of a call keeps its request, or has just resolved it. -/
private theorem SubmitLocal.request {c c' : Submit} (h : SubmitLocal st c c')
    (hr : c'.pc.resolved = true) : SameRequest c c' ∨ callBacked st.buffers c' := by
  cases h with
  | copyIn hp => cases hr
  | copyInFault hp => cases hr
  | reject e hp => cases hr
  | interrupt hp => cases hr
  | resolve r hp hc => exact .inr (checkSubmit_ok hc)
  | readActive hp => exact .inl (.early (hp ▸ rfl) (hp ▸ rfl) rfl rfl rfl rfl rfl)
  | block hp => exact .inl (.early (hp ▸ rfl) (hp ▸ rfl) rfl rfl rfl rfl rfl)
  | retry hp => exact .inl (.early (hp ▸ rfl) (hp ▸ rfl) rfl rfl rfl rfl rfl)
  | sleep hp => exact .inl (.early (hp ▸ rfl) (hp ▸ rfl) rfl rfl rfl rfl rfl)
  | getUp hp => exact .inl (.early (hp ▸ rfl) (hp ▸ rfl) rfl rfl rfl rfl rfl)
  | readTail hp => exact .inl (.late (hp ▸ rfl) rfl rfl rfl rfl rfl rfl rfl)
  | loadTail hp => exact .inl (.late (hp ▸ rfl) rfl rfl rfl rfl rfl rfl rfl)
  | copyOut hp => exact .inl (.late (hp ▸ rfl) rfl rfl rfl rfl rfl rfl rfl)
  | copyOutFault hp => exact .inl (.late (hp ▸ rfl) rfl rfl rfl rfl rfl rfl rfl)

/-- A call whose request is resolved had it resolved before, or has just done so. -/
private theorem Trans.request (h : Trans st a st') {l : Nat}
    (hr : (st'.submits l).pc.resolved = true) :
    SameRequest (st.submits l) (st'.submits l) ∨
      callBacked st.buffers (st'.submits l) ∧ st'.buffers = st.buffers := by
  have hsame {x : Submit} (hx : st'.submits l = x) (hs : st.submits l = x) :
      SameRequest (st.submits l) (st'.submits l) := by
    rw [hx] at hr
    rw [hx, hs]
    exact ⟨hr, rfl, rfl, rfl, rfl, rfl, fun hc ↦ ⟨hc, rfl⟩⟩
  have hcell {k : Nat} {x : Submit} (hs : st'.submits = Function.update st.submits k x)
      (hx : x.pc.resolved = true → SameRequest (st.submits k) x) :
      SameRequest (st.submits l) (st'.submits l) := by
    by_cases he : l = k
    · subst he
      rw [hs, Function.update_self] at hr ⊢
      exact hx hr
    · exact hsame (by rw [hs, Function.update_of_ne he]) rfl
  have hwake (hs : st'.submits = fun k ↦ (st.submits k).wake) :
      SameRequest (st.submits l) (st'.submits l) := by
    rw [hs] at hr ⊢
    dsimp only [Submit.wake] at hr ⊢
    split
    · next hp => exact .early (hp ▸ rfl) (hp ▸ rfl) rfl rfl rfl rfl rfl
    · next hp =>
      rw [if_neg hp] at hr
      exact ⟨hr, rfl, rfl, rfl, rfl, rfl, fun hc ↦ ⟨hc, rfl⟩⟩
  cases h with
  | submit s req ho => exact .inl (hcell rfl fun hx ↦ by cases hx)
  | submitLocal _ k c hk hl =>
    by_cases he : l = k
    · subst he
      simp only [Sys.setSubmit, Function.update_self] at hr ⊢
      rcases hl.request hr with hreq | hback
      · exact .inl hreq
      · exact .inr ⟨hback, trivial⟩
    · exact .inl (hsame (Function.update_of_ne he _ _) rfl)
  | newId k hk hp =>
    exact .inl (hcell rfl fun _ ↦ .early (hp ▸ rfl) (hp ▸ rfl) rfl rfl rfl rfl rfl)
  | register k j hk hp =>
    exact .inl (hcell rfl fun _ ↦ .late (hp ▸ rfl) rfl rfl rfl rfl rfl rfl rfl)
  | incInflight k hk hp =>
    exact .inl (hcell rfl fun _ ↦ .late (hp ▸ rfl) rfl rfl rfl rfl rfl rfl rfl)
  | incTotal k hk hp =>
    exact .inl (hcell rfl fun _ ↦ .late (hp ▸ rfl) rfl rfl rfl rfl rfl rfl rfl)
  | enqIdx k hk hp =>
    exact .inl (hcell rfl fun _ ↦ .late (hp ▸ rfl) rfl rfl rfl rfl rfl rfl rfl)
  | enqStore k hk hp =>
    exact .inl (hcell rfl fun _ ↦ .late (hp ▸ rfl) rfl rfl rfl rfl rfl rfl rfl)
  | enqWriteTail k hk hp =>
    exact .inl (hcell rfl fun _ ↦ .late (hp ▸ rfl) rfl rfl rfl rfl rfl rfl rfl)
  | enqDoorbell k hk hp =>
    exact .inl (hcell rfl fun _ ↦ .late (hp ▸ rfl) rfl rfl rfl rfl rfl rfl rfl)
  | relWake r hp => exact .inl (hwake rfl)
  | wakeQuota hp => exact .inl (hwake rfl)
  | _ => exact .inl (hsame rfl rfl)

/-- A session whose `release` has seen zero has no call in flight. -/
private theorem not_inFlight_polled {ok : Sys → Act → Prop} (h : ReachBy ok st) {l : Nat}
    (hp : (st.phase (st.submits l).sess).polled = true) : ¬inFlight st (st.submits l) := by
  rintro ⟨hres, hun⟩
  have hne := polled_not_opened hp
  obtain ⟨hentry, hrem⟩ := drained h hne (inflight_polled h _ hp)
  have hfin : (st.submits l).pc.finished = true := by
    by_contra hf
    exact hne ((callInv h).opened l (Bool.not_eq_true _ ▸ hf))
  have hcom : (st.submits l).pc.committed = true := by
    cases hpc : (st.submits l).pc <;>
      simp_all [SubmitPc.finished, SubmitPc.resolved, SubmitPc.committed]
  -- its command is in the table or in the handler's hand, which `drained` excludes
  rcases (balanced h).mem_held_or_hand (committed_admitted h hcom) (hun hcom) with hh | hh
  · obtain ⟨i, hv, hs, -⟩ := mem_held.mp hh
    exact hentry i hv hs
  · simp only [ledgerOf, Isr.ticket, Option.ite_none_right_eq_some, Option.some.injEq,
      Prod.mk.injEq] at hh
    simp [removedOf, handBy, hh.1, hh.2.1, IsrPc.undrained] at hrem

/-- Every call in flight is backed. -/
private def Backed (st : Sys) : Prop :=
  ∀ l, inFlight st (st.submits l) → callBacked st.buffers (st.submits l)

private theorem inFlight_before (h : Trans st a st') {l : Nat}
    (hl : inFlight st' (st'.submits l)) (hreq : SameRequest (st.submits l) (st'.submits l)) :
    inFlight st (st.submits l) := by
  refine ⟨hreq.resolved, ?_⟩
  intro hc hmem
  obtain ⟨hc', hid⟩ := hreq.committed hc
  obtain ⟨m, hm⟩ := h.pushed_append
  apply hl.2 hc'
  rw [hreq.sess, hid, hm, List.map_append]
  exact List.mem_append_left _ hmem

/-- Slots that calls in flight refer to keep their entries. -/
private theorem slot_kept {ok : Sys → Act → Prop} (hr : ReachBy ok st) (hi : Backed st)
    (hok : RollbackUnused st a) (h : Trans st a st') {l : Nat}
    (hl : inFlight st (st.submits l)) {i : Fin maxBuffers} (hu : (st.submits l).req.uses i) :
    st'.buffers i = st.buffers i := by
  obtain ⟨hinUse, howner⟩ := (hi l hl).slot hu
  cases h with
  | publish k j kaddr dmaAddr hk hp hq hf =>
    refine Function.update_of_ne ?_ _ _
    rintro rfl
    rw [freeBufSlot_spec hf] at hinUse
    cases hinUse
  | rollback k mem hk hp =>
    refine Function.update_of_ne ?_ _ _
    rintro rfl
    have hlt : l < st.nsubmits := (callInv hr).lt fun he ↦ by
      have := hl.1
      rw [he] at this
      cases this
    exact hok k rfl hp l hlt hl hu
  | relFree s hs =>
    have hnot : i ∉ st.ownedBuffers s := by
      intro hmem
      have hown := ((bufInv hr).1.held (hs ▸ rfl) hmem).2
      rw [howner] at hown
      refine not_inFlight_polled hr ?_ hl
      rw [Option.some.inj hown, hs]
      rfl
    change releaseSlots _ _ i = _
    rw [releaseSlots_apply, if_neg (mt mem_setBits.mp hnot)]
  | _ => rfl

private theorem backed_step {ok : Sys → Act → Prop} (hr : ReachBy ok st) (hi : Backed st)
    (hok : RollbackUnused st a) (h : Trans st a st') : Backed st' := by
  intro l hl
  rcases h.request hl.1 with hreq | ⟨hback, hbuf⟩
  · have hl0 := inFlight_before h hl hreq
    refine ((hi l hl0).congr hreq).frame ?_
    intro i hu
    rw [hreq.req] at hu
    exact slot_kept hr hi hok h hl0 hu
  · rw [hbuf]
    exact hback

/-- Where no rollback takes a slot from under a SUBMIT, every command admitted and not routed
refers only to slots that are in use and owned by its session. -/
theorem unrouted_backed (h : ReachBy RollbackUnused st) :
    ∀ x ∈ unrouted st, cmdBacked st.buffers x := by
  have hback : Backed st := by
    refine invariant_of_trans ?_ (fun _ _ _ hr hi hok ht ↦ backed_step hr hi hok ht) h
    intro l hl
    cases hl.1
  intro x hx
  obtain ⟨hadm, hnot⟩ := List.mem_filter.mp hx
  obtain ⟨k, hk, rfl⟩ := ((admInv h).mem_iff x).mp hadm
  refine (hback k ⟨?_, fun _ ↦ of_decide_eq_true hnot⟩).cmd
  cases hp : (st.submits k).pc <;> simp_all [SubmitPc.committed, SubmitPc.resolved]

/-- A command is in flight while the rollback of another slot of the same session runs. -/
theorem unrouted_backed_rollback : ∃ st : Sys, ReachBy RollbackUnused st ∧
    (unrouted st).length = 1 ∧ (st.buffers 1).inUse = false ∧ st.frees.length = 1 ∧
    ∀ x ∈ unrouted st, cmdBacked st.buffers x := by
  have hrun : (runChecked step (fun st a ↦ decide (RollbackUnused st a)) Sys.init
      (.chrOpen :: allocScript 0 0 ++ submitScript 0 0 0 14 ++
        [.alloc 0 4096, .allocStep 1 none, .allocStep 1 (some (0, 8192)), .allocFault 1,
          .allocStep 1 none])).any
      (fun st ↦ decide ((unrouted st).length = 1 ∧ (st.buffers 1).inUse = false ∧
        st.frees.length = 1)) = true := by decide +kernel
  obtain ⟨st, hr, hp⟩ := Reach.exists_of_runChecked (fun _ _ hc ↦ of_decide_eq_true hc) hrun
  obtain ⟨hlen, hfree, hfrees⟩ := of_decide_eq_true hp
  exact ⟨st, hr, hlen, hfree, hfrees, unrouted_backed hr⟩

/-- One thread's BUFFER_ALLOC has published slot 0 and faults on its way out; another thread
of the session submits a command on slot 0, and the rollback frees the slot under it. -/
theorem rollback_under_command : ¬∀ st : Sys, Reachable st →
    ∀ x ∈ unrouted st, cmdBacked st.buffers x := by
  have hrun : (run step Sys.init ([.chrOpen, .alloc 0 4096, .allocStep 0 none,
      .allocStep 0 (some (0, 4096)), .allocFault 0] ++ submitScript 0 0 0 14 ++
      [.allocStep 0 none])).any
      (fun st ↦ (unrouted st).any fun x ↦ decide (¬cmdBacked st.buffers x)) = true := by
    decide +kernel
  obtain ⟨st, hr, hp⟩ := Reach.exists_of_run hrun
  obtain ⟨x, hx, hbad⟩ := List.any_eq_true.mp hp
  intro hall
  exact of_decide_eq_true hbad (hall st hr x hx)

end DmaAccel.Driver
