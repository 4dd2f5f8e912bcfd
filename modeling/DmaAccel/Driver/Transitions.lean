import DmaAccel.Driver.System

/-!
# What one step can do

`Trans` lists, once, every effect of `step` together with the guards that hold when it
happens; the invariants are proved by cases on it and never unfold a step function. Steps
that change only the locals of one call or of the handler are collected in `SubmitLocal`,
`AllocLocal`, `ReadLocal` and `IsrLocal`.
-/

namespace DmaAccel.Driver

open DmaAccel.Base

/-- Steps of `dma_accel_ioc_submit` that change nothing but the call. -/
inductive SubmitLocal (st : Sys) (c : Submit) : Submit → Prop where
  | copyIn : c.pc = .copyIn → SubmitLocal st c { c with pc := .check }
  | copyInFault : c.pc = .copyIn →
      SubmitLocal st c { c with pc := .refused, ret := .err .EFAULT }
  | resolve (a : Resolved) : c.pc = .check → checkSubmit st.buffers c.sess c.req = .ok a →
      SubmitLocal st c
        { c with pc := .newId, srcDma := a.src, dstDma := a.dst, src2Dma := a.src2 }
  | reject (e : Errno) : c.pc = .check → checkSubmit st.buffers c.sess c.req = .error e →
      SubmitLocal st c { c with pc := .refused, ret := .err e }
  | readActive : c.pc = .readActive →
      SubmitLocal st c
        { c with
          pc := .admission
          active := st.activeSessions
          quota := quotaOf st.activeSessions }
  | block : c.pc = .admission →
      ¬(st.totalInflight < queueDepth ∧ st.inflight c.sess < c.quota) ∨
        freeCmdSlot st.cmdTable = none →
      SubmitLocal st c { c with pc := .waitTest }
  | retry : c.pc = .waitTest → admissionLikelyOk st c.sess = true →
      SubmitLocal st c { c with pc := .readActive }
  | sleep : c.pc = .waitTest → admissionLikelyOk st c.sess = false →
      SubmitLocal st c { c with pc := .asleep }
  | interrupt : c.pc = .waitTest → admissionLikelyOk st c.sess = false →
      SubmitLocal st c { c with pc := .refused, ret := .err .ERESTARTSYS }
  | getUp : c.pc = .asleep → SubmitLocal st c { c with pc := .waitTest }
  | readTail : c.pc = .enqReadTail →
      SubmitLocal st c { c with pc := .enqWriteTail, tail := st.sqTail }
  | loadTail : c.pc = .enqLoadTail →
      SubmitLocal st c { c with pc := .enqDoorbell, tail := st.sqTail }
  | copyOut : c.pc = .copyOut → SubmitLocal st c { c with pc := .returned, ret := .ok 0 }
  | copyOutFault : c.pc = .copyOut →
      SubmitLocal st c { c with pc := .returned, ret := .err .EFAULT }

/-- The action is a step of call `k` of `dma_accel_ioc_submit`. -/
def Act.ofSubmit (k : Nat) (a : Act) : Prop :=
  a = .submitStep k ∨ a = .submitFault k ∨ a = .submitSignal k

/-- Every effect of a step of one call of `dma_accel_ioc_submit`, with its guards. -/
inductive SubmitMove (st : Sys) (k : Nat) : Sys → Prop where
  | quiet (c : Submit) : SubmitLocal st (st.submits k) c → SubmitMove st k (st.setSubmit k c)
  | newId : (st.submits k).pc = .newId →
      SubmitMove st k
        { st with
          nextCmdId := st.nextCmdId + 1
          submits := Function.update st.submits k
            { st.submits k with pc := .readActive, cmdId := st.nextCmdId + 1 } }
  | register (j : Fin maxInflightCmds) : (st.submits k).pc = .admission →
      st.totalInflight < queueDepth →
      st.inflight (st.submits k).sess < (st.submits k).quota →
      freeCmdSlot st.cmdTable = some j →
      SubmitMove st k
        { st with
          cmdTable := Function.update st.cmdTable j
            ⟨true, (st.submits k).cmdId, (st.submits k).sess⟩
          admitted := st.admitted ++ [⟨(st.submits k).sess, (st.submits k).desc⟩]
          submits := Function.update st.submits k { st.submits k with pc := .incInflight } }
  | incInflight : (st.submits k).pc = .incInflight →
      SubmitMove st k
        { st with
          inflight := Function.update st.inflight (st.submits k).sess
            (st.inflight (st.submits k).sess + 1)
          submits := Function.update st.submits k { st.submits k with pc := .incTotal } }
  | incTotal : (st.submits k).pc = .incTotal →
      SubmitMove st k
        { st with
          totalInflight := st.totalInflight + 1
          submits := Function.update st.submits k { st.submits k with pc := .enqIdx } }
  | enqIdx : (st.submits k).pc = .enqIdx →
      SubmitMove st k
        (st.setSubmit k { st.submits k with pc := .enqStore, idx := slotOf _ st.sqTail })
  | enqStore : (st.submits k).pc = .enqStore →
      SubmitMove st k
        { st with
          sqBuf := Function.update st.sqBuf (st.submits k).idx (st.submits k).desc
          submits := Function.update st.submits k { st.submits k with pc := .enqReadTail } }
  | enqWriteTail : (st.submits k).pc = .enqWriteTail →
      SubmitMove st k
        { st with
          sqTail := (st.submits k).tail + 1
          submits := Function.update st.submits k { st.submits k with pc := .enqLoadTail } }
  | enqDoorbell : (st.submits k).pc = .enqDoorbell →
      SubmitMove st k
        { st with
          regSqTail := (st.submits k).tail
          submits := Function.update st.submits k { st.submits k with pc := .copyOut } }

/-- Steps of `dma_accel_ioc_buffer_alloc` that change nothing but the call. -/
inductive AllocLocal (st : Sys) (c : Alloc) : Alloc → Prop where
  | copyInFault : c.pc = .copyIn →
      AllocLocal st c { c with pc := .returned, ret := .err .EFAULT }
  | badSize : c.pc = .copyIn → c.reqSize.toNat = 0 ∨ c.reqSize.toNat > bufferAllocMax →
      AllocLocal st c { c with pc := .returned, ret := .err .EINVAL }
  | sized : c.pc = .copyIn → c.reqSize.toNat ≠ 0 → c.reqSize.toNat ≤ bufferAllocMax →
      AllocLocal st c { c with pc := .publish, size := pageAlign c.reqSize.toNat }
  | overQuota : c.pc = .publish → defaultBufferQuota ≤ (st.ownedBuffers c.sess).card →
      AllocLocal st c { c with pc := .returned, ret := .err .EDQUOT }
  | noSlot : c.pc = .publish → (st.ownedBuffers c.sess).card < defaultBufferQuota →
      freeBufSlot st.buffers = none →
      AllocLocal st c { c with pc := .returned, ret := .err .ENOSPC }
  | noMem (i : Fin maxBuffers) : c.pc = .publish →
      (st.ownedBuffers c.sess).card < defaultBufferQuota → freeBufSlot st.buffers = some i →
      AllocLocal st c { c with pc := .returned, ret := .err .ENOMEM }
  | report : c.pc = .copyOut → AllocLocal st c { c with pc := .returned, ret := .ok 0 }
  | fault : c.pc = .copyOut → AllocLocal st c { c with pc := .rollback }

/-- Steps of `dma_accel_chr_read` that change nothing but the call. -/
inductive ReadLocal (st : Sys) (c : Read) : Read → Prop where
  | nothing : c.pc = .avail → span (st.compRing c.sess).head (st.compRing c.sess).tail = 0 →
      ReadLocal st c { c with pc := .returned, ret := .err .EAGAIN }
  | tooSmall : c.pc = .avail → c.bytes / completionBytes = 0 →
      ReadLocal st c { c with pc := .returned, ret := .err .EINVAL }
  | start : c.pc = .avail → c.bytes / completionBytes ≠ 0 →
      span (st.compRing c.sess).head (st.compRing c.sess).tail ≠ 0 →
      ReadLocal st c
        { c with
          pc := .pop
          nWant := min (c.bytes / completionBytes)
            (span (st.compRing c.sess).head (st.compRing c.sess).tail) }
  | stop : c.pc = .pop → ¬c.copied < c.nWant ∨ (st.compRing c.sess).pop = none →
      ReadLocal st c { c with pc := .returned, ret := .ok (c.copied * completionBytes) }

/-- Steps of the handler that change nothing but its locals and touch no completion. -/
inductive IsrLocal (st : Sys) (h : Isr) : Isr → Prop where
  | enter : h.pc = .idle → st.regIrqStatus ≠ 0 →
      IsrLocal st h { h with pc := .ack, irqStatus := st.regIrqStatus }
  | readTail : h.pc = .readTail → st.uapiActive = true →
      IsrLocal st h { h with pc := .drain, deviceCqTail := st.regCqTail }
  | drained : h.pc = .drain → st.cqHead = h.deviceCqTail →
      IsrLocal st h { h with pc := .writeHead }
  | unknown : h.pc = .lookup → findCmd st.cmdTable h.comp.cmdId = none →
      IsrLocal st h { h with pc := .next }
  | wakeComp : h.pc = .wakeComp → IsrLocal st h { h with pc := .next }

/-- Every effect of a step, with its guards. -/
inductive Trans (st : Sys) : Act → Sys → Prop where
  | stutter (a : Act) : Trans st a st
  | chrOpen : Trans st .chrOpen (chrOpen st)
  | chrRelease (s : Sid) : st.phase s = .opened → st.quiescent s →
      Trans st (.chrRelease s) (chrRelease st s)
  | relWake (s : Sid) : st.phase s = .relWake →
      Trans st (.releaseStep s)
        { st with
          submits := fun k ↦ (st.submits k).wake
          phase := Function.update st.phase s .relPoll }
  | relPoll (s : Sid) : st.phase s = .relPoll → ¬st.inflight s > 0 →
      Trans st (.releaseStep s) { st with phase := Function.update st.phase s .relFree }
  | relFree (s : Sid) : st.phase s = .relFree →
      Trans st (.releaseStep s)
        { st with
          buffers := releaseSlots (setBits (st.ownedBuffers s)) st.buffers
          frees := st.frees ++ releaseFrees (setBits (st.ownedBuffers s)) st.buffers
          phase := Function.update st.phase s .relKfree }
  | relKfree (s : Sid) : st.phase s = .relKfree →
      Trans st (.releaseStep s) { st with phase := Function.update st.phase s .freed }
  | submit (s : Sid) (req : SubmitReq) : st.phase s = .opened →
      Trans st (.submit s req) (ioctlSubmit st s req)
  | submitLocal (a : Act) (k : Nat) (c : Submit) : k < st.nsubmits →
      SubmitLocal st (st.submits k) c → Trans st a (st.setSubmit k c)
  | newId (k : Nat) : k < st.nsubmits → (st.submits k).pc = .newId →
      Trans st (.submitStep k)
        { st with
          nextCmdId := st.nextCmdId + 1
          submits := Function.update st.submits k
            { st.submits k with pc := .readActive, cmdId := st.nextCmdId + 1 } }
  | register (k : Nat) (j : Fin maxInflightCmds) : k < st.nsubmits →
      (st.submits k).pc = .admission → st.totalInflight < queueDepth →
      st.inflight (st.submits k).sess < (st.submits k).quota →
      freeCmdSlot st.cmdTable = some j →
      Trans st (.submitStep k)
        { st with
          cmdTable := Function.update st.cmdTable j
            ⟨true, (st.submits k).cmdId, (st.submits k).sess⟩
          admitted := st.admitted ++ [⟨(st.submits k).sess, (st.submits k).desc⟩]
          submits := Function.update st.submits k { st.submits k with pc := .incInflight } }
  | incInflight (k : Nat) : k < st.nsubmits → (st.submits k).pc = .incInflight →
      Trans st (.submitStep k)
        { st with
          inflight := Function.update st.inflight (st.submits k).sess
            (st.inflight (st.submits k).sess + 1)
          submits := Function.update st.submits k { st.submits k with pc := .incTotal } }
  | incTotal (k : Nat) : k < st.nsubmits → (st.submits k).pc = .incTotal →
      Trans st (.submitStep k)
        { st with
          totalInflight := st.totalInflight + 1
          submits := Function.update st.submits k { st.submits k with pc := .enqIdx } }
  | enqIdx (k : Nat) : k < st.nsubmits → (st.submits k).pc = .enqIdx →
      Trans st (.submitStep k)
        (st.setSubmit k { st.submits k with pc := .enqStore, idx := slotOf _ st.sqTail })
  | enqStore (k : Nat) : k < st.nsubmits → (st.submits k).pc = .enqStore →
      Trans st (.submitStep k)
        { st with
          sqBuf := Function.update st.sqBuf (st.submits k).idx (st.submits k).desc
          submits := Function.update st.submits k { st.submits k with pc := .enqReadTail } }
  | enqWriteTail (k : Nat) : k < st.nsubmits → (st.submits k).pc = .enqWriteTail →
      Trans st (.submitStep k)
        { st with
          sqTail := (st.submits k).tail + 1
          submits := Function.update st.submits k { st.submits k with pc := .enqLoadTail } }
  | enqDoorbell (k : Nat) : k < st.nsubmits → (st.submits k).pc = .enqDoorbell →
      Trans st (.submitStep k)
        { st with
          regSqTail := (st.submits k).tail
          submits := Function.update st.submits k { st.submits k with pc := .copyOut } }
  | alloc (s : Sid) (size : U32) : st.phase s = .opened →
      Trans st (.alloc s size) (ioctlAlloc st s size)
  | allocLocal (a : Act) (k : Nat) (c : Alloc) : k < st.nallocs →
      AllocLocal st (st.allocs k) c → Trans st a (st.setAlloc k c)
  | publish (k : Nat) (i : Fin maxBuffers) (kaddr dmaAddr : Nat) : k < st.nallocs →
      (st.allocs k).pc = .publish →
      (st.ownedBuffers (st.allocs k).sess).card < defaultBufferQuota →
      freeBufSlot st.buffers = some i →
      Trans st (.allocStep k (some (kaddr, dmaAddr)))
        { st with
          buffers := Function.update st.buffers i
            ⟨kaddr, dmaAddr, (st.allocs k).size, true, some (st.allocs k).sess⟩
          ownedBuffers := Function.update st.ownedBuffers (st.allocs k).sess
            (insert i (st.ownedBuffers (st.allocs k).sess))
          allocs := Function.update st.allocs k
            { st.allocs k with pc := .copyOut, slot := i, kaddr := kaddr, dmaAddr := dmaAddr } }
  | rollback (k : Nat) (mem : Option (Nat × Nat)) : k < st.nallocs →
      (st.allocs k).pc = .rollback →
      Trans st (.allocStep k mem)
        { st with
          buffers := Function.update st.buffers (st.allocs k).slot
            (st.buffers (st.allocs k).slot).release
          ownedBuffers := Function.update st.ownedBuffers (st.allocs k).sess
            ((st.ownedBuffers (st.allocs k).sess).erase (st.allocs k).slot)
          frees := st.frees ++
            [⟨(st.allocs k).slot, (st.allocs k).kaddr, (st.allocs k).dmaAddr,
              (st.allocs k).size⟩]
          allocs := Function.update st.allocs k
            { st.allocs k with pc := .returned, ret := .err .EFAULT } }
  | read (s : Sid) (bytes : Nat) : st.phase s = .opened →
      Trans st (.read s bytes) (chrRead st s bytes)
  | readLocal (a : Act) (k : Nat) (c : Read) : k < st.nreads →
      ReadLocal st (st.reads k) c → Trans st a (st.setRead k c)
  | pop (k : Nat) (out : Completion) (r : CompRing) : k < st.nreads →
      (st.reads k).pc = .pop → (st.reads k).copied < (st.reads k).nWant →
      (st.compRing (st.reads k).sess).pop = some (out, r) →
      Trans st (.readStep k)
        { st with
          compRing := Function.update st.compRing (st.reads k).sess r
          taken := st.taken ++ [((st.reads k).sess, out)]
          reads := Function.update st.reads k
            { st.reads k with pc := .copy, out := { out with reserved := 0 } } }
  | copy (k : Nat) : k < st.nreads → (st.reads k).pc = .copy →
      Trans st (.readStep k)
        { st with
          delivered := st.delivered ++ [((st.reads k).sess, (st.reads k).out)]
          reads := Function.update st.reads k
            { st.reads k with pc := .pop, copied := (st.reads k).copied + 1 } }
  | copyFault (k : Nat) : k < st.nreads → (st.reads k).pc = .copy →
      Trans st (.readFault k)
        (st.setRead k
          { st.reads k with
            pc := .returned
            ret := if (st.reads k).copied > 0 then .ok ((st.reads k).copied * completionBytes)
              else .err .EFAULT })
  | isrLocal (a : Act) (h : Isr) : IsrLocal st st.isr h → Trans st a { st with isr := h }
  | ack : st.isr.pc = .ack →
      Trans st .isrStep
        { st with
          regIrqStatus := st.regIrqStatus &&& ~~~st.isr.irqStatus
          isr := { st.isr with pc := .readTail } }
  | complete : st.isr.pc = .readTail → st.uapiActive = false →
      Trans st .isrStep
        { st with irqDone := st.irqDone + 1, isr := { st.isr with pc := .idle } }
  | drain : st.isr.pc = .drain → st.cqHead ≠ st.isr.deviceCqTail →
      Trans st .isrStep
        { st with
          isr := { st.isr with pc := .lookup, comp := st.cqBuf (slotOf _ st.cqHead) } }
  | lookup (i : Fin maxInflightCmds) : st.isr.pc = .lookup →
      findCmd st.cmdTable st.isr.comp.cmdId = some i →
      Trans st .isrStep
        { st with
          cmdTable := Function.update st.cmdTable i { st.cmdTable i with valid := false }
          isr := { st.isr with pc := .push, owner := (st.cmdTable i).sess } }
  | push : st.isr.pc = .push →
      Trans st .isrStep
        { st with
          compRing := Function.update st.compRing st.isr.owner
            ((st.compRing st.isr.owner).push st.isr.comp)
          pushed := st.pushed ++ [(st.isr.owner, st.isr.comp)]
          isr := { st.isr with pc := .decInflight } }
  | decInflight : st.isr.pc = .decInflight →
      Trans st .isrStep
        { st with
          inflight := Function.update st.inflight st.isr.owner
            (st.inflight st.isr.owner - 1)
          isr := { st.isr with pc := .decTotal } }
  | decTotal : st.isr.pc = .decTotal →
      Trans st .isrStep
        { st with
          totalInflight := st.totalInflight - 1
          isr := { st.isr with pc := .wakeQuota } }
  | wakeQuota : st.isr.pc = .wakeQuota →
      Trans st .isrStep
        { st with
          submits := fun k ↦ (st.submits k).wake
          isr := { st.isr with pc := .wakeComp } }
  | next : st.isr.pc = .next →
      Trans st .isrStep { st with cqHead := st.cqHead + 1, isr := { st.isr with pc := .drain } }
  | writeHead : st.isr.pc = .writeHead →
      Trans st .isrStep { st with regCqHead := st.cqHead, isr := { st.isr with pc := .idle } }
  | fetch : st.regSqHead ≠ st.regSqTail →
      Trans st .fetch
        { st with
          fetched := st.fetched ++ [st.sqBuf (slotOf _ st.regSqHead)]
          regSqHead := st.regSqHead + 1 }
  | post (j : Nat) (status : U32) (d : Cmd) : st.post = .idle → d ∈ st.fetched →
      Trans st (.post j status)
        { st with
          cqBuf := Function.update st.cqBuf (slotOf _ st.regCqTail) ⟨d.cmdId, status, 0⟩
          post := .advance status }
  | postAdvance (status : U32) : st.post = .advance status →
      Trans st .postStep { st with regCqTail := st.regCqTail + 1, post := .raise status }
  | postRaise (status : U32) : st.post = .raise status →
      Trans st .postStep
        { st with
          regIrqStatus :=
            st.regIrqStatus ||| (if status = statusOk then irqDmaDone else irqDmaError)
          post := .idle }

variable {st st' : Sys}

private theorem trans_releaseStep {s : Sid} (h : releaseStep st s = some st') :
    Trans st (.releaseStep s) st' := by
  unfold releaseStep at h
  split at h
  · next hp => cases h; exact .relWake s hp
  · next hp =>
    split at h
    · cases h; exact .stutter _
    · next hi => cases h; exact .relPoll s hp hi
  · next hp => cases h; exact .relFree s hp
  · next hp => cases h; exact .relKfree s hp
  · cases h
  · cases h
  · cases h

private theorem submitMove_submitStep {k : Nat} (h : submitStep st k = some st') :
    SubmitMove st k st' := by
  unfold submitStep at h
  dsimp only at h
  split at h
  · next hp => cases h; exact .quiet _ (.copyIn hp)
  · next hp =>
    split at h
    · next a ha => cases h; exact .quiet _ (.resolve a hp ha)
    · next e he => cases h; exact .quiet _ (.reject e hp he)
  · next hp => cases h; exact .newId hp
  · next hp => cases h; exact .quiet _ (.readActive hp)
  · next hp =>
    split at h
    · next hq =>
      split at h
      · next j hj => cases h; exact .register j hp hq.1 hq.2 hj
      · next hj => cases h; exact .quiet _ (.block hp (.inr hj))
    · next hq => cases h; exact .quiet _ (.block hp (.inl hq))
  · next hp =>
    split at h
    · next hl => cases h; exact .quiet _ (.retry hp hl)
    · next hl =>
      cases h
      exact .quiet _ (.sleep hp (Bool.eq_false_iff.mpr hl))
  · cases h
  · next hp => cases h; exact .incInflight hp
  · next hp => cases h; exact .incTotal hp
  · next hp => cases h; exact .enqIdx hp
  · next hp => cases h; exact .enqStore hp
  · next hp => cases h; exact .quiet _ (.readTail hp)
  · next hp => cases h; exact .enqWriteTail hp
  · next hp => cases h; exact .quiet _ (.loadTail hp)
  · next hp => cases h; exact .enqDoorbell hp
  · next hp => cases h; exact .quiet _ (.copyOut hp)
  · cases h
  · cases h

private theorem submitLocal_submitFault {k : Nat} (h : submitFault st k = some st') :
    ∃ c, SubmitLocal st (st.submits k) c ∧ st.setSubmit k c = st' := by
  unfold submitFault at h
  dsimp only at h
  split at h
  · next hp => exact ⟨_, .copyInFault hp, Option.some.inj h⟩
  · next hp => exact ⟨_, .copyOutFault hp, Option.some.inj h⟩
  · cases h

private theorem submitLocal_submitSignal {k : Nat} (h : submitSignal st k = some st') :
    ∃ c, SubmitLocal st (st.submits k) c ∧ st.setSubmit k c = st' := by
  unfold submitSignal at h
  dsimp only at h
  split at h
  · next hp => exact ⟨_, .getUp hp, Option.some.inj h⟩
  · next hp =>
    split at h
    · cases h
    · next hl => exact ⟨_, .interrupt hp (Bool.eq_false_iff.mpr hl), Option.some.inj h⟩
  · cases h

/-- What a call of SUBMIT does in its own steps. -/
theorem submitMove_of_step {a : Act} {k : Nat} (ha : a.ofSubmit k) (h : step st a = some st') :
    SubmitMove st k st' := by
  rcases ha with rfl | rfl | rfl
  · exact submitMove_submitStep (Option.ite_none_right_eq_some.mp h).2
  · obtain ⟨c, hc, rfl⟩ := submitLocal_submitFault (Option.ite_none_right_eq_some.mp h).2
    exact .quiet c hc
  · obtain ⟨c, hc, rfl⟩ := submitLocal_submitSignal (Option.ite_none_right_eq_some.mp h).2
    exact .quiet c hc

private theorem trans_submitStep {k : Nat} (hk : k < st.nsubmits)
    (h : submitStep st k = some st') : Trans st (.submitStep k) st' := by
  cases submitMove_submitStep h with
  | quiet c hl => exact .submitLocal _ k c hk hl
  | newId hp => exact .newId k hk hp
  | register j hp ht hi hj => exact .register k j hk hp ht hi hj
  | incInflight hp => exact .incInflight k hk hp
  | incTotal hp => exact .incTotal k hk hp
  | enqIdx hp => exact .enqIdx k hk hp
  | enqStore hp => exact .enqStore k hk hp
  | enqWriteTail hp => exact .enqWriteTail k hk hp
  | enqDoorbell hp => exact .enqDoorbell k hk hp

private theorem trans_submitFault {k : Nat} (hk : k < st.nsubmits)
    (h : submitFault st k = some st') : Trans st (.submitFault k) st' := by
  obtain ⟨c, hc, rfl⟩ := submitLocal_submitFault h
  exact .submitLocal _ k c hk hc

private theorem trans_submitSignal {k : Nat} (hk : k < st.nsubmits)
    (h : submitSignal st k = some st') : Trans st (.submitSignal k) st' := by
  obtain ⟨c, hc, rfl⟩ := submitLocal_submitSignal h
  exact .submitLocal _ k c hk hc

private theorem trans_allocStep {k : Nat} {mem : Option (Nat × Nat)} (hk : k < st.nallocs)
    (h : allocStep st k mem = some st') : Trans st (.allocStep k mem) st' := by
  unfold allocStep at h
  dsimp only at h
  split at h
  · next hp =>
    split at h
    · next hs => cases h; exact .allocLocal _ k _ hk (.badSize hp hs)
    · next hs =>
      cases h
      exact .allocLocal _ k _ hk (.sized hp (fun h0 ↦ hs (.inl h0)) (by omega))
  · next hp =>
    split at h
    · next hq => cases h; exact .allocLocal _ k _ hk (.overQuota hp hq)
    · next hq =>
      split at h
      · next hi => cases h; exact .allocLocal _ k _ hk (.noSlot hp (by omega) hi)
      · next i hi => cases h; exact .allocLocal _ k _ hk (.noMem i hp (by omega) hi)
      · next i kaddr dmaAddr hi =>
        cases h
        exact .publish k i kaddr dmaAddr hk hp (by omega) hi
  · next hp => cases h; exact .allocLocal _ k _ hk (.report hp)
  · next hp => cases h; exact .rollback k mem hk hp
  · cases h

private theorem trans_allocFault {k : Nat} (hk : k < st.nallocs)
    (h : allocFault st k = some st') : Trans st (.allocFault k) st' := by
  unfold allocFault at h
  dsimp only at h
  split at h
  · next hp => cases h; exact .allocLocal _ k _ hk (.copyInFault hp)
  · next hp => cases h; exact .allocLocal _ k _ hk (.fault hp)
  · cases h

private theorem trans_readStep {k : Nat} (hk : k < st.nreads)
    (h : readStep st k = some st') : Trans st (.readStep k) st' := by
  unfold readStep at h
  dsimp only at h
  split at h
  · next hp =>
    split at h
    · next hn => cases h; exact .readLocal _ k _ hk (.nothing hp hn)
    · next hn =>
      split at h
      · next hb => cases h; exact .readLocal _ k _ hk (.tooSmall hp hb)
      · next hb => cases h; exact .readLocal _ k _ hk (.start hp hb hn)
  · next hp =>
    split at h
    · next hc =>
      split at h
      · next out r hr => cases h; exact .pop k out r hk hp hc hr
      · next hr => cases h; exact .readLocal _ k _ hk (.stop hp (.inr hr))
    · next hc => cases h; exact .readLocal _ k _ hk (.stop hp (.inl hc))
  · next hp => cases h; exact .copy k hk hp
  · cases h

private theorem trans_readFault {k : Nat} (hk : k < st.nreads)
    (h : readFault st k = some st') : Trans st (.readFault k) st' := by
  unfold readFault at h
  dsimp only at h
  split at h
  · next hp => cases h; exact .copyFault k hk hp
  · cases h

private theorem trans_irqEnter (h : irqEnter st = some st') : Trans st .irq st' := by
  unfold irqEnter at h
  split at h
  · next hp =>
    split at h
    · cases h; exact .stutter _
    · next hs => cases h; exact .isrLocal _ _ (.enter hp hs)
  · cases h

private theorem trans_isrStep (h : isrStep st = some st') : Trans st .isrStep st' := by
  unfold isrStep at h
  dsimp only at h
  split at h
  · cases h
  · next hp => cases h; exact .ack hp
  · next hp =>
    split at h
    · next hu => cases h; exact .isrLocal _ _ (.readTail hp hu)
    · next hu => cases h; exact .complete hp (Bool.eq_false_iff.mpr hu)
  · next hp =>
    split at h
    · next hc => cases h; exact .isrLocal _ _ (.drained hp hc)
    · next hc => cases h; exact .drain hp hc
  · next hp =>
    split at h
    · next i hi => cases h; exact .lookup i hp hi
    · next hi => cases h; exact .isrLocal _ _ (.unknown hp hi)
  · next hp => cases h; exact .push hp
  · next hp => cases h; exact .decInflight hp
  · next hp => cases h; exact .decTotal hp
  · next hp => cases h; exact .wakeQuota hp
  · next hp => cases h; exact .isrLocal _ _ (.wakeComp hp)
  · next hp => cases h; exact .next hp
  · next hp => cases h; exact .writeHead hp

private theorem trans_device {a : Act} (ha : a = .fetch ∨ (∃ j x, a = .post j x) ∨ a = .postStep)
    (h : step st a = some st') : Trans st a st' := by
  rcases ha with rfl | ⟨j, x, rfl⟩ | rfl
  · simp only [step, devFetch] at h
    split at h
    · cases h
    · next hn => cases h; exact .fetch hn
  · simp only [step, devPost] at h
    split at h
    · next d hp hd => cases h; exact .post j x d hp (List.mem_of_getElem? hd)
    · cases h
  · simp only [step, devPostStep] at h
    split at h
    · cases h
    · next x hp => cases h; exact .postAdvance x hp
    · next x hp => cases h; exact .postRaise x hp

/-- Every step of the system is one of the listed transitions. -/
theorem trans_of_step {a : Act} (h : step st a = some st') : Trans st a st' := by
  cases a with
  | chrOpen => cases h; exact .chrOpen
  | chrRelease s =>
    obtain ⟨⟨ho, hq⟩, hs⟩ := Option.ite_none_right_eq_some.mp h
    cases hs
    exact .chrRelease s ho hq
  | releaseStep s => exact trans_releaseStep h
  | submit s req =>
    obtain ⟨ho, hs⟩ := Option.ite_none_right_eq_some.mp h
    cases hs
    exact .submit s req ho
  | submitStep k =>
    obtain ⟨hk, hs⟩ := Option.ite_none_right_eq_some.mp h
    exact trans_submitStep hk hs
  | submitFault k =>
    obtain ⟨hk, hs⟩ := Option.ite_none_right_eq_some.mp h
    exact trans_submitFault hk hs
  | submitSignal k =>
    obtain ⟨hk, hs⟩ := Option.ite_none_right_eq_some.mp h
    exact trans_submitSignal hk hs
  | alloc s size =>
    obtain ⟨ho, hs⟩ := Option.ite_none_right_eq_some.mp h
    cases hs
    exact .alloc s size ho
  | allocStep k mem =>
    obtain ⟨hk, hs⟩ := Option.ite_none_right_eq_some.mp h
    exact trans_allocStep hk hs
  | allocFault k =>
    obtain ⟨hk, hs⟩ := Option.ite_none_right_eq_some.mp h
    exact trans_allocFault hk hs
  | read s bytes =>
    obtain ⟨ho, hs⟩ := Option.ite_none_right_eq_some.mp h
    cases hs
    exact .read s bytes ho
  | readStep k =>
    obtain ⟨hk, hs⟩ := Option.ite_none_right_eq_some.mp h
    exact trans_readStep hk hs
  | readFault k =>
    obtain ⟨hk, hs⟩ := Option.ite_none_right_eq_some.mp h
    exact trans_readFault hk hs
  | mmap s i n =>
    obtain ⟨-, hs⟩ := Option.ite_none_right_eq_some.mp h
    cases hs
    exact .stutter _
  | poll s =>
    obtain ⟨-, hs⟩ := Option.ite_none_right_eq_some.mp h
    cases hs
    exact .stutter _
  | irq => exact trans_irqEnter h
  | isrStep => exact trans_isrStep h
  | fetch => exact trans_device (.inl rfl) h
  | post j x => exact trans_device (.inr (.inl ⟨j, x, rfl⟩)) h
  | postStep => exact trans_device (.inr (.inr rfl)) h

/-- Invariants are proved on transitions and hold in every state of the restricted runs. -/
theorem invariant_of_trans {ok : Sys → Act → Prop} {I : Sys → Prop} (h0 : I Sys.init)
    (hstep : ∀ st a st', ReachBy ok st → I st → ok st a → Trans st a st' → I st')
    (h : ReachBy ok st) : I st :=
  h.invariant h0 fun _ _ _ hr hi hok hs ↦ hstep _ _ _ hr hi hok (trans_of_step hs)

/-- How the phase of session `s` changes in one step. -/
inductive PhaseMove (st : Sys) (a : Act) (s : Sid) (p : Phase) : Prop where
  | keep : p = st.phase s → PhaseMove st a s p
  | opens : a = .chrOpen → s = st.nsess → p = .opened → PhaseMove st a s p
  | closes : a = .chrRelease s → st.phase s = .opened → st.quiescent s → p = .relWake →
      PhaseMove st a s p
  | wakes : st.phase s = .relWake → p = .relPoll → PhaseMove st a s p
  | polls : st.phase s = .relPoll → ¬st.inflight s > 0 → p = .relFree → PhaseMove st a s p
  | frees : st.phase s = .relFree → p = .relKfree → PhaseMove st a s p
  | kfrees : a = .releaseStep s → st.phase s = .relKfree → p = .freed → PhaseMove st a s p

/-- Every step moves the phase of a session in one of these ways. -/
theorem Trans.phaseMove {a : Act} (h : Trans st a st') (s : Sid) :
    PhaseMove st a s (st'.phase s) := by
  have hupd {r : Sid} {p : Phase} (hr : PhaseMove st a r p) :
      PhaseMove st a s (Function.update st.phase r p s) := by
    by_cases he : s = r
    · subst he
      rw [Function.update_self]
      exact hr
    · rw [Function.update_of_ne he]
      exact .keep rfl
  cases h with
  | chrOpen => exact hupd (.opens rfl rfl rfl)
  | chrRelease r ho hq => exact hupd (.closes rfl ho hq rfl)
  | relWake r hr => exact hupd (.wakes hr rfl)
  | relPoll r hr h0 => exact hupd (.polls hr h0 rfl)
  | relFree r hr => exact hupd (.frees hr rfl)
  | relKfree r hr => exact hupd (.kfrees rfl hr rfl)
  | _ => exact .keep rfl

end DmaAccel.Driver
