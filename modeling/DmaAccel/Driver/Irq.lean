import DmaAccel.Driver.Submit

/-!
# Interrupt handler, completion delivery and the device

Source `track-a/dma_accel_drv.c`: `dma_accel_irq_handler` (299–406), `dma_accel_chr_read`
(1765–1817) and `dma_accel_chr_poll` (1819–1838). The device is assumed, not modelled from
source: it fetches descriptors in index order up to the last doorbell value, and it reports
command ids of descriptors it fetched, in any order and as often as it likes.
-/

namespace DmaAccel.Driver

open DmaAccel.Base

/-- The handler pushes a completion, dropping the oldest unread one from a full ring. -/
def CompRing.push (r : CompRing) (c : Completion) : CompRing where
  slots := Function.update r.slots (slotOf _ r.tail) c
  head := if span r.head r.tail ≥ compRingSize then r.head + 1 else r.head
  tail := r.tail + 1

/-- A reader takes the oldest unread completion. -/
def CompRing.pop (r : CompRing) : Option (Completion × CompRing) :=
  if r.head = r.tail then none
  else some (r.slots (slotOf _ r.head), { r with head := r.head + 1 })

/-- Unread completions, oldest first. -/
def CompRing.unread (r : CompRing) : List Completion := window r.slots r.head r.tail

/-- The table entry a completion belongs to. -/
def findCmd (t : Fin maxInflightCmds → CmdCtx) (cmdId : Nat) : Option (Fin maxInflightCmds) :=
  (List.finRange maxInflightCmds).find? fun i ↦ (t i).valid && (t i).cmdId == cmdId

/-- An interrupt is delivered: the handler reads `IRQ_STATUS` and leaves if it is not ours. -/
def irqEnter (st : Sys) : Option Sys :=
  if st.isr.pc = .idle then
    if st.regIrqStatus = 0 then some st
    else some { st with isr := { st.isr with pc := .ack, irqStatus := st.regIrqStatus } }
  else none

/-- One step of `dma_accel_irq_handler`. -/
def isrStep (st : Sys) : Option Sys :=
  let h := st.isr
  match h.pc with
  | .idle => none
  | .ack =>
    some { st with
      regIrqStatus := st.regIrqStatus &&& ~~~h.irqStatus
      isr := { h with pc := .readTail } }
  | .readTail =>
    if st.uapiActive then
      some { st with isr := { h with pc := .drain, deviceCqTail := st.regCqTail } }
    else some { st with irqDone := st.irqDone + 1, isr := { h with pc := .idle } }
  | .drain =>
    if st.cqHead = h.deviceCqTail then some { st with isr := { h with pc := .writeHead } }
    else some { st with
      isr := { h with pc := .lookup, comp := st.cqBuf (slotOf _ st.cqHead) } }
  | .lookup =>
    match findCmd st.cmdTable h.comp.cmdId with
    | some i =>
      some { st with
        cmdTable := Function.update st.cmdTable i { st.cmdTable i with valid := false }
        isr := { h with pc := .push, owner := (st.cmdTable i).sess } }
    | none => some { st with isr := { h with pc := .next } }
  | .push =>
    some { st with
      compRing := Function.update st.compRing h.owner ((st.compRing h.owner).push h.comp)
      pushed := st.pushed ++ [(h.owner, h.comp)]
      isr := { h with pc := .decInflight } }
  | .decInflight =>
    some { st with
      inflight := Function.update st.inflight h.owner (st.inflight h.owner - 1)
      isr := { h with pc := .decTotal } }
  | .decTotal =>
    some { st with
      totalInflight := st.totalInflight - 1
      isr := { h with pc := .wakeQuota } }
  | .wakeQuota =>
    some { st with
      submits := fun k ↦ (st.submits k).wake
      isr := { h with pc := .wakeComp } }
  | .wakeComp => some { st with isr := { h with pc := .next } }
  | .next => some { st with cqHead := st.cqHead + 1, isr := { h with pc := .drain } }
  | .writeHead => some { st with regCqHead := st.cqHead, isr := { h with pc := .idle } }

/-- The session whose memory the handler's next step reads or writes. -/
def Isr.touches (h : Isr) : Option Sid :=
  match h.pc with
  | .push | .decInflight | .wakeComp => some h.owner
  | _ => none

/-- Update one call of `dma_accel_chr_read`. -/
def Sys.setRead (st : Sys) (k : Nat) (c : Read) : Sys :=
  { st with reads := Function.update st.reads k c }

/-- `read()` enters the driver. -/
def chrRead (st : Sys) (s : Sid) (bytes : Nat) : Sys :=
  { st with
    nreads := st.nreads + 1
    reads := Function.update st.reads st.nreads
      { Read.none with sess := s, bytes := bytes, pc := .avail } }

/-- One step of `dma_accel_chr_read`. -/
def readStep (st : Sys) (k : Nat) : Option Sys :=
  let c := st.reads k
  match c.pc with
  | .avail =>
    let nAvail := span (st.compRing c.sess).head (st.compRing c.sess).tail
    if nAvail = 0 then
      some (st.setRead k { c with pc := .returned, ret := .err .EAGAIN })
    else if c.bytes / completionBytes = 0 then
      some (st.setRead k { c with pc := .returned, ret := .err .EINVAL })
    else
      some (st.setRead k { c with pc := .pop, nWant := min (c.bytes / completionBytes) nAvail })
  | .pop =>
    if c.copied < c.nWant then
      match (st.compRing c.sess).pop with
      | some (out, r) =>
        some { st with
          compRing := Function.update st.compRing c.sess r
          taken := st.taken ++ [(c.sess, out)]
          reads := Function.update st.reads k
            { c with pc := .copy, out := { out with reserved := 0 } } }
      | none =>
        some (st.setRead k { c with pc := .returned, ret := .ok (c.copied * completionBytes) })
    else
      some (st.setRead k { c with pc := .returned, ret := .ok (c.copied * completionBytes) })
  | .copy =>
    some { st with
      delivered := st.delivered ++ [(c.sess, c.out)]
      reads := Function.update st.reads k { c with pc := .pop, copied := c.copied + 1 } }
  | .returned => none

/-- The copy to user space of `dma_accel_chr_read` faults. -/
def readFault (st : Sys) (k : Nat) : Option Sys :=
  let c := st.reads k
  match c.pc with
  | .copy => some (st.setRead k { c with
      pc := .returned
      ret := if c.copied > 0 then .ok (c.copied * completionBytes) else .err .EFAULT })
  | _ => none

/-- `dma_accel_chr_poll`: readable exactly when something is unread. -/
def chrPoll (st : Sys) (s : Sid) : Bool := (st.compRing s).head != (st.compRing s).tail

/-- The device fetches the next descriptor, as long as it has not reached the doorbell. -/
def devFetch (st : Sys) : Option Sys :=
  if st.regSqHead = st.regSqTail then none
  else some { st with
    fetched := st.fetched ++ [st.sqBuf (slotOf _ st.regSqHead)]
    regSqHead := st.regSqHead + 1 }

/-- The device writes a completion entry for its `j`-th fetched descriptor. -/
def devPost (st : Sys) (j : Nat) (status : U32) : Option Sys :=
  match st.post, st.fetched[j]? with
  | .idle, some d =>
    some { st with
      cqBuf := Function.update st.cqBuf (slotOf _ st.regCqTail) ⟨d.cmdId, status, 0⟩
      post := .advance status }
  | _, _ => none

/-- The device goes on with the completion it wrote: `CQ_TAIL`, then `IRQ_STATUS`. -/
def devPostStep (st : Sys) : Option Sys :=
  match st.post with
  | .idle => none
  | .advance status => some { st with regCqTail := st.regCqTail + 1, post := .raise status }
  | .raise status =>
    some { st with
      regIrqStatus := st.regIrqStatus ||| (if status = statusOk then irqDmaDone else irqDmaError)
      post := .idle }

end DmaAccel.Driver
