import DmaAccel.Driver.Buffers

/-!
# Submission

Source `track-a/dma_accel_drv.c`: `dma_accel_ioc_submit` (1536–1708),
`dma_accel_admission_likely_ok` (1526–1534) and `dma_accel_queue_submit_ext` (822–849).
One step is one section under a lock, one atomic operation, or one access to shared memory
outside any lock; the enqueue is six of them, since `sq_tail++` reads and writes and the
doorbell is written with a value loaded once more.
-/

namespace DmaAccel.Driver

open DmaAccel.Base

/-- `DIV_ROUND_UP`. -/
def divRoundUp (n d : Int) : Int := (n + d - 1) / d

/-- Fair share of one session when `active` sessions are open. -/
def quotaOf (active : Int) : Int := divRoundUp queueDepth (if active < 1 then 1 else active)

/-- Rounded up, the quotient of positive numbers is positive. -/
theorem divRoundUp_pos {n d : Int} (hn : 0 < n) (hd : 0 < d) : 0 < divRoundUp n d := by
  apply Int.lt_of_lt_of_le Int.zero_lt_one
  apply Int.le_ediv_of_mul_le hd
  omega

/-- A larger divisor gives no larger quotient. -/
theorem divRoundUp_anti {n d e : Int} (hn : 0 < n) (hd : 0 < d) (h : d ≤ e) :
    divRoundUp n e ≤ divRoundUp n d := by
  have hlt : n + d - 1 < (divRoundUp n d + 1) * d := Int.lt_ediv_add_one_mul_self _ hd
  have hle : divRoundUp n d * d ≤ divRoundUp n d * e :=
    Int.mul_le_mul_of_nonneg_left h (Int.le_of_lt (divRoundUp_pos hn hd))
  apply Int.le_of_lt_add_one
  apply Int.ediv_lt_of_lt_mul (by omega)
  rw [Int.add_mul] at hlt ⊢
  omega

/-- A positive divisor is not clamped. -/
theorem quotaOf_eq {n : Int} (h : 1 ≤ n) : quotaOf n = divRoundUp queueDepth n := by
  unfold quotaOf
  rw [if_neg (by omega)]

/-- Every share is positive. -/
theorem quotaOf_pos (n : Int) : 0 < quotaOf n := by
  unfold quotaOf
  apply divRoundUp_pos (by decide)
  split <;> omega

/-- More open sessions do not raise the share of one. -/
theorem quotaOf_anti {m n : Int} (h : m ≤ n) : quotaOf n ≤ quotaOf m := by
  unfold quotaOf
  apply divRoundUp_anti (by decide)
  all_goals split <;> try split
  all_goals omega

/-- `dma_accel_admission_likely_ok`. -/
def admissionLikelyOk (st : Sys) (s : Sid) : Bool :=
  st.totalInflight < queueDepth && st.inflight s < quotaOf st.activeSessions

/-- First entry of the routing table that is not valid. -/
def freeCmdSlot (t : Fin maxInflightCmds → CmdCtx) : Option (Fin maxInflightCmds) :=
  (List.finRange maxInflightCmds).find? fun j ↦ !(t j).valid

/-- Update one call of `dma_accel_ioc_submit`. -/
def Sys.setSubmit (st : Sys) (k : Nat) (c : Submit) : Sys :=
  { st with submits := Function.update st.submits k c }

/-- `ioctl(SUBMIT)` enters the driver. -/
def ioctlSubmit (st : Sys) (s : Sid) (req : SubmitReq) : Sys :=
  { st with
    nsubmits := st.nsubmits + 1
    submits := Function.update st.submits st.nsubmits
      { Submit.none with sess := s, req := req, pc := .copyIn } }

/-- One step of `dma_accel_ioc_submit`. -/
def submitStep (st : Sys) (k : Nat) : Option Sys :=
  let c := st.submits k
  match c.pc with
  | .copyIn => some (st.setSubmit k { c with pc := .check })
  | .check =>
    match checkSubmit st.buffers c.sess c.req with
    | .ok a => some (st.setSubmit k
        { c with pc := .newId, srcDma := a.src, dstDma := a.dst, src2Dma := a.src2 })
    | .error e => some (st.setSubmit k { c with pc := .refused, ret := .err e })
  | .newId =>
    some { st with
      nextCmdId := st.nextCmdId + 1
      submits := Function.update st.submits k
        { c with pc := .readActive, cmdId := st.nextCmdId + 1 } }
  | .readActive =>
    -- the divisor is read before the lock is taken
    some (st.setSubmit k
      { c with
        pc := .admission
        active := st.activeSessions
        quota := quotaOf st.activeSessions })
  | .admission =>
    if st.totalInflight < queueDepth ∧ st.inflight c.sess < c.quota then
      match freeCmdSlot st.cmdTable with
      | some j =>
        some { st with
          cmdTable := Function.update st.cmdTable j ⟨true, c.cmdId, c.sess⟩
          admitted := st.admitted ++ [⟨c.sess, c.desc⟩]
          submits := Function.update st.submits k { c with pc := .incInflight } }
      | none => some (st.setSubmit k { c with pc := .waitTest })
    else some (st.setSubmit k { c with pc := .waitTest })
  | .waitTest =>
    if admissionLikelyOk st c.sess then some (st.setSubmit k { c with pc := .readActive })
    else some (st.setSubmit k { c with pc := .asleep })
  | .asleep => none
  | .incInflight =>
    some { st with
      inflight := Function.update st.inflight c.sess (st.inflight c.sess + 1)
      submits := Function.update st.submits k { c with pc := .incTotal } }
  | .incTotal =>
    some { st with
      totalInflight := st.totalInflight + 1
      submits := Function.update st.submits k { c with pc := .enqIdx } }
  | .enqIdx => some (st.setSubmit k { c with pc := .enqStore, idx := slotOf _ st.sqTail })
  | .enqStore =>
    some { st with
      sqBuf := Function.update st.sqBuf c.idx c.desc
      submits := Function.update st.submits k { c with pc := .enqReadTail } }
  | .enqReadTail => some (st.setSubmit k { c with pc := .enqWriteTail, tail := st.sqTail })
  | .enqWriteTail =>
    some { st with
      sqTail := c.tail + 1
      submits := Function.update st.submits k { c with pc := .enqLoadTail } }
  | .enqLoadTail => some (st.setSubmit k { c with pc := .enqDoorbell, tail := st.sqTail })
  | .enqDoorbell =>
    some { st with
      regSqTail := c.tail
      submits := Function.update st.submits k { c with pc := .copyOut } }
  | .copyOut => some (st.setSubmit k { c with pc := .returned, ret := .ok 0 })
  | .refused => none
  | .returned => none

/-- The copy from or to user space of `dma_accel_ioc_submit` faults. After the commit point
the command stays submitted. -/
def submitFault (st : Sys) (k : Nat) : Option Sys :=
  let c := st.submits k
  match c.pc with
  | .copyIn => some (st.setSubmit k { c with pc := .refused, ret := .err .EFAULT })
  | .copyOut => some (st.setSubmit k { c with pc := .returned, ret := .err .EFAULT })
  | _ => none

/-- A signal reaches the caller: a sleeper gets up to test its condition again, and a
condition that fails ends `wait_event_interruptible`. -/
def submitSignal (st : Sys) (k : Nat) : Option Sys :=
  let c := st.submits k
  match c.pc with
  | .asleep => some (st.setSubmit k { c with pc := .waitTest })
  | .waitTest =>
    if admissionLikelyOk st c.sess then none
    else some (st.setSubmit k { c with pc := .refused, ret := .err .ERESTARTSYS })
  | _ => none

/-- `wake_up_interruptible(&dev->quota_wq)` as one sleeper sees it. -/
def Submit.wake (c : Submit) : Submit :=
  if c.pc = .asleep then { c with pc := .waitTest } else c

end DmaAccel.Driver
