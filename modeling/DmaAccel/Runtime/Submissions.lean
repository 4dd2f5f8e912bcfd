import DmaAccel.Runtime.Pump

/-!
# A Stream submits in program order

Source `track-a/dma_accel_runtime.cpp`: `throttle_before_submit` and `do_submit` (142–218), on
top of `dma_accel_ioc_submit` (1536–1708). The driver admits the commands of a session in the
order in which the `submit` functions of its Stream return Fences, each once, under increasing
ids; a call that throws leaves nothing behind.
-/

namespace DmaAccel.Runtime

open DmaAccel.Base
open DmaAccel.Driver (Sys Sid U32 SubmitReq Completion Cmd Ret)

/-- What the descriptor of a command has of its request, and its id. -/
structure Issue where
  cmdId : Nat
  opcode : U32
  len : U32
  scalar : U32
  deriving DecidableEq, Repr

/-- A request that was given an id. -/
def Issue.ofReq (req : SubmitReq) (cmdId : Nat) : Issue := ⟨cmdId, req.opcode, req.len, req.scalar⟩

/-- A descriptor. -/
def Issue.ofCmd (d : Cmd) : Issue := ⟨d.cmdId, d.opcode, d.len, d.scalar⟩

/-- What is observed of a step: a `submit` function returns a Fence. -/
def issues (w : Host) : Host.Act → List Issue
  | .code (.ioctlOk cmdId) =>
    match w.mach.pc with
    | .ioctl req => [.ofReq req cmdId]
    | _ => []
  | _ => []

namespace Host

/-- Commands that the driver has admitted for the session, in order. -/
def admitted (w : Host) : List Issue :=
  (w.sys.admitted.filter (·.sess = w.sess)).map (Issue.ofCmd ·.cmd)

/-- Ids of the fences, in the order in which they were made. -/
def fenceIds (w : Host) : List Nat :=
  (List.range w.mach.heap.size).map fun f ↦ (w.mach.heap.fences f).cmdId

/-- The command that the Stream is submitting, once the driver has admitted it. -/
def current (w : Host) : List Issue :=
  match w.mach.pc, w.call with
  | .ioctl req, some k =>
    if (w.sys.submits k).pc.committed then [.ofReq req (w.sys.submits k).cmdId] else []
  | _, _ => []

variable {w : Host} {k : Nat}

/-- The command, if there is one, is that of the Stream's own call. -/
theorem current_cases (w : Host) : w.current = [] ∨ ∃ k req, w.Submitting k ∧
    (w.sys.submits k).pc.committed = true ∧
      w.current = [.ofReq req (w.sys.submits k).cmdId] := by
  unfold current
  split
  · next req k hpc hk =>
    split
    · next hc => exact .inr ⟨k, req, ⟨hk, req, hpc⟩, hc, rfl⟩
    · exact .inl rfl
  · exact .inl rfl

theorem current_of_call (h : w.call = none) : w.current = [] := by
  unfold current
  rw [h]
  split
  · next hc => cases hc
  · rfl

theorem current_of_read {c : Cont} (h : w.mach.pc = .read c) : w.current = [] := by
  unfold current
  rw [h]

theorem current_of_submitting {req : SubmitReq} (hk : w.call = some k)
    (hpc : w.mach.pc = .ioctl req) :
    w.current = if (w.sys.submits k).pc.committed then [.ofReq req (w.sys.submits k).cmdId]
      else [] := by
  unfold current
  rw [hk, hpc]

/-- Nothing is admitted of a call that has not committed. -/
theorem current_eq_nil (h : ∀ k, w.Submitting k → (w.sys.submits k).pc.committed = false) :
    w.current = [] := by
  unfold current
  split
  · next req k hpc hk =>
    rw [if_neg]
    rw [h k ⟨hk, req, hpc⟩]
    exact Bool.false_ne_true
  · rfl

/-- It depends on the driver through the Stream's own call only. -/
theorem current_congr {st' : Sys} (h : ∀ k, w.Submitting k →
    (st'.submits k).pc.committed = (w.sys.submits k).pc.committed ∧
      (st'.submits k).cmdId = (w.sys.submits k).cmdId) :
    ({ w with sys := st' } : Host).current = w.current := by
  by_cases hsub : ∃ k, w.Submitting k
  · obtain ⟨k, hk, req, hpc⟩ := hsub
    obtain ⟨hc, hid⟩ := h k ⟨hk, req, hpc⟩
    rw [current_of_submitting hk hpc, current_of_submitting (w := { w with sys := st' }) hk hpc,
      hc, hid]
  · have hn (v : Host) (hv : ∀ k, v.Submitting k → w.Submitting k) : v.current = [] := by
      refine current_eq_nil fun k hk ↦ ?_
      exact (hsub ⟨k, hv k hk⟩).elim
    rw [hn w fun _ ↦ id, hn { w with sys := st' } fun _ ↦ id]

end Host

/-- The Stream, its session and the log of what its `submit` functions returned. -/
structure IssueInv (w : Host) (log : List Issue) : Prop where
  inv : HostInv w
  req : ∀ k req, w.call = some k → w.mach.pc = .ioctl req → (w.sys.submits k).req = req
  admitted : w.admitted = log ++ w.current
  fences : log.map (·.cmdId) = w.fenceIds
  increasing : log.Pairwise fun x y ↦ x.cmdId < y.cmdId
  above : ∀ k, w.Submitting k → (w.sys.submits k).pc.numbered = true →
    ∀ x ∈ log, x.cmdId < (w.sys.submits k).cmdId

namespace IssueInv

variable {w w' : Host} {log : List Issue} {a : Driver.Act} {st' : Sys} {k : Nat}

/-- Ids that were given out are not above the counter. -/
private theorem le_nextCmdId (hi : IssueInv w log) {x : Issue} (hx : x ∈ log) :
    x.cmdId ≤ w.sys.nextCmdId := by
  have hmem : x ∈ w.admitted := by
    rw [hi.admitted]
    exact List.mem_append_left _ hx
  obtain ⟨y, hy, rfl⟩ := List.mem_map.mp hmem
  obtain ⟨k, -, rfl⟩ := ((Driver.admInv hi.inv.sys).mem_iff y).mp (List.mem_filter.mp hy).1
  exact (Driver.callInv hi.inv.sys).bound k

/-- A call that has committed has drawn its id. -/
private theorem numbered_of_committed {pc : Driver.SubmitPc} (h : pc.committed = true) :
    pc.numbered = true := by
  cases pc <;> first | rfl | cases h

/-- What a step of the driver does to the call in which the Stream is, and to the history of
its session. -/
private inductive OwnMove (w : Host) (st' : Sys) : Prop where
  | keep : ({ w with sys := st' } : Host).admitted = w.admitted →
      (∀ k, w.Submitting k → Driver.Keeps (w.sys.submits k) (st'.submits k) ∧
        (st'.submits k).pc.committed = (w.sys.submits k).pc.committed) → OwnMove w st'
  | newId (k : Nat) : w.Submitting k → (w.sys.submits k).pc = .newId →
      ({ w with sys := st' } : Host).admitted = w.admitted →
      st'.submits k =
        { w.sys.submits k with pc := .readActive, cmdId := w.sys.nextCmdId + 1 } → OwnMove w st'
  | register (k : Nat) : w.Submitting k → (w.sys.submits k).pc = .admission →
      ({ w with sys := st' } : Host).admitted =
        w.admitted ++ [.ofReq (w.sys.submits k).req (w.sys.submits k).cmdId] →
      st'.submits k = { w.sys.submits k with pc := .incInflight } → OwnMove w st'

/-- A call in which the Stream is not leaves that call alone. -/
private theorem ownMove_other {l : Nat} {x : Driver.Submit} (hl : ¬w.Submitting l)
    (hs : st'.submits = Function.update w.sys.submits l x)
    (ha : ({ w with sys := st' } : Host).admitted = w.admitted) : OwnMove w st' := by
  refine .keep ha fun k hk ↦ ?_
  have hne : k ≠ l := by
    rintro rfl
    exact hl hk
  rw [hs, Function.update_of_ne hne]
  exact ⟨.refl _, rfl⟩

private theorem ownMove (hi : HostInv w) (h : Driver.step w.sys a = some st')
    (ha : HostInv.Admissible w a) : OwnMove w st' := by
  have ht := Driver.trans_of_step h
  have hsame (he : st'.admitted = w.sys.admitted) :
      ({ w with sys := st' } : Host).admitted = w.admitted := by
    unfold Host.admitted
    rw [he]
  cases ht.callsMove with
  | keep hkeep hc hadm _ _ => exact .keep (hsame hadm) fun k _ ↦ ⟨hkeep k, hc k⟩
  | enter r req _ _ hs hadm _ _ =>
    refine ownMove_other (fun hsub ↦ ?_) hs (hsame hadm)
    exact Nat.lt_irrefl _ (hi.submitting _ hsub).1
  | newId l hl hs hadm _ _ =>
    by_cases hsub : w.Submitting l
    · refine .newId l hsub hl (hsame hadm) ?_
      rw [hs, Function.update_self]
    · exact ownMove_other hsub hs (hsame hadm)
  | register l hl hs hadm _ _ =>
    have hact : a = .submitStep l := by
      have hk : (st'.submits l).pc.committed = true := by
        rw [hs, Function.update_self]
        rfl
      rcases ht.committed_cases hk with ⟨hold, -⟩ | ⟨he, -⟩
      · rw [hl] at hold
        cases hold
      · exact he
    by_cases hsess : (w.sys.submits l).sess = w.sess
    · refine .register l (ha.submits l hact hsess) hl ?_ ?_
      · unfold Host.admitted
        rw [hadm, List.filter_append, List.map_append, List.filter_cons_of_pos (by simp [hsess])]
        rfl
      · rw [hs, Function.update_self]
    · refine ownMove_other (fun hsub ↦ hsess (hi.submitting l hsub).2) hs ?_
      unfold Host.admitted
      rw [hadm, List.filter_append, List.filter_cons_of_neg (by simp [hsess]), List.filter_nil,
        List.append_nil]

/-- The driver moves. -/
private theorem sys_step (hi : IssueInv w log) (h : Driver.step w.sys a = some st')
    (ha : HostInv.Admissible w a) : IssueInv { w with sys := st' } log := by
  have hinv := hi.inv.sys_step h ha
  have hone {k l : Nat} (hk : w.Submitting k) (hl : w.Submitting l) : k = l :=
    Option.some.inj (hk.1.symm.trans hl.1)
  have hreq {k : Nat} {req : SubmitReq} (hk : w.call = some k) (hpc : w.mach.pc = .ioctl req)
      {x : Driver.Submit} (he : st'.submits k = x) (hx : x.req = (w.sys.submits k).req) :
      (st'.submits k).req = req := by
    rw [he, hx]
    exact hi.req k req hk hpc
  cases ownMove hi.inv h ha with
  | keep hadm hkeep =>
    refine ⟨hinv, ?_, ?_, hi.fences, hi.increasing, ?_⟩
    · intro k req hk hpc
      exact (hkeep k ⟨hk, req, hpc⟩).1.req.trans (hi.req k req hk hpc)
    · rw [hadm, hi.admitted]
      rw [Host.current_congr fun k hsub ↦ ⟨(hkeep k hsub).2, (hkeep k hsub).1.cmdId⟩]
    · intro k hsub hn
      obtain ⟨hkeeps, -⟩ := hkeep k hsub
      change ∀ x ∈ log, x.cmdId < (st'.submits k).cmdId
      rw [hkeeps.cmdId]
      exact hi.above k hsub (hkeeps.numbered hn)
  | newId k hsub hpc hadm hcell =>
    obtain ⟨hk, req, hreqpc⟩ := id hsub
    refine ⟨hinv, ?_, ?_, hi.fences, hi.increasing, ?_⟩
    · intro l req' hl hpc'
      obtain rfl := hone hsub ⟨hl, req', hpc'⟩
      exact hreq hk hpc' hcell rfl
    · rw [hadm, hi.admitted, Host.current_of_submitting hk hreqpc,
        Host.current_of_submitting (w := { w with sys := st' }) hk hreqpc, hcell, hpc]
      rfl
    · intro l hl _ x hx
      obtain rfl := hone hsub hl
      change x.cmdId < (st'.submits k).cmdId
      rw [hcell]
      exact Nat.lt_succ_of_le (hi.le_nextCmdId hx)
  | register k hsub hpc hadm hcell =>
    obtain ⟨hk, req, hreqpc⟩ := id hsub
    refine ⟨hinv, ?_, ?_, hi.fences, hi.increasing, ?_⟩
    · intro l req' hl hpc'
      obtain rfl := hone hsub ⟨hl, req', hpc'⟩
      exact hreq hk hpc' hcell rfl
    · rw [hadm, hi.admitted, Host.current_of_submitting hk hreqpc,
        Host.current_of_submitting (w := { w with sys := st' }) hk hreqpc, hcell, hpc,
        hi.req k req hk hreqpc]
      simp [Driver.SubmitPc.committed]
    · intro l hl _ x hx
      obtain rfl := hone hsub hl
      change x.cmdId < (st'.submits k).cmdId
      rw [hcell]
      exact hi.above k hsub (by rw [hpc]; rfl) x hx

/-- The Stream enters a call. -/
private theorem enter (hi : IssueInv w log) (h : w.step .enter = some w') : IssueInv w' log := by
  have hinv := hi.inv.step h fun _ he ↦ by cases he
  simp only [Host.step] at h
  split at h
  · next req hpc hn =>
    obtain ⟨st', hst, rfl⟩ := Option.map_eq_some_iff.mp h
    obtain ⟨-, hs⟩ := Option.ite_none_right_eq_some.mp hst
    cases hs
    have hcell : (Driver.ioctlSubmit w.sys w.sess req).submits w.sys.nsubmits =
        { Driver.Submit.none with sess := w.sess, req := req, pc := .copyIn } :=
      Function.update_self ..
    refine ⟨hinv, ?_, ?_, hi.fences, hi.increasing, ?_⟩
    · rintro k req' ⟨⟩ hpc'
      cases hpc.symm.trans hpc'
      exact congrArg Driver.Submit.req hcell
    · have hadm := hi.admitted
      rw [Host.current_of_call hn] at hadm
      have hcur : Host.current { w with
          sys := Driver.ioctlSubmit w.sys w.sess req, call := some w.sys.nsubmits } = [] := by
        refine Host.current_eq_nil ?_
        rintro k ⟨⟨⟩, -⟩
        exact congrArg (·.pc.committed) hcell
      rw [hcur]
      exact hadm
    · rintro k ⟨⟨⟩, -⟩ hnum
      change ((Driver.ioctlSubmit w.sys w.sess req).submits w.sys.nsubmits).pc.numbered = true
        at hnum
      rw [hcell] at hnum
      cases hnum
  · next c hpc hn =>
    obtain ⟨st', hst, rfl⟩ := Option.map_eq_some_iff.mp h
    obtain ⟨-, hs⟩ := Option.ite_none_right_eq_some.mp hst
    cases hs
    refine ⟨hinv, ?_, ?_, hi.fences, hi.increasing, ?_⟩
    · intro k req' _ hpc'
      cases hpc.symm.trans hpc'
    · have hadm := hi.admitted
      rw [Host.current_of_call hn] at hadm
      have hcur : Host.current { w with
          sys := Driver.chrRead w.sys w.sess (batchSize * Driver.completionBytes)
          call := some w.sys.nreads
          batch := [] } = [] := Host.current_of_read hpc
      rw [hcur]
      exact hadm
    · rintro k ⟨-, req, hpc'⟩
      cases hpc.symm.trans hpc'
  · cases h

/-- A Stream that leaves the driver without a Fence has had nothing admitted. -/
private theorem leave (hi : IssueInv w log) {m : Machine}
    (hinv : HostInv { w with mach := m, call := none })
    (hcur : ∀ k, w.Submitting k → (w.sys.submits k).pc.committed = false)
    (hsize : m.heap.size = w.mach.heap.size)
    (hid : ∀ f, (m.heap.fences f).cmdId = (w.mach.heap.fences f).cmdId) :
    IssueInv { w with mach := m, call := none } log where
  inv := hinv
  req _ _ hk := by cases hk
  admitted := by
    have hadm := hi.admitted
    rw [Host.current_eq_nil hcur] at hadm
    rw [Host.current_of_call rfl]
    exact hadm
  fences := by
    rw [hi.fences]
    unfold Host.fenceIds
    rw [hsize]
    exact List.map_congr_left fun f _ ↦ (hid f).symm
  increasing := hi.increasing
  above k hk := (Host.not_submitting rfl k hk).elim

/-- A Stream leaves the driver with the Fence of the command that was admitted. -/
private theorem track (hi : IssueInv w log) {req : SubmitReq} {fd : Fd}
    (hinv : HostInv { w with
      mach := { w.mach.track fd (w.sys.submits k).cmdId with pc := .idle }, call := none })
    (hcall : w.call = some k) (hpc : w.mach.pc = .ioctl req)
    (hk : (w.sys.submits k).pc.committed = true) :
    IssueInv { w with
        mach := { w.mach.track fd (w.sys.submits k).cmdId with pc := .idle }, call := none }
      (log ++ [.ofReq req (w.sys.submits k).cmdId]) where
  inv := hinv
  req _ _ hk := by cases hk
  admitted := by
    have hadm := hi.admitted
    rw [Host.current_of_submitting hcall hpc, if_pos hk] at hadm
    rw [Host.current_of_call rfl, List.append_nil]
    exact hadm
  fences := by
    rw [List.map_append, hi.fences]
    unfold Host.fenceIds
    change _ = (List.range (w.mach.heap.size + 1)).map _
    rw [List.range_succ, List.map_append]
    congr 1
    · refine List.map_congr_left fun f hf ↦ ?_
      rw [List.mem_range] at hf
      simp [Machine.track, Heap.issue, Function.update_of_ne (Nat.ne_of_lt hf)]
    · simp [Machine.track, Heap.issue, FenceState.fresh, Issue.ofReq]
  increasing := by
    rw [List.pairwise_append]
    refine ⟨hi.increasing, List.pairwise_singleton _ _, ?_⟩
    intro x hx y hy
    rw [List.mem_singleton.mp hy]
    exact hi.above k ⟨hcall, req, hpc⟩ (numbered_of_committed hk) x hx
  above k hk := (Host.not_submitting rfl k hk).elim

/-- The Stream takes a step in its own code. -/
private theorem code (hi : IssueInv w log) {l : Label} (hl : w.answers l = true) {m : Machine}
    (hinv : HostInv { w with mach := m, call := none }) (h : w.mach.step l = some m) :
    IssueInv { w with mach := m, call := none } (log ++ issues w (.code l)) := by
  have hcur (hne : ∀ id, l ≠ .ioctlOk id) (k : Nat) (hk : w.Submitting k) :
      (w.sys.submits k).pc.committed = false := by
    rcases hi.inv.submitting_label hk h hl with hnot | rfl
    · exact hnot
    · exact (hne _ rfl).elim
  have hquiet (hne : ∀ id, l ≠ .ioctlOk id) (hsize : m.heap.size = w.mach.heap.size)
      (hid : ∀ f, (m.heap.fences f).cmdId = (w.mach.heap.fences f).cmdId) :
      IssueInv { w with mach := m, call := none } (log ++ issues w (.code l)) := by
    have hnil : issues w (.code l) = [] := by
      unfold issues
      split
      · next id he => cases he; exact (hne id rfl).elim
      · rfl
    rw [hnil, List.append_nil]
    exact hi.leave hinv (hcur hne) hsize hid
  by_cases hok : ∃ id, l = .ioctlOk id
  · obtain ⟨id, rfl⟩ := hok
    simp only [Machine.step] at h
    split at h
    · next req fd hpc hfd =>
      cases h
      simp only [Host.answers] at hl
      split at hl
      · next k hcall =>
        simp only [Bool.and_eq_true, decide_eq_true_eq] at hl
        have hk := hi.inv.committed_of_ok ⟨hcall, req, hpc⟩ hl.1
        obtain rfl := hl.2
        have hone : issues w (.code (.ioctlOk (w.sys.submits k).cmdId)) =
            [.ofReq req (w.sys.submits k).cmdId] := by
          simp only [issues, hpc]
        rw [hone]
        exact hi.track hinv hcall hpc hk
      · cases hl
    · cases h
  · have hne (id : Nat) : l ≠ .ioctlOk id := fun he ↦ hok ⟨id, he⟩
    cases Machine.move_of_step h with
    | goto _ pc _ _ => exact hquiet hne rfl fun _ ↦ rfl
    | evict _ req f _ _ => exact hquiet hne rfl fun _ ↦ rfl
    | deliver batch c pc _ _ _ =>
      have hd := Machine.delivered_foldl w.mach batch
      exact hquiet hne hd.size hd.cmdId
    | track req fd cmdId _ _ => exact (hne cmdId rfl).elim

/-- Every step keeps Stream, session and log in agreement. -/
theorem step (hi : IssueInv w log) {b : Host.Act} (h : w.step b = some w')
    (hok : w.CopiesOut b) : IssueInv w' (log ++ issues w b) := by
  have hinv := hi.inv.step h hok
  cases b with
  | other a =>
    obtain ⟨hf, hs⟩ := Option.ite_none_right_eq_some.mp h
    obtain ⟨st', hst, rfl⟩ := Option.map_eq_some_iff.mp hs
    rw [show issues w (.other a) = [] from rfl, List.append_nil]
    exact hi.sys_step hst (HostInv.admissible_foreign hf)
  | enter =>
    rw [show issues w .enter = [] from rfl, List.append_nil]
    exact hi.enter h
  | kernel a =>
    rw [show issues w (.kernel a) = [] from rfl, List.append_nil]
    simp only [Host.step] at h
    split at h
    · next k hk =>
      obtain ⟨hown, hs⟩ := Option.ite_none_right_eq_some.mp h
      obtain ⟨st', hst, rfl⟩ := Option.map_eq_some_iff.mp hs
      have hst' := hi.sys_step hst (HostInv.admissible_own hk hown fun he ↦ hok k (he ▸ rfl))
      exact ⟨hinv, hst'.req, hst'.admitted, hst'.fences, hst'.increasing, hst'.above⟩
    · cases h
  | code l =>
    obtain ⟨hl, hs⟩ := Option.ite_none_right_eq_some.mp h
    obtain ⟨m, hm, rfl⟩ := Option.map_eq_some_iff.mp hs
    exact hi.code hl hinv hm
  | restart =>
    obtain ⟨hr, hs⟩ := Option.ite_none_right_eq_some.mp h
    cases hs
    rw [show issues w .restart = [] from rfl, List.append_nil]
    refine hi.leave hinv (fun k hk ↦ hi.inv.refused_of_error hk hr ?_) rfl fun _ ↦ rfl
    intro he
    cases he

/-- A Stream just opened. -/
theorem init {st : Sys} (h : Driver.Reachable st) : IssueInv (.opened st) [] := by
  refine ⟨.init h, fun _ _ hk ↦ (by cases hk), ?_, rfl, List.Pairwise.nil, ?_⟩
  · rw [Host.current_of_call rfl]
    unfold Host.admitted
    rw [List.append_nil, List.map_eq_nil_iff, List.filter_eq_nil_iff]
    intro x hx
    obtain ⟨k, hk, rfl⟩ := ((Driver.admInv h).mem_iff x).mp hx
    have hlt := Driver.sess_lt h k ((Driver.callInv h).lt_of_committed hk)
    exact fun he ↦ Nat.ne_of_lt hlt (of_decide_eq_true he)
  · rintro k ⟨hk, -⟩
    cases hk

end IssueInv

/-- Stream, session and some log are in agreement along every run. -/
theorem issueInv {w : Host} (h : w.Reachable) : ∃ log, IssueInv w log := by
  obtain ⟨st, hst, hr⟩ := h
  refine hr.invariant (I := fun w ↦ ∃ log, IssueInv w log) ⟨[], .init hst⟩ ?_
  rintro w b w' - ⟨log, hi⟩ hok hs
  exact ⟨_, hi.step hs hok⟩

/-- In every run, the commands that the driver has admitted for the session are those for which
a `submit` function returned a Fence, in the order of these calls and each once, followed by at
most the one that is being submitted; and their ids increase. -/
theorem submissions_in_order {st : Sys} {w : Host} {log : List Issue} (hst : Driver.Reachable st)
    (h : Reach (logStep issues Host.step) (fun x b ↦ x.1.CopiesOut b) (.opened st, []) (w, log)) :
    w.admitted = log ++ w.current ∧ log.map (·.cmdId) = w.fenceIds ∧ w.current.length ≤ 1 ∧
      w.admitted.Pairwise fun x y ↦ x.cmdId < y.cmdId := by
  have hi : IssueInv w log := by
    refine h.invariant (I := fun x ↦ IssueInv x.1 x.2) (.init hst) ?_
    rintro x b x' - hi hok hs
    obtain ⟨hs, hlog⟩ := logStep_eq_some hs
    rw [hlog]
    exact hi.step hs hok
  refine ⟨hi.admitted, hi.fences, ?_, ?_⟩
  · rcases w.current_cases with hn | ⟨k, req, -, -, hone⟩
    · rw [hn]
      exact Nat.zero_le _
    · rw [hone]
      exact Nat.le_refl _
  · rw [hi.admitted, List.pairwise_append]
    refine ⟨hi.increasing, ?_, ?_⟩
    · rcases w.current_cases with hn | ⟨k, req, -, -, hone⟩
      · rw [hn]
        exact List.Pairwise.nil
      · rw [hone]
        exact List.pairwise_singleton _ _
    · intro x hx y hy
      rcases w.current_cases with hn | ⟨k, req, hsub, hc, hone⟩
      · rw [hn] at hy
        cases hy
      · rw [hone, List.mem_singleton] at hy
        rw [hy]
        exact hi.above k hsub (IssueInv.numbered_of_committed hc) x hx

/-- A Stream has submitted two commands, and the driver has admitted a third one. -/
theorem submissions_in_order_three : ∃ (w : Host) (log : List Issue),
    w.admitted.map (·.cmdId) = [2, 3, 4] ∧ w.fenceIds = [2, 3] ∧
      w.admitted = log ++ w.current ∧ log.map (·.cmdId) = w.fenceIds := by
  have hrun : (runChecked (logStep issues Host.step)
      (fun _ b ↦ match b with
        | .kernel a => decide (a ∈ [.submitStep 0, .submitStep 1, .submitStep 2])
        | _ => true)
      (.opened Sys.init, [])
      ((Driver.allocScript 0 0).map .other ++ submitCall 0 ++ submitCall 1 ++
        (submitCall 2).take 9)).any
      (fun x ↦ decide (x.1.admitted.map (·.cmdId) = [2, 3, 4] ∧ x.1.fenceIds = [2, 3])) =
        true := by
    decide +kernel
  have hok : ∀ (x : Host × List Issue) (b : Host.Act),
      (match b with
        | .kernel a => decide (a ∈ [.submitStep 0, .submitStep 1, .submitStep 2])
        | _ => true) = true → x.1.CopiesOut b := by
    rintro x b hb k rfl
    simp at hb
  obtain ⟨⟨w, log⟩, hr, hp⟩ := Reach.exists_of_runChecked hok hrun
  obtain ⟨hids, hfences⟩ := of_decide_eq_true hp
  obtain ⟨hadm, hlog, -⟩ := submissions_in_order .start hr
  exact ⟨w, log, hids, hfences, hadm, hlog⟩

end DmaAccel.Runtime
