import DmaAccel.Base.Run
import DmaAccel.Driver.Abi
import Mathlib.Logic.Function.Basic

/-!
# A Stream step by step

Source `track-a/dma_accel_runtime.cpp`: `Stream::throttle_before_submit`, `do_submit`, `pump`,
`wait_state_blocking` and `wait` (142–329). A Stream runs in one thread: its program counter
stands where it asks the kernel for something or tests a loop condition, and a label says what
the kernel answers or which way the test goes. The three `submit` functions differ in the
request only. `FenceState` cells are numbered and shared between a Stream, its Fences and
whatever else keeps a `shared_ptr`; an `unordered_map` is a partial function.
-/

namespace DmaAccel.Runtime

open DmaAccel.Base
open DmaAccel.Driver (U32 SubmitReq Completion queueDepth)

/-- Identity of a `FenceState`. -/
abbrev Fid := Nat

/-- What `fd_` refers to: the session of an open file. -/
abbrev Fd := Nat

/-- `struct FenceState`. -/
structure FenceState where
  cmdId : Nat
  ready : Bool
  status : U32
  deriving DecidableEq, Repr

/-- The `FenceState` of a command just submitted. -/
def FenceState.fresh (cmdId : Nat) : FenceState := ⟨cmdId, false, 0⟩

/-- Every `FenceState` built so far. `issuer` is history only: the file on which the command
was submitted. -/
structure Heap where
  size : Nat
  fences : Fid → FenceState
  issuer : Fid → Fd

/-- Nothing has been built yet. -/
def Heap.empty : Heap := ⟨0, fun _ ↦ .fresh 0, fun _ ↦ 0⟩

/-- A command has been submitted on `fd`. -/
def Heap.issue (h : Heap) (fd : Fd) (cmdId : Nat) : Heap where
  size := h.size + 1
  fences := Function.update h.fences h.size (.fresh cmdId)
  issuer := Function.update h.issuer h.size fd

/-- A completion of `f` has been read. -/
def Heap.complete (h : Heap) (f : Fid) (status : U32) : Heap :=
  { h with
    fences := Function.update h.fences f { h.fences f with ready := true, status := status } }

/-- `class Stream`; `fd_ = -1` is `none`. -/
structure Stream where
  fd : Option Fd
  outstanding : Nat → Option Fid
  submissionOrder : List Fid

/-- A Stream whose constructor has opened `fd`. -/
def Stream.opened (fd : Fd) : Stream := ⟨some fd, fun _ ↦ none, []⟩

/-- Number of entries of `batch` in `pump()`. -/
abbrev batchSize : Nat := 32

/-- The loop around `poll()`, or the caller, to which `pump()` returns. -/
inductive Cont where
  | pump
  | throttle (req : SubmitReq) (oldest : Fid)
  | wait (f : Fid) (timeoutMs : Int)
  deriving DecidableEq, Repr

/-- Where the Stream is: not in a call, at the head of `throttle_before_submit`, at the
condition of a loop, or inside a system call. -/
inductive Pc where
  | idle
  | throttle (req : SubmitReq)
  | test (c : Cont)
  | poll (c : Cont)
  | read (c : Cont)
  | ioctl (req : SubmitReq)
  deriving DecidableEq, Repr

/-- A call, the outcome of a test, or the answer of the kernel. -/
inductive Label where
  | submit (req : SubmitReq)
  | pump
  | wait (f : Fid) (timeoutMs : Int)
  | pass
  | block (f : Fid)
  | test
  | expired
  | pollReady
  | pollTimeout
  | pollEintr
  | pollError
  | readBatch (batch : List Completion)
  | readZero
  | readEagain
  | readError
  | ioctlOk (cmdId : Nat)
  | ioctlError
  deriving DecidableEq, Repr

/-- A Stream with the fences and its program counter. -/
structure Machine where
  heap : Heap
  stream : Stream
  pc : Pc

namespace Machine

/-- `is_ready()`. -/
def ready (m : Machine) (f : Fid) : Bool := (m.heap.fences f).ready

/-- The command `throttle_before_submit` looks at: the front of a full `submission_order_`. -/
def oldest (m : Machine) : Option Fid :=
  if m.stream.submissionOrder.length ≥ queueDepth then m.stream.submissionOrder.head? else none

/-- `outstanding_.erase(oldest.cmd_id); submission_order_.pop_front();`. -/
def evict (m : Machine) (f : Fid) : Machine :=
  { m with
    stream :=
      { m.stream with
        outstanding := Function.update m.stream.outstanding (m.heap.fences f).cmdId none
        submissionOrder := m.stream.submissionOrder.tail } }

/-- The part of `do_submit` after the ioctl. `emplace` leaves an existing entry alone. -/
def track (m : Machine) (fd : Fd) (cmdId : Nat) : Machine :=
  { m with
    heap := m.heap.issue fd cmdId
    stream :=
      { m.stream with
        outstanding :=
          if (m.stream.outstanding cmdId).isSome then m.stream.outstanding
          else Function.update m.stream.outstanding cmdId (some m.heap.size)
        submissionOrder := m.stream.submissionOrder ++ [m.heap.size] } }

/-- The body of the loop of `pump()` over one batch. -/
def deliver (m : Machine) (c : Completion) : Machine :=
  match m.stream.outstanding c.cmdId with
  | some f =>
    { m with
      heap := m.heap.complete f c.status
      stream :=
        { m.stream with outstanding := Function.update m.stream.outstanding c.cmdId none } }
  | none => m

/-- The step function. A Stream without a file gets `EBADF` from `ioctl()` and `read()`, and
`poll()` ignores it. -/
def step (m : Machine) : Label → Option Machine
  | .submit req => if m.pc = .idle then some { m with pc := .throttle req } else none
  | .pump => if m.pc = .idle then some { m with pc := .read .pump } else none
  | .wait f timeoutMs =>
    if m.pc = .idle ∧ f < m.heap.size then some { m with pc := .test (.wait f timeoutMs) }
    else none
  | .pass =>
    match m.pc with
    | .throttle req =>
      match m.oldest with
      | none => some { m with pc := .ioctl req }
      | some f => if m.ready f then some { m.evict f with pc := .ioctl req } else none
    | _ => none
  | .block f =>
    match m.pc with
    | .throttle req =>
      if m.oldest = some f ∧ m.ready f = false then some { m with pc := .test (.throttle req f) }
      else none
    | _ => none
  | .test =>
    match m.pc with
    | .test .pump => some { m with pc := .idle }
    | .test (.throttle req f) =>
      if m.ready f then some { m.evict f with pc := .ioctl req }
      else some { m with pc := .poll (.throttle req f) }
    | .test (.wait f timeoutMs) =>
      if m.ready f then some { m with pc := .idle }
      else some { m with pc := .poll (.wait f timeoutMs) }
    | _ => none
  | .expired =>
    match m.pc with
    | .test (.wait f timeoutMs) =>
      if m.ready f = false ∧ 0 ≤ timeoutMs then some { m with pc := .idle } else none
    | _ => none
  | .pollReady =>
    match m.pc with
    | .poll c => if m.stream.fd.isSome then some { m with pc := .read c } else none
    | _ => none
  | .pollTimeout =>
    match m.pc with
    | .poll (.wait _ timeoutMs) => if 0 ≤ timeoutMs then some { m with pc := .idle } else none
    | _ => none
  | .pollEintr =>
    match m.pc with
    | .poll c => some { m with pc := .test c }
    | _ => none
  | .pollError =>
    match m.pc with
    | .poll _ => some { m with pc := .idle }
    | _ => none
  | .readBatch batch =>
    match m.pc with
    | .read c =>
      if m.stream.fd.isSome ∧ batch ≠ [] ∧ batch.length ≤ batchSize then
        some { batch.foldl deliver m with
          pc := if batch.length < batchSize then .test c else .read c }
      else none
    | _ => none
  | .readZero =>
    match m.pc with
    | .read c => if m.stream.fd.isSome then some { m with pc := .test c } else none
    | _ => none
  | .readEagain =>
    match m.pc with
    | .read c => if m.stream.fd.isSome then some { m with pc := .test c } else none
    | _ => none
  | .readError =>
    match m.pc with
    | .read _ => some { m with pc := .idle }
    | _ => none
  | .ioctlOk cmdId =>
    match m.pc, m.stream.fd with
    | .ioctl _, some fd => some { m.track fd cmdId with pc := .idle }
    | _, _ => none
  | .ioctlError =>
    match m.pc with
    | .ioctl _ => some { m with pc := .idle }
    | _ => none

end Machine

/-- The loop a Stream is in. -/
def Pc.cont : Pc → Option Cont
  | .test c | .poll c | .read c => some c
  | .idle | .throttle _ | .ioctl _ => none

namespace Machine

variable {m m' : Machine} {l : Label}

/-- What a batch leaves alone: the Stream up to `outstanding_`, and the fences up to their
becoming ready. -/
structure Delivered (m m' : Machine) : Prop where
  fd : m'.stream.fd = m.stream.fd
  order : m'.stream.submissionOrder = m.stream.submissionOrder
  pc : m'.pc = m.pc
  size : m'.heap.size = m.heap.size
  issuer : m'.heap.issuer = m.heap.issuer
  cmdId : ∀ f, (m'.heap.fences f).cmdId = (m.heap.fences f).cmdId
  ready : ∀ f, m.ready f = true → m'.ready f = true

theorem Delivered.refl (m : Machine) : Delivered m m :=
  ⟨rfl, rfl, rfl, rfl, rfl, fun _ ↦ rfl, fun _ ↦ id⟩

theorem Delivered.trans {m'' : Machine} (h : Delivered m m') (h' : Delivered m' m'') :
    Delivered m m'' where
  fd := h'.fd.trans h.fd
  order := h'.order.trans h.order
  pc := h'.pc.trans h.pc
  size := h'.size.trans h.size
  issuer := h'.issuer.trans h.issuer
  cmdId f := (h'.cmdId f).trans (h.cmdId f)
  ready f hf := h'.ready f (h.ready f hf)

/-- One completion of the batch. -/
theorem delivered_deliver (m : Machine) (c : Completion) : Delivered m (m.deliver c) := by
  unfold deliver
  split
  · next f hf =>
    refine ⟨rfl, rfl, rfl, rfl, rfl, ?_, ?_⟩
    · intro g
      by_cases hg : g = f
      · simp [Heap.complete, hg]
      · simp [Heap.complete, Function.update_of_ne hg]
    · intro g hr
      by_cases hg : g = f
      · simp [ready, Heap.complete, hg]
      · simpa [ready, Heap.complete, Function.update_of_ne hg] using hr
  · exact .refl m

/-- The whole batch. -/
theorem delivered_foldl (m : Machine) (batch : List Completion) :
    Delivered m (batch.foldl deliver m) := by
  induction batch generalizing m with
  | nil => exact .refl m
  | cons c batch ih => exact (delivered_deliver m c).trans (ih (m.deliver c))

/-- Every effect of a step, with its guards: the Stream goes somewhere, drops the oldest
command from its tables, takes in a batch, or tracks a new command. -/
inductive Move (m : Machine) : Label → Machine → Prop where
  | goto (l : Label) (pc : Pc) :
      (∀ req, pc = .ioctl req → m.stream.submissionOrder.length < queueDepth) →
      (∀ req f, pc.cont = some (.throttle req f) →
        m.pc.cont = some (.throttle req f) ∨ m.oldest = some f ∧ m.ready f = false) →
      Move m l { m with pc := pc }
  | evict (l : Label) (req : SubmitReq) (f : Fid) : m.ready f = true →
      m.pc.cont = some (.throttle req f) ∨ m.oldest = some f →
      Move m l { m.evict f with pc := .ioctl req }
  | deliver (batch : List Completion) (c : Cont) (pc : Pc) : m.pc = .read c →
      m.stream.fd.isSome = true → pc.cont = some c →
      Move m (.readBatch batch) { batch.foldl deliver m with pc := pc }
  | track (req : SubmitReq) (fd : Fd) (cmdId : Nat) : m.pc = .ioctl req →
      m.stream.fd = some fd → Move m (.ioctlOk cmdId) { m.track fd cmdId with pc := .idle }

/-- Nothing stands at the front of a `submission_order_` that is not full. -/
theorem length_lt_of_oldest (h : m.oldest = none) :
    m.stream.submissionOrder.length < queueDepth := by
  unfold oldest at h
  split at h
  · next hle =>
    rw [List.head?_eq_none_iff] at h
    rw [h] at hle
    cases hle
  · next hlt => exact Nat.lt_of_not_ge hlt

private theorem move_idle (l : Label) : Move m l { m with pc := .idle } :=
  .goto l .idle nofun nofun

private theorem move_loop {c : Cont} (hc : m.pc.cont = some c) (l : Label) {pc : Pc}
    (hpc : pc.cont = some c) : Move m l { m with pc := pc } := by
  refine .goto l pc ?_ ?_
  · rintro req rfl
    cases hpc
  · intro req f hf
    rw [hpc, ← hc] at hf
    exact .inl hf

private theorem move_submit (h : m.step .pass = some m') : Move m .pass m' := by
  simp only [step] at h
  split at h
  · next req hpc =>
    split at h
    · next ho =>
      cases h
      exact .goto _ _ (fun _ _ ↦ length_lt_of_oldest ho) nofun
    · next f ho =>
      split at h
      · next hr =>
        cases h
        exact .evict _ req f hr (.inr ho)
      · cases h
  · cases h

private theorem move_block {f : Fid} (h : m.step (.block f) = some m') :
    Move m (.block f) m' := by
  simp only [step] at h
  split at h
  · next req hpc =>
    split at h
    · next hb =>
      cases h
      refine .goto _ _ nofun ?_
      rintro req' f' ⟨⟩
      exact .inr hb
    · cases h
  · cases h

private theorem move_test (h : m.step .test = some m') : Move m .test m' := by
  simp only [step] at h
  split at h
  · cases h
    exact move_idle _
  · next req f hpc =>
    split at h
    · next hr =>
      cases h
      exact .evict _ req f hr (.inl (by rw [hpc]; rfl))
    · cases h
      exact move_loop (by rw [hpc]; rfl) _ rfl
  · next f timeoutMs hpc =>
    split at h
    · cases h
      exact move_idle _
    · cases h
      exact move_loop (by rw [hpc]; rfl) _ rfl
  · cases h

private theorem move_read {batch : List Completion} (h : m.step (.readBatch batch) = some m') :
    Move m (.readBatch batch) m' := by
  simp only [step] at h
  split at h
  · next c hpc =>
    split at h
    · next hb =>
      cases h
      refine .deliver batch c _ hpc hb.1 ?_
      split
      · rfl
      · rfl
    · cases h
  · cases h

/-- Every step is one of the listed moves. -/
theorem move_of_step (h : m.step l = some m') : Move m l m' := by
  cases l with
  | submit req =>
    obtain ⟨-, hs⟩ := Option.ite_none_right_eq_some.mp h
    cases hs
    exact .goto _ _ nofun nofun
  | pump =>
    obtain ⟨-, hs⟩ := Option.ite_none_right_eq_some.mp h
    cases hs
    refine .goto _ _ nofun ?_
    rintro req f ⟨⟩
  | wait f timeoutMs =>
    obtain ⟨-, hs⟩ := Option.ite_none_right_eq_some.mp h
    cases hs
    refine .goto _ _ nofun ?_
    rintro req f ⟨⟩
  | pass => exact move_submit h
  | block f => exact move_block h
  | test => exact move_test h
  | readBatch batch => exact move_read h
  | ioctlOk cmdId =>
    simp only [step] at h
    split at h
    · next req fd hpc hfd =>
      cases h
      exact .track req fd cmdId hpc hfd
    · cases h
  | ioctlError =>
    simp only [step] at h
    split at h
    · cases h
      exact move_idle _
    · cases h
  | expired =>
    simp only [step] at h
    split at h
    · obtain ⟨-, hs⟩ := Option.ite_none_right_eq_some.mp h
      cases hs
      exact move_idle _
    · cases h
  | pollTimeout =>
    simp only [step] at h
    split at h
    · obtain ⟨-, hs⟩ := Option.ite_none_right_eq_some.mp h
      cases hs
      exact move_idle _
    · cases h
  | pollReady =>
    simp only [step] at h
    split at h
    · next c hpc =>
      obtain ⟨-, hs⟩ := Option.ite_none_right_eq_some.mp h
      cases hs
      exact move_loop (by rw [hpc]; rfl) _ rfl
    · cases h
  | pollEintr =>
    simp only [step] at h
    split at h
    · next c hpc =>
      cases h
      exact move_loop (by rw [hpc]; rfl) _ rfl
    · cases h
  | pollError =>
    simp only [step] at h
    split at h
    · cases h
      exact move_idle _
    · cases h
  | readZero =>
    simp only [step] at h
    split at h
    · next c hpc =>
      obtain ⟨-, hs⟩ := Option.ite_none_right_eq_some.mp h
      cases hs
      exact move_loop (by rw [hpc]; rfl) _ rfl
    · cases h
  | readEagain =>
    simp only [step] at h
    split at h
    · next c hpc =>
      obtain ⟨-, hs⟩ := Option.ite_none_right_eq_some.mp h
      cases hs
      exact move_loop (by rw [hpc]; rfl) _ rfl
    · cases h
  | readError =>
    simp only [step] at h
    split at h
    · cases h
      exact move_idle _
    · cases h

/-- The front of a full `submission_order_`. -/
theorem oldest_eq_some {f : Fid} (h : m.oldest = some f) :
    queueDepth ≤ m.stream.submissionOrder.length ∧
      ∃ rest, m.stream.submissionOrder = f :: rest := by
  unfold oldest at h
  split at h
  · next hle => exact ⟨hle, List.head?_eq_some_iff.mp h⟩
  · cases h

theorem mem_of_oldest {f : Fid} (h : m.oldest = some f) : f ∈ m.stream.submissionOrder := by
  obtain ⟨-, rest, hrest⟩ := oldest_eq_some h
  rw [hrest]
  exact List.mem_cons_self

/-- `submission_order_` holds distinct commands, at most as many as the device queue; there is
room for one more where the Stream is about to submit, and a Stream that waits in `submit`
waits for the front. -/
structure OrderInv (m : Machine) : Prop where
  lt : ∀ f ∈ m.stream.submissionOrder, f < m.heap.size
  nodup : m.stream.submissionOrder.Nodup
  length : m.stream.submissionOrder.length ≤ queueDepth
  ioctl : ∀ req, m.pc = .ioctl req → m.stream.submissionOrder.length < queueDepth
  front : ∀ req f, m.pc.cont = some (.throttle req f) → m.oldest = some f

namespace OrderInv

/-- The command that is dropped is the front. -/
theorem evicted (hi : OrderInv m) {req : SubmitReq} {f : Fid}
    (h : m.pc.cont = some (.throttle req f) ∨ m.oldest = some f) :
    ∃ rest, m.stream.submissionOrder = f :: rest ∧ rest.length < queueDepth := by
  have hf : m.oldest = some f := by
    rcases h with h | h
    · exact hi.front req f h
    · exact h
  obtain ⟨-, rest, hrest⟩ := oldest_eq_some hf
  have hle := hi.length
  rw [hrest, List.length_cons] at hle
  exact ⟨rest, hrest, hle⟩

/-- Every step keeps `submission_order_` in order. -/
theorem move (hi : OrderInv m) (h : Move m l m') : OrderInv m' := by
  cases h with
  | goto _ pc hioctl hcont =>
    refine ⟨hi.lt, hi.nodup, hi.length, hioctl, ?_⟩
    intro req f hf
    rcases hcont req f hf with h | h
    · exact hi.front req f h
    · exact h.1
  | evict _ req f hr hf =>
    obtain ⟨rest, hrest, hlt⟩ := hi.evicted hf
    have hlt' := hi.lt
    have hnodup := hi.nodup
    rw [hrest, List.nodup_cons] at hnodup
    rw [hrest, List.forall_mem_cons] at hlt'
    have htail : (m.evict f).stream.submissionOrder = rest := by
      unfold evict
      rw [hrest]
      rfl
    refine ⟨?_, ?_, ?_, ?_, nofun⟩
    · change ∀ g ∈ (m.evict f).stream.submissionOrder, g < m.heap.size
      rw [htail]
      exact hlt'.2
    · change (m.evict f).stream.submissionOrder.Nodup
      rw [htail]
      exact hnodup.2
    · change (m.evict f).stream.submissionOrder.length ≤ queueDepth
      rw [htail]
      exact Nat.le_of_lt hlt
    · intro _ _
      change (m.evict f).stream.submissionOrder.length < queueDepth
      rw [htail]
      exact hlt
  | deliver batch c pc hpc hfd hcont =>
    have hd := delivered_foldl m batch
    refine ⟨?_, ?_, ?_, ?_, ?_⟩
    · change ∀ g ∈ (batch.foldl deliver m).stream.submissionOrder, _
      rw [hd.order]
      change ∀ g ∈ m.stream.submissionOrder, g < (batch.foldl deliver m).heap.size
      rw [hd.size]
      exact hi.lt
    · change (batch.foldl deliver m).stream.submissionOrder.Nodup
      rw [hd.order]
      exact hi.nodup
    · change (batch.foldl deliver m).stream.submissionOrder.length ≤ queueDepth
      rw [hd.order]
      exact hi.length
    · rintro req rfl
      cases hcont
    · intro req f hf
      have hfront := hi.front req f (by rw [hpc, ← hf, hcont]; rfl)
      unfold oldest at hfront ⊢
      change (if (batch.foldl deliver m).stream.submissionOrder.length ≥ queueDepth then _
        else _) = some f
      rw [hd.order]
      exact hfront
  | track req fd cmdId hpc hfd =>
    have hlt := hi.ioctl req hpc
    refine ⟨?_, ?_, ?_, nofun, nofun⟩
    · intro g hg
      rcases List.mem_append.mp hg with hg | hg
      · exact Nat.lt_succ_of_lt (hi.lt g hg)
      · rw [List.mem_singleton.mp hg]
        exact Nat.lt_succ_self _
    · change (m.stream.submissionOrder ++ [m.heap.size]).Nodup
      rw [List.nodup_append]
      refine ⟨hi.nodup, List.nodup_singleton _, ?_⟩
      rintro g hg _ hx rfl
      rw [List.mem_singleton] at hx
      exact Nat.ne_of_lt (hi.lt g hg) hx
    · change (m.stream.submissionOrder ++ [m.heap.size]).length ≤ queueDepth
      rw [List.length_append]
      exact hlt

/-- A Stream just opened. -/
theorem opened (fd : Fd) (heap : Heap) : OrderInv ⟨heap, .opened fd, .idle⟩ :=
  ⟨nofun, List.nodup_nil, Nat.zero_le _, nofun, nofun⟩

end OrderInv

/-- `outstanding_` holds fences that are not ready, under their ids, and ids are distinct. -/
structure OutInv (m : Machine) : Prop where
  inj : ∀ f < m.heap.size, ∀ g < m.heap.size,
    (m.heap.fences f).cmdId = (m.heap.fences g).cmdId → f = g
  out : ∀ id f, m.stream.outstanding id = some f →
    f < m.heap.size ∧ (m.heap.fences f).cmdId = id ∧ m.ready f = false

namespace OutInv

/-- It does not matter where the Stream is. -/
theorem goto (hi : OutInv m) (pc : Pc) : OutInv { m with pc := pc } := ⟨hi.inj, hi.out⟩

/-- A fence that is ready is out of `outstanding_`. -/
theorem erased (hi : OutInv m) {f : Fid} (hf : f < m.heap.size) (hr : m.ready f = true) :
    m.stream.outstanding (m.heap.fences f).cmdId = none := by
  by_contra hne
  obtain ⟨g, hg⟩ := Option.ne_none_iff_exists'.mp hne
  obtain ⟨hlt, hid, hgr⟩ := hi.out _ g hg
  rw [hi.inj g hlt f hf hid, hr] at hgr
  cases hgr

/-- A completion takes its fence out of `outstanding_`. -/
theorem deliver (hi : OutInv m) (c : Completion) : OutInv (m.deliver c) := by
  cases ho : m.stream.outstanding c.cmdId with
  | none =>
    have he : m.deliver c = m := by simp [Machine.deliver, ho]
    rw [he]
    exact hi
  | some f =>
    obtain ⟨hf, hid, -⟩ := hi.out c.cmdId f ho
    have hd := delivered_deliver m c
    refine ⟨?_, ?_⟩
    · rw [hd.size]
      intro g hg g' hg'
      rw [hd.cmdId, hd.cmdId]
      exact hi.inj g hg g' hg'
    · intro id g hg
      have hout : (m.deliver c).stream.outstanding =
          Function.update m.stream.outstanding c.cmdId none := by
        simp [Machine.deliver, Heap.complete, ho]
      rw [hout] at hg
      have hne : id ≠ c.cmdId := by
        rintro rfl
        simp at hg
      rw [Function.update_of_ne hne] at hg
      obtain ⟨hlt, hgid, hgr⟩ := hi.out id g hg
      have hgf : g ≠ f := by
        rintro rfl
        exact hne (hgid.symm.trans hid)
      have hother : (m.deliver c).heap.fences g = m.heap.fences g := by
        simp [Machine.deliver, Heap.complete, ho, Function.update_of_ne hgf]
      unfold Machine.ready
      rw [hd.size, hother]
      exact ⟨hlt, hgid, hgr⟩

/-- So does a whole batch. -/
theorem foldl (hi : OutInv m) (batch : List Completion) :
    OutInv (batch.foldl Machine.deliver m) := by
  induction batch generalizing m with
  | nil => exact hi
  | cons c batch ih => exact ih (hi.deliver c)

/-- A command is dropped. -/
theorem evict (hi : OutInv m) (f : Fid) : OutInv (m.evict f) where
  inj := hi.inj
  out id g hg := by
    change Function.update m.stream.outstanding (m.heap.fences f).cmdId none id = some g at hg
    by_cases he : id = (m.heap.fences f).cmdId
    · rw [he, Function.update_self] at hg
      cases hg
    · rw [Function.update_of_ne he] at hg
      exact hi.out id g hg

/-- A command with a new id is tracked. -/
theorem track (hi : OutInv m) (fd : Fd) {id : Nat}
    (hnew : ∀ f < m.heap.size, (m.heap.fences f).cmdId ≠ id) :
    OutInv (m.track fd id) ∧ (m.track fd id).stream.outstanding =
      Function.update m.stream.outstanding id (some m.heap.size) := by
  have hnone : m.stream.outstanding id = none := by
    by_contra hne
    obtain ⟨f, hf⟩ := Option.ne_none_iff_exists'.mp hne
    obtain ⟨hlt, hid, -⟩ := hi.out id f hf
    exact hnew f hlt hid
  have hself : (m.track fd id).heap.fences m.heap.size = .fresh id := by
    simp [Machine.track, Heap.issue]
  have hother (f : Fid) (hf : f < m.heap.size) :
      (m.track fd id).heap.fences f = m.heap.fences f := by
    simp [Machine.track, Heap.issue, Function.update_of_ne (Nat.ne_of_lt hf)]
  have hout : (m.track fd id).stream.outstanding =
      Function.update m.stream.outstanding id (some m.heap.size) := by
    simp [Machine.track, Heap.issue, hnone]
  have hcases (f : Fid) (hf : f < (m.track fd id).heap.size) :
      f < m.heap.size ∨ f = m.heap.size := Nat.lt_succ_iff_lt_or_eq.mp hf
  refine ⟨⟨?_, ?_⟩, hout⟩
  · intro f hf g hg he
    rcases hcases f hf with hf | rfl <;> rcases hcases g hg with hg | rfl
    · rw [hother f hf, hother g hg] at he
      exact hi.inj f hf g hg he
    · rw [hother f hf, hself] at he
      exact (hnew f hf he).elim
    · rw [hother g hg, hself] at he
      exact (hnew g hg he.symm).elim
    · rfl
  · intro id' f hf
    rw [hout] at hf
    by_cases he : id' = id
    · rw [he, Function.update_self] at hf
      cases hf
      refine ⟨Nat.lt_succ_self _, ?_, ?_⟩
      · rw [hself, he]
        rfl
      · unfold Machine.ready
        rw [hself]
        rfl
    · rw [Function.update_of_ne he] at hf
      obtain ⟨hlt, hid, hr⟩ := hi.out id' f hf
      unfold Machine.ready
      rw [hother f hlt]
      exact ⟨Nat.lt_succ_of_lt hlt, hid, hr⟩

/-- Every step keeps `outstanding_` in order, where the kernel gives new ids only. -/
theorem move (hi : OutInv m) (h : Move m l m')
    (hnew : ∀ id, l = .ioctlOk id → ∀ f < m.heap.size, (m.heap.fences f).cmdId ≠ id) :
    OutInv m' := by
  cases h with
  | goto _ pc _ _ => exact hi.goto pc
  | evict _ req f _ _ => exact (hi.evict f).goto _
  | deliver batch c pc _ _ _ => exact (hi.foldl batch).goto pc
  | track req fd cmdId _ _ => exact (hi.track fd (hnew cmdId rfl)).1.goto _

end OutInv

end Machine

end DmaAccel.Runtime
