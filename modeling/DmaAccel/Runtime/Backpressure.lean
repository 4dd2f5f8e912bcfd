import DmaAccel.Base.Bisim
import DmaAccel.Runtime.Machine
import Mathlib.Data.Finset.Lattice.Fold

/-!
# What `submission_order_` decides

Source `track-a/dma_accel_runtime.cpp`: `Stream::throttle_before_submit` and `do_submit`
(142–169). Two Streams with the same file and the same `outstanding_` differ at most in what
the throttle does. A command that is ready never holds a submission up, so that the Streams
behave the same where everything in their `submission_order_` is ready; a command that is not
ready reaches the front of a full `submission_order_` after fifteen submissions at the latest.
-/

namespace DmaAccel.Runtime

open DmaAccel.Base
open DmaAccel.Driver (U32 SubmitReq Completion queueDepth)

/-- The kernel gives every command an id of its own. -/
def Heap.newId (h : Heap) (cmdId : Nat) : Bool :=
  (List.range h.size).all fun f ↦ (h.fences f).cmdId ≠ cmdId

/-- What may happen next: a step of the Stream, or another Stream of the process submits a
command or reads a completion of its own. -/
inductive Op where
  | code (l : Label)
  | issued (fd : Fd) (cmdId : Nat)
  | completed (f : Fid) (status : U32)
  deriving DecidableEq, Repr

/-- Labels of steps that neither look at `submission_order_` nor change it. -/
def Label.blind : Label → Bool
  | .pass | .block _ | .test | .ioctlOk _ => false
  | _ => true

namespace Machine

variable {m m' : Machine} {l : Label}

/-- The answer is one the kernel can give. -/
def allowed (h : Heap) : Label → Bool
  | .ioctlOk cmdId => h.newId cmdId
  | _ => true

/-- The step function of a Stream among others. -/
def opStep (m : Machine) : Op → Option Machine
  | .code l => if allowed m.heap l then m.step l else none
  | .issued fd cmdId =>
    if m.heap.newId cmdId then some { m with heap := m.heap.issue fd cmdId } else none
  | .completed f status =>
    if f < m.heap.size ∧ m.stream.outstanding (m.heap.fences f).cmdId ≠ some f then
      some { m with heap := m.heap.complete f status }
    else none

/-- What can be seen of a Stream: the fences, its file, and where it is. A Stream that waits in
`submit` shows the command it waits for. -/
def obs (m : Machine) : Heap × Option Fd × Pc := (m.heap, m.stream.fd, m.pc)

/-- The Stream with another `submission_order_`. -/
def withOrder (m : Machine) (order : List Fid) : Machine :=
  { m with stream := { m.stream with submissionOrder := order } }

@[simp]
theorem withOrder_fd (order : List Fid) : (m.withOrder order).stream.fd = m.stream.fd := rfl

@[simp]
theorem withOrder_submissionOrder (order : List Fid) :
    (m.withOrder order).stream.submissionOrder = order := rfl

/-- A completion is delivered whatever was submitted first. -/
theorem foldl_withOrder (batch : List Completion) (order : List Fid) :
    batch.foldl deliver (m.withOrder order) = (batch.foldl deliver m).withOrder order := by
  induction batch generalizing m with
  | nil => rfl
  | cons c batch ih =>
    have hone : (m.withOrder order).deliver c = (m.deliver c).withOrder order := by
      cases ho : m.stream.outstanding c.cmdId with
      | none => simp [deliver, withOrder, ho]
      | some f => simp [deliver, withOrder, ho]
    rw [List.foldl_cons, List.foldl_cons, hone]
    exact ih

/-- Steps that do not look at `submission_order_`. -/
theorem step_withOrder (hl : l.blind = true) (order : List Fid) :
    (m.withOrder order).step l = (m.step l).map (·.withOrder order) := by
  cases l with
  | pass | block _ | test | ioctlOk _ => cases hl
  | readBatch batch =>
    cases hpc : m.pc with
    | read c =>
      have hpc' : (m.withOrder order).pc = .read c := hpc
      simp only [step, hpc, hpc', foldl_withOrder]
      change (if m.stream.fd.isSome = true ∧ batch ≠ [] ∧ batch.length ≤ batchSize then _ else _) =
        _
      split
      · rfl
      · rfl
    | _ => simp [step, withOrder, hpc]
  | expired =>
    cases hpc : m.pc with
    | test c =>
      cases c with
      | wait f timeoutMs =>
        have hpc' : (m.withOrder order).pc = .test (.wait f timeoutMs) := hpc
        simp only [step, hpc, hpc']
        change (if m.ready f = false ∧ 0 ≤ timeoutMs then _ else _) = _
        split
        · rfl
        · rfl
      | _ => simp [step, withOrder, hpc]
    | _ => simp [step, withOrder, hpc]
  | pollTimeout =>
    cases hpc : m.pc with
    | poll c => cases c <;> simp [step, withOrder, hpc]
    | _ => simp [step, withOrder, hpc]
  | _ => cases hpc : m.pc <;> simp [step, withOrder, hpc]

/-- They leave `submission_order_` and the file alone, and enter no loop of `submit`. -/
theorem blind_frame (hl : l.blind = true) (h : m.step l = some m') :
    Delivered { m with pc := m'.pc } m' ∧ ∀ req f, m'.pc.cont = some (.throttle req f) →
      m.pc.cont = some (.throttle req f) := by
  cases l with
  | pass | block _ | test | ioctlOk _ => cases hl
  | readBatch batch =>
    simp only [step] at h
    split at h
    · next c hpc =>
      obtain ⟨-, hs⟩ := Option.ite_none_right_eq_some.mp h
      cases hs
      have hd := delivered_foldl m batch
      refine ⟨⟨hd.fd, hd.order, rfl, hd.size, hd.issuer, hd.cmdId, hd.ready⟩, ?_⟩
      intro req f hf
      rw [hpc, ← hf]
      dsimp only
      split <;> rfl
    · cases h
  | submit req =>
    obtain ⟨-, hs⟩ := Option.ite_none_right_eq_some.mp h
    cases hs
    refine ⟨.refl _, ?_⟩
    intro _ f hf
    cases hf
  | pump =>
    obtain ⟨-, hs⟩ := Option.ite_none_right_eq_some.mp h
    cases hs
    refine ⟨.refl _, ?_⟩
    rintro req f ⟨⟩
  | wait f timeoutMs =>
    obtain ⟨-, hs⟩ := Option.ite_none_right_eq_some.mp h
    cases hs
    refine ⟨.refl _, ?_⟩
    rintro req f ⟨⟩
  | pollEintr =>
    simp only [step] at h
    split at h
    · next c hpc =>
      cases h
      refine ⟨.refl _, ?_⟩
      intro req f hf
      rw [hpc, ← hf]
      rfl
    · cases h
  | pollReady | readZero | readEagain =>
    simp only [step] at h
    split at h
    · next c hpc =>
      obtain ⟨-, hs⟩ := Option.ite_none_right_eq_some.mp h
      cases hs
      refine ⟨.refl _, ?_⟩
      intro req f hf
      rw [hpc, ← hf]
      rfl
    · cases h
  | expired | pollTimeout | pollError | readError | ioctlError =>
    simp only [step] at h
    repeat' split at h
    all_goals cases h
    all_goals exact ⟨.refl _, by simp [Pc.cont]⟩

/-- Ids are new where the kernel answers so. -/
theorem newId_iff {h : Heap} {cmdId : Nat} :
    h.newId cmdId = true ↔ ∀ f < h.size, (h.fences f).cmdId ≠ cmdId := by
  simp [Heap.newId]

/-- A fence that exists is not touched by a new command. -/
theorem fences_issue {h : Heap} {fd : Fd} {cmdId : Nat} {f : Fid} (hf : f < h.size) :
    (h.issue fd cmdId).fences f = h.fences f := Function.update_of_ne (Nat.ne_of_lt hf) _ _

/-- A completion touches its own fence only, and not its id. -/
theorem fences_complete {h : Heap} {f g : Fid} {status : U32} :
    ((h.complete f status).fences g).cmdId = (h.fences g).cmdId ∧
      ((h.fences g).ready = true → ((h.complete f status).fences g).ready = true) ∧
      (g ≠ f → (h.complete f status).fences g = h.fences g) := by
  unfold Heap.complete
  by_cases hg : g = f
  · simp [hg]
  · simp [hg]

/-- `outstanding_` stays in order, whatever the other Streams do. -/
theorem OutInv.opStep {op : Op} (hi : OutInv m) (h : m.opStep op = some m') : OutInv m' := by
  cases op with
  | code l =>
    obtain ⟨hl, hs⟩ := Option.ite_none_right_eq_some.mp h
    refine hi.move (move_of_step hs) ?_
    rintro id rfl
    exact newId_iff.mp hl
  | issued fd cmdId =>
    obtain ⟨hnew, hs⟩ := Option.ite_none_right_eq_some.mp h
    cases hs
    rw [newId_iff] at hnew
    refine ⟨?_, ?_⟩
    · exact (hi.track fd hnew).1.inj
    · intro id f hf
      obtain ⟨hlt, hid, hr⟩ := hi.out id f hf
      refine ⟨Nat.lt_succ_of_lt hlt, ?_, ?_⟩
      · change ((m.heap.issue fd cmdId).fences f).cmdId = id
        rw [fences_issue hlt]
        exact hid
      · change ((m.heap.issue fd cmdId).fences f).ready = false
        rw [fences_issue hlt]
        exact hr
  | completed f status =>
    obtain ⟨⟨hf, hne⟩, hs⟩ := Option.ite_none_right_eq_some.mp h
    cases hs
    refine ⟨?_, ?_⟩
    · intro g hg g' hg' he
      rw [fences_complete.1, fences_complete.1] at he
      exact hi.inj g hg g' hg' he
    · intro id g hg
      obtain ⟨hlt, hid, hr⟩ := hi.out id g hg
      have hgf : g ≠ f := by
        rintro rfl
        exact hne (hid.symm ▸ hg)
      refine ⟨hlt, ?_, ?_⟩
      · exact fences_complete.1.trans hid
      · change ((m.heap.complete f status).fences g).ready = false
        rw [fences_complete.2.2 hgf]
        exact hr

/-- So does `submission_order_`. -/
theorem OrderInv.opStep {op : Op} (hi : OrderInv m) (h : m.opStep op = some m') :
    OrderInv m' := by
  cases op with
  | code l =>
    obtain ⟨-, hs⟩ := Option.ite_none_right_eq_some.mp h
    exact hi.move (move_of_step hs)
  | issued fd cmdId =>
    obtain ⟨-, hs⟩ := Option.ite_none_right_eq_some.mp h
    cases hs
    exact ⟨fun f hf ↦ Nat.lt_succ_of_lt (hi.lt f hf), hi.nodup, hi.length, hi.ioctl, hi.front⟩
  | completed f status =>
    obtain ⟨-, hs⟩ := Option.ite_none_right_eq_some.mp h
    cases hs
    exact ⟨hi.lt, hi.nodup, hi.length, hi.ioctl, hi.front⟩

/-- `submission_order_` after a submission has been let through. -/
def passed (m : Machine) : List Fid :=
  if m.stream.submissionOrder.length ≥ queueDepth then m.stream.submissionOrder.tail
  else m.stream.submissionOrder

/-- What is dropped from a full `submission_order_` comes before its last entries. -/
theorem passed_append {p c : List Fid} (ho : m.stream.submissionOrder = p ++ c)
    (hc : ¬queueDepth ≤ c.length) : ∃ p1, m.passed = p1 ++ c ∧ ∀ f ∈ p1, f ∈ p := by
  unfold passed
  rw [ho]
  split
  · next hle =>
    cases p with
    | nil => exact (hc hle).elim
    | cons g p => exact ⟨p, rfl, fun f hf ↦ List.mem_cons_of_mem g hf⟩
  · exact ⟨p, rfl, fun _ ↦ id⟩

/-- A `submission_order_` that has let a submission through is not full. -/
theorem passed_length (hi : OrderInv m) : m.passed.length < queueDepth := by
  have hlen := hi.length
  unfold passed
  split
  · next hle =>
    rw [List.length_tail]
    exact Nat.sub_one_lt_of_le (Nat.lt_of_lt_of_le (by decide) hle) hlen
  · next hlt => exact Nat.lt_of_not_le hlt

/-- Nothing holds a submission up. -/
def Free (m : Machine) : Prop := ∀ f, m.oldest = some f → m.ready f = true

/-- Then it is let through, and what is dropped is out of `outstanding_` already. -/
theorem step_pass (ho : OutInv m) (hi : OrderInv m) {req : SubmitReq}
    (hpc : m.pc = .throttle req) (hfree : m.Free) :
    m.step .pass = some { m.withOrder m.passed with pc := .ioctl req } := by
  simp only [step, hpc]
  split
  · next hn =>
    have hlt := length_lt_of_oldest hn
    have he : m.passed = m.stream.submissionOrder := if_neg (Nat.not_le.mpr hlt)
    rw [he]
    rfl
  · next f hf =>
    have hr := hfree f hf
    have hlt := hi.lt f (mem_of_oldest hf)
    have he : m.passed = m.stream.submissionOrder.tail := if_pos (oldest_eq_some hf).1
    have hout := ho.erased hlt hr
    rw [if_pos hr, he]
    unfold evict withOrder
    rw [Function.update_eq_self_iff.mpr hout.symm]

/-- Two Streams that differ in their `submission_order_` only: in front of what they share is
nothing that could hold a submission up. A Stream without a file gets nothing submitted, so that
only a full `submission_order_` matters. -/
inductive Matching (m m' : Machine) : Prop where
  | tails (p p' c : List Fid) : m.stream.submissionOrder = p ++ c →
      m'.stream.submissionOrder = p' ++ c → (∀ f ∈ p, m.ready f = true) →
      (∀ f ∈ p', m.ready f = true) → Matching m m'
  | closed : m.stream.fd = none → m.Free → m'.Free → Matching m m'

/-- Two Streams that behave the same. -/
structure Alike (m m' : Machine) : Prop where
  out : OutInv m
  order : OrderInv m
  order' : OrderInv m'
  eq : m' = m.withOrder m'.stream.submissionOrder
  blocked : ∀ req f, m.pc.cont = some (.throttle req f) → m' = m
  orders : Matching m m'

namespace Alike

/-- A Stream behaves as itself. -/
theorem self (ho : OutInv m) (hi : OrderInv m) : Alike m m where
  out := ho
  order := hi
  order' := hi
  eq := rfl
  blocked _ _ _ := rfl
  orders := .tails [] [] m.stream.submissionOrder rfl rfl nofun nofun

theorem eq_of_order (h : Alike m m')
    (he : m'.stream.submissionOrder = m.stream.submissionOrder) : m' = m := by
  rw [h.eq, he]
  rfl

/-- Where one `submission_order_` is full of what both share, so is the other. -/
private theorem shared_full {p p' c : List Fid} (h : Alike m m')
    (ho : m.stream.submissionOrder = p ++ c) (ho' : m'.stream.submissionOrder = p' ++ c)
    (hfull : queueDepth ≤ c.length) : m' = m := by
  have hlen := h.order.length
  have hlen' := h.order'.length
  rw [ho, List.length_append] at hlen
  rw [ho', List.length_append] at hlen'
  have hp : p = [] := List.eq_nil_of_length_eq_zero (by omega)
  have hp' : p' = [] := List.eq_nil_of_length_eq_zero (by omega)
  apply h.eq_of_order
  rw [ho, ho', hp, hp']

/-- A front that is not ready is shared. -/
private theorem front_shared {p c : List Fid} {f : Fid} (hf : m.oldest = some f)
    (hr : m.ready f = false) (ho : m.stream.submissionOrder = p ++ c)
    (hp : ∀ g ∈ p, m.ready g = true) : queueDepth ≤ c.length := by
  obtain ⟨hle, rest, hrest⟩ := oldest_eq_some hf
  cases p with
  | nil =>
    rw [ho] at hle
    exact hle
  | cons g p =>
    rw [ho, List.cons_append] at hrest
    cases hrest
    rw [hp f List.mem_cons_self] at hr
    cases hr

/-- If either Stream is held up, they are the same. -/
theorem eq_of_stuck (h : Alike m m') {f : Fid} (hr : m.ready f = false)
    (hf : m.oldest = some f ∨ m'.oldest = some f) : m' = m := by
  have hr' : m'.ready f = false := by
    rw [h.eq]
    exact hr
  cases h.orders with
  | tails p p' c ho ho' hp hp' =>
    refine h.shared_full ho ho' ?_
    rcases hf with hf | hf
    · exact front_shared hf hr ho hp
    · refine front_shared hf hr' ho' ?_
      rw [h.eq]
      exact hp'
  | closed hfd hfree hfree' =>
    exfalso
    rcases hf with hf | hf
    · rw [hfree f hf] at hr
      cases hr
    · rw [hfree' f hf] at hr'
      cases hr'

/-- Streams that differ are not held up. -/
theorem free (h : Alike m m') (hne : m' ≠ m) : m.Free ∧ m'.Free := by
  refine ⟨fun f hf ↦ ?_, fun f hf ↦ ?_⟩
  · by_contra hr
    rw [Bool.not_eq_true] at hr
    exact hne (h.eq_of_stuck hr (.inl hf))
  · by_contra hr
    rw [Bool.not_eq_true] at hr
    have hr' : m.ready f = false := by
      rw [h.eq] at hr
      exact hr
    exact hne (h.eq_of_stuck hr' (.inr hf))

/-- Both let the submission through. -/
private theorem pass (h : Alike m m') (hne : m' ≠ m) :
    Option.Rel Alike (m.step .pass) (m'.step .pass) := by
  have heq := h.eq
  have hpc : m'.pc = m.pc := by
    rw [heq]
    rfl
  cases hreq : m.pc with
  | throttle req =>
    obtain ⟨hfree, hfree'⟩ := h.free hne
    have hout' : OutInv m' := by
      rw [heq]
      exact ⟨h.out.inj, h.out.out⟩
    have hs := step_pass h.out h.order hreq hfree
    have hs' := step_pass hout' h.order' (hpc.trans hreq) hfree'
    rw [hs, hs']
    refine .some ⟨h.out.move (move_of_step hs) nofun, h.order.move (move_of_step hs),
      h.order'.move (move_of_step hs'), ?_, nofun, ?_⟩
    · rw [heq]
      rfl
    · cases h.orders with
      | tails p p' c ho ho' hp hp' =>
        have hc : ¬queueDepth ≤ c.length := fun hfull ↦ hne (h.shared_full ho ho' hfull)
        obtain ⟨p1, hp1, hsub⟩ := passed_append ho hc
        obtain ⟨p2, hp2, hsub'⟩ := passed_append ho' hc
        exact .tails p1 p2 c hp1 hp2 (fun f hf ↦ hp f (hsub f hf)) fun f hf ↦ hp' f (hsub' f hf)
      | closed hfd _ _ =>
        refine .closed hfd ?_ ?_
        · intro f hf
          exact (Nat.not_lt_of_le (oldest_eq_some hf).1 (passed_length h.order)).elim
        · intro f hf
          exact (Nat.not_lt_of_le (oldest_eq_some hf).1 (passed_length h.order')).elim
  | _ =>
    simp only [step, hpc, hreq]
    exact .none

/-- What both have in front stays ready. -/
private theorem matching {m1 m1' : Machine} (h : Matching m m')
    (hfd : m1.stream.fd = m.stream.fd)
    (ho : m1.stream.submissionOrder = m.stream.submissionOrder)
    (ho' : m1'.stream.submissionOrder = m'.stream.submissionOrder)
    (hready : ∀ f, f ∈ m.stream.submissionOrder ∨ f ∈ m'.stream.submissionOrder →
      m.ready f = true → m1.ready f = true)
    (hready' : ∀ f ∈ m'.stream.submissionOrder, m'.ready f = true → m1'.ready f = true) :
    Matching m1 m1' := by
  cases h with
  | tails p p' c hp hp' hr hr' =>
    refine .tails p p' c (ho.trans hp) (ho'.trans hp') ?_ ?_
    · intro f hf
      refine hready f (.inl ?_) (hr f hf)
      rw [hp]
      exact List.mem_append_left c hf
    · intro f hf
      refine hready f (.inr ?_) (hr' f hf)
      rw [hp']
      exact List.mem_append_left c hf
  | closed hn hfree hfree' =>
    refine .closed (hfd.trans hn) ?_ ?_
    · intro f hf
      unfold oldest at hf
      rw [ho] at hf
      exact hready f (.inl (mem_of_oldest hf)) (hfree f hf)
    · intro f hf
      unfold oldest at hf
      rw [ho'] at hf
      exact hready' f (mem_of_oldest hf) (hfree' f hf)

/-- Steps that do not look at `submission_order_`. -/
private theorem blind (h : Alike m m') (hne : m' ≠ m) (hl : l.blind = true) :
    Option.Rel Alike (m.step l) (m'.step l) := by
  have heq : m'.step l = (m.step l).map (·.withOrder m'.stream.submissionOrder) := by
    rw [← step_withOrder hl, ← h.eq]
  cases hs : m.step l with
  | none =>
    rw [heq, hs]
    exact .none
  | some m1 =>
    have hs' := heq
    rw [hs] at heq
    rw [heq]
    have hnew : ∀ id, l = .ioctlOk id → ∀ f < m.heap.size, (m.heap.fences f).cmdId ≠ id := by
      rintro id rfl
      cases hl
    obtain ⟨hd, hcont⟩ := blind_frame hl hs
    refine .some ⟨h.out.move (move_of_step hs) hnew, h.order.move (move_of_step hs),
      h.order'.move (move_of_step heq), rfl, ?_, ?_⟩
    · intro req f hf
      exact (hne (h.blocked req f (hcont req f hf))).elim
    · refine matching h.orders hd.fd hd.order rfl (fun f _ ↦ hd.ready f) ?_
      rw [h.eq]
      exact fun f _ ↦ hd.ready f

/-- A command is tracked at the end of both. -/
private theorem track (h : Alike m m') {id : Nat} (hnew : m.heap.newId id = true) :
    Option.Rel Alike (m.step (.ioctlOk id)) (m'.step (.ioctlOk id)) := by
  have hpc' : m'.pc = m.pc := by
    rw [h.eq]
    rfl
  have hfd' : m'.stream.fd = m.stream.fd := by
    rw [h.eq]
    rfl
  cases hpc : m.pc with
  | ioctl req =>
    cases hfd : m.stream.fd with
    | none =>
      simp only [step, hpc', hpc, hfd', hfd]
      exact .none
    | some fd =>
      have hs : m.step (.ioctlOk id) = some { m.track fd id with pc := .idle } := by
        simp only [step, hpc, hfd]
      have hs' : m'.step (.ioctlOk id) = some { m'.track fd id with pc := .idle } := by
        simp only [step, hpc', hpc, hfd', hfd]
      rw [hs, hs']
      refine .some ⟨h.out.move (move_of_step hs) ?_, h.order.move (move_of_step hs),
        h.order'.move (move_of_step hs'), ?_, by simp [Pc.cont], ?_⟩
      · rintro _ ⟨⟩
        exact newId_iff.mp hnew
      · rw [h.eq]
        rfl
      · have hready (f : Fid) (hf : f < m.heap.size) (hr : m.ready f = true) :
            ((m.heap.issue fd id).fences f).ready = true := by
          rw [fences_issue hf]
          exact hr
        cases h.orders with
        | tails p p' c ho ho' hp hp' =>
          have hlt' := h.order'.lt
          rw [h.eq] at hlt'
          refine .tails p p' (c ++ [m.heap.size]) ?_ ?_ ?_ ?_
          · change m.stream.submissionOrder ++ [m.heap.size] = p ++ (c ++ [m.heap.size])
            rw [ho, List.append_assoc]
          · change m'.stream.submissionOrder ++ [m'.heap.size] = p' ++ (c ++ [m.heap.size])
            rw [ho', List.append_assoc, h.eq]
            rfl
          · intro f hf
            refine hready f (h.order.lt f ?_) (hp f hf)
            rw [ho]
            exact List.mem_append_left c hf
          · intro f hf
            refine hready f (hlt' f ?_) (hp' f hf)
            rw [withOrder_submissionOrder, ho']
            exact List.mem_append_left c hf
        | closed hn _ _ =>
          rw [hfd] at hn
          cases hn
  | _ =>
    simp only [step, hpc', hpc]
    exact .none

/-- The loop of another call goes on or ends. -/
private theorem test (h : Alike m m') (hne : m' ≠ m) :
    Option.Rel Alike (m.step .test) (m'.step .test) := by
  have hpc' : m'.pc = m.pc := by
    rw [h.eq]
    rfl
  have hready (f : Fid) : m'.ready f = m.ready f := by
    rw [h.eq]
    rfl
  have hgoto {q : Pc} (hq : ∀ req f, q.cont ≠ some (.throttle req f))
      (hs : m.step .test = some { m with pc := q })
      (hs' : m'.step .test = some { m' with pc := q }) :
      Option.Rel Alike (m.step .test) (m'.step .test) := by
    rw [hs, hs']
    refine .some ⟨h.out.goto q, h.order.move (move_of_step hs), h.order'.move (move_of_step hs'),
      ?_, fun req f hf ↦ (hq req f hf).elim, ?_⟩
    · rw [h.eq]
      rfl
    · exact matching h.orders rfl rfl rfl (fun _ _ ↦ id) fun _ _ ↦ id
  cases hpc : m.pc with
  | test c =>
    cases c with
    | pump =>
      refine hgoto (q := .idle) nofun ?_ ?_
      · simp only [step, hpc]
      · simp only [step, hpc', hpc]
    | throttle req f =>
      refine (hne (h.blocked req f ?_)).elim
      rw [hpc]
      rfl
    | wait f timeoutMs =>
      cases hr : m.ready f with
      | true =>
        refine hgoto (q := .idle) nofun ?_ ?_
        · simp only [step, hpc, hr, if_true]
        · simp only [step, hpc', hpc, hready, hr, if_true]
      | false =>
        refine hgoto (q := .poll (.wait f timeoutMs)) ?_ ?_ ?_
        · rintro req g ⟨⟩
        · simp [step, hpc, hr]
        · simp [step, hpc', hpc, hready, hr]
  | _ =>
    simp only [step, hpc', hpc]
    exact .none

/-- The Stream takes a step. -/
private theorem code (h : Alike m m') (hne : m' ≠ m) (hl : allowed m.heap l = true) :
    Option.Rel Alike (m.step l) (m'.step l) := by
  cases l with
  | pass => exact h.pass hne
  | test => exact h.test hne
  | ioctlOk id => exact h.track hl
  | block f =>
    -- Streams that differ hold nothing up
    obtain ⟨hfree, hfree'⟩ := h.free hne
    have hblock {x : Machine} (hx : x.Free) : x.step (.block f) = none := by
      simp only [step]
      split
      · rw [if_neg]
        rintro ⟨hf, hr⟩
        rw [hx f hf] at hr
        cases hr
      · rfl
    rw [hblock hfree, hblock hfree']
    exact .none
  | _ => exact h.blind hne rfl

/-- Whatever happens next happens to both. -/
theorem opStep (h : Alike m m') (op : Op) : Option.Rel Alike (m.opStep op) (m'.opStep op) := by
  by_cases hne : m' = m
  · subst hne
    cases hs : m'.opStep op with
    | none => exact .none
    | some m1 => exact .some (.self (h.out.opStep hs) (h.order.opStep hs))
  · have hblocked (req : SubmitReq) (f : Fid) : m.pc.cont ≠ some (.throttle req f) :=
      fun hf ↦ hne (h.blocked req f hf)
    have henv {x : Heap} (hs : m.opStep op = some { m with heap := x })
        (hs' : m'.opStep op = some { m' with heap := x })
        (hready : ∀ f < m.heap.size, m.ready f = true → (x.fences f).ready = true) :
        Option.Rel Alike (m.opStep op) (m'.opStep op) := by
      rw [hs, hs']
      refine .some ⟨h.out.opStep hs, h.order.opStep hs, h.order'.opStep hs', ?_,
        fun req f hf ↦ (hblocked req f hf).elim, ?_⟩
      · rw [h.eq]
        rfl
      · have hlt' := h.order'.lt
        rw [h.eq] at hlt'
        refine matching h.orders rfl rfl rfl ?_ ?_
        · rintro f (hf | hf)
          · exact hready f (h.order.lt f hf)
          · exact hready f (hlt' f hf)
        · intro f hf
          rw [h.eq]
          exact hready f (hlt' f hf)
    have hheap : m'.heap = m.heap := by
      rw [h.eq]
      rfl
    have hout : m'.stream.outstanding = m.stream.outstanding := by
      rw [h.eq]
      rfl
    cases op with
    | code l =>
      simp only [Machine.opStep, hheap]
      split
      · next hl => exact h.code hne hl
      · exact .none
    | issued fd cmdId =>
      cases hnew : m.heap.newId cmdId with
      | true =>
        refine henv (x := m.heap.issue fd cmdId) ?_ ?_ ?_
        · simp only [Machine.opStep, hnew, if_true]
        · simp only [Machine.opStep, hheap, hnew, if_true]
        · intro f hf hr
          rw [fences_issue hf]
          exact hr
      | false =>
        simp only [Machine.opStep, hheap, hnew]
        exact .none
    | completed f status =>
      by_cases hc : f < m.heap.size ∧ m.stream.outstanding (m.heap.fences f).cmdId ≠ some f
      · refine henv (x := m.heap.complete f status) ?_ ?_ ?_
        · simp only [Machine.opStep]
          rw [if_pos hc]
        · simp only [Machine.opStep, hheap, hout]
          rw [if_pos hc]
        · intro g _ hr
          exact fences_complete.2.1 hr
      · simp only [Machine.opStep, hheap, hout]
        rw [if_neg hc, if_neg hc]
        exact .none

/-- They cannot be told apart. -/
theorem sameObs (h : Alike m m') : SameObs Machine.opStep obs m m' := by
  refine .of_bisim ?_ (fun _ _ op hr ↦ hr.opStep op) h
  intro x x' hx
  rw [hx.eq]
  rfl

end Alike

/-- One submission that is let through and gets the id `cmdId`. -/
def submitted (req : SubmitReq) (cmdId : Nat) : List Op :=
  [.code (.submit req), .code .pass, .code (.ioctlOk cmdId)]

/-- `k` submissions that get the ids from `cmdId` on. -/
def fill (req : SubmitReq) : Nat → Nat → List Op
  | _, 0 => []
  | cmdId, k + 1 => submitted req cmdId ++ fill req (cmdId + 1) k

/-- A Stream between two submissions, with `s` and then `c` at the end of its
`submission_order_`, and nothing in front of them that could hold a submission up. -/
structure Filling (m : Machine) (fd : Fd) (s c : List Fid) : Prop where
  out : OutInv m
  order : OrderInv m
  idle : m.pc = .idle
  fd : m.stream.fd = some fd
  last : ∃ p, m.stream.submissionOrder = p ++ (s ++ c) ∧ ∀ f ∈ p, m.ready f = true

namespace Filling

variable {fd : Fd} {s c : List Fid} {id : Nat}

/-- Until `s` reaches the front, nothing holds a submission up. -/
theorem free (h : Filling m fd s c) (hlt : (s ++ c).length < queueDepth) : m.Free := by
  intro f hf
  obtain ⟨hle, rest, hrest⟩ := oldest_eq_some hf
  obtain ⟨p, hp, hr⟩ := h.last
  cases p with
  | nil =>
    rw [hp, List.nil_append] at hle
    exact (Nat.not_lt_of_le hle hlt).elim
  | cons g p =>
    rw [hp, List.cons_append] at hrest
    cases hrest
    exact hr f List.mem_cons_self

/-- The next submission is let through. -/
theorem submitted (h : Filling m fd s c) (req : SubmitReq) (hlt : (s ++ c).length < queueDepth)
    (hnew : m.heap.newId id = true) :
    ∃ m', run Machine.opStep m (submitted req id) = some m' ∧
      Filling m' fd s (c ++ [m.heap.size]) ∧ m'.heap = m.heap.issue fd id := by
  have hfree := h.free hlt
  let m1 : Machine := { m with pc := .throttle req }
  let m2 : Machine := { m.withOrder m.passed with pc := .ioctl req }
  let m3 : Machine := { m2.track fd id with pc := .idle }
  have hs1 : m.opStep (.code (.submit req)) = some m1 := by
    simp [Machine.opStep, allowed, Machine.step, h.idle, m1]
  have hi1 := h.order.opStep hs1
  have hs2 : m1.opStep (.code .pass) = some m2 := by
    simp only [Machine.opStep, allowed, if_true]
    exact step_pass (h.out.opStep hs1) hi1 rfl hfree
  have hs3 : m2.opStep (.code (.ioctlOk id)) = some m3 := by
    have hfd : m2.stream.fd = some fd := h.fd
    have hnew2 : m2.heap.newId id = true := hnew
    have hpc : m2.pc = .ioctl req := rfl
    simp only [Machine.opStep, allowed, hnew2, if_true, Machine.step, hpc, hfd, m3]
  refine ⟨m3, ?_, ⟨?_, (hi1.opStep hs2).opStep hs3, rfl, h.fd, ?_⟩, rfl⟩
  · rw [Machine.submitted, run_cons, hs1, Option.bind_some, run_cons, hs2, Option.bind_some,
      run_cons, hs3]
    rfl
  · exact ((h.out.opStep hs1).opStep hs2).opStep hs3
  · obtain ⟨p, hp, hr⟩ := h.last
    have hc : ¬queueDepth ≤ (s ++ c).length := Nat.not_le.mpr hlt
    obtain ⟨p1, hp1, hsub⟩ := passed_append hp hc
    refine ⟨p1, ?_, ?_⟩
    · change m.passed ++ [m.heap.size] = p1 ++ (s ++ (c ++ [m.heap.size]))
      rw [hp1]
      simp
    · intro f hf
      have hmem : f ∈ m.stream.submissionOrder := by
        rw [hp]
        exact List.mem_append_left _ (hsub f hf)
      change ((m.heap.issue fd id).fences f).ready = true
      rw [fences_issue (h.order.lt f hmem)]
      exact hr f (hsub f hf)

/-- So are all of them until `s` and the new ones fill `submission_order_`. -/
theorem fill (h : Filling m fd s c) (req : SubmitReq) (k : Nat)
    (hle : (s ++ c).length + k ≤ queueDepth)
    (hid : ∀ f < m.heap.size, (m.heap.fences f).cmdId < id) :
    ∃ m' c', run Machine.opStep m (fill req id k) = some m' ∧ Filling m' fd s (c ++ c') ∧
      c'.length = k ∧ (∀ f ∈ c', m.heap.size ≤ f) ∧ ∀ f < m.heap.size, m'.ready f = m.ready f := by
  induction k generalizing m c id with
  | zero =>
    refine ⟨m, [], rfl, ?_, rfl, nofun, fun _ _ ↦ rfl⟩
    rw [List.append_nil]
    exact h
  | succ k ih =>
    have hnew : m.heap.newId id = true := newId_iff.mpr fun f hf ↦ Nat.ne_of_lt (hid f hf)
    obtain ⟨m1, hrun, hm1, hheap⟩ := h.submitted req (by omega) hnew
    have hid1 : ∀ f < m1.heap.size, (m1.heap.fences f).cmdId < id + 1 := by
      rw [hheap]
      intro f hf
      rcases Nat.lt_succ_iff_lt_or_eq.mp hf with hf | rfl
      · rw [fences_issue hf]
        exact Nat.lt_succ_of_lt (hid f hf)
      · simp [Heap.issue, FenceState.fresh]
    have hlen : (s ++ (c ++ [m.heap.size])).length + k ≤ queueDepth := by
      simp only [List.length_append, List.length_singleton] at hle ⊢
      omega
    obtain ⟨m2, c', hrun2, hm2, hk, hge, hready⟩ := ih hm1 hlen hid1
    refine ⟨m2, m.heap.size :: c', ?_, ?_, ?_, ?_, ?_⟩
    · rw [Machine.fill, run_append, hrun]
      exact hrun2
    · rw [List.append_assoc] at hm2
      exact hm2
    · rw [List.length_cons, hk]
    · intro f hf
      rcases List.mem_cons.mp hf with rfl | hf
      · exact Nat.le_refl _
      · refine Nat.le_of_succ_le ?_
        have := hge f hf
        rw [hheap] at this
        exact this
    · intro f hf
      have hf1 : f < m1.heap.size := by
        rw [hheap]
        exact Nat.lt_succ_of_lt hf
      rw [hready f hf1, Machine.ready, hheap, fences_issue hf]
      rfl

end Filling

/-- The submission that finds its front not ready. -/
def heldUp (req : SubmitReq) (f : Fid) : List Op := [.code (.submit req), .code (.block f)]

/-- A Stream between two calls can be held up on the front of a full `submission_order_` only. -/
theorem run_heldUp (hpc : m.pc = .idle) (req : SubmitReq) (f : Fid) :
    (run opStep m (heldUp req f)).isSome = true ↔ m.oldest = some f ∧ m.ready f = false := by
  have hs : m.opStep (.code (.submit req)) = some { m with pc := .throttle req } := by
    simp [opStep, allowed, step, hpc]
  rw [heldUp, run_cons, hs, Option.bind_some, run_cons]
  change Option.isSome (Option.bind (if m.oldest = some f ∧ m.ready f = false then _ else none)
    _) = true ↔ _
  split
  · next hb => exact iff_of_true rfl hb
  · next hb => exact iff_of_false Bool.false_ne_true hb

/-- Some id is larger than all that have been given. -/
theorem exists_id (h : Heap) : ∃ id, ∀ f < h.size, (h.fences f).cmdId < id := by
  refine ⟨(Finset.range h.size).sup (fun f ↦ (h.fences f).cmdId) + 1, ?_⟩
  intro f hf
  exact Nat.lt_succ_of_le (Finset.le_sup (f := fun f ↦ (h.fences f).cmdId)
    (Finset.mem_range.mpr hf))

/-- The command that has been submitted longest of those that are not ready tells a Stream from
any other that does not know it, unless the other is held up before. -/
theorem not_sameObs {fd : Fd} {s s' : List Fid} {f : Fid} (h : Filling m fd (f :: s) [])
    (h' : Filling m' fd s' []) (hheap : m'.heap = m.heap) (hr : m.ready f = false)
    (hf : f ∉ m'.stream.submissionOrder) (hle : s'.length ≤ (f :: s).length) :
    ¬SameObs opStep obs m m' := by
  intro hsame
  have hlen : (f :: s).length ≤ queueDepth := by
    obtain ⟨p, hp, -⟩ := h.last
    have := h.order.length
    rw [hp, List.append_nil, List.length_append] at this
    omega
  have hlt : f < m.heap.size := by
    obtain ⟨p, hp, -⟩ := h.last
    refine h.order.lt f ?_
    rw [hp]
    simp
  obtain ⟨id, hid⟩ := exists_id m.heap
  -- both are filled up until the command is at the front of the first
  let k := queueDepth - (f :: s).length
  have hk : (f :: s ++ []).length + k ≤ queueDepth := by
    rw [List.append_nil]
    omega
  have hk' : (s' ++ []).length + k ≤ queueDepth := by
    rw [List.append_nil]
    omega
  obtain ⟨m1, c, hrun, hm1, hc, -, hready⟩ := h.fill Driver.SubmitReq.zero k hk hid
  obtain ⟨m1', c', hrun', hm1', -, hge, hready'⟩ := h'.fill Driver.SubmitReq.zero k hk'
    (by rw [hheap]; exact hid)
  have hfront : m1.oldest = some f := by
    obtain ⟨p, hp, -⟩ := hm1.last
    have hlen1 := hm1.order.length
    rw [hp] at hlen1
    simp only [List.nil_append, List.length_append] at hlen1
    have hnil : p = [] := List.eq_nil_of_length_eq_zero (by omega)
    unfold oldest
    rw [if_pos, hp, hnil]
    · rfl
    · rw [hp, hnil]
      simp only [List.nil_append, List.length_append]
      omega
  have hpossible : (run opStep m (fill Driver.SubmitReq.zero id k ++
      heldUp Driver.SubmitReq.zero f)).isSome = true := by
    rw [run_append, hrun, Option.bind_some, run_heldUp hm1.idle]
    exact ⟨hfront, (hready f hlt).trans hr⟩
  have hother := hsame.isSome hpossible
  rw [run_append, hrun', Option.bind_some, run_heldUp hm1'.idle] at hother
  obtain ⟨ho, hr'⟩ := hother
  -- the other one does not know the command
  have hmem : f ∈ m1'.stream.submissionOrder := mem_of_oldest ho
  obtain ⟨p, hp, hpr⟩ := hm1'.last
  rw [hp, List.nil_append, List.mem_append, List.mem_append] at hmem
  rcases hmem with hmem | hmem | hmem
  · rw [hpr f hmem] at hr'
    cases hr'
  · obtain ⟨p', hp', -⟩ := h'.last
    rw [hp', List.append_nil] at hf
    exact hf (List.mem_append_right p' hmem)
  · have := hge f hmem
    rw [hheap] at this
    exact Nat.not_lt_of_le this hlt

/-- Nothing that is recorded in `submission_order_` could ever hold a submission up. A Stream
without a file submits nothing, so that only the front of a full one matters. -/
def Clear (m : Machine) : Prop :=
  match m.stream.fd with
  | some _ => ∀ f ∈ m.stream.submissionOrder, m.ready f = true
  | none => m.Free

namespace Clear

/-- With a file, all that is recorded is ready. -/
theorem ready {fd : Fd} (h : m.Clear) (hfd : m.stream.fd = some fd) :
    ∀ f ∈ m.stream.submissionOrder, m.ready f = true := by
  unfold Clear at h
  rw [hfd] at h
  exact h

/-- With or without one, the next submission is not held up. -/
theorem free (h : m.Clear) : m.Free := by
  intro f hf
  cases hfd : m.stream.fd with
  | none =>
    unfold Clear at h
    rw [hfd] at h
    exact h f hf
  | some fd => exact h.ready hfd f (mem_of_oldest hf)

end Clear

/-- What follows the commands that are ready begins with one that is not. -/
theorem exists_filling {fd : Fd} (ho : OutInv m) (hi : OrderInv m) (hpc : m.pc = .idle)
    (hfd : m.stream.fd = some fd) :
    ∃ s, Filling m fd s [] ∧ (s = [] → ∀ f ∈ m.stream.submissionOrder, m.ready f = true) ∧
      ∀ f rest, s = f :: rest → f ∈ m.stream.submissionOrder ∧ m.ready f = false := by
  have hsplit := List.takeWhile_append_dropWhile (p := m.ready) (l := m.stream.submissionOrder)
  have hready : ∀ f ∈ m.stream.submissionOrder.takeWhile m.ready, m.ready f = true :=
    List.all_eq_true.mp List.all_takeWhile
  refine ⟨m.stream.submissionOrder.dropWhile m.ready, ⟨ho, hi, hpc, hfd, _, ?_, hready⟩, ?_, ?_⟩
  · rw [List.append_nil]
    exact hsplit.symm
  · intro hnil f hf
    rw [← hsplit, hnil, List.append_nil] at hf
    exact hready f hf
  · intro f rest hs
    constructor
    · rw [← hsplit, hs]
      exact List.mem_append_right _ List.mem_cons_self
    · have hnot := List.head?_dropWhile_not m.ready m.stream.submissionOrder
      rw [hs] at hnot
      simpa using hnot

/-- A command that only one of two Streams records does not hold that one up at once. -/
private theorem free_of_sameObs (h : SameObs opStep obs m m') (hpc : m.pc = .idle)
    (hpc' : m'.pc = .idle)
    (hd : ∀ f ∈ m.stream.submissionOrder, f ∉ m'.stream.submissionOrder) : m.Free := by
  intro f hf
  by_contra hr
  rw [Bool.not_eq_true] at hr
  have hpossible := (run_heldUp hpc Driver.SubmitReq.zero f).mpr ⟨hf, hr⟩
  have hother := (run_heldUp hpc' Driver.SubmitReq.zero f).mp (h.isSome hpossible)
  exact hd f (mem_of_oldest hf) (mem_of_oldest hother.1)

/-- Two Streams that differ in their `submission_order_` only, with no command in both, behave
the same exactly when neither records a command that could hold a submission up. -/
theorem sameObs_iff {o : List Fid} (hout : OutInv m) (hi : OrderInv m)
    (hi' : OrderInv (m.withOrder o)) (hpc : m.pc = .idle)
    (hdis : ∀ f ∈ m.stream.submissionOrder, f ∉ o) :
    SameObs opStep obs m (m.withOrder o) ↔ m.Clear ∧ (m.withOrder o).Clear := by
  have hout' : OutInv (m.withOrder o) := ⟨hout.inj, hout.out⟩
  unfold Clear
  rw [withOrder_fd]
  constructor
  · intro hsame
    cases hfd : m.stream.fd with
    | none =>
      -- either may be held up at once
      exact ⟨free_of_sameObs hsame hpc hpc hdis,
        free_of_sameObs hsame.symm hpc hpc fun f hf hf' ↦ hdis f hf' hf⟩
    | some fd =>
      obtain ⟨s, hs, hnil, hhead⟩ := exists_filling hout hi hpc hfd
      obtain ⟨s', hs', hnil', hhead'⟩ := exists_filling hout' hi' hpc hfd
      by_cases hle : s'.length ≤ s.length
      · cases s with
        | nil => exact ⟨hnil rfl, hnil' (List.eq_nil_of_length_eq_zero (Nat.le_zero.mp hle))⟩
        | cons f rest =>
          obtain ⟨hf, hr⟩ := hhead f rest rfl
          exact (not_sameObs hs hs' rfl hr (hdis f hf) hle hsame).elim
      · cases s' with
        | nil => exact (hle (Nat.zero_le _)).elim
        | cons f rest =>
          obtain ⟨hf, hr⟩ := hhead' f rest rfl
          exact (not_sameObs hs' hs rfl hr (fun hf' ↦ hdis f hf' hf) (Nat.le_of_not_le hle)
            hsame.symm).elim
  · rintro ⟨hclear, hclear'⟩
    have hmatch : Matching m (m.withOrder o) := by
      cases hfd : m.stream.fd with
      | none =>
        rw [hfd] at hclear hclear'
        exact .closed hfd hclear hclear'
      | some fd =>
        rw [hfd] at hclear hclear'
        exact .tails _ o [] (List.append_nil _).symm (List.append_nil _).symm hclear hclear'
    refine Alike.sameObs ⟨hout, hi, hi', rfl, ?_, hmatch⟩
    intro req f hf
    rw [hpc] at hf
    cases hf

end Machine

end DmaAccel.Runtime
