import DmaAccel.Runtime.Process

/-!
# What the Streams of a process share

Source `track-a/dma_accel_runtime.cpp` (101–115), `track-b/dma_accel_context.cpp` (13–25) and
`track-b/dma_accel_scheduler.cpp` (16–19). The Streams of a process share the fences, and each
has its own part of them. A step of one Stream touches the fences in its own `outstanding_`
only; a move takes a file and its `outstanding_` from one place to another and leaves every
`submission_order_` where it is, or drops it.
-/

namespace DmaAccel.Runtime

open DmaAccel.Base
open DmaAccel.Driver (Completion queueDepth)

namespace Machine

variable {m m' : Machine} {l : Label}

/-- What a step of one Stream can do to the fences, to its tables and thereby to the others. -/
structure Frame (m m' : Machine) : Prop where
  size : m.heap.size ≤ m'.heap.size
  cmdId : ∀ f < m.heap.size, (m'.heap.fences f).cmdId = (m.heap.fences f).cmdId
  issuer : ∀ f < m.heap.size, m'.heap.issuer f = m.heap.issuer f
  ready : ∀ f < m.heap.size, m.ready f = true → m'.ready f = true
  completed : ∀ f < m.heap.size, m'.ready f = true → m.ready f = true ∨
    m.stream.outstanding (m.heap.fences f).cmdId = some f
  fd : m'.stream.fd = m.stream.fd
  out : ∀ id f, m'.stream.outstanding id = some f →
    m.stream.outstanding id = some f ∨ m.heap.size ≤ f
  order : ∀ f ∈ m'.stream.submissionOrder, f ∈ m.stream.submissionOrder ∨ m.heap.size ≤ f
  fresh : ∀ f, m.heap.size ≤ f → f < m'.heap.size →
    m.stream.fd = some (m'.heap.issuer f) ∧ f ∈ m'.stream.submissionOrder
  kept : ∀ f ∈ m.stream.submissionOrder, m.ready f = false → f ∈ m'.stream.submissionOrder

/-- A batch only takes out of `outstanding_`. -/
private theorem out_foldl (batch : List Completion) {id : Nat} {f : Fid}
    (h : (batch.foldl deliver m).stream.outstanding id = some f) :
    m.stream.outstanding id = some f := by
  induction batch generalizing m with
  | nil => exact h
  | cons c batch ih =>
    have hone := ih h
    unfold deliver at hone
    split at hone
    · by_cases he : id = c.cmdId
      · simp [he] at hone
      · simpa [Function.update_of_ne he] using hone
    · exact hone

/-- A batch makes fences of `outstanding_` ready. -/
private theorem completed_foldl (hi : OutInv m) (batch : List Completion) {f : Fid}
    (hr : (batch.foldl deliver m).ready f = true) :
    m.ready f = true ∨ m.stream.outstanding (m.heap.fences f).cmdId = some f := by
  induction batch generalizing m with
  | nil => exact .inl hr
  | cons c batch ih =>
    have hd := delivered_deliver m c
    rcases ih (hi.deliver c) hr with h | h
    · -- the first completion may be its own
      cases ho : m.stream.outstanding c.cmdId with
      | none =>
        left
        simpa [deliver, ho] using h
      | some g =>
        by_cases hg : f = g
        · right
          rw [hg, (hi.out c.cmdId g ho).2.1]
          exact ho
        · left
          simpa [deliver, Heap.complete, ready, ho, Function.update_of_ne hg] using h
    · right
      rw [hd.cmdId] at h
      exact out_foldl [c] h

/-- Every step of a Stream stays within that. -/
theorem frame_of_move (ho : OutInv m) (hi : OrderInv m) (h : Move m l m') : Frame m m' := by
  cases h with
  | goto _ pc _ _ =>
    exact ⟨Nat.le_refl _, fun _ _ ↦ rfl, fun _ _ ↦ rfl, fun _ _ ↦ id, fun _ _ ↦ .inl, rfl,
      fun _ _ ↦ .inl, fun _ ↦ .inl, fun f hle hlt ↦ (Nat.not_lt_of_le hle hlt).elim,
      fun _ hf _ ↦ hf⟩
  | evict _ req f hr hf =>
    obtain ⟨rest, hrest, -⟩ := hi.evicted hf
    have htail : (m.evict f).stream.submissionOrder = rest := by
      unfold evict
      rw [hrest]
      rfl
    refine ⟨Nat.le_refl _, fun _ _ ↦ rfl, fun _ _ ↦ rfl, fun _ _ ↦ id, fun _ _ ↦ .inl, rfl, ?_, ?_,
      fun f hle hlt ↦ (Nat.not_lt_of_le hle hlt).elim, ?_⟩
    · intro id g hg
      left
      change Function.update m.stream.outstanding (m.heap.fences f).cmdId none id = some g at hg
      by_cases he : id = (m.heap.fences f).cmdId
      · simp [he] at hg
      · simpa [Function.update_of_ne he] using hg
    · intro g hg
      left
      change g ∈ (m.evict f).stream.submissionOrder at hg
      rw [htail] at hg
      rw [hrest]
      exact List.mem_cons_of_mem f hg
    · intro g hg hgr
      change g ∈ (m.evict f).stream.submissionOrder
      rw [htail]
      rw [hrest] at hg
      refine (List.mem_cons.mp hg).resolve_left ?_
      rintro rfl
      rw [hr] at hgr
      cases hgr
  | deliver batch c pc hpc hfd hcont =>
    have hd := delivered_foldl m batch
    refine ⟨Nat.le_of_eq hd.size.symm, fun f _ ↦ hd.cmdId f, fun f _ ↦ congrFun hd.issuer f,
      fun f _ ↦ hd.ready f, fun f _ ↦ completed_foldl ho batch, hd.fd,
      fun id f hf ↦ .inl (out_foldl batch hf), ?_, ?_, ?_⟩
    · intro f hf
      exact .inl (hd.order ▸ hf)
    · intro f hle hlt
      exact (Nat.not_lt_of_le hle (hd.size ▸ hlt)).elim
    · intro f hf _
      exact hd.order ▸ hf
  | track req fd cmdId hpc hfd =>
    refine ⟨Nat.le_succ _, ?_, ?_, ?_, ?_, rfl, ?_, ?_, ?_, ?_⟩
    · intro f hf
      exact congrArg FenceState.cmdId (fences_issue hf)
    · intro f hf
      exact Function.update_of_ne (Nat.ne_of_lt hf) _ _
    · intro f hf hr
      exact (congrArg FenceState.ready (fences_issue hf)).trans hr
    · intro f hf hr
      exact .inl ((congrArg FenceState.ready (fences_issue hf)).symm.trans hr)
    · intro id f hf
      simp only [Machine.track] at hf
      split at hf
      · exact .inl hf
      · by_cases he : id = cmdId
        · rw [he, Function.update_self] at hf
          cases hf
          exact .inr (Nat.le_refl _)
        · rw [Function.update_of_ne he] at hf
          exact .inl hf
    · intro f hf
      rcases List.mem_append.mp hf with hf | hf
      · exact .inl hf
      · exact .inr (Nat.le_of_eq (List.mem_singleton.mp hf).symm)
    · intro f hle hlt
      have he : f = m.heap.size := Nat.le_antisymm (Nat.le_of_lt_succ hlt) hle
      subst he
      constructor
      · change m.stream.fd = some (Function.update m.heap.issuer m.heap.size fd m.heap.size)
        rw [Function.update_self]
        exact hfd
      · exact List.mem_append_right _ List.mem_cons_self
    · intro f hf _
      exact List.mem_append_left _ hf

end Machine

/-- The Streams of a process share the fences: no command is in two `submission_order_`s or two
`outstanding_`s, and no file belongs to two Streams. -/
structure ProcInv (p : Proc) : Prop where
  idle : ∀ q, p.get q = none → p.pcs q = .idle
  inj : ∀ f < p.heap.size, ∀ g < p.heap.size,
    (p.heap.fences f).cmdId = (p.heap.fences g).cmdId → f = g
  order : ∀ q s, p.get q = some s → (p.machine q s).OrderInv
  out : ∀ q s, p.get q = some s → (p.machine q s).OutInv
  orders : ∀ q r s t, q ≠ r → p.get q = some s → p.get r = some t →
    ∀ f ∈ s.submissionOrder, f ∉ t.submissionOrder
  outs : ∀ q r s t, q ≠ r → p.get q = some s → p.get r = some t →
    ∀ id f, s.outstanding id = some f → t.outstanding id = none
  files : ∀ q r s t, q ≠ r → p.get q = some s → p.get r = some t →
    ∀ fd, s.fd = some fd → t.fd ≠ some fd
  fds : ∀ q s fd, p.get q = some s → s.fd = some fd → fd < p.nfds
  issuers : ∀ f < p.heap.size, p.heap.issuer f < p.nfds

namespace Proc

variable {p p' : Proc} {q r : Place} {s t : Stream}

/-- The place is there to be changed. -/
theorem get_put (h : p.get q = some s) :
    (p.put q t).get r = if r = q then some t else p.get r := by
  cases q with
  | stream i =>
    cases r with
    | stream j =>
      have hlt : i < p.streams.length := (List.getElem?_eq_some_iff.mp h).1
      by_cases he : j = i
      · simp [put, get, he, hlt]
      · simp [put, get, he, List.getElem?_set_ne (Ne.symm he)]
    | _ => simp [put, get]
  | context i =>
    obtain ⟨c, hc, -⟩ := Option.map_eq_some_iff.mp h
    cases r with
    | context j =>
      by_cases he : j = i
      · simp [put, get, he, hc]
      · simp [put, get, he, Ne.symm he]
    | _ => simp [put, get]
  | entry i =>
    obtain ⟨e, hc, -⟩ := Option.map_eq_some_iff.mp h
    cases r with
    | entry j =>
      by_cases he : j = i
      · simp [put, get, he, hc]
      · simp [put, get, he, Ne.symm he]
    | _ => simp [put, get]

/-- A Stream of a process in which one place has changed is the one there, or an old one. -/
theorem get_cases (hget : ∀ r, p'.get r = if r = q then some s else p.get r)
    (ht : p'.get r = some t) : r = q ∧ t = s ∨ r ≠ q ∧ p.get r = some t := by
  rw [hget] at ht
  split at ht
  · next hr => exact .inl ⟨hr, (Option.some.inj ht).symm⟩
  · next hr => exact .inr ⟨hr, ht⟩

/-- A process begins without Streams. -/
theorem get_init_ne : init.get q ≠ some s := by
  cases q <;> simp [init, get]

end Proc

namespace ProcInv

variable {p p' : Proc} {q r : Place} {s t : Stream}

section Frame

-- what a step of the Stream at `q` leaves of the Stream at `r`
variable {m : Machine} (hi : ProcInv p) (hs : p.get q = some s)
  (hframe : Machine.Frame (p.machine q s) m) (hout : m.OutInv) (hr : r ≠ q)
  (ht : p.get r = some t)

include hi hframe ht

/-- Its `submission_order_` stays in order. -/
private theorem order_frame : Machine.OrderInv ⟨m.heap, t, p.pcs r⟩ := by
  have ho := hi.order r t ht
  refine ⟨?_, ho.nodup, ho.length, ho.ioctl, ho.front⟩
  intro f hf
  exact Nat.lt_of_lt_of_le (ho.lt f hf) hframe.size

include hs hr

/-- It has none of the commands that the step leaves or puts into the other one. -/
private theorem orders_frame : ∀ f ∈ t.submissionOrder, f ∉ m.stream.submissionOrder := by
  intro f hf hf'
  rcases hframe.order f hf' with hold | hnew
  · exact hi.orders r q t s hr ht hs f hf hold
  · exact Nat.not_lt_of_le hnew ((hi.order r t ht).lt f hf)

include hout

/-- No command it waits for completes in the step. -/
private theorem out_frame : Machine.OutInv ⟨m.heap, t, p.pcs r⟩ := by
  refine ⟨hout.inj, ?_⟩
  intro id f hf
  obtain ⟨hlt, hid, hnr⟩ := (hi.out r t ht).out id f hf
  refine ⟨Nat.lt_of_lt_of_le hlt hframe.size, (hframe.cmdId f hlt).trans hid, ?_⟩
  by_contra hready
  rw [Bool.not_eq_false] at hready
  rcases hframe.completed f hlt hready with hrd | hmine
  · cases hnr.symm.trans hrd
  · have hown : s.outstanding id = some f := by
      rw [← hid]
      exact hmine
    cases (hi.outs r q t s hr ht hs id f hf).symm.trans hown

/-- The ids of its commands stay out of the other one. -/
private theorem outs_frame :
    ∀ id f, t.outstanding id = some f → m.stream.outstanding id = none := by
  intro id f hf
  by_contra hne
  obtain ⟨g, hg⟩ := Option.ne_none_iff_exists'.mp hne
  obtain ⟨hflt, hfid, -⟩ := (hi.out r t ht).out id f hf
  rcases hframe.out id g hg with hold | hnew
  · cases (hi.outs r q t s hr ht hs id f hf).symm.trans hold
  · obtain ⟨hglt, hgid, -⟩ := hout.out id g hg
    have he := hout.inj f (Nat.lt_of_lt_of_le hflt hframe.size) g hglt
      ((hframe.cmdId f hflt).trans (hfid.trans hgid.symm))
    exact Nat.not_lt_of_le hnew (he ▸ hflt)

end Frame

/-- The Stream at a place takes a step. -/
theorem code {l : Label} {m : Machine} (hi : ProcInv p) (hs : p.get q = some s)
    (hl : Machine.allowed p.heap l = true) (hm : (p.machine q s).step l = some m)
    (hheap : p'.heap = m.heap) (hget : ∀ r, p'.get r = if r = q then some m.stream else p.get r)
    (hpcs : p'.pcs = Function.update p.pcs q m.pc) (hnfds : p'.nfds = p.nfds) : ProcInv p' := by
  have hmove := Machine.move_of_step hm
  have hframe := Machine.frame_of_move (hi.out q s hs) (hi.order q s hs) hmove
  have horder : m.OrderInv := (hi.order q s hs).move hmove
  have hout : m.OutInv := by
    refine (hi.out q s hs).move hmove ?_
    rintro id rfl
    exact Machine.newId_iff.mp hl
  have hcases {r : Place} {t : Stream} (ht : p'.get r = some t) := Proc.get_cases hget ht
  have hpc {r : Place} (hr : r ≠ q) : p'.pcs r = p.pcs r := by
    rw [hpcs, Function.update_of_ne hr]
  have hmach {r : Place} {t : Stream} (hr : r ≠ q) : p'.machine r t = ⟨m.heap, t, p.pcs r⟩ := by
    unfold Proc.machine
    rw [hheap, hpc hr]
  have hmachq : p'.machine q m.stream = m := by
    unfold Proc.machine
    rw [hheap, hpcs, Function.update_self]
  refine ⟨?_, ?_, ?_, ?_, ?_, ?_, ?_, ?_, ?_⟩
  · intro r hr
    rw [hget] at hr
    split at hr
    · cases hr
    · next hrq =>
      rw [hpc hrq]
      exact hi.idle r hr
  · rw [hheap]
    exact hout.inj
  · intro r t ht
    rcases hcases ht with ⟨rfl, rfl⟩ | ⟨hr, ht⟩
    · rw [hmachq]
      exact horder
    · rw [hmach hr]
      exact hi.order_frame hframe ht
  · intro r t ht
    rcases hcases ht with ⟨rfl, rfl⟩ | ⟨hr, ht⟩
    · rw [hmachq]
      exact hout
    · rw [hmach hr]
      exact hi.out_frame hs hframe hout hr ht
  · intro r r' t t' hne ht ht'
    rcases hcases ht with ⟨rfl, rfl⟩ | ⟨hr, ht⟩ <;> rcases hcases ht' with ⟨rfl, rfl⟩ | ⟨hr', ht'⟩
    · exact (hne rfl).elim
    · intro f hf hf'
      exact hi.orders_frame hs hframe hr' ht' f hf' hf
    · exact hi.orders_frame hs hframe hr ht
    · exact hi.orders r r' t t' hne ht ht'
  · intro r r' t t' hne ht ht' id f hf
    rcases hcases ht with ⟨rfl, rfl⟩ | ⟨hr, ht⟩ <;> rcases hcases ht' with ⟨rfl, rfl⟩ | ⟨hr', ht'⟩
    · exact (hne rfl).elim
    · by_contra hsome
      obtain ⟨g, hg⟩ := Option.ne_none_iff_exists'.mp hsome
      rw [hi.outs_frame hs hframe hout hr' ht' id g hg] at hf
      cases hf
    · exact hi.outs_frame hs hframe hout hr ht id f hf
    · exact hi.outs r r' t t' hne ht ht' id f hf
  · intro r r' t t' hne ht ht'
    rcases hcases ht with ⟨rfl, rfl⟩ | ⟨hr, ht⟩ <;> rcases hcases ht' with ⟨rfl, rfl⟩ | ⟨hr', ht'⟩
    · exact (hne rfl).elim
    · rw [hframe.fd]
      exact hi.files r r' s t' hne hs ht'
    · rw [hframe.fd]
      exact hi.files r r' t s hne ht hs
    · exact hi.files r r' t t' hne ht ht'
  · intro r t fd ht hfd
    rw [hnfds]
    rcases hcases ht with ⟨rfl, rfl⟩ | ⟨hr, ht⟩
    · rw [hframe.fd] at hfd
      exact hi.fds r s fd hs hfd
    · exact hi.fds r t fd ht hfd
  · rw [hheap, hnfds]
    intro f hf
    by_cases hlt : f < p.heap.size
    · rw [hframe.issuer f hlt]
      exact hi.issuers f hlt
    · exact hi.fds q s _ hs (hframe.fresh f (Nat.le_of_not_lt hlt) hf).1

end ProcInv

/-- A move: the file and the `outstanding_` of `src` go to `dst`, whose `submission_order_` is
its own or empty; elsewhere a `submission_order_` may be lost too. -/
structure Moved (p p' : Proc) (dst src : Place) (s : Stream) (order : List Fid) : Prop where
  ne : dst ≠ src
  heap : p'.heap = p.heap
  pcs : p'.pcs = p.pcs
  nfds : p'.nfds = p.nfds
  idle : p.pcs dst = .idle ∧ p.pcs src = .idle
  old : p.get src = some s
  own : order = [] ∨ ∃ t, p.get dst = some t ∧ order = t.submissionOrder
  getDst : p'.get dst = some ⟨s.fd, s.outstanding, order⟩
  getSrc : p'.get src = some { s with fd := none, outstanding := fun _ ↦ none }
  rest : ∀ q, q ≠ dst → q ≠ src → p'.get q = p.get q ∨
    ∃ t, p.get q = some t ∧ p.pcs q = .idle ∧ p'.get q = some ⟨t.fd, t.outstanding, []⟩

namespace Moved

variable {p p' : Proc} {dst src q r : Place} {s t t' : Stream} {order : List Fid}

/-- A Stream after the move is as before, or no call of it is under way. -/
theorem keeps (h : Moved p p' dst src s order) (ht : p'.get q = some t') :
    p.get q = some t' ∨ p.pcs q = .idle := by
  by_cases hd : q = dst
  · exact .inr (hd ▸ h.idle.1)
  · by_cases hs : q = src
    · exact .inr (hs ▸ h.idle.2)
    · rcases h.rest q hd hs with he | ⟨t, -, hidle, -⟩
      · exact .inl (he ▸ ht)
      · exact .inr hidle

/-- No `submission_order_` goes anywhere. -/
theorem order_eq (h : Moved p p' dst src s order) (ht : p'.get q = some t') :
    t'.submissionOrder = [] ∨ ∃ t, p.get q = some t ∧ t'.submissionOrder = t.submissionOrder := by
  by_cases hd : q = dst
  · rw [hd, h.getDst] at ht
    cases ht
    rw [hd]
    exact h.own
  · by_cases hs : q = src
    · rw [hs, h.getSrc] at ht
      cases ht
      exact .inr ⟨s, hs ▸ h.old, rfl⟩
    · rcases h.rest q hd hs with he | ⟨t, -, -, he⟩
      · exact .inr ⟨t', he ▸ ht, rfl⟩
      · rw [he] at ht
        cases ht
        exact .inl rfl

/-- A file and what is outstanding on it stay together, and come from one place. -/
theorem file_eq (h : Moved p p' dst src s order) (ht : p'.get q = some t') (hq : q ≠ src) :
    ∃ t, p.get (if q = dst then src else q) = some t ∧ t'.fd = t.fd ∧
      t'.outstanding = t.outstanding := by
  by_cases hd : q = dst
  · rw [hd, h.getDst] at ht
    cases ht
    rw [if_pos hd]
    exact ⟨s, h.old, rfl, rfl⟩
  · rw [if_neg hd]
    rcases h.rest q hd hq with he | ⟨t, hold, -, he⟩
    · exact ⟨t', he ▸ ht, rfl, rfl⟩
    · rw [he] at ht
      cases ht
      exact ⟨t, hold, rfl, rfl⟩

theorem src_eq (h : Moved p p' dst src s order) (ht : p'.get src = some t') :
    t'.fd = none ∧ t'.outstanding = fun _ ↦ none := by
  rw [h.getSrc] at ht
  cases ht
  exact ⟨rfl, rfl⟩

/-- Two places get their files from two places. -/
theorem origin_ne (hne : q ≠ r) (hq : q ≠ src) (hr : r ≠ src) :
    (if q = dst then src else q) ≠ if r = dst then src else r := by
  split
  · next hd =>
    split
    · next hd' => exact (hne (hd.trans hd'.symm)).elim
    · exact Ne.symm hr
  · split
    · exact hq
    · exact hne

/-- A place that was there is still there. -/
theorem get_none (h : Moved p p' dst src s order) (hq : p'.get q = none) : p.get q = none := by
  by_cases hd : q = dst
  · rw [hd, h.getDst] at hq
    cases hq
  · by_cases hs : q = src
    · rw [hs, h.getSrc] at hq
      cases hq
    · rcases h.rest q hd hs with he | ⟨t, -, -, he⟩
      · exact he ▸ hq
      · rw [he] at hq
        cases hq

/-- A move leaves the Streams apart. -/
theorem procInv (h : Moved p p' dst src s order) (hi : ProcInv p) : ProcInv p' := by
  refine ⟨?_, ?_, ?_, ?_, ?_, ?_, ?_, ?_, ?_⟩
  · intro q hq
    rw [h.pcs]
    exact hi.idle q (h.get_none hq)
  · rw [h.heap]
    exact hi.inj
  · intro q t' ht
    unfold Proc.machine
    rw [h.heap, h.pcs]
    rcases h.keeps ht with hold | hidle
    · exact hi.order q t' hold
    · rw [hidle]
      rcases h.order_eq ht with he | ⟨t, hold, he⟩
      · refine ⟨?_, ?_, ?_, nofun, nofun⟩
        · rw [he]
          nofun
        · rw [he]
          exact List.nodup_nil
        · rw [he]
          exact Nat.zero_le _
      · have ho := hi.order q t hold
        refine ⟨?_, ?_, ?_, nofun, nofun⟩
        · rw [he]
          exact ho.lt
        · rw [he]
          exact ho.nodup
        · rw [he]
          exact ho.length
  · intro q t' ht
    unfold Proc.machine
    rw [h.heap]
    refine ⟨hi.inj, ?_⟩
    by_cases hq : q = src
    · rw [(h.src_eq (hq ▸ ht)).2]
      nofun
    · obtain ⟨t, hold, -, he⟩ := h.file_eq ht hq
      rw [he]
      exact (hi.out _ t hold).out
  · intro q r t t' hne ht ht' f hf hf'
    rcases h.order_eq ht with he | ⟨x, hx, he⟩
    · rw [he] at hf
      cases hf
    · rcases h.order_eq ht' with he' | ⟨y, hy, he'⟩
      · rw [he'] at hf'
        cases hf'
      · exact hi.orders q r x y hne hx hy f (he ▸ hf) (he' ▸ hf')
  · intro q r t t' hne ht ht' id f hf
    by_cases hr : r = src
    · rw [(h.src_eq (hr ▸ ht')).2]
    · by_cases hq : q = src
      · rw [(h.src_eq (hq ▸ ht)).2] at hf
        cases hf
      · obtain ⟨x, hx, -, he⟩ := h.file_eq ht hq
        obtain ⟨y, hy, -, he'⟩ := h.file_eq ht' hr
        rw [he']
        rw [he] at hf
        exact hi.outs _ _ x y (origin_ne hne hq hr) hx hy id f hf
  · intro q r t t' hne ht ht' fd hfd
    by_cases hr : r = src
    · rw [(h.src_eq (hr ▸ ht')).1]
      nofun
    · by_cases hq : q = src
      · rw [(h.src_eq (hq ▸ ht)).1] at hfd
        cases hfd
      · obtain ⟨x, hx, he, -⟩ := h.file_eq ht hq
        obtain ⟨y, hy, he', -⟩ := h.file_eq ht' hr
        rw [he']
        rw [he] at hfd
        exact hi.files _ _ x y (origin_ne hne hq hr) hx hy fd hfd
  · intro q t fd ht hfd
    rw [h.nfds]
    by_cases hq : q = src
    · rw [(h.src_eq (hq ▸ ht)).1] at hfd
      cases hfd
    · obtain ⟨x, hx, he, -⟩ := h.file_eq ht hq
      exact hi.fds _ x fd hx (he ▸ hfd)
  · rw [h.heap, h.nfds]
    exact hi.issuers

end Moved

/-! ### The moves of a process -/

private theorem getElem?_append_one {α : Type} (l : List α) (k : Nat) (b : α) :
    (l ++ [b])[k]? = if k = l.length then some b else l[k]? := by
  by_cases hk : k = l.length
  · simp [hk]
  · rw [if_neg hk]
    by_cases hlt : k < l.length
    · exact List.getElem?_append_left hlt
    · have hge := Nat.le_of_not_lt hlt
      rw [List.getElem?_eq_none hge, List.getElem?_eq_none]
      rw [List.length_append, List.length_singleton]
      omega

private theorem getElem?_set_append {α : Type} {l : List α} {i : Nat} (hi : i < l.length) (k : Nat)
    (a b : α) :
    (l.set i a ++ [b])[k]? = if k = l.length then some b else if k = i then some a else l[k]? := by
  rw [getElem?_append_one, List.length_set]
  by_cases he : k = i
  · subst he
    simp [hi]
  · rw [if_neg he, List.getElem?_set_ne (Ne.symm he)]

private theorem getElem?_set_set {α : Type} {l : List α} {i j : Nat} (hi : i < l.length)
    (hj : j < l.length) (k : Nat) (a b : α) :
    ((l.set i a).set j b)[k]? = if k = j then some b else if k = i then some a else l[k]? := by
  by_cases hkj : k = j
  · subst hkj
    simp [hj]
  · rw [if_neg hkj, List.getElem?_set_ne (Ne.symm hkj)]
    by_cases hki : k = i
    · subst hki
      simp [hi]
    · rw [if_neg hki, List.getElem?_set_ne (Ne.symm hki)]

namespace Proc

variable {p p' : Proc} {i j room : Nat}

/-- Move construction of a Stream. -/
theorem moved_moveStream (hi : ProcInv p) (h : p.step (.moveStream i) = some p') :
    ∃ s, p.streams[i]? = some s ∧
      Moved p p' (.stream p.streams.length) (.stream i) s [] ∧
      ∀ q, q ≠ .stream p.streams.length → q ≠ .stream i → p'.get q = p.get q := by
  simp only [step] at h
  split at h
  · next s hs =>
    obtain ⟨hidle, hs'⟩ := Option.ite_none_right_eq_some.mp h
    cases hs'
    have hlt : i < p.streams.length := (List.getElem?_eq_some_iff.mp hs).1
    have hnew : p.get (.stream p.streams.length) = none := List.getElem?_eq_none (Nat.le_refl _)
    have hrest : ∀ q, q ≠ .stream p.streams.length → q ≠ .stream i →
        get { p with streams := p.streams.set i s.moveCtor.2 ++ [s.moveCtor.1] } q = p.get q := by
      rintro (k | k | k) hd hq
      · have hk : k ≠ p.streams.length := fun he ↦ hd (he ▸ rfl)
        have hk' : k ≠ i := fun he ↦ hq (he ▸ rfl)
        simp only [get, getElem?_set_append hlt, if_neg hk, if_neg hk']
      · rfl
      · rfl
    refine ⟨s, hs, ⟨?_, rfl, rfl, rfl, ⟨hi.idle _ hnew, of_decide_eq_true hidle⟩, hs, .inl rfl, ?_,
      ?_, fun q hd hq ↦ .inl (hrest q hd hq)⟩, hrest⟩
    · intro he
      cases he
      exact Nat.lt_irrefl _ hlt
    · simp only [get, getElem?_set_append hlt, if_pos]
      rfl
    · simp only [get, getElem?_set_append hlt, if_neg (Nat.ne_of_lt hlt), if_pos]
      rfl
  · cases h

/-- Move construction of a Context. -/
theorem moved_moveContext (hi : ProcInv p) (h : p.step (.moveContext i) = some p') :
    ∃ c, p.contexts[i]? = some c ∧
      Moved p p' (.context p.contexts.length) (.context i) c.stream [] ∧
      ∀ q, q ≠ .context p.contexts.length → q ≠ .context i → p'.get q = p.get q := by
  simp only [step] at h
  split at h
  · next c hc =>
    obtain ⟨hidle, hs'⟩ := Option.ite_none_right_eq_some.mp h
    cases hs'
    have hlt : i < p.contexts.length := (List.getElem?_eq_some_iff.mp hc).1
    have hnew : p.get (.context p.contexts.length) = none := by simp [get]
    have hrest : ∀ q, q ≠ .context p.contexts.length → q ≠ .context i →
        get { p with contexts := p.contexts.set i c.moveCtor.2 ++ [c.moveCtor.1] } q =
          p.get q := by
      rintro (k | k | k) hd hq
      · rfl
      · have hk : k ≠ p.contexts.length := fun he ↦ hd (he ▸ rfl)
        have hk' : k ≠ i := fun he ↦ hq (he ▸ rfl)
        simp only [get, getElem?_set_append hlt, if_neg hk, if_neg hk']
      · rfl
    refine ⟨c, hc, ⟨?_, rfl, rfl, rfl, ⟨hi.idle _ hnew, of_decide_eq_true hidle⟩, ?_, .inl rfl, ?_,
      ?_, fun q hd hq ↦ .inl (hrest q hd hq)⟩, hrest⟩
    · intro he
      cases he
      exact Nat.lt_irrefl _ hlt
    · simp [get, hc]
    · simp only [get, getElem?_set_append hlt, if_pos]
      rfl
    · simp only [get, getElem?_set_append hlt, if_neg (Nat.ne_of_lt hlt), if_pos]
      rfl
  · cases h

/-- Move assignment of two different Streams. -/
theorem moved_assignStream (hij : i ≠ j) (h : p.step (.assignStream i j) = some p') :
    ∃ this other, p.streams[i]? = some this ∧ p.streams[j]? = some other ∧
      Moved p p' (.stream i) (.stream j) other this.submissionOrder ∧
      ∀ q, q ≠ .stream i → q ≠ .stream j → p'.get q = p.get q := by
  simp only [step] at h
  split at h
  · next this other hthis hother =>
    obtain ⟨hidle, hs'⟩ := Option.ite_none_right_eq_some.mp h
    rw [if_neg hij] at hs'
    cases hs'
    rw [Bool.and_eq_true] at hidle
    have hlt : i < p.streams.length := (List.getElem?_eq_some_iff.mp hthis).1
    have hlt' : j < p.streams.length := (List.getElem?_eq_some_iff.mp hother).1
    have hrest : ∀ q, q ≠ .stream i → q ≠ .stream j →
        get { p with
          streams := (p.streams.set i (this.moveAssign other).1).set j
            (this.moveAssign other).2 } q = p.get q := by
      rintro (k | k | k) hd hq
      · have hk : k ≠ i := fun he ↦ hd (he ▸ rfl)
        have hk' : k ≠ j := fun he ↦ hq (he ▸ rfl)
        simp only [get, getElem?_set_set hlt hlt', if_neg hk, if_neg hk']
      · rfl
      · rfl
    refine ⟨this, other, hthis, hother, ⟨?_, rfl, rfl, rfl, ⟨of_decide_eq_true hidle.1,
      of_decide_eq_true hidle.2⟩, hother, .inr ⟨this, hthis, rfl⟩, ?_, ?_,
      fun q hd hq ↦ .inl (hrest q hd hq)⟩, hrest⟩
    · intro he
      cases he
      exact hij rfl
    · simp only [get, getElem?_set_set hlt hlt', if_neg hij, if_pos]
      rfl
    · simp only [get, getElem?_set_set hlt hlt', if_pos]
      rfl
  · cases h

/-- Move assignment of two different Contexts. -/
theorem moved_assignContext (hij : i ≠ j) (h : p.step (.assignContext i j) = some p') :
    ∃ this other, p.contexts[i]? = some this ∧ p.contexts[j]? = some other ∧
      Moved p p' (.context i) (.context j) other.stream this.stream.submissionOrder ∧
      ∀ q, q ≠ .context i → q ≠ .context j → p'.get q = p.get q := by
  simp only [step] at h
  split at h
  · next this other hthis hother =>
    obtain ⟨hidle, hs'⟩ := Option.ite_none_right_eq_some.mp h
    rw [if_neg hij] at hs'
    cases hs'
    rw [Bool.and_eq_true] at hidle
    have hlt : i < p.contexts.length := (List.getElem?_eq_some_iff.mp hthis).1
    have hlt' : j < p.contexts.length := (List.getElem?_eq_some_iff.mp hother).1
    have hrest : ∀ q, q ≠ .context i → q ≠ .context j →
        get { p with
          contexts := (p.contexts.set i (this.moveAssign other).1).set j
            (this.moveAssign other).2 } q = p.get q := by
      rintro (k | k | k) hd hq
      · rfl
      · have hk : k ≠ i := fun he ↦ hd (he ▸ rfl)
        have hk' : k ≠ j := fun he ↦ hq (he ▸ rfl)
        simp only [get, getElem?_set_set hlt hlt', if_neg hk, if_neg hk']
      · rfl
    have hgetThis : p.get (.context i) = some this.stream := by simp [get, hthis]
    have hgetOther : p.get (.context j) = some other.stream := by simp [get, hother]
    refine ⟨this, other, hthis, hother, ⟨?_, rfl, rfl, rfl, ⟨of_decide_eq_true hidle.1,
      of_decide_eq_true hidle.2⟩, hgetOther, .inr ⟨this.stream, hgetThis, rfl⟩, ?_, ?_,
      fun q hd hq ↦ .inl (hrest q hd hq)⟩, hrest⟩
    · intro he
      cases he
      exact hij rfl
    · simp only [get, getElem?_set_set hlt hlt', if_neg hij, if_pos]
      rfl
    · simp only [get, getElem?_set_set hlt hlt', if_pos]
      rfl
  · cases h

/-- What becomes of the entries of a Scheduler. -/
theorem getElem?_addContext (s : Scheduler) (c : Context) (room k : Nat) :
    (s.addContext c room).entries[k]? =
      if k = s.entries.length then some (.ofContext c.moveCtor.1)
      else if s.entries.length < s.capacity then s.entries[k]?
      else s.entries[k]?.map Entry.moveCtor := by
  unfold Scheduler.addContext
  by_cases hcap : s.entries.length < s.capacity
  · rw [if_pos hcap, if_pos hcap]
    exact getElem?_append_one _ _ _
  · rw [if_neg hcap, if_neg hcap]
    dsimp only
    rw [getElem?_append_one, List.length_map, List.getElem?_map]

/-- A Context goes to the Scheduler, whose other entries may move. -/
theorem moved_addContext (hi : ProcInv p) (h : p.step (.addContext i room) = some p') :
    ∃ c, p.contexts[i]? = some c ∧
      Moved p p' (.entry p.scheduler.entries.length) (.context i) c.stream [] ∧
      ∀ q, q ≠ .entry p.scheduler.entries.length → q ≠ .context i →
        p'.get q = p.get q ∨ ¬p.scheduler.entries.length < p.scheduler.capacity ∧
          ∃ k, q = .entry k := by
  simp only [step] at h
  split at h
  · next c hc =>
    obtain ⟨hidle, hs'⟩ := Option.ite_none_right_eq_some.mp h
    cases hs'
    simp only [Bool.and_eq_true, Bool.or_eq_true, decide_eq_true_eq, List.all_eq_true,
      List.mem_range] at hidle
    have hlt : i < p.contexts.length := (List.getElem?_eq_some_iff.mp hc).1
    have hnew : p.get (.entry p.scheduler.entries.length) = none := by simp [get]
    have hcontext (k : Nat) (hk : k ≠ i) :
        (p.contexts.set i c.moveCtor.2)[k]? = p.contexts[k]? := List.getElem?_set_ne (Ne.symm hk)
    have hrest : ∀ q, q ≠ .entry p.scheduler.entries.length → q ≠ .context i →
        get { p with
          contexts := p.contexts.set i c.moveCtor.2
          scheduler := p.scheduler.addContext c room } q = p.get q ∨
          ¬p.scheduler.entries.length < p.scheduler.capacity ∧ ∃ k, q = .entry k := by
      rintro (k | k | k) hd hq
      · exact .inl rfl
      · left
        simp only [get, hcontext k fun he ↦ hq (he ▸ rfl)]
      · have hk : k ≠ p.scheduler.entries.length := fun he ↦ hd (he ▸ rfl)
        by_cases hcap : p.scheduler.entries.length < p.scheduler.capacity
        · left
          simp only [get, getElem?_addContext, if_neg hk, if_pos hcap]
        · exact .inr ⟨hcap, k, rfl⟩
    refine ⟨c, hc, ⟨nofun, rfl, rfl, rfl, ⟨hi.idle _ hnew, of_decide_eq_true hidle.1⟩, ?_, .inl rfl,
      ?_, ?_, ?_⟩, hrest⟩
    · simp [get, hc]
    · simp only [get, getElem?_addContext, if_pos]
      rfl
    · simp only [get, List.getElem?_set_self hlt]
      rfl
    · intro q hd hq
      -- the entries that a full Scheduler moves are the only others that change
      rcases hrest q hd hq with he | ⟨hcap, k, rfl⟩
      · exact .inl he
      · have hk : k ≠ p.scheduler.entries.length := fun he ↦ hd (he ▸ rfl)
        cases he : p.scheduler.entries[k]? with
        | none =>
          left
          simp only [get, getElem?_addContext, if_neg hk, if_neg hcap, he]
          rfl
        | some e =>
          right
          refine ⟨e.ctx.stream, ?_, ?_, ?_⟩
          · simp [get, he]
          · have hkl := (List.getElem?_eq_some_iff.mp he).1
            exact of_decide_eq_true ((hidle.2.resolve_left hcap) k hkl)
          · simp only [get, getElem?_addContext, if_neg hk, if_neg hcap, he]
            rfl
  · cases h

end Proc

/-- What a step of a process can do. -/
inductive Change (p : Proc) (a : Proc.Act) (p' : Proc) : Prop where
  | same : p'.heap = p.heap → p'.pcs = p.pcs → p'.nfds = p.nfds → (∀ q, p'.get q = p.get q) →
      Change p a p'
  | opened (q : Place) : p'.heap = p.heap → p'.pcs = p.pcs → p'.nfds = p.nfds + 1 →
      p.get q = none → (∀ r, p'.get r = if r = q then some (.opened p.nfds) else p.get r) →
      Change p a p'
  | moved (dst src : Place) (s : Stream) (order : List Fid) : Moved p p' dst src s order →
      (p.MovesClear a → (p.resting s).Clear ∧
        (p.resting ⟨s.fd, s.outstanding, order⟩).Clear ∧
        ∀ q t, q ≠ dst → q ≠ src → p.get q = some t → p'.get q = p.get q ∨ (p.resting t).Clear) →
      Change p a p'
  | code (q : Place) (s : Stream) (l : Label) (m : Machine) : p.get q = some s →
      Machine.allowed p.heap l = true → (p.machine q s).step l = some m → p'.heap = m.heap →
      p'.pcs = Function.update p.pcs q m.pc → p'.nfds = p.nfds →
      (∀ r, p'.get r = if r = q then some m.stream else p.get r) → Change p a p'

namespace Proc

variable {p p' : Proc} {a : Act}

/-- A Stream that records nothing holds nothing up. -/
theorem clear_nil (p : Proc) (fd : Option Fd) (out : Nat → Option Fid) :
    (p.resting ⟨fd, out, []⟩).Clear := by
  unfold Machine.Clear
  cases fd with
  | none =>
    intro f hf
    cases hf
  | some fd =>
    intro f hf
    cases hf

/-- Every step is one of the listed changes. -/
theorem change_of_step (hi : ProcInv p) (h : p.step a = some p') : Change p a p' := by
  cases a with
  | openStream =>
    cases h
    refine .opened (.stream p.streams.length) rfl rfl rfl ?_ ?_
    · exact List.getElem?_eq_none (Nat.le_refl _)
    · rintro (k | k | k)
      · simp only [get, getElem?_append_one, Place.stream.injEq]
      · rfl
      · rfl
  | openContext name =>
    cases h
    refine .opened (.context p.contexts.length) rfl rfl rfl ?_ ?_
    · simp [get]
    · rintro (k | k | k)
      · rfl
      · simp only [get, getElem?_append_one, Place.context.injEq]
        split
        · rfl
        · rfl
      · rfl
  | moveStream i =>
    obtain ⟨s, hs, hm, hrest⟩ := moved_moveStream hi h
    refine .moved _ _ s [] hm fun hc ↦ ⟨hc s hs, clear_nil p _ _, ?_⟩
    exact fun q t hd hq _ ↦ .inl (hrest q hd hq)
  | moveContext i =>
    obtain ⟨c, hc, hm, hrest⟩ := moved_moveContext hi h
    refine .moved _ _ c.stream [] hm fun hcl ↦ ⟨hcl c hc, clear_nil p _ _, ?_⟩
    exact fun q t hd hq _ ↦ .inl (hrest q hd hq)
  | assignStream i j =>
    by_cases hij : i = j
    · simp only [step] at h
      split at h
      · obtain ⟨-, hs⟩ := Option.ite_none_right_eq_some.mp h
        rw [if_pos hij] at hs
        cases hs
        exact .same rfl rfl rfl fun _ ↦ rfl
      · cases h
    · obtain ⟨this, other, hthis, hother, hm, hrest⟩ := moved_assignStream hij h
      refine .moved _ _ other _ hm fun hc ↦ ?_
      obtain ⟨hcl, hcl'⟩ := hc hij this other hthis hother
      exact ⟨hcl, hcl', fun q t hd hq _ ↦ .inl (hrest q hd hq)⟩
  | assignContext i j =>
    by_cases hij : i = j
    · simp only [step] at h
      split at h
      · obtain ⟨-, hs⟩ := Option.ite_none_right_eq_some.mp h
        rw [if_pos hij] at hs
        cases hs
        exact .same rfl rfl rfl fun _ ↦ rfl
      · cases h
    · obtain ⟨this, other, hthis, hother, hm, hrest⟩ := moved_assignContext hij h
      refine .moved _ _ other.stream _ hm fun hc ↦ ?_
      obtain ⟨hcl, hcl'⟩ := hc hij this other hthis hother
      exact ⟨hcl, hcl', fun q t hd hq _ ↦ .inl (hrest q hd hq)⟩
  | addContext i room =>
    obtain ⟨c, hc, hm, hrest⟩ := moved_addContext hi h
    refine .moved _ _ c.stream [] hm fun hcl ↦ ⟨hcl.1 c hc, clear_nil p _ _, ?_⟩
    intro q t hd hq ht
    rcases hrest q hd hq with he | ⟨hcap, k, rfl⟩
    · exact .inl he
    · obtain ⟨e, he, rfl⟩ := Option.map_eq_some_iff.mp ht
      exact .inr (hcl.2.resolve_left hcap e (List.mem_of_getElem? he))
  | allocBuffer i bufferId =>
    cases h
    refine .same rfl rfl rfl ?_
    rintro (k | k | k)
    · rfl
    · simp only [get, List.getElem?_modify]
      cases p.contexts[k]? with
      | none => rfl
      | some c => split <;> rfl
    · rfl
  | enqueueCopy k req =>
    cases h
    refine .same rfl rfl rfl ?_
    rintro (n | n | n)
    · rfl
    · rfl
    · simp only [get, Scheduler.enqueueCopy, List.getElem?_modify]
      cases p.scheduler.entries[n]? with
      | none => rfl
      | some e => split <;> rfl
  | code q l =>
    simp only [step] at h
    split at h
    · next s hs =>
      obtain ⟨hl, hmap⟩ := Option.ite_none_right_eq_some.mp h
      obtain ⟨m, hm, rfl⟩ := Option.map_eq_some_iff.mp hmap
      refine .code q s l m hs hl hm rfl rfl ?_ ?_
      · cases q <;> rfl
      · intro r
        exact get_put hs
    · cases h

end Proc

namespace ProcInv

variable {p p' : Proc} {a : Proc.Act} {q : Place}

/-- A file is opened. -/
theorem opened (hi : ProcInv p) (hheap : p'.heap = p.heap) (hpcs : p'.pcs = p.pcs)
    (hnfds : p'.nfds = p.nfds + 1) (hnone : p.get q = none)
    (hget : ∀ r, p'.get r = if r = q then some (.opened p.nfds) else p.get r) : ProcInv p' := by
  have hcases {r : Place} {t : Stream} (ht : p'.get r = some t) := Proc.get_cases hget ht
  have hlt (r : Place) (t : Stream) (ht : p.get r = some t) : t.fd ≠ some p.nfds := by
    intro hfd
    exact Nat.lt_irrefl _ (hi.fds r t p.nfds ht hfd)
  refine ⟨?_, ?_, ?_, ?_, ?_, ?_, ?_, ?_, ?_⟩
  · intro r hr
    rw [hget] at hr
    split at hr
    · cases hr
    · rw [hpcs]
      exact hi.idle r hr
  · rw [hheap]
    exact hi.inj
  · intro r t ht
    unfold Proc.machine
    rw [hheap, hpcs]
    rcases hcases ht with ⟨rfl, rfl⟩ | ⟨-, ht⟩
    · rw [hi.idle r hnone]
      exact .opened _ _
    · exact hi.order r t ht
  · intro r t ht
    unfold Proc.machine
    rw [hheap, hpcs]
    rcases hcases ht with ⟨rfl, rfl⟩ | ⟨-, ht⟩
    · exact ⟨hi.inj, nofun⟩
    · exact hi.out r t ht
  · intro r r' t t' hne ht ht' f hf hf'
    rcases hcases ht with ⟨-, rfl⟩ | ⟨-, ht⟩
    · cases hf
    · rcases hcases ht' with ⟨-, rfl⟩ | ⟨-, ht'⟩
      · cases hf'
      · exact hi.orders r r' t t' hne ht ht' f hf hf'
  · intro r r' t t' hne ht ht' id f hf
    rcases hcases ht with ⟨-, rfl⟩ | ⟨-, ht⟩
    · cases hf
    · rcases hcases ht' with ⟨-, rfl⟩ | ⟨-, ht'⟩
      · rfl
      · exact hi.outs r r' t t' hne ht ht' id f hf
  · intro r r' t t' hne ht ht' fd hfd
    rcases hcases ht with ⟨rfl, rfl⟩ | ⟨hr, ht⟩ <;> rcases hcases ht' with ⟨rfl, rfl⟩ | ⟨hr', ht'⟩
    · exact (hne rfl).elim
    · cases hfd
      exact hlt r' t' ht'
    · rintro ⟨⟩
      exact hlt r t ht hfd
    · exact hi.files r r' t t' hne ht ht' fd hfd
  · intro r t fd ht hfd
    rw [hnfds]
    rcases hcases ht with ⟨-, rfl⟩ | ⟨-, ht⟩
    · cases hfd
      exact Nat.lt_succ_self _
    · exact Nat.lt_succ_of_lt (hi.fds r t fd ht hfd)
  · rw [hheap, hnfds]
    exact fun f hf ↦ Nat.lt_succ_of_lt (hi.issuers f hf)

/-- Every step leaves the Streams apart. -/
theorem step (hi : ProcInv p) (h : p.step a = some p') : ProcInv p' := by
  cases Proc.change_of_step hi h with
  | same hheap hpcs hnfds hget =>
    have hmach (q : Place) (s : Stream) : p'.machine q s = p.machine q s := by
      unfold Proc.machine
      rw [hheap, hpcs]
    refine ⟨?_, ?_, ?_, ?_, ?_, ?_, ?_, ?_, ?_⟩
    · simpa only [hget, hpcs] using hi.idle
    · simpa only [hheap] using hi.inj
    · simpa only [hget, hmach] using hi.order
    · simpa only [hget, hmach] using hi.out
    · simpa only [hget] using hi.orders
    · simpa only [hget] using hi.outs
    · simpa only [hget] using hi.files
    · simpa only [hget, hnfds] using hi.fds
    · simpa only [hheap, hnfds] using hi.issuers
  | opened q hheap hpcs hnfds hnone hget => exact hi.opened hheap hpcs hnfds hnone hget
  | moved dst src s order hm hc => exact hm.procInv hi
  | code q s l m hs hl hm hheap hpcs hnfds hget =>
    exact hi.code hs hl hm hheap hget hpcs hnfds

/-- A process that has done nothing. -/
theorem init : ProcInv .init := by
  refine ⟨fun _ _ ↦ rfl, nofun, ?_, ?_, ?_, ?_, ?_, ?_, nofun⟩
  · exact fun q s hs ↦ (Proc.get_init_ne hs).elim
  · exact fun q s hs ↦ (Proc.get_init_ne hs).elim
  · exact fun q r s t _ hs ↦ (Proc.get_init_ne hs).elim
  · exact fun q r s t _ hs ↦ (Proc.get_init_ne hs).elim
  · exact fun q r s t _ hs ↦ (Proc.get_init_ne hs).elim
  · exact fun q s fd hs ↦ (Proc.get_init_ne hs).elim

end ProcInv

/-- The Streams of a process stay apart along every run. -/
theorem procInv {ok : Proc → Proc.Act → Prop} {p : Proc} (h : Reach Proc.step ok .init p) :
    ProcInv p :=
  h.invariant .init fun _ _ _ _ hi _ hs ↦ hi.step hs

end DmaAccel.Runtime
