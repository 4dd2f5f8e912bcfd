import DmaAccel.Runtime.Request
import DmaAccel.Runtime.Sharing

/-!
# Moving a Stream

Source `track-a/dma_accel_runtime.cpp`: `Stream(Stream &&)` and `operator=` (101–115), which
leave `submission_order_` where it is, as used by `track-b/dma_accel_context.cpp` (13–25) and
by `Scheduler::add_context` (`track-b/dma_accel_scheduler.cpp`, 16–19) for every entry of a
vector that grows. The new Stream forgets the commands of the old one, and one that is assigned
to remembers commands of the file it has closed.
-/

namespace DmaAccel.Runtime

open DmaAccel.Base
open DmaAccel.Driver (SubmitReq queueDepth)

/-- Every Stream knows the commands of its own file that are not ready, and is held up by none
of another. -/
structure SafeInv (p : Proc) : Prop where
  tracked : ∀ q s fd, p.get q = some s → s.fd = some fd → ∀ f < p.heap.size,
    p.heap.issuer f = fd → (p.heap.fences f).ready = false → f ∈ s.submissionOrder
  own : ∀ q s fd, p.get q = some s → s.fd = some fd → ∀ f ∈ s.submissionOrder,
    (p.heap.fences f).ready = false → p.heap.issuer f = fd
  closed : ∀ q s, p.get q = some s → s.fd = none → (p.resting s).Free
  waits : ∀ q s req f, p.get q = some s → (p.pcs q).cont = some (.throttle req f) →
    s.fd = some (p.heap.issuer f)

namespace SafeInv

variable {p p' : Proc} {a : Proc.Act} {q : Place} {s : Stream}

/-- Without a file nothing is read or submitted, and a wait only shortens what is recorded. -/
private theorem closed_code {l : Label} {m : Machine} (hsafe : SafeInv p) (hi : ProcInv p)
    (hs : p.get q = some s) (h : (p.machine q s).Move l m) (hfd : s.fd = none) :
    Machine.Free ⟨m.heap, m.stream, .idle⟩ := by
  cases h with
  | goto _ pc _ _ => exact hsafe.closed q s hs hfd
  | evict _ req f hr hf =>
    obtain ⟨rest, hrest, hlt⟩ := (hi.order q s hs).evicted hf
    intro g hg
    obtain ⟨hle, -⟩ := Machine.oldest_eq_some hg
    change queueDepth ≤ (p.machine q s).stream.submissionOrder.tail.length at hle
    rw [hrest] at hle
    exact (Nat.not_lt_of_le hle hlt).elim
  | deliver batch c pc hpc hsome hcont =>
    rw [show (p.machine q s).stream.fd = none from hfd] at hsome
    cases hsome
  | track req fd cmdId hpc hsome => cases hsome.symm.trans hfd

/-- A Stream that waits in `submit` after a step waited there before, or begins to wait for a
command it has recorded. -/
private theorem waits_code {l : Label} {m : Machine} {req : SubmitReq} {f : Fid}
    (hsafe : SafeInv p) (hs : p.get q = some s) (h : (p.machine q s).Move l m)
    (hf : m.pc.cont = some (.throttle req f)) :
    ((p.pcs q).cont = some (.throttle req f) ∧ s.fd = some (p.heap.issuer f)) ∨
      f ∈ s.submissionOrder ∧ s.fd = some (p.heap.issuer f) := by
  cases h with
  | goto _ pc _ hcont =>
    rcases hcont req f hf with hf | ⟨ho, hr⟩
    · exact .inl ⟨hf, hsafe.waits q s req f hs hf⟩
    · have hmem : f ∈ s.submissionOrder := Machine.mem_of_oldest ho
      refine .inr ⟨hmem, ?_⟩
      cases hfd : s.fd with
      | none => exact Bool.noConfusion (hr.symm.trans (hsafe.closed q s hs hfd f ho))
      | some fd => exact congrArg some (hsafe.own q s fd hs hfd f hmem hr).symm
  | evict => cases hf
  | deliver batch c pc hpc _ hcont =>
    have hold : (p.pcs q).cont = some (.throttle req f) := by
      rw [show p.pcs q = .read c from hpc, ← hf]
      exact hcont.symm
    exact .inl ⟨hold, hsafe.waits q s req f hs hold⟩
  | track => cases hf

/-- The Stream at a place takes a step. -/
theorem code {l : Label} {m : Machine} (hsafe : SafeInv p) (hi : ProcInv p)
    (hs : p.get q = some s) (hm : (p.machine q s).step l = some m)
    (horder : m.OrderInv)
    (hheap : p'.heap = m.heap) (hget : ∀ r, p'.get r = if r = q then some m.stream else p.get r)
    (hpcs : p'.pcs = Function.update p.pcs q m.pc) : SafeInv p' := by
  have hmove := Machine.move_of_step hm
  have hframe := Machine.frame_of_move (hi.out q s hs) (hi.order q s hs) hmove
  have hcases {r : Place} {t : Stream} (ht : p'.get r = some t) := Proc.get_cases hget ht
  -- what is not ready afterwards was not ready before
  have hnot {f : Fid} (hf : f < p.heap.size) (hr : (m.heap.fences f).ready = false) :
      (p.heap.fences f).ready = false := by
    by_contra hb
    rw [Bool.not_eq_false] at hb
    exact Bool.noConfusion (hr.symm.trans (hframe.ready f hf hb))
  have hfront {r : Place} {t : Stream} {req : SubmitReq} {f : Fid} (ht : p.get r = some t)
      (hf : (p.pcs r).cont = some (.throttle req f)) : f < p.heap.size :=
    (hi.order r t ht).lt f (Machine.mem_of_oldest ((hi.order r t ht).front req f hf))
  refine ⟨?_, ?_, ?_, ?_⟩
  · rw [hheap]
    intro r t fd ht hfd f hf hiss hr
    rcases hcases ht with ⟨rfl, rfl⟩ | ⟨hne, ht⟩
    · by_cases hlt : f < p.heap.size
      · rw [hframe.issuer f hlt] at hiss
        rw [hframe.fd] at hfd
        exact hframe.kept f (hsafe.tracked r s fd hs hfd f hlt hiss (hnot hlt hr)) (hnot hlt hr)
      · exact (hframe.fresh f (Nat.le_of_not_lt hlt) hf).2
    · by_cases hlt : f < p.heap.size
      · rw [hframe.issuer f hlt] at hiss
        exact hsafe.tracked r t fd ht hfd f hlt hiss (hnot hlt hr)
      · have hnew := (hframe.fresh f (Nat.le_of_not_lt hlt) hf).1
        rw [hiss] at hnew
        exact (hi.files r q t s hne ht hs fd hfd hnew).elim
  · rw [hheap]
    intro r t fd ht hfd f hf hr
    rcases hcases ht with ⟨rfl, rfl⟩ | ⟨-, ht⟩
    · rw [hframe.fd] at hfd
      by_cases hlt : f < p.heap.size
      · rw [hframe.issuer f hlt]
        have hold := (hframe.order f hf).resolve_right (Nat.not_le.mpr hlt)
        exact hsafe.own r s fd hs hfd f hold (hnot hlt hr)
      · have hnew := (hframe.fresh f (Nat.le_of_not_lt hlt) (horder.lt f hf)).1
        exact Option.some.inj (hnew.symm.trans hfd)
    · have hlt := (hi.order r t ht).lt f hf
      rw [hframe.issuer f hlt]
      exact hsafe.own r t fd ht hfd f hf (hnot hlt hr)
  · intro r t ht hfd
    unfold Proc.resting
    rw [hheap]
    rcases hcases ht with ⟨rfl, rfl⟩ | ⟨-, ht⟩
    · rw [hframe.fd] at hfd
      exact hsafe.closed_code hi hs hmove hfd
    · intro f hf
      have hlt := (hi.order r t ht).lt f (Machine.mem_of_oldest hf)
      exact hframe.ready f hlt (hsafe.closed r t ht hfd f hf)
  · rw [hheap, hpcs]
    intro r t req f ht hf
    rcases hcases ht with ⟨rfl, rfl⟩ | ⟨hne, ht⟩
    · rw [Function.update_self] at hf
      rw [hframe.fd]
      rcases hsafe.waits_code hs hmove hf with ⟨hold, hfd⟩ | ⟨hmem, hfd⟩
      · rw [hframe.issuer f (hfront hs hold)]
        exact hfd
      · rw [hframe.issuer f ((hi.order r s hs).lt f hmem)]
        exact hfd
    · rw [Function.update_of_ne hne] at hf
      rw [hframe.issuer f (hfront ht hf)]
      exact hsafe.waits r t req f ht hf

/-- A file is opened. -/
theorem opened (hsafe : SafeInv p) (hi : ProcInv p) (hheap : p'.heap = p.heap)
    (hpcs : p'.pcs = p.pcs) (hnone : p.get q = none)
    (hget : ∀ r, p'.get r = if r = q then some (.opened p.nfds) else p.get r) : SafeInv p' := by
  have hcases {r : Place} {t : Stream} (ht : p'.get r = some t) := Proc.get_cases hget ht
  refine ⟨?_, ?_, ?_, ?_⟩
  · rw [hheap]
    intro r t fd ht hfd f hf hiss hr
    rcases hcases ht with ⟨-, rfl⟩ | ⟨-, ht⟩
    · cases hfd
      exact (Nat.ne_of_lt (hi.issuers f hf) hiss).elim
    · exact hsafe.tracked r t fd ht hfd f hf hiss hr
  · rw [hheap]
    intro r t fd ht hfd f hf hr
    rcases hcases ht with ⟨-, rfl⟩ | ⟨-, ht⟩
    · cases hf
    · exact hsafe.own r t fd ht hfd f hf hr
  · intro r t ht hfd
    unfold Proc.resting
    rw [hheap]
    rcases hcases ht with ⟨-, rfl⟩ | ⟨-, ht⟩
    · cases hfd
    · exact hsafe.closed r t ht hfd
  · rw [hheap, hpcs]
    intro r t req f ht hf
    rcases hcases ht with ⟨rfl, rfl⟩ | ⟨-, ht⟩
    · rw [hi.idle r hnone] at hf
      cases hf
    · exact hsafe.waits r t req f ht hf

/-- Nothing is lost where nothing that is moved could hold a submission up. -/
theorem moved {dst src : Place} {order : List Fid} (hsafe : SafeInv p)
    (hm : Moved p p' dst src s order) (hs : (p.resting s).Clear)
    (hd : (p.resting ⟨s.fd, s.outstanding, order⟩).Clear)
    (hrest : ∀ q t, q ≠ dst → q ≠ src → p.get q = some t →
      p'.get q = p.get q ∨ (p.resting t).Clear) : SafeInv p' := by
  have hcases {q : Place} {t' : Stream} (ht : p'.get q = some t') :
      p.get q = some t' ∨ p.pcs q = .idle ∧
        (q = dst ∧ t' = ⟨s.fd, s.outstanding, order⟩ ∨
          t' = { s with fd := none, outstanding := fun _ ↦ none } ∨
          ∃ t, p.get q = some t ∧ (p.resting t).Clear ∧ t' = ⟨t.fd, t.outstanding, []⟩) := by
    by_cases hqd : q = dst
    · rw [hqd, hm.getDst] at ht
      exact .inr ⟨hqd ▸ hm.idle.1, .inl ⟨hqd, (Option.some.inj ht).symm⟩⟩
    · by_cases hqs : q = src
      · rw [hqs, hm.getSrc] at ht
        exact .inr ⟨hqs ▸ hm.idle.2, .inr (.inl (Option.some.inj ht).symm)⟩
      · rcases hm.rest q hqd hqs with he | ⟨t, hold, hidle, hnew⟩
        · exact .inl (he ▸ ht)
        · rcases hrest q t hqd hqs hold with he | hc
          · exact .inl (he ▸ ht)
          · rw [hnew] at ht
            exact .inr ⟨hidle, .inr (.inr ⟨t, hold, hc, (Option.some.inj ht).symm⟩)⟩
  refine ⟨?_, ?_, ?_, ?_⟩
  · rw [hm.heap]
    intro q t' fd ht hfd f hf hiss hr
    rcases hcases ht with hold | ⟨-, ⟨-, rfl⟩ | rfl | ⟨t, hold, hc, rfl⟩⟩
    · exact hsafe.tracked q t' fd hold hfd f hf hiss hr
    · have hmem := hsafe.tracked src s fd hm.old hfd f hf hiss hr
      exact Bool.noConfusion (hr.symm.trans (hs.ready hfd f hmem))
    · cases hfd
    · have hmem := hsafe.tracked q t fd hold hfd f hf hiss hr
      exact Bool.noConfusion (hr.symm.trans (hc.ready hfd f hmem))
  · rw [hm.heap]
    intro q t' fd ht hfd f hf hr
    rcases hcases ht with hold | ⟨-, ⟨-, rfl⟩ | rfl | ⟨t, hold, hc, rfl⟩⟩
    · exact hsafe.own q t' fd hold hfd f hf hr
    · exact Bool.noConfusion (hr.symm.trans (hd.ready hfd f hf))
    · cases hfd
    · cases hf
  · intro q t' ht hfd
    unfold Proc.resting
    rw [hm.heap]
    rcases hcases ht with hold | ⟨-, ⟨-, rfl⟩ | rfl | ⟨t, hold, hc, rfl⟩⟩
    · exact hsafe.closed q t' hold hfd
    · exact hd.free
    · have hold := hs.free
      exact hold
    · intro f hf
      cases hf
  · rw [hm.heap, hm.pcs]
    intro q t' req f ht hf
    rcases hcases ht with hold | ⟨hidle, -⟩
    · exact hsafe.waits q t' req f hold hf
    · rw [hidle] at hf
      cases hf

/-- Every step whose moves lose nothing. -/
theorem step (hsafe : SafeInv p) (hi : ProcInv p) (h : p.step a = some p')
    (hc : p.MovesClear a) : SafeInv p' := by
  have hi' := hi.step h
  cases Proc.change_of_step hi h with
  | same hheap hpcs hnfds hget =>
    have hrest (s : Stream) : p'.resting s = p.resting s := by
      unfold Proc.resting
      rw [hheap]
    refine ⟨?_, ?_, ?_, ?_⟩
    · simpa only [hget, hheap] using hsafe.tracked
    · simpa only [hget, hheap] using hsafe.own
    · simpa only [hget, hrest] using hsafe.closed
    · simpa only [hget, hheap, hpcs] using hsafe.waits
  | opened q hheap hpcs hnfds hnone hget => exact hsafe.opened hi hheap hpcs hnone hget
  | moved dst src s order hm hclear =>
    obtain ⟨hs, hd, hrest⟩ := hclear hc
    exact hsafe.moved hm hs hd hrest
  | code q s l m hs hl hm hheap hpcs hnfds hget =>
    exact hsafe.code hi hs hm ((hi.order q s hs).move (Machine.move_of_step hm)) hheap hget hpcs

/-- A process that has done nothing. -/
theorem init : SafeInv .init := by
  refine ⟨?_, ?_, ?_, ?_⟩
  · exact fun q s fd hs ↦ (Proc.get_init_ne hs).elim
  · exact fun q s fd hs ↦ (Proc.get_init_ne hs).elim
  · exact fun q s hs ↦ (Proc.get_init_ne hs).elim
  · exact fun q s req f hs ↦ (Proc.get_init_ne hs).elim

end SafeInv

/-- Nothing is lost along every run whose moves lose nothing. -/
theorem safeInv {p : Proc} (h : Reach Proc.step Proc.MovesClear .init p) : SafeInv p :=
  h.invariant .init fun _ _ _ hr hi hok hs ↦ hi.step (procInv hr) hs hok

/-- The Stream `s'` behaves as `s` would have, whatever is done with it and whatever the other
Streams of the process do. -/
def Proc.Behaves (p : Proc) (s s' : Stream) : Prop :=
  SameObs Machine.opStep Machine.obs (p.resting s) (p.resting s')

namespace ProcInv

variable {p : Proc} {q r : Place} {s t : Stream}

/-- No call of the Stream is under way. -/
private theorem resting (hi : ProcInv p) (hs : p.get q = some s) :
    (p.resting s).OutInv ∧ (p.resting s).OrderInv := by
  have ho := hi.order q s hs
  exact ⟨⟨hi.inj, (hi.out q s hs).out⟩, ho.lt, ho.nodup, ho.length, nofun, nofun⟩

/-- A Stream that forgets what it has submitted. -/
theorem behaves_nil (hi : ProcInv p) (hs : p.get q = some s) :
    p.Behaves s ⟨s.fd, s.outstanding, []⟩ ↔ (p.resting s).Clear := by
  obtain ⟨hout, horder⟩ := hi.resting hs
  have hiff := Machine.sameObs_iff (o := []) hout horder
    ⟨nofun, List.nodup_nil, Nat.zero_le _, nofun, nofun⟩ rfl nofun
  exact hiff.trans (and_iff_left (Proc.clear_nil p s.fd s.outstanding))

/-- A Stream that takes over what another one has submitted. -/
theorem behaves_other (hi : ProcInv p) (hne : q ≠ r) (hs : p.get q = some s)
    (ht : p.get r = some t) :
    p.Behaves s ⟨s.fd, s.outstanding, t.submissionOrder⟩ ↔
      (p.resting s).Clear ∧ (p.resting ⟨s.fd, s.outstanding, t.submissionOrder⟩).Clear := by
  obtain ⟨hout, horder⟩ := hi.resting hs
  obtain ⟨-, horder'⟩ := hi.resting ht
  exact Machine.sameObs_iff hout horder
    ⟨horder'.lt, horder'.nodup, horder'.length, nofun, nofun⟩ rfl (hi.orders q r s t hne hs ht)

end ProcInv

/-- When the Streams that result from moves behave as the originals would have. -/
structure MovesBehave (p : Proc) : Prop where
  moveStream : ∀ (i : Nat) s, p.streams[i]? = some s →
    (p.Behaves s s.moveCtor.1 ↔ (p.resting s).Clear)
  assignStream : ∀ (i j : Nat) this other, i ≠ j → p.streams[i]? = some this →
    p.streams[j]? = some other →
    (p.Behaves other (this.moveAssign other).1 ↔
      (p.resting other).Clear ∧ (p.resting (this.moveAssign other).1).Clear)
  moveContext : ∀ (i : Nat) c, p.contexts[i]? = some c →
    (p.Behaves c.stream c.moveCtor.1.stream ↔ (p.resting c.stream).Clear)
  assignContext : ∀ (i j : Nat) this other, i ≠ j → p.contexts[i]? = some this →
    p.contexts[j]? = some other →
    (p.Behaves other.stream (this.moveAssign other).1.stream ↔
      (p.resting other.stream).Clear ∧ (p.resting (this.moveAssign other).1.stream).Clear)
  /-- The Context that is added. -/
  added : ∀ (i : Nat) c room e, p.contexts[i]? = some c →
    (p.scheduler.addContext c.moveCtor.1 room).entries[p.scheduler.entries.length]? = some e →
    (p.Behaves c.stream e.ctx.stream ↔ (p.resting c.stream).Clear)
  /-- The Contexts that are there. -/
  reallocated : ∀ (k : Nat) e c room e', p.scheduler.entries[k]? = some e →
    (p.scheduler.addContext c room).entries[k]? = some e' →
    (p.Behaves e.ctx.stream e'.ctx.stream ↔
      p.scheduler.entries.length < p.scheduler.capacity ∨ (p.resting e.ctx.stream).Clear)

/-- What a Stream with a file guarantees. -/
structure Bounded (p : Proc) : Prop where
  notReady : ∀ q s fd, p.get q = some s → s.fd = some fd →
    ((List.range p.heap.size).filter fun f ↦
      p.heap.issuer f = fd ∧ (p.heap.fences f).ready = false).length ≤ queueDepth
  waits : ∀ q s req f, p.get q = some s → (p.pcs q).cont = some (.throttle req f) →
    s.fd = some (p.heap.issuer f)

/-- Commands of a file that are not ready are all in one `submission_order_`. -/
private theorem SafeInv.bounded {p : Proc} (hsafe : SafeInv p) (hi : ProcInv p) : Bounded p := by
  refine ⟨?_, hsafe.waits⟩
  intro q s fd hs hfd
  have hsub : (List.range p.heap.size).filter (fun f ↦
      p.heap.issuer f = fd ∧ (p.heap.fences f).ready = false) ⊆ s.submissionOrder := by
    intro f hf
    obtain ⟨hlt, hf⟩ := List.mem_filter.mp hf
    obtain ⟨hiss, hr⟩ := of_decide_eq_true hf
    exact hsafe.tracked q s fd hs hfd f (List.mem_range.mp hlt) hiss hr
  have hnodup := List.Nodup.filter (fun f ↦
    decide (p.heap.issuer f = fd ∧ (p.heap.fences f).ready = false))
    (List.nodup_range (n := p.heap.size))
  exact Nat.le_trans (hnodup.subperm hsub).length_le (hi.order q s hs).length

/-- In every state of a process a move keeps the behaviour of a Stream exactly when nothing that
is moved or assigned to records a command that could hold a submission up; and along every run
all of whose moves are such, a Stream has at most sixteen commands that are not ready and waits
for commands of its own file only. -/
theorem moves_behave (p : Proc) : (p.Reachable → MovesBehave p) ∧
    (Reach Proc.step Proc.MovesClear .init p → Bounded p) := by
  constructor
  · intro h
    have hi := procInv h
    refine ⟨?_, ?_, ?_, ?_, ?_, ?_⟩
    · intro i s hs
      exact hi.behaves_nil (q := .stream i) hs
    · intro i j this other hij hthis hother
      refine hi.behaves_other (q := .stream j) (r := .stream i) ?_ hother hthis
      rintro ⟨⟩
      exact hij rfl
    · intro i c hc
      refine hi.behaves_nil (q := .context i) ?_
      simp [Proc.get, hc]
    · intro i j this other hij hthis hother
      refine hi.behaves_other (q := .context j) (r := .context i) (t := this.stream) ?_ ?_ ?_
      · rintro ⟨⟩
        exact hij rfl
      · simp [Proc.get, hother]
      · simp [Proc.get, hthis]
    · intro i c room e hc he
      rw [Proc.getElem?_addContext, if_pos rfl] at he
      cases he
      refine hi.behaves_nil (q := .context i) ?_
      simp [Proc.get, hc]
    · intro k e c room e' he he'
      have hk : k ≠ p.scheduler.entries.length :=
        Nat.ne_of_lt (List.getElem?_eq_some_iff.mp he).1
      rw [Proc.getElem?_addContext, if_neg hk, he] at he'
      split at he'
      · next hcap =>
        cases he'
        exact iff_of_true (.refl _) (.inl hcap)
      · next hcap =>
        cases he'
        refine (hi.behaves_nil (q := .entry k) ?_).trans (or_iff_right hcap).symm
        simp [Proc.get, he]
  · intro h
    exact (safeInv h).bounded (procInv h)

/-- The request of a copy of 16 bytes inside one buffer. -/
def copyOne : SubmitReq := submitReq Driver.opcodeCopy 0 0 0 16 16

/-- Script: the Stream at `q` submits a command that gets the id `cmdId`. -/
def submitAt (q : Place) (cmdId : Nat) : List Proc.Act :=
  [.code q (.submit copyOne), .code q .pass, .code q (.ioctlOk cmdId)]

/-- Script: it submits as many as the device queue holds. -/
def fillAt (q : Place) : List Proc.Act := (List.range queueDepth).flatMap fun k ↦ submitAt q (k + 2)

/-- Script: it reads the completion of the command `cmdId`. -/
def pumpAt (q : Place) (cmdId : Nat) : List Proc.Act :=
  [.code q .pump, .code q (.readBatch [⟨cmdId, 0, 0⟩]), .code q .test]

/-- A Stream is moved after its only command has completed. -/
theorem moves_behave_ready : ∃ p p' : Proc, Reach Proc.step Proc.MovesClear .init p ∧
    p.step (.moveStream 0) = some p' ∧ Bounded p' ∧
    ∃ s, p.streams[0]? = some s ∧ s.submissionOrder = [0] ∧ p.Behaves s s.moveCtor.1 := by
  have hrun : (runChecked Proc.step (fun _ a ↦ match a with
      | .openStream | .code _ _ => true
      | _ => false) .init (.openStream :: submitAt (.stream 0) 2 ++ pumpAt (.stream 0) 2)).any
      (fun p ↦ (p.step (.moveStream 0)).isSome && p.streams[0]?.any (fun s ↦
        s.fd == some 0 && s.submissionOrder == [0] && (p.heap.fences 0).ready)) = true := by
    decide +kernel
  have hok : ∀ (p : Proc) (a : Proc.Act), (match a with
      | .openStream | .code _ _ => true
      | _ => false) = true → p.MovesClear a := by
    intro p a ha
    cases a with
    | openStream | code => trivial
    | _ => cases ha
  obtain ⟨p, hr, hp⟩ := Reach.exists_of_runChecked hok hrun
  rw [Bool.and_eq_true] at hp
  obtain ⟨p', hs'⟩ := Option.isSome_iff_exists.mp hp.1
  obtain ⟨s, hs, hprop⟩ := (Option.any_eq_true _ _).mp hp.2
  simp only [Bool.and_eq_true, beq_iff_eq] at hprop
  obtain ⟨⟨hfd, horder⟩, hready⟩ := hprop
  have hclear : (p.resting s).Clear := by
    unfold Machine.Clear
    rw [show (p.resting s).stream.fd = some 0 from hfd]
    intro f hf
    rw [show (p.resting s).stream.submissionOrder = [0] from horder, List.mem_singleton] at hf
    rw [hf]
    exact hready
  have hnext : Reach Proc.step Proc.MovesClear .init p' := by
    refine hr.next ?_ hs'
    intro t ht
    cases hs.symm.trans ht
    exact hclear
  exact ⟨p, p', hr, hs', (moves_behave p').2 hnext, s, hs, horder,
    (((moves_behave p).1 hr.any).moveStream 0 s hs).mpr hclear⟩

/-- A Stream with sixteen commands is moved, on its own or with an entry of a Scheduler, and lets
the next submission through, which makes seventeen; and one that is assigned to waits for a
command of the file it has closed. -/
theorem moved_stream_differs :
    (¬∀ p : Proc, p.Reachable → ∀ (i : Nat) s, p.streams[i]? = some s →
      p.Behaves s s.moveCtor.1) ∧
    (¬∀ p : Proc, p.Reachable → ∀ (k : Nat) e c room e', p.scheduler.entries[k]? = some e →
      (p.scheduler.addContext c room).entries[k]? = some e' →
      p.Behaves e.ctx.stream e'.ctx.stream) ∧
    (¬∀ p : Proc, p.Reachable → ∀ q s fd, p.get q = some s → s.fd = some fd →
      ((List.range p.heap.size).filter fun f ↦
        p.heap.issuer f = fd ∧ (p.heap.fences f).ready = false).length ≤ queueDepth) ∧
    ¬∀ p : Proc, p.Reachable → ∀ q s req f, p.get q = some s →
      (p.pcs q).cont = some (.throttle req f) → s.fd = some (p.heap.issuer f) := by
  refine ⟨?_, ?_, ?_, ?_⟩
  · have hrun : (run Proc.step .init (.openStream :: fillAt (.stream 0))).any (fun p ↦
        p.streams[0]?.any fun s ↦
          (run Machine.opStep (p.resting s) (Machine.heldUp copyOne 0)).isSome &&
          !(run Machine.opStep (p.resting s.moveCtor.1)
            (Machine.heldUp copyOne 0)).isSome) = true := by
      decide +kernel
    obtain ⟨p, hr, hp⟩ := Reach.exists_of_run hrun
    obtain ⟨s, hs, hprop⟩ := (Option.any_eq_true _ _).mp hp
    rw [Bool.and_eq_true, Bool.not_eq_true'] at hprop
    intro hall
    have hsame := (hall p hr 0 s hs).isSome hprop.1
    rw [hprop.2] at hsame
    cases hsame
  · have hrun : (run Proc.step .init (.openContext "a" :: .openContext "b" :: .addContext 0 1 ::
        fillAt (.entry 0))).any (fun p ↦ p.contexts[1]?.any fun c ↦
          (p.scheduler.addContext c.moveCtor.1 2).entries[0]?.any fun e' ↦
            p.scheduler.entries[0]?.any fun e ↦
            (run Machine.opStep (p.resting e.ctx.stream) (Machine.heldUp copyOne 0)).isSome &&
            !(run Machine.opStep (p.resting e'.ctx.stream)
              (Machine.heldUp copyOne 0)).isSome) = true := by
      decide +kernel
    obtain ⟨p, hr, hp⟩ := Reach.exists_of_run hrun
    obtain ⟨c, -, hc⟩ := (Option.any_eq_true _ _).mp hp
    obtain ⟨e', he', hp'⟩ := (Option.any_eq_true _ _).mp hc
    obtain ⟨e, he, hprop⟩ := (Option.any_eq_true _ _).mp hp'
    rw [Bool.and_eq_true, Bool.not_eq_true'] at hprop
    intro hall
    have hsame := (hall p hr 0 e _ 2 e' he he').isSome hprop.1
    rw [hprop.2] at hsame
    cases hsame
  · have hrun : (run Proc.step .init (.openStream :: fillAt (.stream 0) ++ .moveStream 0 ::
        submitAt (.stream 1) 18)).any (fun p ↦ (p.get (.stream 1)).any fun s ↦
          s.fd == some 0 && decide (((List.range p.heap.size).filter fun f ↦
            p.heap.issuer f = 0 ∧ (p.heap.fences f).ready = false).length = 17)) = true := by
      decide +kernel
    obtain ⟨p, hr, hp⟩ := Reach.exists_of_run hrun
    obtain ⟨s, hs, hprop⟩ := (Option.any_eq_true _ _).mp hp
    rw [Bool.and_eq_true] at hprop
    intro hall
    have hle := hall p hr _ s 0 hs (eq_of_beq hprop.1)
    rw [of_decide_eq_true hprop.2] at hle
    exact absurd hle (by decide)
  · have hrun : (run Proc.step .init (.openStream :: .openStream :: fillAt (.stream 0) ++
        [.assignStream 0 1, .code (.stream 0) (.submit copyOne),
          .code (.stream 0) (.block 0)])).any (fun p ↦ (p.get (.stream 0)).any fun s ↦
          s.fd == some 1 && p.heap.issuer 0 == 0 &&
            decide ((p.pcs (.stream 0)).cont = some (.throttle copyOne 0))) = true := by
      decide +kernel
    obtain ⟨p, hr, hp⟩ := Reach.exists_of_run hrun
    obtain ⟨s, hs, hprop⟩ := (Option.any_eq_true _ _).mp hp
    simp only [Bool.and_eq_true, beq_iff_eq, decide_eq_true_eq] at hprop
    intro hall
    have hfd := hall p hr _ s _ 0 hs hprop.2
    rw [hprop.1.1, hprop.1.2] at hfd
    cases hfd

end DmaAccel.Runtime
