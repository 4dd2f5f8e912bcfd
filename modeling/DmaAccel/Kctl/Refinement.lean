import DmaAccel.Kctl.Invariant

/-!
# The queue of several producers and consumers is a queue

Source `track-c/third_party/kctl/kctl/mpmc_bounded_queue.hpp`. With more than one cell, the calls
of any number of threads are those of a queue that each changes at one moment: `try_push` when it
takes its ticket, `try_pop` when it takes its own. Each step keeps the invariant of `Tickets`, and
is one step of the shared queue or none. With one cell, which the constructor accepts too,
`pos + 1` marks it as filled and as free again, and an item is overwritten.
-/

namespace DmaAccel.Kctl

open DmaAccel.Base

universe u

variable {T : Type u}

namespace MpmcBoundedQueue

variable {k : Nat} {m m' : MpmcBoundedQueue T} {t t' p p' q pos : Nat} {pc : Pc T} {item : T}
  {moved : T → T}

section Shared

theorem shared_setPc (m : MpmcBoundedQueue T) (t : Nat) (pc : Pc T) :
    (m.setPc t pc).shared = m.shared.setPc t (callPc m.tickets pc) := by
  have hthreads : (m.setPc t pc).shared.threads =
      Function.update m.shared.threads t (callPc m.tickets pc) :=
    funext fun t' ↦ Function.apply_update (fun _ ↦ callPc m.tickets) m.threads t pc t'
  exact congrArg (SharedQueue.mk m.shared.items · m.log) hthreads

theorem shared_logged (m : MpmcBoundedQueue T) (t : Nat) (pc : Pc T) (e : CallEvent T) :
    ((m.setPc t pc).logged e).shared = (m.shared.setPc t (callPc m.tickets pc)).logged e :=
  congrArg (·.logged e) (shared_setPc m t pc)

theorem shared_threads (hpc : m.threads t = pc) : m.shared.threads t = callPc m.tickets pc := by
  rw [← hpc]
  rfl

theorem shared_setPc_same (hcall : callPc m.tickets pc = m.shared.threads t) :
    (m.setPc t pc).shared = m.shared := by
  rw [shared_setPc, hcall]
  exact congrArg (SharedQueue.mk m.shared.items · m.log) (Function.update_eq_self t _)

/-- The items of the shared queue are the tickets between the two positions. -/
theorem Ticketed.length_items (h : m.Ticketed k) :
    m.shared.items.length = m.enqueuePos - m.dequeuePos := by
  rw [← h.numbered]
  exact List.length_drop

/-- A ticket given out does not change where a thread stands. -/
theorem Relies.callPc_concat (h : m.Relies k pc) (item : T) :
    callPc (m.tickets ++ [item]) pc = callPc m.tickets pc := by
  cases pc with
  | popTake pos =>
    obtain ⟨-, -, -, ht⟩ := h
    have ht' : (m.tickets ++ [item])[pos]? = some (m.dataOf k pos) := by
      rw [List.getElem?_append_left (List.getElem?_eq_some_iff.mp ht).1]
      exact ht
    simp only [callPc, ht, ht']
  | _ => rfl

/-- A consumer with a ticket has had its effect. -/
theorem Relies.hasPopped (h : m.Relies k pc) (hp : pc.pops = some p) :
    (callPc m.tickets pc).hasPopped := by
  cases pc with
  | popTake pos =>
    obtain ⟨-, -, -, ht⟩ := h
    simp only [callPc, ht, CallPc.hasPopped]
  | popRelease pos out => rfl
  | _ => cases hp

/-- A producer with a ticket has had its effect. -/
theorem hasPushed_of_pushes (tickets : List T) (hp : pc.pushes = some p) :
    (callPc tickets pc).hasPushed := by
  cases pc with
  | pushStore item pos => rfl
  | pushPublish pos => rfl
  | _ => cases hp

end Shared

/-- What a step of a thread's call is to the shared queue: an effect or nothing. -/
def Follows (k t : Nat) (m m' : MpmcBoundedQueue T) : Prop :=
  m'.shared = m.shared ∨ SharedQueue.Effect (capacity k) m.shared t m'.shared

theorem step_tryPush (hpc : m.threads t = .idle) (item : T) :
    SharedQueue.step (capacity k) m.shared (.push t item) =
      some ((m.setPc t (.pushLoad item)).logged (.push t item)).shared := by
  have hidle : m.shared.threads t = .idle := shared_threads hpc
  rw [shared_logged]
  simp only [SharedQueue.step, hidle, callPc]

theorem step_tryPop (hpc : m.threads t = .idle) :
    SharedQueue.step (capacity k) m.shared (.pop t) =
      some ((m.setPc t .popLoad).logged (.pop t)).shared := by
  have hidle : m.shared.threads t = .idle := shared_threads hpc
  rw [shared_logged]
  simp only [SharedQueue.step, hidle, callPc]

namespace Ticketed

/-- A thread without a ticket goes on. -/
theorem goOn {pc' : Pc T} (h : m.Ticketed k) (hpc : m.threads t = pc)
    (hfree : pc.pushes = none ∧ pc.pops = none) (hfree' : pc'.pushes = none ∧ pc'.pops = none)
    (hself : m.Relies k pc') (hcall : callPc m.tickets pc' = callPc m.tickets pc) :
    (m.setPc t pc').Ticketed k ∧ Follows k t m (m.setPc t pc') := by
  refine ⟨h.park rfl rfl rfl rfl rfl ?_ hself hfree'.1 hfree'.2, .inl ?_⟩
  · simp [Holds, hpc, hfree]
  · exact shared_setPc_same (hcall.trans (shared_threads hpc).symm)

/-- A thread without a ticket starts a call or returns from one. -/
theorem turn {pc' : Pc T} {e : CallEvent T} (h : m.Ticketed k) (hpc : m.threads t = pc)
    (hfree : pc.pushes = none ∧ pc.pops = none) (hfree' : pc'.pushes = none ∧ pc'.pops = none)
    (hself : m.Relies k pc') : ((m.setPc t pc').logged e).Ticketed k := by
  refine h.park rfl rfl rfl rfl rfl ?_ hself hfree'.1 hfree'.2
  simp [Holds, hpc, hfree]

/-- A refused `try_push`. -/
theorem refusePush (h : m.Ticketed k) (hpc : m.threads t = .pushSeq item pos)
    (hlt : m.seqOf k pos < pos) :
    Follows k t m ((m.setPc t .idle).logged (.pushed t false)) := by
  have hle : pos ≤ m.enqueuePos := h.relies_of hpc
  have hcall : m.shared.threads t = .pushing item := shared_threads hpc
  obtain ⟨other, hwhy⟩ : ∃ other, m.shared.items.length = capacity k ∨
      (m.shared.threads other).hasPopped := by
    obtain hfull | ⟨t', p, hp⟩ := h.full_of_seq hle hlt
    · exact ⟨t, .inl (by rw [h.length_items]; omega)⟩
    · exact ⟨t', .inr ((h.relies t').hasPopped hp)⟩
  refine .inr ?_
  rw [shared_logged]
  exact .full item other hcall hwhy

/-- A refused `try_pop`. -/
theorem refusePop (h : m.Ticketed k) (hpc : m.threads t = .popSeq pos)
    (hlt : m.seqOf k pos < pos + 1) :
    Follows k t m ((m.setPc t .idle).logged (.popped t none)) := by
  have hle : pos ≤ m.dequeuePos := h.relies_of hpc
  have hcall : m.shared.threads t = .popping := shared_threads hpc
  obtain ⟨other, hwhy⟩ : ∃ other, m.shared.items = [] ∨
      (m.shared.threads other).hasPushed := by
    obtain hempty | ⟨t', p, hp⟩ := h.empty_of_seq hle hlt
    · exact ⟨t, .inl (List.eq_nil_of_length_eq_zero (by rw [h.length_items]; omega))⟩
    · exact ⟨t', .inr (hasPushed_of_pushes _ hp)⟩
  refine .inr ?_
  rw [shared_logged]
  exact .empty other hcall hwhy

/-- The ticket of a producer puts its item into the shared queue. -/
theorem enq (h : m.Ticketed k) (hk : 1 ≤ k) (hpc : m.threads t = .pushCas item m.enqueuePos) :
    Follows k t m { m.setPc t (.pushStore item m.enqueuePos) with
      enqueuePos := m.enqueuePos + 1, tickets := m.tickets ++ [item] } := by
  have hr := h.relies_of hpc
  have hroom := h.room_of_seq hk (hr.2 rfl)
  have hcall : m.shared.threads t = .pushing item := shared_threads hpc
  have hlen : m.shared.items.length < capacity k := by
    have hbehind := h.behind
    rw [h.length_items]
    omega
  have hitems : (m.tickets ++ [item]).drop m.dequeuePos = m.tickets.drop m.dequeuePos ++ [item] :=
    List.drop_append_of_le_length (h.behind.trans h.numbered.ge)
  have hthreads : ∀ t', callPc (m.tickets ++ [item])
      (Function.update m.threads t (.pushStore item m.enqueuePos) t') =
        Function.update m.shared.threads t .pushed t' := by
    intro t'
    by_cases hne : t' = t
    · subst hne
      simp only [Function.update_self, callPc]
    · rw [Function.update_of_ne hne, Function.update_of_ne hne]
      exact (h.relies t').callPc_concat item
  have heq : { m.setPc t (.pushStore item m.enqueuePos) with
      enqueuePos := m.enqueuePos + 1, tickets := m.tickets ++ [item] }.shared =
        { m.shared.setPc t .pushed with items := m.shared.items ++ [item] } := by
    simp only [shared, setPc, SharedQueue.setPc, hitems, hthreads]
  exact .inr (heq ▸ .enq item hcall hlen)

/-- The ticket of a consumer takes the oldest item from the shared queue. -/
theorem deq (h : m.Ticketed k) (hk : 1 ≤ k) (hpc : m.threads t = .popCas m.dequeuePos) :
    Follows k t m { m.setPc t (.popTake m.dequeuePos) with dequeuePos := m.dequeuePos + 1 } := by
  have hr := h.relies_of hpc
  obtain ⟨-, hx⟩ := h.ready_of_seq hk (hr.2 rfl)
  obtain ⟨hlt, hget⟩ := List.getElem?_eq_some_iff.mp hx
  have hcall : m.shared.threads t = .popping := shared_threads hpc
  have hitems : m.shared.items = m.dataOf k m.dequeuePos :: m.tickets.drop (m.dequeuePos + 1) := by
    rw [← hget]
    exact List.drop_eq_getElem_cons hlt
  have hnew : callPc m.tickets (.popTake m.dequeuePos) = .popped (m.dataOf k m.dequeuePos) := by
    simp only [callPc, hx]
  have hthreads := congrArg SharedQueue.threads (shared_setPc m t (.popTake m.dequeuePos))
  rw [hnew] at hthreads
  have heq : { m.setPc t (.popTake m.dequeuePos) with dequeuePos := m.dequeuePos + 1 }.shared =
      { m.shared.setPc t (.popped (m.dataOf k m.dequeuePos)) with
        items := m.tickets.drop (m.dequeuePos + 1) } :=
    congrArg (SharedQueue.mk _ · m.log) hthreads
  exact .inr (heq ▸ .deq _ _ hcall hitems)

/-- A producer stores its item. -/
theorem store (h : m.Ticketed k) (hk : 1 ≤ k) (hpc : m.threads t = .pushStore item pos) :
    ((m.setData k pos item).setPc t (.pushPublish pos)).Ticketed k ∧
      Follows k t m ((m.setData k pos item).setPc t (.pushPublish pos)) := by
  obtain ⟨hcur, hd, hs, ht⟩ := h.relies_of hpc
  have hold : m.Holds t pos := .inl (by rw [hpc]; rfl)
  have hs' := (seqOf_setData m k pos item).trans hs
  have hx := dataOf_setData m k pos item
  refine ⟨h.write hk hold rfl rfl rfl rfl rfl ⟨hcur, hd, hs', ?_⟩ ?_ ?_ ?_, .inl ?_⟩
  · exact ht.trans (congrArg some hx.symm)
  · exact .writing pos t rfl hs' hd (by simp [setPc, Pc.pushes])
  · simp [hpc, Pc.pushes]
  · simp [Pc.pops]
  · exact shared_setPc_same (m := m.setData k pos item) (shared_threads hpc).symm

/-- A producer publishes its item. -/
theorem publish (h : m.Ticketed k) (hk : 1 ≤ k) (hpc : m.threads t = .pushPublish pos) :
    (((m.setSeq k pos (pos + 1)).setPc t .idle).logged (.pushed t true)).Ticketed k ∧
      Follows k t m (((m.setSeq k pos (pos + 1)).setPc t .idle).logged (.pushed t true)) := by
  obtain ⟨hcur, hd, hs, ht⟩ := h.relies_of hpc
  have hold : m.Holds t pos := .inl (by rw [hpc]; rfl)
  have hs' := seqOf_setSeq m k pos (pos + 1)
  have hx := dataOf_setSeq m k pos (pos + 1)
  have hcall : m.shared.threads t = .pushed := shared_threads hpc
  refine ⟨h.write hk hold rfl rfl rfl rfl rfl trivial ?_ ?_ ?_, .inr ?_⟩
  · exact .ready pos rfl hs' hd (ht.trans (congrArg some hx.symm))
  · simp [Pc.pushes]
  · simp [Pc.pops]
  · rw [shared_logged]
    exact .pushed hcall

/-- A consumer moves the item out of its cell. -/
theorem take (h : m.Ticketed k) (hk : 1 ≤ k) (hpc : m.threads t = .popTake pos) (x : T) :
    ((m.setData k pos x).setPc t (.popRelease pos (m.dataOf k pos))).Ticketed k ∧
      Follows k t m ((m.setData k pos x).setPc t (.popRelease pos (m.dataOf k pos))) := by
  obtain ⟨hcur, hd, hs, ht⟩ := h.relies_of hpc
  have hold : m.Holds t pos := .inr (by rw [hpc]; rfl)
  have hs' := (seqOf_setData m k pos x).trans hs
  have hcall : m.shared.threads t = .popped (m.dataOf k pos) := by
    rw [shared_threads hpc]
    simp only [callPc, ht]
  refine ⟨h.write hk hold rfl rfl rfl rfl rfl ⟨hcur, hd, hs', ht⟩ ?_ ?_ ?_, .inl ?_⟩
  · exact .reading pos t rfl hs' hd (by simp [setPc, Pc.pops])
  · simp [Pc.pushes]
  · simp [hpc, Pc.pops]
  · exact shared_setPc_same (m := m.setData k pos x) hcall.symm

/-- A consumer releases its cell for its next turn. -/
theorem release {out : T} (h : m.Ticketed k) (hk : 1 ≤ k)
    (hpc : m.threads t = .popRelease pos out) :
    (((m.setSeq k pos (pos + mask k + 1)).setPc t .idle).logged
        (.popped t (some out))).Ticketed k ∧
      Follows k t m (((m.setSeq k pos (pos + mask k + 1)).setPc t .idle).logged
        (.popped t (some out))) := by
  obtain ⟨hcur, hd, hs, ht⟩ := h.relies_of hpc
  have hold : m.Holds t pos := .inr (by rw [hpc]; rfl)
  have hs' := seqOf_setSeq m k pos (pos + mask k + 1)
  have hturn : pos + mask k + 1 = pos + capacity k := by
    have := capacity_pos k
    unfold mask
    omega
  have hcall : m.shared.threads t = .popped out := shared_threads hpc
  refine ⟨h.write hk hold rfl rfl rfl rfl rfl trivial (.free ?_ ?_) ?_ ?_, .inr ?_⟩
  · exact (seqOf_congr (cellOf_add_capacity k pos)).trans (hs'.trans hturn)
  · exact Nat.add_lt_add_right hd _
  · simp [Pc.pushes]
  · simp [Pc.pops]
  · rw [shared_logged]
    exact .popped out hcall

end Ticketed

/-- An access to what the threads share has the effect of its call, or none. -/
theorem Ticketed.access {seen : Nat} (h : m.Ticketed k) (hk : 1 ≤ k)
    (hs : m.access k moved t seen = some m') : m'.Ticketed k ∧ Follows k t m m' := by
  have hr := h.relies t
  cases hpc : m.threads t <;> rw [hpc] at hr <;> simp only [MpmcBoundedQueue.access, hpc] at hs
  case idle => cases hs
  case pushLoad item =>
    split at hs <;> cases hs
    case isTrue hseen => exact h.goOn hpc ⟨rfl, rfl⟩ ⟨rfl, rfl⟩ hseen rfl
  case pushSeq item pos =>
    split at hs
    case isTrue hseq =>
      cases hs
      exact h.goOn hpc ⟨rfl, rfl⟩ ⟨rfl, rfl⟩ ⟨hr, fun _ ↦ hseq⟩ rfl
    case isFalse =>
      split at hs <;> cases hs
      case isTrue hlt =>
        exact ⟨h.turn hpc ⟨rfl, rfl⟩ ⟨rfl, rfl⟩ trivial, h.refusePush hpc hlt⟩
      case isFalse => exact h.goOn hpc ⟨rfl, rfl⟩ ⟨rfl, rfl⟩ trivial rfl
  case pushCas item pos =>
    split at hs
    case isTrue hpos =>
      cases hs
      subst hpos
      exact ⟨h.claimPush hk hpc, h.enq hk hpc⟩
    case isFalse =>
      split at hs <;> cases hs
      case isTrue hseen => exact h.goOn hpc ⟨rfl, rfl⟩ ⟨rfl, rfl⟩ hseen rfl
  case pushStore item pos =>
    cases hs
    exact h.store hk hpc
  case pushPublish pos =>
    cases hs
    exact h.publish hk hpc
  case popLoad =>
    split at hs <;> cases hs
    case isTrue hseen => exact h.goOn hpc ⟨rfl, rfl⟩ ⟨rfl, rfl⟩ hseen rfl
  case popSeq pos =>
    split at hs
    case isTrue hseq =>
      cases hs
      exact h.goOn hpc ⟨rfl, rfl⟩ ⟨rfl, rfl⟩ ⟨hr, fun _ ↦ hseq⟩ rfl
    case isFalse =>
      split at hs <;> cases hs
      case isTrue hlt =>
        exact ⟨h.turn hpc ⟨rfl, rfl⟩ ⟨rfl, rfl⟩ trivial, h.refusePop hpc hlt⟩
      case isFalse => exact h.goOn hpc ⟨rfl, rfl⟩ ⟨rfl, rfl⟩ trivial rfl
  case popCas pos =>
    split at hs
    case isTrue hpos =>
      cases hs
      subst hpos
      exact ⟨h.claimPop hk hpc, h.deq hk hpc⟩
    case isFalse =>
      split at hs <;> cases hs
      case isTrue hseen => exact h.goOn hpc ⟨rfl, rfl⟩ ⟨rfl, rfl⟩ hseen rfl
  case popTake pos =>
    cases hs
    exact h.take hk hpc _
  case popRelease pos out =>
    cases hs
    exact h.release hk hpc

/-- A `compare_exchange_weak` that fails for no reason. -/
theorem Ticketed.fail {seen : Nat} (h : m.Ticketed k)
    (hs : m.step k moved (.fail t seen) = some m') : m'.Ticketed k ∧ Follows k t m m' := by
  simp only [MpmcBoundedQueue.step] at hs
  split at hs
  case h_1 item pos hpc =>
    split at hs <;> cases hs
    case isTrue hseen => exact h.goOn hpc ⟨rfl, rfl⟩ ⟨rfl, rfl⟩ hseen rfl
  case h_2 pos hpc =>
    split at hs <;> cases hs
    case isTrue hseen => exact h.goOn hpc ⟨rfl, rfl⟩ ⟨rfl, rfl⟩ hseen rfl
  case h_3 => cases hs

/-- A call of `try_push` begins. -/
theorem Ticketed.tryPush (h : m.Ticketed k) (hs : m.step k moved (.tryPush t item) = some m') :
    m'.Ticketed k ∧ SharedQueue.step (capacity k) m.shared (.push t item) = some m'.shared := by
  simp only [MpmcBoundedQueue.step] at hs
  split at hs <;> cases hs
  case h_1 hpc => exact ⟨h.turn hpc ⟨rfl, rfl⟩ ⟨rfl, rfl⟩ trivial, step_tryPush hpc item⟩

/-- A call of `try_pop` begins. -/
theorem Ticketed.tryPop (h : m.Ticketed k) (hs : m.step k moved (.tryPop t) = some m') :
    m'.Ticketed k ∧ SharedQueue.step (capacity k) m.shared (.pop t) = some m'.shared := by
  simp only [MpmcBoundedQueue.step] at hs
  split at hs <;> cases hs
  case h_1 hpc => exact ⟨h.turn hpc ⟨rfl, rfl⟩ ⟨rfl, rfl⟩ trivial, step_tryPop hpc⟩

/-- Every step is one of the shared queue or none. -/
theorem Ticketed.step {a : Act T} (h : m.Ticketed k) (hk : 1 ≤ k)
    (hs : m.step k moved a = some m') : m'.Ticketed k ∧
      (m'.shared = m.shared ∨
        ∃ b, SharedQueue.step (capacity k) m.shared b = some m'.shared) := by
  cases a with
  | tryPush t item =>
    obtain ⟨h', hstep⟩ := h.tryPush hs
    exact ⟨h', .inr ⟨_, hstep⟩⟩
  | tryPop t =>
    obtain ⟨h', hstep⟩ := h.tryPop hs
    exact ⟨h', .inr ⟨_, hstep⟩⟩
  | access t seen =>
    obtain ⟨h', hfollows⟩ := h.access hk hs
    exact ⟨h', hfollows.imp_right SharedQueue.Effect.step⟩
  | fail t seen =>
    obtain ⟨h', hfollows⟩ := h.fail hs
    exact ⟨h', hfollows.imp_right SharedQueue.Effect.step⟩

/-- The queue as the constructor leaves it. -/
theorem ticketed_construct (k : Nat) (zero : T) : (construct zero).Ticketed k where
  numbered := rfl
  behind := le_rfl
  room := Nat.zero_le _
  cells q _ hq := by
    have hq' : q < capacity k := by simpa [construct] using hq
    refine .free ?_ (by simpa [construct] using hq')
    exact (cellOf_eq_mod k q).trans (Nat.mod_eq_of_lt hq')
  relies _ := trivial
  pushOnce _ _ _ hp := by cases hp
  popOnce _ _ _ hp := by cases hp

/-- Two threads that access the items of cells access those of different cells. -/
theorem Ticketed.data_apart (h : m.Ticketed k) (hk : 1 ≤ k) (hne : t ≠ t')
    (hp : (m.threads t).data = some p) (hp' : (m.threads t').data = some p') :
    cellOf k p ≠ cellOf k p' := by
  have hticket : ∀ {pc : Pc T} {p : Nat}, pc.data = some p →
      pc.pushes = some p ∨ pc.pops = some p := by
    intro pc p hp
    cases pc with
    | pushStore item pos => exact .inl hp
    | popTake pos => exact .inr hp
    | _ => cases hp
  obtain hw | hw := hticket hp
  · exact h.apart hk (hticket hp') hne (.push hw)
  · exact h.apart hk (hticket hp') hne (.pop hw)

/-- With one cell a second item is stored over the first, which no consumer has taken. -/
theorem single_cell_overwritten (moved : T → T) (zero a b : T) :
    ∃ m, Reach (step 0 moved) anyStep (construct zero) m ∧
      m.log = [.push 0 a, .pushed 0 true, .push 0 b, .pushed 0 true] ∧
      m.dequeuePos = 0 ∧ m.enqueuePos = 2 ∧ m.dataOf 0 0 = b := by
  have hrun : ∃ m, run (step 0 moved) (construct zero)
      [.tryPush 0 a, .access 0 0, .access 0 0, .access 0 0, .access 0 0, .access 0 0,
        .tryPush 0 b, .access 0 1, .access 0 1, .access 0 1, .access 0 1, .access 0 1] = some m ∧
      m.log = [.push 0 a, .pushed 0 true, .push 0 b, .pushed 0 true] ∧
      m.dequeuePos = 0 ∧ m.enqueuePos = 2 ∧ m.dataOf 0 0 = b := ⟨_, rfl, rfl, rfl, rfl, rfl⟩
  obtain ⟨m, hm, hends⟩ := hrun
  exact ⟨m, .of_runChecked (fun _ _ _ ↦ trivial) hm, hends⟩

/-- With more than one cell, and only then, the calls and results of every run are those of a queue
of that capacity, no two threads access the item of one cell at once, and no more tickets are out
than there are cells. -/
theorem mpmc_refines_queue (k : Nat) (moved : T → T) (zero : T) :
    (∀ m, Reach (step k moved) anyStep (construct zero) m →
      (∃ s, Reach (SharedQueue.step (capacity k)) anyStep SharedQueue.init s ∧
        s.log = m.log ∧ s.items = m.tickets.drop m.dequeuePos) ∧
      (∀ t t' p p', t ≠ t' → (m.threads t).data = some p → (m.threads t').data = some p' →
        cellOf k p ≠ cellOf k p') ∧
      m.dequeuePos ≤ m.enqueuePos ∧ m.enqueuePos ≤ m.dequeuePos + capacity k) ↔ 1 ≤ k := by
  constructor
  · intro hall
    by_contra hk
    obtain rfl : k = 0 := by omega
    obtain ⟨m, hm, -, hd, he, -⟩ := single_cell_overwritten moved zero zero zero
    have hroom := (hall m hm).2.2.2
    rw [hd, he] at hroom
    exact absurd hroom (by decide)
  · intro hk m hm
    obtain ⟨h, hshared⟩ := hm.refine shared (ticketed_construct k zero)
      (fun _ _ _ h hs ↦ h.step hk hs)
    exact ⟨⟨m.shared, hshared, rfl, rfl⟩, fun _ _ _ _ ↦ h.data_apart hk, h.behind, h.room⟩

end MpmcBoundedQueue

end DmaAccel.Kctl
