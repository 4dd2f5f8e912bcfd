import DmaAccel.Kctl.Tickets

/-!
# Each step keeps the tickets apart

Source `track-c/third_party/kctl/kctl/mpmc_bounded_queue.hpp`. What a step leaves alone stays as the
invariant has it (`CellState.keep`, `Relies.keep`). There are four kinds of step: a thread without a
ticket goes on (`park`), one takes a ticket (`claimPush`, `claimPop`), or it writes to the cell of
its ticket (`write`). A refusal says that the cell of the position is behind, which happens only
where the queue is full or empty or a call of the other kind is not over.
-/

namespace DmaAccel.Kctl

open DmaAccel.Base

universe u

variable {T : Type u}

namespace MpmcBoundedQueue

variable {k : Nat} {m m' : MpmcBoundedQueue T} {t t' p p' q pos : Nat} {pc : Pc T} {item : T}

section Frame

theorem seqOf_turn (hq : q = p + capacity k) : m.seqOf k q = m.seqOf k p := by
  subst hq
  exact seqOf_congr (cellOf_add_capacity k p)

@[simp] theorem seqOf_setSeq (m : MpmcBoundedQueue T) (k pos seq : Nat) :
    (m.setSeq k pos seq).seqOf k pos = seq := by
  simp only [seqOf, setSeq, Function.update_self]

@[simp] theorem dataOf_setSeq (m : MpmcBoundedQueue T) (k pos seq : Nat) :
    (m.setSeq k pos seq).dataOf k pos = m.dataOf k pos := by
  simp only [dataOf, setSeq, Function.update_self]

@[simp] theorem seqOf_setData (m : MpmcBoundedQueue T) (k pos : Nat) (x : T) :
    (m.setData k pos x).seqOf k pos = m.seqOf k pos := by
  simp only [seqOf, setData, Function.update_self]

@[simp] theorem dataOf_setData (m : MpmcBoundedQueue T) (k pos : Nat) (x : T) :
    (m.setData k pos x).dataOf k pos = x := by
  simp only [dataOf, setData, Function.update_self]

/-- A cell goes on with what it does where its entry, its ticket and the holder stay. -/
theorem CellState.keep (h : m.CellState k q)
    (hbuf : m'.buffer (cellOf k q) = m.buffer (cellOf k q))
    (htickets : ∀ (i : Nat) (x : T), m.tickets[i]? = some x → m'.tickets[i]? = some x)
    (hle : m.dequeuePos ≤ m'.dequeuePos)
    (hdeq : ∀ p, q = p + capacity k → m.dequeuePos ≤ p → m'.dequeuePos ≤ p)
    (hpush : ∀ t p, q = p + capacity k → (m.threads t).pushes = some p →
      (m'.threads t).pushes = some p)
    (hpop : ∀ t p, q = p + capacity k → (m.threads t).pops = some p →
      (m'.threads t).pops = some p) : m'.CellState k q := by
  have hcell : ∀ p, q = p + capacity k → m'.buffer (cellOf k p) = m.buffer (cellOf k p) := by
    rintro p rfl
    rwa [cellOf_add_capacity] at hbuf
  cases h with
  | free hs hlt =>
    have hs' : m'.seqOf k q = m.seqOf k q := congrArg Cell.sequence hbuf
    exact .free (hs'.trans hs) (by omega)
  | writing p t hq hs hp ht =>
    have hs' : m'.seqOf k p = m.seqOf k p := congrArg Cell.sequence (hcell p hq)
    exact .writing p t hq (hs'.trans hs) (hdeq p hq hp) (hpush t p hq ht)
  | ready p hq hs hp ht =>
    have hs' : m'.seqOf k p = m.seqOf k p := congrArg Cell.sequence (hcell p hq)
    have hx : m'.dataOf k p = m.dataOf k p := congrArg Cell.data (hcell p hq)
    exact .ready p hq (hs'.trans hs) (hdeq p hq hp) (by rw [hx]; exact htickets p _ ht)
  | reading p t hq hs hp ht =>
    have hs' : m'.seqOf k p = m.seqOf k p := congrArg Cell.sequence (hcell p hq)
    exact .reading p t hq (hs'.trans hs) (by omega) (hpop t p hq ht)

/-- A thread may rely on what it did where the cell that it watches stays and its ticket is
current. -/
theorem Relies.keep (h : m.Relies k pc) (henq : m.enqueuePos ≤ m'.enqueuePos)
    (hdeq : m.dequeuePos ≤ m'.dequeuePos)
    (htickets : ∀ (i : Nat) (x : T), m.tickets[i]? = some x → m'.tickets[i]? = some x)
    (hbuf : ∀ p, Watches m pc p → m'.buffer (cellOf k p) = m.buffer (cellOf k p))
    (hcur : ∀ p, pc.pushes = some p ∨ pc.pops = some p → m'.enqueuePos ≤ p + capacity k)
    (hpush : ∀ p, pc.pushes = some p → m'.dequeuePos ≤ p) : m'.Relies k pc := by
  have hseq : ∀ p, Watches m pc p → m'.seqOf k p = m.seqOf k p :=
    fun p hw ↦ congrArg Cell.sequence (hbuf p hw)
  have hdata : ∀ p, Watches m pc p → m'.dataOf k p = m.dataOf k p :=
    fun p hw ↦ congrArg Cell.data (hbuf p hw)
  cases pc with
  | idle | pushLoad _ | popLoad => trivial
  | pushSeq item pos => exact Nat.le_trans h henq
  | popSeq pos => exact Nat.le_trans h hdeq
  | pushCas item pos =>
    obtain ⟨hle, hs⟩ := h
    refine ⟨hle.trans henq, fun heq ↦ ?_⟩
    obtain rfl : pos = m.enqueuePos := by omega
    exact (hseq _ (.pushCas item)).trans (hs rfl)
  | popCas pos =>
    obtain ⟨hle, hs⟩ := h
    refine ⟨hle.trans hdeq, fun heq ↦ ?_⟩
    obtain rfl : pos = m.dequeuePos := by omega
    exact (hseq _ .popCas).trans (hs rfl)
  | pushStore item pos =>
    obtain ⟨⟨hlt, -⟩, -, hs, ht⟩ := h
    exact ⟨⟨hlt.trans_le henq, hcur pos (.inl rfl)⟩, hpush pos rfl,
      (hseq pos (.push rfl)).trans hs, htickets pos _ ht⟩
  | pushPublish pos =>
    obtain ⟨⟨hlt, -⟩, -, hs, ht⟩ := h
    refine ⟨⟨hlt.trans_le henq, hcur pos (.inl rfl)⟩, hpush pos rfl,
      (hseq pos (.push rfl)).trans hs, ?_⟩
    rw [hdata pos (.push rfl)]
    exact htickets pos _ ht
  | popTake pos =>
    obtain ⟨⟨hlt, -⟩, hd, hs, ht⟩ := h
    refine ⟨⟨hlt.trans_le henq, hcur pos (.inr rfl)⟩, hd.trans_le hdeq,
      (hseq pos (.pop rfl)).trans hs, ?_⟩
    rw [hdata pos (.pop rfl)]
    exact htickets pos _ ht
  | popRelease pos out =>
    obtain ⟨⟨hlt, -⟩, hd, hs, ht⟩ := h
    exact ⟨⟨hlt.trans_le henq, hcur pos (.inr rfl)⟩, hd.trans_le hdeq,
      (hseq pos (.pop rfl)).trans hs, htickets pos _ ht⟩

/-- A ticket that the moving thread does not hold stays with its holder. -/
theorem ticket_keep (ticket : Pc T → Option Nat)
    (hthreads : m'.threads = Function.update m.threads t pc)
    (hnot : ticket (m.threads t) ≠ some p) (hp : ticket (m.threads t') = some p) :
    ticket (m'.threads t') = some p := by
  have hne : t' ≠ t := by
    rintro rfl
    exact hnot hp
  rw [hthreads, Function.update_of_ne hne]
  exact hp

/-- A ticket stays with one thread if no other thread holds what the moving one gets. -/
theorem ticket_once (ticket : Pc T → Option Nat)
    (hthreads : m'.threads = Function.update m.threads t pc)
    (honce : ∀ t t' p, ticket (m.threads t) = some p → ticket (m.threads t') = some p → t = t')
    (hnew : ∀ t' p, t' ≠ t → ticket pc = some p → ticket (m.threads t') ≠ some p)
    (t₁ t₂ p : Nat) (h₁ : ticket (m'.threads t₁) = some p) (h₂ : ticket (m'.threads t₂) = some p) :
    t₁ = t₂ := by
  rw [hthreads] at h₁ h₂
  by_cases hne₁ : t₁ = t <;> by_cases hne₂ : t₂ = t
  · rw [hne₁, hne₂]
  · rw [hne₁, Function.update_self] at h₁
    rw [Function.update_of_ne hne₂] at h₂
    exact absurd h₂ (hnew t₂ p hne₂ h₁)
  · rw [hne₂, Function.update_self] at h₂
    rw [Function.update_of_ne hne₁] at h₁
    exact absurd h₁ (hnew t₁ p hne₁ h₂)
  · rw [Function.update_of_ne hne₁] at h₁
    rw [Function.update_of_ne hne₂] at h₂
    exact honce t₁ t₂ p h₁ h₂

/-- A thread holds one ticket. -/
theorem Holds.unique (h : m.Holds t p) (h' : m.Holds t p') : p = p' := by
  unfold Holds at h h'
  cases hpc : m.threads t <;> rw [hpc] at h h' <;>
    simp only [Pc.pushes, Pc.pops, reduceCtorEq, or_self, or_false, false_or,
      Option.some.injEq] at h h'
  all_goals exact h.symm.trans h'

end Frame

namespace Ticketed

theorem relies_of (h : m.Ticketed k) (hpc : m.threads t = pc) : m.Relies k pc := hpc ▸ h.relies t

/-- The invariant after a step of one thread, from its parts. -/
theorem next (h : m.Ticketed k) (hthreads : m'.threads = Function.update m.threads t pc)
    (hnum : m'.tickets.length = m'.enqueuePos) (hbehind : m'.dequeuePos ≤ m'.enqueuePos)
    (hroom : m'.enqueuePos ≤ m'.dequeuePos + capacity k)
    (hcells : ∀ q, m'.enqueuePos ≤ q → q < m'.enqueuePos + capacity k → m'.CellState k q)
    (hself : m'.Relies k pc) (hothers : ∀ t', t' ≠ t → m'.Relies k (m.threads t'))
    (hpush : ∀ p, pc.pushes = some p → (m.threads t).pushes = some p ∨ m.enqueuePos ≤ p)
    (hpop : ∀ p, pc.pops = some p → (m.threads t).pops = some p ∨ m.dequeuePos ≤ p) :
    m'.Ticketed k := by
  -- No other thread holds a ticket that this one holds after the step.
  have hpushes : ∀ t' p, t' ≠ t → pc.pushes = some p → (m.threads t').pushes ≠ some p := by
    intro t' p hne hp hp'
    obtain hold | hnew := hpush p hp
    · exact hne (h.pushOnce t' t p hp' hold)
    · have := ((h.relies t').of_pushes hp').1.1
      omega
  have hpops : ∀ t' p, t' ≠ t → pc.pops = some p → (m.threads t').pops ≠ some p := by
    intro t' p hne hp hp'
    obtain hold | hnew := hpop p hp
    · exact hne (h.popOnce t' t p hp' hold)
    · have := ((h.relies t').of_pops hp').2.1
      omega
  refine ⟨hnum, hbehind, hroom, hcells, fun t' ↦ ?_,
    ticket_once Pc.pushes hthreads h.pushOnce hpushes, ticket_once Pc.pops hthreads h.popOnce hpops⟩
  rw [hthreads]
  by_cases hne : t' = t
  · rw [hne, Function.update_self]
    exact hself
  · rw [Function.update_of_ne hne]
    exact hothers t' hne

/-- A thread that holds no ticket goes on without one. -/
theorem park (h : m.Ticketed k) (hthreads : m'.threads = Function.update m.threads t pc)
    (hbuf : m'.buffer = m.buffer) (henq : m'.enqueuePos = m.enqueuePos)
    (hdeq : m'.dequeuePos = m.dequeuePos) (htickets : m'.tickets = m.tickets)
    (hfree : ∀ p, ¬ m.Holds t p) (hself : m'.Relies k pc)
    (hpush : pc.pushes = none) (hpop : pc.pops = none) : m'.Ticketed k := by
  refine h.next hthreads (by rw [htickets, henq]; exact h.numbered)
    (by rw [hdeq, henq]; exact h.behind) (by rw [hdeq, henq]; exact h.room) ?_ hself ?_
    (by simp [hpush]) (by simp [hpop])
  · intro q hq hq'
    rw [henq] at hq hq'
    exact (h.cells q hq hq').keep (by rw [hbuf]) (by simp [htickets]) hdeq.ge (by simp [hdeq])
      (fun _ p _ ↦ ticket_keep Pc.pushes hthreads fun hp ↦ hfree p (.inl hp))
      (fun _ p _ ↦ ticket_keep Pc.pops hthreads fun hp ↦ hfree p (.inr hp))
  · intro t' _
    refine (h.relies t').keep henq.ge hdeq.ge (by simp [htickets]) (by simp [hbuf]) ?_ ?_
    · intro p hp
      rw [henq]
      exact (h.current hp).2
    · intro p hp
      rw [hdeq]
      exact ((h.relies t').of_pushes hp).2.1

/-- A thread writes to the cell of its ticket. -/
theorem write (h : m.Ticketed k) (hk : 1 ≤ k) (hold : m.Holds t p) {c : Cell T}
    (hthreads : m'.threads = Function.update m.threads t pc)
    (hbuf : m'.buffer = Function.update m.buffer (cellOf k p) c)
    (henq : m'.enqueuePos = m.enqueuePos) (hdeq : m'.dequeuePos = m.dequeuePos)
    (htickets : m'.tickets = m.tickets) (hself : m'.Relies k pc)
    (hcell : m'.CellState k (p + capacity k))
    (hpush : ∀ p, pc.pushes = some p → (m.threads t).pushes = some p)
    (hpop : ∀ p, pc.pops = some p → (m.threads t).pops = some p) : m'.Ticketed k := by
  have hsame : ∀ q, cellOf k q ≠ cellOf k p → m'.buffer (cellOf k q) = m.buffer (cellOf k q) :=
    fun q hne ↦ by rw [hbuf, Function.update_of_ne hne]
  refine h.next hthreads (by rw [htickets, henq]; exact h.numbered)
    (by rw [hdeq, henq]; exact h.behind) (by rw [hdeq, henq]; exact h.room) ?_ hself ?_
    (fun p hp ↦ .inl (hpush p hp)) (fun p hp ↦ .inl (hpop p hp))
  · intro q hq hq'
    rw [henq] at hq hq'
    by_cases hqp : cellOf k q = cellOf k p
    · rwa [(h.current hold).turn hq hq' hqp]
    · -- The thread holds the ticket of its own cell alone.
      have hnot : ∀ p', q = p' + capacity k → ¬m.Holds t p' := by
        rintro p' rfl hold'
        obtain rfl := hold.unique hold'
        exact hqp (cellOf_add_capacity k p)
      exact (h.cells q hq hq').keep (hsame q hqp) (by simp [htickets]) hdeq.ge (by simp [hdeq])
        (fun _ p' hp' ↦ ticket_keep Pc.pushes hthreads fun hp ↦ hnot p' hp' (.inl hp))
        (fun _ p' hp' ↦ ticket_keep Pc.pops hthreads fun hp ↦ hnot p' hp' (.inr hp))
  · intro t' hne
    refine (h.relies t').keep henq.ge hdeq.ge (by simp [htickets])
      (fun p' hw ↦ hsame p' (h.apart hk hold hne hw)) ?_ ?_
    · intro p hp
      rw [henq]
      exact (h.current hp).2
    · intro p hp
      rw [hdeq]
      exact ((h.relies t').of_pushes hp).2.1

/-- Where the cell of the next ticket is free for it, the queue has room. -/
theorem room_of_seq (h : m.Ticketed k) (hk : 1 ≤ k)
    (hs : m.seqOf k m.enqueuePos = m.enqueuePos) :
    m.enqueuePos < m.dequeuePos + capacity k := by
  have htwo := two_le_capacity hk
  cases h.cells m.enqueuePos le_rfl (by omega) with
  | free _ hlt => exact hlt
  | writing p t hq hs' _ _ | ready p hq hs' _ _ | reading p t hq hs' _ _ =>
    have := seqOf_turn (m := m) hq
    omega

/-- Where the cell of the oldest ticket is filled for it, its item can be taken. -/
theorem ready_of_seq (h : m.Ticketed k) (hk : 1 ≤ k)
    (hs : m.seqOf k m.dequeuePos = m.dequeuePos + 1) :
    m.Current k m.dequeuePos ∧ m.tickets[m.dequeuePos]? = some (m.dataOf k m.dequeuePos) := by
  have htwo := two_le_capacity hk
  have hroom := h.room
  obtain hlt | heq := h.behind.lt_or_eq
  · have hcur : m.Current k m.dequeuePos := ⟨hlt, hroom⟩
    refine ⟨hcur, ?_⟩
    cases h.cells (m.dequeuePos + capacity k) hroom (by omega) with
    | free _ hd => omega
    | writing p t hq hs' _ _ =>
      obtain rfl : m.dequeuePos = p := by omega
      omega
    | ready p hq _ _ ht =>
      obtain rfl : m.dequeuePos = p := by omega
      exact ht
    | reading p t hq _ hp _ => omega
  · -- Nothing has been put there: the cell is at an earlier turn, or free for the next.
    exfalso
    cases h.cells m.dequeuePos heq.ge (by omega) with
    | free hs' _ => omega
    | writing p t hq hs' _ _ | ready p hq hs' _ _ | reading p t hq hs' _ _ =>
      have := seqOf_turn (m := m) hq
      omega

/-- `try_push` takes its ticket. -/
theorem claimPush (h : m.Ticketed k) (hk : 1 ≤ k)
    (hpc : m.threads t = .pushCas item m.enqueuePos) :
    { m.setPc t (.pushStore item m.enqueuePos) with
      enqueuePos := m.enqueuePos + 1, tickets := m.tickets ++ [item] }.Ticketed k := by
  have hs : m.seqOf k m.enqueuePos = m.enqueuePos := (h.relies_of hpc).2 rfl
  have hroom := h.room_of_seq hk hs
  have htwo := two_le_capacity hk
  have htickets : ∀ (i : Nat) (x : T), m.tickets[i]? = some x →
      (m.tickets ++ [item])[i]? = some x := fun i x hx ↦ by
    rw [List.getElem?_append_left (List.getElem?_eq_some_iff.mp hx).1]
    exact hx
  have hnew : (m.tickets ++ [item])[m.enqueuePos]? = some item := by
    rw [← h.numbered]
    exact List.getElem?_concat_length
  refine h.next rfl (by simp [h.numbered]) (Nat.le_succ_of_le h.behind) hroom ?_ ?_ ?_ ?_
    (by simp [Pc.pops])
  · intro q hq hq'
    simp only at hq hq'
    by_cases hlast : q = m.enqueuePos + capacity k
    · exact .writing m.enqueuePos t hlast hs h.behind
        (by simp [setPc, Pc.pushes])
    · refine (h.cells q (by omega) (by omega)).keep rfl htickets le_rfl (fun _ _ hp ↦ hp) ?_ ?_
      · exact fun _ _ _ ↦ ticket_keep Pc.pushes rfl (by simp [hpc, Pc.pushes])
      · exact fun _ _ _ ↦ ticket_keep Pc.pops rfl (by simp [hpc, Pc.pops])
  · exact ⟨⟨Nat.lt_succ_self _, by simp only; omega⟩, h.behind, hs, hnew⟩
  · intro t' hne
    refine (h.relies t').keep (Nat.le_succ _) le_rfl htickets (fun _ _ ↦ rfl) ?_ ?_
    · intro p hp
      -- The cell of the new ticket is not one whose ticket another thread holds.
      have hw : Watches m (m.threads t) m.enqueuePos := by
        rw [hpc]
        exact .pushCas item
      have hapart := h.apart hk hp hne.symm hw
      have hle := (h.current hp).2
      have : m.enqueuePos ≠ p + capacity k := by
        intro heq
        rw [heq, cellOf_add_capacity] at hapart
        exact hapart rfl
      simp only
      omega
    · intro p hp
      exact ((h.relies t').of_pushes hp).2.1
  · rintro p ⟨⟩
    exact .inr le_rfl

/-- `try_pop` takes its ticket. -/
theorem claimPop (h : m.Ticketed k) (hk : 1 ≤ k) (hpc : m.threads t = .popCas m.dequeuePos) :
    { m.setPc t (.popTake m.dequeuePos) with dequeuePos := m.dequeuePos + 1 }.Ticketed k := by
  have hs : m.seqOf k m.dequeuePos = m.dequeuePos + 1 := (h.relies_of hpc).2 rfl
  obtain ⟨hcur, hx⟩ := h.ready_of_seq hk hs
  have hroom := h.room
  refine h.next rfl h.numbered hcur.1 (by simp only [setPc]; omega) ?_ ?_ ?_ (by simp [Pc.pushes])
    ?_
  · intro q hq hq'
    simp only [setPc] at hq hq'
    by_cases hfirst : q = m.dequeuePos + capacity k
    · exact .reading m.dequeuePos t hfirst hs (Nat.lt_succ_self _) (by simp [setPc, Pc.pops])
    · refine (h.cells q hq hq').keep rfl (fun _ _ hx ↦ hx) (Nat.le_succ _) ?_ ?_ ?_
      · intro p hqp hp
        simp only
        omega
      · exact fun _ _ _ ↦ ticket_keep Pc.pushes rfl (by simp [hpc, Pc.pushes])
      · exact fun _ _ _ ↦ ticket_keep Pc.pops rfl (by simp [hpc, Pc.pops])
  · exact ⟨hcur, Nat.lt_succ_self _, hs, hx⟩
  · intro t' hne
    refine (h.relies t').keep le_rfl (Nat.le_succ _) (fun _ _ hx ↦ hx) (fun _ _ ↦ rfl) ?_ ?_
    · intro p hp
      exact (h.current hp).2
    · intro p hp
      have hw : Watches m (m.threads t) m.dequeuePos := by
        rw [hpc]
        exact .popCas
      have hapart := h.apart hk (.inl hp) hne.symm hw
      have hle := ((h.relies t').of_pushes hp).2.1
      have : m.dequeuePos ≠ p := by
        rintro rfl
        exact hapart rfl
      simp only
      omega
  · rintro p ⟨⟩
    exact .inr le_rfl

/-- Where the cell of a producer's position is behind, no cell is free, or a consumer has yet to
release one. -/
theorem full_of_seq (h : m.Ticketed k) (hle : pos ≤ m.enqueuePos) (hlt : m.seqOf k pos < pos) :
    m.enqueuePos = m.dequeuePos + capacity k ∨ ∃ t p, (m.threads t).pops = some p := by
  obtain ⟨q, hq, hq', hcell⟩ := exists_turn (k := k) hle
  have hseq : m.seqOf k q = m.seqOf k pos := seqOf_congr hcell
  have hroom := h.room
  cases h.cells q hq hq' with
  | free hs _ => omega
  | reading p t _ _ _ ht => exact .inr ⟨t, p, ht⟩
  | writing p t hqp hs hd _ | ready p hqp hs hd _ =>
    have hturn := seqOf_turn (m := m) hqp
    have hcell' : cellOf k p = cellOf k pos := by
      rw [← hcell, hqp, cellOf_add_capacity]
    obtain heq | hfar := eq_or_far hcell' (by omega)
    · omega
    · exact .inl (by omega)

/-- Where the cell of a consumer's position is behind, nothing is in the queue, or a producer has
yet to publish its item. -/
theorem empty_of_seq (h : m.Ticketed k) (hle : pos ≤ m.dequeuePos)
    (hlt : m.seqOf k pos < pos + 1) :
    m.enqueuePos = m.dequeuePos ∨ ∃ t p, (m.threads t).pushes = some p := by
  have hbehind := h.behind
  obtain ⟨q, hq, hq', hcell⟩ := exists_turn (k := k) (hle.trans hbehind)
  have hseq : m.seqOf k q = m.seqOf k pos := seqOf_congr hcell
  cases h.cells q hq hq' with
  | free hs _ => exact .inl (by omega)
  | writing p t _ _ _ ht => exact .inr ⟨t, p, ht⟩
  | ready p hqp hs hd _ =>
    have hturn := seqOf_turn (m := m) hqp
    omega
  | reading p t hqp hs hd _ =>
    have hturn := seqOf_turn (m := m) hqp
    have hcell' : cellOf k p = cellOf k pos := by
      rw [← hcell, hqp, cellOf_add_capacity]
    obtain heq | hfar := eq_or_far hcell' (by omega)
    · omega
    · exact .inl (by omega)

end Ticketed

end MpmcBoundedQueue

end DmaAccel.Kctl
