import DmaAccel.Kctl.MpmcQueue
import Mathlib.Data.Nat.Bitwise
import Mathlib.Data.Nat.ModEq

/-!
# The tickets of the queue of several producers and consumers

Source `track-c/third_party/kctl/kctl/mpmc_bounded_queue.hpp`. What the `sequence` of each cell
says of the tickets for it, and what a thread relies on at each of its accesses. A cell is filled
or emptied by the thread alone that holds its ticket.
-/

namespace DmaAccel.Kctl

open DmaAccel.Base

universe u

variable {T : Type u}

section Cells

variable {k p q : Nat}

theorem capacity_pos (k : Nat) : 0 < capacity k := Nat.two_pow_pos k

/-- Two cells at least. -/
theorem two_le_capacity (hk : 1 ≤ k) : 2 ≤ capacity k := by
  calc 2 = 2 ^ 1 := rfl
    _ ≤ 2 ^ k := Nat.pow_le_pow_right Nat.two_pos hk

theorem cellOf_eq_mod (k pos : Nat) : cellOf k pos = pos % capacity k :=
  Nat.and_two_pow_sub_one_eq_mod pos k

/-- Positions of one cell are a multiple of the capacity apart. -/
theorem eq_or_far (h : cellOf k p = cellOf k q) (hle : p ≤ q) :
    p = q ∨ p + capacity k ≤ q := by
  rw [cellOf_eq_mod, cellOf_eq_mod] at h
  have hdvd : capacity k ∣ q - p := (Nat.modEq_iff_dvd' hle).mp h
  obtain heq | hpos := Nat.eq_zero_or_pos (q - p)
  · exact .inl (by omega)
  · have := Nat.le_of_dvd hpos hdvd
    exact .inr (by omega)

/-- The next turn of a cell. -/
theorem cellOf_add_capacity (k p : Nat) : cellOf k (p + capacity k) = cellOf k p := by
  rw [cellOf_eq_mod, cellOf_eq_mod, Nat.add_mod_right]

/-- From any position on, each cell has its turn within as many positions as there are cells. -/
theorem exists_turn {E : Nat} (hp : p ≤ E) : ∃ q, E ≤ q ∧ q < E + capacity k ∧
    cellOf k q = cellOf k p := by
  have hpos := capacity_pos k
  have hle := Nat.mul_div_le (E - p + capacity k - 1) (capacity k)
  have hlt := Nat.lt_mul_div_succ (E - p + capacity k - 1) hpos
  rw [Nat.mul_succ] at hlt
  refine ⟨p + capacity k * ((E - p + capacity k - 1) / capacity k), by omega, by omega, ?_⟩
  rw [cellOf_eq_mod, cellOf_eq_mod, Nat.add_mul_mod_self_left]

end Cells

/-- The ticket of a producer that has yet to publish its item. -/
def Pc.pushes : Pc T → Option Nat
  | .pushStore _ pos | .pushPublish pos => some pos
  | _ => none

/-- The ticket of a consumer that has yet to release its cell. -/
def Pc.pops : Pc T → Option Nat
  | .popTake pos | .popRelease pos _ => some pos
  | _ => none

namespace MpmcBoundedQueue

variable (k : Nat) (m : MpmcBoundedQueue T)

/-- A ticket has been given out whose cell has not had its next turn. -/
def Current (p : Nat) : Prop := p < m.enqueuePos ∧ m.enqueuePos ≤ p + capacity k

/-- What the cell of which `q` is the next turn is doing. -/
inductive CellState (q : Nat) : Prop where
  | free : m.seqOf k q = q → q < m.dequeuePos + capacity k → CellState q
  | writing (p t : Nat) : q = p + capacity k → m.seqOf k p = p → m.dequeuePos ≤ p →
      (m.threads t).pushes = some p → CellState q
  | ready (p : Nat) : q = p + capacity k → m.seqOf k p = p + 1 → m.dequeuePos ≤ p →
      m.tickets[p]? = some (m.dataOf k p) → CellState q
  | reading (p t : Nat) : q = p + capacity k → m.seqOf k p = p + 1 → p < m.dequeuePos →
      (m.threads t).pops = some p → CellState q

/-- What a thread relies on. -/
def Relies : Pc T → Prop
  | .idle | .pushLoad _ | .popLoad => True
  | .pushSeq _ pos => pos ≤ m.enqueuePos
  | .pushCas _ pos => pos ≤ m.enqueuePos ∧ (pos = m.enqueuePos → m.seqOf k pos = pos)
  | .pushStore item pos => m.Current k pos ∧ m.dequeuePos ≤ pos ∧ m.seqOf k pos = pos ∧
      m.tickets[pos]? = some item
  | .pushPublish pos => m.Current k pos ∧ m.dequeuePos ≤ pos ∧ m.seqOf k pos = pos ∧
      m.tickets[pos]? = some (m.dataOf k pos)
  | .popSeq pos => pos ≤ m.dequeuePos
  | .popCas pos => pos ≤ m.dequeuePos ∧ (pos = m.dequeuePos → m.seqOf k pos = pos + 1)
  | .popTake pos => m.Current k pos ∧ pos < m.dequeuePos ∧ m.seqOf k pos = pos + 1 ∧
      m.tickets[pos]? = some (m.dataOf k pos)
  | .popRelease pos out => m.Current k pos ∧ pos < m.dequeuePos ∧ m.seqOf k pos = pos + 1 ∧
      m.tickets[pos]? = some out

/-- Each cell does what its sequence says, and each ticket is held by one thread. -/
structure Ticketed : Prop where
  numbered : m.tickets.length = m.enqueuePos
  behind : m.dequeuePos ≤ m.enqueuePos
  room : m.enqueuePos ≤ m.dequeuePos + capacity k
  cells : ∀ q, m.enqueuePos ≤ q → q < m.enqueuePos + capacity k → m.CellState k q
  relies : ∀ t, m.Relies k (m.threads t)
  pushOnce : ∀ t t' p, (m.threads t).pushes = some p → (m.threads t').pushes = some p → t = t'
  popOnce : ∀ t t' p, (m.threads t).pops = some p → (m.threads t').pops = some p → t = t'

/-- The thread holds the ticket of a cell. -/
def Holds (t p : Nat) : Prop := (m.threads t).pushes = some p ∨ (m.threads t).pops = some p

/-- The position whose cell a thread relies on. -/
inductive Watches : Pc T → Nat → Prop where
  | push {pc : Pc T} {p : Nat} : pc.pushes = some p → Watches pc p
  | pop {pc : Pc T} {p : Nat} : pc.pops = some p → Watches pc p
  | pushCas (item : T) : Watches (.pushCas item m.enqueuePos) m.enqueuePos
  | popCas : Watches (.popCas m.dequeuePos) m.dequeuePos

/-- Where a thread stands for the queue that the threads share. -/
def callPc (tickets : List T) : Pc T → CallPc T
  | .idle => .idle
  | .pushLoad item | .pushSeq item _ | .pushCas item _ => .pushing item
  | .pushStore _ _ | .pushPublish _ => .pushed
  | .popLoad | .popSeq _ | .popCas _ => .popping
  | .popTake pos =>
    match tickets[pos]? with
    | some item => .popped item
    | none => .idle
  | .popRelease _ out => .popped out

/-- The queue that the threads share: the tickets that no consumer has taken. -/
def shared : SharedQueue T where
  items := m.tickets.drop m.dequeuePos
  threads t := callPc m.tickets (m.threads t)
  log := m.log

variable {k m} {m' : MpmcBoundedQueue T} {t t' p p' q : Nat} {pc pc' : Pc T} {item : T}

theorem seqOf_congr (h : cellOf k p = cellOf k q) : m.seqOf k p = m.seqOf k q := by
  unfold seqOf
  rw [h]

/-- The cells have one current ticket each. -/
theorem Current.unique (h : m.Current k p) (h' : m.Current k p')
    (hcell : cellOf k p = cellOf k p') : p = p' := by
  obtain ⟨hlt, hle⟩ := h
  obtain ⟨hlt', hle'⟩ := h'
  obtain hpp | hpp := Nat.le_total p p'
  · obtain heq | hfar := eq_or_far hcell hpp
    · exact heq
    · omega
  · obtain heq | hfar := eq_or_far hcell.symm hpp
    · exact heq.symm
    · omega

/-- The next turn of the cell of a current ticket. -/
theorem Current.turn (h : m.Current k p) (hq : m.enqueuePos ≤ q)
    (hq' : q < m.enqueuePos + capacity k) (hcell : cellOf k q = cellOf k p) :
    q = p + capacity k := by
  obtain ⟨hlt, hle⟩ := h
  obtain heq | hfar := eq_or_far hcell.symm (by omega)
  · omega
  · have hnext : cellOf k (p + capacity k) = cellOf k q :=
      (cellOf_add_capacity k p).trans hcell.symm
    obtain heq | hfar' := eq_or_far hnext hfar
    · exact heq.symm
    · omega

/-- What the holder of a producer's ticket relies on. -/
theorem Relies.of_pushes (h : m.Relies k pc) (hp : pc.pushes = some p) :
    m.Current k p ∧ m.dequeuePos ≤ p ∧ m.seqOf k p = p := by
  cases pc with
  | pushStore item pos =>
    cases hp
    exact ⟨h.1, h.2.1, h.2.2.1⟩
  | pushPublish pos =>
    cases hp
    exact ⟨h.1, h.2.1, h.2.2.1⟩
  | _ => cases hp

/-- What the holder of a consumer's ticket relies on. -/
theorem Relies.of_pops (h : m.Relies k pc) (hp : pc.pops = some p) :
    m.Current k p ∧ p < m.dequeuePos ∧ m.seqOf k p = p + 1 := by
  cases pc with
  | popTake pos =>
    cases hp
    exact ⟨h.1, h.2.1, h.2.2.1⟩
  | popRelease pos out =>
    cases hp
    exact ⟨h.1, h.2.1, h.2.2.1⟩
  | _ => cases hp

namespace Ticketed

variable (h : m.Ticketed k)
include h

theorem current (hold : m.Holds t p) : m.Current k p := by
  obtain hp | hp := hold
  · exact ((h.relies t).of_pushes hp).1
  · exact ((h.relies t).of_pops hp).1

/-- No other thread relies on the cell of which a thread holds the ticket. -/
theorem apart (hk : 1 ≤ k) (hold : m.Holds t p) (hne : t' ≠ t)
    (hw : Watches m (m.threads t') p') : cellOf k p' ≠ cellOf k p := by
  intro hcell
  have htwo := two_le_capacity hk
  have hseq : m.seqOf k p' = m.seqOf k p := seqOf_congr hcell
  obtain ⟨hlt, hle⟩ := h.current hold
  have hr := h.relies t'
  have hbehind := h.behind
  -- Neighbouring positions have different cells.
  have hsucc : p' ≠ p + 1 ∧ p ≠ p' + 1 := by
    constructor
    · rintro rfl
      obtain heq | hfar := eq_or_far hcell.symm (Nat.le_succ p)
      · omega
      · omega
    · rintro rfl
      obtain heq | hfar := eq_or_far hcell (Nat.le_succ p')
      · omega
      · omega
  obtain hp | hp := hold
  · obtain ⟨hc, hd, hs⟩ := (h.relies t).of_pushes hp
    generalize hpc : m.threads t' = pc at hw hr
    cases hw with
    | push hp' =>
      have heq := hc.unique (hr.of_pushes hp').1 hcell.symm
      exact hne (h.pushOnce t' t p (by rw [hpc, hp', heq]) hp)
    | pop hp' =>
      obtain ⟨hc', hd', -⟩ := hr.of_pops hp'
      have heq := hc.unique hc' hcell.symm
      omega
    | pushCas item =>
      have := hr.2 rfl
      omega
    | popCas =>
      have := hr.2 rfl
      omega
  · obtain ⟨hc, hd, hs⟩ := (h.relies t).of_pops hp
    generalize hpc : m.threads t' = pc at hw hr
    cases hw with
    | push hp' =>
      obtain ⟨hc', hd', -⟩ := hr.of_pushes hp'
      have heq := hc.unique hc' hcell.symm
      omega
    | pop hp' =>
      have heq := hc.unique (hr.of_pops hp').1 hcell.symm
      exact hne (h.popOnce t' t p (by rw [hpc, hp', heq]) hp)
    | pushCas item =>
      have := hr.2 rfl
      omega
    | popCas =>
      have := hr.2 rfl
      omega

end Ticketed

end MpmcBoundedQueue

end DmaAccel.Kctl
