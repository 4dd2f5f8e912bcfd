import Mathlib.Data.List.Nodup

/-!
# Unbounded first-in-first-out queues

A queue is a list, oldest entry first. An operation names the value it adds or removes, so
that a list of operations is a run of the queue only if every removal takes the oldest entry:
`fifoRun_eq_some` says that what a run removed, followed by what is left, is what it added.
-/

namespace DmaAccel.Base

universe u

variable {α : Type u} [DecidableEq α]

/-- One operation on a queue, with the value it adds or the value it removes. -/
inductive FifoOp (α : Type u) where
  | enq (x : α)
  | deq (x : α)
  deriving DecidableEq, Repr

/-- Effect of an operation; `none` where the value to remove is not the oldest one. -/
def fifoStep : List α → FifoOp α → Option (List α)
  | q, .enq x => some (q ++ [x])
  | [], .deq _ => none
  | y :: q, .deq x => if y = x then some q else none

/-- Execute the operations in order. -/
def fifoRun (q : List α) (ops : List (FifoOp α)) : Option (List α) := ops.foldlM fifoStep q

/-- Value an operation adds. -/
def FifoOp.added : FifoOp α → Option α
  | .enq x => some x
  | .deq _ => none

/-- Value an operation removes. -/
def FifoOp.removed : FifoOp α → Option α
  | .enq _ => none
  | .deq x => some x

variable {q q' : List α} {ops : List (FifoOp α)} {op : FifoOp α}

/-- One more operation at the end of a run. -/
theorem fifoRun_concat : fifoRun q (ops ++ [op]) = (fifoRun q ops).bind fun r ↦ fifoStep r op := by
  unfold fifoRun
  rw [List.foldlM_append]
  simp

private theorem fifoStep_eq_some (h : fifoStep q op = some q') :
    q ++ op.added.toList = op.removed.toList ++ q' := by
  cases op with
  | enq x =>
    cases h
    simp [FifoOp.added, FifoOp.removed]
  | deq x =>
    cases q with
    | nil => cases h
    | cons y q =>
      simp only [fifoStep, Option.ite_none_right_eq_some, Option.some.injEq] at h
      obtain ⟨rfl, rfl⟩ := h
      simp [FifoOp.added, FifoOp.removed]

/-- What a run removed, followed by what is left, is what was there followed by what it
added. -/
theorem fifoRun_eq_some (h : fifoRun q ops = some q') :
    q ++ ops.filterMap FifoOp.added = ops.filterMap FifoOp.removed ++ q' := by
  induction ops generalizing q with
  | nil =>
    cases h
    simp
  | cons op ops ih =>
    simp only [fifoRun, List.foldlM_cons, Option.bind_eq_bind, Option.bind_eq_some_iff] at h
    obtain ⟨r, hr, h⟩ := h
    have hcons (f : FifoOp α → Option α) :
        (op :: ops).filterMap f = (f op).toList ++ ops.filterMap f := by
      cases hf : f op <;> simp [hf]
    calc q ++ (op :: ops).filterMap FifoOp.added
        = op.removed.toList ++ r ++ ops.filterMap FifoOp.added := by
          rw [hcons, ← List.append_assoc, fifoStep_eq_some hr]
      _ = op.removed.toList ++ (ops.filterMap FifoOp.removed ++ q') := by
          rw [List.append_assoc, ih h]
      _ = (op :: ops).filterMap FifoOp.removed ++ q' := by rw [hcons, List.append_assoc]

end DmaAccel.Base
