import Mathlib.Data.List.Basic

/-!
# Bounded queues that discard their oldest element

A queue of a given capacity, pushed to by one party and popped by any number of readers. A push
that finds it full discards the oldest element first. The history keeps what has left the queue,
in order, each element with the reader that took it. `Implements` says that the operations of a
data structure are those of such a queue; `Implements.exec_run` follows any sequence of operations
on both sides.
-/

namespace DmaAccel.Base

universe u v w

variable {α : Type u} {ρ : Type v} {ι : Type w}

/-- An operation: a push, or a pop by the reader `r`. -/
inductive QueueOp (α : Type u) (ρ : Type v) where
  | push (x : α)
  | pop (r : ρ)
  deriving DecidableEq, Repr

/-- Value an operation pushes. -/
def QueueOp.pushed : QueueOp α ρ → Option α
  | .push x => some x
  | .pop _ => none

/-- A queue, oldest element first, and what has left it: each element with the reader that took
it, or with `none` where it was discarded. -/
structure LossyQueue (α : Type u) (ρ : Type v) where
  items : List α
  gone : List (α × Option ρ)
  deriving DecidableEq, Repr

namespace LossyQueue

/-- The oldest element leaves, if there is one. -/
def leave (q : LossyQueue α ρ) (who : Option ρ) : LossyQueue α ρ :=
  match q.items with
  | [] => q
  | x :: rest => ⟨rest, q.gone ++ [(x, who)]⟩

/-- Effect of an operation on a queue of capacity `cap`. -/
def step (cap : Nat) (q : LossyQueue α ρ) : QueueOp α ρ → LossyQueue α ρ
  | .push x =>
    let q := if q.items.length < cap then q else q.leave none
    { q with items := q.items ++ [x] }
  | .pop r => q.leave (some r)

/-- Execute the operations in order. -/
def run (cap : Nat) (q : LossyQueue α ρ) (ops : List (QueueOp α ρ)) : LossyQueue α ρ :=
  ops.foldl (step cap) q

/-- What the readers took, in order. -/
def taken (q : LossyQueue α ρ) : List (α × ρ) := q.gone.filterMap fun p ↦ p.2.map (p.1, ·)

variable {cap : Nat} {q : LossyQueue α ρ} {x : α} {who : Option ρ} {op : QueueOp α ρ}

/-- What leaves is the oldest element. -/
theorem gone_leave (q : LossyQueue α ρ) (who : Option ρ) :
    (q.leave who).gone.map (·.1) ++ (q.leave who).items = q.gone.map (·.1) ++ q.items := by
  unfold leave
  split
  · rfl
  · next x rest h =>
    rw [h]
    simp

/-- What has left, followed by what is there, grows by what is pushed. -/
theorem gone_step (q : LossyQueue α ρ) (op : QueueOp α ρ) :
    (step cap q op).gone.map (·.1) ++ (step cap q op).items =
      q.gone.map (·.1) ++ q.items ++ op.pushed.toList := by
  cases op with
  | push x =>
    simp only [step, QueueOp.pushed, Option.toList_some, ← List.append_assoc]
    congr 1
    split
    · rfl
    · exact gone_leave q none
  | pop r =>
    simp only [step, QueueOp.pushed, Option.toList_none, List.append_nil]
    exact gone_leave q (some r)

/-- Every element pushed has left, in the order of the pushes, or is in the queue. -/
theorem gone_run (cap : Nat) (q : LossyQueue α ρ) (ops : List (QueueOp α ρ)) :
    (run cap q ops).gone.map (·.1) ++ (run cap q ops).items =
      q.gone.map (·.1) ++ q.items ++ ops.filterMap QueueOp.pushed := by
  induction ops generalizing q with
  | nil => simp [run]
  | cons op ops ih =>
    have hcons : (op :: ops).filterMap QueueOp.pushed =
        op.pushed.toList ++ ops.filterMap QueueOp.pushed := by
      cases op <;> rfl
    calc (run cap q (op :: ops)).gone.map (·.1) ++ (run cap q (op :: ops)).items
        = (step cap q op).gone.map (·.1) ++ (step cap q op).items ++
            ops.filterMap QueueOp.pushed := ih (step cap q op)
      _ = q.gone.map (·.1) ++ q.items ++ (op :: ops).filterMap QueueOp.pushed := by
          rw [gone_step, List.append_assoc, hcons]

/-- A discarded element adds nothing to what was taken. -/
theorem taken_discard (q : LossyQueue α ρ) : (q.leave none).taken = q.taken := by
  unfold leave taken
  split
  · rfl
  · simp [List.filterMap_append]

/-- The oldest element goes to the reader. -/
theorem taken_pop {r : ρ} {rest : List α} (h : q.items = x :: rest) :
    (q.leave (some r)).taken = q.taken ++ [(x, r)] := by
  unfold leave taken
  rw [h]
  simp [List.filterMap_append]

end LossyQueue

/-- The operations of a data structure, on values that are `ok` and stand for the queue `view`. -/
structure Implements (cap : Nat) (ok : ι → Prop) (view : ι → List α) (push : ι → α → ι)
    (pop : ι → Option (α × ι)) : Prop where
  push_ok : ∀ i x, ok i → ok (push i x)
  pop_ok : ∀ i x j, ok i → pop i = some (x, j) → ok j
  view_push : ∀ i x, ok i → view (push i x) =
    (if (view i).length < cap then view i else (view i).tail) ++ [x]
  view_pop : ∀ i x j, ok i → pop i = some (x, j) → view i = x :: view j
  view_empty : ∀ i, ok i → pop i = none → view i = []

/-- One operation on the data structure, and what readers have got from it so far. -/
def exec (push : ι → α → ι) (pop : ι → Option (α × ι)) (s : ι × List (α × ρ)) :
    QueueOp α ρ → ι × List (α × ρ)
  | .push x => (push s.1 x, s.2)
  | .pop r =>
    match pop s.1 with
    | some (x, i) => (i, s.2 ++ [(x, r)])
    | none => s

namespace Implements

variable {cap : Nat} {ok : ι → Prop} {view : ι → List α} {push : ι → α → ι}
  {pop : ι → Option (α × ι)} {s : ι × List (α × ρ)} {q : LossyQueue α ρ}

/-- One operation keeps the two sides together. -/
theorem exec_step (h : Implements cap ok view push pop) (hok : ok s.1)
    (hview : view s.1 = q.items) (hout : s.2 = q.taken) (op : QueueOp α ρ) :
    ok (exec push pop s op).1 ∧ view (exec push pop s op).1 = (q.step cap op).items ∧
      (exec push pop s op).2 = (q.step cap op).taken := by
  cases op with
  | push x =>
    refine ⟨h.push_ok _ _ hok, ?_, ?_⟩
    · simp only [exec, LossyQueue.step]
      rw [h.view_push _ _ hok, hview]
      congr 1
      split
      · rfl
      · unfold LossyQueue.leave
        cases hi : q.items with
        | nil => exact hi.symm
        | cons y rest => rfl
    · simp only [exec, LossyQueue.step]
      split
      · exact hout
      · exact hout.trans (LossyQueue.taken_discard q).symm
  | pop r =>
    simp only [exec, LossyQueue.step]
    cases hp : pop s.1 with
    | none =>
      have hnil : q.items = [] := hview.symm.trans (h.view_empty _ hok hp)
      have hsame : q.leave (some r) = q := by
        unfold LossyQueue.leave
        rw [hnil]
      rw [hsame]
      exact ⟨hok, hview, hout⟩
    | some y =>
      obtain ⟨x, i⟩ := y
      have hcons : q.items = x :: view i := hview.symm.trans (h.view_pop _ _ _ hok hp)
      refine ⟨h.pop_ok _ _ _ hok hp, ?_, ?_⟩
      · unfold LossyQueue.leave
        rw [hcons]
      · rw [LossyQueue.taken_pop hcons, hout]

/-- Any sequence of operations keeps the two sides together. -/
theorem exec_run (h : Implements cap ok view push pop) (hok : ok s.1) (hview : view s.1 = q.items)
    (hout : s.2 = q.taken) (ops : List (QueueOp α ρ)) :
    ok (ops.foldl (exec push pop) s).1 ∧
      view (ops.foldl (exec push pop) s).1 = (q.run cap ops).items ∧
      (ops.foldl (exec push pop) s).2 = (q.run cap ops).taken := by
  induction ops generalizing s q with
  | nil => exact ⟨hok, hview, hout⟩
  | cons op ops ih =>
    obtain ⟨hok', hview', hout'⟩ := h.exec_step hok hview hout op
    exact ih hok' hview' hout'

end Implements

end DmaAccel.Base
