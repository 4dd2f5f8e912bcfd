import DmaAccel.Base.SharedQueue

/-!
# The queue of several producers and consumers

Source `track-c/third_party/kctl/kctl/mpmc_bounded_queue.hpp`, by which the threads of
`track-c/tests/dma_accel_multistream_threaded_test.cpp` report completions. A producer takes a
ticket by advancing `enqueue_pos_` and then fills the cell of its ticket; a consumer takes one by
advancing `dequeue_pos_`. The `sequence` of a cell says for which ticket it is free (`pos`) or
filled (`pos + 1`).

A step is one access to what the threads share. What a load of a position returns, and a
`compare_exchange_weak` that fails, may be any value that the position has had; a load of a
`sequence` returns the last. Positions are taken not to come round. What a moved-from item is left
as is a parameter.
-/

namespace DmaAccel.Kctl

open DmaAccel.Base

universe u

variable {T : Type u}

/-- `capacity_`, a power of two. -/
def capacity (k : Nat) : Nat := Nat.pow 2 k

/-- `mask_`. -/
def mask (k : Nat) : Nat := capacity k - 1

/-- The cell of a position, `pos & mask_`. -/
def cellOf (k pos : Nat) : Nat := pos &&& mask k

/-- `Cell`. -/
structure Cell (T : Type u) where
  sequence : Nat
  data : T

/-- Where a thread stands in `try_push` or `try_pop`. -/
inductive Pc (T : Type u) where
  | idle
  | pushLoad (item : T)
  | pushSeq (item : T) (pos : Nat)
  | pushCas (item : T) (pos : Nat)
  | pushStore (item : T) (pos : Nat)
  | pushPublish (pos : Nat)
  | popLoad
  | popSeq (pos : Nat)
  | popCas (pos : Nat)
  | popTake (pos : Nat)
  | popRelease (pos : Nat) (out : T)

/-- The queue and the threads that use it. The items by ticket and the log are history. -/
structure MpmcBoundedQueue (T : Type u) where
  buffer : Nat → Cell T
  enqueuePos : Nat
  dequeuePos : Nat
  threads : Nat → Pc T
  tickets : List T
  log : List (CallEvent T)

/-- What happens next: a call, the next access of a thread, with what it sees of a position, or a
`compare_exchange_weak` that fails for no reason. -/
inductive Act (T : Type u) where
  | tryPush (t : Nat) (item : T)
  | tryPop (t : Nat)
  | access (t seen : Nat)
  | fail (t seen : Nat)

namespace MpmcBoundedQueue

variable (k : Nat) (moved : T → T) (q : MpmcBoundedQueue T)

/-- The constructor. -/
def construct (zero : T) : MpmcBoundedQueue T :=
  ⟨fun i ↦ ⟨i, zero⟩, 0, 0, fun _ ↦ .idle, [], []⟩

/-- A thread goes on. -/
def setPc (t : Nat) (pc : Pc T) : MpmcBoundedQueue T :=
  { q with threads := Function.update q.threads t pc }

/-- A call starts or returns. -/
def logged (e : CallEvent T) : MpmcBoundedQueue T := { q with log := q.log ++ [e] }

/-- `sequence` of the cell of a position. -/
def seqOf (pos : Nat) : Nat := (q.buffer (cellOf k pos)).sequence

/-- `data` of the cell of a position. -/
def dataOf (pos : Nat) : T := (q.buffer (cellOf k pos)).data

/-- `cell->sequence.store`. -/
def setSeq (pos seq : Nat) : MpmcBoundedQueue T :=
  { q with buffer := Function.update q.buffer (cellOf k pos) ⟨seq, q.dataOf k pos⟩ }

/-- A write of `cell->data`. -/
def setData (pos : Nat) (x : T) : MpmcBoundedQueue T :=
  { q with buffer := Function.update q.buffer (cellOf k pos) ⟨q.seqOf k pos, x⟩ }

/-- The next access of a thread. -/
def access (t seen : Nat) : Option (MpmcBoundedQueue T) :=
  match q.threads t with
  | .idle => none
  | .pushLoad item =>
    if seen ≤ q.enqueuePos then some (q.setPc t (.pushSeq item seen)) else none
  | .pushSeq item pos =>
    if q.seqOf k pos = pos then some (q.setPc t (.pushCas item pos))
    else if q.seqOf k pos < pos then some ((q.setPc t .idle).logged (.pushed t false))
    else some (q.setPc t (.pushLoad item))
  | .pushCas item pos =>
    if q.enqueuePos = pos then
      some { q.setPc t (.pushStore item pos) with
        enqueuePos := pos + 1, tickets := q.tickets ++ [item] }
    else if seen ≤ q.enqueuePos then some (q.setPc t (.pushSeq item seen)) else none
  | .pushStore item pos => some ((q.setData k pos item).setPc t (.pushPublish pos))
  | .pushPublish pos =>
    some (((q.setSeq k pos (pos + 1)).setPc t .idle).logged (.pushed t true))
  | .popLoad => if seen ≤ q.dequeuePos then some (q.setPc t (.popSeq seen)) else none
  | .popSeq pos =>
    if q.seqOf k pos = pos + 1 then some (q.setPc t (.popCas pos))
    else if q.seqOf k pos < pos + 1 then some ((q.setPc t .idle).logged (.popped t none))
    else some (q.setPc t .popLoad)
  | .popCas pos =>
    if q.dequeuePos = pos then some { q.setPc t (.popTake pos) with dequeuePos := pos + 1 }
    else if seen ≤ q.dequeuePos then some (q.setPc t (.popSeq seen)) else none
  | .popTake pos =>
    some ((q.setData k pos (moved (q.dataOf k pos))).setPc t (.popRelease pos (q.dataOf k pos)))
  | .popRelease pos out =>
    some (((q.setSeq k pos (pos + mask k + 1)).setPc t .idle).logged (.popped t (some out)))

/-- Every step. -/
def step : Act T → Option (MpmcBoundedQueue T)
  | .tryPush t item =>
    match q.threads t with
    | .idle => some ((q.setPc t (.pushLoad item)).logged (.push t item))
    | _ => none
  | .tryPop t =>
    match q.threads t with
    | .idle => some ((q.setPc t .popLoad).logged (.pop t))
    | _ => none
  | .access t seen => q.access k moved t seen
  | .fail t seen =>
    match q.threads t with
    | .pushCas item _ =>
      if seen ≤ q.enqueuePos then some (q.setPc t (.pushSeq item seen)) else none
    | .popCas _ => if seen ≤ q.dequeuePos then some (q.setPc t (.popSeq seen)) else none
    | _ => none

end MpmcBoundedQueue

/-- The position whose cell's `data` a thread accesses next. -/
def Pc.data : Pc T → Option Nat
  | .pushStore _ pos | .popTake pos => some pos
  | _ => none

end DmaAccel.Kctl
