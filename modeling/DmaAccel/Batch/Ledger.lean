import DmaAccel.Base.History
import DmaAccel.Base.Tally
import DmaAccel.Batch.CommandBatch

/-!
# Each command is submitted at most once

Source `track-c/runtime/dma_accel_command_batch.cpp` (11–88). Whatever is moved, retried or
destroyed, the commands of a lot are invoked in the order in which they were queued, each at most
once, and on one Stream. A group that `submit` returns is sealed and holds their fences; after a
submission that throws nothing of the lot is invoked again.
-/

namespace DmaAccel.Batch

open Base

universe u v w x

variable {ς : Type u} {φ : Type v} {σ : Type w} {ε : Type x}

/-! ### Reading the history -/

namespace Event

/-- The lot it is about. -/
def lot : Event ς φ → Nat
  | .appended l _ | .froze l | .called l _ _ | .returned l _ | .threw l | .refused l _ => l

/-- The closure it queues in lot `l`. -/
def appendedIn (l : Nat) : Event ς φ → Option (Closure ς)
  | .appended m fn => if m = l then some fn else none
  | _ => none

/-- The closure of lot `l` it invokes, with what that returns. -/
def calledIn (l : Nat) : Event ς φ → Option (Closure ς × Option φ)
  | .called m fn r => if m = l then some (fn, r) else none
  | _ => none

/-- The lot whose commands it queues, invokes or is done with. -/
def work : Event ς φ → Option Nat
  | .appended l _ | .called l _ _ | .returned l _ | .threw l => some l
  | _ => none

/-- The end of a `submit` that invoked closures. -/
def Ending : Event ς φ → Prop
  | .returned _ _ | .threw _ => True
  | _ => False

/-- The lot whose commands it queues or fixes. -/
def queueing : Event ς φ → Option Nat
  | .appended l _ | .froze l => some l
  | _ => none

/-- The first `freeze` of a lot. -/
def Freezing : Event ς φ → Prop
  | .froze _ => True
  | _ => False

end Event

/-- What has been queued in lot `l`, in order. -/
def appendedTo (l : Nat) (history : List (Event ς φ)) : List (Closure ς) :=
  history.filterMap (·.appendedIn l)

/-- What of it has been invoked, in order, and what that returned. -/
def calledOf (l : Nat) (history : List (Event ς φ)) : List (Closure ς × Option φ) :=
  history.filterMap (·.calledIn l)

/-- The end of a `submit` after the history `pre`. A group that is returned is sealed, and holds
the fences of all commands of the lot in order, and all of these went through its Stream. When it
throws, the last command invoked has not returned. -/
def EndsWell (pre : List (Event ς φ)) : Event ς φ → Prop
  | .returned l group => group.isSealed = true ∧
      (calledOf l pre).map (·.1) = appendedTo l pre ∧
      (calledOf l pre).map (·.2) = group.fences.map some ∧
      ∀ fn ∈ appendedTo l pre, fn.stream = group.stream
  | .threw l => ∃ done fn, calledOf l pre = done ++ [(fn, none)] ∧ ∀ c ∈ done, c.2.isSome = true
  | _ => True

/-- What is asked of a history: the commands of a lot are invoked in order, each at most once, and
on one Stream; nothing is queued after a `freeze`; and once a `submit` has ended, which it does
well, nothing of the lot is queued or invoked again. -/
structure Orderly (history : List (Event ς φ)) : Prop where
  order : ∀ l, (calledOf l history).map (·.1) <+: appendedTo l history
  stream : ∀ l, ∀ fn ∈ appendedTo l history, ∀ fn' ∈ appendedTo l history, fn.stream = fn'.stream
  frozen : Closes Event.queueing Event.Freezing (fun _ _ ↦ True) history
  ends : Closes Event.work Event.Ending EndsWell history

section Append

variable (l : Nat) (history es : List (Event ς φ))

@[simp] theorem appendedTo_append :
    appendedTo l (history ++ es) = appendedTo l history ++ appendedTo l es :=
  List.filterMap_append

@[simp] theorem calledOf_append :
    calledOf l (history ++ es) = calledOf l history ++ calledOf l es :=
  List.filterMap_append

variable {l es}

/-- Events of other lots do not count. -/
theorem appendedTo_of_ne (h : ∀ e ∈ es, e.lot ≠ l) : appendedTo l es = [] := by
  refine List.filterMap_eq_nil_iff.mpr fun e he ↦ ?_
  cases e with
  | appended m fn => exact if_neg (h _ he)
  | froze | called | returned | threw | refused => rfl

theorem calledOf_of_ne (h : ∀ e ∈ es, e.lot ≠ l) : calledOf l es = [] := by
  refine List.filterMap_eq_nil_iff.mpr fun e he ↦ ?_
  cases e with
  | called m fn r => exact if_neg (h _ he)
  | froze | appended | returned | threw | refused => rfl

end Append

/-- The events of the closures that a `submit` invokes. -/
def calls (l : Nat) (cs : List (Closure ς × Option φ)) : List (Event ς φ) :=
  cs.map fun c ↦ .called l c.1 c.2

theorem appendedTo_calls (l m : Nat) (cs : List (Closure ς × Option φ)) :
    appendedTo l (calls m cs) = [] := by
  refine List.filterMap_eq_nil_iff.mpr fun e he ↦ ?_
  obtain ⟨c, -, rfl⟩ := List.mem_map.mp he
  rfl

theorem calledOf_calls (l : Nat) (cs : List (Closure ς × Option φ)) :
    calledOf l (calls l cs) = cs := by
  induction cs with
  | nil => rfl
  | cons c cs ih =>
    have hc : (Event.called l c.1 c.2).calledIn l = some c := if_pos rfl
    unfold calledOf calls at ih ⊢
    rw [List.map_cons, List.filterMap_cons_some hc, ih]

/-! ### One `submit` -/

/-- The loop goes through all closures, or up to one that throws. -/
theorem dispatch_spec (out : Outside ς φ σ ε) (fns : List (Closure ς)) (group : CommandGroup ς φ)
    (hopen : group.isSealed = false) (world : σ) :
    let r := dispatch out fns group world
    (∃ fences, r.1 = .ok { group with fences := group.fences ++ fences } ∧
      r.2.2.map (·.1) = fns ∧ r.2.2.map (·.2) = fences.map some) ∨
    ∃ e done fn rest, r.1 = .error (.submission e) ∧ fns = done.map (·.1) ++ fn :: rest ∧
      r.2.2 = done ++ [(fn, none)] ∧ ∀ c ∈ done, c.2.isSome = true := by
  induction fns generalizing group world with
  | nil => exact .inl ⟨[], by simp [dispatch], rfl, rfl⟩
  | cons fn fns ih =>
    rcases hi : fn.invoke out world with ⟨r, world'⟩
    cases r with
    | error e =>
      right
      refine ⟨e, [], fn, fns, ?_, rfl, ?_, fun c hc ↦ by cases hc⟩
      · simp only [dispatch, hi]
      · simp only [dispatch, hi, List.nil_append]
    | ok fence =>
      have hadd : group.add fence = .ok { group with fences := group.fences ++ [fence] } := by
        rw [CommandGroup.add, if_neg (by simp [hopen])]
      simp only [dispatch, hi, hadd]
      rcases ih { group with fences := group.fences ++ [fence] } hopen world' with
        ⟨fences, hr, h1, h2⟩ | ⟨e, done, fn', rest, hr, hfns, hc, hdone⟩
      · left
        refine ⟨fence :: fences, ?_, ?_, ?_⟩
        · rw [hr, List.append_assoc, List.singleton_append]
        · rw [List.map_cons, h1]
        · rw [List.map_cons, h2, List.map_cons]
      · right
        refine ⟨e, (fn, some fence) :: done, fn', rest, hr, ?_, ?_, ?_⟩
        · rw [hfns, List.map_cons, List.cons_append]
        · rw [hc, List.cons_append]
        · intro c hmem
          rcases List.mem_cons.mp hmem with rfl | hmem
          · rfl
          · exact hdone c hmem

/-! ### The steps -/

namespace Program

/-- What one step does. -/
inductive Trans (p : Program ς φ σ) : Program ς φ σ → Prop where
  | same : Trans p p
  | construct (stream : ς) : Trans p { p.put p.nbatches (some (.new stream p.nlots)) with
      nbatches := p.nbatches + 1, nlots := p.nlots + 1 }
  | appended {b : Nat} {batch : CommandBatch ς} (command : Command) : p.batches b = some batch →
      batch.frozen = false →
      Trans p ((p.put b (some { batch with
        commands := batch.commands ++ [⟨batch.stream, command⟩] })).record
        [.appended batch.lot ⟨batch.stream, command⟩])
  | refused {b : Nat} {batch : CommandBatch ς} (e : LogicError) : p.batches b = some batch →
      Trans p (p.record [.refused batch.lot e])
  | froze {b : Nat} {batch : CommandBatch ς} : p.batches b = some batch → batch.frozen = false →
      Trans p ((p.put b (some batch.freeze)).record [.froze batch.lot])
  | returned {b : Nat} {batch : CommandBatch ς} {cs : List (Closure ς × Option φ)}
      {group : CommandGroup ς φ} (world : σ) : p.batches b = some batch → batch.frozen = true →
      batch.submitted = false → group.isSealed = true → group.stream = batch.stream →
      cs.map (·.1) = batch.commands → cs.map (·.2) = group.fences.map some →
      Trans p { (p.put b (some { batch with submitted := true })).record
        (calls batch.lot cs ++ [.returned batch.lot group]) with world }
  | threw {b : Nat} {batch : CommandBatch ς} {done : List (Closure ς × Option φ)}
      {fn : Closure ς} {rest : List (Closure ς)} (world : σ) : p.batches b = some batch →
      batch.frozen = true → batch.submitted = false →
      batch.commands = done.map (·.1) ++ fn :: rest → (∀ c ∈ done, c.2.isSome = true) →
      Trans p { (p.put b (some { batch with submitted := true })).record
        (calls batch.lot (done ++ [(fn, none)]) ++ [.threw batch.lot]) with world }
  | moveConstruct {src : Nat} {batch : CommandBatch ς} : p.batches src = some batch →
      Trans p { (p.put src (some (batch.movedFrom p.nlots))).put p.nbatches (some batch) with
        nbatches := p.nbatches + 1, nlots := p.nlots + 1 }
  | moveAssign {dst src : Nat} {batch : CommandBatch ς} : p.batches src = some batch →
      dst ≠ src → p.batches dst ≠ none →
      Trans p { (p.put src (some (batch.movedFrom p.nlots))).put dst (some batch) with
        nlots := p.nlots + 1 }
  | destroy (b : Nat) : Trans p (p.put b none)
  | outside (world : σ) : Trans p { p with world }

variable {p p' : Program ς φ σ} {out : Outside ς φ σ ε} {a : Act ς σ}

/-- The batches after one has been replaced. -/
theorem put_eq_some {b c : Nat} {o : Option (CommandBatch ς)} {other : CommandBatch ς}
    (h : (p.put b o).batches c = some other) :
    c = b ∧ o = some other ∨ c ≠ b ∧ p.batches c = some other :=
  update_eq_some_iff.mp h

theorem put_self {b : Nat} {batch : CommandBatch ς} (h : p.batches b = some batch) :
    p.put b (some batch) = p := by
  rw [put, ← h, Function.update_eq_self]

/-- A call of `submit`. -/
private theorem trans_of_submit {b : Nat} {batch : CommandBatch ς}
    (h : p.batches b = some batch) (out : Outside ς φ σ ε) :
    let r := batch.submit out p.world
    p.Trans { (p.put b (some r.2.1)).record (events batch.lot r.1 r.2.2.2) with
      world := r.2.2.1 } := by
  unfold CommandBatch.submit
  by_cases hf : batch.frozen = true
  · by_cases hs : batch.submitted = true
    · simp only [hf, hs, Bool.not_true, Bool.false_eq_true, if_false, if_true, put_self h]
      exact .refused _ h
    · rw [Bool.not_eq_true] at hs
      rw [if_neg (by simp [hf]), if_neg (by simp [hs])]
      have hspec := dispatch_spec out batch.commands (.new batch.stream) rfl p.world
      rcases hd : dispatch out batch.commands (.new batch.stream) p.world with ⟨r, world, cs⟩
      rw [hd] at hspec
      rcases hspec with ⟨fences, hr, h1, h2⟩ | ⟨e, done, fn, rest, hr, hfns, hc, hdone⟩
      · cases hr
        have hsealed : (⟨batch.stream, fences, true⟩ : CommandGroup ς φ).isSealed = true := rfl
        exact .returned world h hf hs hsealed rfl h1 h2
      · cases hr
        cases hc
        exact .threw world h hf hs hfns hdone
  · simp only [hf, Bool.not_false, if_true, put_self h]
    exact .refused _ h

theorem trans_of_step (h : p.step out a = some p') : p.Trans p' := by
  cases a with
  | construct stream =>
    cases h
    exact .construct stream
  | append b command =>
    obtain ⟨batch, hb, rfl⟩ := Option.map_eq_some_iff.mp h
    unfold CommandBatch.append
    by_cases hf : batch.frozen = true
    · rw [if_pos hf]
      exact .refused _ hb
    · rw [if_neg hf]
      exact .appended command hb (Bool.not_eq_true _ ▸ hf)
  | freeze b =>
    obtain ⟨batch, hb, rfl⟩ := Option.map_eq_some_iff.mp h
    by_cases hf : batch.frozen = true
    · have hsame : batch.freeze = batch := by
        unfold CommandBatch.freeze
        rw [← hf]
      rw [if_pos hf, hsame, put_self hb, record, List.append_nil]
      exact .same
    · rw [if_neg hf]
      exact .froze hb (Bool.not_eq_true _ ▸ hf)
  | submit b =>
    obtain ⟨batch, hb, rfl⟩ := Option.map_eq_some_iff.mp h
    exact trans_of_submit hb out
  | moveConstruct src =>
    obtain ⟨batch, hb, rfl⟩ := Option.map_eq_some_iff.mp h
    exact .moveConstruct hb
  | moveAssign dst src =>
    simp only [step] at h
    split at h
    · cases h
    · next hne =>
      rw [not_or] at hne
      obtain ⟨batch, hb, rfl⟩ := Option.map_eq_some_iff.mp h
      exact .moveAssign hb hne.1 hne.2
  | destroy b =>
    obtain ⟨batch, -, rfl⟩ := Option.map_eq_some_iff.mp h
    exact .destroy b
  | outside world =>
    cases h
    exact .outside world

end Program

/-! ### What holds in every state -/

/-- What a batch knows of its lot. -/
structure CommandBatch.Keeps (batch : CommandBatch ς) (nlots : Nat)
    (history : List (Event ς φ)) : Prop where
  known : batch.lot < nlots
  commands : batch.commands = appendedTo batch.lot history
  stream : ∀ fn ∈ batch.commands, fn.stream = batch.stream
  frozen : ∀ e ∈ history, e.Freezing → e.lot = batch.lot → batch.frozen = true
  ended : ∀ e ∈ history, e.Ending → e.lot = batch.lot → batch.submitted = true
  uncalled : batch.submitted = false → calledOf batch.lot history = []
  submitted : batch.submitted = true → batch.frozen = true

namespace CommandBatch.Keeps

variable {batch : CommandBatch ς} {nlots nlots' : Nat} {history es : List (Event ς φ)}

theorem mono (h : batch.Keeps nlots history) (hle : nlots ≤ nlots') :
    batch.Keeps nlots' history :=
  ⟨h.known.trans_le hle, h.commands, h.stream, h.frozen, h.ended, h.uncalled, h.submitted⟩

/-- Events of other lots. -/
theorem append (h : batch.Keeps nlots history) (hes : ∀ e ∈ es, e.lot ≠ batch.lot) :
    batch.Keeps nlots (history ++ es) where
  known := h.known
  commands := by
    rw [appendedTo_append, appendedTo_of_ne hes, List.append_nil]
    exact h.commands
  stream := h.stream
  frozen e he hf hl := by
    rcases List.mem_append.mp he with he | he
    · exact h.frozen e he hf hl
    · exact (hes e he hl).elim
  ended e he hf hl := by
    rcases List.mem_append.mp he with he | he
    · exact h.ended e he hf hl
    · exact (hes e he hl).elim
  uncalled hs := by
    rw [calledOf_append, calledOf_of_ne hes, List.append_nil]
    exact h.uncalled hs
  submitted := h.submitted

/-- Events of its own lot, and what they make of the batch. -/
theorem extend {batch' : CommandBatch ς} (h : batch.Keeps nlots history)
    (hl : batch'.lot = batch.lot) (hst : batch'.stream = batch.stream)
    (hc : batch'.commands = batch.commands ++ appendedTo batch.lot es)
    (hes : ∀ fn ∈ appendedTo batch.lot es, fn.stream = batch.stream)
    (hf : batch.frozen = true → batch'.frozen = true)
    (hs : batch.submitted = true → batch'.submitted = true)
    (hfreeze : ∀ e ∈ es, e.Freezing → batch'.frozen = true)
    (hend : ∀ e ∈ es, e.Ending → batch'.submitted = true)
    (hcalled : batch'.submitted = false → calledOf batch.lot es = [])
    (hsf : batch'.submitted = true → batch'.frozen = true) :
    batch'.Keeps nlots (history ++ es) where
  known := by
    rw [hl]
    exact h.known
  commands := by rw [hl, hc, appendedTo_append, h.commands]
  stream fn hfn := by
    rw [hc] at hfn
    rw [hst]
    rcases List.mem_append.mp hfn with hfn | hfn
    · exact h.stream fn hfn
    · exact hes fn hfn
  frozen e he hfr heq := by
    rcases List.mem_append.mp he with he | he
    · exact hf (h.frozen e he hfr (heq.trans hl))
    · exact hfreeze e he hfr
  ended e he hen heq := by
    rcases List.mem_append.mp he with he | he
    · exact hs (h.ended e he hen (heq.trans hl))
    · exact hend e he hen
  uncalled hn := by
    have hn' : batch.submitted = false := by
      by_contra hne
      rw [hs (Bool.not_eq_false _ ▸ hne)] at hn
      cases hn
    rw [hl, calledOf_append, h.uncalled hn', hcalled hn, List.append_nil]
  submitted := hsf

/-- An empty batch with a lot of its own. -/
theorem fresh (hknown : ∀ e ∈ history, e.lot < nlots) (hl : batch.lot = nlots)
    (hc : batch.commands = []) (hs : batch.submitted = true → batch.frozen = true) :
    batch.Keeps (nlots + 1) history := by
  have hne : ∀ e ∈ history, e.lot ≠ batch.lot := fun e he ↦ by
    rw [hl]
    exact Nat.ne_of_lt (hknown e he)
  refine ⟨by omega, ?_, ?_, ?_, ?_, ?_, hs⟩
  · rw [hc, appendedTo_of_ne hne]
  · intro fn hfn
    rw [hc] at hfn
    cases hfn
  · exact fun e he _ heq ↦ (hne e he heq).elim
  · exact fun e he _ heq ↦ (hne e he heq).elim
  · exact fun _ ↦ calledOf_of_ne hne

end CommandBatch.Keeps

/-- Each batch keeps its lot, and no two have the same. -/
structure Program.Tidy (p : Program ς φ σ) : Prop where
  unmade : ∀ b, p.nbatches ≤ b → p.batches b = none
  keeps : ∀ b batch, p.batches b = some batch → batch.Keeps p.nlots p.history
  apart : ∀ b b' batch batch', p.batches b = some batch → p.batches b' = some batch' →
    batch.lot = batch'.lot → b = b'
  known : ∀ e ∈ p.history, e.lot < p.nlots

namespace Program.Tidy

variable {p p' : Program ς φ σ} {b : Nat} {batch batch' : CommandBatch ς}
  {es : List (Event ς φ)}

theorem lt (hi : p.Tidy) (hb : p.batches b = some batch) : b < p.nbatches := by
  by_contra hge
  rw [hi.unmade b (Nat.le_of_not_lt hge)] at hb
  cases hb

/-- More lots than there are. -/
theorem spare (hi : p.Tidy) : Program.Tidy { p with nlots := p.nlots + 1 } :=
  ⟨hi.unmade, fun c other ho ↦ (hi.keeps c other ho).mono (Nat.le_succ _), hi.apart,
    fun e he ↦ Nat.lt_succ_of_lt (hi.known e he)⟩

/-- A batch is destroyed. -/
theorem remove (hi : p.Tidy) (b : Nat) : (p.put b none).Tidy := by
  have hsub {c : Nat} {other : CommandBatch ς} (ho : (p.put b none).batches c = some other) :
      p.batches c = some other := by
    rcases put_eq_some ho with ⟨-, ho⟩ | ⟨-, ho⟩
    · cases ho
    · exact ho
  constructor
  · intro c hc
    cases ho : (p.put b none).batches c with
    | none => rfl
    | some other => exact absurd (hi.lt (hsub ho)) (Nat.not_lt.mpr hc)
  · exact fun c other ho ↦ hi.keeps c other (hsub ho)
  · exact fun c d oc od hc hd ↦ hi.apart c d oc od (hsub hc) (hsub hd)
  · exact hi.known

/-- Events of lots that no batch has. -/
theorem note (hi : p.Tidy) (hes : ∀ e ∈ es, e.lot < p.nlots ∧
    ∀ c other, p.batches c = some other → e.lot ≠ other.lot) : (p.record es).Tidy where
  unmade := hi.unmade
  keeps c other ho := (hi.keeps c other ho).append fun e he ↦ (hes e he).2 c other ho
  apart := hi.apart
  known e he := by
    rcases List.mem_append.mp he with he | he
    · exact hi.known e he
    · exact (hes e he).1

/-- A batch comes to be where there was none, or another one. -/
theorem insert (hi : p.Tidy) (hk : batch.Keeps p.nlots p.history)
    (hfree : ∀ c other, c ≠ b → p.batches c = some other → other.lot ≠ batch.lot)
    (hbatches : p'.batches = Function.update p.batches b (some batch))
    (hhistory : p'.history = p.history) (hlots : p'.nlots = p.nlots)
    (hn : p.nbatches ≤ p'.nbatches) (hb : b < p'.nbatches) : p'.Tidy := by
  have hcases {c : Nat} {other : CommandBatch ς} (ho : p'.batches c = some other) :
      c = b ∧ other = batch ∨ c ≠ b ∧ p.batches c = some other := by
    rw [hbatches] at ho
    rcases update_eq_some_iff.mp ho with ⟨hc, ho⟩ | h
    · exact .inl ⟨hc, (Option.some.inj ho).symm⟩
    · exact .inr h
  constructor
  · intro c hc
    rw [hbatches, Function.update_of_ne (by omega)]
    exact hi.unmade c (hn.trans hc)
  · intro c other ho
    rw [hhistory, hlots]
    rcases hcases ho with ⟨-, rfl⟩ | ⟨-, ho⟩
    · exact hk
    · exact hi.keeps c other ho
  · intro c d oc od hc hd heq
    rcases hcases hc with ⟨rfl, rfl⟩ | ⟨hcb, hc⟩
    · rcases hcases hd with ⟨rfl, -⟩ | ⟨hdb, hd⟩
      · rfl
      · exact (hfree d od hdb hd heq.symm).elim
    · rcases hcases hd with ⟨rfl, rfl⟩ | ⟨hdb, hd⟩
      · exact (hfree c oc hcb hc heq).elim
      · exact hi.apart c d oc od hc hd heq
  · intro e he
    rw [hhistory] at he
    rw [hlots]
    exact hi.known e he

/-- A batch changes, with events of its lot. -/
theorem touch (hi : p.Tidy) (hb : p.batches b = some batch)
    (hbatches : p'.batches = Function.update p.batches b (some batch'))
    (hhistory : p'.history = p.history ++ es) (hn : p'.nbatches = p.nbatches)
    (hlots : p'.nlots = p.nlots) (hl : batch'.lot = batch.lot)
    (hes : ∀ e ∈ es, e.lot = batch.lot) (hk : batch'.Keeps p.nlots (p.history ++ es)) :
    p'.Tidy := by
  have hothers : ∀ c other, (p.put b none).batches c = some other →
      c ≠ b ∧ p.batches c = some other := by
    intro c other ho
    rcases put_eq_some ho with ⟨-, ho⟩ | h
    · cases ho
    · exact h
  have hrest : ((p.put b none).record es).Tidy := by
    refine (hi.remove b).note fun e he ↦ ⟨?_, fun c other ho heq ↦ ?_⟩
    · rw [hes e he]
      exact (hi.keeps b batch hb).known
    · obtain ⟨hc, ho⟩ := hothers c other ho
      exact hc (hi.apart c b other batch ho hb (heq.symm.trans (hes e he)))
  have hupd : p'.batches =
      Function.update ((p.put b none).record es).batches b (some batch') := by
    rw [hbatches]
    exact (Function.update_idem _ _ _).symm
  have hlt : b < p'.nbatches := by
    rw [hn]
    exact hi.lt hb
  refine hrest.insert hk (fun c other hc ho ↦ ?_) hupd hhistory hlots (Nat.le_of_eq hn.symm) hlt
  obtain ⟨-, ho⟩ := hothers c other ho
  rw [hl]
  exact fun heq ↦ hc (hi.apart c b other batch ho hb heq)

/-- A batch is moved to `b`, where there may have been another one. -/
theorem move {src : Nat} (hi : p.Tidy) (hsrc : p.batches src = some batch)
    (hbatches : p'.batches =
      Function.update (p.put src (some (batch.movedFrom p.nlots))).batches b (some batch))
    (hhistory : p'.history = p.history) (hlots : p'.nlots = p.nlots + 1)
    (hn : p.nbatches ≤ p'.nbatches) (hb : b < p'.nbatches) : p'.Tidy := by
  have hk := hi.keeps src batch hsrc
  have hleft : Program.Tidy { p.put src (some (batch.movedFrom p.nlots)) with
      nlots := p.nlots + 1 } := by
    refine hi.spare.insert ?_ (fun c other _ ho ↦ ?_) rfl rfl rfl (Nat.le_refl _) (hi.lt hsrc)
    · exact .fresh hi.known rfl rfl hk.submitted
    · exact Nat.ne_of_lt (hi.keeps c other ho).known
  refine hleft.insert (hk.mono (Nat.le_succ _)) (fun c other _ ho ↦ ?_) hbatches hhistory hlots
    hn hb
  rcases put_eq_some (p := p) ho with ⟨-, ho⟩ | ⟨hc, ho⟩
  · cases ho
    exact (Nat.ne_of_lt hk.known).symm
  · exact fun heq ↦ hc (hi.apart c src other batch ho hsrc heq)

/-- A `submit` that invokes closures. -/
theorem submitted (hi : p.Tidy) (hb : p.batches b = some batch) (hf : batch.frozen = true)
    (cs : List (Closure ς × Option φ)) {e : Event ς φ} (hl : e.lot = batch.lot)
    (he : appendedTo batch.lot [e] = []) (world : σ) :
    Program.Tidy { (p.put b (some { batch with submitted := true })).record
      (calls batch.lot cs ++ [e]) with world } := by
  have hk := hi.keeps b batch hb
  have hnone : appendedTo batch.lot (calls batch.lot cs ++ [e]) = [] := by
    rw [appendedTo_append, appendedTo_calls, he]
    rfl
  refine hi.touch hb rfl rfl rfl rfl rfl ?_ (hk.extend rfl rfl ?_ ?_ id (fun _ ↦ rfl)
    (fun _ _ _ ↦ hf) (fun _ _ _ ↦ rfl) (fun h ↦ by cases h) (fun _ ↦ hf))
  · intro x hx
    rcases List.mem_append.mp hx with hx | hx
    · obtain ⟨c, -, rfl⟩ := List.mem_map.mp hx
      rfl
    · rw [List.mem_singleton.mp hx]
      exact hl
  · rw [hnone, List.append_nil]
  · rw [hnone]
    exact fun _ h ↦ by cases h

theorem trans (hi : p.Tidy) (h : p.Trans p') : p'.Tidy := by
  cases h with
  | same => exact hi
  | construct stream =>
    refine hi.spare.insert (.fresh hi.known rfl rfl fun h ↦ by cases h) (fun c other _ ho ↦ ?_)
      rfl rfl rfl (Nat.le_succ _) (Nat.lt_succ_self _)
    exact Nat.ne_of_lt (hi.keeps c other ho).known
  | @appended b batch command hb hf =>
    have hk := hi.keeps b batch hb
    have hone : appendedTo batch.lot [Event.appended (φ := φ) batch.lot ⟨batch.stream, command⟩] =
        [⟨batch.stream, command⟩] := by
      simp [appendedTo, Event.appendedIn]
    refine hi.touch hb rfl rfl rfl rfl rfl (by simp [Event.lot]) (hk.extend rfl rfl ?_ ?_ id id
      (by simp [Event.Freezing]) (by simp [Event.Ending]) (fun _ ↦ rfl) hk.submitted)
    · rw [hone]
    · rw [hone]
      simp
  | @refused b batch e hb =>
    have hk := hi.keeps b batch hb
    refine hi.touch hb (congrArg batches (put_self hb)).symm rfl rfl rfl rfl (by simp [Event.lot])
      (hk.extend rfl rfl (List.append_nil _).symm (fun _ h ↦ by cases h) id id
        (by simp [Event.Freezing]) (by simp [Event.Ending]) (fun _ ↦ rfl) hk.submitted)
  | @froze b batch hb hf =>
    have hk := hi.keeps b batch hb
    refine hi.touch hb rfl rfl rfl rfl rfl (by simp [Event.lot]) (hk.extend rfl rfl
      (List.append_nil _).symm (fun _ h ↦ by cases h) (fun _ ↦ rfl) id (fun _ _ _ ↦ rfl)
        (by simp [Event.Ending]) (fun _ ↦ rfl) (fun _ ↦ rfl))
  | returned world hb hf hs hsealed hstream h1 h2 => exact hi.submitted hb hf _ rfl rfl world
  | threw world hb hf hs hfns hdone => exact hi.submitted hb hf _ rfl rfl world
  | moveConstruct hsrc =>
    exact hi.move hsrc rfl rfl rfl (Nat.le_succ _) (Nat.lt_succ_self _)
  | @moveAssign dst src batch hsrc hne hdst =>
    obtain ⟨old, hold⟩ := Option.ne_none_iff_exists'.mp hdst
    exact hi.move hsrc rfl rfl rfl (Nat.le_refl _) (hi.lt hold)
  | destroy b => exact hi.remove b
  | outside world => exact ⟨hi.unmade, hi.keeps, hi.apart, hi.known⟩

end Program.Tidy

namespace Orderly

variable {batch : CommandBatch ς} {nlots : Nat} {history : List (Event ς φ)} {e : Event ς φ}

/-- An event that is not about the commands of a lot. -/
theorem note (hi : Orderly history) (happ : ∀ l, appendedTo l [e] = [])
    (hcall : ∀ l, calledOf l [e] = []) (hwork : e.work = none)
    (hq : ∀ x ∈ history, x.Freezing → e.queueing ≠ x.queueing) : Orderly (history ++ [e]) where
  order l := by
    rw [appendedTo_append, calledOf_append, happ, hcall, List.append_nil, List.append_nil]
    exact hi.order l
  stream l := by
    rw [appendedTo_append, happ, List.append_nil]
    exact hi.stream l
  frozen := hi.frozen.concat hq fun _ ↦ trivial
  ends := by
    refine hi.ends.concat (fun x _ hx ↦ ?_) fun hend ↦ ?_
    · rw [hwork]
      cases x with
      | returned | threw => exact fun h ↦ by cases h
      | appended | froze | called | refused => exact hx.elim
    · cases e with
      | returned | threw => cases hwork
      | appended | froze | called | refused => exact hend.elim

theorem lot_of_ending (he : e.Ending) {l : Nat} (hl : e.work = some l) : e.lot = l := by
  cases e with
  | returned | threw => exact Option.some.inj hl
  | appended | froze | called | refused => exact he.elim

/-- A command is queued. -/
theorem appended (hi : Orderly history) (hk : batch.Keeps nlots history)
    (hf : batch.frozen = false) (command : Command) :
    Orderly (history ++ [.appended batch.lot ⟨batch.stream, command⟩]) := by
  have hone (l : Nat) : appendedTo l [Event.appended (φ := φ) batch.lot ⟨batch.stream, command⟩] =
      if batch.lot = l then [⟨batch.stream, command⟩] else [] := by
    by_cases h : batch.lot = l <;> simp [appendedTo, Event.appendedIn, h]
  constructor
  · intro l
    have hnone : calledOf l [Event.appended (φ := φ) batch.lot ⟨batch.stream, command⟩] = [] := rfl
    rw [appendedTo_append, calledOf_append, hnone, List.append_nil]
    exact (hi.order l).trans (List.prefix_append _ _)
  · intro l
    rw [appendedTo_append, hone]
    by_cases hl : batch.lot = l
    · subst hl
      rw [if_pos rfl, ← hk.commands]
      have hall : ∀ fn ∈ batch.commands ++ [⟨batch.stream, command⟩], fn.stream = batch.stream := by
        intro fn hfn
        rcases List.mem_append.mp hfn with hfn | hfn
        · exact hk.stream fn hfn
        · rw [List.mem_singleton.mp hfn]
      exact fun fn hfn fn' hfn' ↦ (hall fn hfn).trans (hall fn' hfn').symm
    · rw [if_neg hl, List.append_nil]
      exact hi.stream l
  · refine hi.frozen.concat (fun x hx hfr heq ↦ ?_) fun _ ↦ trivial
    have hl : x.lot = batch.lot := by
      cases x with
      | froze m => exact (Option.some.inj heq).symm
      | appended | called | returned | threw | refused => exact hfr.elim
    rw [hk.frozen x hx hfr hl] at hf
    cases hf
  · refine hi.ends.concat (fun x hx hend heq ↦ ?_) fun h ↦ h.elim
    have hl := lot_of_ending hend heq.symm
    rw [hk.submitted (hk.ended x hx hend hl)] at hf
    cases hf

/-- Closures are invoked, up to the end of `submit`. -/
theorem submitted (hi : Orderly history) (hk : batch.Keeps nlots history)
    (hs : batch.submitted = false) {cs : List (Closure ς × Option φ)}
    (hcs : cs.map (·.1) <+: batch.commands) (he : e.Ending) (hl : e.work = some batch.lot)
    (hwell : EndsWell (history ++ calls batch.lot cs) e) :
    Orderly (history ++ (calls batch.lot cs ++ [e])) := by
  have happ (l : Nat) : appendedTo l (calls batch.lot cs ++ [e]) = [] := by
    rw [appendedTo_append, appendedTo_calls]
    cases e with
    | returned | threw => rfl
    | appended | froze | called | refused => exact he.elim
  have hcall (l : Nat) : calledOf l (calls batch.lot cs ++ [e]) =
      if batch.lot = l then cs else [] := by
    have hnone : calledOf l [e] = [] := by
      cases e with
      | returned | threw => rfl
      | appended | froze | called | refused => exact he.elim
    rw [calledOf_append, hnone, List.append_nil]
    split
    · next h =>
      subst h
      exact calledOf_calls _ cs
    · next h =>
      refine calledOf_of_ne fun x hx ↦ ?_
      obtain ⟨c, -, rfl⟩ := List.mem_map.mp hx
      exact h
  have hopen : ∀ x ∈ history, x.Ending → some batch.lot ≠ x.work := by
    intro x hx hend heq
    rw [hk.ended x hx hend (lot_of_ending hend heq.symm)] at hs
    cases hs
  constructor
  · intro l
    rw [appendedTo_append, calledOf_append, happ, hcall, List.append_nil]
    split
    · next h =>
      subst h
      rw [hk.uncalled hs, ← hk.commands]
      exact hcs
    · rw [List.append_nil]
      exact hi.order l
  · intro l
    rw [appendedTo_append, happ, List.append_nil]
    exact hi.stream l
  · have hnone : ∀ x ∈ calls batch.lot cs ++ [e], x.queueing = none ∧ ¬x.Freezing := by
      intro x hx
      rcases List.mem_append.mp hx with hx | hx
      · obtain ⟨c, -, rfl⟩ := List.mem_map.mp hx
        exact ⟨rfl, id⟩
      · rw [List.mem_singleton.mp hx]
        cases e with
        | returned | threw => exact ⟨rfl, id⟩
        | appended | froze | called | refused => exact he.elim
    refine hi.frozen.append (fun x hx y _ hfr heq ↦ ?_) fun x hx ↦ (hnone x hx).2
    rw [(hnone x hx).1] at heq
    cases y with
    | froze m => cases heq
    | appended | called | returned | threw | refused => exact hfr.elim
  · rw [← List.append_assoc]
    refine Closes.concat (hi.ends.append (fun x hx y hy hend ↦ ?_) fun x hx hend ↦ ?_) ?_ ?_
    · obtain ⟨c, -, rfl⟩ := List.mem_map.mp hx
      exact hopen y hy hend
    · obtain ⟨c, -, rfl⟩ := List.mem_map.mp hx
      exact hend
    · intro x hx hend
      rw [hl]
      rcases List.mem_append.mp hx with hx | hx
      · exact hopen x hx hend
      · obtain ⟨c, -, rfl⟩ := List.mem_map.mp hx
        exact hend.elim
    · exact fun _ ↦ hwell

theorem trans {p p' : Program ς φ σ} (hi : Orderly p.history) (ht : p.Tidy) (h : p.Trans p') :
    Orderly p'.history := by
  cases h with
  | same | construct | moveConstruct | moveAssign | destroy | outside => exact hi
  | appended command hb hf => exact hi.appended (ht.keeps _ _ hb) hf command
  | refused e hb =>
    refine hi.note (fun _ ↦ rfl) (fun _ ↦ rfl) rfl fun x _ hfr heq ↦ ?_
    cases x with
    | froze m => cases heq
    | appended | called | returned | threw | refused => exact hfr.elim
  | @froze b batch hb hf =>
    refine hi.note (fun _ ↦ rfl) (fun _ ↦ rfl) rfl fun x hx hfr heq ↦ ?_
    have hl : x.lot = batch.lot := by
      cases x with
      | froze m => exact (Option.some.inj heq).symm
      | appended | called | returned | threw | refused => exact hfr.elim
    rw [(ht.keeps b batch hb).frozen x hx hfr hl] at hf
    cases hf
  | @returned b batch cs group world hb hf hs hsealed hstream h1 h2 =>
    have hk := ht.keeps b batch hb
    have hcalled : calledOf batch.lot (p.history ++ calls batch.lot cs) = cs := by
      rw [calledOf_append, hk.uncalled hs, calledOf_calls, List.nil_append]
    have happ : appendedTo batch.lot (p.history ++ calls batch.lot cs) = batch.commands := by
      rw [appendedTo_append, appendedTo_calls, List.append_nil, hk.commands]
    refine hi.submitted hk hs (h1 ▸ List.prefix_refl _) trivial rfl ⟨hsealed, ?_, ?_, ?_⟩
    · rw [hcalled, happ, h1]
    · rw [hcalled, h2]
    · rw [happ, hstream]
      exact hk.stream
  | @threw b batch done fn rest world hb hf hs hfns hdone =>
    have hk := ht.keeps b batch hb
    refine hi.submitted hk hs ?_ trivial rfl ⟨done, fn, ?_, hdone⟩
    · rw [hfns, List.map_append]
      exact (List.prefix_append_right_inj _).mpr (List.prefix_append [fn] rest)
    · rw [calledOf_append, hk.uncalled hs, calledOf_calls, List.nil_append]

end Orderly

/-- In every run of a program with any number of batches, however they are moved, submitted again
or destroyed, whatever the submissions return or throw and whatever else happens in between, every
lot is dealt with as asked. -/
theorem batches_orderly {out : Outside ς φ σ ε} {world : σ} {p : Program ς φ σ}
    (h : Reach (Program.step out) anyStep (.init world) p) : Orderly p.history := by
  have hinit : (Program.init world : Program ς φ σ).Tidy ∧ Orderly ([] : List (Event ς φ)) := by
    refine ⟨⟨fun _ _ ↦ rfl, ?_, ?_, ?_⟩, ⟨fun _ ↦ List.prefix_refl _, ?_, .nil, .nil⟩⟩
    · intro b batch hb
      cases hb
    · intro b b' batch batch' hb
      cases hb
    · intro e he
      cases he
    · intro l fn hfn
      cases hfn
  have hall : p.Tidy ∧ Orderly p.history := by
    refine h.invariant (I := fun p ↦ p.Tidy ∧ Orderly p.history) hinit ?_
    rintro p a p' - ⟨ht, ho⟩ - hs
    have htr := Program.trans_of_step hs
    exact ⟨ht.trans htr, ho.trans ht htr⟩
  exact hall.2

/-- Submissions return the number of those made so far, and the third throws. -/
def thirdThrows : Outside Nat Nat Nat Unit where
  bufferId _ b := BitVec.ofNat 32 b
  submit _ _ n := if n = 2 then (.error (), n + 1) else (.ok n, n + 1)

/-- One batch is moved and then submitted; a submission of another throws, and a second attempt is
refused. -/
theorem batches_orderly_moved :
    ∃ p : Program Nat Nat Nat, (calledOf 0 p.history).map (·.2) = [some 0, some 1] ∧
      (calledOf 2 p.history).map (·.2) = [none] ∧ Orderly p.history := by
  have hrun : (run (Program.step thirdThrows) (Program.init 0)
      [.construct 7, .append 0 (.submit 0 1 0 2 0 64), .append 0 (.tileMatmul 1 0 2 0 3 0),
        .moveConstruct 0, .freeze 1, .submit 1, .construct 8, .append 2 (.submit 0 1 0 2 0 64),
        .append 2 (.submit 0 1 0 2 0 64), .freeze 2, .submit 2, .submit 2]).any
      (fun p ↦ (calledOf 0 p.history).map (·.2) = [some 0, some 1] ∧
        (calledOf 2 p.history).map (·.2) = [none]) = true := by
    decide
  obtain ⟨p, hp, htest⟩ := Reach.exists_of_run hrun
  obtain ⟨h0, h2⟩ := of_decide_eq_true htest
  exact ⟨p, h0, h2, batches_orderly hp⟩

end DmaAccel.Batch
