import DmaAccel.Routing.Accounting

/-!
# Commands admitted and not yet routed

`unrouted` is read off the history: what was registered in the table and has not been
pushed into a session ring. The ledger counts it, the accounting equations bound it by the
two atomics and the submitters that have not reached them, and only the locked admission of
`dma_accel_ioc_submit` makes it grow.
-/

namespace DmaAccel.Driver

open DmaAccel.Base

/-- Commands whose entry has been registered and whose completion has not been pushed. -/
def unrouted (st : Sys) : List Admitted :=
  st.admitted.filter fun x ↦ x.ticket ∉ st.pushed.map pushTicket

/-- The unrouted commands of one session. -/
def unroutedOf (st : Sys) (s : Sid) : List Admitted := (unrouted st).filter (·.sess = s)

/-- The call of SUBMIT an action moves on. -/
def Act.submitCall : Act → Option Nat
  | .submitStep k => some k
  | _ => none

/-- The next step of call `k` registers its entry: the locked check of the admission loop
passes and the table has room. -/
def admits (st : Sys) (k : Nat) : Prop :=
  (st.submits k).pc = .admission ∧ st.totalInflight < queueDepth ∧
    st.inflight (st.submits k).sess < (st.submits k).quota ∧
    (freeCmdSlot st.cmdTable).isSome = true

instance (st : Sys) (k : Nat) : Decidable (admits st k) := inferInstanceAs (Decidable (_ ∧ _))

/-- Pushed, and `owner->inflight` not yet decremented. -/
def IsrPc.late : IsrPc → Bool
  | .decInflight => true
  | _ => false

/-- Pushed, and `dev->total_inflight` not yet decremented. -/
def IsrPc.lateTotal : IsrPc → Bool
  | .decInflight | .decTotal => true
  | _ => false

/-- Completions pushed to `s` and not yet subtracted from its counter. -/
def lateOf (st : Sys) (s : Sid) : Nat := handBy IsrPc.late (· = s) st

/-- Completions pushed and not yet subtracted from the device counter. -/
def lateAll (st : Sys) : Nat := handBy IsrPc.lateTotal (fun _ ↦ True) st

variable {st st' : Sys} {a : Act}

/-- The history of admissions grows only in the locked section of the admission loop. -/
theorem Trans.admitted_cases (h : Trans st a st') :
    st'.admitted = st.admitted ∨
      ∃ k ∈ a.submitCall, k < st.nsubmits ∧ admits st k ∧
        st'.admitted = st.admitted ++ [(st.submits k).toAdmitted] := by
  cases h with
  | register k j hk hp ht hq hj =>
    exact .inr ⟨k, rfl, hk, ⟨hp, ht, hq, by rw [hj]; rfl⟩, rfl⟩
  | _ => exact .inl rfl

/-- The history of pushes only grows. -/
theorem Trans.pushed_append (h : Trans st a st') : ∃ l, st'.pushed = st.pushed ++ l := by
  cases h with
  | push hp => exact ⟨_, rfl⟩
  | _ => exact ⟨[], (List.append_nil _).symm⟩

/-- The ledger counts the unrouted commands of any kind of session. -/
private theorem countP_unrouted {ok : Sys → Act → Prop} (h : ReachBy ok st) (q : Sid → Prop)
    [DecidablePred q] :
    (unrouted st).countP (fun x ↦ q x.sess) = (ledgerOf st).outstanding fun t ↦ q t.1 := by
  rw [← (balanced h).countP_outstanding (admitted_nodup h), unrouted]
  simp only [ledgerOf, List.filter_map, List.countP_map]
  apply congrArg (List.countP _)
  apply List.filter_congr
  intro x _
  exact decide_eq_decide.mpr Iff.rfl

/-- Unrouted commands of one session, as the ledger counts them. -/
theorem length_unroutedOf {ok : Sys → Act → Prop} (h : ReachBy ok st) (s : Sid) :
    (unroutedOf st s).length = (ledgerOf st).outstanding fun t ↦ t.1 = s := by
  rw [← countP_unrouted h (· = s), unroutedOf, List.countP_eq_length_filter]

/-- Unrouted commands of all sessions, as the ledger counts them. -/
theorem length_unrouted {ok : Sys → Act → Prop} (h : ReachBy ok st) :
    (unrouted st).length = (ledgerOf st).outstanding fun _ ↦ True := by
  rw [← countP_unrouted h (fun _ ↦ True)]
  simp

/-- What is outstanding is in the table or has just been removed from it. -/
private theorem outstanding_eq (st : Sys) (q : Sid → Prop) [DecidablePred q] :
    (ledgerOf st).outstanding (fun t ↦ q t.1) =
      validBy q st + handBy (fun pc ↦ pc == .push) q st := by
  have hticket (e : CmdCtx) :
      (e.valid = true ∧ q e.sess) ↔ ∃ t, e.ticket = some t ∧ q t.1 := by
    simp only [CmdCtx.ticket, Option.ite_none_right_eq_some, Option.some.injEq]
    constructor
    · rintro ⟨hv, hq⟩
      exact ⟨_, ⟨hv, rfl⟩, hq⟩
    · rintro ⟨_, ⟨hv, rfl⟩, hq⟩
      exact ⟨hv, hq⟩
  have hheld : (ledgerOf st).held.countP (fun t ↦ q t.1) = validBy q st := by
    unfold validBy
    simp only [ledgerOf]
    exact countP_bag hticket
  have hhand : (optBag (ledgerOf st).hand).countP (fun t ↦ q t.1) =
      handBy (fun pc ↦ pc == .push) q st := by
    by_cases hp : st.isr.pc = .push
    · simp [ledgerOf, Isr.ticket, handBy, hp, countP_optBag_some]
    · simp [ledgerOf, Isr.ticket, handBy, hp, optBag]
  rw [Ledger.outstanding, hheld, hhand]

/-- What is outstanding for a session is its counter, with the submitters that have yet to
increment it and the completion that has yet to be subtracted from it. -/
theorem outstanding_sess {ok : Sys → Act → Prop} (h : ReachBy ok st) (s : Sid) :
    ((ledgerOf st).outstanding (fun t ↦ t.1 = s) : Int) + lateOf st s =
      st.inflight s + uncountedOf st s := by
  have hacc := (accounted h).sess s
  have hhand : handBy (fun pc ↦ pc == .push) (· = s) st + lateOf st s = removedOf st s := by
    unfold removedOf lateOf handBy
    cases st.isr.pc <;> simp [IsrPc.undrained, IsrPc.late]
  have heq := outstanding_eq st (· = s)
  unfold validOf at hacc
  omega

/-- The same for the device counter. -/
theorem outstanding_all {ok : Sys → Act → Prop} (h : ReachBy ok st) :
    ((ledgerOf st).outstanding (fun _ ↦ True) : Int) + lateAll st =
      st.totalInflight + uncountedAll st := by
  have hacc := (accounted h).total
  have hhand : handBy (fun pc ↦ pc == .push) (fun _ ↦ True) st + lateAll st =
      removedAll st := by
    unfold removedAll lateAll handBy
    cases st.isr.pc <;> simp [IsrPc.undrainedTotal, IsrPc.lateTotal]
  have heq := outstanding_eq st (fun _ ↦ True)
  unfold validAll at hacc
  omega

/-- Tickets of one kind that are outstanding change as the history of admissions does. -/
theorem Trans.outstanding (h : Trans st a st') (q : Sid → Prop) [DecidablePred q] :
    (ledgerOf st').outstanding (fun t ↦ q t.1) ≤ (ledgerOf st).outstanding (fun t ↦ q t.1) ∨
      ∃ k ∈ a.submitCall, k < st.nsubmits ∧ admits st k ∧
        (ledgerOf st').outstanding (fun t ↦ q t.1) =
          (ledgerOf st).outstanding (fun t ↦ q t.1) +
            (if q (st.submits k).sess then 1 else 0) := by
  rcases h.admitted_cases with he | ⟨k, ha, hk, hadm, he⟩
  · left
    apply h.custody.outstanding_le
    simp only [ledgerOf, he]
  · refine .inr ⟨k, ha, hk, hadm, ?_⟩
    refine h.custody.outstanding_enroll (t := (st.submits k).toAdmitted.ticket) ?_
    simp only [ledgerOf, he, List.map_append, List.map_singleton]

end DmaAccel.Driver
