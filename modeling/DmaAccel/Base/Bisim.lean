import DmaAccel.Base.Run

/-!
# States that cannot be told apart

Two states of one system behave the same where every sequence of actions is possible from both
or from neither, and shows the same in the states it reaches. A bisimulation that respects the
observations proves it; one sequence that only one of the two can take refutes it.
-/

namespace DmaAccel.Base

universe u v w

variable {σ : Type u} {α : Type v} {ω : Type w} {step : σ → α → Option σ} {obs : σ → ω} {s t : σ}

/-- The two states show the same along every sequence of actions. -/
def SameObs (step : σ → α → Option σ) (obs : σ → ω) (s t : σ) : Prop :=
  ∀ as : List α, (run step s as).map obs = (run step t as).map obs

theorem run_cons (a : α) (as : List α) :
    run step s (a :: as) = (step s a).bind fun s' ↦ run step s' as := by
  unfold run
  rw [runChecked, if_pos rfl]
  cases step s a with
  | none => rfl
  | some s' => rfl

theorem run_append (as bs : List α) :
    run step s (as ++ bs) = (run step s as).bind fun s' ↦ run step s' bs := by
  induction as generalizing s with
  | nil => rfl
  | cons a as ih =>
    rw [List.cons_append, run_cons, run_cons]
    cases step s a with
    | none => rfl
    | some s' => exact ih

namespace SameObs

theorem refl (s : σ) : SameObs step obs s s := fun _ ↦ rfl

theorem symm (h : SameObs step obs s t) : SameObs step obs t s := fun as ↦ (h as).symm

/-- A bisimulation that respects the observations. -/
theorem of_bisim {R : σ → σ → Prop} (hobs : ∀ s t, R s t → obs s = obs t)
    (hstep : ∀ s t a, R s t → Option.Rel R (step s a) (step t a)) (h : R s t) :
    SameObs step obs s t := by
  intro as
  induction as generalizing s t with
  | nil => exact congrArg some (hobs s t h)
  | cons a as ih =>
    rw [run_cons, run_cons]
    have hrel := hstep s t a h
    generalize step s a = x, step t a = y at hrel ⊢
    cases hrel with
    | none => rfl
    | some hr => exact ih hr

/-- A sequence that is possible from one of the two only tells them apart. -/
theorem isSome (h : SameObs step obs s t) {as : List α} (hs : (run step s as).isSome = true) :
    (run step t as).isSome = true := by
  have he := congrArg Option.isSome (h as)
  rw [Option.isSome_map, Option.isSome_map] at he
  exact he ▸ hs

end SameObs

end DmaAccel.Base
