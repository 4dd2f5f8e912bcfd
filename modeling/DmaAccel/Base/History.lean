import Mathlib.Data.List.Basic

/-!
# Histories

A history is the list of the events so far. Some events close something, and `owner` names what
an event belongs to. `Closes` says of a history that each closing event meets a condition on what
came before it, and that nothing of its owner comes after it; it is kept by one more event, and by
several that close nothing.
-/

namespace DmaAccel.Base

universe u v w

variable {ω : Type u} {κ : Type v} {β : Type w}

/-- Every closing event meets `good` with the events before it, and is the last of its owner. -/
def Closes (owner : ω → Option κ) (closing : ω → Prop) (good : List ω → ω → Prop)
    (history : List ω) : Prop :=
  ∀ pre e post, history = pre ++ e :: post → closing e →
    good pre e ∧ ∀ x ∈ post, owner x ≠ owner e

/-- Where a history that is one event longer is split. -/
theorem split_concat {history pre post : List ω} {x y : ω}
    (h : history ++ [x] = pre ++ y :: post) :
    (history = pre ∧ x = y ∧ post = []) ∨
      ∃ post', post = post' ++ [x] ∧ history = pre ++ y :: post' := by
  rcases List.eq_nil_or_concat post with rfl | ⟨post', z, rfl⟩
  · obtain ⟨rfl, hx⟩ := List.append_inj' h rfl
    cases hx
    exact .inl ⟨rfl, rfl, rfl⟩
  · rw [List.concat_eq_append] at h ⊢
    have he : history ++ [x] = (pre ++ y :: post') ++ [z] := by
      rw [h, List.append_assoc, List.cons_append]
    obtain ⟨rfl, hz⟩ := List.append_inj' he rfl
    cases hz
    exact .inr ⟨post', rfl, rfl⟩

/-- What is read off one more event. -/
theorem filterMap_concat (f : ω → Option β) (history : List ω) (x : ω) :
    (history ++ [x]).filterMap f = history.filterMap f ++ (f x).toList := by
  rw [List.filterMap_append]
  cases h : f x <;> simp [h]

namespace Closes

variable {owner : ω → Option κ} {closing : ω → Prop} {good : List ω → ω → Prop}
  {history es : List ω} {x : ω}

theorem nil : Closes owner closing good [] := by
  intro pre e post h
  have hlen : 0 = (pre ++ e :: post).length := congrArg List.length h
  simp at hlen

/-- One more event. -/
theorem concat (hi : Closes owner closing good history)
    (hopen : ∀ e ∈ history, closing e → owner x ≠ owner e)
    (hgood : closing x → good history x) : Closes owner closing good (history ++ [x]) := by
  intro pre e post h hc
  rcases split_concat h with ⟨rfl, rfl, rfl⟩ | ⟨post', rfl, rfl⟩
  · exact ⟨hgood hc, fun _ h ↦ by cases h⟩
  · obtain ⟨hg, hlast⟩ := hi pre e post' rfl hc
    refine ⟨hg, fun y hy ↦ ?_⟩
    rcases List.mem_append.mp hy with hy | hy
    · exact hlast y hy
    · rw [List.mem_singleton.mp hy]
      exact hopen e (List.mem_append_right _ List.mem_cons_self) hc

/-- Events that close nothing. -/
theorem append (hi : Closes owner closing good history)
    (hopen : ∀ x ∈ es, ∀ e ∈ history, closing e → owner x ≠ owner e)
    (hes : ∀ x ∈ es, ¬closing x) : Closes owner closing good (history ++ es) := by
  induction es generalizing history with
  | nil =>
    rw [List.append_nil]
    exact hi
  | cons x es ih =>
    have hx : ¬closing x := hes x List.mem_cons_self
    rw [← List.singleton_append, ← List.append_assoc]
    refine ih (hi.concat (hopen x List.mem_cons_self) fun hc ↦ (hx hc).elim) ?_ ?_
    · intro y hy e he hc
      rcases List.mem_append.mp he with he | he
      · exact hopen y (List.mem_cons_of_mem _ hy) e he hc
      · rw [List.mem_singleton.mp he] at hc
        exact (hx hc).elim
    · exact fun y hy ↦ hes y (List.mem_cons_of_mem _ hy)

end Closes

end DmaAccel.Base
