import Mathlib.Algebra.BigOperators.Group.Finset.Piecewise
import Mathlib.Algebra.Order.Group.Multiset
import Mathlib.Combinatorics.Enumerative.DoubleCounting

/-!
# Counting the cells of a table under updates

A table is a function `f : ι → α` together with the finite set of indices in use. `count`
is the number of cells that satisfy a predicate and `bag` the multiset of the values the
cells hold; the update lemmas balance the old and the new value of the changed cell, in a
form that `omega` and multiset cancellation can use without subtraction.
-/

namespace DmaAccel.Base

universe u v w

variable {ι : Type u} {α : Type v} {τ : Type w}

/-- Number of cells of `f` with index in `s` that satisfy `p`. -/
def count (p : α → Prop) [DecidablePred p] (s : Finset ι) (f : ι → α) : Nat :=
  (s.filter fun i ↦ p (f i)).card

/-- The bag of an optional value. -/
def optBag (o : Option τ) : Multiset τ := o.elim 0 ({·})

theorem optBag_none : optBag (none : Option τ) = 0 := rfl

theorem optBag_some (x : τ) : optBag (some x) = {x} := rfl

theorem mem_optBag {x : τ} {o : Option τ} : x ∈ optBag o ↔ o = some x := by
  cases o <;> simp [optBag, eq_comm]

/-- Values held by the cells of `f` with index in `s`. -/
def bag (t : α → Option τ) (s : Finset ι) (f : ι → α) : Multiset τ :=
  ∑ i ∈ s, optBag (t (f i))

/-- An entry of an updated table of optional values is the new one or an old one. -/
theorem update_eq_some_iff [DecidableEq ι] {f : ι → Option α} {i j : ι} {o : Option α} {a : α} :
    Function.update f i o j = some a ↔ (j = i ∧ o = some a) ∨ (j ≠ i ∧ f j = some a) := by
  by_cases hj : j = i
  · subst hj
    simp
  · simp [hj]

section Count

variable {p q : α → Prop} [DecidablePred p] [DecidablePred q] {s : Finset ι} {f g : ι → α}

/-- Only the satisfied cells matter. -/
theorem count_congr (h : ∀ i ∈ s, p (f i) ↔ q (g i)) : count p s f = count q s g := by
  unfold count
  congr 1
  apply Finset.filter_congr
  intro i hi
  exact h i hi

/-- Replacing one cell trades its old contribution for the new one. -/
theorem count_update [DecidableEq ι] {i : ι} (hi : i ∈ s) (a : α) :
    count p s (Function.update f i a) + (if p (f i) then 1 else 0) =
      count p s f + (if p a then 1 else 0) := by
  have hs : s = insert i (s.erase i) := (Finset.insert_erase hi).symm
  have hrest : (s.erase i).filter (fun j ↦ p (Function.update f i a j)) =
      (s.erase i).filter (fun j ↦ p (f j)) := by
    apply Finset.filter_congr
    intro j hj
    rw [Function.update_of_ne (Finset.ne_of_mem_erase hj)]
  have hn (r : ι → Prop) [DecidablePred r] : i ∉ (s.erase i).filter r := by simp
  unfold count
  rw [hs, Finset.filter_insert, Finset.filter_insert, hrest, Function.update_self]
  split <;> split <;> simp [Finset.card_insert_of_notMem, hn]

/-- A count is positive exactly when some cell satisfies the predicate. -/
theorem count_pos_iff : 0 < count p s f ↔ ∃ i ∈ s, p (f i) := by
  simp [count, Finset.card_pos, Finset.Nonempty]

/-- A count is zero exactly when no cell satisfies the predicate. -/
theorem count_eq_zero_iff : count p s f = 0 ↔ ∀ i ∈ s, ¬p (f i) := by
  simp [count, Finset.filter_eq_empty_iff]

/-- A count is bounded by another one into which its cells can be matched one to one. -/
theorem count_le_of_match {κ : Type u} {β : Type v} {r : β → Prop} [DecidablePred r]
    {t : Finset κ} {g : κ → β} (R : ι → κ → Prop)
    (hex : ∀ i ∈ s, p (f i) → ∃ j ∈ t, r (g j) ∧ R i j)
    (hinj : ∀ i i' j, p (f i) → p (f i') → R i j → R i' j → i = i') :
    count p s f ≤ count r t g := by
  refine Finset.card_le_card_of_forall_subsingleton R ?_ ?_
  · intro i hi
    rw [Finset.mem_filter] at hi
    obtain ⟨j, hj, hr, hR⟩ := hex i hi.1 hi.2
    exact ⟨j, Finset.mem_filter.mpr ⟨hj, hr⟩, hR⟩
  · rintro j - i ⟨hi, hR⟩ i' ⟨hi', hR'⟩
    rw [Finset.mem_filter] at hi hi'
    exact hinj i i' j hi.2 hi'.2 hR hR'

end Count

section Range

variable {p : α → Prop} [DecidablePred p] {n : Nat} {f : Nat → α}

/-- A table grows by one fresh cell at its end. -/
theorem count_range_succ (a : α) :
    count p (Finset.range (n + 1)) (Function.update f n a) =
      count p (Finset.range n) f + (if p a then 1 else 0) := by
  have hrest : (Finset.range n).filter (fun j ↦ p (Function.update f n a j)) =
      (Finset.range n).filter (fun j ↦ p (f j)) := by
    apply Finset.filter_congr
    intro j hj
    rw [Function.update_of_ne (Finset.mem_range.mp hj).ne]
  have hn : n ∉ (Finset.range n).filter (fun j ↦ p (f j)) := by simp
  unfold count
  rw [Finset.range_add_one, Finset.filter_insert, hrest, Function.update_self]
  split
  · rw [Finset.card_insert_of_notMem hn]
  · rfl

end Range

section Fibers

/-- A list without repetition is no longer than the bound on its fibers allows. -/
theorem length_le_mul_card [DecidableEq α] [DecidableEq ι] {l : List α} (hl : l.Nodup)
    {f : α → ι} {s : Finset ι} {b : Nat} (hmaps : ∀ x ∈ l, f x ∈ s)
    (hfiber : ∀ i ∈ s, (l.filter fun x ↦ f x = i).length ≤ b) : l.length ≤ b * s.card := by
  rw [← List.toFinset_card_of_nodup hl]
  refine Finset.card_le_mul_card_image_of_maps_to (f := f) ?_ b ?_
  · intro x hx
    exact hmaps x (List.mem_toFinset.mp hx)
  · intro i hi
    have he : l.toFinset.filter (fun x ↦ f x = i) = (l.filter fun x ↦ f x = i).toFinset := by
      ext x
      simp
    rw [he, List.toFinset_card_of_nodup (hl.filter _)]
    exact hfiber i hi

end Fibers

section Bag

variable {t : α → Option τ} {s : Finset ι} {f : ι → α}

/-- Replacing one cell trades its old value for the new one. -/
theorem bag_update [DecidableEq ι] {i : ι} (hi : i ∈ s) (a : α) :
    bag t s (Function.update f i a) + optBag (t (f i)) = bag t s f + optBag (t a) := by
  have hrest : ∑ j ∈ s.erase i, optBag (t (Function.update f i a j)) =
      ∑ j ∈ s.erase i, optBag (t (f j)) := by
    apply Finset.sum_congr rfl
    intro j hj
    rw [Function.update_of_ne (Finset.ne_of_mem_erase hj)]
  unfold bag
  rw [← Finset.add_sum_erase s _ hi, ← Finset.add_sum_erase s (fun j ↦ optBag (t (f j))) hi,
    hrest, Function.update_self, add_right_comm, add_comm (optBag (t a)), add_right_comm]

/-- The bag of a table that grows by one fresh cell at its end. -/
theorem bag_range_succ {n : Nat} {f : Nat → α} (a : α) :
    bag t (Finset.range (n + 1)) (Function.update f n a) =
      bag t (Finset.range n) f + optBag (t a) := by
  unfold bag
  rw [Finset.sum_range_succ, Function.update_self]
  congr 1
  apply Finset.sum_congr rfl
  intro j hj
  rw [Function.update_of_ne (Finset.mem_range.mp hj).ne]

/-- The values in a bag are those of the cells. -/
theorem mem_bag {x : τ} : x ∈ bag t s f ↔ ∃ i ∈ s, t (f i) = some x := by
  simp [bag, Multiset.mem_sum, mem_optBag]

/-- In a bag without repetition no two cells hold one value. -/
theorem bag_injective [DecidableEq ι] (hn : (bag t s f).Nodup) {i j : ι} {x : τ} (hi : i ∈ s)
    (hj : j ∈ s) (hx : t (f i) = some x) (hy : t (f j) = some x) : i = j := by
  by_contra hij
  have hmem : x ∈ bag t (s.erase i) f :=
    mem_bag.mpr ⟨j, Finset.mem_erase.mpr ⟨fun h ↦ hij h.symm, hj⟩, hy⟩
  have hsplit : bag t s f = optBag (t (f i)) + bag t (s.erase i) f := by
    unfold bag
    exact (Finset.add_sum_erase s (fun j ↦ optBag (t (f j))) hi).symm
  rw [hsplit, hx, optBag, Option.elim_some] at hn
  have hdis := (Multiset.nodup_add.mp hn).2.2
  exact Multiset.disjoint_left.mp hdis (Multiset.mem_singleton_self x) hmem

/-- Counting in the bag of one value. -/
theorem countP_optBag_some {q : τ → Prop} [DecidablePred q] (x : τ) :
    (optBag (some x)).countP q = if q x then 1 else 0 := by
  rw [optBag, Option.elim_some, Multiset.countP_eq_card_filter, Multiset.filter_singleton]
  split <;> simp

/-- Counting in a bag is counting cells. -/
theorem countP_bag {q : τ → Prop} [DecidablePred q] {p : α → Prop} [DecidablePred p]
    (h : ∀ a, p a ↔ ∃ x, t a = some x ∧ q x) : (bag t s f).countP q = count p s f := by
  have ho (a : α) : (optBag (t a)).countP q = if p a then 1 else 0 := by
    cases ht : t a with
    | none => simp [optBag, h, ht]
    | some x => simp [countP_optBag_some, h, ht]
  unfold bag count
  rw [Finset.card_filter]
  change Multiset.countPAddMonoidHom q _ = _
  rw [map_sum]
  apply Finset.sum_congr rfl
  intro i _
  exact ho (f i)

/-- Multiplicity in a bag is the number of cells that hold the value. -/
theorem count_bag [DecidableEq τ] {x : τ} {p : α → Prop} [DecidablePred p]
    (h : ∀ a, p a ↔ t a = some x) : (bag t s f).count x = count p s f := by
  unfold Multiset.count
  refine countP_bag fun a ↦ ?_
  rw [h]
  constructor
  · intro ha
    exact ⟨x, ha, rfl⟩
  · rintro ⟨y, ha, rfl⟩
    exact ha

end Bag

section Parts

/-- In parts that together hold nothing twice, an element is in exactly one. -/
theorem existsUnique_mem_of_nodup_sum [Fintype ι] [DecidableEq ι] {m : ι → Multiset τ}
    (hn : (∑ i, m i).Nodup) {x : τ} (hx : x ∈ ∑ i, m i) : ∃! i, x ∈ m i := by
  obtain ⟨i, -, hi⟩ := Multiset.mem_sum.mp hx
  refine ⟨i, hi, ?_⟩
  intro j hj
  by_contra hij
  rw [← Finset.add_sum_erase _ m (Finset.mem_univ i)] at hn
  refine Multiset.disjoint_left.mp (Multiset.nodup_add.mp hn).2.2 hi ?_
  exact Multiset.mem_sum.mpr ⟨j, Finset.mem_erase.mpr ⟨hij, Finset.mem_univ j⟩, hj⟩

end Parts

end DmaAccel.Base
