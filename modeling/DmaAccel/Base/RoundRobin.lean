import Mathlib.Data.List.Basic
import Mathlib.Data.List.GetD
import Mathlib.Order.Nat

/-!
# Round-robin order

A family of queues is served one element from each per round. `places` lists where the
elements stand, as (position in its queue, index of the queue), in the order of service;
it depends on the lengths alone and is the lexicographic order. `items` are the elements at
these places; a round of service takes the heads and leaves the tails (`items_eq`).
-/

namespace DmaAccel.Base

universe u

variable {κ : Type u}

/-! ### Places -/

/-- Lexicographic order of places. -/
def Before (a b : Nat × Nat) : Prop := a.1 < b.1 ∨ (a.1 = b.1 ∧ a.2 < b.2)

/-- Length of the longest queue. -/
def longest (lens : List Nat) : Nat := lens.foldr max 0

/-- The places at position `k`, for the queues that are long enough. -/
def row (lens : List Nat) (k : Nat) : List (Nat × Nat) :=
  ((List.range lens.length).filter fun i ↦ k < lens.getD i 0).map fun i ↦ (k, i)

/-- All places of queues of the given lengths, row after row. -/
def places (lens : List Nat) : List (Nat × Nat) :=
  (List.range (longest lens)).flatMap (row lens)

theorem le_longest {lens : List Nat} {n : Nat} (h : n ∈ lens) : n ≤ longest lens := by
  induction lens with
  | nil => cases h
  | cons m lens ih =>
    simp only [longest, List.foldr_cons]
    rcases List.mem_cons.mp h with rfl | h
    · exact Nat.le_max_left _ _
    · exact Nat.le_trans (ih h) (Nat.le_max_right _ _)

theorem longest_eq_zero {lens : List Nat} (h : ∀ n ∈ lens, n = 0) : longest lens = 0 := by
  induction lens with
  | nil => rfl
  | cons m lens ih =>
    have hm := h m List.mem_cons_self
    have hrest := ih fun n hn ↦ h n (List.mem_cons_of_mem _ hn)
    simp only [longest, List.foldr_cons] at hrest ⊢
    omega

theorem mem_row {lens : List Nat} {k : Nat} {p : Nat × Nat} :
    p ∈ row lens k ↔ p.1 = k ∧ k < lens.getD p.2 0 := by
  have hlt (i : Nat) (h : k < lens.getD i 0) : i < lens.length := by
    by_contra hge
    rw [List.getD_eq_default _ _ (Nat.le_of_not_lt hge)] at h
    omega
  simp only [row, List.mem_map, List.mem_filter, List.mem_range, decide_eq_true_eq]
  constructor
  · rintro ⟨i, ⟨-, hk⟩, rfl⟩
    exact ⟨rfl, hk⟩
  · rintro ⟨rfl, hk⟩
    exact ⟨p.2, ⟨hlt _ hk, hk⟩, rfl⟩

/-- Every element of every queue has its place. -/
theorem mem_places {lens : List Nat} {p : Nat × Nat} :
    p ∈ places lens ↔ p.1 < lens.getD p.2 0 := by
  simp only [places, List.mem_flatMap, List.mem_range, mem_row]
  constructor
  · rintro ⟨k, -, rfl, hk⟩
    exact hk
  · intro hk
    have hmem : lens.getD p.2 0 ∈ lens := by
      by_cases hi : p.2 < lens.length
      · rw [List.getD_eq_getElem _ _ hi]
        exact List.getElem_mem hi
      · rw [List.getD_eq_default _ _ (Nat.le_of_not_lt hi)] at hk
        omega
    exact ⟨p.1, Nat.lt_of_lt_of_le hk (le_longest hmem), rfl, hk⟩

/-- The places come in lexicographic order, so in particular each comes once. -/
theorem pairwise_places (lens : List Nat) : (places lens).Pairwise Before := by
  unfold places
  rw [List.pairwise_flatMap]
  constructor
  · intro k _
    unfold row
    rw [List.pairwise_map]
    apply List.Pairwise.filter
    apply List.pairwise_lt_range.imp
    intro i j hij
    exact .inr ⟨rfl, hij⟩
  · apply List.pairwise_lt_range.imp
    intro k l hkl p hp q hq
    rw [mem_row] at hp hq
    left
    omega

/-! ### Elements in the order of service -/

/-- The element at a place, tagged with the queue it stands in. -/
def elementAt (qs : List (List κ)) (p : Nat × Nat) : Option (Nat × κ) :=
  (qs.getD p.2 [])[p.1]?.map (p.2, ·)

/-- The elements of the queues in the order of service. -/
def items (qs : List (List κ)) : List (Nat × κ) :=
  (places (qs.map List.length)).filterMap (elementAt qs)

/-- The first elements of the queues named by `is`. -/
def heads (qs : List (List κ)) (is : List Nat) : List (Nat × κ) :=
  is.filterMap fun i ↦ (qs.getD i []).head?.map (i, ·)

/-- Number of elements of queue `i` in a list of tagged elements. -/
def countOf (i : Nat) (its : List (Nat × κ)) : Nat := its.countP fun it ↦ it.1 == i

section Items

variable {qs : List (List κ)}

theorem getD_length (i : Nat) : (qs.map List.length).getD i 0 = (qs.getD i []).length := by
  by_cases hi : i < qs.length
  · rw [List.getD_eq_getElem _ _ (by simpa using hi), List.getD_eq_getElem _ _ hi,
      List.getElem_map]
  · rw [List.getD_eq_default _ _ (by simpa using hi),
      List.getD_eq_default _ _ (Nat.le_of_not_lt hi), List.length_nil]

theorem getD_tail (i : Nat) : (qs.map List.tail).getD i [] = (qs.getD i []).tail := by
  by_cases hi : i < qs.length
  · rw [List.getD_eq_getElem _ _ (by simpa using hi), List.getD_eq_getElem _ _ hi,
      List.getElem_map]
  · rw [List.getD_eq_default _ _ (by simpa using hi),
      List.getD_eq_default _ _ (Nat.le_of_not_lt hi), List.tail_nil]

theorem longest_tail (qs : List (List κ)) :
    longest ((qs.map List.tail).map List.length) = longest (qs.map List.length) - 1 := by
  rw [List.map_map]
  induction qs with
  | nil => rfl
  | cons q qs ih =>
    simp only [longest, List.map_cons, List.foldr_cons, Function.comp_apply,
      List.length_tail] at ih ⊢
    omega

/-- No place is empty. -/
theorem map_fst_items (qs : List (List κ)) :
    (items qs).map (·.1) = (places (qs.map List.length)).map (·.2) := by
  have hsome (l : List (Nat × Nat)) (hl : ∀ p ∈ l, p.1 < (qs.getD p.2 []).length) :
      (l.filterMap (elementAt qs)).map (·.1) = l.map (·.2) := by
    induction l with
    | nil => rfl
    | cons p l ih =>
      have hp := hl p (List.mem_cons_self)
      have hat : elementAt qs p = some (p.2, (qs.getD p.2 [])[p.1]) := by
        simp [elementAt]
      rw [List.filterMap_cons_some hat, List.map_cons, List.map_cons,
        ih fun q hq ↦ hl q (List.mem_cons_of_mem _ hq)]
  apply hsome
  intro p hp
  rw [mem_places, getD_length] at hp
  exact hp

/-- A row of elements, read off the queues directly. -/
theorem filterMap_row (qs : List (List κ)) (k : Nat) :
    (row (qs.map List.length) k).filterMap (elementAt qs) =
      (List.range qs.length).filterMap fun i ↦ (qs.getD i [])[k]?.map (i, ·) := by
  unfold row
  rw [List.filterMap_map, List.filterMap_filter, List.length_map]
  apply List.filterMap_congr
  intro i _
  rw [getD_length]
  split
  · rfl
  · next hk =>
    have hge : (qs.getD i []).length ≤ k := by simpa using hk
    rw [List.getElem?_eq_none hge]
    rfl

/-- Serving starts with the first elements and goes on with what they leave. -/
theorem items_eq (qs : List (List κ)) :
    items qs = heads qs (List.range qs.length) ++ items (qs.map List.tail) := by
  have hrow (k : Nat) :
      (row ((qs.map List.tail).map List.length) k).filterMap (elementAt (qs.map List.tail)) =
        (row (qs.map List.length) (k + 1)).filterMap (elementAt qs) := by
    rw [filterMap_row, filterMap_row, List.length_map]
    apply List.filterMap_congr
    intro i _
    rw [getD_tail, List.getElem?_tail]
  have hheads : heads qs (List.range qs.length) =
      (row (qs.map List.length) 0).filterMap (elementAt qs) := by
    rw [filterMap_row]
    unfold heads
    apply List.filterMap_congr
    intro i _
    rw [List.head?_eq_getElem?]
  unfold items places
  rw [hheads, longest_tail, List.filterMap_flatMap, List.filterMap_flatMap]
  cases hm : longest (qs.map List.length) with
  | zero =>
    have hnil : row (qs.map List.length) 0 = [] := by
      apply List.eq_nil_iff_forall_not_mem.mpr
      intro p hp
      have hmem : p ∈ places (qs.map List.length) := mem_places.mpr (by
        rw [mem_row] at hp
        omega)
      simp [places, hm] at hmem
    simp [hnil]
  | succ m =>
    rw [Nat.add_sub_cancel, List.range_succ_eq_map, List.flatMap_cons, List.flatMap_map]
    simp only [hrow]

/-- Nothing is served from empty queues. -/
theorem items_eq_nil (h : longest (qs.map List.length) = 0) : items qs = [] := by
  simp [items, places, h]

theorem countOf_append (i : Nat) (a b : List (Nat × κ)) :
    countOf i (a ++ b) = countOf i a + countOf i b := List.countP_append

/-- Among the heads of distinct queues, each non-empty one is found once. -/
theorem countOf_heads (qs : List (List κ)) {is : List Nat} (hn : is.Nodup) (i : Nat) :
    countOf i (heads qs is) = if i ∈ is ∧ qs.getD i [] ≠ [] then 1 else 0 := by
  induction is with
  | nil => simp [heads, countOf]
  | cons j is ih =>
    obtain ⟨hj, hn⟩ := List.nodup_cons.mp hn
    specialize ih hn
    unfold heads countOf at ih ⊢
    cases hq : qs.getD j [] with
    | nil =>
      rw [List.filterMap_cons_none (by simp only [hq]; rfl), ih]
      by_cases hij : i = j
      · subst hij
        simp only [hq]
        simp
      · simp [hij]
    | cons c rest =>
      rw [List.filterMap_cons_some (b := (j, c)) (by simp only [hq]; rfl), List.countP_cons, ih]
      by_cases hij : i = j
      · subst hij
        have hne : qs[i]?.getD [] ≠ [] := by simp [← List.getD_eq_getElem?_getD, hq]
        simp [hj, hne]
      · simp [hij, Ne.symm hij]

/-- Where there is no first element, there is none at all. -/
theorem longest_of_heads (h : heads qs (List.range qs.length) = []) :
    longest (qs.map List.length) = 0 := by
  apply longest_eq_zero
  intro n hn
  obtain ⟨q, hq, rfl⟩ := List.mem_map.mp hn
  obtain ⟨i, hi, rfl⟩ := List.getElem_of_mem hq
  have hnone := List.filterMap_eq_nil_iff.mp h i (List.mem_range.mpr hi)
  rw [Option.map_eq_none_iff, List.getD_eq_getElem _ _ hi, List.head?_eq_none_iff] at hnone
  rw [hnone, List.length_nil]

/-- The order of service has all elements of every queue. -/
theorem countOf_items (qs : List (List κ)) (i : Nat) :
    countOf i (items qs) = (qs.getD i []).length := by
  have hbound (m : Nat) : ∀ qs : List (List κ), longest (qs.map List.length) = m →
      countOf i (items qs) = (qs.getD i []).length := by
    induction m with
    | zero =>
      intro qs hm
      have hle : (qs.getD i []).length ≤ 0 := by
        by_cases hi : i < qs.length
        · rw [List.getD_eq_getElem _ _ hi, ← hm]
          exact le_longest (List.mem_map_of_mem (List.getElem_mem hi))
        · rw [List.getD_eq_default _ _ (Nat.le_of_not_lt hi), List.length_nil]
      rw [items_eq_nil hm, Nat.le_zero.mp hle]
      rfl
    | succ m ih =>
      intro qs hm
      have htail := ih (qs.map List.tail) (by rw [longest_tail]; omega)
      rw [items_eq, countOf_append, countOf_heads qs List.nodup_range, htail, getD_tail,
        List.length_tail]
      cases hq : qs.getD i [] with
      | nil => simp
      | cons c rest =>
        have hi : i < qs.length := by
          by_contra hge
          rw [List.getD_eq_default _ _ (Nat.le_of_not_lt hge)] at hq
          cases hq
        simp [hi]
        omega
  exact hbound _ qs rfl

end Items

end DmaAccel.Base
