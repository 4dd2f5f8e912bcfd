import Mathlib.Data.Finset.Card
import Mathlib.Logic.Relation

/-!
# Acyclic dependency graphs

A graph is a map from a node to the list of its successors. `search` is the depth-first
search without a set of visited nodes: it terminates only because chains are bounded, which
in a finite graph is what acyclicity says (`DepthLe.of_acyclic`). `DepthLe n x` bounds the
chains from `x` to `n` nodes and carries every induction over the graph.
-/

namespace DmaAccel.Base

open Relation

universe u

variable {α : Type u}

/-- `y` is a successor of `x`. -/
def Edge (succs : α → List α) (x y : α) : Prop := y ∈ succs x

/-- No node reaches itself by one edge or more. -/
def Acyclic (r : α → α → Prop) : Prop := ∀ x, ¬TransGen r x x

/-- The relation with one more edge. -/
def withEdge (r : α → α → Prop) (a b : α) (x y : α) : Prop := r x y ∨ x = a ∧ y = b

/-- Chains from `x` have at most `n` nodes. -/
def DepthLe (r : α → α → Prop) : Nat → α → Prop
  | 0, _ => False
  | n + 1, x => ∀ y, r x y → DepthLe r n y

/-- Look for a success among the nodes in order; `none` as soon as one search gives up. -/
def searchList (s : α → Option Bool) : List α → Option Bool
  | [] => some false
  | x :: l =>
    match s x with
    | some true => some true
    | some false => searchList s l
    | none => none

/-- Depth-first search for `target`, which gives up below `n` nodes of depth. -/
def search [DecidableEq α] (succs : α → List α) (target : α) : Nat → α → Option Bool
  | 0, _ => none
  | n + 1, x =>
    if x = target then some true else searchList (search succs target n) (succs x)

variable {r : α → α → Prop} {a b x y : α} {n : Nat}

/-- A smaller relation has fewer cycles. -/
theorem Acyclic.mono {r' : α → α → Prop} (h : Acyclic r) (hle : ∀ x y, r' x y → r x y) :
    Acyclic r' := fun x hx ↦ h x (TransGen.mono hle x x hx)

/-- A path that uses the new edge reaches its source in the old graph first. -/
private theorem transGen_withEdge (h : TransGen (withEdge r a b) x y) :
    TransGen r x y ∨ ReflTransGen r x a ∧ ReflTransGen r b y ∨
      ReflTransGen r x a ∧ ReflTransGen r b a := by
  induction h with
  | single h =>
    rcases h with h | ⟨rfl, rfl⟩
    · exact .inl (.single h)
    · exact .inr (.inl ⟨.refl, .refl⟩)
  | tail _ h ih =>
    rcases h with h | ⟨rfl, rfl⟩
    · rcases ih with ih | ⟨ha, hb⟩ | ih
      · exact .inl (ih.tail h)
      · exact .inr (.inl ⟨ha, hb.tail h⟩)
      · exact .inr (.inr ih)
    · rcases ih with ih | ⟨ha, hb⟩ | ih
      · exact .inr (.inl ⟨ih.to_reflTransGen, .refl⟩)
      · exact .inr (.inr ⟨ha, hb⟩)
      · exact .inr (.inr ih)

/-- A new edge closes a cycle exactly when its target already reaches its source. -/
theorem acyclic_withEdge (h : Acyclic r) :
    Acyclic (withEdge r a b) ↔ ¬ReflTransGen r b a := by
  have hle (x y : α) (hr : r x y) : withEdge r a b x y := .inl hr
  constructor
  · intro hac hba
    have hcycle : TransGen (withEdge r a b) a a :=
      .head' (.inr ⟨rfl, rfl⟩) (ReflTransGen.mono hle b a hba)
    exact hac a hcycle
  · intro hba x hx
    rcases transGen_withEdge hx with hx | ⟨ha, hb⟩ | ⟨-, hb⟩
    · exact h x hx
    · exact hba (hb.trans ha)
    · exact hba hb

namespace DepthLe

/-- A longer bound holds too. -/
theorem succ (h : DepthLe r n x) : DepthLe r (n + 1) x := by
  induction n generalizing x with
  | zero => exact h.elim
  | succ n ih =>
    intro y hy
    exact ih (h y hy)

/-- Bounds can be weakened. -/
theorem mono {m : Nat} (h : DepthLe r n x) (hle : n ≤ m) : DepthLe r m x := by
  induction hle with
  | refl => exact h
  | step _ ih => exact ih.succ

/-- In an acyclic graph on finitely many nodes a chain visits no node twice. -/
theorem of_acyclic [DecidableEq α] (h : Acyclic r) {s : Finset α}
    (hs : ∀ x ∈ s, ∀ y, r x y → y ∈ s) (hx : x ∈ s) : DepthLe r s.card x := by
  -- `v` holds the nodes of the chain so far, all of which reach `x`
  suffices hchain : ∀ n (v : Finset α) x, x ∈ s → v ⊆ s → (∀ y ∈ v, TransGen r y x) →
      v.card + n = s.card → DepthLe r n x by
    refine hchain s.card ∅ x hx (Finset.empty_subset s) ?_ (by simp)
    simp
  intro n
  induction n with
  | zero =>
    intro v x hx hv hreach hcard
    have hvs : v = s := Finset.eq_of_subset_of_card_le hv (by omega)
    rw [← hvs] at hx
    exact h x (hreach x hx)
  | succ n ih =>
    intro v x hx hv hreach hcard y hy
    have hnew : x ∉ v := fun hmem ↦ h x (hreach x hmem)
    refine ih (insert x v) y (hs x hx y hy) (Finset.insert_subset hx hv) ?_ ?_
    · intro z hz
      rcases Finset.mem_insert.mp hz with rfl | hz
      · exact .single hy
      · exact (hreach z hz).tail hy
    · rw [Finset.card_insert_of_notMem hnew]
      omega

end DepthLe

/-- A list of searches that all decide decides whether one of them succeeds. -/
private theorem searchList_eq_some {s : α → Option Bool} {p : α → Prop} {l : List α}
    (h : ∀ x ∈ l, ∃ b, s x = some b ∧ (b = true ↔ p x)) :
    ∃ b, searchList s l = some b ∧ (b = true ↔ ∃ x ∈ l, p x) := by
  induction l with
  | nil => exact ⟨false, rfl, by simp⟩
  | cons x l ih =>
    obtain ⟨c, hc, hcp⟩ := h x List.mem_cons_self
    obtain ⟨d, hd, hdp⟩ := ih fun y hy ↦ h y (List.mem_cons_of_mem x hy)
    cases c with
    | true =>
      refine ⟨true, by simp [searchList, hc], ?_⟩
      simp [hcp.mp rfl]
    | false =>
      refine ⟨d, by simp [searchList, hc, hd], ?_⟩
      have hx : ¬p x := fun hx ↦ Bool.false_ne_true (hcp.mpr hx)
      simp [hdp, hx]

variable [DecidableEq α] {succs : α → List α} {target : α}

/-- A search that may go as deep as the chains from its start decides reachability. -/
theorem search_eq_some (h : DepthLe (Edge succs) n x) :
    ∃ b, search succs target n x = some b ∧
      (b = true ↔ ReflTransGen (Edge succs) x target) := by
  induction n generalizing x with
  | zero => exact h.elim
  | succ n ih =>
    by_cases hx : x = target
    · refine ⟨true, by simp [search, hx], ?_⟩
      simp [hx, ReflTransGen.refl]
    · obtain ⟨b, hb, hbp⟩ := searchList_eq_some fun y hy ↦ ih (h y hy)
      refine ⟨b, by simp [search, hx, hb], ?_⟩
      rw [hbp]
      constructor
      · rintro ⟨y, hy, hyt⟩
        exact .head hy hyt
      · intro ht
        rcases ht.cases_head with he | ⟨y, hy, hyt⟩
        · exact (hx he).elim
        · exact ⟨y, hy, hyt⟩

end DmaAccel.Base
