import Mathlib.Algebra.BigOperators.Group.Finset.Basic
import Mathlib.Algebra.Order.BigOperators.Group.Finset
import Mathlib.Data.Fintype.Card

/-!
# Ownership kept twice

A resource has at most one owner, recorded in a table of owners and, for each party, in the
set of resources it holds. `Agree` says that the two records tell the same story about the
live parties; the four lemmas after it are the ways to keep them in step.
-/

namespace DmaAccel.Base

universe u v

variable {ι : Type u} {σ : Type v} {owner : ι → Option σ} {live : σ → Prop}
  {held : σ → Finset ι}

/-- The table names `s` as the owner of `i` exactly if `s` is live and holds `i`. -/
def Agree (owner : ι → Option σ) (live : σ → Prop) (held : σ → Finset ι) : Prop :=
  ∀ i s, owner i = some s ↔ live s ∧ i ∈ held s

namespace Agree

/-- A resource has an owner exactly if exactly one live party holds it. -/
theorem isSome_iff (h : Agree owner live held) (i : ι) :
    (owner i).isSome = true ↔ ∃! s, live s ∧ i ∈ held s := by
  constructor
  · intro hi
    obtain ⟨s, hs⟩ := Option.isSome_iff_exists.mp hi
    refine ⟨s, (h i s).mp hs, ?_⟩
    intro r hr
    have hr' := (h i r).mpr hr
    rw [hs] at hr'
    exact (Option.some.inj hr').symm
  · rintro ⟨s, hs, -⟩
    rw [(h i s).mpr hs]
    rfl

/-- Only the live parties matter. -/
theorem congr_live (h : Agree owner live held) {live' : σ → Prop}
    (hl : ∀ s, live' s ↔ live s) : Agree owner live' held := by
  intro i s
  rw [hl s]
  exact h i s

variable [DecidableEq ι]

/-- A live party is granted a resource without owner. -/
theorem grant [DecidableEq σ] (h : Agree owner live held) {i : ι} {s : σ}
    (hi : owner i = none) (hs : live s) :
    Agree (Function.update owner i (some s)) live
      (Function.update held s (insert i (held s))) := by
  have hnot {r : σ} (hr : live r) : i ∉ held r := by
    intro hri
    rw [(h i r).mpr ⟨hr, hri⟩] at hi
    cases hi
  intro j r
  by_cases hj : j = i <;> by_cases hr : r = s
  · subst hj hr
    simp [hs]
  · subst hj
    rw [Function.update_self, Function.update_of_ne hr]
    constructor
    · intro he
      exact (hr (Option.some.inj he).symm).elim
    · rintro ⟨hl, hmem⟩
      exact (hnot hl hmem).elim
  · subst hr
    rw [Function.update_of_ne hj, Function.update_self, Finset.mem_insert, h j r]
    simp [hj]
  · rw [Function.update_of_ne hj, Function.update_of_ne hr]
    exact h j r

/-- A resource is taken back from the live party that holds it. -/
theorem revoke [DecidableEq σ] (h : Agree owner live held) {i : ι} {s : σ} (hs : live s)
    (hi : i ∈ held s) :
    Agree (Function.update owner i none) live
      (Function.update held s ((held s).erase i)) := by
  have howner : owner i = some s := (h i s).mpr ⟨hs, hi⟩
  intro j r
  by_cases hj : j = i <;> by_cases hr : r = s
  · subst hj hr
    simp
  · subst hj
    rw [Function.update_self, Function.update_of_ne hr]
    constructor
    · nofun
    · intro hmem
      have he := (h j r).mpr hmem
      rw [howner] at he
      exact (hr (Option.some.inj he).symm).elim
  · subst hr
    rw [Function.update_of_ne hj, Function.update_self, Finset.mem_erase, h j r]
    simp [hj]
  · rw [Function.update_of_ne hj, Function.update_of_ne hr]
    exact h j r

/-- A live party leaves and everything it holds loses its owner. -/
theorem retire (h : Agree owner live held) {s : σ} (hs : live s) {owner' : ι → Option σ}
    (ho : ∀ i, owner' i = if i ∈ held s then none else owner i) :
    Agree owner' (fun r ↦ live r ∧ r ≠ s) held := by
  intro i r
  rw [ho i]
  split
  · next hi =>
    constructor
    · nofun
    · rintro ⟨⟨hl, hne⟩, hri⟩
      have h1 := (h i s).mpr ⟨hs, hi⟩
      rw [(h i r).mpr ⟨hl, hri⟩] at h1
      exact (hne (Option.some.inj h1)).elim
  · next hi =>
    rw [h i r]
    constructor
    · rintro ⟨hl, hri⟩
      refine ⟨⟨hl, ?_⟩, hri⟩
      rintro rfl
      exact hi hri
    · rintro ⟨⟨hl, -⟩, hri⟩
      exact ⟨hl, hri⟩

end Agree

/-- A party that holds nothing joins. -/
theorem Agree.enlist (h : Agree owner live held) {s : σ} (hs : held s = ∅) :
    Agree owner (fun r ↦ live r ∨ r = s) held := by
  intro i r
  rw [h i r]
  constructor
  · rintro ⟨hl, hri⟩
    exact ⟨.inl hl, hri⟩
  · rintro ⟨hl | rfl, hri⟩
    · exact ⟨hl, hri⟩
    · rw [hs] at hri
      cases hri

/-- Where the shares of the live parties fit into the resources, a party below its share finds
a resource without owner. -/
theorem Agree.exists_unowned [Fintype ι] [DecidableEq ι] (h : Agree owner live held)
    {parties : Finset σ} (hlive : ∀ r, live r → r ∈ parties) {share : Nat}
    (hshare : ∀ r ∈ parties, (held r).card ≤ share)
    (hfit : parties.card * share ≤ Fintype.card ι) {s : σ} (hs : s ∈ parties)
    (hlt : (held s).card < share) : ∃ i, owner i = none := by
  by_contra hnone
  have hcover : (Finset.univ : Finset ι) ⊆ parties.biUnion held := by
    intro i _
    obtain ⟨r, hr⟩ := Option.ne_none_iff_exists'.mp fun hi ↦ hnone ⟨i, hi⟩
    obtain ⟨hl, hi⟩ := (h i r).mp hr
    exact Finset.mem_biUnion.mpr ⟨r, hlive r hl, hi⟩
  have hsum : ∑ r ∈ parties, (held r).card < ∑ _r ∈ parties, share :=
    Finset.sum_lt_sum hshare ⟨s, hs, hlt⟩
  have htotal : Fintype.card ι < parties.card * share :=
    calc Fintype.card ι = (Finset.univ : Finset ι).card := Finset.card_univ.symm
      _ ≤ (parties.biUnion held).card := Finset.card_le_card hcover
      _ ≤ ∑ r ∈ parties, (held r).card := Finset.card_biUnion_le
      _ < ∑ _r ∈ parties, share := hsum
      _ = parties.card * share := Finset.sum_const_nat fun _ _ ↦ rfl
  exact Nat.not_lt.mpr hfit htotal

end DmaAccel.Base
