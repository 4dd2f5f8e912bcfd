import Mathlib.Data.BitVec
import Mathlib.Data.List.Range

/-!
# Counted loops over a machine counter

`forLoop` runs a body that may fail for every value of an unsigned counter below a bound,
`searchLoop` does so until the body has found something. `forLoop_invariant` is the induction over
the iterations. `Simulates` says that a statement acts on what its state represents as a total
function does, and `Simulates.forLoop` carries this from a body to its loop.
-/

namespace DmaAccel.Base

universe u v

variable {w : Nat} {σ : Type u} {β α : Type v}

/-- `for (i = 0; i < n; ++i)`; `none` as soon as the body fails. -/
def forLoop (n : BitVec w) (body : BitVec w → σ → Option σ) (s : σ) : Option σ :=
  (List.range n.toNat).foldlM (fun s i ↦ body (BitVec.ofNat w i) s) s

/-- `for (i = 0; i < n && !found; ++i)`: the body's answer is `some none` where it found
nothing. -/
def searchLoop (n : BitVec w) (body : BitVec w → Option (Option α)) : Option (Option α) :=
  forLoop n (fun i found ↦ if found.isSome then some found else body i) none

variable {n : BitVec w} {s : σ}

/-- What holds before the first iteration and survives each holds after the last, and the loop
does not fail. -/
theorem forLoop_invariant {body : BitVec w → σ → Option σ} (I : Nat → σ → Prop) (h0 : I 0 s)
    (hstep : ∀ i < n, ∀ t, I i.toNat t → ∃ t', body i t = some t' ∧ I (i.toNat + 1) t') :
    ∃ t, forLoop n body s = some t ∧ I n.toNat t := by
  -- The first `m` iterations, for every `m` up to the bound.
  have hprefix : ∀ m ≤ n.toNat, ∃ t,
      (List.range m).foldlM (fun s i ↦ body (BitVec.ofNat w i) s) s = some t ∧ I m t := by
    intro m hm
    induction m with
    | zero => exact ⟨s, rfl, h0⟩
    | succ m ih =>
      obtain ⟨t, ht, hI⟩ := ih (by omega)
      have hfit : m < 2 ^ w := by have := n.isLt; omega
      have htoNat : (BitVec.ofNat w m).toNat = m := by
        rw [BitVec.toNat_ofNat, Nat.mod_eq_of_lt hfit]
      have hlt : BitVec.ofNat w m < n := by
        rw [BitVec.lt_def, htoNat]
        omega
      obtain ⟨t', ht', hI'⟩ := hstep _ hlt t (by rwa [htoNat])
      rw [htoNat] at hI'
      refine ⟨t', ?_, hI'⟩
      rw [List.range_succ, List.foldlM_append, ht]
      simpa using ht'
  exact hprefix n.toNat (Nat.le_refl _)

/-- Only what the body does below the bound counts. -/
theorem forLoop_congr {body body' : BitVec w → σ → Option σ}
    (h : ∀ i < n, ∀ t, body i t = body' i t) : forLoop n body s = forLoop n body' s := by
  have hlist : ∀ l : List Nat, (∀ i ∈ l, i < n.toNat) → ∀ t,
      l.foldlM (fun t i ↦ body (BitVec.ofNat w i) t) t =
        l.foldlM (fun t i ↦ body' (BitVec.ofNat w i) t) t := by
    intro l hl
    induction l with
    | nil => exact fun _ ↦ rfl
    | cons i l ih =>
      intro t
      have hi := hl i (List.mem_cons_self ..)
      have hlt : BitVec.ofNat w i < n := by
        rw [BitVec.lt_def, BitVec.toNat_ofNat, Nat.mod_eq_of_lt (hi.trans n.isLt)]
        exact hi
      rw [List.foldlM_cons, List.foldlM_cons, h _ hlt]
      congr 1
      funext t'
      exact ih (fun j hj ↦ hl j (List.mem_cons_of_mem _ hj)) t'
  exact hlist _ (fun i hi ↦ List.mem_range.mp hi) s

/-- Only what the body finds below the bound counts. -/
theorem searchLoop_congr {body body' : BitVec w → Option (Option α)}
    (h : ∀ i < n, body i = body' i) : searchLoop n body = searchLoop n body' := by
  apply forLoop_congr
  intro i hi found
  rw [h i hi]

/-- A loop of one iteration. -/
theorem forLoop_one (hn : n.toNat = 1) (body : BitVec w → σ → Option σ) (s : σ) :
    forLoop n body s = body 0 s := by
  rw [forLoop, hn]
  exact bind_pure _

/-- A search that found nothing had nothing to find in any iteration. -/
theorem of_searchLoop_none {body : BitVec w → Option (Option α)}
    (h : searchLoop n body = some none) : ∀ i < n, body i = some none := by
  have hprefix : ∀ m ≤ n.toNat,
      (List.range m).foldlM (fun found i ↦ if found.isSome then some found
        else body (BitVec.ofNat w i)) none = some (none : Option α) →
      ∀ i < m, body (BitVec.ofNat w i) = some none := by
    intro m hm hrun
    induction m with
    | zero =>
      intro i hi
      exact absurd hi (Nat.not_lt_zero i)
    | succ m ih =>
      rw [List.range_succ, List.foldlM_append] at hrun
      obtain ⟨found, hfound, hlast⟩ := Option.bind_eq_some_iff.mp hrun
      -- Once something is found it stays, so that before the last iteration nothing was.
      cases found with
      | some x => simp at hlast
      | none =>
        have hbody : body (BitVec.ofNat w m) = some none := by simpa using hlast
        intro i hi
        obtain rfl | hlt := Nat.eq_or_lt_of_le (Nat.le_of_lt_succ hi)
        · exact hbody
        · exact ih (by omega) hfound i hlt
  intro i hi
  have hbody := hprefix n.toNat (Nat.le_refl _) h i.toNat (BitVec.lt_def.mp hi)
  rwa [BitVec.ofNat_toNat, BitVec.setWidth_eq] at hbody

/-- A search finds nothing where no iteration does. -/
theorem searchLoop_none_iff {body : BitVec w → Option (Option α)} :
    searchLoop n body = some none ↔ ∀ i < n, body i = some none := by
  refine ⟨of_searchLoop_none, fun h ↦ ?_⟩
  have hrun : ∃ found, searchLoop n body = some found ∧ found = none := by
    refine forLoop_invariant (fun _ found ↦ found = none) rfl ?_
    rintro i hi found rfl
    exact ⟨none, by simpa using h i hi, rfl⟩
  obtain ⟨found, hfound, rfl⟩ := hrun
  exact hfound

section Simulates

/-- From a state that represents `b`, the statement ends, in one that represents `φ b`. -/
def Simulates (R : σ → β → Prop) (stmt : σ → Option σ) (φ : β → β) : Prop :=
  ∀ s b, R s b → ∃ s', stmt s = some s' ∧ R s' (φ b)

variable {R : σ → β → Prop} {body : BitVec w → σ → Option σ}

/-- A loop acts as its iterations do one after the other: `F m` is what the first `m` of them
come to. -/
theorem Simulates.forLoop (φ F : Nat → β → β) (h0 : ∀ b, F 0 b = b)
    (hsucc : ∀ m b, F (m + 1) b = φ m (F m b))
    (h : ∀ i < n, Simulates R (body i) (φ i.toNat)) :
    Simulates R (Base.forLoop n body) (F n.toNat) := by
  intro s b hs
  refine forLoop_invariant (fun m t ↦ R t (F m b)) (by rwa [h0]) ?_
  intro i hi t ht
  rw [hsucc]
  exact h i hi t _ ht

end Simulates

end DmaAccel.Base
