import DmaAccel.Base.Tally

/-!
# Custody of tickets

The abstract purpose of a routing table: a ticket is admitted, held until somebody takes it
in hand, and delivered once. The ledger keeps the whole history of admissions and
deliveries; the single conservation law `Balanced` yields that no ticket is delivered
twice, that only admitted ones are delivered, and how many are still outstanding.
-/

namespace DmaAccel.Base

universe u

/-- Tickets admitted so far, those still held, the one in hand and those delivered. -/
structure Ledger (τ : Type u) where
  admitted : List τ
  held : Multiset τ
  hand : Option τ
  delivered : List τ

namespace Ledger

variable {τ : Type u}

/-- One move of custody; `stay` is the stutter of a step that concerns no ticket. -/
inductive Step : Ledger τ → Ledger τ → Prop where
  | stay (L : Ledger τ) : Step L L
  | enroll (L : Ledger τ) (t : τ) :
      Step L { L with admitted := L.admitted ++ [t], held := t ::ₘ L.held }
  | take (L : Ledger τ) (t : τ) (rest : Multiset τ) : L.hand = none → L.held = t ::ₘ rest →
      Step L { L with held := rest, hand := some t }
  | deliver (L : Ledger τ) (t : τ) : L.hand = some t →
      Step L { L with hand := none, delivered := L.delivered ++ [t] }

/-- Conservation: every admitted ticket is held, in hand or delivered. -/
def Balanced (L : Ledger τ) : Prop :=
  (L.admitted : Multiset τ) = L.held + optBag L.hand + (L.delivered : Multiset τ)

/-- Every move of custody conserves the tickets. -/
theorem Step.balanced {L L' : Ledger τ} (h : Step L L') (hb : L.Balanced) : L'.Balanced := by
  unfold Balanced at hb ⊢
  cases h with
  | stay => exact hb
  | enroll t =>
    rw [← Multiset.coe_add, hb]
    change _ + ({t} : Multiset τ) = _
    rw [← Multiset.singleton_add, add_comm]
    simp only [add_assoc]
  | take t rest hn ht =>
    rw [hb, hn, ht, ← Multiset.singleton_add]
    simp only [optBag, Option.elim_none, Option.elim_some, add_zero]
    rw [add_comm rest]
  | deliver t ht =>
    rw [hb, ht, ← Multiset.coe_add]
    simp only [optBag, Option.elim_none, Option.elim_some, add_zero]
    change _ = L.held + (_ + ({t} : Multiset τ))
    rw [add_assoc, add_comm ({t} : Multiset τ)]

/-- Tickets of one kind that are admitted and not delivered. -/
def outstanding (L : Ledger τ) (p : τ → Prop) [DecidablePred p] : Nat :=
  L.held.countP p + (optBag L.hand).countP p

section Outstanding

variable {L L' : Ledger τ} {p : τ → Prop} [DecidablePred p]

/-- Only an admission adds to the outstanding tickets. -/
theorem Step.outstanding_le (h : Step L L') (he : L'.admitted = L.admitted) :
    L'.outstanding p ≤ L.outstanding p := by
  unfold outstanding
  cases h with
  | stay => exact Nat.le_refl _
  | enroll t => simp at he
  | take t rest hn ht =>
    rw [ht, hn, ← Multiset.singleton_add, Multiset.countP_add]
    simp only [optBag, Option.elim_some, Option.elim_none, Multiset.countP_zero]
    omega
  | deliver t ht =>
    simp only [optBag, Option.elim_none, Multiset.countP_zero]
    omega

/-- An admission adds its own ticket. -/
theorem Step.outstanding_enroll (h : Step L L') {t : τ} (he : L'.admitted = L.admitted ++ [t]) :
    L'.outstanding p = L.outstanding p + (if p t then 1 else 0) := by
  unfold outstanding
  cases h with
  | stay => simp at he
  | enroll x =>
    have hx : x = t := by simpa using he
    subst hx
    simp only [Multiset.countP_cons]
    exact Nat.add_right_comm _ _ _
  | take x rest hn ht => simp at he
  | deliver x ht => simp at he

end Outstanding

namespace Balanced

variable {L : Ledger τ}

/-- Conservation, restricted to any kind of ticket. -/
theorem countP (hb : L.Balanced) (p : τ → Prop) [DecidablePred p] :
    L.admitted.countP p = L.held.countP p + (optBag L.hand).countP p + L.delivered.countP p := by
  have h := congrArg (Multiset.countP p) hb
  simpa only [Multiset.countP_add, Multiset.coe_countP] using h

/-- Only admitted tickets are delivered. -/
theorem mem_admitted (hb : L.Balanced) {t : τ} (ht : t ∈ L.delivered) : t ∈ L.admitted := by
  rw [← Multiset.mem_coe, hb]
  exact Multiset.mem_add.mpr (.inr ht)

/-- An admitted ticket that is not delivered is still held or in hand. -/
theorem mem_held_or_hand (hb : L.Balanced) {t : τ} (ht : t ∈ L.admitted)
    (hd : t ∉ L.delivered) : t ∈ L.held ∨ L.hand = some t := by
  rw [← Multiset.mem_coe, hb, Multiset.mem_add, Multiset.mem_add] at ht
  rcases ht with (ht | ht) | ht
  · exact .inl ht
  · right
    cases ho : L.hand with
    | none => simp [optBag, ho] at ht
    | some x => simpa [optBag, ho, eq_comm] using ht
  · exact (hd ht).elim

/-- Where admissions are told apart by `f`, so are deliveries. -/
theorem delivered_nodup {κ : Type u} (f : τ → κ) (hb : L.Balanced)
    (hn : (L.admitted.map f).Nodup) : (L.delivered.map f).Nodup := by
  have hle : (L.delivered : Multiset τ) ≤ (L.admitted : Multiset τ) := by
    rw [hb]
    exact Multiset.le_add_left _ _
  have hmap := Multiset.map_le_map (f := f) hle
  rw [Multiset.map_coe, Multiset.map_coe] at hmap
  exact Multiset.coe_nodup.mp (Multiset.nodup_of_le hmap (Multiset.coe_nodup.mpr hn))

/-- Admitted tickets that are not delivered are exactly those held or in hand, counted by
kind. -/
theorem countP_outstanding [DecidableEq τ] (hb : L.Balanced) (hn : L.admitted.Nodup)
    (p : τ → Prop) [DecidablePred p] :
    (L.admitted.filter (· ∉ L.delivered)).countP p = L.outstanding p := by
  have hnd : ((L.held + optBag L.hand) + (L.delivered : Multiset τ)).Nodup := by
    rw [← hb]
    exact Multiset.coe_nodup.mpr hn
  have hdis := (Multiset.nodup_add.mp hnd).2.2
  have hkeep : (L.held + optBag L.hand).filter (· ∉ L.delivered) = L.held + optBag L.hand := by
    apply Multiset.filter_eq_self.mpr
    intro t ht hd
    exact Multiset.disjoint_left.mp hdis ht hd
  have hdrop : (L.delivered : Multiset τ).filter (· ∉ L.delivered) = 0 := by
    apply Multiset.filter_eq_nil.mpr
    intro t ht hd
    exact hd ht
  have hf : ((L.admitted.filter (· ∉ L.delivered) : List τ) : Multiset τ) =
      L.held + optBag L.hand := by
    rw [← Multiset.filter_coe, hb, Multiset.filter_add, hkeep, hdrop, add_zero]
  have h := congrArg (Multiset.countP p) hf
  simpa only [outstanding, Multiset.countP_add, Multiset.coe_countP] using h

end Balanced
end Ledger
end DmaAccel.Base
