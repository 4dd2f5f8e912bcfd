import Mathlib.Data.List.Range
import Mathlib.Data.Nat.ModEq
import Mathlib.Logic.Function.Basic

/-!
# Rings addressed by wrapping 32-bit counters

Producer and consumer keep free-running 32-bit counters and address slot `counter % n`.
Where `n` divides `2 ^ 32` the wrap of a counter is invisible in the slots, and the
`window` between the two counters is a queue: `window_push` and `window_pop` are its only
operations, `window_store` says that the slot the producer writes next is outside it.
-/

namespace DmaAccel.Base

universe u

variable {α : Type u} {n : Nat} [NeZero n]

/-- Slot addressed by a free-running counter. -/
def slotOf (n : Nat) [NeZero n] (c : BitVec 32) : Fin n := Fin.ofNat n c.toNat

/-- Number of entries between the consumer and the producer counter. -/
def span (head tail : BitVec 32) : Nat := (tail - head).toNat

/-- Entries between the consumer and the producer counter, oldest first. -/
def window (slots : Fin n → α) (head tail : BitVec 32) : List α :=
  (List.range (span head tail)).map fun j ↦ slots (slotOf n (head + BitVec.ofNat 32 j))

/-- Equal counters leave nothing between them, and only equal counters do. -/
theorem span_eq_zero_iff {head tail : BitVec 32} : span head tail = 0 ↔ head = tail := by
  unfold span
  constructor
  · intro h
    bv_omega
  · intro h
    subst h
    simp

/-- The window has one entry for each count between the counters. -/
theorem length_window (slots : Fin n → α) (head tail : BitVec 32) :
    (window slots head tail).length = span head tail := by
  simp [window]

/-- Advancing the producer widens the span by one, short of a full turn. -/
theorem span_succ {head tail : BitVec 32} (h : span head tail + 1 < 2 ^ 32) :
    span head (tail + 1) = span head tail + 1 := by
  unfold span at h ⊢
  bv_omega

/-- Advancing the consumer narrows a nonempty span by one. -/
theorem span_pop {head tail : BitVec 32} (h : head ≠ tail) :
    span head tail = span (head + 1) tail + 1 := by
  unfold span
  bv_omega

private theorem slotOf_add_val (hn : n ∣ 2 ^ 32) (c : BitVec 32) (j : Nat) :
    (slotOf n (c + BitVec.ofNat 32 j)).val = (c.toNat + j) % n := by
  change (c + BitVec.ofNat 32 j).toNat % n = _
  rw [BitVec.toNat_add, BitVec.toNat_ofNat, Nat.mod_mod_of_dvd _ hn, Nat.add_mod,
    Nat.mod_mod_of_dvd _ hn, ← Nat.add_mod]

private theorem tail_eq (head tail : BitVec 32) :
    tail = head + BitVec.ofNat 32 (span head tail) := by
  unfold span
  bv_omega

/-- Fewer than `n` steps never come back to the same slot. -/
theorem slotOf_ne (hn : n ∣ 2 ^ 32) {head tail : BitVec 32} (hroom : span head tail < n)
    {j : Nat} (hj : j < span head tail) :
    slotOf n (head + BitVec.ofNat 32 j) ≠ slotOf n tail := by
  intro he
  rw [tail_eq head tail] at he
  have hv := congrArg Fin.val he
  rw [slotOf_add_val hn, slotOf_add_val hn] at hv
  have hmod : j ≡ span head tail [MOD n] := Nat.ModEq.add_left_cancel' head.toNat hv
  have := Nat.ModEq.eq_of_lt_of_lt hmod (by omega) hroom
  omega

/-- The slot the producer writes next is outside a window that is not full. -/
theorem window_store (hn : n ∣ 2 ^ 32) (slots : Fin n → α) {head tail : BitVec 32}
    (hroom : span head tail < n) (x : α) :
    window (Function.update slots (slotOf n tail) x) head tail = window slots head tail := by
  unfold window
  apply List.map_congr_left
  intro j hj
  rw [Function.update_of_ne]
  exact slotOf_ne hn hroom (List.mem_range.mp hj)

/-- Advancing the producer appends what it stored in its slot. -/
theorem window_advance (slots : Fin n → α) {head tail : BitVec 32}
    (h : span head tail + 1 < 2 ^ 32) :
    window slots head (tail + 1) = window slots head tail ++ [slots (slotOf n tail)] := by
  unfold window
  rw [span_succ h, List.range_succ, List.map_append, List.map_singleton, ← tail_eq]

/-- Storing and advancing appends one entry while there is room. -/
theorem window_push (hn : n ∣ 2 ^ 32) (hlt : n < 2 ^ 32) (slots : Fin n → α)
    {head tail : BitVec 32} (hroom : span head tail < n) (x : α) :
    window (Function.update slots (slotOf n tail) x) head (tail + 1) =
      window slots head tail ++ [x] := by
  rw [window_advance _ (by omega), window_store hn slots hroom, Function.update_self]

/-- The consumer's slot holds the oldest entry; advancing the consumer removes it. -/
theorem window_pop (slots : Fin n → α) {head tail : BitVec 32} (h : head ≠ tail) :
    window slots head tail = slots (slotOf n head) :: window slots (head + 1) tail := by
  unfold window
  rw [span_pop h, List.range_succ_eq_map, List.map_cons, List.map_map]
  congr 1
  · simp
  · apply List.map_congr_left
    intro j _
    have hj : head + BitVec.ofNat 32 (j + 1) = head + 1 + BitVec.ofNat 32 j := by
      rw [BitVec.ofNat_add, BitVec.add_comm (BitVec.ofNat 32 j), ← BitVec.add_assoc]
      rfl
    simp only [Function.comp_apply, Nat.succ_eq_add_one, hj]

/-- Nothing lies between equal counters. -/
theorem window_self (slots : Fin n → α) (c : BitVec 32) : window slots c c = [] := by
  apply List.eq_nil_of_length_eq_zero
  rw [length_window, span_eq_zero_iff]

end DmaAccel.Base
