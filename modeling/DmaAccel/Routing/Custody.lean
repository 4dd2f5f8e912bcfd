import DmaAccel.Routing.Calls
import DmaAccel.Base.Ledger
import Mathlib.Data.Fintype.Basic

/-!
# Custody of commands: the table and the handler refine the ledger

The routing table, the completion in the handler's hand and the pushes into the session
rings are one abstract ledger of (session, command id) tickets. `Trans.custody` is the
simulation; conservation then gives completion isolation, with no assumption on the order,
the number or the kind of completions the device reports.
-/

namespace DmaAccel.Driver

open DmaAccel.Base

/-- A session and one of its command ids. -/
abbrev Ticket := Sid × Nat

/-- The ticket a table entry stands for. -/
def CmdCtx.ticket (e : CmdCtx) : Option Ticket :=
  if e.valid then some (e.sess, e.cmdId) else none

/-- The completion the handler has removed from the table and not pushed yet. -/
def Isr.ticket (h : Isr) : Option Ticket :=
  if h.pc = .push then some (h.owner, h.comp.cmdId) else none

/-- The ticket of an admission. -/
def Admitted.ticket (x : Admitted) : Ticket := (x.sess, x.cmd.cmdId)

/-- The ticket of a push. -/
def pushTicket (p : Sid × Completion) : Ticket := (p.1, p.2.cmdId)

/-- The ledger the driver's state stands for. -/
def ledgerOf (st : Sys) : Ledger Ticket where
  admitted := st.admitted.map Admitted.ticket
  held := bag CmdCtx.ticket Finset.univ st.cmdTable
  hand := st.isr.ticket
  delivered := st.pushed.map pushTicket

/-- The slot the admission uses was not valid. -/
theorem freeCmdSlot_spec {t : Fin maxInflightCmds → CmdCtx} {j : Fin maxInflightCmds}
    (h : freeCmdSlot t = some j) : (t j).valid = false := by
  have := List.find?_some h
  simpa using this

/-- The entry the handler finds is valid and carries the reported id. -/
theorem findCmd_spec {t : Fin maxInflightCmds → CmdCtx} {id : Nat} {i : Fin maxInflightCmds}
    (h : findCmd t id = some i) : (t i).valid = true ∧ (t i).cmdId = id := by
  have := List.find?_some h
  simpa using this

variable {st st' : Sys} {a : Act}

private theorem ticket_local {h : Isr} (hl : IsrLocal st st.isr h) : h.ticket = st.isr.ticket := by
  cases hl <;> simp_all [Isr.ticket]

private theorem held_register {t : Fin maxInflightCmds → CmdCtx} {j : Fin maxInflightCmds}
    (hj : (t j).valid = false) (id : Nat) (s : Sid) :
    bag CmdCtx.ticket Finset.univ (Function.update t j ⟨true, id, s⟩) =
      (s, id) ::ₘ bag CmdCtx.ticket Finset.univ t := by
  have h := bag_update (t := CmdCtx.ticket) (f := t) (Finset.mem_univ j) ⟨true, id, s⟩
  simp only [CmdCtx.ticket, hj, optBag, ite_true, Bool.false_eq_true, ite_false,
    Option.elim_none, Option.elim_some, add_zero] at h
  rw [← Multiset.singleton_add, add_comm]
  exact h

private theorem held_take {t : Fin maxInflightCmds → CmdCtx} {i : Fin maxInflightCmds}
    (hi : (t i).valid = true) :
    bag CmdCtx.ticket Finset.univ t = ((t i).sess, (t i).cmdId) ::ₘ
      bag CmdCtx.ticket Finset.univ (Function.update t i { t i with valid := false }) := by
  have h := bag_update (t := CmdCtx.ticket) (f := t) (Finset.mem_univ i)
    { t i with valid := false }
  simp only [CmdCtx.ticket, hi, optBag, ite_true, Bool.false_eq_true, ite_false,
    Option.elim_none, Option.elim_some, add_zero] at h
  rw [← Multiset.singleton_add, add_comm]
  exact h.symm

/-- The driver refines the ledger: every step is a move of custody or concerns no ticket. -/
theorem Trans.custody (h : Trans st a st') : (ledgerOf st).Step (ledgerOf st') := by
  have hidle {h' : Isr} {x : Sys} (hx : ledgerOf x = { ledgerOf st with hand := h'.ticket })
      (he : h'.ticket = st.isr.ticket) : (ledgerOf st).Step (ledgerOf x) := by
    rw [hx, he]
    exact .stay _
  cases h with
  | register k j hk hp ht hq hj =>
    have := Ledger.Step.enroll (ledgerOf st) ((st.submits k).sess, (st.submits k).cmdId)
    simp only [ledgerOf, List.map_append, List.map_singleton,
      held_register (freeCmdSlot_spec hj)] at this ⊢
    exact this
  | lookup i hp hi =>
    obtain ⟨hv, hid⟩ := findCmd_spec hi
    have hn : (ledgerOf st).hand = none := by simp [ledgerOf, Isr.ticket, hp]
    have := Ledger.Step.take (ledgerOf st) _ _ hn (held_take hv)
    rw [hid] at this
    exact this
  | push hp =>
    have hs : (ledgerOf st).hand = some (st.isr.owner, st.isr.comp.cmdId) := by
      simp [ledgerOf, Isr.ticket, hp]
    have := Ledger.Step.deliver (ledgerOf st) _ hs
    simp only [ledgerOf, List.map_append, List.map_singleton] at this ⊢
    exact this
  | isrLocal _ h' hl => exact hidle rfl (ticket_local hl)
  | ack hp => exact hidle rfl (by simp [Isr.ticket, hp])
  | complete hp => exact hidle rfl (by simp [Isr.ticket, hp])
  | drain hp => exact hidle rfl (by simp [Isr.ticket, hp])
  | decInflight hp => exact hidle rfl (by simp [Isr.ticket, hp])
  | decTotal hp => exact hidle rfl (by simp [Isr.ticket, hp])
  | wakeQuota hp => exact hidle rfl (by simp [Isr.ticket, hp])
  | next hp => exact hidle rfl (by simp [Isr.ticket, hp])
  | writeHead hp => exact hidle rfl (by simp [Isr.ticket, hp])
  | _ => exact .stay _

/-- Conservation of tickets along every run. -/
theorem balanced {ok : Sys → Act → Prop} (h : ReachBy ok st) : (ledgerOf st).Balanced := by
  refine invariant_of_trans ?_ (fun _ _ _ _ hi _ ht ↦ ht.custody.balanced hi) h
  simp [Ledger.Balanced, ledgerOf, Sys.init, bag, CmdCtx.ticket, Isr.ticket, optBag]

/-- Admitted tickets are pairwise distinct, even in their ids alone. -/
theorem admitted_nodup {ok : Sys → Act → Prop} (h : ReachBy ok st) :
    (ledgerOf st).admitted.Nodup := by
  apply List.Nodup.of_map Prod.snd
  have := (admInv h).nodup
  simpa only [ledgerOf, List.map_map, Function.comp_def, Admitted.ticket] using this

/-- An admitted ticket belongs to the call that drew its id. -/
theorem ticket_admitted {ok : Sys → Act → Prop} (h : ReachBy ok st) {t : Ticket}
    (ht : t ∈ (ledgerOf st).admitted) :
    ∃ k, (st.submits k).pc.committed = true ∧ (st.submits k).sess = t.1 ∧
      (st.submits k).cmdId = t.2 := by
  obtain ⟨x, hx, rfl⟩ := List.mem_map.mp ht
  obtain ⟨k, hk, rfl⟩ := ((admInv h).mem_iff x).mp hx
  exact ⟨k, hk, rfl, rfl⟩

end DmaAccel.Driver
