import DmaAccel.Routing.Custody

/-!
# What the device can report

A command id reaches the device only through a stored descriptor, so the ids in the
submission slots, among the fetched descriptors, in the completion queue and in the
handler's hand all belong to calls that have stored theirs. The entry of a submitter that
has not is therefore still in the table: no interrupt can remove it early.
-/

namespace DmaAccel.Driver

open DmaAccel.Base

variable {st st' : Sys} {a : Act}

/-- A call past its commit point keeps its session, id and descriptor. -/
theorem Trans.keeps_committed (h : Trans st a st') (hc : CallInv st) {k : Nat}
    (hk : (st.submits k).pc.committed = true) : Keeps (st.submits k) (st'.submits k) := by
  have hother {l : Nat} {x : Submit} (hl : (st.submits l).pc.committed = false)
      (hs : st'.submits = Function.update st.submits l x) :
      Keeps (st.submits k) (st'.submits k) := by
    rw [hs, Function.update_of_ne (by rintro rfl; simp [hl] at hk)]
    exact .refl _
  cases h.callsMove with
  | keep hk _ _ _ _ => exact hk k
  | enter s req _ _ hs _ _ _ => exact hother ((hc.blank _ (Nat.le_refl _)).1 ▸ rfl) hs
  | newId l hl hs _ _ _ => exact hother (hl ▸ rfl) hs
  | register l hl hs _ _ _ => exact hother (hl ▸ rfl) hs

/-- A call that has stored its descriptor is past its commit point. -/
theorem SubmitPc.committed_of_stored {pc : SubmitPc} (h : pc.stored = true) :
    pc.committed = true := by
  cases pc <;> simp_all [SubmitPc.stored, SubmitPc.committed]

/-- Zero, the id of fresh memory, or the id of a call that has stored its descriptor. -/
def Visible (st : Sys) (id : Nat) : Prop :=
  id = 0 ∨ ∃ k, (st.submits k).pc.stored = true ∧ (st.submits k).cmdId = id

/-- Ids stay visible. -/
theorem Visible.step (h : Trans st a st') (hc : CallInv st) {id : Nat} (hv : Visible st id) :
    Visible st' id := by
  rcases hv with h0 | ⟨k, hk, hid⟩
  · exact .inl h0
  · have hkeep := h.keeps_committed hc (SubmitPc.committed_of_stored hk)
    exact .inr ⟨k, hkeep.stored hk, hkeep.cmdId.trans hid⟩

/-- Every id in the submission slots and among the fetched descriptors is visible. -/
structure VisInv (st : Sys) : Prop where
  sq : ∀ i, Visible st (st.sqBuf i).cmdId
  fetched : ∀ d ∈ st.fetched, Visible st d.cmdId

namespace VisInv

/-- Every step keeps the ids visible. -/
theorem step (hi : VisInv st) (hc : CallInv st) (h : Trans st a st') : VisInv st' := by
  have hv {id : Nat} (hid : Visible st id) : Visible st' id := hid.step h hc
  cases h with
  | enqStore k hk hp =>
    refine ⟨?_, fun d hd ↦ hv (hi.fetched d hd)⟩
    intro i
    by_cases he : i = (st.submits k).idx
    · subst he
      refine .inr ⟨k, ?_, ?_⟩
      · simp [SubmitPc.stored]
      · simp [Submit.desc]
    · have hs := hv (hi.sq i)
      simpa only [Function.update_of_ne he] using hs
  | fetch hne =>
    refine ⟨fun i ↦ hv (hi.sq i), ?_⟩
    intro d hd
    rcases List.mem_append.mp hd with hd | hd
    · exact hv (hi.fetched d hd)
    · rw [List.mem_singleton.mp hd]
      exact hv (hi.sq _)
  | _ => exact ⟨fun i ↦ hv (hi.sq i), fun d hd ↦ hv (hi.fetched d hd)⟩

/-- Fresh memory holds zero ids only. -/
theorem init : VisInv Sys.init := ⟨fun _ ↦ .inl rfl, nofun⟩

end VisInv

/-- Only visible ids reach the device, along every run. -/
theorem visInv {ok : Sys → Act → Prop} (h : ReachBy ok st) : VisInv st :=
  invariant_of_trans VisInv.init (fun _ _ _ hr hi _ ht ↦ hi.step (callInv hr) ht) h

/-- Zero, or the id of a fetched descriptor. -/
def Reported (st : Sys) (id : Nat) : Prop := id = 0 ∨ ∃ d ∈ st.fetched, d.cmdId = id

/-- The device goes on fetching. -/
theorem Reported.step (h : Trans st a st') {id : Nat} (hr : Reported st id) :
    Reported st' id := by
  rcases hr with h0 | ⟨d, hd, hid⟩
  · exact .inl h0
  · refine .inr ⟨d, ?_, hid⟩
    cases h with
    | fetch hne => exact List.mem_append_left _ hd
    | _ => exact hd

/-- Every id on its way back from the device belongs to a fetched descriptor. -/
structure RepInv (st : Sys) : Prop where
  cq : ∀ i, Reported st (st.cqBuf i).cmdId
  comp : Reported st st.isr.comp.cmdId
  pushed : ∀ p ∈ st.pushed, Reported st p.2.cmdId

namespace RepInv

private theorem comp_local {h : Isr} (hl : IsrLocal st st.isr h) : h.comp = st.isr.comp := by
  cases hl <;> rfl

/-- Every step keeps the ids reported. -/
theorem step (hi : RepInv st) (h : Trans st a st') : RepInv st' := by
  have hv {id : Nat} (hid : Reported st id) : Reported st' id := hid.step h
  cases h with
  | post j x d hp hd =>
    refine ⟨?_, hv hi.comp, fun p hq ↦ hv (hi.pushed p hq)⟩
    intro i
    by_cases he : i = slotOf _ st.regCqTail
    · subst he
      refine .inr ⟨d, hd, ?_⟩
      simp
    · have hs := hv (hi.cq i)
      simpa only [Function.update_of_ne he] using hs
  | drain hp hne =>
    exact ⟨fun i ↦ hv (hi.cq i), hv (hi.cq _), fun p hq ↦ hv (hi.pushed p hq)⟩
  | push hp =>
    refine ⟨fun i ↦ hv (hi.cq i), hv hi.comp, ?_⟩
    intro p hq
    rcases List.mem_append.mp hq with hq | hq
    · exact hv (hi.pushed p hq)
    · rw [List.mem_singleton.mp hq]
      exact hv hi.comp
  | isrLocal _ h' hl =>
    refine ⟨fun i ↦ hv (hi.cq i), ?_, fun p hq ↦ hv (hi.pushed p hq)⟩
    have hs := hv hi.comp
    rw [← comp_local hl] at hs
    exact hs
  | _ => exact ⟨fun i ↦ hv (hi.cq i), hv hi.comp, fun p hq ↦ hv (hi.pushed p hq)⟩

/-- Fresh memory holds zero ids only. -/
theorem init : RepInv Sys.init := ⟨fun _ ↦ .inl rfl, .inl rfl, nofun⟩

end RepInv

/-- Only ids of fetched descriptors come back, along every run. -/
theorem repInv {ok : Sys → Act → Prop} (h : ReachBy ok st) : RepInv st :=
  invariant_of_trans RepInv.init (fun _ _ _ _ hi _ ht ↦ hi.step ht) h

/-- What the device reports, a submitter has stored. -/
theorem Reported.visible {ok : Sys → Act → Prop} (h : ReachBy ok st) {id : Nat}
    (hr : Reported st id) : Visible st id := by
  rcases hr with h0 | ⟨d, hd, rfl⟩
  · exact .inl h0
  · exact (visInv h).fetched d hd

/-- The ticket of a committed call is admitted. -/
theorem committed_admitted {ok : Sys → Act → Prop} (h : ReachBy ok st) {k : Nat}
    (hk : (st.submits k).pc.committed = true) :
    ((st.submits k).sess, (st.submits k).cmdId) ∈ (ledgerOf st).admitted :=
  List.mem_map.mpr ⟨_, ((admInv h).mem_iff _).mpr ⟨k, hk, rfl⟩, rfl⟩

/-- A held ticket is a valid table entry. -/
theorem mem_held {t : Ticket} :
    t ∈ (ledgerOf st).held ↔
      ∃ i, (st.cmdTable i).valid = true ∧ (st.cmdTable i).sess = t.1 ∧
        (st.cmdTable i).cmdId = t.2 := by
  change t ∈ bag CmdCtx.ticket Finset.univ st.cmdTable ↔ _
  rw [mem_bag]
  simp only [Finset.mem_univ, true_and, CmdCtx.ticket, Option.ite_none_right_eq_some,
    Option.some.injEq, Prod.ext_iff]

/-- The table entry of a submitter that has not stored its descriptor is still there. -/
theorem entry_of_unstored {ok : Sys → Act → Prop} (h : ReachBy ok st) {k : Nat}
    (hk : (st.submits k).pc.committed = true) (hs : (st.submits k).pc.stored = false) :
    ∃ i, (st.cmdTable i).valid = true ∧ (st.cmdTable i).sess = (st.submits k).sess ∧
      (st.cmdTable i).cmdId = (st.submits k).cmdId := by
  have hne : (st.submits k).cmdId ≠ 0 := (callInv h).cmdId_ne hk
  have hhidden : ¬Visible st (st.submits k).cmdId := by
    rintro (h0 | ⟨l, hl, hid⟩)
    · exact hne h0
    · rw [(callInv h).inj k l hne hid.symm, hl] at hs
      cases hs
  have hundelivered : ((st.submits k).sess, (st.submits k).cmdId) ∉ (ledgerOf st).delivered := by
    intro hd
    obtain ⟨p, hp, he⟩ := List.mem_map.mp hd
    have hv := ((repInv h).pushed p hp).visible h
    rw [show p.2.cmdId = (st.submits k).cmdId from congrArg Prod.snd he] at hv
    exact hhidden hv
  rcases (balanced h).mem_held_or_hand (committed_admitted h hk) hundelivered with hh | hh
  · exact mem_held.mp hh
  · have hcomp : st.isr.comp.cmdId = (st.submits k).cmdId := by
      simp only [ledgerOf, Isr.ticket, Option.ite_none_right_eq_some, Option.some.injEq,
        Prod.mk.injEq] at hh
      exact hh.2.2
    exact (hhidden (hcomp ▸ (repInv h).comp.visible h)).elim

end DmaAccel.Driver
