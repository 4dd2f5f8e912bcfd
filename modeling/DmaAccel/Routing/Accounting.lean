import DmaAccel.Routing.Visibility

/-!
# In-flight accounting

`sess->inflight` and `dev->total_inflight` are two atomics that follow the routing table at
a distance: a submitter registers its entry before it increments them, and the handler
removes an entry before it decrements them. The two equations below carry the exact terms
for every half-finished submission and completion. Neither counter goes below zero, because
the device cannot report a command whose submitter has yet to increment it.
-/

namespace DmaAccel.Driver

open DmaAccel.Base

/-- Valid table entries of the sessions that satisfy `q`. -/
def validBy (q : Sid → Prop) [DecidablePred q] (st : Sys) : Nat :=
  count (fun e : CmdCtx ↦ e.valid = true ∧ q e.sess) Finset.univ st.cmdTable

/-- Calls of the sessions that satisfy `q` whose program counter satisfies `u`. -/
def callsBy (u : SubmitPc → Bool) (q : Sid → Prop) [DecidablePred q] (st : Sys) : Nat :=
  count (fun c : Submit ↦ u c.pc = true ∧ q c.sess) (Finset.range st.nsubmits) st.submits

/-- Completions of the sessions that satisfy `q` in the handler's hand at the points `r`. -/
def handBy (r : IsrPc → Bool) (q : Sid → Prop) [DecidablePred q] (st : Sys) : Nat :=
  if r st.isr.pc = true ∧ q st.isr.owner then 1 else 0

/-- Removed from the table, `owner->inflight` not yet decremented. -/
def IsrPc.undrained : IsrPc → Bool
  | .push | .decInflight => true
  | _ => false

/-- Removed from the table, `dev->total_inflight` not yet decremented. -/
def IsrPc.undrainedTotal : IsrPc → Bool
  | .push | .decInflight | .decTotal => true
  | _ => false

/-- Valid `cmd_table` entries whose `sess` is `s`. -/
def validOf (st : Sys) (s : Sid) : Nat := validBy (· = s) st

/-- Submitters of `s` that have registered their entry and not yet incremented `inflight`. -/
def uncountedOf (st : Sys) (s : Sid) : Nat := callsBy SubmitPc.uncounted (· = s) st

/-- Completions of `s` removed from the table with `inflight` not yet decremented. -/
def removedOf (st : Sys) (s : Sid) : Nat := handBy IsrPc.undrained (· = s) st

/-- Valid `cmd_table` entries of all sessions. -/
def validAll (st : Sys) : Nat := validBy (fun _ ↦ True) st

/-- Submitters that have registered their entry and not yet incremented `total_inflight`. -/
def uncountedAll (st : Sys) : Nat := callsBy SubmitPc.uncountedTotal (fun _ ↦ True) st

/-- Completions removed from the table with `total_inflight` not yet decremented. -/
def removedAll (st : Sys) : Nat := handBy IsrPc.undrainedTotal (fun _ ↦ True) st

/-- The accounting equations, one for each session and one for the device. -/
structure Accounted (st : Sys) : Prop where
  sess : ∀ s, (validOf st s : Int) + removedOf st s = st.inflight s + uncountedOf st s
  total : (validAll st : Int) + removedAll st = st.totalInflight + uncountedAll st

section Moves

variable {st st' : Sys} {u : SubmitPc → Bool} {r : IsrPc → Bool} {q : Sid → Prop}
  [DecidablePred q]

private theorem callsBy_congr (hn : st'.nsubmits = st.nsubmits)
    (h : ∀ k, u (st'.submits k).pc = u (st.submits k).pc ∧
      (st'.submits k).sess = (st.submits k).sess) : callsBy u q st' = callsBy u q st := by
  unfold callsBy
  rw [hn]
  apply count_congr
  intro k _
  rw [(h k).1, (h k).2]

private theorem callsBy_move {k : Nat} {x : Submit} (hk : k < st.nsubmits)
    (hs : st'.submits = Function.update st.submits k x) (hn : st'.nsubmits = st.nsubmits)
    (hx : x.sess = (st.submits k).sess) :
    callsBy u q st' + (if u (st.submits k).pc = true ∧ q (st.submits k).sess then 1 else 0) =
      callsBy u q st + (if u x.pc = true ∧ q (st.submits k).sess then 1 else 0) := by
  unfold callsBy
  rw [hn, hs, count_update (Finset.mem_range.mpr hk), hx]

private theorem callsBy_same (hs : st'.submits = st.submits) (hn : st'.nsubmits = st.nsubmits) :
    callsBy u q st' = callsBy u q st := by
  unfold callsBy
  rw [hs, hn]

private theorem validBy_same (ht : st'.cmdTable = st.cmdTable) :
    validBy q st' = validBy q st := by
  unfold validBy
  rw [ht]

private theorem handBy_same (hh : st'.isr = st.isr) : handBy r q st' = handBy r q st := by
  unfold handBy
  rw [hh]

/-- No call of these sessions is at these points. -/
theorem callsBy_eq_zero :
    callsBy u q st = 0 ↔
      ∀ k < st.nsubmits, ¬(u (st.submits k).pc = true ∧ q (st.submits k).sess) := by
  unfold callsBy
  rw [count_eq_zero_iff]
  simp only [Finset.mem_range]

private theorem validBy_eq_zero :
    validBy q st = 0 ↔ ∀ i, ¬((st.cmdTable i).valid = true ∧ q (st.cmdTable i).sess) := by
  unfold validBy
  rw [count_eq_zero_iff]
  simp only [Finset.mem_univ, true_implies]

private theorem callsBy_enter {x : Submit}
    (hs : st'.submits = Function.update st.submits st.nsubmits x)
    (hn : st'.nsubmits = st.nsubmits + 1) (hx : u x.pc = false) :
    callsBy u q st' = callsBy u q st := by
  unfold callsBy
  rw [hn, hs, count_range_succ]
  simp [hx]

private theorem validBy_register {j : Fin maxInflightCmds} {id : Nat} {s : Sid}
    (hj : (st.cmdTable j).valid = false)
    (ht : st'.cmdTable = Function.update st.cmdTable j ⟨true, id, s⟩) :
    validBy q st' = validBy q st + (if q s then 1 else 0) := by
  unfold validBy
  rw [ht]
  have h := count_update (p := fun e : CmdCtx ↦ e.valid = true ∧ q e.sess) (f := st.cmdTable)
    (Finset.mem_univ j) ⟨true, id, s⟩
  simpa [hj] using h

private theorem validBy_take {i : Fin maxInflightCmds} (hi : (st.cmdTable i).valid = true)
    (ht : st'.cmdTable = Function.update st.cmdTable i { st.cmdTable i with valid := false }) :
    validBy q st' + (if q (st.cmdTable i).sess then 1 else 0) = validBy q st := by
  unfold validBy
  rw [ht]
  have h := count_update (p := fun e : CmdCtx ↦ e.valid = true ∧ q e.sess) (f := st.cmdTable)
    (Finset.mem_univ i) { st.cmdTable i with valid := false }
  simpa [hi] using h

end Moves

/-- The handler keeps the completion it has in hand, or keeps having none. -/
structure SameHand (h h' : Isr) : Prop where
  undrained : h'.pc.undrained = h.pc.undrained
  undrainedTotal : h'.pc.undrainedTotal = h.pc.undrainedTotal
  owner : h.pc.undrainedTotal = true → h'.owner = h.owner

/-- How the table, the two counters and the half-finished parties change in one step. -/
inductive AcctMove (st st' : Sys) : Prop where
  | keep : st'.cmdTable = st.cmdTable → st'.inflight = st.inflight →
      st'.totalInflight = st.totalInflight → SameHand st.isr st'.isr →
      (∀ (q : Sid → Prop) [DecidablePred q],
        callsBy SubmitPc.uncounted q st' = callsBy SubmitPc.uncounted q st ∧
        callsBy SubmitPc.uncountedTotal q st' = callsBy SubmitPc.uncountedTotal q st) →
      AcctMove st st'
  | register (k : Nat) (j : Fin maxInflightCmds) : k < st.nsubmits →
      (st.submits k).pc = .admission → (st.cmdTable j).valid = false →
      st'.cmdTable = Function.update st.cmdTable j
        ⟨true, (st.submits k).cmdId, (st.submits k).sess⟩ →
      st'.submits = Function.update st.submits k { st.submits k with pc := .incInflight } →
      st'.nsubmits = st.nsubmits → st'.isr = st.isr → st'.inflight = st.inflight →
      st'.totalInflight = st.totalInflight → AcctMove st st'
  | incInflight (k : Nat) : k < st.nsubmits → (st.submits k).pc = .incInflight →
      st'.inflight = Function.update st.inflight (st.submits k).sess
        (st.inflight (st.submits k).sess + 1) →
      st'.submits = Function.update st.submits k { st.submits k with pc := .incTotal } →
      st'.nsubmits = st.nsubmits → st'.isr = st.isr → st'.cmdTable = st.cmdTable →
      st'.totalInflight = st.totalInflight → AcctMove st st'
  | incTotal (k : Nat) : k < st.nsubmits → (st.submits k).pc = .incTotal →
      st'.totalInflight = st.totalInflight + 1 →
      st'.submits = Function.update st.submits k { st.submits k with pc := .enqIdx } →
      st'.nsubmits = st.nsubmits → st'.isr = st.isr → st'.cmdTable = st.cmdTable →
      st'.inflight = st.inflight → AcctMove st st'
  | take (i : Fin maxInflightCmds) : st.isr.pc = .lookup → (st.cmdTable i).valid = true →
      st'.cmdTable = Function.update st.cmdTable i { st.cmdTable i with valid := false } →
      st'.isr.pc = .push → st'.isr.owner = (st.cmdTable i).sess →
      st'.submits = st.submits → st'.nsubmits = st.nsubmits →
      st'.inflight = st.inflight → st'.totalInflight = st.totalInflight → AcctMove st st'
  | decInflight : st.isr.pc = .decInflight →
      st'.inflight = Function.update st.inflight st.isr.owner
        (st.inflight st.isr.owner - 1) →
      st'.isr.pc = .decTotal → st'.isr.owner = st.isr.owner →
      st'.submits = st.submits → st'.nsubmits = st.nsubmits →
      st'.cmdTable = st.cmdTable → st'.totalInflight = st.totalInflight → AcctMove st st'
  | decTotal : st.isr.pc = .decTotal → st'.totalInflight = st.totalInflight - 1 →
      st'.isr.pc = .wakeQuota → st'.submits = st.submits → st'.nsubmits = st.nsubmits →
      st'.cmdTable = st.cmdTable → st'.inflight = st.inflight → AcctMove st st'

variable {st st' : Sys} {a : Act}

/-- Nothing in hand before and after. -/
private theorem SameHand.empty {h h' : Isr} (h0 : h.pc.undrainedTotal = false)
    (h1 : h'.pc.undrainedTotal = false) : SameHand h h' := by
  have hsub : ∀ pc : IsrPc, pc.undrainedTotal = false → pc.undrained = false := by
    intro pc hpc
    cases pc <;> simp_all [IsrPc.undrained, IsrPc.undrainedTotal]
  exact ⟨by rw [hsub _ h0, hsub _ h1], by rw [h0, h1], fun h ↦ by rw [h0] at h; cases h⟩

private theorem IsrLocal.sameHand {h : Isr} (hl : IsrLocal st st.isr h) :
    SameHand st.isr h := by
  cases hl with
  | enter hp => exact .empty (hp ▸ rfl) rfl
  | readTail hp => exact .empty (hp ▸ rfl) rfl
  | drained hp => exact .empty (hp ▸ rfl) rfl
  | unknown hp => exact .empty (hp ▸ rfl) rfl
  | wakeComp hp => exact .empty (hp ▸ rfl) rfl

private theorem SameHand.refl (h : Isr) : SameHand h h := ⟨rfl, rfl, fun _ ↦ rfl⟩

/-- Table and counters stay, every call keeps its side of the two increments. -/
private theorem acctMove_calls (hn : st'.nsubmits = st.nsubmits)
    (hs : ∀ k, SameCall (st.submits k) (st'.submits k)) (hh : SameHand st.isr st'.isr)
    (ht : st'.cmdTable = st.cmdTable) (hf : st'.inflight = st.inflight)
    (htot : st'.totalInflight = st.totalInflight) : AcctMove st st' := by
  refine .keep ht hf htot hh ?_
  intro q _
  exact ⟨callsBy_congr hn fun k ↦ ⟨(hs k).uncounted_eq, (hs k).sess⟩,
    callsBy_congr hn fun k ↦ ⟨(hs k).uncountedTotal_eq, (hs k).sess⟩⟩

/-- One call moves between two points on the same side of the two increments. -/
private theorem acctMove_onward {k : Nat} {x : Submit}
    (hs : st'.submits = Function.update st.submits k x) (hn : st'.nsubmits = st.nsubmits)
    (hx : x.sess = (st.submits k).sess) (h0 : (st.submits k).pc.uncountedTotal = false)
    (h1 : x.pc.uncountedTotal = false) (hh : st'.isr = st.isr)
    (ht : st'.cmdTable = st.cmdTable) (hf : st'.inflight = st.inflight)
    (htot : st'.totalInflight = st.totalInflight) : AcctMove st st' := by
  have hsub : ∀ pc : SubmitPc, pc.uncountedTotal = false → pc.uncounted = false := by
    intro pc hpc
    cases pc <;> simp_all [SubmitPc.uncounted, SubmitPc.uncountedTotal]
  have hcell (u : SubmitPc → Bool) (hu : u x.pc = u (st.submits k).pc) (l : Nat) :
      u (st'.submits l).pc = u (st.submits l).pc ∧
        (st'.submits l).sess = (st.submits l).sess := by
    rw [hs]
    exact rel_update (R := fun y z : Submit ↦ u z.pc = u y.pc ∧ z.sess = y.sess)
      (fun _ ↦ ⟨rfl, rfl⟩) ⟨hu, hx⟩ l
  refine .keep ht hf htot (hh ▸ .refl _) ?_
  intro q _
  exact ⟨callsBy_congr hn (hcell _ (by rw [hsub _ h0, hsub _ h1])),
    callsBy_congr hn (hcell _ (by rw [h0, h1]))⟩

/-- Every step of the system changes the accounts in one of these ways. -/
theorem Trans.acctMove (h : Trans st a st') : AcctMove st st' := by
  have hisr {x : Sys} (hh : SameHand st.isr x.isr) (hs : x.submits = st.submits)
      (hn : x.nsubmits = st.nsubmits) (ht : x.cmdTable = st.cmdTable)
      (hf : x.inflight = st.inflight) (htot : x.totalInflight = st.totalInflight) :
      AcctMove st x :=
    acctMove_calls hn (fun k ↦ hs ▸ .refl _) hh ht hf htot
  cases h with
  | submit s req hs =>
    refine .keep rfl rfl rfl (.refl _) ?_
    intro q _
    exact ⟨callsBy_enter rfl rfl rfl, callsBy_enter rfl rfl rfl⟩
  | submitLocal _ k c hk hl =>
    exact acctMove_calls rfl (rel_update .refl hl.sameCall) (.refl _) rfl rfl rfl
  | newId k hk hp => exact acctMove_onward rfl rfl rfl (hp ▸ rfl) rfl rfl rfl rfl rfl
  | register k j hk hp _ _ hj =>
    exact .register k j hk hp (freeCmdSlot_spec hj) rfl rfl rfl rfl rfl rfl
  | incInflight k hk hp => exact .incInflight k hk hp rfl rfl rfl rfl rfl rfl
  | incTotal k hk hp => exact .incTotal k hk hp rfl rfl rfl rfl rfl rfl
  | enqIdx k hk hp => exact acctMove_onward rfl rfl rfl (hp ▸ rfl) rfl rfl rfl rfl rfl
  | enqStore k hk hp => exact acctMove_onward rfl rfl rfl (hp ▸ rfl) rfl rfl rfl rfl rfl
  | enqWriteTail k hk hp => exact acctMove_onward rfl rfl rfl (hp ▸ rfl) rfl rfl rfl rfl rfl
  | enqDoorbell k hk hp => exact acctMove_onward rfl rfl rfl (hp ▸ rfl) rfl rfl rfl rfl rfl
  | relWake s hs =>
    exact acctMove_calls rfl (fun k ↦ (st.submits k).sameCall_wake) (.refl _) rfl rfl rfl
  | wakeQuota hp =>
    exact acctMove_calls rfl (fun k ↦ (st.submits k).sameCall_wake)
      (.empty (hp ▸ rfl) rfl) rfl rfl rfl
  | isrLocal _ h' hl => exact hisr hl.sameHand rfl rfl rfl rfl rfl
  | ack hp => exact hisr (.empty (hp ▸ rfl) rfl) rfl rfl rfl rfl rfl
  | complete hp => exact hisr (.empty (hp ▸ rfl) rfl) rfl rfl rfl rfl rfl
  | drain hp => exact hisr (.empty (hp ▸ rfl) rfl) rfl rfl rfl rfl rfl
  | next hp => exact hisr (.empty (hp ▸ rfl) rfl) rfl rfl rfl rfl rfl
  | writeHead hp => exact hisr (.empty (hp ▸ rfl) rfl) rfl rfl rfl rfl rfl
  | lookup i hp hi => exact .take i hp (findCmd_spec hi).1 rfl rfl rfl rfl rfl rfl rfl
  | push hp => exact hisr ⟨hp ▸ rfl, hp ▸ rfl, fun _ ↦ rfl⟩ rfl rfl rfl rfl rfl
  | decInflight hp => exact .decInflight hp rfl rfl rfl rfl rfl rfl rfl
  | decTotal hp => exact .decTotal hp rfl rfl rfl rfl rfl rfl
  | _ => exact hisr (.refl _) rfl rfl rfl rfl rfl

private theorem handBy_keep (hh : SameHand st.isr st'.isr) (q : Sid → Prop) [DecidablePred q] :
    handBy IsrPc.undrained q st' = handBy IsrPc.undrained q st ∧
      handBy IsrPc.undrainedTotal q st' = handBy IsrPc.undrainedTotal q st := by
  unfold handBy
  rw [hh.undrained, hh.undrainedTotal]
  by_cases ht : st.isr.pc.undrainedTotal = true
  · rw [hh.owner ht]
    exact ⟨rfl, rfl⟩
  · have hu : st.isr.pc.undrained ≠ true := by
      intro hu
      apply ht
      cases hp : st.isr.pc <;> simp_all [IsrPc.undrained, IsrPc.undrainedTotal]
    simp [ht, hu]

namespace Accounted

/-- Every move keeps the equation of each session. -/
private theorem sess_step (hi : Accounted st) (h : AcctMove st st') (s : Sid) :
    (validOf st' s : Int) + removedOf st' s = st'.inflight s + uncountedOf st' s := by
  have hs := hi.sess s
  unfold validOf removedOf uncountedOf at hs ⊢
  cases h with
  | keep ht hf _ hh hc =>
    rw [validBy_same ht, (handBy_keep hh _).1, hf, (hc _).1]
    exact hs
  | register k j hk hp hj ht hsub hn hh hf =>
    have hcalls := callsBy_move (u := SubmitPc.uncounted) (q := (· = s)) hk hsub hn rfl
    simp only [hp, SubmitPc.uncounted, true_and, Bool.false_eq_true, false_and, ite_false,
      add_zero] at hcalls
    rw [validBy_register hj ht, handBy_same hh, hf, hcalls]
    omega
  | incInflight k hk hp hf hsub hn hh ht =>
    have hcalls := callsBy_move (u := SubmitPc.uncounted) (q := (· = s)) hk hsub hn rfl
    simp only [hp, SubmitPc.uncounted, true_and, Bool.false_eq_true, false_and, ite_false,
      add_zero] at hcalls
    rw [validBy_same ht, handBy_same hh, hf]
    by_cases he : (st.submits k).sess = s
    · subst he
      rw [if_pos rfl] at hcalls
      rw [Function.update_self]
      omega
    · rw [if_neg he] at hcalls
      rw [Function.update_of_ne (Ne.symm he)]
      omega
  | incTotal k hk hp _ hsub hn hh ht hf =>
    have hcalls := callsBy_move (u := SubmitPc.uncounted) (q := (· = s)) hk hsub hn rfl
    simp only [hp, SubmitPc.uncounted, Bool.false_eq_true, false_and, ite_false,
      add_zero] at hcalls
    rw [validBy_same ht, handBy_same hh, hf, hcalls]
    exact hs
  | take i hp hv ht hp' ho hsub hn hf =>
    have hvalid := validBy_take (q := (· = s)) hv ht
    rw [callsBy_same hsub hn, hf]
    simp only [handBy, hp, hp', ho, IsrPc.undrained, true_and, Bool.false_eq_true, false_and,
      ite_false] at hs ⊢
    omega
  | decInflight hp hf hp' ho hsub hn ht =>
    rw [validBy_same ht, callsBy_same hsub hn, hf]
    simp only [handBy, hp, hp', IsrPc.undrained, true_and, Bool.false_eq_true, false_and,
      ite_false] at hs ⊢
    by_cases he : st.isr.owner = s
    · subst he
      rw [if_pos rfl] at hs
      rw [Function.update_self]
      omega
    · rw [if_neg he] at hs
      rw [Function.update_of_ne (Ne.symm he)]
      exact hs
  | decTotal hp _ hp' hsub hn ht hf =>
    rw [validBy_same ht, callsBy_same hsub hn, hf]
    simp only [handBy, hp, hp', IsrPc.undrained, Bool.false_eq_true, false_and,
      ite_false] at hs ⊢
    exact hs

/-- Every move keeps the equation of the device. -/
private theorem total_step (hi : Accounted st) (h : AcctMove st st') :
    (validAll st' : Int) + removedAll st' = st'.totalInflight + uncountedAll st' := by
  have hs := hi.total
  unfold validAll removedAll uncountedAll at hs ⊢
  cases h with
  | keep ht _ htot hh hc =>
    rw [validBy_same ht, (handBy_keep hh _).2, htot, (hc _).2]
    exact hs
  | register k j hk hp hj ht hsub hn hh _ htot =>
    have hcalls := callsBy_move (u := SubmitPc.uncountedTotal) (q := fun _ ↦ True) hk hsub hn rfl
    simp only [hp, SubmitPc.uncountedTotal, true_and, Bool.false_eq_true, false_and, ite_false,
      add_zero] at hcalls
    rw [validBy_register hj ht, handBy_same hh, htot, hcalls]
    omega
  | incInflight k hk hp _ hsub hn hh ht htot =>
    have hcalls := callsBy_move (u := SubmitPc.uncountedTotal) (q := fun _ ↦ True) hk hsub hn rfl
    simp only [hp, SubmitPc.uncountedTotal, and_self, ite_true, add_left_inj] at hcalls
    rw [validBy_same ht, handBy_same hh, htot, hcalls]
    exact hs
  | incTotal k hk hp htot hsub hn hh ht _ =>
    have hcalls := callsBy_move (u := SubmitPc.uncountedTotal) (q := fun _ ↦ True) hk hsub hn rfl
    simp only [hp, SubmitPc.uncountedTotal, and_self, ite_true, Bool.false_eq_true, false_and,
      ite_false, add_zero] at hcalls
    rw [validBy_same ht, handBy_same hh, htot]
    omega
  | take i hp hv ht hp' _ hsub hn _ htot =>
    have hvalid := validBy_take (q := fun _ ↦ True) hv ht
    rw [callsBy_same hsub hn, htot]
    simp only [handBy, hp, hp', IsrPc.undrainedTotal, and_self, Bool.false_eq_true, false_and,
      ite_false, ite_true] at hs hvalid ⊢
    omega
  | decInflight hp _ hp' _ hsub hn ht htot =>
    rw [validBy_same ht, callsBy_same hsub hn, htot]
    simp only [handBy, hp, hp', IsrPc.undrainedTotal] at hs ⊢
    exact hs
  | decTotal hp htot hp' hsub hn ht _ =>
    rw [validBy_same ht, callsBy_same hsub hn, htot]
    simp only [handBy, hp, hp', IsrPc.undrainedTotal, and_self, ite_true, Bool.false_eq_true,
      false_and, ite_false] at hs ⊢
    omega

/-- Every step of the system keeps the accounts. -/
theorem step (hi : Accounted st) (h : Trans st a st') : Accounted st' :=
  ⟨hi.sess_step h.acctMove, hi.total_step h.acctMove⟩

/-- The accounts of the idle device. -/
theorem init : Accounted Sys.init := by
  constructor <;>
    simp [validOf, validAll, removedOf, removedAll, uncountedOf, uncountedAll, validBy, handBy,
      callsBy, count, Sys.init, IsrPc.undrained, IsrPc.undrainedTotal, Submit.none,
      SubmitPc.uncounted]

end Accounted

/-- The accounts balance along every run. -/
theorem accounted {ok : Sys → Act → Prop} (h : ReachBy ok st) : Accounted st :=
  invariant_of_trans Accounted.init (fun _ _ _ _ hi _ ht ↦ hi.step ht) h

/-- Submitters short of storing their descriptor have distinct valid entries. -/
private theorem callsBy_le_validBy {ok : Sys → Act → Prop} (h : ReachBy ok st)
    {u : SubmitPc → Bool} (q : Sid → Prop) [DecidablePred q]
    (hu : ∀ pc, u pc = true → pc.committed = true ∧ pc.stored = false) :
    callsBy u q st ≤ validBy q st := by
  refine count_le_of_match (fun k i ↦ (st.cmdTable i).cmdId = (st.submits k).cmdId) ?_ ?_
  · intro k _ hk
    obtain ⟨hc, hs⟩ := hu _ hk.1
    obtain ⟨i, hv, hsess, hid⟩ := entry_of_unstored h hc hs
    exact ⟨i, Finset.mem_univ i, ⟨hv, hsess ▸ hk.2⟩, hid⟩
  · intro k l i hk _ hik hil
    have hne : (st.submits k).cmdId ≠ 0 := (callInv h).cmdId_ne (hu _ hk.1).1
    exact (callInv h).inj k l hne (hik.symm.trans hil)

/-- `sess->inflight` is never negative. -/
theorem inflight_nonneg {ok : Sys → Act → Prop} (h : ReachBy ok st) (s : Sid) :
    0 ≤ st.inflight s := by
  have hle : uncountedOf st s ≤ validOf st s :=
    callsBy_le_validBy h (· = s) fun pc hpc ↦ by
      cases pc <;> simp_all [SubmitPc.uncounted, SubmitPc.committed, SubmitPc.stored]
  have := (accounted h).sess s
  omega

/-- `dev->total_inflight` is never negative. -/
theorem totalInflight_nonneg {ok : Sys → Act → Prop} (h : ReachBy ok st) :
    0 ≤ st.totalInflight := by
  have hle : uncountedAll st ≤ validAll st :=
    callsBy_le_validBy h (fun _ ↦ True) fun pc hpc ↦ by
      cases pc <;> simp_all [SubmitPc.uncountedTotal, SubmitPc.committed, SubmitPc.stored]
  have := (accounted h).total
  omega

/-- A session that is not open has no submitter between its two updates. -/
theorem uncountedOf_eq_zero {ok : Sys → Act → Prop} (h : ReachBy ok st) {s : Sid}
    (hs : st.phase s ≠ .opened) : uncountedOf st s = 0 := by
  apply callsBy_eq_zero.mpr
  rintro k - ⟨hu, rfl⟩
  apply hs
  apply (callInv h).opened k
  cases hp : (st.submits k).pc <;> simp_all [SubmitPc.uncounted, SubmitPc.finished]

/-- A session that has nothing in flight, and no submitter between its two updates, has no
entry in the table and no completion on the way to its counter. -/
theorem drained_of_counted {ok : Sys → Act → Prop} (h : ReachBy ok st) {s : Sid}
    (hu : uncountedOf st s = 0) (h0 : st.inflight s = 0) :
    (∀ i, (st.cmdTable i).valid = true → (st.cmdTable i).sess ≠ s) ∧ removedOf st s = 0 := by
  have hacc := (accounted h).sess s
  rw [h0, hu] at hacc
  have hv : validOf st s = 0 := by omega
  refine ⟨?_, by omega⟩
  intro i hi he
  exact validBy_eq_zero.mp hv i ⟨hi, he⟩

/-- A session that is not open and has nothing in flight has no entry in the table and no
completion on the way to its counter. -/
theorem drained {ok : Sys → Act → Prop} (h : ReachBy ok st) {s : Sid}
    (hs : st.phase s ≠ .opened) (h0 : st.inflight s = 0) :
    (∀ i, (st.cmdTable i).valid = true → (st.cmdTable i).sess ≠ s) ∧ removedOf st s = 0 :=
  drained_of_counted h (uncountedOf_eq_zero h hs) h0

/-- In-flight accounting: the equation of every session and of the device, no negative
counter, and an empty table for a session whose `release` reads zero. -/
theorem inflight_accounting (h : Reachable st) (s : Sid) :
    (validOf st s : Int) + removedOf st s = st.inflight s + uncountedOf st s ∧
    (validAll st : Int) + removedAll st = st.totalInflight + uncountedAll st ∧
    0 ≤ st.inflight s ∧ 0 ≤ st.totalInflight ∧
    (st.phase s = .relPoll → st.inflight s = 0 →
      ∀ i, (st.cmdTable i).valid = true → (st.cmdTable i).sess ≠ s) := by
  refine ⟨(accounted h).sess s, (accounted h).total, inflight_nonneg h s,
    totalInflight_nonneg h, ?_⟩
  intro hp h0
  exact (drained h (by simp [hp]) h0).1

/-- A run in which one submitter of session 0 has registered its entry and not incremented
`inflight`, while the handler has removed another entry and not decremented it. -/
theorem inflight_accounting_midway : ∃ st : Sys, Reachable st ∧
    validOf st 0 = 1 ∧ removedOf st 0 = 1 ∧ uncountedOf st 0 = 1 ∧ st.inflight 0 = 1 ∧
    (validOf st 0 : Int) + removedOf st 0 = st.inflight 0 + uncountedOf st 0 ∧
    (validAll st : Int) + removedAll st = st.totalInflight + uncountedAll st ∧
    0 ≤ st.inflight 0 ∧ 0 ≤ st.totalInflight := by
  have hrun : (run step Sys.init (.chrOpen :: allocScript 0 0 ++ submitScript 0 0 0 14 ++
      submitScript 0 0 1 5 ++ completeScript 0 4)).any (fun st ↦
        decide (validOf st 0 = 1 ∧ removedOf st 0 = 1 ∧ uncountedOf st 0 = 1 ∧
          st.inflight 0 = 1)) = true := by decide +kernel
  obtain ⟨st, hr, hp⟩ := Reach.exists_of_run hrun
  obtain ⟨hv, hrem, hu, hf⟩ := of_decide_eq_true hp
  obtain ⟨hs, ht, h0, h1, -⟩ := inflight_accounting hr 0
  exact ⟨st, hr, hv, hrem, hu, hf, hs, ht, h0, h1⟩

end DmaAccel.Driver
