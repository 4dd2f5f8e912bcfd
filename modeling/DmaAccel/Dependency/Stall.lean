import DmaAccel.Dependency.Resolution

/-!
# A command that throws

Source `track-c/runtime/dma_accel_dependency.cpp`, `DependencyEngine::progress` (129–202). An
exception of `submit_fn` leaves `progress()` with the command neither submitted nor blocked.
The next call visits it again, throws again, and never gets to the entries behind it. Whether
they are submitted all the same is a race against the dependencies of the throwing command: what
has not got through by the first exception that passes over it never does.
-/

namespace DmaAccel.Dependency

open DmaAccel.Base
open Relation
open DmaAccel.Driver (U32 SubmitReq statusOk)

/-- The commands of an engine as the rounds find them: they depend on commands of the same
engine and on fences that completed with `DMA_ACCEL_OK`, commands that have completed did so
with `DMA_ACCEL_OK`, and a command that throws has not been submitted. -/
structure Deferred (e : Eid) (throws : Cid → Prop) (st : Rt) : Prop where
  idle : st.pass = none
  closed : ∀ c ∈ st.registry e, ∀ d ∈ (st.cmds c).pendingDeps, d ∈ st.registry e
  fences : ∀ c ∈ st.registry e, ∀ f ∈ (st.cmds c).fenceDeps, (st.fences f).Ok
  groups : ∀ c ∈ st.registry e, ∀ g ∈ (st.cmds c).groupDeps, ∀ f ∈ (st.groups g).fences,
    (st.fences f).Ok
  status : StatusAs e (fun _ ↦ statusOk) st
  rejected : ∀ t, throws t → (st.cmds t).submitted = false

/-- Steps of `progress()` where the commands of `throws` throw whenever it submits them, and
completions with `DMA_ACCEL_OK` meanwhile. -/
abbrev ThrowingStep (e : Eid) (throws : Cid → Prop) : Rt → Act → Prop :=
  PassStep throws (Assigned e fun _ ↦ statusOk)

/-- Rounds of such steps: every submitted command completes with `DMA_ACCEL_OK`, at the latest
before the next call of `progress()`. -/
abbrev ThrowingRounds (e : Eid) (throws : Cid → Prop) : Nat → Rt → Rt → Prop :=
  Rounds e (fun _ ↦ statusOk) (ThrowingStep e throws)

/-- The command neither throws nor depends, directly or not, on one that does. -/
def Independent (throws : Cid → Prop) (st : Rt) (c : Cid) : Prop :=
  ∀ t, throws t → ¬ReflTransGen (Edge st.deps) c t

/-- An exception passes over no independent command that has not been submitted. -/
def Unhindered (throws : Cid → Prop) (st : Rt) (a : Act) : Prop :=
  a = .submitThrow → ∀ t rest, st.pass = some ⟨rest, some t⟩ →
    ∀ c ∈ rest, Independent throws st c → (st.cmds c).submitted = true

/-- Rounds in which none does. -/
abbrev UnhinderedRounds (e : Eid) (throws : Cid → Prop) : Nat → Rt → Rt → Prop :=
  Rounds e (fun _ ↦ statusOk) fun st a ↦ ThrowingStep e throws st a ∧ Unhindered throws st a

/-- Independent commands are registered in front of those that throw, or have been submitted. -/
def InFront (e : Eid) (throws : Cid → Prop) (st : Rt) : Prop :=
  ∀ l t l', st.registry e = l ++ t :: l' → throws t →
    ∀ c ∈ l', Independent throws st c → (st.cmds c).submitted = true

variable {e : Eid} {throws : Cid → Prop} {st st0 st' : Rt} {a : Act} {c d t : Cid} {n : Nat}

/-- `progress()` submits a command whose dependencies are satisfied. -/
theorem Satisfied.verdict (h : Satisfied st c) (hi : CmdInv st) : st.verdict c = .clear := by
  cases hv : st.verdict c with
  | clear => rfl
  | pending => exact (h.resolved.verdict_ne hi hv).elim
  | failed => exact (h.not_failure hi (failure_of_verdict hv)).elim

/-- Dependencies of an independent command are independent. -/
theorem Independent.dep (h : Independent throws st c) (hd : d ∈ (st.cmds c).pendingDeps) :
    Independent throws st d :=
  fun t ht hpath ↦ h t ht (.head hd hpath)

/-- Which commands are independent does not change. -/
theorem Grows.independent (h : Grows st st') :
    Independent throws st' c ↔ Independent throws st c := by
  unfold Independent
  rw [h.deps_eq]

namespace ThrowingStep

theorem internal (h : ThrowingStep e throws st a) : a.internal = true :=
  PassStep.internal (fun _ _ ↦ id) h

/-- A command that throws is not submitted. -/
theorem rejected (hok : ThrowingStep e throws st a) (hi : CmdInv st) (h : Trans st a st')
    (ht : throws t) (hsub : (st.cmds t).submitted = false) : (st'.cmds t).submitted = false := by
  rcases h.decision_cases hi t with hsame | ⟨-, -, -, he⟩ | ⟨⟨rest, hp⟩, he⟩
  · rw [hsame.submitted, hsub]
  · rw [he, hsub]
  · -- the call of its `submit_fn` does not return
    exfalso
    have hsame (hcmds : st'.cmds = st.cmds) : False := by
      rw [hcmds] at he
      rw [he] at hsub
      cases hsub
    rcases hok with rfl | ⟨rfl, hret⟩ | ⟨rfl, -⟩ | ⟨f, status, rfl, -⟩
    · cases h with
      | stutter | finish | skip | wait | call => exact hsame rfl
      | block x rest hx =>
        rw [hx] at hp
        cases hp
    · exact hret t rest hp ht
    · cases h with
      | stutter | submitThrow => exact hsame rfl
    · cases h with
      | stutter | complete => exact hsame rfl

end ThrowingStep

namespace Deferred

/-- Without the throwing commands. -/
theorem registered (h : Deferred e throws st) : Registered e (fun _ ↦ statusOk) st where
  idle := h.idle
  closed := h.closed
  fences c hc f hf := (h.fences c hc f hf).1
  groups c hc g hg f hf := (h.groups c hc g hg f hf).1
  status := h.status

/-- Rounds submit no command that throws. -/
theorem rejected_rounds (h : Deferred e throws st0) (h0 : Reachable st0)
    (hr : ThrowingRounds e throws n st0 st) (ht : throws t) : (st.cmds t).submitted = false := by
  induction hr with
  | zero => exact h.rejected t ht
  | succ hrounds hround ih =>
    have hreach := hrounds.reachable h0
    obtain ⟨⟨st1, st2, hr1, -, hs, hr2⟩, -⟩ := hround
    have h2 := (hreach.trans hr1.any).next trivial hs
    have hcmds : st2.cmds = st1.cmds := by rw [eq_of_progress hs]
    refine hr2.invariant (I := fun s ↦ (s.cmds t).submitted = false) ?_ ?_
    · rw [hcmds, (decisions_of_assigned hr1).1]
      exact ih h h0
    · intro s a s' hr hi hok hs'
      exact hok.rejected (cmdInv (h2.trans hr.any)) (trans_of_step hs') ht hi

/-- Rounds keep the conditions. -/
theorem rounds (h : Deferred e throws st0) (h0 : Reachable st0)
    (hr : ThrowingRounds e throws n st0 st) : Deferred e throws st := by
  have hgrow := hr.grows (fun _ _ ↦ id) h0
  have hreg := h.registered.rounds h0 (fun _ _ ↦ id) hr
  refine ⟨hreg.idle, hreg.closed, ?_, ?_, hreg.status, fun t ↦ h.rejected_rounds h0 hr⟩
  · intro c hc f hf
    rw [hgrow.registry] at hc
    rw [(hgrow.deps c).fences] at hf
    rw [hgrow.ready f (h.fences c hc f hf).1]
    exact h.fences c hc f hf
  · intro c hc g hg f hf
    rw [hgrow.registry] at hc
    rw [(hgrow.deps c).groups] at hg
    rw [(hgrow.deps c).members g hg] at hf
    rw [hgrow.ready f (h.groups c hc g hg f hf).1]
    exact h.groups c hc g hg f hf

/-- No command gets blocked. -/
theorem unblocked (h : Deferred e throws st) (h0 : Reachable st) (hc : c ∈ st.registry e) :
    (st.cmds c).blocked = false := by
  have hdepth := h.registered.depthLe h0 hc
  generalize (st.registry e).length = n at hdepth
  induction n generalizing c with
  | zero => exact hdepth.elim
  | succ n ih =>
    by_contra hb
    rw [Bool.not_eq_false] at hb
    rcases failure_of_blocked h0 hb with (⟨f, hf, hfail⟩ | ⟨g, hg, f, hf, hfail⟩) |
      ⟨d, hd, hfail | ⟨f, hf, hfail⟩⟩
    · exact hfail.2 (h.fences c hc f hf).2
    · exact hfail.2 (h.groups c hc g hg f hf).2
    · rw [ih (h.closed c hc d hd) (hdepth d hd)] at hfail
      cases hfail
    · exact hfail.2 (h.status d (h.closed c hc d hd) f hf hfail.1)

/-- Where no exception is in the way, independent commands whose chains have at most `n` commands
are submitted after `n` rounds. -/
theorem submitted_of_depthLe (h : Deferred e throws st0) (h0 : Reachable st0)
    (hr : UnhinderedRounds e throws n st0 st) (hc : c ∈ st0.registry e)
    (hind : Independent throws st0 c) (hdepth : DepthLe (Edge st0.deps) n c) :
    (st.cmds c).submitted = true := by
  induction hr generalizing c with
  | zero => exact hdepth.elim
  | @succ n st0 s s' hrounds hround ih =>
    have hthrowing : ThrowingRounds e throws n st0 s := hrounds.mono fun _ _ ↦ And.left
    have hreach := hrounds.reachable h0
    have hgrow := hthrowing.grows (fun _ _ ↦ id) h0
    have hd := h.rounds h0 hthrowing
    have hreg : c ∈ s.registry e := hgrow.registry ▸ hc
    have hdeps : ∀ d ∈ (s.cmds c).pendingDeps,
        d ∈ s.registry e ∧ (s.cmds d).undecided = false := by
      intro d hmem
      refine ⟨hd.closed c hreg d hmem, ?_⟩
      rw [(hgrow.deps c).commands] at hmem
      have hsub := ih h h0 (h.closed c hc d hmem) (hind.dep hmem) (hdepth d hmem)
      simp [PendingCommandState.undecided, hsub]
    have hdec := hround.decides (fun _ _ ↦ And.left) hreach hreg (fun u x rest hu hok hx hmem ↦ by
      have ht : throws x := hok.1.throws_of (fun _ _ ↦ id) hx
      have hindu := (hgrow.trans hu).independent.mpr hind
      rcases List.mem_cons.mp hmem with rfl | hmem
      · exact absurd .refl (hindu c ht)
      · simp [PendingCommandState.undecided, hok.2 rfl x rest hx c hmem hindu])
      (hd.registered.fences c hreg) (hd.registered.groups c hreg) hdeps
    have hsucc : ThrowingRounds e throws (n + 1) st0 s' :=
      .succ hthrowing (hround.mono fun _ _ ↦ And.left)
    have hb := (h.rounds h0 hsucc).unblocked (hsucc.reachable h0) (c := c) (by
      rw [(hsucc.grows (fun _ _ ↦ id) h0).registry]
      exact hc)
    simpa [PendingCommandState.undecided, hb] using hdec

end Deferred

section Stuck

variable {l' : List Cid}

/-- A call of `progress()` that has not gone past `t`. -/
private def NotPast (t c : Cid) (l' : List Cid) (st : Rt) : Prop :=
  st.pass = none ∨ st.pass = some ⟨l', some t⟩ ∨
    ∃ l1 o, st.pass = some ⟨l1 ++ t :: l', o⟩ ∧ c ∉ l1 ∧ o ≠ some c

/-- A command `t` that throws stands in front of `c` with its dependencies satisfied, and `c` has
not been submitted. -/
private structure StuckBehind (e : Eid) (throws : Cid → Prop) (t c : Cid) (l' : List Cid)
    (st : Rt) : Prop where
  registered : ∃ l, st.registry e = l ++ t :: l'
  mem : c ∈ l'
  throws : throws t
  eligible : Satisfied st t
  undecided : (st.cmds t).undecided = true
  submitted : (st.cmds c).submitted = false
  pass : NotPast t c l' st

/-- The next entry of such a call is `t`, or one in front of it. -/
private theorem NotPast.head_cases {x : Cid} {rest : List Cid} (h : NotPast t c l' st)
    (hp : st.pass = some ⟨x :: rest, none⟩) :
    x = t ∧ rest = l' ∨ ∃ l1, rest = l1 ++ t :: l' ∧ c ∉ l1 ∧ x ≠ c := by
  rcases h with h | h | ⟨l1, o, h, hc, -⟩ <;> rw [hp] at h
  · cases h
  · cases h
  · cases l1 with
    | nil =>
      cases h
      exact .inl ⟨rfl, rfl⟩
    | cons y l1 =>
      cases h
      rw [List.mem_cons, not_or] at hc
      exact .inr ⟨l1, rfl, hc.2, Ne.symm hc.1⟩

namespace StuckBehind

/-- The two are different commands of the registry. -/
private theorem apart (hs : StuckBehind e throws t c l' st) (h0 : Reachable st) :
    c ≠ t ∧ ∀ l, st.registry e = l ++ t :: l' → c ∉ l := by
  obtain ⟨l, hreg⟩ := hs.registered
  have hnodup := (regInv h0).nodup e
  rw [hreg, List.nodup_append, List.nodup_cons] at hnodup
  obtain ⟨-, ⟨htl, -⟩, hdisj⟩ := hnodup
  refine ⟨fun he ↦ htl (he ▸ hs.mem), fun l2 hl2 hmem ↦ ?_⟩
  obtain rfl : l2 = l := List.append_cancel_right (hl2.symm.trans hreg)
  exact hdisj c hmem c (List.mem_cons_of_mem t hs.mem) rfl

/-- The call does not go past `t`. -/
private theorem notPast_step (hs : StuckBehind e throws t c l' st) (hi : CmdInv st)
    (hok : ThrowingStep e throws st a) (h : Trans st a st')
    (hu : (st'.cmds t).undecided = true) : NotPast t c l' st' := by
  cases h.moves with
  | keep he => rw [NotPast, he]; exact hs.pass
  | start e he _ => exact (hok.ne_progress (fun _ _ ↦ id) he).elim
  | finish _ he => exact .inl he
  | submitThrow _ _ _ _ he => exact .inl he
  | next x rest hp hp' hdec =>
    rcases hs.pass.head_cases hp with ⟨rfl, -⟩ | ⟨l1, rfl, hc, -⟩
    · -- the verdict on `t` is neither pending nor has it been decided
      rw [hs.eligible.verdict hi, hu] at hdec
      rcases hdec with hdec | hdec <;> cases hdec
    · exact .inr (.inr ⟨l1, none, hp', hc, nofun⟩)
  | call x rest hp hp' =>
    rcases hs.pass.head_cases hp with ⟨rfl, rfl⟩ | ⟨l1, rfl, hc, hx⟩
    · exact .inr (.inl hp')
    · refine .inr (.inr ⟨l1, some x, hp', hc, ?_⟩)
      rintro ⟨⟩
      exact hx rfl
  | submitReturn x rest _ hp hp' hdec =>
    rcases hs.pass with h | h | ⟨l1, o, h, hc, -⟩ <;> rw [hp] at h <;> cases h
    · rw [hu] at hdec
      cases hdec
    · exact .inr (.inr ⟨l1, none, hp', hc, nofun⟩)

/-- So `c` stays stuck. -/
private theorem step (hs : StuckBehind e throws t c l' st) (h0 : Reachable st)
    (hok : ThrowingStep e throws st a) (h : Trans st a st') :
    StuckBehind e throws t c l' st' := by
  have hi := cmdInv h0
  have hgrow : Grows st st' := .of_trans h hi hok.internal
  obtain ⟨htsub, -⟩ := undecided_iff.mp hs.undecided
  have htsub' := hok.rejected hi h hs.throws htsub
  obtain ⟨hct, -⟩ := hs.apart h0
  have hu : (st'.cmds t).undecided = true := by
    rcases h.decision_cases hi t with hsame | ⟨-, -, hfail, -⟩ | ⟨-, he⟩
    · rw [undecided_iff, hsame.submitted, hsame.blocked, ← undecided_iff]
      exact hs.undecided
    · exact (hs.eligible.not_failure hi hfail).elim
    · rw [he] at htsub'
      cases htsub'
  refine ⟨hgrow.registry ▸ hs.registered, hs.mem, hs.throws, hgrow.satisfied hs.eligible, hu, ?_,
    hs.notPast_step hi hok h hu⟩
  rcases h.decision_cases hi c with hsame | ⟨-, -, -, he⟩ | ⟨⟨rest, hp⟩, -⟩
  · rw [hsame.submitted]
    exact hs.submitted
  · rw [he]
    exact hs.submitted
  · rcases hs.pass with h | h | ⟨l1, o, h, -, ho⟩ <;> rw [hp] at h <;> cases h
    · exact (hct rfl).elim
    · exact (ho rfl).elim

/-- So it does when `progress()` is called again. -/
private theorem progress (hs : StuckBehind e throws t c l' st) (h0 : Reachable st)
    (h : Dependency.step st (.progress e) = some st') : StuckBehind e throws t c l' st' := by
  have hgrow : Grows st st' := .of_trans (trans_of_step h) (cmdInv h0) rfl
  have hp := eq_of_progress h
  have hcmds : st'.cmds = st.cmds := by rw [hp]
  obtain ⟨l, hreg⟩ := hs.registered
  refine ⟨hgrow.registry ▸ hs.registered, hs.mem, hs.throws, hgrow.satisfied hs.eligible,
    hcmds ▸ hs.undecided, hcmds ▸ hs.submitted, .inr (.inr ⟨l, none, ?_, ?_, nofun⟩)⟩
  · rw [hp, ← hreg]
  · exact (hs.apart h0).2 l hreg

/-- A round leaves it stuck. -/
private theorem round (hs : StuckBehind e throws t c l' st) (h0 : Reachable st)
    (hr : Round e (fun _ ↦ statusOk) (ThrowingStep e throws) st st') :
    StuckBehind e throws t c l' st' := by
  obtain ⟨⟨st1, st2, hr1, -, hp, hr2⟩, -⟩ := hr
  have h1 := h0.trans hr1.any
  have hs1 : StuckBehind e throws t c l' st1 := by
    refine hr1.invariant hs fun s a s' hr hi hok hstep ↦ ?_
    exact hi.step (h0.trans hr.any) (.inr (.inr (.inr hok))) (trans_of_step hstep)
  refine hr2.invariant (hs1.progress h1 hp) fun s a s' hr hi hok hstep ↦ ?_
  exact hi.step ((h1.next trivial hp).trans hr.any) hok (trans_of_step hstep)

/-- And so do all the rounds to come. -/
private theorem rounds (hs : StuckBehind e throws t c l' st) (h0 : Reachable st)
    (hr : ThrowingRounds e throws n st st') : StuckBehind e throws t c l' st' := by
  induction hr with
  | zero => exact hs
  | succ hrounds hround ih => exact (ih hs h0).round (hrounds.reachable h0) hround

end StuckBehind

/-- No independent command is stuck. -/
private def Free (e : Eid) (throws : Cid → Prop) (st : Rt) : Prop :=
  ∀ t c l', Independent throws st c → ¬StuckBehind e throws t c l' st

/-- A call of `progress()` on the engine is somewhere in its registry. -/
private def InRegistry (e : Eid) (st : Rt) : Prop :=
  ∀ p, st.pass = some p → ∃ done, st.registry e = done ++ p.calling.toList ++ p.rest

/-- The call of `progress()` moves along the registry of its engine. -/
private theorem inRegistry_step (hi : InRegistry e st) (h0 : Reachable st)
    (hok : ThrowingStep e throws st a) (h : Trans st a st') : InRegistry e st' := by
  have hr : st'.registry = st.registry := (Grows.of_trans h (cmdInv h0) hok.internal).registry
  intro p' hp'
  rcases h.moves.behind hp' with ⟨e', he, -⟩ | ⟨p, hp, hgo⟩
  · exact (hok.ne_progress (fun _ _ ↦ id) he).elim
  · rw [hr]
    exact hgo _ (hi p hp)

/-- What an exception passes over is stuck. -/
private theorem stuck_of_throw (h0 : Reachable st) (hi : InRegistry e st)
    (hok : ThrowingStep e throws st .submitThrow) (hs : step st .submitThrow = some st')
    {rest : List Cid} (hp : st.pass = some ⟨rest, some t⟩) (hc : c ∈ rest)
    (hsub : (st.cmds c).submitted = false) : StuckBehind e throws t c rest st' := by
  obtain ⟨done, hreg⟩ := hi _ hp
  have hst' : { st with pass := none } = st' := by
    simpa [step, submitThrow, hp] using hs
  have hgrow : Grows st st' := .of_trans (trans_of_step hs) (cmdInv h0) rfl
  subst hst'
  exact ⟨⟨done, by rw [hreg]; simp⟩, hc, hok.throws_of (fun _ _ ↦ id) hp,
    hgrow.satisfied (calling_satisfied h0 hp), (cmdInv h0).calling t rest hp, hsub, .inl rfl⟩

/-- Where none is stuck in the end, no exception of the call of `progress()` has passed over an
independent command. -/
private theorem unhindered_pass (h0 : Reachable st) (hi : InRegistry e st)
    (h : Reach step (ThrowingStep e throws) st st') (hfree : Free e throws st') :
    Reach step (fun s a ↦ ThrowingStep e throws s a ∧ Unhindered throws s a) st st' := by
  have hin {s : Rt} (hr : Reach step (ThrowingStep e throws) st s) : InRegistry e s :=
    hr.invariant hi fun _ _ _ hr' hi hok hs ↦
      inRegistry_step hi (h0.trans hr'.any) hok (trans_of_step hs)
  induction h with
  | start => exact .start
  | @next s s' a hr hok hs ih =>
    have hreach := h0.trans hr.any
    have ht := trans_of_step hs
    have hgrow : Grows s s' := .of_trans ht (cmdInv hreach) hok.internal
    have hbefore : Free e throws s := fun t c l' hind hstuck ↦
      hfree t c l' (hgrow.independent.mpr hind) (hstuck.step hreach hok ht)
    refine .next (ih hbefore) ⟨hok, ?_⟩ hs
    rintro rfl t rest hp c hmem hind
    by_contra hsub
    exact hfree t c rest (hgrow.independent.mpr hind)
      (stuck_of_throw hreach (hin hr) hok hs hp hmem (Bool.not_eq_true _ ▸ hsub))

/-- Nor has one in any round before. -/
private theorem unhindered_rounds (h0 : Reachable st0) (hr : ThrowingRounds e throws n st0 st)
    (hfree : Free e throws st) : UnhinderedRounds e throws n st0 st := by
  induction hr with
  | zero => exact .zero _
  | succ hrounds hround ih =>
    have hreach := hrounds.reachable h0
    have hgrow := hround.grows (fun _ _ ↦ id) hreach
    have hbefore : Free e throws _ := fun t c l' hind hstuck ↦
      hfree t c l' (hgrow.independent.mpr hind) (hstuck.round hreach hround)
    obtain ⟨⟨st1, st2, hr1, hall, hp, hr2⟩, hidle⟩ := hround
    refine .succ (ih h0 hbefore) ⟨⟨st1, st2, hr1, hall, hp, ?_⟩, hidle⟩
    refine unhindered_pass ((hreach.trans hr1.any).next trivial hp) ?_ hr2 hfree
    intro p hpass
    rw [eq_of_progress hp] at hpass ⊢
    cases hpass
    exact ⟨[], rfl⟩

end Stuck

/-- A rejected command holds up the commands behind it: after twice as many rounds as there are
commands the independent ones are all submitted exactly if no exception has left `progress()` while
one of them that was not submitted was registered behind the command that threw. None does where
the independent commands are registered in front of those that throw. -/
theorem rejected_holds_up (h0 : Reachable st0) (h : Deferred e throws st0) :
    (∃ st, ThrowingRounds e throws (2 * (st0.registry e).length) st0 st) ∧
      (∀ st, ThrowingRounds e throws (2 * (st0.registry e).length) st0 st →
        ((∀ c ∈ st0.registry e, Independent throws st0 c → (st.cmds c).submitted = true) ↔
          UnhinderedRounds e throws (2 * (st0.registry e).length) st0 st)) ∧
      (InFront e throws st0 → ∀ st,
        ThrowingRounds e throws (2 * (st0.registry e).length) st0 st →
          UnhinderedRounds e throws (2 * (st0.registry e).length) st0 st) := by
  refine ⟨(exists_rounds h0 h.idle _).imp fun _ ↦ And.left, ?_, ?_⟩
  · intro st hr
    have hgrow := hr.grows (fun _ _ ↦ id) h0
    constructor
    · intro hall
      refine unhindered_rounds h0 hr fun t c l' hind hstuck ↦ ?_
      obtain ⟨l, hreg⟩ := hstuck.registered
      have hc : c ∈ st0.registry e := by
        rw [← hgrow.registry, hreg]
        exact List.mem_append_right _ (List.mem_cons_of_mem t hstuck.mem)
      have hsub := hstuck.submitted
      rw [hall c hc (hgrow.independent.mp hind)] at hsub
      cases hsub
    · intro hun c hc hind
      have hdepth := (h.registered.depthLe h0 hc).mono
        (Nat.le_mul_of_pos_left (st0.registry e).length Nat.two_pos)
      exact h.submitted_of_depthLe h0 hun hc hind hdepth
  · intro hfront st hr
    have hgrow := hr.grows (fun _ _ ↦ id) h0
    refine unhindered_rounds h0 hr fun t c l' hind hstuck ↦ ?_
    obtain ⟨l, hreg⟩ := hstuck.registered
    have hsub := hfront l t l' (hgrow.registry ▸ hreg) hstuck.throws c hstuck.mem
      (hgrow.independent.mp hind)
    have hstill := hstuck.submitted
    rw [hgrow.submitted c hsub] at hstill
    cases hstill

/-- Commands without fences or groups that nobody has submitted yet. -/
private theorem Deferred.of_blank (hidle : st.pass = none)
    (hclosed : ∀ c ∈ st.registry e, ∀ d ∈ (st.cmds c).pendingDeps, d ∈ st.registry e)
    (hblank : ∀ c ∈ st.registry e, (st.cmds c).fenceDeps = [] ∧ (st.cmds c).groupDeps = [] ∧
      (st.cmds c).fence = none ∧ (st.cmds c).submitted = false)
    (ht : ∀ t, throws t → t ∈ st.registry e) : Deferred e throws st where
  idle := hidle
  closed := hclosed
  fences c hc f hf := by
    rw [(hblank c hc).1] at hf
    cases hf
  groups c hc g hg := by
    rw [(hblank c hc).2.1] at hg
    cases hg
  status c hc f hf := by
    rw [(hblank c hc).2.2.1] at hf
    cases hf
  rejected t htt := (hblank t (ht t htt)).2.2.2

/-- The first command of the chain throws; it waits for the two commands behind it. -/
theorem rejected_holds_up_chain : ∃ st0 : Rt, Reachable st0 ∧ st0.registry 0 = [0, 1, 2] ∧
    st0.deps 0 = [1] ∧ st0.deps 1 = [2] ∧ Deferred 0 (· = 0) st0 ∧
    (∃ st, ThrowingRounds 0 (· = 0) (2 * (st0.registry 0).length) st0 st) ∧
      ∀ st, ThrowingRounds 0 (· = 0) (2 * (st0.registry 0).length) st0 st →
        ((∀ c ∈ st0.registry 0, Independent (· = 0) st0 c → (st.cmds c).submitted = true) ↔
          UnhinderedRounds 0 (· = 0) (2 * (st0.registry 0).length) st0 st) := by
  obtain ⟨st0, hr, hidle, hreg, hd0, hd1, hclosed, hall⟩ := exists_chain
  have hdeferred : Deferred 0 (· = 0) st0 := by
    refine .of_blank hidle hclosed hall ?_
    rintro t rfl
    rw [hreg]
    exact List.mem_cons_self
  obtain ⟨hrounds, hall, -⟩ := rejected_holds_up hr hdeferred
  exact ⟨st0, hr, hreg, hd0, hd1, hdeferred, hrounds, hall⟩

/-- Two commands without dependencies, the first of which throws: the second one is never
submitted. -/
theorem rejected_stalls : ∃ st0 : Rt, Reachable st0 ∧ st0.registry 0 = [0, 1] ∧
    Deferred 0 (· = 0) st0 ∧ Independent (· = 0) st0 1 ∧
    (∃ st, ThrowingRounds 0 (· = 0) (2 * (st0.registry 0).length) st0 st) ∧
      ∀ n st, ThrowingRounds 0 (· = 0) n st0 st → (st.cmds 1).submitted = false := by
  have hrun : (run step Rt.init [.deferSubmit 0 .zero, .deferSubmit 0 .zero]).any
      (fun st ↦ decide (st.pass = none ∧ st.registry 0 = [0, 1] ∧
        (∀ c ∈ st.registry 0, (st.cmds c).pendingDeps = []) ∧
        ∀ c ∈ st.registry 0, (st.cmds c).fenceDeps = [] ∧ (st.cmds c).groupDeps = [] ∧
          (st.cmds c).fence = none ∧ (st.cmds c).submitted = false)) = true := by decide +kernel
  obtain ⟨st0, hr, hp⟩ := Reach.exists_of_run hrun
  obtain ⟨hidle, hreg, hdeps, hall⟩ := of_decide_eq_true hp
  have hmem0 : 0 ∈ st0.registry 0 := by simp [hreg]
  have hmem1 : 1 ∈ st0.registry 0 := by simp [hreg]
  have hdeferred : Deferred 0 (· = 0) st0 := by
    refine .of_blank hidle ?_ hall ?_
    · intro c hc d hd
      rw [hdeps c hc] at hd
      cases hd
    · rintro t rfl
      exact hmem0
  have hind : Independent (· = 0) st0 1 := by
    rintro t rfl hpath
    rcases hpath.cases_head with he | ⟨d, hd, -⟩
    · cases he
    · unfold Edge Rt.deps at hd
      rw [hdeps 1 hmem1] at hd
      cases hd
  have hstuck : StuckBehind 0 (· = 0) 0 1 [1] st0 := by
    obtain ⟨hf, hg, -, hsub⟩ := hall 0 hmem0
    refine ⟨⟨[], hreg⟩, List.mem_singleton_self 1, rfl, ?_, ?_, (hall 1 hmem1).2.2.2, .inl hidle⟩
    · exact ⟨by simp [hf], by simp [hg], by simp [hdeps 0 hmem0]⟩
    · exact undecided_iff.mpr ⟨hsub, hdeferred.unblocked hr hmem0⟩
  refine ⟨st0, hr, hreg, hdeferred, hind,
    (exists_rounds hr hidle _).imp fun _ ↦ And.left, ?_⟩
  intro n st hrounds
  exact (hstuck.rounds hr hrounds).submitted

end DmaAccel.Dependency
