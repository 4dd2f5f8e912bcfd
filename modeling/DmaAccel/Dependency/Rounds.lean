import DmaAccel.Dependency.Graph
import DmaAccel.Dependency.Safety

/-!
# Rounds of completions and `progress()`

A round completes every submitted command of an engine and then calls `progress()` once. What
happens in the call is a parameter: the commands whose `submit_fn` throws, the completions that
arrive while it runs, and any other condition on its steps. Within rounds the graph of dependencies
stands still and decisions only accumulate (`Grows`). `pass_decides` says what one call of
`progress()` achieves for a command, and `exists_rounds` that a round can always be run to its end.
-/

namespace DmaAccel.Dependency

open DmaAccel.Base
open DmaAccel.Driver (U32 SubmitReq statusOk)

/-- The action of a completion; a command of the engine completes with the status assigned
to it. -/
def Assigned (e : Eid) (σ : Cid → U32) (st : Rt) (a : Act) : Prop :=
  ∃ f status, a = .complete f status ∧
    ∀ c ∈ st.registry e, (st.cmds c).fence = some f → status = σ c

/-- A step of `progress()`, where `submit_fn` throws for the commands of `throws` and for no
others; `more` is what else may happen meanwhile. -/
def PassStep (throws : Cid → Prop) (more : Rt → Act → Prop) (st : Rt) (a : Act) : Prop :=
  a = .visit ∨
    (a = .submitReturn ∧ ∀ c rest, st.pass = some ⟨rest, some c⟩ → ¬throws c) ∨
    (a = .submitThrow ∧ ∀ c rest, st.pass = some ⟨rest, some c⟩ → throws c) ∨ more st a

/-- Every submitted command of the engine has completed. -/
def AllComplete (e : Eid) (st : Rt) : Prop :=
  ∀ c ∈ st.registry e, ∀ f, (st.cmds c).fence = some f → (st.fences f).ready = true

/-- One round: every submitted command completes, then `progress()` is called and returns or
throws, in steps that meet `ok`. -/
structure Round (e : Eid) (σ : Cid → U32) (ok : Rt → Act → Prop) (st st' : Rt) : Prop where
  run : ∃ st1 st2, Reach step (Assigned e σ) st st1 ∧ AllComplete e st1 ∧
    step st1 (.progress e) = some st2 ∧ Reach step ok st2 st'
  idle : st'.pass = none

/-- A number of rounds. -/
inductive Rounds (e : Eid) (σ : Cid → U32) (ok : Rt → Act → Prop) : Nat → Rt → Rt → Prop where
  | zero (st : Rt) : Rounds e σ ok 0 st st
  | succ {n : Nat} {st st1 st2 : Rt} : Rounds e σ ok n st st1 →
      Round e σ ok st1 st2 → Rounds e σ ok (n + 1) st st2

/-- The graph stands still, and what is ready or decided stays so. -/
structure Grows (st st' : Rt) : Prop where
  registry : st'.registry = st.registry
  deps : ∀ c, SameDeps st st' c
  ready : ∀ f, (st.fences f).ready = true → st'.fences f = st.fences f
  fence : ∀ c f, (st.cmds c).fence = some f → (st'.cmds c).fence = some f
  submitted : ∀ c, (st.cmds c).submitted = true → (st'.cmds c).submitted = true
  blocked : ∀ c, (st.cmds c).blocked = true → (st'.cmds c).blocked = true

variable {e : Eid} {σ : Cid → U32} {throws : Cid → Prop} {more ok : Rt → Act → Prop}
  {st st0 st1 st2 st' : Rt} {a : Act} {c d : Cid} {n m : Nat}

/-- `progress()` starts at the head of the registry. -/
theorem eq_of_progress (h : step st (.progress e) = some st') :
    st' = { st with pass := some ⟨st.registry e, none⟩ } := by
  simp only [step, Option.ite_none_right_eq_some, Option.some.injEq] at h
  exact h.2.symm

namespace Grows

theorem refl (st : Rt) : Grows st st :=
  ⟨rfl, fun _ ↦ ⟨rfl, rfl, rfl, fun _ _ ↦ rfl⟩, fun _ _ ↦ rfl, fun _ _ ↦ id, fun _ ↦ id,
    fun _ ↦ id⟩

theorem trans (h : Grows st st1) (h' : Grows st1 st2) : Grows st st2 where
  registry := h'.registry.trans h.registry
  deps c := by
    refine ⟨(h'.deps c).fences.trans (h.deps c).fences,
      (h'.deps c).groups.trans (h.deps c).groups,
      (h'.deps c).commands.trans (h.deps c).commands, ?_⟩
    intro g hg
    exact ((h'.deps c).members g ((h.deps c).groups ▸ hg)).trans ((h.deps c).members g hg)
  ready f hf := by
    have hf1 := h.ready f hf
    exact (h'.ready f (hf1 ▸ hf)).trans hf1
  fence c f hf := h'.fence c f (h.fence c f hf)
  submitted c hc := h'.submitted c (h.submitted c hc)
  blocked c hc := h'.blocked c (h.blocked c hc)

/-- The dependency graph is the same. -/
theorem deps_eq (h : Grows st st') : st'.deps = st.deps :=
  funext fun c ↦ (h.deps c).commands

/-- Completions and steps of `progress()` only add. -/
theorem of_trans (h : Trans st a st') (hi : CmdInv st) (ha : a.internal = true) :
    Grows st st' where
  registry := by
    cases h with
    | deferSubmit e req hp => cases ha
    | _ => rfl
  deps c := h.sameDeps (.inl ha) c
  ready _ hf := h.fence_ready hi hf
  fence _ _ hf := h.fence_some hi hf
  submitted c := (h.decided hi c).1
  blocked c := (h.decided hi c).2

/-- So do whole runs of them. -/
theorem of_reach {ok : Rt → Act → Prop} (h0 : Reachable st)
    (hok : ∀ st a, ok st a → a.internal = true) (h : Reach step ok st st') : Grows st st' := by
  induction h with
  | start => exact .refl st
  | next hr hs hstep ih =>
    refine ih.trans (of_trans (trans_of_step hstep) ?_ (hok _ _ hs))
    exact cmdInv (h0.trans hr.any)

/-- Commands that completed with `DMA_ACCEL_OK` stay so. -/
theorem commandOk (h : Grows st st') (hd : st.CommandOk d) : st'.CommandOk d := by
  obtain ⟨f, hf, hok⟩ := hd
  refine ⟨f, h.fence d f hf, ?_⟩
  rw [h.ready f hok.1]
  exact hok

/-- Satisfied dependencies stay satisfied. -/
theorem satisfied (h : Grows st st') (hs : Satisfied st c) : Satisfied st' c where
  fences f hf := by
    rw [(h.deps c).fences] at hf
    rw [h.ready f (hs.fences f hf).1]
    exact hs.fences f hf
  groups g hg f hf := by
    rw [(h.deps c).groups] at hg
    rw [(h.deps c).members g hg] at hf
    rw [h.ready f (hs.groups g hg f hf).1]
    exact hs.groups g hg f hf
  commands d hmem := by
    rw [(h.deps c).commands] at hmem
    exact h.commandOk (hs.commands d hmem)

end Grows

/-- No dependency of a command is pending: its fences and the fences of its groups are ready,
and the commands it depends on are blocked or have completed. -/
structure Resolved (st : Rt) (c : Cid) : Prop where
  fences : ∀ f ∈ (st.cmds c).fenceDeps, (st.fences f).ready = true
  groups : ∀ g ∈ (st.cmds c).groupDeps, ∀ f ∈ (st.groups g).fences, (st.fences f).ready = true
  commands : ∀ d ∈ (st.cmds c).pendingDeps, (st.cmds d).blocked = true ∨
    ∃ f, (st.cmds d).fence = some f ∧ (st.fences f).ready = true

/-- What is resolved stays resolved. -/
theorem Grows.resolved (h : Grows st st') (hr : Resolved st c) : Resolved st' c where
  fences f hf := by
    rw [(h.deps c).fences] at hf
    rw [h.ready f (hr.fences f hf)]
    exact hr.fences f hf
  groups g hg f hf := by
    rw [(h.deps c).groups] at hg
    rw [(h.deps c).members g hg] at hf
    rw [h.ready f (hr.groups g hg f hf)]
    exact hr.groups g hg f hf
  commands d hmem := by
    rw [(h.deps c).commands] at hmem
    rcases hr.commands d hmem with hb | ⟨f, hf, hready⟩
    · exact .inl (h.blocked d hb)
    · exact .inr ⟨f, h.fence d f hf, by rw [h.ready f hready]; exact hready⟩

/-- Satisfied dependencies are resolved. -/
theorem Satisfied.resolved (h : Satisfied st c) : Resolved st c where
  fences f hf := (h.fences f hf).1
  groups g hg f hf := (h.groups g hg f hf).1
  commands d hd := by
    obtain ⟨f, hf, hok⟩ := h.commands d hd
    exact .inr ⟨f, hf, hok.1⟩

/-- `progress()` decides a command whose dependencies are resolved. -/
theorem Resolved.verdict_ne (h : Resolved st c) (hi : CmdInv st) : st.verdict c ≠ .pending := by
  have hfence {f : Fid} (hf : (st.fences f).ready = true) : (st.fences f).verdict ≠ .pending := by
    rw [Ne, (st.fences f).verdict_cases.2.2, hf]
    nofun
  intro hv
  simp only [Rt.verdict] at hv
  split at hv
  · split at hv
    · obtain ⟨d, hmem, hd⟩ := exists_of_scan hv (by simp)
      rcases h.commands d hmem with hb | ⟨f, hf, hready⟩
      · simp [Rt.depVerdict, hb] at hd
      · have hsub : (st.cmds d).submitted = true := by rw [hi.fence d, hf]; rfl
        have hb : (st.cmds d).blocked = false := by
          by_contra hne
          exact hi.exclusive d ⟨hsub, Bool.not_eq_false _ ▸ hne⟩
        simp only [Rt.depVerdict, hb, hsub, hf] at hd
        exact hfence hready hd
    · next hg =>
      obtain ⟨g, hmem, hgp⟩ := exists_of_scan hg (by simp)
      obtain ⟨f, hmem', hf⟩ := exists_of_scan hgp (by simp)
      exact hfence (h.groups g hmem f hmem') hf
    · cases hv
  · next hfs =>
    obtain ⟨f, hmem, hf⟩ := exists_of_scan hfs (by simp)
    exact hfence (h.fences f hmem) hf
  · cases hv

section Passes

/-- Steps of a pass and completions are internal. -/
theorem Assigned.internal (h : Assigned e σ st a) : a.internal = true := by
  obtain ⟨f, status, rfl, -⟩ := h
  rfl

variable (hmore : ∀ st a, more st a → Assigned e σ st a)

include hmore

theorem PassStep.internal (h : PassStep throws more st a) : a.internal = true := by
  rcases h with rfl | ⟨rfl, -⟩ | ⟨rfl, -⟩ | h
  · rfl
  · rfl
  · rfl
  · exact (hmore _ _ h).internal

/-- A `submit_fn` that throws in a pass is that of a command of `throws`. -/
theorem PassStep.throws_of (h : PassStep throws more st .submitThrow) {rest : List Cid}
    (hp : st.pass = some ⟨rest, some c⟩) : throws c := by
  rcases h with h | ⟨h, -⟩ | ⟨-, h⟩ | h
  · cases h
  · cases h
  · exact h c rest hp
  · obtain ⟨f, status, h, -⟩ := hmore _ _ h
    cases h

theorem PassStep.ne_progress (h : PassStep throws more st a) {e : Eid} : a ≠ .progress e := by
  rintro rfl
  rcases h with h | ⟨h, -⟩ | ⟨h, -⟩ | h
  · cases h
  · cases h
  · cases h
  · obtain ⟨f, status, h, -⟩ := hmore _ _ h
    cases h

omit hmore

/-- A decision stays. -/
theorem Grows.undecided (h : Grows st st') (hc : (st.cmds c).undecided = false) :
    (st'.cmds c).undecided = false := by
  have hs := h.submitted c
  have hb := h.blocked c
  revert hc hs hb
  unfold PendingCommandState.undecided
  cases (st.cmds c).submitted <;> cases (st.cmds c).blocked <;> simp_all

include hmore in
/-- What a call of `progress()` does for a command whose dependencies are resolved: it decides it,
unless an exception leaves the call at the command or in front of it. -/
theorem pass_decides (hok : ∀ s a, ok s a → PassStep throws more s a) (h0 : Reachable st)
    (hp : st.pass = some ⟨st.registry e, none⟩) (hc : c ∈ st.registry e) (hres : Resolved st c)
    (hthrow : ∀ s x rest, Grows st s → ok s .submitThrow → s.pass = some ⟨rest, some x⟩ →
      c ∈ x :: rest → (s.cmds c).undecided = false)
    (h : Reach step ok st st') (hidle : st'.pass = none) : (st'.cmds c).undecided = false := by
  have hrun : (st'.cmds c).undecided = false ∨
      ∃ p, st'.pass = some p ∧ c ∈ p.calling.toList ++ p.rest := by
    refine h.invariant (I := fun s ↦ (s.cmds c).undecided = false ∨
      ∃ p, s.pass = some p ∧ c ∈ p.calling.toList ++ p.rest) (.inr ⟨_, hp, hc⟩) ?_
    intro s a s' hr hi ha hs
    have ht := trans_of_step hs
    have hreach : Reachable s := h0.trans hr.any
    have hgrow : Grows st s :=
      .of_reach h0 (fun _ _ ha ↦ PassStep.internal hmore (hok _ _ ha)) hr
    have hgrow' : Grows s s' := .of_trans ht (cmdInv hreach) ((hok _ _ ha).internal hmore)
    rcases hi with hdec | ⟨p, hp, hmem⟩
    · exact .inl (hgrow'.undecided hdec)
    · cases ht.moves with
      | keep he => exact .inr ⟨p, he ▸ hp, hmem⟩
      | start e he _ => exact ((hok _ _ ha).ne_progress hmore he).elim
      | finish hx _ =>
        rw [hx] at hp
        cases hp
        cases hmem
      | next x rest hx hx' hdec =>
        rw [hx] at hp
        cases hp
        rcases List.mem_cons.mp hmem with rfl | hmem
        · exact .inl (hdec.resolve_left ((hgrow.resolved hres).verdict_ne (cmdInv hreach)))
        · exact .inr ⟨_, hx', hmem⟩
      | call x rest hx hx' =>
        rw [hx] at hp
        cases hp
        exact .inr ⟨_, hx', hmem⟩
      | submitReturn x rest _ hx hx' hdec =>
        rw [hx] at hp
        cases hp
        rcases List.mem_cons.mp hmem with rfl | hmem
        · exact .inl hdec
        · exact .inr ⟨_, hx', hmem⟩
      | submitThrow x rest he hx _ =>
        subst he
        rw [hx] at hp
        cases hp
        exact .inl (hgrow'.undecided (hthrow s x rest hgrow ha hx hmem))
  rcases hrun with hdec | ⟨p, hp', -⟩
  · exact hdec
  · rw [hidle] at hp'
    cases hp'

end Passes

/-- Commands of the engine that have completed did so with the status assigned to them. -/
def StatusAs (e : Eid) (σ : Cid → U32) (st : Rt) : Prop :=
  ∀ c ∈ st.registry e, ∀ f, (st.cmds c).fence = some f → (st.fences f).ready = true →
    (st.fences f).status = σ c

/-- Submitted commands of the engine have all their dependencies satisfied. -/
def Coherent (e : Eid) (st : Rt) : Prop :=
  ∀ c ∈ st.registry e, (st.cmds c).submitted = true → Satisfied st c

/-- Fences of commands get ready by a completion only. -/
theorem statusAs_step (hi : CmdInv st) (hst : StatusAs e σ st) (h : Trans st a st')
    (ha : a.internal = true)
    (hcomp : ∀ f status, a = .complete f status →
      ∀ c ∈ st.registry e, (st.cmds c).fence = some f → status = σ c) : StatusAs e σ st' := by
  have hgrow : Grows st st' := .of_trans h hi ha
  intro c hc f hf hready
  rw [hgrow.registry] at hc
  have hold (hlt : f < st.nfences) : (st.cmds c).fence = some f := by
    rcases h.decision_cases hi c with hsame | ⟨-, -, -, he⟩ | ⟨-, he⟩
    · rw [← hsame.fence]
      exact hf
    · rw [he] at hf
      exact hf
    · rw [he] at hf
      cases hf
      exact (Nat.lt_irrefl _ hlt).elim
  rcases h.fence_cases.2 f hready with hready | ⟨hlt, status, rfl, hst'⟩
  · rw [hgrow.ready f hready]
    exact hst c hc f (hold (hi.ready_lt f hready)) hready
  · rw [hst']
    exact hcomp f status rfl c hc (hold hlt)

/-- A command is submitted with all its dependencies satisfied. -/
theorem coherent_step (h0 : Reachable st) (hc : Coherent e st) (h : Trans st a st')
    (ha : a.internal = true) : Coherent e st' := by
  have hgrow : Grows st st' := .of_trans h (cmdInv h0) ha
  intro c hmem hsub
  rw [hgrow.registry] at hmem
  by_cases hold : (st.cmds c).submitted = true
  · exact hgrow.satisfied (hc c hmem hold)
  · exact ((stepSafe h0 h).submits c (Bool.not_eq_true _ ▸ hold) hsub).2

/-- Completions alone decide nothing. -/
theorem decisions_of_assigned (h : Reach step (Assigned e σ) st st') :
    st'.cmds = st.cmds ∧ st'.pass = st.pass := by
  refine h.invariant (I := fun s ↦ s.cmds = st.cmds ∧ s.pass = st.pass) ⟨rfl, rfl⟩ ?_
  intro s a s' _ hi hok hs
  obtain ⟨f, status, rfl, -⟩ := hok
  cases trans_of_step hs with
  | stutter => exact hi
  | complete f status hf hu => exact hi

namespace Round

/-- A condition on the steps may be weakened. -/
theorem mono (himp : ∀ s a, ok s a → more s a) (h : Round e σ ok st st') :
    Round e σ more st st' := by
  obtain ⟨⟨st1, st2, hr1, hall, hs, hr2⟩, hidle⟩ := h
  exact ⟨⟨st1, st2, hr1, hall, hs, hr2.mono himp⟩, hidle⟩

/-- A round leads to reachable states. -/
theorem reachable (h : Round e σ ok st st') (h0 : Reachable st) : Reachable st' := by
  obtain ⟨⟨st1, st2, hr1, -, hs, hr2⟩, -⟩ := h
  exact ((h0.trans hr1.any).next trivial hs).trans hr2.any

variable (hok : ∀ s a, ok s a → PassStep throws (Assigned e σ) s a)

include hok

/-- Rounds only add. -/
theorem grows (h : Round e σ ok st st') (h0 : Reachable st) : Grows st st' := by
  obtain ⟨⟨st1, st2, hr1, -, hs, hr2⟩, -⟩ := h
  have h1 : Reachable st1 := h0.trans hr1.any
  have h2 : Reachable st2 := h1.next trivial hs
  have hg1 : Grows st st1 := .of_reach h0 (fun _ _ ↦ Assigned.internal) hr1
  have hg2 : Grows st1 st2 := .of_trans (trans_of_step hs) (cmdInv h1) rfl
  exact (hg1.trans hg2).trans
    (.of_reach h2 (fun _ _ ha ↦ PassStep.internal (fun _ _ ↦ id) (hok _ _ ha)) hr2)

/-- What survives completions and steps of `progress()` survives a round. -/
theorem invariant (h : Round e σ ok st st') (h0 : Reachable st) {I : Rt → Prop}
    (hI : I st)
    (hstep : ∀ s a s', Reachable s → I s → Trans s a s' → a.internal = true →
      (∀ f status, a = .complete f status →
        ∀ c ∈ s.registry e, (s.cmds c).fence = some f → status = σ c) → I s') : I st' := by
  obtain ⟨⟨st1, st2, hr1, -, hs, hr2⟩, -⟩ := h
  have h1 : Reachable st1 := h0.trans hr1.any
  have hassigned {s : Rt} {a : Act} (ha : Assigned e σ s a) (f : Fid) (status : U32)
      (he : a = .complete f status) : ∀ c ∈ s.registry e, (s.cmds c).fence = some f →
        status = σ c := by
    obtain ⟨f', status', rfl, hc⟩ := ha
    cases he
    exact hc
  have hI1 : I st1 := by
    refine hr1.invariant hI ?_
    intro s a s' hr hi hok hs
    exact hstep s a s' (h0.trans hr.any) hi (trans_of_step hs) hok.internal (hassigned hok)
  have hI2 : I st2 := hstep st1 _ st2 h1 hI1 (trans_of_step hs) rfl nofun
  refine hr2.invariant hI2 ?_
  intro s a s' hr hi ha hs'
  refine hstep s a s' ((h1.next trivial hs).trans hr.any) hi (trans_of_step hs')
    ((hok _ _ ha).internal fun _ _ ↦ id) ?_
  rintro f status rfl
  rcases hok _ _ ha with h | ⟨h, -⟩ | ⟨h, -⟩ | h
  · cases h
  · cases h
  · cases h
  · exact hassigned h f status rfl

/-- A round keeps the statuses as they are assigned. -/
theorem statusAs (h : Round e σ ok st st') (h0 : Reachable st)
    (hst : StatusAs e σ st) : StatusAs e σ st' :=
  h.invariant hok h0 hst fun _ _ _ hr hi ht ha hc ↦ statusAs_step (cmdInv hr) hi ht ha hc

/-- A round submits commands only with their dependencies satisfied. -/
theorem coherent (h : Round e σ ok st st') (h0 : Reachable st) (hc : Coherent e st) :
    Coherent e st' :=
  h.invariant hok h0 hc fun _ _ _ hr hi ht ha _ ↦ coherent_step hr hi ht ha

/-- A round decides a command whose fences and groups are ready and whose commands are decided,
unless an exception leaves `progress()` at the command or in front of it. -/
theorem decides (h : Round e σ ok st st') (h0 : Reachable st) (hc : c ∈ st.registry e)
    (hthrow : ∀ s x rest, Grows st s → ok s .submitThrow → s.pass = some ⟨rest, some x⟩ →
      c ∈ x :: rest → (s.cmds c).undecided = false)
    (hf : ∀ f ∈ (st.cmds c).fenceDeps, (st.fences f).ready = true)
    (hg : ∀ g ∈ (st.cmds c).groupDeps, ∀ f ∈ (st.groups g).fences, (st.fences f).ready = true)
    (hd : ∀ d ∈ (st.cmds c).pendingDeps, d ∈ st.registry e ∧ (st.cmds d).undecided = false) :
    (st'.cmds c).undecided = false := by
  obtain ⟨⟨st1, st2, hr1, hall, hs, hr2⟩, hidle⟩ := h
  have h1 : Reachable st1 := h0.trans hr1.any
  have hi1 := cmdInv h1
  have hg1 : Grows st st1 := .of_reach h0 (fun _ _ ↦ Assigned.internal) hr1
  obtain ⟨hcmds, -⟩ := decisions_of_assigned hr1
  have hres : Resolved st1 c := by
    refine ⟨?_, ?_, ?_⟩
    · intro f hmem
      rw [hcmds] at hmem
      rw [hg1.ready f (hf f hmem)]
      exact hf f hmem
    · intro g hmem f hmem'
      rw [hcmds] at hmem
      rw [(hg1.deps c).members g hmem] at hmem'
      rw [hg1.ready f (hg g hmem f hmem')]
      exact hg g hmem f hmem'
    · intro d hmem
      rw [hcmds] at hmem
      obtain ⟨hreg, hdec⟩ := hd d hmem
      by_cases hb : (st1.cmds d).blocked = true
      · exact .inl hb
      · have hsub : (st1.cmds d).submitted = true := by
          rw [← hcmds] at hdec
          simpa [PendingCommandState.undecided, hb] using hdec
        rw [hi1.fence d] at hsub
        obtain ⟨f, hfd⟩ := Option.isSome_iff_exists.mp hsub
        exact .inr ⟨f, hfd, hall d (hg1.registry ▸ hreg) f hfd⟩
  have hp2 := eq_of_progress hs
  have hg2 : Grows st1 st2 := .of_trans (trans_of_step hs) hi1 rfl
  have hg12 := hg1.trans hg2
  refine pass_decides (fun _ _ ↦ id) hok (h1.next trivial hs) ?_ ?_ (hg2.resolved hres)
    (fun s x rest hgrow ↦ hthrow s x rest (hg12.trans hgrow)) hr2 hidle
  · rw [hp2]
  · rw [hg12.registry]
    exact hc

end Round

namespace Rounds

/-- A condition on the steps may be weakened. -/
theorem mono (himp : ∀ s a, ok s a → more s a) (h : Rounds e σ ok n st st') :
    Rounds e σ more n st st' := by
  induction h with
  | zero st => exact .zero st
  | succ _ hround ih => exact .succ ih (hround.mono himp)

/-- Rounds lead to reachable states. -/
theorem reachable (h : Rounds e σ ok n st st') (h0 : Reachable st) :
    Reachable st' := by
  induction h with
  | zero => exact h0
  | succ _ hround ih => exact hround.reachable (ih h0)

/-- Rounds only add. -/
theorem grows (hok : ∀ s a, ok s a → PassStep throws (Assigned e σ) s a)
    (h : Rounds e σ ok n st st') (h0 : Reachable st) : Grows st st' := by
  induction h with
  | zero => exact .refl _
  | succ hrounds hround ih => exact (ih h0).trans (hround.grows hok (hrounds.reachable h0))

end Rounds

section Existence

/-- Every submitted command of a list can complete. -/
private theorem exists_complete (h0 : Reachable st) (l : List Cid) :
    ∃ st', Reach step (Assigned e σ) st st' ∧
      ∀ c ∈ l, ∀ f, (st'.cmds c).fence = some f → (st'.fences f).ready = true := by
  induction l with
  | nil => exact ⟨st, .start, nofun⟩
  | cons c l ih =>
    obtain ⟨s, hr, hl⟩ := ih
    have hs : Reachable s := h0.trans hr.any
    have hi := cmdInv hs
    by_cases hc : ∃ f, (s.cmds c).fence = some f ∧ (s.fences f).ready = false
    · obtain ⟨f, hf, hready⟩ := hc
      have hstep : step s (.complete f (σ c)) =
          some { s with fences := Function.update s.fences f ⟨true, σ c⟩ } := by
        simp [step, complete, hi.fence_lt c f hf, hready]
      refine ⟨_, hr.next ⟨f, σ c, rfl, ?_⟩ hstep, ?_⟩
      · intro d _ hd
        rw [hi.inj c d f hf hd]
      · intro d hd f' hf'
        change (Function.update s.fences f ⟨true, σ c⟩ f').ready = true
        by_cases he : f' = f
        · rw [he, Function.update_self]
        · rw [Function.update_of_ne he]
          rcases List.mem_cons.mp hd with rfl | hd
          · have hff : (s.cmds d).fence = some f' := hf'
            rw [hf] at hff
            cases hff
            exact (he rfl).elim
          · exact hl d hd f' hf'
    · refine ⟨s, hr, ?_⟩
      intro d hd f hf
      rcases List.mem_cons.mp hd with rfl | hd
      · by_contra hready
        exact hc ⟨f, hf, Bool.not_eq_true _ ▸ hready⟩
      · exact hl d hd f hf

/-- A call of `progress()` ends: it visits every entry once, or a `submit_fn` throws. -/
theorem exists_pass (throws : Cid → Prop) (more : Rt → Act → Prop) (rest : List Cid)
    (hp : st.pass = some ⟨rest, none⟩) :
    ∃ st', Reach step (PassStep throws more) st st' ∧ st'.pass = none := by
  induction rest generalizing st with
  | nil =>
    have hstep : step st .visit = some { st with pass := none } := by simp [step, visit, hp]
    exact ⟨_, .next .start (.inl rfl) hstep, rfl⟩
  | cons c rest ih =>
    -- one visit either moves on to the rest or calls `submit_fn`
    have hvisit : ∃ s, step st .visit = some s ∧
        (s.pass = some ⟨rest, none⟩ ∨ s.pass = some ⟨rest, some c⟩) := by
      simp only [step, visit, hp]
      split
      · exact ⟨_, rfl, .inl rfl⟩
      · split
        · exact ⟨_, rfl, .inl rfl⟩
        · exact ⟨_, rfl, .inl rfl⟩
        · exact ⟨_, rfl, .inr rfl⟩
    obtain ⟨s, hs, hp' | hp'⟩ := hvisit
    · obtain ⟨s', hr, hidle⟩ := ih hp'
      exact ⟨s', (Reach.next .start (.inl rfl) hs).trans hr, hidle⟩
    · have honly (d : Cid) (rest' : List Cid) (hd : s.pass = some ⟨rest', some d⟩) : d = c := by
        rw [hp'] at hd
        cases hd
        rfl
      by_cases ht : throws c
      · have hstep : step s .submitThrow = some { s with pass := none } := by
          simp [step, submitThrow, hp']
        refine ⟨_, .next (.next .start (.inl rfl) hs) (.inr (.inr (.inl ⟨rfl, ?_⟩))) hstep, rfl⟩
        intro d rest' hd
        rw [honly d rest' hd]
        exact ht
      · obtain ⟨s', hs', hp''⟩ : ∃ s', step s .submitReturn = some s' ∧
            s'.pass = some ⟨rest, none⟩ := by
          simp only [step, submitReturn, hp']
          exact ⟨_, rfl, rfl⟩
        obtain ⟨s'', hr, hidle⟩ := ih hp''
        have hfirst : Reach step (PassStep throws more) st s' := by
          refine .next (.next .start (.inl rfl) hs) (.inr (.inl ⟨rfl, ?_⟩)) hs'
          intro d rest' hd
          rw [honly d rest' hd]
          exact ht
        exact ⟨s'', hfirst.trans hr, hidle⟩

/-- From every reachable state any number of rounds can be run. -/
theorem exists_rounds (h0 : Reachable st) (hidle : st.pass = none) (n : Nat) :
    ∃ st', Rounds e σ (PassStep throws more) n st st' ∧ st'.pass = none := by
  induction n with
  | zero => exact ⟨st, .zero st, hidle⟩
  | succ n ih =>
    obtain ⟨s, hrounds, hidle⟩ := ih
    have hs := hrounds.reachable h0
    obtain ⟨s1, hr1, hall⟩ := exists_complete (e := e) (σ := σ) hs (s.registry e)
    have hg1 : Grows s s1 := .of_reach hs (fun _ _ ↦ Assigned.internal) hr1
    have hp1 : s1.pass = none := (decisions_of_assigned hr1).2.trans hidle
    have hstep : step s1 (.progress e) = some { s1 with pass := some ⟨s1.registry e, none⟩ } := by
      simp [step, hp1]
    obtain ⟨s', hr2, hidle'⟩ : ∃ s', Reach step (PassStep throws more)
        { s1 with pass := some ⟨s1.registry e, none⟩ } s' ∧ s'.pass = none :=
      exists_pass throws more (s1.registry e) rfl
    refine ⟨s', .succ hrounds ⟨⟨s1, _, hr1, ?_, hstep, hr2⟩, hidle'⟩, hidle'⟩
    intro c hc
    rw [hg1.registry] at hc
    exact hall c hc

end Existence

end DmaAccel.Dependency
