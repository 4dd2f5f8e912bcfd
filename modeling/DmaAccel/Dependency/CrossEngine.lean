import DmaAccel.Dependency.Resolution

/-!
# Dependencies across engines

Source `track-c/runtime/dma_accel_dependency.cpp`, `PendingCommand::depends_on` (61–73) and
`DependencyEngine::progress` (129–202). A command may depend on a command of another engine, and
each `progress()` reads the completions of its own Stream only. A round here calls `progress()` on
each of several engines, in any order: a call finds the commands of its own engine complete, those
of the others perhaps not. One command of a chain is then decided in every second round, and the
decisions are those of any other distribution of the commands over engines.
-/

namespace DmaAccel.Dependency

open DmaAccel.Base
open DmaAccel.Driver (U32 statusOk)

/-- The commands registered with the engines. -/
def commandsOf (es : List Eid) (st : Rt) : Finset Cid :=
  (es.flatMap st.registry).toFinset

/-- The action of a completion; a command of the engines completes with the status assigned
to it. -/
def AssignedAmong (es : List Eid) (σ : Cid → U32) (st : Rt) (a : Act) : Prop :=
  ∃ f status, a = .complete f status ∧
    ∀ c ∈ commandsOf es st, (st.cmds c).fence = some f → status = σ c

/-- A call of `progress()` on one of the engines that returns: the submitted commands of this
engine have completed when it begins, and others may complete before it and in it. -/
def Progressed (es : List Eid) (σ : Cid → U32) (e : Eid) (st st' : Rt) : Prop :=
  st'.pass = none ∧ ∃ st1 st2, Reach step (AssignedAmong es σ) st st1 ∧ AllComplete e st1 ∧
    step st1 (.progress e) = some st2 ∧
    Reach step (PassStep (fun _ ↦ False) (AssignedAmong es σ)) st2 st'

/-- Such calls one after the other. -/
inductive Sweep (es : List Eid) (σ : Cid → U32) : List Eid → Rt → Rt → Prop where
  | nil (st : Rt) : Sweep es σ [] st st
  | cons {e : Eid} {l : List Eid} {st st1 st2 : Rt} : Progressed es σ e st st1 →
      Sweep es σ l st1 st2 → Sweep es σ (e :: l) st st2

/-- A round calls `progress()` on each of the engines, in any order. -/
def CrossRound (es : List Eid) (σ : Cid → U32) (st st' : Rt) : Prop :=
  ∃ l, es ⊆ l ∧ Sweep es σ l st st'

/-- A number of rounds. -/
inductive CrossRounds (es : List Eid) (σ : Cid → U32) : Nat → Rt → Rt → Prop where
  | zero (st : Rt) : CrossRounds es σ 0 st st
  | succ {n : Nat} {st st1 st2 : Rt} : CrossRounds es σ n st st1 → CrossRound es σ st1 st2 →
      CrossRounds es σ (n + 1) st st2

/-- The commands of the engines as the rounds find them: `progress()` is not running, they depend
on commands of these engines, their fences and groups are ready, and those that have completed did
so with the status assigned to them. -/
structure Linked (es : List Eid) (σ : Cid → U32) (st : Rt) : Prop where
  idle : st.pass = none
  closed : ∀ c ∈ commandsOf es st, ∀ d ∈ (st.cmds c).pendingDeps, d ∈ commandsOf es st
  fences : ∀ c ∈ commandsOf es st, ∀ f ∈ (st.cmds c).fenceDeps, (st.fences f).ready = true
  groups : ∀ c ∈ commandsOf es st, ∀ g ∈ (st.cmds c).groupDeps, ∀ f ∈ (st.groups g).fences,
    (st.fences f).ready = true
  status : ∀ e ∈ es, StatusAs e σ st

/-- The same commands under other names and on other engines: `π` renames them. -/
structure Redistributed (π : Cid → Cid) (es es' : List Eid) (σ σ' : Cid → U32) (st st' : Rt) :
    Prop where
  registered : ∀ c ∈ commandsOf es st, π c ∈ commandsOf es' st'
  commands : ∀ c ∈ commandsOf es st, ∀ d',
    d' ∈ (st'.cmds (π c)).pendingDeps ↔ ∃ d ∈ (st.cmds c).pendingDeps, π d = d'
  fences : ∀ c ∈ commandsOf es st, FenceFailure st' (π c) ↔ FenceFailure st c
  status : ∀ c ∈ commandsOf es st, σ' (π c) = σ c

/-- What the rounds from `st0` to `st` make of the commands of the engines. All are decided.
Unless a command was submitted before with a dependency that is not satisfied, a command is
blocked exactly when one of its dependencies has failed, and the decisions are those of any rounds
on the same commands distributed over any other engines. -/
structure CrossResolution (es : List Eid) (σ : Cid → U32) (st0 st : Rt) : Prop where
  decided : ∀ c ∈ commandsOf es st0, (st.cmds c).submitted = true ∨ (st.cmds c).blocked = true
  blocked : (∀ e ∈ es, Coherent e st0) → ∀ c ∈ commandsOf es st0,
    (st.cmds c).blocked = true ↔ Failure st c
  confluent : (∀ e ∈ es, Coherent e st0) → ∀ π es' σ' st0' st' n', Reachable st0' →
    Linked es' σ' st0' → (∀ e ∈ es', Coherent e st0') → Redistributed π es es' σ σ' st0 st0' →
    2 * (commandsOf es' st0').card ≤ n' + 1 → CrossRounds es' σ' n' st0' st' →
    ∀ c ∈ commandsOf es st0,
      ((st'.cmds (π c)).blocked = true ↔ (st.cmds c).blocked = true) ∧
      ((st'.cmds (π c)).submitted = true ↔ (st.cmds c).submitted = true)

variable {es es' l : List Eid} {e : Eid} {σ σ' : Cid → U32} {st st0 st1 st' : Rt} {a : Act}
  {c d : Cid} {n : Nat} {π : Cid → Cid}

theorem mem_commandsOf : c ∈ commandsOf es st ↔ ∃ e ∈ es, c ∈ st.registry e := by
  simp [commandsOf]

/-- While no command is deferred the commands of the engines stay the same. -/
theorem Grows.commandsOf (h : Grows st st') : commandsOf es st' = commandsOf es st := by
  unfold Dependency.commandsOf
  rw [h.registry]

/-- A completion as one engine sees it. -/
theorem AssignedAmong.assigned (h : AssignedAmong es σ st a) (he : e ∈ es) :
    Assigned e σ st a := by
  obtain ⟨f, status, rfl, hall⟩ := h
  exact ⟨f, status, rfl, fun c hc ↦ hall c (mem_commandsOf.mpr ⟨e, he, hc⟩)⟩

/-- Steps of `progress()` and completions. -/
def Inside (es : List Eid) (σ : Cid → U32) (st : Rt) (a : Act) : Prop :=
  a.internal = true ∧ ∀ f status, a = .complete f status →
    ∀ c ∈ commandsOf es st, (st.cmds c).fence = some f → status = σ c

theorem AssignedAmong.inside (h : AssignedAmong es σ st a) : Inside es σ st a := by
  obtain ⟨f, status, rfl, hall⟩ := h
  refine ⟨rfl, ?_⟩
  intro f' status' heq
  cases heq
  exact hall

/-- A step of `progress()` on any engine is one of these. -/
theorem inside_of_pass (h : PassStep (fun _ ↦ False) (AssignedAmong es σ) st a) :
    Inside es σ st a := by
  rcases h with rfl | ⟨rfl, -⟩ | ⟨rfl, -⟩ | h
  · exact ⟨rfl, by simp⟩
  · exact ⟨rfl, by simp⟩
  · exact ⟨rfl, by simp⟩
  · exact h.inside

/-- Calls of `progress()` are runs of such steps. -/
theorem Progressed.run (h : Progressed es σ e st st') : Reach step (Inside es σ) st st' := by
  obtain ⟨-, st1, st2, hr1, -, hs, hr2⟩ := h
  have h1 : Reach step (Inside es σ) st st1 := hr1.mono fun _ _ ↦ AssignedAmong.inside
  have h2 : Reach step (Inside es σ) st st2 := h1.next ⟨rfl, by simp⟩ hs
  exact h2.trans (hr2.mono fun _ _ ↦ inside_of_pass)

theorem Sweep.run (h : Sweep es σ l st st') : Reach step (Inside es σ) st st' := by
  induction h with
  | nil => exact .start
  | cons hp _ ih => exact hp.run.trans ih

theorem CrossRound.run (h : CrossRound es σ st st') : Reach step (Inside es σ) st st' := by
  obtain ⟨l, -, hsweep⟩ := h
  exact hsweep.run

theorem CrossRounds.run (h : CrossRounds es σ n st st') : Reach step (Inside es σ) st st' := by
  induction h with
  | zero => exact .start
  | succ _ hround ih => exact ih.trans hround.run

/-- Such runs only add. -/
theorem grows_inside (h0 : Reachable st) (h : Reach step (Inside es σ) st st') : Grows st st' :=
  .of_reach h0 (fun _ _ ↦ And.left) h

/-- Such runs keep the statuses as they are assigned. -/
theorem statusAs_inside (h0 : Reachable st) (he : e ∈ es) (hst : StatusAs e σ st)
    (h : Reach step (Inside es σ) st st') : StatusAs e σ st' := by
  refine h.invariant hst ?_
  intro s a s' hr hi hok hs
  refine statusAs_step (cmdInv (h0.trans hr.any)) hi (trans_of_step hs) hok.1 ?_
  intro f status ha c hc
  exact hok.2 f status ha c (mem_commandsOf.mpr ⟨e, he, hc⟩)

/-- Such runs submit commands only with their dependencies satisfied. -/
theorem coherent_inside (h0 : Reachable st) (hco : Coherent e st)
    (h : Reach step (Inside es σ) st st') : Coherent e st' := by
  refine h.invariant hco ?_
  intro s a s' hr hi hok hs
  exact coherent_step (h0.trans hr.any) hi (trans_of_step hs) hok.1

section Progress

/-- A call of `progress()` decides the commands of its engine whose dependencies are resolved. -/
theorem Progressed.decides (h : Progressed es σ e st st') (h0 : Reachable st) (he : e ∈ es)
    (hc : c ∈ st.registry e) (hres : Resolved st c) : (st'.cmds c).undecided = false := by
  obtain ⟨hidle, st1, st2, hr1, -, hs, hr2⟩ := h
  have hrun : Reach step (Inside es σ) st st2 :=
    (hr1.mono fun _ _ ↦ AssignedAmong.inside).next ⟨rfl, by simp⟩ hs
  have hgrow := grows_inside h0 hrun
  have hp : st2.pass = some ⟨st2.registry e, none⟩ := by rw [eq_of_progress hs]
  have hmore : ∀ s a, AssignedAmong es σ s a → Assigned e σ s a := fun _ _ ha ↦ ha.assigned he
  refine pass_decides hmore (fun _ _ ↦ id) (h0.trans hrun.any) hp (hgrow.registry ▸ hc)
    (hgrow.resolved hres) ?_ hr2 hidle
  intro s x rest _ hthrow hx _
  exact (hthrow.throws_of hmore hx).elim

/-- A call of `progress()` finds the submitted commands of its engine complete. -/
theorem Progressed.completes (h : Progressed es σ e st st') (h0 : Reachable st)
    (hc : c ∈ st.registry e) {f : Fid} (hf : (st.cmds c).fence = some f) :
    (st'.fences f).ready = true := by
  obtain ⟨-, st1, st2, hr1, hall, hs, hr2⟩ := h
  have h1 : Reachable st1 := h0.trans hr1.any
  have hg1 := grows_inside h0 (hr1.mono fun _ _ ↦ AssignedAmong.inside)
  have hready : (st1.fences f).ready = true :=
    hall c (hg1.registry ▸ hc) f (hg1.fence c f hf)
  have hrun : Reach step (Inside es σ) st1 st' :=
    (Reach.next .start ⟨rfl, by simp⟩ hs).trans (hr2.mono fun _ _ ↦ inside_of_pass)
  rw [(grows_inside h1 hrun).ready f hready]
  exact hready

/-- So does a call somewhere in a row of them. -/
theorem Sweep.completes (h : Sweep es σ l st st') (h0 : Reachable st) (he : e ∈ l)
    (hc : c ∈ st.registry e) {f : Fid} (hf : (st.cmds c).fence = some f) :
    (st'.fences f).ready = true := by
  induction h with
  | nil => cases he
  | cons hp hrest ih =>
    have h1 := h0.trans hp.run.any
    have hg := grows_inside h0 hp.run
    rcases List.mem_cons.mp he with rfl | he
    · have hready := hp.completes h0 hc hf
      rw [(grows_inside h1 hrest.run).ready f hready]
      exact hready
    · exact ih h1 he (hg.registry ▸ hc) (hg.fence c f hf)

/-- Somewhere in a row of calls a command with resolved dependencies is decided. -/
theorem Sweep.decides (h : Sweep es σ l st st') (h0 : Reachable st) (hl : e ∈ l) (he : e ∈ es)
    (hc : c ∈ st.registry e) (hres : Resolved st c) : (st'.cmds c).undecided = false := by
  induction h with
  | nil => cases hl
  | cons hp hrest ih =>
    have h1 := h0.trans hp.run.any
    have hg := grows_inside h0 hp.run
    rcases List.mem_cons.mp hl with rfl | hl
    · exact (grows_inside h1 hrest.run).undecided (hp.decides h0 he hc hres)
    · exact ih h1 hl (hg.registry ▸ hc) (hg.resolved hres)

end Progress

namespace Linked

/-- The conditions stay through runs of such steps. -/
theorem inside (h : Linked es σ st) (h0 : Reachable st) (hr : Reach step (Inside es σ) st st')
    (hidle : st'.pass = none) : Linked es σ st' := by
  have hg := grows_inside h0 hr
  refine ⟨hidle, ?_, ?_, ?_, fun e he ↦ statusAs_inside h0 he (h.status e he) hr⟩
  · intro c hc d hd
    rw [hg.commandsOf] at hc ⊢
    rw [(hg.deps c).commands] at hd
    exact h.closed c hc d hd
  · intro c hc f hf
    rw [hg.commandsOf] at hc
    rw [(hg.deps c).fences] at hf
    rw [hg.ready f (h.fences c hc f hf)]
    exact h.fences c hc f hf
  · intro c hc g hg' f hf
    rw [hg.commandsOf] at hc
    rw [(hg.deps c).groups] at hg'
    rw [(hg.deps c).members g hg'] at hf
    rw [hg.ready f (h.groups c hc g hg' f hf)]
    exact h.groups c hc g hg' f hf

/-- Chains of dependencies stay among the commands of the engines. -/
theorem depthLe (h : Linked es σ st) (h0 : Reachable st) (hc : c ∈ commandsOf es st) :
    DepthLe (Edge st.deps) (commandsOf es st).card c :=
  DepthLe.of_acyclic (graphInv h0).acyclic (fun x hx y hy ↦ h.closed x hx y hy) hc

end Linked

/-- A row of calls of `progress()` leaves it not running. -/
theorem Sweep.idle (h : Sweep es σ l st st') (hidle : st.pass = none) : st'.pass = none := by
  induction h with
  | nil => exact hidle
  | cons hp _ ih => exact ih hp.1

theorem CrossRounds.idle (h : CrossRounds es σ n st st') (hidle : st.pass = none) :
    st'.pass = none := by
  induction h with
  | zero => exact hidle
  | succ _ hround ih =>
    obtain ⟨l, -, hsweep⟩ := hround
    exact hsweep.idle (ih hidle)

section Decisions

/-- One round after the commands it depends on are decided, a command is resolved. -/
theorem CrossRound.resolves (h : CrossRound es σ st st') (h0 : Reachable st) (hl : Linked es σ st)
    (hc : c ∈ commandsOf es st)
    (hdeps : ∀ d ∈ (st.cmds c).pendingDeps, (st.cmds d).undecided = false) : Resolved st' c := by
  have hg := grows_inside h0 h.run
  obtain ⟨l, hes, hsweep⟩ := h
  constructor
  · intro f hf
    rw [(hg.deps c).fences] at hf
    rw [hg.ready f (hl.fences c hc f hf)]
    exact hl.fences c hc f hf
  · intro g hg' f hf
    rw [(hg.deps c).groups] at hg'
    rw [(hg.deps c).members g hg'] at hf
    rw [hg.ready f (hl.groups c hc g hg' f hf)]
    exact hl.groups c hc g hg' f hf
  · intro d hd
    rw [(hg.deps c).commands] at hd
    by_cases hb : (st.cmds d).blocked = true
    · exact .inl (hg.blocked d hb)
    · have hsub : (st.cmds d).submitted = true := by
        simpa [PendingCommandState.undecided, hb] using hdeps d hd
      rw [(cmdInv h0).fence d] at hsub
      obtain ⟨f, hf⟩ := Option.isSome_iff_exists.mp hsub
      obtain ⟨e, he, hreg⟩ := mem_commandsOf.mp (hl.closed c hc d hd)
      exact .inr ⟨f, hg.fence d f hf, hsweep.completes h0 (hes he) hreg hf⟩

/-- A round decides the commands that it finds resolved. -/
theorem CrossRound.decides (h : CrossRound es σ st st') (h0 : Reachable st)
    (hc : c ∈ commandsOf es st) (hres : Resolved st c) : (st'.cmds c).undecided = false := by
  obtain ⟨l, hes, hsweep⟩ := h
  obtain ⟨e, he, hreg⟩ := mem_commandsOf.mp hc
  exact hsweep.decides h0 (hes he) he hreg hres

/-- The chains of a command grow by one command in two rounds. -/
theorem decided_of_depth {k : Nat} (h0 : Reachable st0) (hl : Linked es σ st0)
    (hr : CrossRounds es σ n st0 st) (hc : c ∈ commandsOf es st0)
    (hd : DepthLe (Edge st0.deps) k c) (hn : 2 * k ≤ n + 1) : (st.cmds c).undecided = false := by
  induction k generalizing c n st with
  | zero => exact hd.elim
  | succ k ih =>
    cases hr with
    | zero => omega
    | @succ m _ s _ hrounds hround =>
      have hs := h0.trans hrounds.run.any
      have hg := grows_inside h0 hrounds.run
      refine hround.decides hs (hg.commandsOf ▸ hc) ?_
      cases hrounds with
      | zero =>
        refine ⟨hl.fences c hc, hl.groups c hc, ?_⟩
        intro d hdep
        have hk : k = 0 := by omega
        subst hk
        exact (hd d hdep).elim
      | @succ m' _ s' _ hrounds' hround' =>
        have hs' := h0.trans hrounds'.run.any
        have hg' := grows_inside h0 hrounds'.run
        have hl' := hl.inside h0 hrounds'.run (hrounds'.idle hl.idle)
        refine hround'.resolves hs' hl' (hg'.commandsOf ▸ hc) ?_
        intro d hdep
        rw [(hg'.deps c).commands] at hdep
        exact ih hrounds' (hl.closed c hc d hdep) (hd d hdep) (by omega)

/-- After two rounds for each command all are decided. -/
theorem all_decided_among (h0 : Reachable st0) (hl : Linked es σ st0)
    (hn : 2 * (commandsOf es st0).card ≤ n + 1) (hr : CrossRounds es σ n st0 st) :
    ∀ c ∈ commandsOf es st0, (st.cmds c).undecided = false :=
  fun _ hc ↦ decided_of_depth h0 hl hr hc (hl.depthLe h0 hc) hn

/-- Once all are decided, the decision about a command follows from the graph and the statuses
alone. -/
theorem blocked_among (h0 : Reachable st) (hl : Linked es σ st) (hco : ∀ e ∈ es, Coherent e st)
    (hdec : ∀ c ∈ commandsOf es st, (st.cmds c).undecided = false) (hc : c ∈ commandsOf es st) :
    (st.cmds c).blocked = true ↔ FenceFailure st c ∨
      ∃ d ∈ (st.cmds c).pendingDeps, (st.cmds d).blocked = true ∨ σ d ≠ statusOk := by
  obtain ⟨e, he, hreg⟩ := mem_commandsOf.mp hc
  have hiff := blocked_iff h0 (hco e he) hreg (hdec c hc)
  have hstatus {d : Cid} {f : Fid} (hd : d ∈ (st.cmds c).pendingDeps)
      (hf : (st.cmds d).fence = some f) (hready : (st.fences f).ready = true) :
      (st.fences f).status = σ d := by
    obtain ⟨e', he', hreg'⟩ := mem_commandsOf.mp (hl.closed c hc d hd)
    exact hl.status e' he' d hreg' f hf hready
  constructor
  · intro hb
    rcases hiff.mp hb with hf | ⟨d, hd, hb | ⟨f, hf, hfail⟩⟩
    · exact .inl hf
    · exact .inr ⟨d, hd, .inl hb⟩
    · refine .inr ⟨d, hd, .inr ?_⟩
      rw [← hstatus hd hf hfail.1]
      exact hfail.2
  · rintro (hf | ⟨d, hd, hb | hσ⟩)
    · exact hiff.mpr (.inl hf)
    · exact hiff.mpr (.inr ⟨d, hd, .inl hb⟩)
    · -- submitted, it would have seen `d` complete with `DMA_ACCEL_OK`
      by_contra hb
      have hsub : (st.cmds c).submitted = true := by
        simpa [PendingCommandState.undecided, hb] using hdec c hc
      obtain ⟨f, hf, hok⟩ := (hco e he c hreg hsub).commands d hd
      exact hσ ((hstatus hd hf hok.1).symm.trans hok.2)

/-- Fences and groups that are ready have failed or not before the rounds begin. -/
theorem Linked.fenceFailure_iff (hl : Linked es σ st0) (hg : Grows st0 st)
    (hc : c ∈ commandsOf es st0) : FenceFailure st c ↔ FenceFailure st0 c := by
  have hfence {f : Fid} (hf : f ∈ (st0.cmds c).fenceDeps) : st.fences f = st0.fences f :=
    hg.ready f (hl.fences c hc f hf)
  have hgroup {g : Gid} {f : Fid} (hg' : g ∈ (st0.cmds c).groupDeps)
      (hf : f ∈ (st0.groups g).fences) : st.fences f = st0.fences f :=
    hg.ready f (hl.groups c hc g hg' f hf)
  unfold FenceFailure
  rw [(hg.deps c).fences, (hg.deps c).groups]
  constructor
  · rintro (⟨f, hf, hfail⟩ | ⟨g, hg', f, hf, hfail⟩)
    · exact .inl ⟨f, hf, hfence hf ▸ hfail⟩
    · rw [(hg.deps c).members g hg'] at hf
      exact .inr ⟨g, hg', f, hf, hgroup hg' hf ▸ hfail⟩
  · rintro (⟨f, hf, hfail⟩ | ⟨g, hg', f, hf, hfail⟩)
    · exact .inl ⟨f, hf, (hfence hf).symm ▸ hfail⟩
    · refine .inr ⟨g, hg', f, ?_, (hgroup hg' hf).symm ▸ hfail⟩
      rw [(hg.deps c).members g hg']
      exact hf

/-- The decisions after enough rounds, in terms of the commands as they were before. -/
theorem blocked_after (h0 : Reachable st0) (hl : Linked es σ st0)
    (hn : 2 * (commandsOf es st0).card ≤ n + 1) (hco : ∀ e ∈ es, Coherent e st0)
    (hr : CrossRounds es σ n st0 st) :
    ∀ c ∈ commandsOf es st0, (st.cmds c).blocked = true ↔ FenceFailure st0 c ∨
      ∃ d ∈ (st0.cmds c).pendingDeps, (st.cmds d).blocked = true ∨ σ d ≠ statusOk := by
  intro c hc
  have hg := grows_inside h0 hr.run
  have hl' := hl.inside h0 hr.run (hr.idle hl.idle)
  have hco' : ∀ e ∈ es, Coherent e st := fun e he ↦ coherent_inside h0 (hco e he) hr.run
  have hdec := all_decided_among h0 hl hn hr
  rw [← hg.commandsOf] at hdec
  rw [blocked_among (h0.trans hr.run.any) hl' hco' hdec (hg.commandsOf ▸ hc),
    hl.fenceFailure_iff hg hc, (hg.deps c).commands]

/-- Commands that differ in names and engines only are decided alike. -/
theorem blocked_redistributed {st0' : Rt} {k : Nat}
    (hre : Redistributed π es es' σ σ' st0 st0') (hl : Linked es σ st0)
    (hrec : ∀ c ∈ commandsOf es st0, (st.cmds c).blocked = true ↔ FenceFailure st0 c ∨
      ∃ d ∈ (st0.cmds c).pendingDeps, (st.cmds d).blocked = true ∨ σ d ≠ statusOk)
    (hrec' : ∀ c ∈ commandsOf es' st0', (st'.cmds c).blocked = true ↔ FenceFailure st0' c ∨
      ∃ d ∈ (st0'.cmds c).pendingDeps, (st'.cmds d).blocked = true ∨ σ' d ≠ statusOk)
    (hc : c ∈ commandsOf es st0) (hd : DepthLe (Edge st0.deps) k c) :
    (st'.cmds (π c)).blocked = true ↔ (st.cmds c).blocked = true := by
  induction k generalizing c with
  | zero => exact hd.elim
  | succ k ih =>
    rw [hrec c hc, hrec' (π c) (hre.registered c hc), hre.fences c hc]
    apply or_congr_right
    constructor
    · rintro ⟨d', hd', hfail⟩
      obtain ⟨d, hdc, rfl⟩ := (hre.commands c hc d').mp hd'
      have hdr := hl.closed c hc d hdc
      rw [ih hdr (hd d hdc), hre.status d hdr] at hfail
      exact ⟨d, hdc, hfail⟩
    · rintro ⟨d, hdc, hfail⟩
      have hdr := hl.closed c hc d hdc
      refine ⟨π d, (hre.commands c hc (π d)).mpr ⟨d, hdc, rfl⟩, ?_⟩
      rw [ih hdr (hd d hdc), hre.status d hdr]
      exact hfail

end Decisions

section Existence

/-- Every submitted command of a list can complete. -/
private theorem exists_completions (es : List Eid) (σ : Cid → U32) (h0 : Reachable st)
    (l : List Cid) :
    ∃ st', Reach step (AssignedAmong es σ) st st' ∧
      ∀ c ∈ l, ∀ f, (st'.cmds c).fence = some f → (st'.fences f).ready = true := by
  induction l with
  | nil => exact ⟨st, .start, by simp⟩
  | cons c l ih =>
    obtain ⟨s, hr, hl⟩ := ih
    have hs : Reachable s := h0.trans hr.any
    have hi := cmdInv hs
    by_cases hc : ∃ f, (s.cmds c).fence = some f ∧ (s.fences f).ready = false
    · obtain ⟨f, hf, hready⟩ := hc
      have hstep : step s (.complete f (σ c)) =
          some { s with fences := Function.update s.fences f ⟨true, σ c⟩ } := by
        simp [step, complete, hi.fence_lt c f hf, hready]
      refine ⟨_, hr.next ⟨f, σ c, rfl, ?_⟩ hstep, ?_⟩
      · intro d _ hd
        rw [hi.inj c d f hf hd]
      · intro d hd f' hf'
        show (Function.update s.fences f ⟨true, σ c⟩ f').ready = true
        by_cases he : f' = f
        · rw [he, Function.update_self]
        · rw [Function.update_of_ne he]
          rcases List.mem_cons.mp hd with rfl | hd
          · exact absurd (Option.some.inj (hf'.symm.trans hf)) he
          · exact hl d hd f' hf'
    · refine ⟨s, hr, ?_⟩
      intro d hd f hf
      rcases List.mem_cons.mp hd with rfl | hd
      · by_contra hready
        exact hc ⟨f, hf, Bool.not_eq_true _ ▸ hready⟩
      · exact hl d hd f hf

/-- Completions leave `progress()` as it is. -/
private theorem pass_of_completions (h : Reach step (AssignedAmong es σ) st st') :
    st'.pass = st.pass := by
  refine h.invariant (I := fun s ↦ s.pass = st.pass) rfl ?_
  intro s a s' _ hi hok hs
  obtain ⟨f, status, rfl, -⟩ := hok
  cases trans_of_step hs with
  | stutter => exact hi
  | complete f status hf hu => exact hi

/-- A call of `progress()` can be made and returns. -/
theorem exists_progressed (es : List Eid) (σ : Cid → U32) (h0 : Reachable st)
    (hidle : st.pass = none) (e : Eid) : ∃ st', Progressed es σ e st st' := by
  obtain ⟨s, hr, hall⟩ := exists_completions es σ h0 (st.registry e)
  have hg := grows_inside h0 (hr.mono fun _ _ ↦ AssignedAmong.inside)
  have hp : s.pass = none := (pass_of_completions hr).trans hidle
  have hstep : step s (.progress e) = some { s with pass := some ⟨s.registry e, none⟩ } := by
    simp [step, hp]
  obtain ⟨s', hr', hidle'⟩ : ∃ s', Reach step (PassStep (fun _ ↦ False) (AssignedAmong es σ))
      { s with pass := some ⟨s.registry e, none⟩ } s' ∧ s'.pass = none :=
    exists_pass _ _ (s.registry e) rfl
  refine ⟨s', hidle', s, _, hr, ?_, hstep, hr'⟩
  intro c hc
  exact hall c (hg.registry ▸ hc)

/-- So can a row of them. -/
theorem exists_sweep (es : List Eid) (σ : Cid → U32) (h0 : Reachable st)
    (hidle : st.pass = none) (l : List Eid) : ∃ st', Sweep es σ l st st' := by
  induction l generalizing st with
  | nil => exact ⟨st, .nil st⟩
  | cons e l ih =>
    obtain ⟨s, hp⟩ := exists_progressed es σ h0 hidle e
    obtain ⟨st', hrest⟩ := ih (h0.trans hp.run.any) hp.1
    exact ⟨st', .cons hp hrest⟩

/-- From every reachable state any number of rounds can be run. -/
theorem exists_crossRounds (h0 : Reachable st) (hidle : st.pass = none) (n : Nat) :
    ∃ st', CrossRounds es σ n st st' := by
  induction n with
  | zero => exact ⟨st, .zero st⟩
  | succ n ih =>
    obtain ⟨s, hr⟩ := ih
    obtain ⟨st', hsweep⟩ := exists_sweep es σ (h0.trans hr.run.any) (hr.idle hidle) es
    exact ⟨st', .succ hr ⟨es, fun _ he ↦ he, hsweep⟩⟩

end Existence

/-- Resolution and confluence across engines: where each call of `progress()` finds at least the
submitted commands of its own engine complete, two rounds for each command decide all commands of
any number of engines that depend on one another. Unless a command was submitted before with a
dependency that is not satisfied, a command is blocked exactly when a dependency has failed, and how
the commands are distributed over engines, in which order they are registered and in which order the
engines are driven makes no difference. -/
theorem engines_resolve (h0 : Reachable st0) (hl : Linked es σ st0)
    (hn : 2 * (commandsOf es st0).card ≤ n + 1) :
    (∃ st, CrossRounds es σ n st0 st) ∧
      ∀ st, CrossRounds es σ n st0 st → CrossResolution es σ st0 st := by
  refine ⟨exists_crossRounds h0 hl.idle n, ?_⟩
  intro st hr
  have hg := grows_inside h0 hr.run
  have hreach := h0.trans hr.run.any
  have hdec := all_decided_among h0 hl hn hr
  constructor
  · exact fun c hc ↦ submitted_or_blocked (hdec c hc)
  · intro hco c hc
    obtain ⟨e, he, hreg⟩ := mem_commandsOf.mp hc
    rw [← hg.registry] at hreg
    exact blocked_iff hreach (coherent_inside h0 (hco e he) hr.run) hreg (hdec c hc)
  · intro hco π es' σ' st0' st' n' h0' hl' hco' hre hn' hr' c hc
    have hblocked := blocked_redistributed hre hl (blocked_after h0 hl hn hco hr)
      (blocked_after h0' hl' hn' hco' hr') hc (hl.depthLe h0 hc)
    have hdec' := all_decided_among h0' hl' hn' hr' (π c) (hre.registered c hc)
    refine ⟨hblocked, ?_⟩
    rw [submitted_iff (cmdInv (h0'.trans hr'.run.any)) hdec', hblocked,
      ← submitted_iff (cmdInv hreach) (hdec c hc)]

/-- A chain that goes to and fro between two engines, its last command completing with an
error. -/
theorem engines_resolve_zigzag : ∃ st0 : Rt, Reachable st0 ∧ st0.registry 0 = [0, 2] ∧
    st0.registry 1 = [1] ∧ st0.deps 0 = [1] ∧ st0.deps 1 = [2] ∧
    (∃ st, CrossRounds [0, 1] (fun c ↦ if c = 2 then 1 else statusOk) 5 st0 st) ∧
      ∀ st, CrossRounds [0, 1] (fun c ↦ if c = 2 then 1 else statusOk) 5 st0 st →
        CrossResolution [0, 1] (fun c ↦ if c = 2 then 1 else statusOk) st0 st := by
  have hrun : (run step Rt.init [.deferSubmit 0 .zero, .deferSubmit 1 .zero, .deferSubmit 0 .zero,
      .dependsOnCommand 0 1, .dependsOnCommand 1 2]).any (fun st ↦ decide (st.pass = none ∧
        st.registry 0 = [0, 2] ∧ st.registry 1 = [1] ∧ st.deps 0 = [1] ∧ st.deps 1 = [2] ∧
        st.deps 2 = [] ∧ ∀ c ∈ ([0, 1, 2] : List Cid), (st.cmds c).fenceDeps = [] ∧
          (st.cmds c).groupDeps = [] ∧ (st.cmds c).fence = none)) = true := by decide +kernel
  obtain ⟨st0, hr, hp⟩ := Reach.exists_of_run hrun
  obtain ⟨hidle, hreg0, hreg1, hd0, hd1, hd2, hall⟩ := of_decide_eq_true hp
  have hcmds : commandsOf [0, 1] st0 = {0, 1, 2} := by
    simp only [commandsOf, List.flatMap_cons, List.flatMap_nil, hreg0, hreg1]
    decide
  have hmem {c : Cid} (hc : c ∈ commandsOf [0, 1] st0) : c = 0 ∨ c = 1 ∨ c = 2 := by
    rw [hcmds] at hc
    simpa using hc
  have hown {c : Cid} (hc : c ∈ commandsOf [0, 1] st0) : (st0.cmds c).fenceDeps = [] ∧
      (st0.cmds c).groupDeps = [] ∧ (st0.cmds c).fence = none :=
    hall c (by simpa using hmem hc)
  have hlinked : Linked [0, 1] (fun c ↦ if c = 2 then 1 else statusOk) st0 := by
    refine ⟨hidle, ?_, ?_, ?_, ?_⟩
    · intro c hc d hd
      rw [hcmds]
      change d ∈ st0.deps c at hd
      rcases hmem hc with rfl | rfl | rfl
      · simp_all
      · simp_all
      · simp_all
    · intro c hc f hf
      rw [(hown hc).1] at hf
      cases hf
    · intro c hc g hg
      rw [(hown hc).2.1] at hg
      cases hg
    · intro e he c hc f hf
      rw [(hown (mem_commandsOf.mpr ⟨e, he, hc⟩)).2.2] at hf
      cases hf
  exact ⟨st0, hr, hreg0, hreg1, hd0, hd1, engines_resolve hr hlinked (by simp [hcmds])⟩

end DmaAccel.Dependency
