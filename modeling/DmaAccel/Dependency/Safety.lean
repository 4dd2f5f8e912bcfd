import DmaAccel.Dependency.Commands

/-!
# No command is submitted early

Source `track-c/runtime/dma_accel_dependency.cpp`, `DependencyEngine::progress` (129–202).
Between the scan of a command and the return of its `submit_fn` only completions happen, and a
completion never takes back what the scan has seen.
-/

namespace DmaAccel.Dependency

open DmaAccel.Base
open DmaAccel.Driver (U32 SubmitReq statusOk)

/-- A step decides a command only for a reason, and takes no decision back. -/
structure StepSafe (st st' : Rt) : Prop where
  submits : ∀ c, (st.cmds c).submitted = false → (st'.cmds c).submitted = true →
    Satisfied st c ∧ Satisfied st' c
  blocks : ∀ c, (st.cmds c).blocked = false → (st'.cmds c).blocked = true → Failure st c
  submitted : ∀ c, (st.cmds c).submitted = true → (st'.cmds c).submitted = true
  blocked : ∀ c, (st.cmds c).blocked = true → (st'.cmds c).blocked = true

/-- While the `submit_fn` of a command runs, all its dependencies are satisfied; no command is
both submitted and blocked; no `submit_fn` has returned twice; and the next step is safe. -/
structure EngineSafe (st : Rt) : Prop where
  calls : ∀ c rest, st.pass = some ⟨rest, some c⟩ → Satisfied st c
  exclusive : ∀ c, ¬((st.cmds c).submitted = true ∧ (st.cmds c).blocked = true)
  once : st.returned.Nodup
  next : ∀ a st', step st a = some st' → StepSafe st st'

variable {st st' : Rt} {a : Act}

/-- A fence that is ready stays as it is. -/
theorem Trans.fence_ready (h : Trans st a st') (hi : CmdInv st) {f : Fid}
    (hr : (st.fences f).ready = true) : st'.fences f = st.fences f :=
  h.fence_cases.1 f hr (hi.ready_lt f hr)

/-- Fences that completed with `DMA_ACCEL_OK` stay so. -/
theorem Trans.fence_ok (h : Trans st a st') (hi : CmdInv st) {f : Fid} (hf : (st.fences f).Ok) :
    (st'.fences f).Ok := by
  rw [h.fence_ready hi hf.1]
  exact hf

/-- A decision stays. -/
theorem Trans.decided (h : Trans st a st') (hi : CmdInv st) (c : Cid) :
    ((st.cmds c).submitted = true → (st'.cmds c).submitted = true) ∧
      ((st.cmds c).blocked = true → (st'.cmds c).blocked = true) := by
  rcases h.decision_cases hi c with hsame | ⟨-, -, -, he⟩ | ⟨-, he⟩
  · rw [hsame.submitted, hsame.blocked]
    exact ⟨id, id⟩
  · rw [he]
    exact ⟨id, fun _ ↦ rfl⟩
  · rw [he]
    exact ⟨fun _ ↦ rfl, id⟩

/-- A command keeps its fence. -/
theorem Trans.fence_some (h : Trans st a st') (hi : CmdInv st) {c : Cid} {f : Fid}
    (hf : (st.cmds c).fence = some f) : (st'.cmds c).fence = some f := by
  rcases h.decision_cases hi c with hsame | ⟨-, -, -, he⟩ | ⟨⟨rest, hp⟩, -⟩
  · rw [hsame.fence]
    exact hf
  · rw [he]
    exact hf
  · have hs := (undecided_iff.mp (hi.calling c rest hp)).1
    rw [hi.fence_none hs] at hf
    cases hf

/-- A command that completed with `DMA_ACCEL_OK` stays so. -/
theorem Trans.commandOk (h : Trans st a st') (hi : CmdInv st) {d : Cid} (hd : st.CommandOk d) :
    st'.CommandOk d := by
  obtain ⟨f, hf, hok⟩ := hd
  exact ⟨f, h.fence_some hi hf, h.fence_ok hi hok⟩

/-- The dependencies of a command are the same. -/
structure SameDeps (st st' : Rt) (c : Cid) : Prop where
  fences : (st'.cmds c).fenceDeps = (st.cmds c).fenceDeps
  groups : (st'.cmds c).groupDeps = (st.cmds c).groupDeps
  commands : (st'.cmds c).pendingDeps = (st.cmds c).pendingDeps
  members : ∀ g ∈ (st.cmds c).groupDeps, (st'.groups g).fences = (st.groups g).fences

/-- Dependencies that are satisfied stay satisfied while none is added. -/
theorem Satisfied.step {c : Cid} (hs : Satisfied st c) (h : Trans st a st') (hi : CmdInv st)
    (hd : SameDeps st st' c) : Satisfied st' c where
  fences f hf := by
    rw [hd.fences] at hf
    exact h.fence_ok hi (hs.fences f hf)
  groups g hg f hf := by
    rw [hd.groups] at hg
    rw [hd.members g hg] at hf
    exact h.fence_ok hi (hs.groups g hg f hf)
  commands d hmem := by
    rw [hd.commands] at hmem
    exact h.commandOk hi (hs.commands d hmem)

/-- Neither `progress()` nor a completion adds a dependency, and while `progress()` runs
nothing else happens. -/
theorem Trans.sameDeps (h : Trans st a st') (hp : a.internal = true ∨ st.pass.isSome = true)
    (c : Cid) : SameDeps st st' c := by
  have hcell {d : Cid} {x : PendingCommandState} (hc : st'.cmds = Function.update st.cmds d x)
      (hg : st'.groups = st.groups) (hf : x.fenceDeps = (st.cmds d).fenceDeps)
      (hgr : x.groupDeps = (st.cmds d).groupDeps)
      (hpd : x.pendingDeps = (st.cmds d).pendingDeps) : SameDeps st st' c := by
    by_cases he : c = d
    · have hself : st'.cmds c = x := by rw [hc, he, Function.update_self]
      refine ⟨?_, ?_, ?_, fun g _ ↦ by rw [hg]⟩ <;> rw [hself, he]
      · exact hf
      · exact hgr
      · exact hpd
    · have hother : st'.cmds c = st.cmds c := by rw [hc, Function.update_of_ne he]
      refine ⟨?_, ?_, ?_, fun g _ ↦ by rw [hg]⟩ <;> rw [hother]
  have hidle (hnone : st.pass = none) (ha : a.internal = false) : False := by
    rw [hnone, ha] at hp
    rcases hp with hp | hp <;> cases hp
  cases h with
  | block d rest hp' hu hv => exact hcell rfl rfl rfl rfl rfl
  | submitReturn d rest hp' => exact hcell rfl rfl rfl rfl rfl
  | newFence hnone => exact (hidle hnone rfl).elim
  | newGroup hnone => exact (hidle hnone rfl).elim
  | groupAdd g f hnone => exact (hidle hnone rfl).elim
  | groupSeal g hnone => exact (hidle hnone rfl).elim
  | deferSubmit e req hnone => exact (hidle hnone rfl).elim
  | dependsOnFence d f hnone => exact (hidle hnone rfl).elim
  | dependsOnGroup d g hnone => exact (hidle hnone rfl).elim
  | dependsOnCommand d e hnone => exact (hidle hnone rfl).elim
  | _ => exact ⟨rfl, rfl, rfl, fun _ _ ↦ rfl⟩

/-- A call of `submit_fn` finds its command's dependencies satisfied until it returns. -/
theorem calling_satisfied (h : Reachable st) {c : Cid} {rest : List Cid}
    (hp : st.pass = some ⟨rest, some c⟩) : Satisfied st c := by
  induction h generalizing c rest with
  | start => cases hp
  | next hr _ hs ih =>
    have ht := trans_of_step hs
    obtain ⟨-, -, hpass⟩ := ht.calling_cases hp
    rcases hpass with hpass | ⟨hpass, -, hv⟩
    · exact (ih hpass).step ht (cmdInv hr) (ht.sameDeps (.inr (by rw [hpass]; rfl)) c)
    · exact (satisfied_of_verdict hv).step ht (cmdInv hr)
        (ht.sameDeps (.inr (by rw [hpass]; rfl)) c)

/-- A dependency that has failed stays one. -/
theorem Trans.commandFailed (h : Trans st a st') (hi : CmdInv st) {d : Cid}
    (hd : st.CommandFailed d) : st'.CommandFailed d := by
  rcases hd with hb | ⟨f, hf, hfail⟩
  · exact .inl ((h.decided hi d).2 hb)
  · refine .inr ⟨f, h.fence_some hi hf, ?_⟩
    rw [h.fence_ready hi hfail.1]
    exact hfail

/-- The dependencies of a command are still there. -/
structure MoreDeps (st st' : Rt) (c : Cid) : Prop where
  fences : ∀ f ∈ (st.cmds c).fenceDeps, f ∈ (st'.cmds c).fenceDeps
  groups : ∀ g ∈ (st.cmds c).groupDeps, g ∈ (st'.cmds c).groupDeps
  commands : ∀ d ∈ (st.cmds c).pendingDeps, d ∈ (st'.cmds c).pendingDeps
  members : ∀ g ∈ (st.cmds c).groupDeps, ∀ f ∈ (st.groups g).fences, f ∈ (st'.groups g).fences

/-- A failure is not taken back while the dependencies stay. -/
theorem Failure.step {c : Cid} (hc : Failure st c) (h : Trans st a st') (hi : CmdInv st)
    (hd : MoreDeps st st' c) : Failure st' c := by
  have hfailed {f : Fid} (hf : (st.fences f).Failed) : (st'.fences f).Failed := by
    rw [h.fence_ready hi hf.1]
    exact hf
  rcases hc with (⟨f, hmem, hf⟩ | ⟨g, hg, f, hmem, hf⟩) | ⟨d, hmem, hf⟩
  · exact .inl (.inl ⟨f, hd.fences f hmem, hfailed hf⟩)
  · exact .inl (.inr ⟨g, hd.groups g hg, f, hd.members g hg f hmem, hfailed hf⟩)
  · exact .inr ⟨d, hd.commands d hmem, h.commandFailed hi hf⟩

/-- Groups that a command depends on exist. -/
def GroupDepsExist (st : Rt) : Prop := ∀ c, ∀ g ∈ (st.cmds c).groupDeps, g < st.ngroups

/-- No step takes a dependency of a command away. -/
theorem Trans.moreDeps (h : Trans st a st') {c : Cid} (hc : c < st.ncmds)
    (hg : GroupDepsExist st) : MoreDeps st st' c := by
  have hsame : ∀ g ∈ (st.cmds c).groupDeps, ∀ f ∈ (st.groups g).fences,
      f ∈ (st.groups g).fences := fun _ _ _ ↦ id
  have hcell {d : Cid} {x : PendingCommandState} (hcmds : st'.cmds = Function.update st.cmds d x)
      (hgroups : st'.groups = st.groups) (hf : ∀ f ∈ (st.cmds d).fenceDeps, f ∈ x.fenceDeps)
      (hgr : ∀ g ∈ (st.cmds d).groupDeps, g ∈ x.groupDeps)
      (hpd : ∀ g ∈ (st.cmds d).pendingDeps, g ∈ x.pendingDeps) : MoreDeps st st' c := by
    by_cases he : c = d
    · subst he
      have hself : st'.cmds c = x := by rw [hcmds, Function.update_self]
      refine ⟨?_, ?_, ?_, by rw [hgroups]; exact hsame⟩ <;> rw [hself]
      · exact hf
      · exact hgr
      · exact hpd
    · have hother : st'.cmds c = st.cmds c := by rw [hcmds, Function.update_of_ne he]
      refine ⟨?_, ?_, ?_, by rw [hgroups]; exact hsame⟩ <;> rw [hother] <;> exact fun _ ↦ id
  have hgrown {g' : Gid} {x : CommandGroup} (hcmds : st'.cmds = st.cmds)
      (hgroups : st'.groups = Function.update st.groups g' x)
      (hx : g' ∈ (st.cmds c).groupDeps → ∀ f ∈ (st.groups g').fences, f ∈ x.fences) :
      MoreDeps st st' c := by
    refine ⟨by rw [hcmds]; exact fun _ ↦ id, by rw [hcmds]; exact fun _ ↦ id,
      by rw [hcmds]; exact fun _ ↦ id, ?_⟩
    · intro g hmem f hf
      rw [hgroups]
      by_cases he : g = g'
      · subst he
        rw [Function.update_self]
        exact hx hmem f hf
      · rw [Function.update_of_ne he]
        exact hf
  cases h with
  | deferSubmit e req hp =>
    have hne : c ≠ st.ncmds := Nat.ne_of_lt hc
    have hother : (deferRegister st e req).cmds c = st.cmds c := Function.update_of_ne hne _ _
    refine ⟨?_, ?_, ?_, hsame⟩ <;> rw [hother] <;> exact fun _ ↦ id
  | newGroup hp => exact hgrown rfl rfl fun hmem ↦ (Nat.lt_irrefl _ (hg c _ hmem)).elim
  | groupAdd g f hp hg' hf hopen => exact hgrown rfl rfl fun _ _ ↦ List.mem_append_left _
  | groupSeal g hp hg' => exact hgrown rfl rfl fun _ _ ↦ id
  | dependsOnFence d f hp hd hf hs =>
    exact hcell rfl rfl (fun _ ↦ List.mem_append_left _) (fun _ ↦ id) fun _ ↦ id
  | dependsOnGroup d g hp hd hg' hs =>
    exact hcell rfl rfl (fun _ ↦ id) (fun _ ↦ List.mem_append_left _) fun _ ↦ id
  | dependsOnCommand d d' hp hd hd' hs hr =>
    exact hcell rfl rfl (fun _ ↦ id) (fun _ ↦ id) fun _ ↦ List.mem_append_left _
  | block d rest hp hu hv => exact hcell rfl rfl (fun _ ↦ id) (fun _ ↦ id) fun _ ↦ id
  | submitReturn d rest hp => exact hcell rfl rfl (fun _ ↦ id) (fun _ ↦ id) fun _ ↦ id
  | _ => exact ⟨fun _ ↦ id, fun _ ↦ id, fun _ ↦ id, hsame⟩

/-- Groups that a command depends on exist in every reachable state. -/
theorem groupDepsExist (h : Reachable st) : GroupDepsExist st := by
  refine invariant_of_trans (I := GroupDepsExist) (fun _ _ hg ↦ by cases hg) ?_ h
  intro st a st' _ hi _ ht
  have hcell {d : Cid} {x : PendingCommandState} (hcmds : st'.cmds = Function.update st.cmds d x)
      (hn : st'.ngroups = st.ngroups) (hx : ∀ g ∈ x.groupDeps, g < st.ngroups) :
      GroupDepsExist st' := by
    intro c g hg
    rw [hn]
    rw [hcmds] at hg
    by_cases he : c = d
    · rw [he, Function.update_self] at hg
      exact hx g hg
    · rw [Function.update_of_ne he] at hg
      exact hi c g hg
  cases ht with
  | newGroup hp => exact fun c g hg ↦ Nat.lt_succ_of_lt (hi c g hg)
  | deferSubmit e req hp => exact hcell rfl rfl nofun
  | dependsOnFence d f hp hd hf hs => exact hcell rfl rfl (hi d)
  | dependsOnGroup d g hp hd hg hs =>
    refine hcell rfl rfl ?_
    intro g' hg'
    rcases List.mem_append.mp hg' with hg' | hg'
    · exact hi d g' hg'
    · rw [List.mem_singleton.mp hg']
      exact hg
  | dependsOnCommand d d' hp hd hd' hs hr => exact hcell rfl rfl (hi d)
  | block d rest hp hu hv => exact hcell rfl rfl (hi d)
  | submitReturn d rest hp => exact hcell rfl rfl (hi d)
  | _ => exact hi

/-- In every reachable state a blocked command has a dependency that has failed. -/
theorem failure_of_blocked (h : Reachable st) {c : Cid} (hc : (st.cmds c).blocked = true) :
    Failure st c := by
  induction h generalizing c with
  | start => cases hc
  | @next st st' a hr _ hs ih =>
    have ht := trans_of_step hs
    have hi := cmdInv hr
    have hkeep (hlt : c < st.ncmds) (hf : Failure st c) : Failure st' c :=
      hf.step ht hi (ht.moreDeps hlt (groupDepsExist hr))
    rcases ht.decision_cases hi c with hsame | ⟨⟨rest, hp⟩, -, hfail, -⟩ | ⟨⟨rest, hp⟩, he⟩
    · rw [hsame.blocked] at hc
      refine hkeep ?_ (ih hc)
      by_contra hle
      rw [(hi.blank c (Nat.not_lt.mp hle)).2] at hc
      cases hc
    · exact hkeep ((regInv hr).lt_of_pass hp List.mem_cons_self) hfail
    · rw [he, (undecided_iff.mp (hi.calling c rest hp)).2] at hc
      cases hc

/-- Every step of the engine is safe. -/
theorem stepSafe (h : Reachable st) (ht : Trans st a st') : StepSafe st st' := by
  have hi := cmdInv h
  refine ⟨?_, ?_, fun c ↦ (ht.decided hi c).1, fun c ↦ (ht.decided hi c).2⟩
  · intro c hc hc'
    rcases ht.decision_cases hi c with hsame | ⟨-, -, -, he⟩ | ⟨⟨rest, hp⟩, -⟩
    · rw [hsame.submitted, hc] at hc'
      cases hc'
    · rw [he, hc] at hc'
      cases hc'
    · have hsat := calling_satisfied h hp
      exact ⟨hsat, hsat.step ht hi (ht.sameDeps (.inr (by rw [hp]; rfl)) c)⟩
  · intro c hc hc'
    rcases ht.decision_cases hi c with hsame | ⟨-, -, hfail, -⟩ | ⟨-, he⟩
    · rw [hsame.blocked, hc] at hc'
      cases hc'
    · exact hfail
    · rw [he, hc] at hc'
      cases hc'

/-- A submitted command gets no further dependency on a command. -/
theorem Trans.pendingDeps_of_submitted (h : Trans st a st') (hi : CmdInv st) {c : Cid}
    (hc : (st.cmds c).submitted = true) :
    (st'.cmds c).pendingDeps = (st.cmds c).pendingDeps := by
  have hcell {d : Cid} {x : PendingCommandState} (hcmds : st'.cmds = Function.update st.cmds d x)
      (hx : c = d → x.pendingDeps = (st.cmds d).pendingDeps) :
      (st'.cmds c).pendingDeps = (st.cmds c).pendingDeps := by
    rw [hcmds]
    by_cases he : c = d
    · rw [he, Function.update_self]
      exact hx he
    · rw [Function.update_of_ne he]
  cases h with
  | deferSubmit e req hp =>
    refine hcell rfl fun he ↦ ?_
    rw [(hi.blank c (Nat.le_of_eq he.symm)).1] at hc
    cases hc
  | dependsOnCommand d d' hp hd hd' hs hr =>
    refine hcell rfl fun he ↦ ?_
    rw [he, hs] at hc
    cases hc
  | dependsOnFence d f hp hd hf hs => exact hcell rfl fun _ ↦ rfl
  | dependsOnGroup d g hp hd hg hs => exact hcell rfl fun _ ↦ rfl
  | block d rest hp hu hv => exact hcell rfl fun _ ↦ rfl
  | submitReturn d rest hp => exact hcell rfl fun _ ↦ rfl
  | _ => rfl

/-- The commands on which a submitted command depends have completed with `DMA_ACCEL_OK`. -/
theorem commandOk_of_submitted (h : Reachable st) {c d : Cid}
    (hc : (st.cmds c).submitted = true) (hd : d ∈ (st.cmds c).pendingDeps) :
    st.CommandOk d := by
  induction h generalizing c d with
  | start => cases hc
  | @next st st' a hr _ hs ih =>
    have ht := trans_of_step hs
    have hi := cmdInv hr
    by_cases hold : (st.cmds c).submitted = true
    · rw [ht.pendingDeps_of_submitted hi hold] at hd
      exact ht.commandOk hi (ih hold hd)
    · rw [Bool.not_eq_true] at hold
      exact ((stepSafe hr ht).submits c hold hc).2.commands d hd

/-- Safety of the engine: whatever the calls, completions and their order, a command is
submitted only when all its dependencies have completed with `DMA_ACCEL_OK`, blocked only when
one has failed, never both, and never twice. -/
theorem engine_safe (h : Reachable st) : EngineSafe st where
  calls _ _ hp := calling_satisfied h hp
  exclusive := (cmdInv h).exclusive
  once := (cmdInv h).nodup
  next _ _ hs := stepSafe h (trans_of_step hs)

/-- A command with a dependency of each kind is being submitted; the command it depends on was
submitted, and completed, in the same pass. -/
theorem engine_safe_chain : ∃ st : Rt, Reachable st ∧ st.pass = some ⟨[], some 1⟩ ∧
    (st.cmds 1).fenceDeps = [0] ∧ (st.cmds 1).groupDeps = [0] ∧ (st.cmds 1).pendingDeps = [0] ∧
      st.returned = [0] ∧ EngineSafe st := by
  have hrun : (run step Rt.init [.newFence, .newFence, .newGroup, .groupAdd 0 1, .groupSeal 0,
      .deferSubmit 0 .zero, .deferSubmit 0 .zero, .dependsOnFence 1 0, .dependsOnGroup 1 0,
      .dependsOnCommand 1 0, .complete 0 statusOk, .progress 0, .visit, .submitReturn,
      .complete 1 statusOk, .complete 2 statusOk, .visit]).any
      (fun st ↦ decide (st.pass = some ⟨[], some 1⟩ ∧ (st.cmds 1).fenceDeps = [0] ∧
        (st.cmds 1).groupDeps = [0] ∧ (st.cmds 1).pendingDeps = [0] ∧ st.returned = [0])) =
      true := by decide +kernel
  obtain ⟨st, hr, hp⟩ := Reach.exists_of_run hrun
  obtain ⟨hpass, hf, hg, hc, hret⟩ := of_decide_eq_true hp
  exact ⟨st, hr, hpass, hf, hg, hc, hret, engine_safe hr⟩

end DmaAccel.Dependency
