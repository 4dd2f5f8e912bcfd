import DmaAccel.Dependency.Rounds

/-!
# Every command is decided, and the order does not matter

Source `track-c/runtime/dma_accel_dependency.cpp`, `DependencyEngine::progress` (129–202).
One pass follows the order of registration, which need not be the order of the dependencies,
and it stops at the first pending dependency of a command. Still, after as many rounds as
there are commands all are decided: a command whose chains of dependencies have at most `n`
commands is decided after `n` rounds. Which way it is decided depends on the graph and on the
statuses alone, unless a command got through while a group of its was open (151–167): a fence that
joins the group later may fail, and the command is never blocked.
-/

namespace DmaAccel.Dependency

open DmaAccel.Base
open DmaAccel.Driver (U32 SubmitReq statusOk)

/-- The commands of an engine as the rounds find them: `progress()` is not running, commands
depend on commands of the same engine, their fences and groups are ready, and those that have
completed did so with the status assigned to them. -/
structure Registered (e : Eid) (σ : Cid → U32) (st : Rt) : Prop where
  idle : st.pass = none
  closed : ∀ c ∈ st.registry e, ∀ d ∈ (st.cmds c).pendingDeps, d ∈ st.registry e
  fences : ∀ c ∈ st.registry e, ∀ f ∈ (st.cmds c).fenceDeps, (st.fences f).ready = true
  groups : ∀ c ∈ st.registry e, ∀ g ∈ (st.cmds c).groupDeps, ∀ f ∈ (st.groups g).fences,
    (st.fences f).ready = true
  status : StatusAs e σ st

/-- Rounds in which no `submit_fn` throws; completions may also arrive while `progress()`
runs. -/
abbrev PlainRounds (e : Eid) (σ : Cid → U32) : Nat → Rt → Rt → Prop :=
  Rounds e σ (PassStep (fun _ ↦ False) (Assigned e σ))

/-- The same commands under other names, in another order: `π` renames them. -/
structure Renamed (π : Cid → Cid) (e e' : Eid) (σ σ' : Cid → U32) (st st' : Rt) : Prop where
  registry : (st'.registry e').Perm ((st.registry e).map π)
  commands : ∀ c ∈ st.registry e, ∀ d',
    d' ∈ (st'.cmds (π c)).pendingDeps ↔ ∃ d ∈ (st.cmds c).pendingDeps, π d = d'
  fences : ∀ c ∈ st.registry e, FenceFailure st' (π c) ↔ FenceFailure st c
  status : ∀ c ∈ st.registry e, σ' (π c) = σ c

/-- What the rounds from `st0` to `st` are to make of the commands of an engine. All are decided; a
command is blocked exactly when one of its dependencies has failed; and the decisions are those of
any other run of rounds on the same commands, where these begin as they should. -/
structure Resolution (e : Eid) (σ : Cid → U32) (st0 st : Rt) : Prop where
  decided : ∀ c ∈ st0.registry e, (st.cmds c).submitted = true ∨ (st.cmds c).blocked = true
  blocked : ∀ c ∈ st0.registry e, (st.cmds c).blocked = true ↔ Failure st c
  confluent : ∀ π e' σ' st0' st' n', Reachable st0' → Registered e' σ' st0' →
    Coherent e' st0' → Renamed π e e' σ σ' st0 st0' → (st0'.registry e').length ≤ n' →
    PlainRounds e' σ' n' st0' st' → ∀ c ∈ st0.registry e,
      ((st'.cmds (π c)).blocked = true ↔ (st.cmds c).blocked = true) ∧
      ((st'.cmds (π c)).submitted = true ↔ (st.cmds c).submitted = true)

variable {e e' : Eid} {σ σ' : Cid → U32} {st st0 st' : Rt} {c d : Cid} {n : Nat}
  {π : Cid → Cid}

namespace Registered

/-- The conditions stay through rounds. -/
theorem grows (h : Registered e σ st0) (hg : Grows st0 st) (hidle : st.pass = none)
    (hst : StatusAs e σ st) : Registered e σ st where
  idle := hidle
  closed c hc d hd := by
    rw [hg.registry] at hc ⊢
    rw [(hg.deps c).commands] at hd
    exact h.closed c hc d hd
  fences c hc f hf := by
    rw [hg.registry] at hc
    rw [(hg.deps c).fences] at hf
    rw [hg.ready f (h.fences c hc f hf)]
    exact h.fences c hc f hf
  groups c hc g hg' f hf := by
    rw [hg.registry] at hc
    rw [(hg.deps c).groups] at hg'
    rw [(hg.deps c).members g hg'] at hf
    rw [hg.ready f (h.groups c hc g hg' f hf)]
    exact h.groups c hc g hg' f hf
  status := hst

/-- They hold after any number of rounds. -/
theorem rounds {throws : Cid → Prop} {ok : Rt → Act → Prop} (h : Registered e σ st0)
    (h0 : Reachable st0) (hok : ∀ s a, ok s a → PassStep throws (Assigned e σ) s a)
    (hr : Rounds e σ ok n st0 st) : Registered e σ st := by
  induction hr with
  | zero => exact h
  | succ hrounds hround ih =>
    have hi := ih h h0
    have hreach := hrounds.reachable h0
    exact hi.grows (hround.grows hok hreach) hround.idle
      (hround.statusAs hok hreach hi.status)

/-- Chains of dependencies stay inside the registry. -/
theorem depthLe (h : Registered e σ st) (h0 : Reachable st) (hc : c ∈ st.registry e) :
    DepthLe (Edge st.deps) (st.registry e).length c := by
  have hclosed : ∀ x ∈ (st.registry e).toFinset, ∀ y, Edge st.deps x y →
      y ∈ (st.registry e).toFinset := by
    intro x hx y hy
    rw [List.mem_toFinset] at hx ⊢
    exact h.closed x hx y hy
  have hdepth := DepthLe.of_acyclic (graphInv h0).acyclic hclosed (List.mem_toFinset.mpr hc)
  rwa [List.toFinset_card_of_nodup ((regInv h0).nodup e)] at hdepth

end Registered

/-- After `n` rounds the commands whose chains have at most `n` commands are decided. -/
theorem decided_of_depthLe (h0 : Reachable st0) (h : Registered e σ st0)
    (hr : PlainRounds e σ n st0 st) (hc : c ∈ st.registry e)
    (hd : DepthLe (Edge st.deps) n c) : (st.cmds c).undecided = false := by
  induction hr generalizing c with
  | zero => exact hd.elim
  | @succ n st0 s s' hrounds hround ih =>
    have hreach := hrounds.reachable h0
    have hi := h.rounds h0 (fun _ _ ↦ id) hrounds
    have hgrow := hround.grows (fun _ _ ↦ id) hreach
    rw [hgrow.registry] at hc
    rw [hgrow.deps_eq] at hd
    have hdeps : ∀ d ∈ (s.cmds c).pendingDeps,
        d ∈ s.registry e ∧ (s.cmds d).undecided = false := by
      intro d hmem
      have hreg := hi.closed c hc d hmem
      exact ⟨hreg, ih h0 h hreg (hd d hmem)⟩
    refine hround.decides (fun _ _ ↦ id) hreach hc ?_ (hi.fences c hc) (hi.groups c hc) hdeps
    intro s x rest _ hthrow hx _
    exact (hthrow.throws_of (fun _ _ ↦ id) hx).elim

/-- Rounds keep submitted commands coherent. -/
theorem coherent_rounds (h0 : Reachable st0) (hco : Coherent e st0)
    (hr : PlainRounds e σ n st0 st) : Coherent e st := by
  induction hr with
  | zero => exact hco
  | succ hrounds hround ih =>
    exact hround.coherent (fun _ _ ↦ id) (hrounds.reachable h0) (ih h0 hco)

/-- A satisfied command has no failed dependency. -/
theorem Satisfied.not_failure (h : Satisfied st c) (hi : CmdInv st) : ¬Failure st c := by
  rintro ((⟨f, hf, hfail⟩ | ⟨g, hg, f, hf, hfail⟩) | ⟨d, hd, hb | ⟨f, hf, hfail⟩⟩)
  · exact hfail.2 (h.fences f hf).2
  · exact hfail.2 (h.groups g hg f hf).2
  · obtain ⟨f, hf, -⟩ := h.commands d hd
    exact hi.exclusive d ⟨by rw [hi.fence d, hf]; rfl, hb⟩
  · obtain ⟨f', hf', hok⟩ := h.commands d hd
    rw [hf] at hf'
    cases hf'
    exact hfail.2 hok.2

/-- Once everything is decided, blocked commands are those with a failed dependency. -/
theorem blocked_iff (h0 : Reachable st) (hco : Coherent e st) (hc : c ∈ st.registry e)
    (hdec : (st.cmds c).undecided = false) : (st.cmds c).blocked = true ↔ Failure st c := by
  refine ⟨failure_of_blocked h0, fun hfail ↦ ?_⟩
  by_contra hb
  have hsub : (st.cmds c).submitted = true := by
    simpa [PendingCommandState.undecided, hb] using hdec
  exact (hco c hc hsub).not_failure (cmdInv h0) hfail

/-- The decision about a command in terms of the graph and the statuses alone. -/
private theorem blocked_rec (h0 : Reachable st) (h : Registered e σ st) (hco : Coherent e st)
    (hdec : ∀ c ∈ st.registry e, (st.cmds c).undecided = false) (hc : c ∈ st.registry e) :
    (st.cmds c).blocked = true ↔ FenceFailure st c ∨
      ∃ d ∈ (st.cmds c).pendingDeps, (st.cmds d).blocked = true ∨ σ d ≠ statusOk := by
  rw [blocked_iff h0 hco hc (hdec c hc)]
  constructor
  · rintro (hf | ⟨d, hd, hb | ⟨f, hf, hfail⟩⟩)
    · exact .inl hf
    · exact .inr ⟨d, hd, .inl hb⟩
    · refine .inr ⟨d, hd, .inr ?_⟩
      rw [← h.status d (h.closed c hc d hd) f hf hfail.1]
      exact hfail.2
  · rintro (hf | ⟨d, hd, hb | hσ⟩)
    · exact .inl hf
    · exact .inr ⟨d, hd, .inl hb⟩
    · -- a command that depends on `d` and is not blocked has seen `d` complete
      rw [← blocked_iff h0 hco hc (hdec c hc)]
      by_contra hb
      have hsub : (st.cmds c).submitted = true := by
        simpa [PendingCommandState.undecided, hb] using hdec c hc
      obtain ⟨f, hf, hok⟩ := (hco c hc hsub).commands d hd
      exact hσ ((h.status d (h.closed c hc d hd) f hf hok.1).symm.trans hok.2)

/-- After as many rounds as there are commands all of them are decided. -/
private theorem all_decided (h0 : Reachable st0) (h : Registered e σ st0)
    (hn : (st0.registry e).length ≤ n) (hr : PlainRounds e σ n st0 st) :
    ∀ c ∈ st0.registry e, (st.cmds c).undecided = false := by
  intro c hc
  have hreg := (hr.grows (fun _ _ ↦ id) h0).registry
  rw [← hreg] at hc
  have hdepth := (h.rounds h0 (fun _ _ ↦ id) hr).depthLe (hr.reachable h0) hc
  rw [hreg] at hdepth
  exact decided_of_depthLe h0 h hr hc (hdepth.mono hn)

/-- The decisions after that many rounds, in terms of the graph and the statuses. -/
private theorem blocked_rounds (h0 : Reachable st0) (h : Registered e σ st0)
    (hn : (st0.registry e).length ≤ n) (hco : Coherent e st0)
    (hr : PlainRounds e σ n st0 st) :
    ∀ c ∈ st0.registry e, (st.cmds c).blocked = true ↔ FenceFailure st c ∨
      ∃ d ∈ (st.cmds c).pendingDeps, (st.cmds d).blocked = true ∨ σ d ≠ statusOk := by
  intro c hc
  have hdec := all_decided h0 h hn hr
  rw [← (hr.grows (fun _ _ ↦ id) h0).registry] at hc hdec
  exact blocked_rec (hr.reachable h0) (h.rounds h0 (fun _ _ ↦ id) hr)
    (coherent_rounds h0 hco hr) hdec hc

/-- Fences and groups that are ready have failed or not before the rounds begin. -/
private theorem fenceFailure_iff (h : Registered e σ st0) (hg : Grows st0 st)
    (hc : c ∈ st0.registry e) : FenceFailure st c ↔ FenceFailure st0 c := by
  have hfence {f : Fid} (hf : f ∈ (st0.cmds c).fenceDeps) : st.fences f = st0.fences f :=
    hg.ready f (h.fences c hc f hf)
  have hgroup {g : Gid} {f : Fid} (hg' : g ∈ (st0.cmds c).groupDeps)
      (hf : f ∈ (st0.groups g).fences) : st.fences f = st0.fences f :=
    hg.ready f (h.groups c hc g hg' f hf)
  unfold FenceFailure
  rw [(hg.deps c).fences, (hg.deps c).groups]
  constructor
  · rintro (⟨f, hf, hfail⟩ | ⟨g, hg', f, hf, hfail⟩)
    · exact .inl ⟨f, hf, hfence hf ▸ hfail⟩
    · rw [(hg.deps c).members g hg'] at hf
      exact .inr ⟨g, hg', f, hf, hgroup hg' hf ▸ hfail⟩
  · rintro (⟨f, hf, hfail⟩ | ⟨g, hg', f, hf, hfail⟩)
    · exact .inl ⟨f, hf, (hfence hf).symm ▸ hfail⟩
    · refine .inr ⟨g, hg', f, ?_, (hgroup hg' hf).symm ▸ hfail⟩
      rw [(hg.deps c).members g hg']
      exact hf

/-- Decided commands of two engines that differ in names and order only are decided alike. -/
private theorem blocked_renamed {st0' : Rt} (hr : Renamed π e e' σ σ' st0 st0')
    (h : Registered e σ st0) (h' : Registered e' σ' st0') (hg : Grows st0 st)
    (hg' : Grows st0' st')
    (hrec : ∀ c ∈ st0.registry e, (st.cmds c).blocked = true ↔ FenceFailure st c ∨
      ∃ d ∈ (st.cmds c).pendingDeps, (st.cmds d).blocked = true ∨ σ d ≠ statusOk)
    (hrec' : ∀ c ∈ st0'.registry e', (st'.cmds c).blocked = true ↔ FenceFailure st' c ∨
      ∃ d ∈ (st'.cmds c).pendingDeps, (st'.cmds d).blocked = true ∨ σ' d ≠ statusOk)
    {n : Nat} (hc : c ∈ st0.registry e) (hd : DepthLe (Edge st0.deps) n c) :
    (st'.cmds (π c)).blocked = true ↔ (st.cmds c).blocked = true := by
  have hmem {x : Cid} (hx : x ∈ st0.registry e) : π x ∈ st0'.registry e' :=
    hr.registry.mem_iff.mpr (List.mem_map_of_mem hx)
  induction n generalizing c with
  | zero => exact hd.elim
  | succ n ih =>
    rw [hrec c hc, hrec' (π c) (hmem hc), fenceFailure_iff h' hg' (hmem hc), hr.fences c hc,
      fenceFailure_iff h hg hc, (hg.deps c).commands, (hg'.deps (π c)).commands]
    apply or_congr_right
    constructor
    · rintro ⟨d', hd', hfail⟩
      obtain ⟨d, hdc, rfl⟩ := (hr.commands c hc d').mp hd'
      have hdr := h.closed c hc d hdc
      have hdd : (st'.cmds (π d)).blocked = true ↔ (st.cmds d).blocked = true :=
        ih hdr (hd d hdc)
      rw [hdd, hr.status d hdr] at hfail
      exact ⟨d, hdc, hfail⟩
    · rintro ⟨d, hdc, hfail⟩
      have hdr := h.closed c hc d hdc
      have hdd : (st'.cmds (π d)).blocked = true ↔ (st.cmds d).blocked = true :=
        ih hdr (hd d hdc)
      refine ⟨π d, (hr.commands c hc (π d)).mpr ⟨d, hdc, rfl⟩, ?_⟩
      rw [hdd, hr.status d hdr]
      exact hfail

/-- A decided command is submitted exactly when it is not blocked. -/
theorem submitted_iff (hi : CmdInv st) (hdec : (st.cmds c).undecided = false) :
    (st.cmds c).submitted = true ↔ ¬(st.cmds c).blocked = true := by
  have hex := hi.exclusive c
  revert hdec hex
  unfold PendingCommandState.undecided
  cases (st.cmds c).submitted <;> cases (st.cmds c).blocked <;> simp

/-- A command that was submitted with a dependency that is not satisfied depends on a fence that has
failed: the commands it depends on had completed before. -/
theorem exists_failure (h0 : Reachable st) (h : Registered e σ st) (hco : ¬Coherent e st) :
    ∃ c ∈ st.registry e, (st.cmds c).submitted = true ∧ FenceFailure st c := by
  by_contra hnone
  push Not at hnone
  apply hco
  intro c hc hsub
  have hclear := hnone c hc hsub
  refine ⟨?_, ?_, fun d hd ↦ commandOk_of_submitted h0 hsub hd⟩
  · intro f hf
    refine ⟨h.fences c hc f hf, ?_⟩
    by_contra hst
    exact hclear (.inl ⟨f, hf, h.fences c hc f hf, hst⟩)
  · intro g hg f hf
    refine ⟨h.groups c hc g hg f hf, ?_⟩
    by_contra hst
    exact hclear (.inr ⟨g, hg, f, hf, h.groups c hc g hg f hf, hst⟩)

/-- Such a command is never blocked, whatever rounds follow. -/
theorem not_blocked_of_failure (h0 : Reachable st0) (h : Registered e σ st0)
    (hr : PlainRounds e σ n st0 st) (hc : c ∈ st0.registry e)
    (hsub : (st0.cmds c).submitted = true) (hfail : FenceFailure st0 c) :
    Failure st c ∧ (st.cmds c).blocked = false := by
  have hg := hr.grows (fun _ _ ↦ id) h0
  refine ⟨.inl ((fenceFailure_iff h hg hc).mpr hfail), ?_⟩
  have hex := (cmdInv (hr.reachable h0)).exclusive c
  simpa [hg.submitted c hsub] using hex

/-- What rounds on a coherent engine make of its commands. -/
theorem resolution_of_coherent (h0 : Reachable st0) (h : Registered e σ st0)
    (hn : (st0.registry e).length ≤ n) (hco : Coherent e st0) (hr : PlainRounds e σ n st0 st) :
    Resolution e σ st0 st := by
  have hg := hr.grows (fun _ _ ↦ id) h0
  have hdec := all_decided h0 h hn hr
  refine ⟨fun c hc ↦ submitted_or_blocked (hdec c hc), ?_, ?_⟩
  · intro c hc
    have hreg := hc
    rw [← hg.registry] at hreg
    exact blocked_iff (hr.reachable h0) (coherent_rounds h0 hco hr) hreg (hdec c hc)
  · intro π e' σ' st0' st' n' h0' h' hco' hren hn' hr' c hc
    have hg' := hr'.grows (fun _ _ ↦ id) h0'
    have hblocked := blocked_renamed hren h h' hg hg' (blocked_rounds h0 h hn hco hr)
      (blocked_rounds h0' h' hn' hco' hr') hc (h.depthLe h0 hc)
    have hmem : π c ∈ st0'.registry e' :=
      hren.registry.mem_iff.mpr (List.mem_map_of_mem hc)
    have hdec' := all_decided h0' h' hn' hr' (π c) hmem
    refine ⟨hblocked, ?_⟩
    rw [submitted_iff (cmdInv (hr'.reachable h0')) hdec', hblocked,
      ← submitted_iff (cmdInv (hr.reachable h0)) (hdec c hc)]

/-- Resolution and confluence of the engine: after as many rounds as there are commands every
command is submitted or blocked. That it is blocked exactly when a dependency has failed, and that
neither the order of registration nor that of the completions makes a difference, holds of a run
exactly if the rounds began with no command submitted before its dependencies were satisfied. -/
theorem engine_resolves (h0 : Reachable st0) (h : Registered e σ st0)
    (hn : (st0.registry e).length ≤ n) :
    (∃ st, PlainRounds e σ n st0 st) ∧ ∀ st, PlainRounds e σ n st0 st →
      (∀ c ∈ st0.registry e, (st.cmds c).submitted = true ∨ (st.cmds c).blocked = true) ∧
      (Resolution e σ st0 st ↔ Coherent e st0) := by
  refine ⟨(exists_rounds h0 h.idle n).imp fun _ ↦ And.left, ?_⟩
  intro st hr
  refine ⟨fun c hc ↦ submitted_or_blocked (all_decided h0 h hn hr c hc), ?_,
    fun hco ↦ resolution_of_coherent h0 h hn hco hr⟩
  intro hres
  by_contra hco
  obtain ⟨c, hc, hsub, hfail⟩ := exists_failure h0 h hco
  obtain ⟨hfailed, hb⟩ := not_blocked_of_failure h0 h hr hc hsub hfail
  rw [(hres.blocked c hc).mpr hfailed] at hb
  cases hb

/-- A command depends on a group that is open when `progress()` is called, and a fence that joins
the group afterwards fails: however many rounds follow, the command is not blocked. -/
theorem resolution_leaks : ¬∀ (e : Eid) (σ : Cid → U32) (st0 st : Rt) (n : Nat), Reachable st0 →
    Registered e σ st0 → (st0.registry e).length ≤ n → PlainRounds e σ n st0 st →
      Resolution e σ st0 st := by
  have hrun : (run step Rt.init [.newFence, .newGroup, .groupAdd 0 0, .deferSubmit 0 .zero,
      .dependsOnGroup 0 0, .complete 0 statusOk, .progress 0, .visit, .submitReturn, .visit,
      .newFence, .groupAdd 0 2, .complete 2 1, .groupSeal 0]).any
      (fun st ↦ decide (st.pass = none ∧ st.registry 0 = [0] ∧ (st.cmds 0).submitted = true ∧
        (st.cmds 0).fenceDeps = [] ∧ (st.cmds 0).groupDeps = [0] ∧ (st.cmds 0).pendingDeps = [] ∧
        (st.groups 0).fences = [0, 2] ∧ (st.fences 0).ready = true ∧ (st.fences 2).ready = true ∧
        (st.fences 2).status ≠ statusOk ∧ (st.cmds 0).fence = some 1 ∧
        (st.fences 1).ready = false)) = true := by
    decide +kernel
  obtain ⟨st0, h0, hp⟩ := Reach.exists_of_run hrun
  obtain ⟨hidle, hreg, hsub, hfd, hgd, hpd, hmem, hready0, hready2, hst2, hfence, hunready⟩ :=
    of_decide_eq_true hp
  have hregistered : Registered 0 (fun _ ↦ statusOk) st0 := by
    constructor
    case idle => exact hidle
    all_goals
      intro c hc
      rw [hreg, List.mem_singleton] at hc
      subst hc
    case closed => simp [hpd]
    case fences => simp [hfd]
    case groups => simp [hgd, hmem, hready0, hready2]
    case status => simp [hfence, hunready]
  obtain ⟨st, hr, -⟩ := exists_rounds (σ := fun _ ↦ statusOk) h0 hidle 1
  intro hall
  have hres := hall 0 _ st0 st 1 h0 hregistered (by simp [hreg]) hr
  have hc : 0 ∈ st0.registry 0 := by simp [hreg]
  have hfail : FenceFailure st0 0 :=
    .inr ⟨0, by simp [hgd], 2, by simp [hmem], hready2, hst2⟩
  obtain ⟨hfailed, hb⟩ := not_blocked_of_failure h0 hregistered hr hc hsub hfail
  rw [(hres.blocked 0 hc).mpr hfailed] at hb
  cases hb

/-- Three commands, the first of which depends on the second and the second on the third: the
order of registration is the reverse of that of the dependencies. -/
def chainScript : List Act :=
  [.deferSubmit 0 .zero, .deferSubmit 0 .zero, .deferSubmit 0 .zero, .dependsOnCommand 0 1,
    .dependsOnCommand 1 2]

/-- The chain is deferred, and nothing else has happened. -/
theorem exists_chain : ∃ st : Rt, Reachable st ∧ st.pass = none ∧ st.registry 0 = [0, 1, 2] ∧
    st.deps 0 = [1] ∧ st.deps 1 = [2] ∧
    (∀ c ∈ st.registry 0, ∀ d ∈ (st.cmds c).pendingDeps, d ∈ st.registry 0) ∧
    ∀ c ∈ st.registry 0, (st.cmds c).fenceDeps = [] ∧ (st.cmds c).groupDeps = [] ∧
      (st.cmds c).fence = none ∧ (st.cmds c).submitted = false := by
  have hrun : (run step Rt.init chainScript).any (fun st ↦ decide (st.pass = none ∧
      st.registry 0 = [0, 1, 2] ∧ st.deps 0 = [1] ∧ st.deps 1 = [2] ∧
      (∀ c ∈ st.registry 0, ∀ d ∈ (st.cmds c).pendingDeps, d ∈ st.registry 0) ∧
      ∀ c ∈ st.registry 0, (st.cmds c).fenceDeps = [] ∧ (st.cmds c).groupDeps = [] ∧
        (st.cmds c).fence = none ∧ (st.cmds c).submitted = false)) = true := by decide +kernel
  obtain ⟨st, hr, hp⟩ := Reach.exists_of_run hrun
  exact ⟨st, hr, of_decide_eq_true hp⟩

/-- The middle command of the chain completes with an error. -/
theorem engine_resolves_chain : ∃ st0 : Rt, Reachable st0 ∧ st0.registry 0 = [0, 1, 2] ∧
    st0.deps 0 = [1] ∧ st0.deps 1 = [2] ∧
    Registered 0 (fun c ↦ if c = 1 then 1 else statusOk) st0 ∧
    (∃ st, PlainRounds 0 (fun c ↦ if c = 1 then 1 else statusOk) 3 st0 st) ∧
      ∀ st, PlainRounds 0 (fun c ↦ if c = 1 then 1 else statusOk) 3 st0 st →
        Resolution 0 (fun c ↦ if c = 1 then 1 else statusOk) st0 st := by
  obtain ⟨st0, hr, hidle, hreg, hd0, hd1, hclosed, hall⟩ := exists_chain
  have hregistered : Registered 0 (fun c ↦ if c = 1 then 1 else statusOk) st0 := by
    refine ⟨hidle, hclosed, ?_, ?_, ?_⟩
    · intro c hc f hf
      rw [(hall c hc).1] at hf
      cases hf
    · intro c hc g hg
      rw [(hall c hc).2.1] at hg
      cases hg
    · intro c hc f hf
      rw [(hall c hc).2.2.1] at hf
      cases hf
  have hco : Coherent 0 st0 := by
    intro c hc hs
    rw [(hall c hc).2.2.2] at hs
    cases hs
  have hlen : (st0.registry 0).length ≤ 3 := by simp [hreg]
  obtain ⟨hrounds, hall⟩ := engine_resolves hr hregistered hlen
  exact ⟨st0, hr, hreg, hd0, hd1, hregistered, hrounds, fun st hst ↦ (hall st hst).2.mpr hco⟩

end DmaAccel.Dependency
