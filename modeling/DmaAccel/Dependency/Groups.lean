import DmaAccel.Dependency.Safety

/-!
# Dependencies on a group

Source `track-c/runtime/dma_accel_dependency.cpp`, the scan of `group_deps` in
`DependencyEngine::progress` (151–167), and `track-c/runtime/dma_accel_command_group.cpp`
(44–65). `query()` and `wait()` refuse a group that is still open, because its membership is
not fixed; `progress()` reads the members it finds without asking. A group dependency covers
the whole group as long as no command gets through while one of its groups is open.
-/

namespace DmaAccel.Dependency

open DmaAccel.Base
open DmaAccel.Driver (U32 SubmitReq statusOk)

/-- The groups of every submitted command are sealed, and all their members have completed
with `DMA_ACCEL_OK`. -/
def GroupsCovered (st : Rt) : Prop :=
  ∀ c, (st.cmds c).submitted = true → ∀ g ∈ (st.cmds c).groupDeps,
    (st.groups g).isSealed = true ∧ ∀ f ∈ (st.groups g).fences, (st.fences f).Ok

/-- When `progress()` comes to an undecided command whose dependencies are all satisfied, the
groups of the command have been sealed. -/
def SealedFirst (st : Rt) (a : Act) : Prop :=
  a = .visit → ∀ c rest, st.pass = some ⟨c :: rest, none⟩ → (st.cmds c).undecided = true →
    Satisfied st c → ∀ g ∈ (st.cmds c).groupDeps, (st.groups g).isSealed = true

/-- Only groups that exist are sealed. -/
def SealedExist (st : Rt) : Prop := ∀ g, (st.groups g).isSealed = true → g < st.ngroups

variable {st st' : Rt} {a : Act}

/-- For a sealed group `query()` and the scan of `progress()` look for the same thing. -/
theorem query_eq_allOk {g : Gid} :
    st.query g = .ok .allOk ↔
      (st.groups g).isSealed = true ∧ ∀ f ∈ (st.groups g).fences, (st.fences f).Ok := by
  unfold Rt.query
  split
  · next hs => simp_all
  · next hs =>
    split
    · next hp =>
      obtain ⟨f, hf, hr⟩ := List.any_eq_true.mp hp
      refine ⟨nofun, fun h ↦ ?_⟩
      simp [(h.2 f hf).1] at hr
    · next hp =>
      split
      · next hst =>
        obtain ⟨f, hf, hne⟩ := List.any_eq_true.mp hst
        refine ⟨nofun, fun h ↦ ?_⟩
        exact (of_decide_eq_true hne (h.2 f hf).2).elim
      · next hst =>
        refine ⟨fun _ ↦ ⟨by simpa using hs, fun f hf ↦ ⟨?_, ?_⟩⟩, fun _ ↦ rfl⟩
        · by_contra hr
          exact hp (List.any_eq_true.mpr ⟨f, hf, by simpa using hr⟩)
        · by_contra hne
          exact hst (List.any_eq_true.mpr ⟨f, hf, decide_eq_true hne⟩)

/-- A sealed group keeps its members. -/
theorem Trans.groups_sealed (h : Trans st a st') (hex : SealedExist st) {g : Gid}
    (hg : (st.groups g).isSealed = true) : st'.groups g = st.groups g := by
  cases h with
  | newGroup hp => exact Function.update_of_ne (Nat.ne_of_lt (hex g hg)) _ _
  | groupAdd g' f hp hg' hf hopen =>
    refine Function.update_of_ne ?_ _ _
    rintro rfl
    rw [hopen] at hg
    cases hg
  | groupSeal g' hp hg' =>
    by_cases he : g = g'
    · subst he
      refine (Function.update_self _ _ _).trans ?_
      rw [← hg]
    · exact Function.update_of_ne he _ _
  | _ => rfl

private theorem sealedExist_step (hi : SealedExist st) (h : Trans st a st') :
    SealedExist st' := by
  have hcell {g' : Gid} {x : CommandGroup} (hg : st'.groups = Function.update st.groups g' x)
      (hlt : g' < st'.ngroups) (hle : st.ngroups ≤ st'.ngroups) : SealedExist st' := by
    intro g hs
    by_cases he : g = g'
    · rw [he]
      exact hlt
    · rw [hg, Function.update_of_ne he] at hs
      exact (hi g hs).trans_le hle
  cases h with
  | newGroup hp => exact hcell rfl (Nat.lt_succ_self _) (Nat.le_succ _)
  | groupAdd g f hp hg hf hopen => exact hcell rfl hg (Nat.le_refl _)
  | groupSeal g hp hg => exact hcell rfl hg (Nat.le_refl _)
  | _ => exact hi

/-- Sealed groups exist in every reachable state. -/
theorem sealedExist (h : Reachable st) : SealedExist st :=
  invariant_of_trans (fun _ hg ↦ by cases hg) (fun _ _ _ _ hi _ ht ↦ sealedExist_step hi ht) h

/-- A submitted command gets no further dependency on a group. -/
theorem Trans.groupDeps_submitted (h : Trans st a st') (hi : CmdInv st) {c : Cid}
    (hc : (st.cmds c).submitted = true) : (st'.cmds c).groupDeps = (st.cmds c).groupDeps := by
  have hcell {d : Cid} {x : PendingCommandState} (hcmds : st'.cmds = Function.update st.cmds d x)
      (hx : (st.cmds d).submitted = true → x.groupDeps = (st.cmds d).groupDeps) :
      (st'.cmds c).groupDeps = (st.cmds c).groupDeps := by
    rw [hcmds]
    by_cases he : c = d
    · rw [he, Function.update_self]
      exact hx (he ▸ hc)
    · rw [Function.update_of_ne he]
  cases h with
  | deferSubmit e req hp =>
    refine hcell rfl fun hs ↦ ?_
    rw [(hi.blank st.ncmds (Nat.le_refl _)).1] at hs
    cases hs
  | dependsOnGroup d g hp hd hg hs =>
    refine hcell rfl fun hs' ↦ ?_
    rw [hs] at hs'
    cases hs'
  | dependsOnFence d f hp hd hf hs => exact hcell rfl fun _ ↦ rfl
  | dependsOnCommand d e hp hd he hs hr => exact hcell rfl fun _ ↦ rfl
  | block d rest hp hu hv => exact hcell rfl fun _ ↦ rfl
  | submitReturn d rest hp => exact hcell rfl fun _ ↦ rfl
  | _ => rfl

/-- Where `submit_fn` runs, the groups of its command are sealed. -/
private theorem calling_sealed (h : Reach step SealedFirst Rt.init st) {c : Cid}
    {rest : List Cid} (hp : st.pass = some ⟨rest, some c⟩) :
    ∀ g ∈ (st.cmds c).groupDeps, (st.groups g).isSealed = true := by
  induction h generalizing c rest with
  | start => cases hp
  | @next st st' a hr hok hs ih =>
    have ht := trans_of_step hs
    obtain ⟨hcmds, hgroups, hpass⟩ := ht.calling_cases hp
    rw [hcmds, hgroups]
    rcases hpass with hpass | ⟨hpass, hu, hv⟩
    · exact ih hpass
    · have ha : a = .visit := by
        cases ht <;> simp_all
      exact hok ha c rest hpass hu (satisfied_of_verdict hv)

/-- Where no command gets through while one of its groups is open, a dependency on a group
covers every fence that is ever in it. -/
theorem group_dependency_covers (h : Reach step SealedFirst Rt.init st) : GroupsCovered st := by
  induction h with
  | start => exact fun _ hc ↦ by cases hc
  | @next st st' a hr hok hs ih =>
    have ht := trans_of_step hs
    have hi := cmdInv hr.any
    have hkeep {c : Cid} {g : Gid} (hg : g ∈ (st.cmds c).groupDeps)
        (hcov : (st.groups g).isSealed = true ∧ ∀ f ∈ (st.groups g).fences, (st.fences f).Ok) :
        (st'.groups g).isSealed = true ∧ ∀ f ∈ (st'.groups g).fences, (st'.fences f).Ok := by
      rw [ht.groups_sealed (sealedExist hr.any) hcov.1]
      exact ⟨hcov.1, fun f hf ↦ ht.fence_ok hi (hcov.2 f hf)⟩
    intro c hc g hg
    rcases ht.decision_cases hi c with hsame | ⟨-, hu, -, he⟩ | ⟨⟨rest, hp⟩, he⟩
    · rw [hsame.submitted] at hc
      rw [ht.groupDeps_submitted hi hc] at hg
      exact hkeep hg (ih c hc g hg)
    · rw [he, (undecided_iff.mp hu).1] at hc
      cases hc
    · rw [he] at hg
      have hsat := calling_satisfied hr.any hp
      exact hkeep hg ⟨calling_sealed hr hp g hg, hsat.groups g hg⟩

/-- A command waits for a group of two that is sealed before `progress()` is called. -/
theorem group_dependency_covers_pair : ∃ st : Rt, Reach step SealedFirst Rt.init st ∧
    (st.cmds 0).submitted = true ∧ (st.cmds 0).groupDeps = [0] ∧
      (st.groups 0).fences = [0, 1] ∧ GroupsCovered st := by
  have hrun : (runChecked step (fun st a ↦ a != .visit || st.pass.all fun p ↦
      p.rest.head?.all fun c ↦ (st.cmds c).groupDeps.all fun g ↦ (st.groups g).isSealed)
      Rt.init [.newFence, .newFence, .newGroup, .groupAdd 0 0, .deferSubmit 0 .zero,
        .dependsOnGroup 0 0, .groupAdd 0 1, .groupSeal 0, .complete 1 statusOk,
        .complete 0 statusOk, .progress 0, .visit, .submitReturn]).any
      (fun st ↦ decide ((st.cmds 0).submitted = true ∧ (st.cmds 0).groupDeps = [0] ∧
        (st.groups 0).fences = [0, 1])) = true := by decide +kernel
  obtain ⟨st, hr, hp⟩ : ∃ st, Reach step SealedFirst Rt.init st ∧ _ :=
    Reach.exists_of_runChecked (fun st a hc ↦ by
      rintro rfl c rest hp - - g hg
      simp only [hp, bne_self_eq_false, Bool.false_or, Option.all_some, List.head?_cons] at hc
      exact List.all_eq_true.mp hc g hg) hrun
  obtain ⟨hs, hg, hf⟩ := of_decide_eq_true hp
  exact ⟨st, hr, hs, hg, hf, group_dependency_covers hr⟩

/-- A command depends on a group that is still open when `progress()` is called: it is
submitted, and a fence that joins the group afterwards fails before the group is sealed. -/
theorem group_dependency_leaks : ¬∀ st : Rt, Reachable st → GroupsCovered st := by
  have hrun : (run step Rt.init [.newFence, .newGroup, .groupAdd 0 0, .deferSubmit 0 .zero,
      .dependsOnGroup 0 0, .complete 0 statusOk, .progress 0, .visit, .submitReturn, .visit,
      .newFence, .groupAdd 0 2, .complete 2 1, .groupSeal 0]).any
      (fun st ↦ decide ((st.cmds 0).submitted = true ∧ (st.cmds 0).groupDeps = [0] ∧
        2 ∈ (st.groups 0).fences ∧ (st.fences 2).status ≠ statusOk)) = true := by
    decide +kernel
  obtain ⟨st, hr, hp⟩ := Reach.exists_of_run hrun
  obtain ⟨hs, hg, hmem, hst⟩ := of_decide_eq_true hp
  intro hall
  have hcov := hall st hr 0 hs 0 (hg ▸ List.mem_cons_self)
  exact hst (hcov.2 2 hmem).2

end DmaAccel.Dependency
