import DmaAccel.Dependency.Engine

/-!
# Decisions and verdicts

A command is decided once: `progress()` marks it blocked, or its `submit_fn` returns a fence.
`DecisionMove` says what a step can do to the decisions, `CmdInv` what holds of them in every
reachable state. The verdict of the three scans is read off in terms of the dependencies:
`Satisfied` where all of them are ready with `DMA_ACCEL_OK`, `Failure` where one has failed.
-/

namespace DmaAccel.Dependency

open DmaAccel.Base
open DmaAccel.Driver (U32 SubmitReq statusOk)

/-- The command completed with `DMA_ACCEL_OK`. -/
def FenceState.Ok (f : FenceState) : Prop := f.ready = true ∧ f.status = statusOk

/-- The command completed with another status. -/
def FenceState.Failed (f : FenceState) : Prop := f.ready = true ∧ f.status ≠ statusOk

/-- The command has been submitted and has completed with `DMA_ACCEL_OK`. -/
def Rt.CommandOk (st : Rt) (d : Cid) : Prop := ∃ f, (st.cmds d).fence = some f ∧ (st.fences f).Ok

/-- The command is blocked, or has completed with another status. -/
def Rt.CommandFailed (st : Rt) (d : Cid) : Prop :=
  (st.cmds d).blocked = true ∨ ∃ f, (st.cmds d).fence = some f ∧ (st.fences f).Failed

/-- All dependencies of a command are ready with `DMA_ACCEL_OK`: the fences moved in, the
fences now in its groups, and the fences of the commands it depends on. -/
structure Satisfied (st : Rt) (c : Cid) : Prop where
  fences : ∀ f ∈ (st.cmds c).fenceDeps, (st.fences f).Ok
  groups : ∀ g ∈ (st.cmds c).groupDeps, ∀ f ∈ (st.groups g).fences, (st.fences f).Ok
  commands : ∀ d ∈ (st.cmds c).pendingDeps, st.CommandOk d

/-- A fence moved in or a fence in a group of the command has failed. -/
def FenceFailure (st : Rt) (c : Cid) : Prop :=
  (∃ f ∈ (st.cmds c).fenceDeps, (st.fences f).Failed) ∨
    ∃ g ∈ (st.cmds c).groupDeps, ∃ f ∈ (st.groups g).fences, (st.fences f).Failed

/-- One of the dependencies of a command has failed. -/
def Failure (st : Rt) (c : Cid) : Prop :=
  FenceFailure st c ∨ ∃ d ∈ (st.cmds c).pendingDeps, st.CommandFailed d

variable {st st' : Rt} {a : Act}

section Scans

variable {α : Type} {v : α → Verdict} {l : List α}

/-- A scan is clear when every test is. -/
theorem scan_eq_clear : scan v l = .clear ↔ ∀ x ∈ l, v x = .clear := by
  induction l with
  | nil => simp [scan]
  | cons x l ih =>
    rw [List.forall_mem_cons, ← ih]
    cases hx : v x <;> simp [scan, hx]

/-- A scan that is not clear ends at a test with its result. -/
theorem exists_of_scan {r : Verdict} (h : scan v l = r) (hr : r ≠ .clear) : ∃ x ∈ l, v x = r := by
  induction l with
  | nil => exact absurd h.symm hr
  | cons x l ih =>
    cases hx : v x with
    | clear =>
      simp only [scan, hx] at h
      obtain ⟨y, hy, hv⟩ := ih h
      exact ⟨y, List.mem_cons_of_mem x hy, hv⟩
    | pending | failed =>
      simp only [scan, hx] at h
      exact ⟨x, List.mem_cons_self, hx.trans h⟩

end Scans

/-- The test of a fence, read off its state. -/
theorem FenceState.verdict_cases (f : FenceState) :
    (f.verdict = .clear ↔ f.Ok) ∧ (f.verdict = .failed ↔ f.Failed) ∧
      (f.verdict = .pending ↔ f.ready = false) := by
  unfold FenceState.verdict FenceState.Ok FenceState.Failed
  cases f.ready <;> by_cases hs : f.status = statusOk <;> simp [hs]

/-- A command that passes the test has completed with `DMA_ACCEL_OK`. -/
theorem commandOk_of_depVerdict {d : Cid} (h : st.depVerdict d = .clear) : st.CommandOk d := by
  simp only [Rt.depVerdict] at h
  split at h
  · cases h
  · split at h
    · cases h
    · split at h
      · next f hf => exact ⟨f, hf, (st.fences f).verdict_cases.1.mp h⟩
      · cases h

/-- A command that fails the test is blocked or has completed with another status. -/
theorem commandFailed_of_depVerdict {d : Cid} (h : st.depVerdict d = .failed) :
    st.CommandFailed d := by
  simp only [Rt.depVerdict] at h
  split at h
  · next hb => exact .inl hb
  · split at h
    · cases h
    · split at h
      · next f hf => exact .inr ⟨f, hf, (st.fences f).verdict_cases.2.1.mp h⟩
      · cases h

/-- `progress()` submits only commands whose dependencies are all satisfied. -/
theorem satisfied_of_verdict {c : Cid} (h : st.verdict c = .clear) : Satisfied st c := by
  simp only [Rt.verdict] at h
  split at h
  · next hf =>
    split at h
    · next hg =>
      refine ⟨?_, ?_, ?_⟩
      · intro f hmem
        exact (st.fences f).verdict_cases.1.mp (scan_eq_clear.mp hf f hmem)
      · intro g hmem f hmem'
        have hclear := scan_eq_clear.mp (scan_eq_clear.mp hg g hmem) f hmem'
        exact (st.fences f).verdict_cases.1.mp hclear
      · intro d hmem
        exact commandOk_of_depVerdict (scan_eq_clear.mp h d hmem)
    · cases h
    · cases h
  · cases h
  · cases h

/-- `progress()` blocks only commands one of whose dependencies has failed. -/
theorem failure_of_verdict {c : Cid} (h : st.verdict c = .failed) : Failure st c := by
  simp only [Rt.verdict] at h
  split at h
  · split at h
    · obtain ⟨d, hmem, hd⟩ := exists_of_scan h (by simp)
      exact .inr ⟨d, hmem, commandFailed_of_depVerdict hd⟩
    · cases h
    · next hg =>
      obtain ⟨g, hmem, hgf⟩ := exists_of_scan hg (by simp)
      obtain ⟨f, hmem', hf⟩ := exists_of_scan hgf (by simp)
      exact .inl (.inr ⟨g, hmem, f, hmem', (st.fences f).verdict_cases.2.1.mp hf⟩)
  · cases h
  · next hf =>
    obtain ⟨f, hmem, hf⟩ := exists_of_scan hf (by simp)
    exact .inl (.inl ⟨f, hmem, (st.fences f).verdict_cases.2.1.mp hf⟩)

/-- The decision about a command is the same. -/
structure SameDecision (x x' : PendingCommandState) : Prop where
  fence : x'.fence = x.fence
  submitted : x'.submitted = x.submitted
  blocked : x'.blocked = x.blocked

/-- What a step does to the decisions. -/
inductive DecisionMove (st st' : Rt) : Prop where
  | keep : (∀ c, SameDecision (st.cmds c) (st'.cmds c)) → st'.ncmds = st.ncmds →
      st.nfences ≤ st'.nfences → st'.returned = st.returned → DecisionMove st st'
  | enter (req : SubmitReq) : st'.cmds = Function.update st.cmds st.ncmds (.fresh req) →
      st'.ncmds = st.ncmds + 1 → st'.nfences = st.nfences → st'.returned = st.returned →
      DecisionMove st st'
  | block (c : Cid) (rest : List Cid) : st.pass = some ⟨c :: rest, none⟩ →
      (st.cmds c).undecided = true → Failure st c →
      st'.cmds = Function.update st.cmds c { st.cmds c with blocked := true } →
      st'.ncmds = st.ncmds → st'.nfences = st.nfences → st'.returned = st.returned →
      DecisionMove st st'
  | submit (c : Cid) (rest : List Cid) : st.pass = some ⟨rest, some c⟩ →
      st'.cmds = Function.update st.cmds c
        { st.cmds c with fence := some st.nfences, submitted := true } →
      st'.ncmds = st.ncmds → st'.nfences = st.nfences + 1 →
      st'.returned = st.returned ++ [c] → DecisionMove st st'

/-- A change of one command that is not a decision. -/
private theorem sameDecision_update {c : Cid} {x : PendingCommandState}
    (h : SameDecision (st.cmds c) x) (d : Cid) :
    SameDecision (st.cmds d) (Function.update st.cmds c x d) := by
  by_cases hd : d = c
  · rw [hd, Function.update_self]
    exact h
  · rw [Function.update_of_ne hd]
    exact ⟨rfl, rfl, rfl⟩

/-- Decisions change only at registration, at a visit that blocks and at a return. -/
theorem Trans.decisionMove (h : Trans st a st') : DecisionMove st st' := by
  cases h with
  | deferSubmit e req hp => exact .enter req rfl rfl rfl rfl
  | block c rest hp hu hv => exact .block c rest hp hu (failure_of_verdict hv) rfl rfl rfl rfl
  | submitReturn c rest hp => exact .submit c rest hp rfl rfl rfl rfl
  | dependsOnFence c f hp hc hf hs =>
    exact .keep (sameDecision_update ⟨rfl, rfl, rfl⟩) rfl (Nat.le_refl _) rfl
  | dependsOnGroup c g hp hc hg hs =>
    exact .keep (sameDecision_update ⟨rfl, rfl, rfl⟩) rfl (Nat.le_refl _) rfl
  | dependsOnCommand c d hp hc hd hs hr =>
    exact .keep (sameDecision_update ⟨rfl, rfl, rfl⟩) rfl (Nat.le_refl _) rfl
  | newFence hp => exact .keep (fun _ ↦ ⟨rfl, rfl, rfl⟩) rfl (Nat.le_succ _) rfl
  | _ => exact .keep (fun _ ↦ ⟨rfl, rfl, rfl⟩) rfl (Nat.le_refl _) rfl

/-- Fences change only by becoming ready, or by being built. -/
theorem Trans.fence_cases (h : Trans st a st') :
    (∀ f, (st.fences f).ready = true → f < st.nfences → st'.fences f = st.fences f) ∧
      ∀ f, (st'.fences f).ready = true → (st.fences f).ready = true ∨
        f < st.nfences ∧ ∃ status, a = .complete f status ∧ st'.fences f = ⟨true, status⟩ := by
  have hnew (f : Fid) (hf : f < st.nfences) :
      Function.update st.fences st.nfences .fresh f = st.fences f :=
    Function.update_of_ne (Nat.ne_of_lt hf) _ _
  have hold (f : Fid)
      (hr : (Function.update st.fences st.nfences FenceState.fresh f).ready = true) :
      (st.fences f).ready = true := by
    by_cases hf : f = st.nfences
    · rw [hf, Function.update_self] at hr
      cases hr
    · rwa [Function.update_of_ne hf] at hr
  cases h with
  | newFence hp => exact ⟨fun f _ hf ↦ hnew f hf, fun f hr ↦ .inl (hold f hr)⟩
  | submitReturn c rest hp => exact ⟨fun f _ hf ↦ hnew f hf, fun f hr ↦ .inl (hold f hr)⟩
  | complete g status hg hu =>
    have hne {f : Fid} (hfg : f ≠ g) :
        Function.update st.fences g ⟨true, status⟩ f = st.fences f :=
      Function.update_of_ne hfg _ _
    constructor
    · intro f hr _
      refine hne ?_
      rintro rfl
      rw [hu] at hr
      cases hr
    · intro f hr
      by_cases hfg : f = g
      · subst hfg
        exact .inr ⟨hg, status, rfl, Function.update_self _ _ _⟩
      · rw [← hne hfg]
        exact .inl hr
  | _ => exact ⟨fun _ _ _ ↦ rfl, fun _ hr ↦ .inl hr⟩

/-- While `submit_fn` of a command runs nothing but completions happens; before, `progress()`
found the command undecided and its dependencies satisfied. -/
theorem Trans.calling_cases (h : Trans st a st') {c : Cid} {rest : List Cid}
    (hp' : st'.pass = some ⟨rest, some c⟩) :
    st'.cmds = st.cmds ∧ st'.groups = st.groups ∧
      (st.pass = some ⟨rest, some c⟩ ∨ st.pass = some ⟨c :: rest, none⟩ ∧
        (st.cmds c).undecided = true ∧ st.verdict c = .clear) := by
  have hnone (hp : st.pass = none) (he : st'.pass = st.pass) : False := by
    rw [he, hp] at hp'
    cases hp'
  cases h with
  | stutter => exact ⟨rfl, rfl, .inl hp'⟩
  | complete f status hf hr => exact ⟨rfl, rfl, .inl hp'⟩
  | call d rest' hp hu hv =>
    cases hp'
    exact ⟨rfl, rfl, .inr ⟨hp, hu, hv⟩⟩
  | progress e hp => cases hp'
  | finish hp => cases hp'
  | skip d rest' hp hu => cases hp'
  | block d rest' hp hu hv => cases hp'
  | wait d rest' hp hu hv => cases hp'
  | submitReturn d rest' hp => cases hp'
  | submitThrow d rest' hp => cases hp'
  | newFence hp => exact (hnone hp rfl).elim
  | newGroup hp => exact (hnone hp rfl).elim
  | groupAdd g f hp => exact (hnone hp rfl).elim
  | groupSeal g hp => exact (hnone hp rfl).elim
  | deferSubmit e req hp => exact (hnone hp rfl).elim
  | dependsOnFence d f hp => exact (hnone hp rfl).elim
  | dependsOnGroup d g hp => exact (hnone hp rfl).elim
  | dependsOnCommand d e hp => exact (hnone hp rfl).elim

/-- What a step makes of the call of `progress()`. It passes over an entry whose verdict is pending
or that is decided. -/
inductive Moves (st : Rt) (a : Act) (st' : Rt) : Prop where
  | keep : st'.pass = st.pass → Moves st a st'
  | start (e : Eid) : a = .progress e → st'.pass = some ⟨st.registry e, none⟩ → Moves st a st'
  | finish : st.pass = some ⟨[], none⟩ → st'.pass = none → Moves st a st'
  | next (c : Cid) (rest : List Cid) : st.pass = some ⟨c :: rest, none⟩ →
      st'.pass = some ⟨rest, none⟩ →
      (st.verdict c = .pending ∨ (st'.cmds c).undecided = false) → Moves st a st'
  | call (c : Cid) (rest : List Cid) : st.pass = some ⟨c :: rest, none⟩ →
      st'.pass = some ⟨rest, some c⟩ → Moves st a st'
  | submitReturn (c : Cid) (rest : List Cid) : a = .submitReturn →
      st.pass = some ⟨rest, some c⟩ → st'.pass = some ⟨rest, none⟩ →
      (st'.cmds c).undecided = false → Moves st a st'
  | submitThrow (c : Cid) (rest : List Cid) : a = .submitThrow →
      st.pass = some ⟨rest, some c⟩ → st'.pass = none → Moves st a st'

theorem Trans.moves (h : Trans st a st') : Moves st a st' := by
  cases h with
  | progress e hp => exact .start e rfl rfl
  | finish hp => exact .finish hp rfl
  | skip c rest hp hu => exact .next c rest hp rfl (.inr hu)
  | block c rest hp hu hv =>
    exact .next c rest hp rfl (.inr (by simp [PendingCommandState.undecided]))
  | wait c rest hp hu hv => exact .next c rest hp rfl (.inl hv)
  | call c rest hp hu hv => exact .call c rest hp rfl
  | submitReturn c rest hp =>
    exact .submitReturn c rest rfl hp rfl (by simp [PendingCommandState.undecided])
  | submitThrow c rest hp => exact .submitThrow c rest rfl hp rfl
  | _ => exact .keep rfl

/-- A call of `progress()` begins at the head of a registry and goes on from there. -/
theorem Moves.behind (h : Moves st a st') {p' : Pass} (hp' : st'.pass = some p') :
    (∃ e, a = .progress e ∧ p' = ⟨st.registry e, none⟩) ∨
      ∃ p, st.pass = some p ∧ ∀ l : List Cid, (∃ done, l = done ++ p.calling.toList ++ p.rest) →
        ∃ done, l = done ++ p'.calling.toList ++ p'.rest := by
  have hgo {p q : Pass} (x : List Cid) (hp : st.pass = some p) (hq : st'.pass = some q)
      (hx : p.calling.toList ++ p.rest = x ++ q.calling.toList ++ q.rest) :
      ∃ p, st.pass = some p ∧ ∀ l : List Cid, (∃ done, l = done ++ p.calling.toList ++ p.rest) →
        ∃ done, l = done ++ p'.calling.toList ++ p'.rest := by
    rw [hq] at hp'
    cases hp'
    refine ⟨p, hp, ?_⟩
    rintro l ⟨done, rfl⟩
    refine ⟨done ++ x, ?_⟩
    rw [List.append_assoc, hx]
    simp only [List.append_assoc]
  cases h with
  | keep he => exact .inr (hgo [] (he ▸ hp') hp' rfl)
  | start e he hs =>
    rw [hs] at hp'
    cases hp'
    exact .inl ⟨e, he, rfl⟩
  | finish _ he =>
    rw [he] at hp'
    cases hp'
  | submitThrow _ _ _ _ he =>
    rw [he] at hp'
    cases hp'
  | next c rest hp he => exact .inr (hgo [c] hp he rfl)
  | call c rest hp he => exact .inr (hgo [] hp he rfl)
  | submitReturn c rest _ hp he => exact .inr (hgo [c] hp he rfl)

/-- The registries of a reachable state; a call of `progress()` is somewhere in one of them. -/
structure RegInv (st : Rt) : Prop where
  listed : ∀ e, ∀ c ∈ st.registry e, c < st.ncmds
  nodup : ∀ e, (st.registry e).Nodup
  pass : ∀ p, st.pass = some p → ∃ e done, st.registry e = done ++ p.calling.toList ++ p.rest

namespace RegInv

/-- Steps that leave the registries alone. -/
private theorem keep (hi : RegInv st) (hr : st'.registry = st.registry)
    (hn : st.ncmds ≤ st'.ncmds) (hm : Moves st a st') : RegInv st' where
  listed e c hc := by
    rw [hr] at hc
    exact (hi.listed e c hc).trans_le hn
  nodup e := by
    rw [hr]
    exact hi.nodup e
  pass p' hp' := by
    rw [hr]
    rcases hm.behind hp' with ⟨e, -, rfl⟩ | ⟨p, hp, hgo⟩
    · exact ⟨e, [], rfl⟩
    · exact (hi.pass p hp).imp fun e ↦ hgo _

/-- Registration appends a command that no registry has. -/
private theorem enter (hi : RegInv st) (e : Eid) (req : SubmitReq) (hp : st.pass = none) :
    RegInv (deferRegister st e req) := by
  have hreg (e' : Eid) : (deferRegister st e req).registry e' = st.registry e' ∨
      (deferRegister st e req).registry e' = st.registry e' ++ [st.ncmds] := by
    by_cases he : e' = e
    · subst he
      exact .inr (Function.update_self _ _ _)
    · exact .inl (Function.update_of_ne he _ _)
  refine ⟨?_, ?_, ?_⟩
  · intro e' c hc
    rcases hreg e' with he | he <;> rw [he] at hc
    · exact Nat.lt_succ_of_lt (hi.listed e' c hc)
    · rcases List.mem_append.mp hc with hc | hc
      · exact Nat.lt_succ_of_lt (hi.listed e' c hc)
      · rw [List.mem_singleton.mp hc]
        exact Nat.lt_succ_self _
  · intro e'
    rcases hreg e' with he | he <;> rw [he]
    · exact hi.nodup e'
    · rw [List.nodup_append]
      refine ⟨hi.nodup e', List.nodup_singleton _, ?_⟩
      intro c hc d hd hcd
      rw [List.mem_singleton.mp hd] at hcd
      exact Nat.ne_of_lt (hi.listed e' c hc) hcd
  · intro p hp'
    have hnone : (deferRegister st e req).pass = none := hp
    rw [hnone] at hp'
    cases hp'

/-- Every step keeps the registries in order. -/
theorem step (hi : RegInv st) (h : Trans st a st') : RegInv st' := by
  have hm := h.moves
  cases h with
  | deferSubmit e req hp => exact hi.enter e req hp
  | _ => exact hi.keep rfl (Nat.le_refl _) hm

/-- A command that `progress()` deals with exists. -/
theorem lt_of_pass (hi : RegInv st) {p : Pass} (hp : st.pass = some p) {c : Cid}
    (hc : c ∈ p.calling.toList ++ p.rest) : c < st.ncmds := by
  obtain ⟨e, done, he⟩ := hi.pass p hp
  refine hi.listed e c ?_
  rw [he, List.append_assoc]
  exact List.mem_append_right _ hc

/-- There is nothing in the registries yet. -/
theorem init : RegInv Rt.init := ⟨nofun, fun _ ↦ List.nodup_nil, nofun⟩

end RegInv

/-- The registries of every reachable state. -/
theorem regInv (h : Reachable st) : RegInv st :=
  invariant_of_trans RegInv.init (fun _ _ _ _ hi _ ht ↦ hi.step ht) h

/-- The commands of a reachable state. -/
structure CmdInv (st : Rt) : Prop where
  ready_lt : ∀ f, (st.fences f).ready = true → f < st.nfences
  blank : ∀ c, st.ncmds ≤ c → (st.cmds c).submitted = false ∧ (st.cmds c).blocked = false
  fence : ∀ c, (st.cmds c).submitted = (st.cmds c).fence.isSome
  fence_lt : ∀ c f, (st.cmds c).fence = some f → f < st.nfences
  inj : ∀ c d f, (st.cmds c).fence = some f → (st.cmds d).fence = some f → c = d
  exclusive : ∀ c, ¬((st.cmds c).submitted = true ∧ (st.cmds c).blocked = true)
  calling : ∀ c rest, st.pass = some ⟨rest, some c⟩ → (st.cmds c).undecided = true
  returned : ∀ c, c ∈ st.returned ↔ (st.cmds c).submitted = true
  nodup : st.returned.Nodup

/-- Neither submitted nor blocked, spelled out. -/
theorem undecided_iff {x : PendingCommandState} :
    x.undecided = true ↔ x.submitted = false ∧ x.blocked = false := by
  cases hs : x.submitted <;> cases hb : x.blocked <;> simp [PendingCommandState.undecided, hs, hb]

/-- A decision is one or the other. -/
theorem submitted_or_blocked {x : PendingCommandState} (h : x.undecided = false) :
    x.submitted = true ∨ x.blocked = true := by
  unfold PendingCommandState.undecided at h
  rwa [Bool.not_eq_false', Bool.or_eq_true] at h

namespace CmdInv

/-- A command without a decision has no fence. -/
theorem fence_none (hi : CmdInv st) {c : Cid} (h : (st.cmds c).submitted = false) :
    (st.cmds c).fence = none := by
  have hf := hi.fence c
  rw [h] at hf
  exact Option.isNone_iff_eq_none.mp (by simpa using hf.symm)

private theorem keep (hi : CmdInv st) (ht : Trans st a st')
    (h : ∀ c, SameDecision (st.cmds c) (st'.cmds c)) (hn : st'.ncmds = st.ncmds)
    (hf : st.nfences ≤ st'.nfences) (hr : st'.returned = st.returned) : CmdInv st' where
  ready_lt f hready := by
    rcases ht.fence_cases.2 f hready with hready | ⟨hlt, -⟩
    · exact (hi.ready_lt f hready).trans_le hf
    · exact hlt.trans_le hf
  blank c hc := by
    rw [hn] at hc
    rw [(h c).submitted, (h c).blocked]
    exact hi.blank c hc
  fence c := by
    rw [(h c).submitted, (h c).fence]
    exact hi.fence c
  fence_lt c f hcf := by
    rw [(h c).fence] at hcf
    exact (hi.fence_lt c f hcf).trans_le hf
  inj c d f hc hd := by
    rw [(h c).fence] at hc
    rw [(h d).fence] at hd
    exact hi.inj c d f hc hd
  exclusive c := by
    rw [(h c).submitted, (h c).blocked]
    exact hi.exclusive c
  calling c rest hp := by
    obtain ⟨hcmds, -, hp | ⟨-, hu, -⟩⟩ := ht.calling_cases hp <;> rw [hcmds]
    · exact hi.calling c rest hp
    · exact hu
  returned c := by
    rw [hr, (h c).submitted]
    exact hi.returned c
  nodup := by
    rw [hr]
    exact hi.nodup

/-- One cell of the commands changes outside of `submit_fn`. -/
private theorem cell (hi : CmdInv st) (ht : Trans st a st') {c : Cid} {x : PendingCommandState}
    (hc : st'.cmds = Function.update st.cmds c x) (hn : st.ncmds ≤ st'.ncmds)
    (hnew : st'.ncmds ≤ c → x.submitted = false ∧ x.blocked = false)
    (hf : st.nfences ≤ st'.nfences) (hx : x.submitted = x.fence.isSome)
    (hfresh : ∀ f, x.fence = some f → f = st.nfences ∧ f < st'.nfences)
    (hex : ¬(x.submitted = true ∧ x.blocked = true))
    (hret : ∀ d, d ∈ st'.returned ↔ (st'.cmds d).submitted = true)
    (hnodup : st'.returned.Nodup) : CmdInv st' := by
  have hself : st'.cmds c = x := by rw [hc, Function.update_self]
  have hother {d : Cid} (hd : d ≠ c) : st'.cmds d = st.cmds d := by
    rw [hc, Function.update_of_ne hd]
  refine ⟨?_, ?_, ?_, ?_, ?_, ?_, ?_, hret, hnodup⟩
  · intro f hready
    rcases ht.fence_cases.2 f hready with hready | ⟨hlt, -⟩
    · exact (hi.ready_lt f hready).trans_le hf
    · exact hlt.trans_le hf
  · intro d hd
    by_cases hdc : d = c
    · rw [hdc, hself]
      exact hnew (hdc ▸ hd)
    · rw [hother hdc]
      exact hi.blank d (hn.trans hd)
  · intro d
    by_cases hdc : d = c
    · rw [hdc, hself]
      exact hx
    · rw [hother hdc]
      exact hi.fence d
  · intro d f hdf
    by_cases hdc : d = c
    · rw [hdc, hself] at hdf
      exact (hfresh f hdf).2
    · rw [hother hdc] at hdf
      exact (hi.fence_lt d f hdf).trans_le hf
  · intro d e f hd he
    -- a fence that is built now is none of the older ones
    by_cases hdc : d = c <;> by_cases hec : e = c
    · rw [hdc, hec]
    · rw [hdc, hself] at hd
      rw [hother hec] at he
      exact (Nat.ne_of_lt (hi.fence_lt e f he) (hfresh f hd).1).elim
    · rw [hother hdc] at hd
      rw [hec, hself] at he
      exact (Nat.ne_of_lt (hi.fence_lt d f hd) (hfresh f he).1).elim
    · rw [hother hdc] at hd
      rw [hother hec] at he
      exact hi.inj d e f hd he
  · intro d
    by_cases hdc : d = c
    · rw [hdc, hself]
      exact hex
    · rw [hother hdc]
      exact hi.exclusive d
  · intro d rest hp
    obtain ⟨hcmds, -, hp | ⟨-, hu, -⟩⟩ := ht.calling_cases hp <;> rw [hcmds]
    · exact hi.calling d rest hp
    · exact hu

/-- Every step keeps the commands in order. -/
theorem step (hi : CmdInv st) (hreg : RegInv st) (h : Trans st a st') : CmdInv st' := by
  have hret {c : Cid} {x : PendingCommandState} (hc : st'.cmds = Function.update st.cmds c x)
      (hx : x.submitted = (st.cmds c).submitted) (hr : st'.returned = st.returned) (d : Cid) :
      d ∈ st'.returned ↔ (st'.cmds d).submitted = true := by
    rw [hr, hi.returned, hc]
    by_cases hd : d = c
    · rw [hd, Function.update_self, hx]
    · rw [Function.update_of_ne hd]
  cases h.decisionMove with
  | keep hsame hn hf hr => exact hi.keep h hsame hn hf hr
  | enter req hc hn hf hr =>
    have hblank := (hi.blank st.ncmds (Nat.le_refl _)).1
    refine hi.cell h hc (by omega) (fun _ ↦ ⟨rfl, rfl⟩) (by omega) rfl nofun ?_
      (hret hc hblank.symm hr) (hr ▸ hi.nodup)
    simp [PendingCommandState.fresh]
  | block c rest hp hu _ hc hn hf hr =>
    obtain ⟨hs, -⟩ := undecided_iff.mp hu
    have hfence := hi.fence_none hs
    refine hi.cell h hc (by omega) ?_ (by omega) (hi.fence c) ?_ ?_ (hret hc rfl hr)
      (hr ▸ hi.nodup)
    · intro hle
      rw [hn] at hle
      exact (Nat.not_lt.mpr hle (hreg.lt_of_pass hp List.mem_cons_self)).elim
    · intro f hf
      rw [hfence] at hf
      cases hf
    · simp [hs]
  | submit c rest hp hc hn hf hr =>
    obtain ⟨hs, hb⟩ := undecided_iff.mp (hi.calling c rest hp)
    refine hi.cell h hc (by omega) ?_ (by omega) rfl ?_ ?_ ?_ ?_
    · intro hle
      rw [hn] at hle
      exact (Nat.not_lt.mpr hle (hreg.lt_of_pass hp List.mem_cons_self)).elim
    · rintro f ⟨⟩
      exact ⟨rfl, hf ▸ Nat.lt_succ_self _⟩
    · simp [hb]
    · intro d
      rw [hr, List.mem_append, List.mem_singleton, hi.returned, hc]
      by_cases hd : d = c
      · rw [hd, Function.update_self]
        simp
      · rw [Function.update_of_ne hd]
        simp [hd]
    · rw [hr, List.nodup_append]
      refine ⟨hi.nodup, List.nodup_singleton _, ?_⟩
      intro d hd e he hde
      rw [List.mem_singleton] at he
      rw [hde, he, hi.returned, hs] at hd
      cases hd

/-- No commands yet. -/
theorem init : CmdInv Rt.init :=
  ⟨nofun, fun _ _ ↦ ⟨rfl, rfl⟩, fun _ ↦ rfl, nofun, nofun, nofun, nofun,
    fun _ ↦ ⟨nofun, nofun⟩, List.nodup_nil⟩

end CmdInv

/-- The commands of every reachable state. -/
theorem cmdInv (h : Reachable st) : CmdInv st :=
  invariant_of_trans CmdInv.init (fun _ _ _ hr hi _ ht ↦ hi.step (regInv hr) ht) h

/-- What a step does to the decision about one command: nothing, or it blocks the command
because a dependency has failed, or the `submit_fn` of the command returns. -/
theorem Trans.decision_cases (h : Trans st a st') (hi : CmdInv st) (c : Cid) :
    SameDecision (st.cmds c) (st'.cmds c) ∨
      (∃ rest, st.pass = some ⟨c :: rest, none⟩) ∧ (st.cmds c).undecided = true ∧
        Failure st c ∧ st'.cmds c = { st.cmds c with blocked := true } ∨
      (∃ rest, st.pass = some ⟨rest, some c⟩) ∧
        st'.cmds c = { st.cmds c with fence := some st.nfences, submitted := true } := by
  have hother {d : Cid} {x : PendingCommandState} (hc : st'.cmds = Function.update st.cmds d x)
      (hd : c ≠ d) : SameDecision (st.cmds c) (st'.cmds c) := by
    rw [hc, Function.update_of_ne hd]
    exact ⟨rfl, rfl, rfl⟩
  cases h.decisionMove with
  | keep hsame _ _ _ => exact .inl (hsame c)
  | enter req hc _ _ _ =>
    by_cases hd : c = st.ncmds
    · obtain ⟨hs, hb⟩ := hi.blank c (Nat.le_of_eq hd.symm)
      have hself : st'.cmds c = .fresh req := by rw [hc, hd, Function.update_self]
      rw [hself]
      exact .inl ⟨(hi.fence_none hs).symm, hs.symm, hb.symm⟩
    · exact .inl (hother hc hd)
  | block d rest hp hu hfail hc _ _ _ =>
    by_cases hd : c = d
    · subst hd
      exact .inr (.inl ⟨⟨rest, hp⟩, hu, hfail, by rw [hc, Function.update_self]⟩)
    · exact .inl (hother hc hd)
  | submit d rest hp hc _ _ _ =>
    by_cases hd : c = d
    · subst hd
      exact .inr (.inr ⟨⟨rest, hp⟩, by rw [hc, Function.update_self]⟩)
    · exact .inl (hother hc hd)

end DmaAccel.Dependency
