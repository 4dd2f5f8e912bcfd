import DmaAccel.Dependency.Engine

/-!
# Dependencies stay acyclic

Source `track-c/runtime/dma_accel_dependency.cpp`: `reachable` (22–38) and
`PendingCommand::depends_on(const PendingCommand&)` (61–73). The search has no set of visited
commands, so it terminates because of the very property it protects: both are proved together.
-/

namespace DmaAccel.Dependency

open DmaAccel.Base
open Relation

/-- The commands a command waits for. -/
def Rt.deps (st : Rt) (c : Cid) : List Cid := (st.cmds c).pendingDeps

/-- The dependency graph is acyclic; the search ends on it and decides reachability; a new
dependency is rejected exactly when it would close a cycle, which leaves everything as it was,
and is otherwise the only edge that is added. -/
structure DagSafe (st : Rt) : Prop where
  acyclic : Acyclic (Edge st.deps)
  decides : ∀ c d n, c < st.ncmds → d < st.ncmds → st.ncmds ≤ n →
    ∃ b, st.reachable c n d = some b ∧ (b = true ↔ ReflTransGen (Edge st.deps) d c)
  rejects : ∀ c d, c < st.ncmds → d < st.ncmds → (st.cmds c).submitted = false →
    (¬Acyclic (withEdge (Edge st.deps) c d) ↔ dependsOnCommand st c d = some (.error .cycle))
  unchanged : ∀ c d e, c < st.ncmds → d < st.ncmds → st.pass = none →
    dependsOnCommand st c d = some (.error e) → step st (.dependsOnCommand c d) = some st
  accepts : ∀ c d, c < st.ncmds → d < st.ncmds → (st.cmds c).submitted = false →
    Acyclic (withEdge (Edge st.deps) c d) →
    ∃ st', dependsOnCommand st c d = some (.ok st') ∧
      Edge st'.deps = withEdge (Edge st.deps) c d

/-- Dependencies are between commands that exist, and form no cycle. -/
structure GraphInv (st : Rt) : Prop where
  acyclic : Acyclic (Edge st.deps)
  source : ∀ c d, d ∈ st.deps c → c < st.ncmds
  target : ∀ c d, d ∈ st.deps c → d < st.ncmds

variable {st st' : Rt} {a : Act}

/-- One more dependency is one more edge. -/
theorem edge_setCmd {c d : Cid} {x : PendingCommandState}
    (hx : x.pendingDeps = (st.cmds c).pendingDeps ++ [d]) :
    Edge (st.setCmd c x).deps = withEdge (Edge st.deps) c d := by
  funext y z
  simp only [Edge, withEdge, Rt.deps, Rt.setCmd, eq_iff_iff]
  by_cases hy : y = c
  · rw [hy, Function.update_self, hx, List.mem_append, List.mem_singleton]
    simp
  · rw [Function.update_of_ne hy]
    simp [hy]

/-- What a step does to the graph. -/
theorem Trans.deps_cases (h : Trans st a st') :
    (∀ c, ∀ d ∈ st'.deps c, d ∈ st.deps c) ∧ st.ncmds ≤ st'.ncmds ∨
      ∃ c d, c < st.ncmds ∧ d < st.ncmds ∧ st.reachable c st.ncmds d = some false ∧
        Edge st'.deps = withEdge (Edge st.deps) c d ∧ st'.ncmds = st.ncmds := by
  have hcell {c : Cid} {x : PendingCommandState} (hc : st'.cmds = Function.update st.cmds c x)
      (hx : ∀ d ∈ x.pendingDeps, d ∈ st.deps c) (y : Cid) : ∀ d ∈ st'.deps y, d ∈ st.deps y := by
    unfold Rt.deps
    rw [hc]
    by_cases hy : y = c
    · rw [hy, Function.update_self]
      exact hx
    · rw [Function.update_of_ne hy]
      exact fun _ ↦ id
  cases h with
  | dependsOnCommand c d hp hc hd hs hr =>
    exact .inr ⟨c, d, hc, hd, hr, edge_setCmd rfl, rfl⟩
  | deferSubmit e req hp => exact .inl ⟨hcell rfl nofun, Nat.le_succ _⟩
  | dependsOnFence c f hp hc hf hs => exact .inl ⟨hcell rfl fun _ ↦ id, Nat.le_refl _⟩
  | dependsOnGroup c g hp hc hg hs => exact .inl ⟨hcell rfl fun _ ↦ id, Nat.le_refl _⟩
  | block c rest hp hu hv => exact .inl ⟨hcell rfl fun _ ↦ id, Nat.le_refl _⟩
  | submitReturn c rest hp => exact .inl ⟨hcell rfl fun _ ↦ id, Nat.le_refl _⟩
  | _ => exact .inl ⟨fun _ _ ↦ id, Nat.le_refl _⟩

namespace GraphInv

/-- Chains of dependencies visit no command twice. -/
theorem depthLe (hi : GraphInv st) {c : Cid} (hc : c < st.ncmds) :
    DepthLe (Edge st.deps) st.ncmds c := by
  have hclosed : ∀ x ∈ Finset.range st.ncmds, ∀ y, Edge st.deps x y →
      y ∈ Finset.range st.ncmds := by
    intro x _ y hy
    exact Finset.mem_range.mpr (hi.target x y hy)
  have hdepth := DepthLe.of_acyclic hi.acyclic hclosed (Finset.mem_range.mpr hc)
  rwa [Finset.card_range] at hdepth

/-- The recursion of `reachable` ends and decides reachability. -/
theorem reachable_decides (hi : GraphInv st) (c : Cid) {d : Cid} {n : Nat} (hd : d < st.ncmds)
    (hn : st.ncmds ≤ n) :
    ∃ b, st.reachable c n d = some b ∧ (b = true ↔ ReflTransGen (Edge st.deps) d c) :=
  search_eq_some ((hi.depthLe hd).mono hn)

/-- An accepted dependency does not lead back. -/
theorem not_reaches (hi : GraphInv st) {c d : Cid} (hd : d < st.ncmds)
    (h : st.reachable c st.ncmds d = some false) : ¬ReflTransGen (Edge st.deps) d c := by
  obtain ⟨b, hb, hiff⟩ := hi.reachable_decides c hd (Nat.le_refl _)
  rw [h] at hb
  cases hb
  intro hreach
  exact Bool.false_ne_true (hiff.mpr hreach)

/-- Every step keeps the graph acyclic. -/
theorem step (hi : GraphInv st) (h : Trans st a st') : GraphInv st' := by
  rcases h.deps_cases with ⟨hsub, hle⟩ | ⟨c, d, hc, hd, hr, he, hn⟩
  · refine ⟨hi.acyclic.mono hsub, ?_, ?_⟩
    · intro c d hmem
      exact (hi.source c d (hsub c d hmem)).trans_le hle
    · intro c d hmem
      exact (hi.target c d (hsub c d hmem)).trans_le hle
  · have hedge {x y : Cid} (hmem : y ∈ st'.deps x) : y ∈ st.deps x ∨ x = c ∧ y = d := by
      have hxy : Edge st'.deps x y := hmem
      rw [he] at hxy
      exact hxy
    refine ⟨?_, ?_, ?_⟩
    · rw [he]
      exact (acyclic_withEdge hi.acyclic).mpr (hi.not_reaches hd hr)
    · intro x y hmem
      rw [hn]
      rcases hedge hmem with hmem | ⟨rfl, -⟩
      · exact hi.source x y hmem
      · exact hc
    · intro x y hmem
      rw [hn]
      rcases hedge hmem with hmem | ⟨-, rfl⟩
      · exact hi.target x y hmem
      · exact hd

/-- No commands, no cycle. -/
theorem init : GraphInv Rt.init := by
  refine ⟨?_, nofun, nofun⟩
  intro x hx
  obtain ⟨y, hy, -⟩ := TransGen.head'_iff.mp hx
  cases hy

end GraphInv

/-- The graph of every reachable state is in order. -/
theorem graphInv (h : Reachable st) : GraphInv st :=
  invariant_of_trans GraphInv.init (fun _ _ _ _ hi _ ht ↦ hi.step ht) h

/-- Dependencies stay acyclic along every run, and `depends_on` rejects exactly the edges that
would change that. -/
theorem dependencies_acyclic (h : Reachable st) : DagSafe st := by
  have hi := graphInv h
  have hcycle (c d : Cid) (hd : d < st.ncmds) : ∃ b, st.reachable c st.ncmds d = some b ∧
      (b = true ↔ ¬Acyclic (withEdge (Edge st.deps) c d)) := by
    obtain ⟨b, hb, hiff⟩ := hi.reachable_decides c hd (Nat.le_refl _)
    exact ⟨b, hb, by rw [hiff, acyclic_withEdge hi.acyclic, not_not]⟩
  refine ⟨hi.acyclic, fun c d n _ hd hn ↦ hi.reachable_decides c hd hn, ?_, ?_, ?_⟩
  · intro c d _ hd hs
    obtain ⟨b, hb, hiff⟩ := hcycle c d hd
    rw [← hiff]
    cases b <;> simp [dependsOnCommand, hs, hb]
  · intro c d e hc hd hp he
    simp only [DmaAccel.Dependency.step, hp, hc, hd, and_self, if_true, he, Option.map_some]
    rfl
  · intro c d _ hd hs hac
    obtain ⟨b, hb, hiff⟩ := hcycle c d hd
    cases b with
    | true => exact (hiff.mp rfl hac).elim
    | false => exact ⟨_, by simp only [dependsOnCommand, hs, hb]; rfl, edge_setCmd rfl⟩

/-- Two commands of two engines: the second depends on the first, so the first may not depend
on the second, nor a command on itself. -/
theorem dependencies_acyclic_pair : ∃ st : Rt, Reachable st ∧ st.deps 1 = [0] ∧
    ¬Acyclic (withEdge (Edge st.deps) 0 1) ∧ ¬Acyclic (withEdge (Edge st.deps) 0 0) ∧
      DagSafe st := by
  have hrun : (run step Rt.init [.deferSubmit 0 .zero, .deferSubmit 1 .zero,
      .dependsOnCommand 1 0, .dependsOnCommand 0 1, .progress 1, .visit]).any
      (fun st ↦ decide (st.deps 1 = [0])) = true := by decide +kernel
  obtain ⟨st, hr, hp⟩ := Reach.exists_of_run hrun
  have hdeps := of_decide_eq_true hp
  refine ⟨st, hr, hdeps, ?_, ?_, dependencies_acyclic hr⟩
  · intro hac
    have hedge : Edge st.deps 1 0 := by simp [Edge, hdeps]
    exact hac 0 (.tail (.single (.inr ⟨rfl, rfl⟩)) (.inl hedge))
  · intro hac
    exact hac 0 (.single (.inr ⟨rfl, rfl⟩))

end DmaAccel.Dependency
