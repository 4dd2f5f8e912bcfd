import DmaAccel.Delivery.NoLoss
import DmaAccel.Driver.Frames
import DmaAccel.Routing.Sessions

/-!
# What the owner of a session sees of the driver

Facts about the calls and the ring of one session that the thread which owns it relies on: its
commands are committed by its own steps only, a call that fails has not committed, and what a
read hands out was in the ring.
-/

namespace DmaAccel.Driver

open DmaAccel.Base

variable {st st' : Sys} {a : Act} {k : Nat} {s : Sid}

/-- A call commits in a step of its own, and keeps its session and its id from then on. -/
theorem Trans.committed_cases (h : Trans st a st') (hk : (st'.submits k).pc.committed = true) :
    (st.submits k).pc.committed = true ∧ (st'.submits k).sess = (st.submits k).sess ∧
        (st'.submits k).cmdId = (st.submits k).cmdId ∨
      a = .submitStep k ∧ (st'.submits k).sess = (st.submits k).sess := by
  have hsame (hs : SameCall (st.submits k) (st'.submits k)) :
      (st.submits k).pc.committed = true ∧ (st'.submits k).sess = (st.submits k).sess ∧
        (st'.submits k).cmdId = (st.submits k).cmdId := by
    rw [hs.committed_eq] at hk
    exact ⟨hk, hs.sess, hs.cmdId⟩
  have hcell {l : Nat} {x : Submit} (hs : st'.submits = Function.update st.submits l x)
      (hx : k = l → (st.submits l).pc.committed = true ∧ x.sess = (st.submits l).sess ∧
        x.cmdId = (st.submits l).cmdId) :
      (st.submits k).pc.committed = true ∧ (st'.submits k).sess = (st.submits k).sess ∧
        (st'.submits k).cmdId = (st.submits k).cmdId := by
    by_cases he : k = l
    · rw [hs, he, Function.update_self]
      exact hx he
    · have hk' : st'.submits k = st.submits k := by rw [hs, Function.update_of_ne he]
      rw [hk'] at hk ⊢
      exact ⟨hk, rfl, rfl⟩
  have hearly {l : Nat} {x : Submit} (hs : st'.submits = Function.update st.submits l x)
      (hx : x.pc.committed = false) (he : k = l) : False := by
    rw [hs, he, Function.update_self, hx] at hk
    cases hk
  cases h with
  | register l j hl hp =>
    by_cases he : k = l
    · subst he
      exact .inr ⟨rfl, by simp⟩
    · exact .inl (hcell rfl fun h ↦ (he h).elim)
  | newId l hl hp => exact .inl (hcell rfl fun he ↦ (hearly rfl rfl he).elim)
  | submit r req hr => exact .inl (hcell rfl fun he ↦ (hearly rfl rfl he).elim)
  | submitLocal _ l c hl hloc => exact .inl (hsame (rel_update SameCall.refl hloc.sameCall k))
  | relWake r hr => exact .inl (hsame (st.submits k).sameCall_wake)
  | wakeQuota hp => exact .inl (hsame (st.submits k).sameCall_wake)
  | incInflight l hl hp => exact .inl (hcell rfl fun _ ↦ ⟨hp ▸ rfl, rfl, rfl⟩)
  | incTotal l hl hp => exact .inl (hcell rfl fun _ ↦ ⟨hp ▸ rfl, rfl, rfl⟩)
  | enqIdx l hl hp => exact .inl (hcell rfl fun _ ↦ ⟨hp ▸ rfl, rfl, rfl⟩)
  | enqStore l hl hp => exact .inl (hcell rfl fun _ ↦ ⟨hp ▸ rfl, rfl, rfl⟩)
  | enqWriteTail l hl hp => exact .inl (hcell rfl fun _ ↦ ⟨hp ▸ rfl, rfl, rfl⟩)
  | enqDoorbell l hl hp => exact .inl (hcell rfl fun _ ↦ ⟨hp ▸ rfl, rfl, rfl⟩)
  | _ => exact .inl ⟨hk, rfl, rfl⟩

/-- A read that holds a completion has just taken it from the ring, or held it before. -/
theorem Trans.hand_cases (h : Trans st a st') (hk : (st'.reads k).pc = .copy) :
    (st.reads k).pc = .copy ∧ (st'.reads k).sess = (st.reads k).sess ∧
        (st'.reads k).out = (st.reads k).out ∨
      ∃ c, st'.taken = st.taken ++ [((st'.reads k).sess, c)] ∧ (st'.reads k).out = c.toUser := by
  have hcell {l : Nat} {x : Read} (hs : st'.reads = Function.update st.reads l x)
      (hx : k = l → x.pc ≠ .copy) :
      (st.reads k).pc = .copy ∧ (st'.reads k).sess = (st.reads k).sess ∧
        (st'.reads k).out = (st.reads k).out := by
    by_cases he : k = l
    · rw [hs, he, Function.update_self] at hk
      exact (hx he hk).elim
    · have hk' : st'.reads k = st.reads k := by rw [hs, Function.update_of_ne he]
      rw [hk'] at hk ⊢
      exact ⟨hk, rfl, rfl⟩
  cases h with
  | read r bytes hr => exact .inl (hcell rfl fun _ ↦ by simp)
  | readLocal _ l c hl hloc =>
    refine .inl (hcell rfl fun _ ↦ ?_)
    cases hloc <;> simp
  | copy l hl hp => exact .inl (hcell rfl fun _ ↦ by simp)
  | copyFault l hl hp => exact .inl (hcell rfl fun _ ↦ by simp)
  | pop l out r hl hp hc hr =>
    by_cases he : k = l
    · subst he
      exact .inr ⟨out, by simp, by simp [Completion.toUser]⟩
    · exact .inl (hcell rfl fun h ↦ (he h).elim)
  | _ => exact .inl ⟨hk, rfl, rfl⟩

/-- What a read holds was in the ring of its session. -/
theorem hand_taken {ok : Sys → Act → Prop} (h : ReachBy ok st) (hk : (st.reads k).pc = .copy) :
    ∃ c ∈ ofSess st.taken (st.reads k).sess, (st.reads k).out = c.toUser := by
  refine invariant_of_trans (I := fun st ↦ ∀ k, (st.reads k).pc = .copy →
    ∃ c ∈ ofSess st.taken (st.reads k).sess, (st.reads k).out = c.toUser) nofun ?_ h k hk
  intro st a st' _ hi _ ht k hk
  rcases ht.hand_cases hk with ⟨hold, hs, hout⟩ | ⟨c, htk, hout⟩
  · obtain ⟨c, hc, he⟩ := hi k hold
    refine ⟨c, ?_, hout.trans he⟩
    rw [hs]
    cases ht.ringMove (st.reads k).sess with
    | keep _ _ htk => exact htk ▸ hc
    | push _ _ _ _ htk => exact htk ▸ hc
    | pop _ _ _ _ _ htk => exact htk ▸ List.mem_append_left _ hc
  · refine ⟨c, ?_, hout⟩
    rw [htk, ofSess_append, if_pos rfl]
    exact List.mem_append_right _ List.mem_cons_self

/-- Calls keep their session. -/
theorem Trans.sess_eq (h : Trans st a st') :
    (∀ k < st.nsubmits, (st'.submits k).sess = (st.submits k).sess) ∧
      ∀ k < st.nreads, (st'.reads k).sess = (st.reads k).sess := by
  have hreads {l : Nat} {x : Read} (hs : st'.reads = Function.update st.reads l x)
      (hx : l < st.nreads → x.sess = (st.reads l).sess) :
      ∀ k < st.nreads, (st'.reads k).sess = (st.reads k).sess := by
    intro k hk
    rw [hs]
    by_cases he : k = l
    · rw [he, Function.update_self]
      exact hx (he ▸ hk)
    · rw [Function.update_of_ne he]
  constructor
  · intro k hk
    cases h.callsMove with
    | keep hkeep _ _ _ _ => exact (hkeep k).sess
    | enter r req _ _ hs _ _ _ => rw [hs, Function.update_of_ne (Nat.ne_of_lt hk)]
    | newId l _ hs _ _ _ =>
      rw [hs]
      exact rel_update (R := fun x y : Submit ↦ y.sess = x.sess) (fun _ ↦ rfl) (by rfl) k
    | register l _ hs _ _ _ =>
      rw [hs]
      exact rel_update (R := fun x y : Submit ↦ y.sess = x.sess) (fun _ ↦ rfl) (by rfl) k
  · cases h with
    | read r bytes hr => exact hreads rfl fun hlt ↦ (Nat.lt_irrefl _ hlt).elim
    | readLocal _ l c hl hloc =>
      refine hreads rfl fun _ ↦ ?_
      cases hloc <;> rfl
    | pop l out r hl hp hc hr => exact hreads rfl fun _ ↦ rfl
    | copy l hl hp => exact hreads rfl fun _ ↦ rfl
    | copyFault l hl hp => exact hreads rfl fun _ ↦ rfl
    | _ => exact fun _ _ ↦ rfl

/-- A new call of SUBMIT has not got anywhere. -/
theorem Trans.new_submit (h : Trans st a st') (hk : ¬k < st.nsubmits)
    (hk' : k < st'.nsubmits) : (st'.submits k).pc = .copyIn := by
  have hsame (hn : st'.nsubmits = st.nsubmits) : False := hk (hn ▸ hk')
  cases h.callsMove with
  | keep _ _ _ hn _ => exact (hsame hn).elim
  | newId l _ _ _ hn _ => exact (hsame hn).elim
  | register l _ _ _ hn _ => exact (hsame hn).elim
  | enter r req _ _ hs _ hn _ =>
    rw [hn] at hk'
    have he : k = st.nsubmits := Nat.le_antisymm (Nat.le_of_lt_succ hk') (Nat.not_lt.mp hk)
    rw [hs, he, Function.update_self]

/-- A call that returned an error before its commit point, and one that returned after it. -/
def Submit.RetOk (c : Submit) : Prop :=
  (c.pc = .refused → c.ret ≠ .ok 0) ∧ (c.pc = .returned → c.ret = .ok 0)

/-- Unless the copy back to user space faults, what SUBMIT returns says whether the command
was submitted. -/
theorem step_retOk (h : step st a = some st') (hk : k < st.nsubmits)
    (hc : (st.submits k).RetOk)
    (hf : a = .submitFault k → (st.submits k).pc ≠ .copyOut) : (st'.submits k).RetOk := by
  by_cases ha : a.ofSubmit k
  · rcases ha with rfl | rfl | rfl
    · obtain ⟨-, hs⟩ := Option.ite_none_right_eq_some.mp h
      unfold submitStep at hs
      dsimp only at hs
      repeat' split at hs
      all_goals cases hs
      all_goals simp [Submit.RetOk, Sys.setSubmit]
    · obtain ⟨-, hs⟩ := Option.ite_none_right_eq_some.mp h
      unfold submitFault at hs
      dsimp only at hs
      split at hs
      · cases hs
        simp [Submit.RetOk, Sys.setSubmit]
      · next hp => exact (hf rfl hp).elim
      · cases hs
    · obtain ⟨-, hs⟩ := Option.ite_none_right_eq_some.mp h
      unfold submitSignal at hs
      dsimp only at hs
      repeat' split at hs
      all_goals cases hs
      all_goals simp [Submit.RetOk, Sys.setSubmit]
  · rcases step_submits h hk ha with he | he
    · rw [he]
      exact hc
    · rw [he]
      unfold Submit.wake
      split
      · simp [Submit.RetOk]
      · exact hc

/-- Calls are made on sessions that have been opened. -/
theorem sess_lt {ok : Sys → Act → Prop} (h : ReachBy ok st) :
    ∀ k < st.nsubmits, (st.submits k).sess < st.nsess := by
  refine invariant_of_trans (I := fun st ↦ ∀ k < st.nsubmits, (st.submits k).sess < st.nsess)
    nofun ?_ h
  intro st a st' hr hi _ ht
  have hle : st.nsess ≤ st'.nsess := by
    cases ht with
    | chrOpen => exact Nat.le_succ _
    | _ => exact Nat.le_refl _
  intro k hk
  by_cases hold : k < st.nsubmits
  · rw [ht.sess_eq.1 k hold]
    exact Nat.lt_of_lt_of_le (hi k hold) hle
  · cases ht with
    | submit r req hopen =>
      have he : k = st.nsubmits := Nat.le_antisymm (Nat.le_of_lt_succ hk) (Nat.not_lt.mp hold)
      subst he
      change (Function.update st.submits st.nsubmits _ st.nsubmits).sess < st.nsess
      rw [Function.update_self]
      exact (sessInv hr).lt (by rw [hopen]; nofun)
    | _ => exact (hold hk).elim

/-- Reads take what has been pushed. -/
theorem taken_subset {ok : Sys → Act → Prop} (h : ReachBy ok st) (s : Sid) :
    ofSess st.taken s ⊆ ofSess st.pushed s := by
  refine invariant_of_trans (I := fun st ↦ ofSess st.taken s ⊆ ofSess st.pushed s)
    (List.nil_subset _) ?_ h
  intro st a st' hr hi _ ht
  cases ht.ringMove s with
  | keep _ hp htk =>
    rw [hp, htk]
    exact hi
  | push _ _ _ hp htk =>
    rw [hp, htk]
    exact List.subset_append_of_subset_left _ hi
  | pop c r hpop _ hp htk =>
    rw [hp, htk]
    have hmem : c ∈ (st.compRing s).unread := by
      rw [CompRing.unread_pop hpop]
      exact List.mem_cons_self
    intro x hx
    rcases List.mem_append.mp hx with hx | hx
    · exact hi hx
    · rw [List.mem_singleton.mp hx]
      exact (ringInv hr s).last.subset hmem

/-- Nothing has been pushed to a session that is yet to be opened. -/
theorem pushed_fresh {ok : Sys → Act → Prop} (h : ReachBy ok st) :
    ofSess st.pushed st.nsess = [] := by
  rw [List.eq_nil_iff_forall_not_mem]
  intro c hc
  obtain ⟨k, hk, -, hs, -⟩ := pushed_committed h (mem_ofSess.mp hc)
  have hlt := sess_lt h k hk
  rw [hs] at hlt
  exact Nat.lt_irrefl _ hlt

/-- Completions of a session are taken by its own reads only. -/
theorem Trans.taken_eq (h : Trans st a st')
    (ha : ∀ k, a = .readStep k → (st.reads k).sess ≠ s) :
    ofSess st'.taken s = ofSess st.taken s := by
  cases h with
  | pop k out r hk hp hc hr =>
    refine (ofSess_append ..).trans ?_
    rw [if_neg (ha k rfl), List.append_nil]
  | _ => rfl

/-- The read has copied out `n` completions, and says so when it returns. -/
structure Read.Counts (c : Read) (n : Nat) : Prop where
  copied : c.copied = n
  avail : c.pc = .avail → n = 0
  ret : c.pc = .returned → c.ret = .ok (n * completionBytes) ∨ n = 0 ∧ ∃ e, c.ret = .err e

/-- One step of a read: it takes a completion, copies out the one it has taken, or does neither. -/
theorem readStep_counts (h : readStep st k = some st') {n : Nat}
    (hc : (st.reads k).Counts n) :
    (∃ x, (st.reads k).pc = .pop ∧ (st'.reads k).pc = .copy ∧ (st'.reads k).out = x.toUser ∧
      st'.taken = st.taken ++ [((st.reads k).sess, x)] ∧ (st'.reads k).Counts n) ∨
    ((st.reads k).pc = .copy ∧ (st'.reads k).pc = .pop ∧ st'.taken = st.taken ∧
      (st'.reads k).Counts (n + 1)) ∨
    ((st.reads k).pc ≠ .copy ∧ (st'.reads k).pc ≠ .copy ∧ st'.taken = st.taken ∧
      (st'.reads k).Counts n) := by
  have hcell (c : Read) : ((st.setRead k c).reads k) = c := Function.update_self ..
  simp only [readStep] at h
  split at h
  · next hp =>
    have hn := hc.avail hp
    split at h
    · cases h
      refine .inr (.inr ⟨by simp [hp], ?_, rfl, ?_⟩) <;> rw [hcell]
      · nofun
      · exact ⟨hc.copied, nofun, fun _ ↦ .inr ⟨hn, _, rfl⟩⟩
    · split at h
      · cases h
        refine .inr (.inr ⟨by simp [hp], ?_, rfl, ?_⟩) <;> rw [hcell]
        · nofun
        · exact ⟨hc.copied, nofun, fun _ ↦ .inr ⟨hn, _, rfl⟩⟩
      · cases h
        refine .inr (.inr ⟨by simp [hp], ?_, rfl, ?_⟩) <;> rw [hcell]
        · nofun
        · exact ⟨hc.copied, nofun, nofun⟩
  · next hp =>
    have hret : ({ st.reads k with
        pc := .returned, ret := .ok ((st.reads k).copied * completionBytes) } : Read).Counts n :=
      ⟨hc.copied, nofun, fun _ ↦ .inl (by rw [hc.copied])⟩
    split at h
    · split at h
      · next out r hpop =>
        cases h
        refine .inl ⟨out, hp, ?_, ?_, rfl, ?_⟩
        · simp
        · simp [Completion.toUser]
        · simp only [Function.update_self]
          exact ⟨hc.copied, nofun, nofun⟩
      · cases h
        refine .inr (.inr ⟨by simp [hp], ?_, rfl, ?_⟩) <;> rw [hcell]
        · nofun
        · exact hret
    · cases h
      refine .inr (.inr ⟨by simp [hp], ?_, rfl, ?_⟩) <;> rw [hcell]
      · nofun
      · exact hret
  · next hp =>
    cases h
    refine .inr (.inl ⟨hp, ?_, rfl, ?_⟩)
    · simp
    · simp only [Function.update_self]
      exact ⟨congrArg (· + 1) hc.copied, nofun, nofun⟩
  · cases h

end DmaAccel.Driver
