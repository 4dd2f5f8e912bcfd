import DmaAccel.Routing.Outstanding

/-!
# Completion isolation

Source `track-a/dma_accel_drv.c`: the ring push of `dma_accel_irq_handler` (342–374) and
`dma_accel_chr_read` (1765–1817). A push appends to the unread completions of the ring, at
the price of the oldest one where the ring is full, and a read takes the oldest. The unread
completions are therefore always the last pushes to their session, and custody of the
tickets says whose commands these are.
-/

namespace DmaAccel.Driver

open DmaAccel.Base

namespace CompRing

variable {r r' : CompRing} {c : Completion}

/-- Number of unread completions. -/
def pending (r : CompRing) : Nat := span r.head r.tail

/-- There are as many unread completions as the counters say. -/
theorem length_unread (r : CompRing) : r.unread.length = r.pending := length_window _ _ _

/-- With room in the ring a push appends. -/
theorem unread_push (h : r.pending < compRingSize) : (r.push c).unread = r.unread ++ [c] := by
  have hhead : (r.push c).head = r.head := if_neg (Nat.not_le.mpr h)
  unfold unread
  rw [hhead]
  exact window_push (by decide) (by decide) r.slots h c

/-- A push into a full ring drops the oldest unread completion. -/
theorem unread_push_full (h : r.pending = compRingSize) :
    ∃ x rest, r.unread = x :: rest ∧ (r.push c).unread = rest ++ [c] := by
  have hhead : (r.push c).head = r.head + 1 := if_pos (Nat.le_of_eq h.symm)
  have hne : r.head ≠ r.tail := by
    intro he
    rw [pending, span_eq_zero_iff.mpr he] at h
    cases h
  refine ⟨_, _, window_pop r.slots hne, ?_⟩
  have hroom : span (r.head + 1) r.tail < compRingSize := by
    have := span_pop hne
    unfold pending at h
    omega
  unfold unread
  rw [hhead]
  exact window_push (by decide) (by decide) r.slots hroom c

/-- A push never takes a ring beyond its size. -/
theorem pending_push (h : r.pending ≤ compRingSize) : (r.push c).pending ≤ compRingSize := by
  rw [← length_unread]
  rcases Nat.lt_or_eq_of_le h with hlt | heq
  · rw [unread_push hlt, List.length_append, length_unread]
    exact hlt
  · obtain ⟨x, rest, hu, hp⟩ := unread_push_full (c := c) heq
    have hlen := congrArg List.length hu
    rw [length_unread, heq, List.length_cons] at hlen
    rw [hp, List.length_append, hlen]
    exact Nat.le_refl _

/-- A reader takes the oldest unread completion. -/
theorem unread_pop (h : r.pop = some (c, r')) : r.unread = c :: r'.unread := by
  unfold pop at h
  split at h
  · cases h
  · next hne =>
    cases h
    exact window_pop r.slots hne

/-- Only an empty ring gives nothing. -/
theorem unread_of_pop_none (h : r.pop = none) : r.unread = [] := by
  unfold pop at h
  split at h
  · next he =>
    unfold unread
    rw [he]
    exact window_self _ _
  · cases h

end CompRing

/-- The completions of one session in a history. -/
def ofSess (l : List (Sid × Completion)) (s : Sid) : List Completion :=
  (l.filter fun p ↦ p.1 = s).map Prod.snd

/-- A history grows at its end. -/
theorem ofSess_append (l : List (Sid × Completion)) (r s : Sid) (c : Completion) :
    ofSess (l ++ [(r, c)]) s = ofSess l s ++ (if r = s then [c] else []) := by
  unfold ofSess
  rw [List.filter_append, List.map_append]
  by_cases h : r = s <;> simp [h]

/-- Membership in the history of one session. -/
theorem mem_ofSess {l : List (Sid × Completion)} {s : Sid} {c : Completion} :
    c ∈ ofSess l s ↔ (s, c) ∈ l := by
  simp [ofSess]

variable {st st' : Sys} {a : Act}

/-- How a step changes one session's ring and the histories of pushes and reads. -/
inductive CompRingMove (st st' : Sys) (s : Sid) : Prop where
  | keep : st'.compRing s = st.compRing s → ofSess st'.pushed s = ofSess st.pushed s →
      ofSess st'.taken s = ofSess st.taken s → CompRingMove st st' s
  | push : st.isr.pc = .push → st.isr.owner = s →
      st'.compRing s = (st.compRing s).push st.isr.comp →
      ofSess st'.pushed s = ofSess st.pushed s ++ [st.isr.comp] →
      ofSess st'.taken s = ofSess st.taken s → CompRingMove st st' s
  | pop (c : Completion) (r : CompRing) : (st.compRing s).pop = some (c, r) →
      st'.compRing s = r → ofSess st'.pushed s = ofSess st.pushed s →
      ofSess st'.taken s = ofSess st.taken s ++ [c] → CompRingMove st st' s

/-- Every step of the system moves a session's ring in one of these ways. -/
theorem Trans.ringMove (h : Trans st a st') (s : Sid) : CompRingMove st st' s := by
  cases h with
  | push hp =>
    by_cases hs : st.isr.owner = s
    · refine .push hp hs ?_ ?_ rfl
      · subst hs
        exact Function.update_self ..
      · exact (ofSess_append ..).trans (by rw [if_pos hs])
    · refine .keep ?_ ?_ rfl
      · exact Function.update_of_ne (Ne.symm hs) _ _
      · exact (ofSess_append ..).trans (by rw [if_neg hs, List.append_nil])
  | pop k out r hk hp hc hr =>
    by_cases hs : (st.reads k).sess = s
    · subst hs
      refine .pop out r hr (Function.update_self ..) rfl ?_
      exact (ofSess_append ..).trans (by rw [if_pos rfl])
    · refine .keep (Function.update_of_ne (Ne.symm hs) _ _) rfl ?_
      exact (ofSess_append ..).trans (by rw [if_neg hs, List.append_nil])
  | _ => exact .keep rfl rfl rfl

/-- A fresh ring has nothing unread. -/
theorem unread_init (s : Sid) : (Sys.init.compRing s).unread = [] := window_self _ 0

/-- A ring holds at most its size, and its unread completions are the last pushes. -/
structure RingInv (st : Sys) (s : Sid) : Prop where
  bound : (st.compRing s).pending ≤ compRingSize
  last : (st.compRing s).unread <:+ ofSess st.pushed s

namespace RingInv

/-- Every step keeps the ring in order. -/
theorem step {s : Sid} (hi : RingInv st s) (h : CompRingMove st st' s) : RingInv st' s := by
  cases h with
  | keep hr hp _ =>
    constructor
    · rw [hr]
      exact hi.bound
    · rw [hr, hp]
      exact hi.last
  | push _ _ hr hp _ =>
    constructor
    · rw [hr]
      exact CompRing.pending_push hi.bound
    · rw [hr, hp]
      obtain ⟨old, hold⟩ := hi.last
      rcases Nat.lt_or_eq_of_le hi.bound with hlt | heq
      · rw [CompRing.unread_push hlt, ← hold, List.append_assoc]
        exact List.suffix_append _ _
      · obtain ⟨x, rest, hu, hpush⟩ := CompRing.unread_push_full (c := st.isr.comp) heq
        rw [hpush, ← hold, hu, List.append_assoc]
        exact ⟨old ++ [x], by simp⟩
  | pop c r hpop hr hp _ =>
    have hu := CompRing.unread_pop hpop
    have hlen := congrArg List.length hu
    rw [CompRing.length_unread, List.length_cons, CompRing.length_unread] at hlen
    have hbound := hi.bound
    constructor
    · rw [hr]
      omega
    · rw [hr, hp]
      have hlast := hi.last
      rw [hu] at hlast
      exact (List.suffix_cons _ _).trans hlast

/-- Empty rings are in order. -/
theorem init (s : Sid) : RingInv Sys.init s := by
  constructor
  · rw [← CompRing.length_unread, unread_init]
    exact Nat.zero_le _
  · rw [unread_init]
    exact List.nil_suffix

end RingInv

/-- Every ring is in order along every run. -/
theorem ringInv {ok : Sys → Act → Prop} (h : ReachBy ok st) (s : Sid) : RingInv st s :=
  invariant_of_trans (I := fun st ↦ RingInv st s) (RingInv.init s)
    (fun _ _ _ _ hi _ ht ↦ hi.step (ht.ringMove s)) h

/-- What is pushed answers an admitted SUBMIT of the session it is pushed to. -/
theorem pushed_committed {ok : Sys → Act → Prop} (h : ReachBy ok st) {p : Sid × Completion}
    (hp : p ∈ st.pushed) : ∃ k < st.nsubmits, (st.submits k).pc.committed = true ∧
      (st.submits k).sess = p.1 ∧ (st.submits k).cmdId = p.2.cmdId := by
  have hadm := (balanced h).mem_admitted (List.mem_map.mpr ⟨p, hp, rfl⟩)
  obtain ⟨k, hk, hs, hid⟩ := ticket_admitted h hadm
  exact ⟨k, (callInv h).lt_of_committed hk, hk, hs, hid⟩

/-- No command id is pushed twice. -/
theorem pushed_nodup {ok : Sys → Act → Prop} (h : ReachBy ok st) :
    (st.pushed.map (·.2.cmdId)).Nodup := by
  have hnodup := (balanced h).delivered_nodup Prod.snd ?_
  · simpa only [ledgerOf, List.map_map, Function.comp_def, pushTicket] using hnodup
  · have := (admInv h).nodup
    simpa only [ledgerOf, List.map_map, Function.comp_def, Admitted.ticket] using this

/-- Completion isolation: whatever is pushed into a session's ring, and whatever a read can
find there, answers an admitted SUBMIT of that session, and no command id is pushed twice. -/
theorem completion_isolation (h : Reachable st) :
    (∀ p ∈ st.pushed, ∃ k < st.nsubmits, (st.submits k).pc.committed = true ∧
      (st.submits k).sess = p.1 ∧ (st.submits k).cmdId = p.2.cmdId) ∧
    (st.pushed.map (·.2.cmdId)).Nodup ∧
    (∀ s, ∀ c ∈ (st.compRing s).unread, (s, c) ∈ st.pushed) := by
  refine ⟨fun p hp ↦ pushed_committed h hp, pushed_nodup h, ?_⟩
  intro s c hc
  exact mem_ofSess.mp ((ringInv h s).last.subset hc)

/-- Two sessions, one command each, completed in the opposite order. -/
theorem completion_isolation_crossed : ∃ st : Sys, Reachable st ∧
    st.pushed.map (fun p ↦ (p.1, p.2.cmdId)) = [(1, 3), (0, 2)] ∧
    (∀ p ∈ st.pushed, ∃ k < st.nsubmits, (st.submits k).pc.committed = true ∧
      (st.submits k).sess = p.1 ∧ (st.submits k).cmdId = p.2.cmdId) ∧
    (st.pushed.map (·.2.cmdId)).Nodup := by
  have hrun : (run step Sys.init (.chrOpen :: .chrOpen :: allocScript 0 0 ++ allocScript 1 1 ++
      submitScript 0 0 0 14 ++ submitScript 1 1 1 14 ++ [.fetch] ++ completeScript 1 12 ++
      [.post 0 statusOk, .postStep, .postStep, .irq] ++ List.replicate 12 .isrStep)).any
      (fun st ↦ st.pushed.map (fun p ↦ (p.1, p.2.cmdId)) == [(1, 3), (0, 2)]) = true := by
    decide +kernel
  obtain ⟨st, hr, hp⟩ := Reach.exists_of_run hrun
  obtain ⟨hown, hnodup, -⟩ := completion_isolation hr
  exact ⟨st, hr, eq_of_beq hp, hown, hnodup⟩

end DmaAccel.Driver
