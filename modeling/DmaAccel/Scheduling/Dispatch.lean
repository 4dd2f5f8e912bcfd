import DmaAccel.Runtime.Context
import DmaAccel.Scheduling.Scheduler

/-!
# The order of dispatch

Both schedulers make their submissions in round-robin order: by position in the queue,
then by index of the queue. When a submission throws, `run_round` keeps everything that is
not dispatched except the request that failed, which it had already taken off its queue.
-/

namespace DmaAccel.Scheduling

open Base
open DmaAccel.Runtime (Buffer Context PendingCopy Thrown)
open DmaAccel.Driver (U32 opcodeCopy)

universe u v w x

variable {κ : Type u} {σ : Type v} {ε : Type w} {φ : Type x}

/-- `ps` lists every place of queues of the given lengths, in lexicographic order. -/
def RoundRobin (lens : List Nat) (ps : List (Nat × Nat)) : Prop :=
  ps.Pairwise Before ∧ ∀ p, p ∈ ps ↔ p.1 < lens.getD p.2 0

theorem roundRobin_places (lens : List Nat) : RoundRobin lens (places lens) :=
  ⟨pairwise_places lens, fun _ ↦ mem_places⟩

/-- Taking everything from the queues empties them. -/
theorem emptied {qs qs' : List (List κ)} (h : Consumed qs (items qs) qs') :
    qs' = qs.map fun _ ↦ [] := by
  apply List.ext_getElem (by rw [h.length, List.length_map])
  intro i hi hi'
  have hleft := h.left i
  rw [List.getD_eq_getElem _ _ hi, countOf_items, List.drop_length] at hleft
  rw [hleft, List.getElem_map]

/-- On queues of the same shape both schedulers end, and where the submissions made in one and
the same round-robin order all return, each makes all of them in that order, once each, and
leaves its queues empty. -/
theorem schedulers_agree {ρ : Type u} {τ : Type v} {δ : Type w} {ψ : Type x}
    (call : κ → σ → Except ε φ × σ) (submit : Nat → ρ → τ → Except δ ψ × τ)
    (queues : List (List κ)) (pending : List (List ρ))
    (hshape : pending.map List.length = queues.map List.length) (world : σ) (world' : τ)
    (fuel : Nat) (hf : longest (queues.map List.length) < fuel) :
    ∃ ps, RoundRobin (queues.map List.length) ps ∧
      (∃ r, StreamScheduler.run call fuel queues world = some r ∧
        (∀ o, sendAll (tagged call) (ps.filterMap (elementAt queues)) ⟨world, []⟩ = .ok o →
          ∃ st, r = .ok st ∧ st.served.sent = o ∧ st.queues = queues.map (fun _ ↦ []) ∧
            st.results.map (·.streamIndex) = ps.map (·.2)) ∧
        ∀ e o, sendAll (tagged call) (ps.filterMap (elementAt queues)) ⟨world, []⟩ =
          .error (e, o) → ∃ st, r = .error (e, st) ∧ st.served.sent = o) ∧
      ∃ r, Scheduler.runRound submit fuel pending world' = some r ∧
        (∀ o, sendAll submit (ps.filterMap (elementAt pending)) ⟨world', []⟩ = .ok o →
          ∃ st, r = .ok st ∧ ⟨st.world, st.dispatched⟩ = o ∧
            st.pending = pending.map (fun _ ↦ []) ∧
            st.dispatched.map (·.1) = ps.map (·.2)) ∧
        ∀ e o, sendAll submit (ps.filterMap (elementAt pending)) ⟨world', []⟩ =
          .error (e, o) → ∃ st, r = .error (e, st) ∧ ⟨st.world, st.dispatched⟩ = o := by
  refine ⟨places (queues.map List.length), roundRobin_places _, ?_, ?_⟩
  · obtain ⟨r, r', hr, hexit, hperf⟩ := StreamScheduler.run_performs call world hf
    refine ⟨r, hr, fun o ho ↦ ?_, fun e o ho ↦ ?_⟩
    · obtain ⟨sv, rfl, hsent, hcons⟩ := hperf.of_ok ho
      obtain ⟨st, rfl, rfl⟩ := hexit.ok_right
      refine ⟨st, rfl, hsent, emptied hcons, ?_⟩
      have hres : o.results.map (·.1) = [] ++ (items queues).map (·.1) := map_fst_results ho
      have hmap : o.results.map (·.1) = st.results.map (·.streamIndex) := by
        simp only [← hsent, StreamRun.served, List.map_map]
        rfl
      rw [map_fst_items, hmap] at hres
      exact hres
    · obtain ⟨sv, rfl, hsent, -⟩ := hperf.of_error ho
      obtain ⟨st, rfl, rfl⟩ := hexit.error_right
      exact ⟨st, rfl, hsent⟩
  · rw [← hshape] at hf ⊢
    obtain ⟨r, r', hr, hexit, hperf⟩ := Scheduler.runRound_performs submit world' hf
    refine ⟨r, hr, fun o ho ↦ ?_, fun e o ho ↦ ?_⟩
    · obtain ⟨sv, rfl, hsent, hcons⟩ := hperf.of_ok ho
      obtain ⟨st, rfl, hst⟩ := hexit.ok_right
      refine ⟨st, rfl, ?_, hst.pending.trans (emptied hcons), ?_⟩
      · rw [hst.world, hst.dispatched, hsent]
      · have hres : o.results.map (·.1) = [] ++ (items pending).map (·.1) := map_fst_results ho
        rw [map_fst_items] at hres
        rw [hst.dispatched, hsent]
        exact hres
    · obtain ⟨sv, rfl, hsent, -⟩ := hperf.of_error ho
      obtain ⟨st, rfl, hst⟩ := hexit.error_right
      exact ⟨st, rfl, by rw [hst.world, hst.dispatched, hsent]⟩

/-- Three commands against one, as the schedulers' own tests have them. -/
theorem schedulers_agree_three_one : ∃ ps, RoundRobin [3, 1] ps ∧ ∃ st,
    Scheduler.runRound (fun i req w ↦ ((.ok (i, req) : Except Unit (Nat × Nat)), w + 1)) 4
      [[0, 1, 2], [3]] 0 = some (.ok st) ∧
    st.pending = [[], []] ∧ st.dispatched.map (·.1) = ps.map (·.2) := by
  obtain ⟨ps, hps, -, r, hr, hok, -⟩ := schedulers_agree
    (fun c w ↦ ((.ok c : Except Unit Nat), w + 1))
    (fun i req w ↦ ((.ok (i, req) : Except Unit (Nat × Nat)), w + 1))
    [[0, 1, 2], [3]] [[0, 1, 2], [3]] rfl 0 0 4 (by decide)
  obtain ⟨o, ho⟩ : ∃ o, sendAll
      (fun i req w ↦ ((.ok (i, req) : Except Unit (Nat × Nat)), w + 1))
      (ps.filterMap (elementAt [[0, 1, 2], [3]])) ⟨0, []⟩ = .ok o :=
    sendAll_of_returns fun _ _ _ _ h ↦ by cases h
  obtain ⟨st, rfl, -, hempty, hord⟩ := hok o ho
  exact ⟨ps, hps, st, hr, hempty, hord⟩

/-! ### A round that fails -/

/-- Where a round on the queues `pending` throws, the requests dispatched are those before
one request in the order of service, and that one and all the others are still pending in
their order. -/
def LosesNothing (submit : Nat → κ → σ → Except ε φ × σ) (pending : List (List κ)) (world : σ)
    (r : Except (ε × Round κ σ φ) (Round κ σ φ)) : Prop :=
  ∀ e st, r = .error (e, st) → ∃ pre it post w, items pending = pre ++ it :: post ∧
    sendAll submit pre ⟨world, []⟩ = .ok ⟨w, st.dispatched⟩ ∧
    (submit it.1 it.2 w).1 = .error e ∧
    ∀ i, st.pending.getD i [] = (pending.getD i []).drop (countOf i pre)

/-- Two beginnings of one list after which the same number of calls returned are equal. -/
theorem prefix_unique {call : Nat → κ → σ → Except ε φ × σ} {a b pre pre' : List (Nat × κ)}
    {o o₁ o₂ : Sent σ φ} (h : pre ++ a = pre' ++ b) (h₁ : sendAll call pre o = .ok o₁)
    (h₂ : sendAll call pre' o = .ok o₂) (hr : o₁.results = o₂.results) : pre = pre' := by
  have hl := congrArg List.length (map_fst_results h₁)
  have hl' := congrArg List.length (map_fst_results h₂)
  simp only [List.length_map, List.length_append] at hl hl'
  rw [hr] at hl
  exact (List.append_inj h (by omega)).1

/-- A round keeps what it has not dispatched exactly when no submission of it throws: a
request that throws is off its queue, and everything behind it is left. -/
theorem runRound_keeps (submit : Nat → κ → σ → Except ε φ × σ) (pending : List (List κ))
    (world : σ) (fuel : Nat) (hf : longest (pending.map List.length) < fuel) :
    ∃ r, Scheduler.runRound submit fuel pending world = some r ∧
      (LosesNothing submit pending world r ↔
        ∃ o, sendAll submit (items pending) ⟨world, []⟩ = .ok o) ∧
      ∀ e st, r = .error (e, st) → ∃ pre it post w, items pending = pre ++ it :: post ∧
        sendAll submit pre ⟨world, []⟩ = .ok ⟨w, st.dispatched⟩ ∧
        (submit it.1 it.2 w).1 = .error e ∧
        ∀ i, st.pending.getD i [] = (pending.getD i []).drop (countOf i (pre ++ [it])) := by
  obtain ⟨r, r', hr, hexit, hperf⟩ := Scheduler.runRound_performs submit world hf
  refine ⟨r, hr, ?_⟩
  cases hperf with
  | done hsent hcons =>
    obtain ⟨st, rfl, hst⟩ := hexit.ok_right
    refine ⟨⟨fun _ ↦ ⟨_, hsent⟩, fun _ ↦ ?_⟩, ?_⟩
    · intro e st' h
      cases h
    · intro e st' h
      cases h
  | threw hsent hcons =>
    obtain ⟨st, rfl, hst⟩ := hexit.error_right
    obtain ⟨pre, it, post, o, hits, hpre, htried, hc, hres⟩ := sendAll_eq_error hsent
    have hdisp : st.dispatched = o.results := hst.dispatched.trans hres
    have hsend : sendAll submit pre ⟨world, []⟩ = .ok ⟨o.world, st.dispatched⟩ := by
      rw [hdisp]
      exact hpre
    have hleft (i : Nat) :
        st.pending.getD i [] = (pending.getD i []).drop (countOf i (pre ++ [it])) := by
      rw [hst.pending, hcons.left, htried]
    refine ⟨⟨fun h ↦ ?_, fun ⟨o', ho'⟩ ↦ ?_⟩, ?_⟩
    · -- Its queue would have to be longer by the request that failed.
      exfalso
      obtain ⟨pre', it', post', w', hits', hpre', -, hkept⟩ := h _ _ rfl
      have hsame : pre = pre' := prefix_unique (hits.symm.trans hits') hsend hpre' rfl
      have hlen := congrArg List.length ((hleft it.1).symm.trans (hkept it.1))
      have hall := countOf_items pending it.1
      have hone : countOf it.1 [it] = 1 := by simp [countOf]
      rw [hits, countOf_append, show it :: post = [it] ++ post from rfl, countOf_append,
        hone] at hall
      rw [← hsame, countOf_append, hone, List.length_drop, List.length_drop] at hlen
      omega
    · rw [ho'] at hsent
      cases hsent
    · rintro e st' h
      cases h
      exact ⟨pre, it, post, o.world, hits, hsend, congrArg (·.1) hc, hleft⟩

/-- The call `run_round` makes for a request, of Contexts over a driver that accepts everything
and numbers it; `buf` are the Buffer objects. -/
def dispatchCopy (ctx : Nat → Context) (buf : Nat → Buffer) (i : Nat) (req : PendingCopy)
    (seq : Nat) : Except Thrown Nat × Nat :=
  match (ctx i).submit opcodeCopy (buf req.src) req.srcOffset (buf req.dst) req.dstOffset
    req.len with
  | .ok _ => (.ok (seq + 1), seq + 1)
  | .error e => (.error e, seq)

/-- Context `i` has allocated Buffer `i` and no other. -/
private def owned : Nat → PendingCopy → Nat → Except Thrown Nat × Nat :=
  dispatchCopy (fun i ↦ ⟨toString i, .opened i, {BitVec.ofNat 32 i}⟩)
    fun i ↦ ⟨some i, 4096, BitVec.ofNat 32 i⟩

/-- A copy of 16 bytes inside Buffer `i`. -/
private def copyWithin (i : Nat) : PendingCopy := ⟨i, 0, i, 0, 16⟩

/-- Two Contexts that own one Buffer each; the second Context's only request submits. -/
theorem runRound_keeps_two : ∃ r,
    Scheduler.runRound owned 2 [[copyWithin 0], [copyWithin 1]] 0 = some r ∧
      LosesNothing owned [[copyWithin 0], [copyWithin 1]] 0 r := by
  obtain ⟨r, hr, hiff, -⟩ :=
    runRound_keeps owned [[copyWithin 0], [copyWithin 1]] 0 2 (by decide)
  exact ⟨r, hr, hiff.mpr ⟨_, rfl⟩⟩

/-- The first Context has enqueued a copy of the second one's Buffer and a copy of its own:
the round throws at the first, and only the second is still pending. -/
theorem runRound_drops_request : ∃ r,
    Scheduler.runRound owned 3 [[copyWithin 1, copyWithin 0], [copyWithin 1]] 0 = some r ∧
      ¬LosesNothing owned [[copyWithin 1, copyWithin 0], [copyWithin 1]] 0 r := by
  refine ⟨_, rfl, fun h ↦ ?_⟩
  obtain ⟨pre, it, post, w, -, hsent, -, hkept⟩ := h _ _ rfl
  have hnil : pre = [] := by
    have hres := map_fst_results hsent
    exact List.map_eq_nil_iff.mp hres.symm
  have hlen := congrArg List.length (hkept 0)
  subst hnil
  exact absurd hlen (by decide)

end DmaAccel.Scheduling
