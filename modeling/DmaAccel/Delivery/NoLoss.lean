import DmaAccel.Delivery.Isolation

/-!
# Whether a routed completion can be lost before it is read

Source `track-a/dma_accel_drv.c`: `COMP_RING_SIZE` (71–79), the ring push of
`dma_accel_irq_handler` (342–374) and `dma_accel_chr_read` (1765–1817). Admission bounds the
commands at the device, not the completions a session has yet to read. Nothing is lost where
the session itself keeps its commands, from admission to the read that takes their
completion, within the size of its ring.
-/

namespace DmaAccel.Driver

open DmaAccel.Base

/-- The entry `dma_accel_chr_read` copies out for a completion. -/
def Completion.toUser (c : Completion) : Completion := { c with reserved := 0 }

/-- The completion of session `s` that a read has taken from the ring and is copying out. -/
def Read.hand (s : Sid) (c : Read) : Option Completion :=
  if c.pc = .copy ∧ c.sess = s then some c.out else Option.none

/-- Completions of `s` that reads in progress are copying out. -/
def inHand (st : Sys) (s : Sid) : Multiset Completion :=
  bag (Read.hand s) (Finset.range st.nreads) st.reads

/-- The action is a fault in the buffer of a read. -/
def Act.isReadFault : Act → Bool
  | .readFault _ => true
  | _ => false

/-- Reads go into valid buffers. -/
def ValidReads (_ : Sys) (a : Act) : Prop := a.isReadFault = false

instance (st : Sys) (a : Act) : Decidable (ValidReads st a) := inferInstanceAs (Decidable (_ = _))

/-- Reads go into valid buffers, and a session has a command admitted only while fewer than
`COMP_RING_SIZE` of its commands are unrouted or routed and unread. -/
def ReadsKeepUp (st : Sys) (a : Act) : Prop :=
  ValidReads st a ∧ ∀ k ∈ a.submitCall, admits st k →
    (unroutedOf st (st.submits k).sess).length + (st.compRing (st.submits k).sess).pending <
      compRingSize

instance (st : Sys) (a : Act) : Decidable (ReadsKeepUp st a) :=
  inferInstanceAs (Decidable (_ ∧ ∀ k ∈ a.submitCall, _))

/-- Every completion routed to the session was taken by a read, in order, or is unread in its
ring; what was taken is in user memory or being copied there; and the handler never finds
the ring full. -/
structure Kept (st : Sys) (s : Sid) : Prop where
  ring : ofSess st.pushed s = ofSess st.taken s ++ (st.compRing s).unread
  reads : (((ofSess st.taken s).map Completion.toUser : List Completion) : Multiset Completion) =
    (ofSess st.delivered s : Multiset Completion) + inHand st s
  room : st.isr.pc = .push → st.isr.owner = s → (st.compRing s).pending < compRingSize

variable {st st' : Sys} {a : Act}

section Room

/-- Admissions to one session are its unrouted commands and the pushes to its ring. -/
private theorem unroutedOf_add_pushed {ok : Sys → Act → Prop} (h : ReachBy ok st) (s : Sid) :
    (unroutedOf st s).length + (ofSess st.pushed s).length =
      st.admitted.countP (fun x ↦ x.sess = s) := by
  have hb := (balanced h).countP fun t ↦ t.1 = s
  have hpush : (ledgerOf st).delivered.countP (fun t ↦ t.1 = s) =
      (ofSess st.pushed s).length := by
    simp only [ledgerOf, List.countP_map, ofSess, List.length_map,
      ← List.countP_eq_length_filter]
    rfl
  have hadm : (ledgerOf st).admitted.countP (fun t ↦ t.1 = s) =
      st.admitted.countP (fun x ↦ x.sess = s) := by
    simp only [ledgerOf, List.countP_map]
    rfl
  rw [length_unroutedOf h, ← hpush, ← hadm]
  exact hb.symm

/-- Unrouted and unread commands together fit into the ring, in terms of the histories. -/
private def Fits (st : Sys) (s : Sid) : Prop :=
  st.admitted.countP (fun x ↦ x.sess = s) + (st.compRing s).pending ≤
    (ofSess st.pushed s).length + compRingSize

private theorem fits_step {ok : Sys → Act → Prop} (hr : ReachBy ok st) {s : Sid}
    (hi : Fits st s) (hok : ReadsKeepUp st a) (h : Trans st a st') : Fits st' s := by
  unfold Fits at hi ⊢
  rcases h.admitted_cases with he | ⟨k, hk, -, hadm, he⟩
  · rw [he]
    cases h.ringMove s with
    | keep hring hp _ =>
      rw [hring, hp]
      exact hi
    | push _ _ hring hp _ =>
      have hle : ((st.compRing s).push st.isr.comp).pending ≤ (st.compRing s).pending + 1 := by
        rw [← CompRing.length_unread, ← CompRing.length_unread]
        rcases Nat.lt_or_eq_of_le (ringInv hr s).bound with hlt | heq
        · rw [CompRing.unread_push hlt, List.length_append, List.length_singleton]
        · obtain ⟨x, rest, hu, hpush⟩ := CompRing.unread_push_full (c := st.isr.comp) heq
          rw [hu, hpush, List.length_append]
          simp only [List.length_cons, List.length_nil]
          omega
      rw [hring, hp, List.length_append, List.length_singleton]
      omega
    | pop c r hpop hring hp _ =>
      have hlen := congrArg List.length (CompRing.unread_pop hpop)
      rw [CompRing.length_unread, List.length_cons, CompRing.length_unread] at hlen
      rw [hring, hp]
      omega
  · -- the admission itself moves no ring
    have hsame : st'.compRing = st.compRing ∧ st'.pushed = st.pushed := by
      cases h with
      | push hp => cases hk
      | pop l out r hl hp => cases hk
      | _ => exact ⟨rfl, rfl⟩
    have hcap := hok.2 k hk hadm
    have hcount := unroutedOf_add_pushed hr (st.submits k).sess
    rw [he, hsame.1, hsame.2, List.countP_append, List.countP_singleton]
    by_cases hs : (st.submits k).sess = s
    · subst hs
      simp only [Submit.toAdmitted, decide_true, ite_true]
      omega
    · simp only [Submit.toAdmitted, hs, decide_false, Bool.false_eq_true, ite_false]
      omega

private theorem fits (h : ReachBy ReadsKeepUp st) (s : Sid) : Fits st s := by
  refine invariant_of_trans (I := fun st ↦ Fits st s) ?_
    (fun _ _ _ hr hi hok ht ↦ fits_step hr hi hok ht) h
  have hempty := (RingInv.init s).bound
  simpa [Fits, Sys.init, ofSess] using hempty

/-- The handler never finds the ring full. -/
private theorem room (h : ReachBy ReadsKeepUp st) (s : Sid) (hp : st.isr.pc = .push)
    (ho : st.isr.owner = s) : (st.compRing s).pending < compRingSize := by
  have hfits := fits h s
  have hcount := unroutedOf_add_pushed h s
  -- the completion in hand is one of the unrouted commands
  have hhand : 1 ≤ (unroutedOf st s).length := by
    rw [length_unroutedOf h]
    simp [Ledger.outstanding, ledgerOf, Isr.ticket, hp, ho, countP_optBag_some]
  unfold Fits at hfits
  omega

end Room

section Reads

/-- How a step moves completions through the reads of one session. -/
private inductive ReadsMove (st st' : Sys) (s : Sid) : Prop where
  | keep : ofSess st'.taken s = ofSess st.taken s →
      ofSess st'.delivered s = ofSess st.delivered s → inHand st' s = inHand st s →
      ReadsMove st st' s
  | take (c : Completion) : ofSess st'.taken s = ofSess st.taken s ++ [c] →
      ofSess st'.delivered s = ofSess st.delivered s →
      inHand st' s = inHand st s + {c.toUser} → ReadsMove st st' s
  | give (c : Completion) : ofSess st'.taken s = ofSess st.taken s →
      ofSess st'.delivered s = ofSess st.delivered s ++ [c] →
      inHand st' s + {c} = inHand st s → ReadsMove st st' s

private theorem hands_move {k : Nat} (hk : k < st.nreads) (c : Read) (s : Sid) :
    bag (Read.hand s) (Finset.range st.nreads) (Function.update st.reads k c) +
      optBag ((st.reads k).hand s) = inHand st s + optBag (c.hand s) :=
  bag_update (Finset.mem_range.mpr hk) c

private theorem hands_same {k : Nat} (hk : k < st.nreads) {c : Read} {s : Sid}
    (hc : c.hand s = (st.reads k).hand s) :
    bag (Read.hand s) (Finset.range st.nreads) (Function.update st.reads k c) =
      inHand st s := by
  have := hands_move hk c s
  rw [hc] at this
  exact add_right_cancel this

private theorem hands_take {k : Nat} (hk : k < st.nreads) {c : Read} {s : Sid} {x : Completion}
    (h0 : (st.reads k).hand s = none) (hc : c.hand s = some x) :
    bag (Read.hand s) (Finset.range st.nreads) (Function.update st.reads k c) =
      inHand st s + {x} := by
  have := hands_move hk c s
  rwa [h0, hc, optBag, optBag, Option.elim_none, Option.elim_some, add_zero] at this

private theorem hands_give {k : Nat} (hk : k < st.nreads) {c : Read} {s : Sid} {x : Completion}
    (h0 : (st.reads k).hand s = some x) (hc : c.hand s = none) :
    bag (Read.hand s) (Finset.range st.nreads) (Function.update st.reads k c) + {x} =
      inHand st s := by
  have := hands_move hk c s
  rwa [h0, hc, optBag, optBag, Option.elim_none, Option.elim_some, add_zero] at this

private theorem hand_other {s : Sid} {c : Read} (h : c.sess ≠ s) : c.hand s = none :=
  if_neg fun hc ↦ h hc.2

private theorem hand_idle {s : Sid} {c : Read} (h : c.pc ≠ .copy) : c.hand s = none :=
  if_neg fun hc ↦ h hc.1

private theorem hand_copy {s : Sid} {c : Read} (h : c.pc = .copy) (hs : c.sess = s) :
    c.hand s = some c.out := if_pos ⟨h, hs⟩

/-- Every step without a fault moves completions in one of these ways. -/
private theorem Trans.readsMove (h : Trans st a st') (hok : ValidReads st a) (s : Sid) :
    ReadsMove st st' s := by
  cases h with
  | read r bytes hr =>
    refine .keep rfl rfl ?_
    have henter := bag_range_succ (t := Read.hand s) (f := st.reads) (n := st.nreads)
      { Read.none with sess := r, bytes := bytes, pc := .avail }
    rw [hand_idle (by simp), optBag, Option.elim_none, add_zero] at henter
    exact henter
  | readLocal _ k c hk hl =>
    refine .keep rfl rfl (hands_same hk ?_)
    have hidle : (st.reads k).pc ≠ .copy ∧ c.pc ≠ .copy := by
      cases hl <;> simp_all
    rw [hand_idle hidle.1, hand_idle hidle.2]
  | pop k out r hk hp hc hr =>
    by_cases hs : (st.reads k).sess = s
    · refine .take out ?_ rfl ?_
      · exact (ofSess_append ..).trans (by rw [if_pos hs])
      · exact hands_take hk (hand_idle (by simp [hp])) (hand_copy rfl hs)
    · refine .keep ?_ rfl (hands_same hk ?_)
      · exact (ofSess_append ..).trans (by rw [if_neg hs, List.append_nil])
      · rw [hand_other hs]
        exact hand_other hs
  | copy k hk hp =>
    by_cases hs : (st.reads k).sess = s
    · refine .give (st.reads k).out rfl ?_ ?_
      · exact (ofSess_append ..).trans (by rw [if_pos hs])
      · exact hands_give hk (hand_copy hp hs) (hand_idle (by simp))
    · refine .keep rfl ?_ (hands_same hk ?_)
      · exact (ofSess_append ..).trans (by rw [if_neg hs, List.append_nil])
      · rw [hand_other hs]
        exact hand_other hs
  | copyFault k hk hp => cases hok
  | _ => exact .keep rfl rfl rfl

/-- Reads conserve the completions they take. -/
private theorem reads_step {s : Sid}
    (hi : (((ofSess st.taken s).map Completion.toUser : List Completion) : Multiset Completion) =
      (ofSess st.delivered s : Multiset Completion) + inHand st s)
    (h : ReadsMove st st' s) :
    (((ofSess st'.taken s).map Completion.toUser : List Completion) : Multiset Completion) =
      (ofSess st'.delivered s : Multiset Completion) + inHand st' s := by
  cases h with
  | keep ht hd hh => rw [ht, hd, hh, hi]
  | take c ht hd hh =>
    rw [ht, hd, hh, List.map_append, ← Multiset.coe_add, hi, add_assoc]
    rfl
  | give c ht hd hh =>
    rw [ht, hd, hi, ← hh, ← Multiset.coe_add, add_assoc, add_comm (inHand st' s)]
    rfl

end Reads

/-- Where a session keeps its unrouted and unread commands within the size of its ring, no
completion routed to it is lost. -/
theorem completions_kept (h : ReachBy ReadsKeepUp st) (s : Sid) : Kept st s := by
  refine ⟨?_, ?_, room h s⟩
  · refine invariant_of_trans (I := fun st ↦ ofSess st.pushed s = ofSess st.taken s ++
      (st.compRing s).unread) (by rw [unread_init]; rfl) ?_ h
    intro st a st' hr hi _ ht
    cases ht.ringMove s with
    | keep hring hp htk => rw [hring, hp, htk, hi]
    | push hpc ho hring hp htk =>
      rw [hring, hp, htk, hi, CompRing.unread_push (room hr s hpc ho), List.append_assoc]
    | pop c r hpop hring hp htk =>
      rw [hring, hp, htk, hi, CompRing.unread_pop hpop, List.append_assoc]
      rfl
  · refine invariant_of_trans (I := fun st ↦
      (((ofSess st.taken s).map Completion.toUser : List Completion) : Multiset Completion) =
      (ofSess st.delivered s : Multiset Completion) + inHand st s) rfl ?_ h
    intro st a st' _ hi hok ht
    exact reads_step hi (ht.readsMove hok.1 s)

/-- Script: `n` rounds in which session 0 has one command executed and routed. -/
def roundsScript (n : Nat) : List Act :=
  (List.range n).flatMap fun k ↦ submitScript 0 0 k 14 ++ completeScript k 12

/-- Session 0 has one completion routed, reads it and has another one routed. -/
theorem completions_kept_read : ∃ st : Sys, ReachBy ReadsKeepUp st ∧
    (ofSess st.delivered 0).map (·.cmdId) = [2] ∧
    (st.compRing 0).unread.map (·.cmdId) = [3] ∧
    ofSess st.pushed 0 = ofSess st.taken 0 ++ (st.compRing 0).unread := by
  have hrun : (runChecked step (fun st a ↦ decide (ReadsKeepUp st a)) Sys.init
      (.chrOpen :: allocScript 0 0 ++ roundsScript 1 ++ .read 0 16 ::
        List.replicate 4 (.readStep 0) ++ submitScript 0 0 1 14 ++ completeScript 1 12)).any
      (fun st ↦ decide ((ofSess st.delivered 0).map (·.cmdId) = [2] ∧
        (st.compRing 0).unread.map (·.cmdId) = [3])) = true := by decide +kernel
  obtain ⟨st, hr, hp⟩ := Reach.exists_of_runChecked (fun _ _ hc ↦ of_decide_eq_true hc) hrun
  obtain ⟨hd, hu⟩ := of_decide_eq_true hp
  exact ⟨st, hr, hd, hu, (completions_kept hr 0).ring⟩

/-- Sixty-five rounds without a read: the last push drops a completion nobody has read. -/
theorem completion_dropped : ¬∀ (st : Sys) (s : Sid), ReachBy ValidReads st →
    ∀ c ∈ ofSess st.pushed s, c ∈ ofSess st.taken s ∨ c ∈ (st.compRing s).unread := by
  have hrun : (runChecked step (fun st a ↦ decide (ValidReads st a)) Sys.init
      (.chrOpen :: allocScript 0 0 ++ roundsScript 65)).any
      (fun st ↦ (ofSess st.pushed 0).any fun c ↦
        decide (c ∉ ofSess st.taken 0 ∧ c ∉ (st.compRing 0).unread)) = true := by
    decide +kernel
  obtain ⟨st, hr, hp⟩ := Reach.exists_of_runChecked (fun _ _ hc ↦ of_decide_eq_true hc) hrun
  obtain ⟨c, hc, hlost⟩ := List.any_eq_true.mp hp
  obtain ⟨htaken, hunread⟩ := of_decide_eq_true hlost
  intro hall
  exact (hall st 0 hr c hc).elim htaken hunread

end DmaAccel.Driver
