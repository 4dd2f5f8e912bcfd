import DmaAccel.Delivery.Isolation

/-!
# What a read consumes

Source `track-a/dma_accel_drv.c`: `dma_accel_chr_read` (1765–1817). The head of the ring is
advanced under `comp_lock` before the entry is copied out, once for each entry, and a copy that
fails ends the call. A call is followed from its entry to its return over any ring, any count
and any pattern of failing copies.
-/

namespace DmaAccel.Driver

open DmaAccel.Base

/-- The next step of call `k` of `read()`, whose `j`-th copy to user space fails where `faults`
says so. -/
def readNext (faults : Nat → Bool) (k : Nat) (st : Sys) : Option Sys :=
  if (st.reads k).pc = .copy ∧ faults (st.reads k).copied = true then readFault st k
  else readStep st k

/-- The call runs to its return. -/
inductive ReadsTo (faults : Nat → Bool) (k : Nat) : Sys → Sys → Prop where
  | done {st : Sys} : (st.reads k).pc = .returned → ReadsTo faults k st st
  | step {st st' st'' : Sys} : readNext faults k st = some st' → ReadsTo faults k st' st'' →
      ReadsTo faults k st st''

/-- A ring entry as user space sees it. -/
def uapiEntry (s : Sid) (c : Completion) : Sid × Completion := (s, { c with reserved := 0 })

/-- The call has removed from the ring what it has copied out and returned the size of. -/
def ConsumesExactly (s : Sid) (k : Nat) (st st' : Sys) : Prop :=
  match (st'.reads k).ret with
  | .ok n => ∃ m, n = m * completionBytes ∧
      (st'.compRing s).unread = (st.compRing s).unread.drop m ∧
      st'.delivered = st.delivered ++ ((st.compRing s).unread.take m).map (uapiEntry s)
  | .err _ => st'.compRing s = st.compRing s

/-- How many entries a call tries to deliver. -/
def readWanted (r : CompRing) (bytes : Nat) : Nat := min (bytes / completionBytes) r.pending

theorem readWanted_le (r : CompRing) (bytes : Nat) : readWanted r bytes ≤ r.unread.length := by
  rw [CompRing.length_unread]
  exact Nat.min_le_right _ _

variable {faults : Nat → Bool} {k : Nat} {s : Sid} {st st' st'' : Sys} {j n : Nat}

/-- A call has one outcome. -/
theorem ReadsTo.unique (h : ReadsTo faults k st st') (h' : ReadsTo faults k st st'') :
    st' = st'' := by
  have hdone {st st1 : Sys} (hp : (st.reads k).pc = .returned)
      (hs : readNext faults k st = some st1) : False := by
    simp [readNext, readStep, hp] at hs
  induction h with
  | done hp =>
    cases h' with
    | done => rfl
    | step hs _ => exact (hdone hp hs).elim
  | step hs _ ih =>
    cases h' with
    | done hp => exact (hdone hp hs).elim
    | step hs' hr =>
      rw [hs] at hs'
      cases hs'
      exact ih hr

/-- The call is about to take entry `j` of `n`; it has delivered those before it. -/
structure AtEntry (k : Nat) (s : Sid) (st0 : Sys) (n j : Nat) (st : Sys) : Prop where
  pc : (st.reads k).pc = .pop
  sess : (st.reads k).sess = s
  wanted : (st.reads k).nWant = n
  copied : (st.reads k).copied = j
  unread : (st.compRing s).unread = (st0.compRing s).unread.drop j
  delivered : st.delivered = st0.delivered ++ ((st0.compRing s).unread.take j).map (uapiEntry s)

/-- The entry has been taken off the ring, and not yet copied out. -/
structure InHand (k : Nat) (s : Sid) (st0 : Sys) (n j : Nat) (st : Sys) : Prop where
  pc : (st.reads k).pc = .copy
  sess : (st.reads k).sess = s
  wanted : (st.reads k).nWant = n
  copied : (st.reads k).copied = j
  out : ∃ c, (st0.compRing s).unread[j]? = some c ∧ (s, (st.reads k).out) = uapiEntry s c
  unread : (st.compRing s).unread = (st0.compRing s).unread.drop (j + 1)
  delivered : st.delivered = st0.delivered ++ ((st0.compRing s).unread.take j).map (uapiEntry s)

section Loop

variable {st0 : Sys}

/-- The loop takes the next entry. -/
theorem AtEntry.pop (faults : Nat → Bool) (h : AtEntry k s st0 n j st) (hj : j < n)
    (hn : n ≤ (st0.compRing s).unread.length) :
    ∃ st', readNext faults k st = some st' ∧ InHand k s st0 n j st' := by
  have hlt : j < (st0.compRing s).unread.length := Nat.lt_of_lt_of_le hj hn
  cases hpop : (st.compRing s).pop with
  | none =>
    have hnil := CompRing.unread_of_pop_none hpop
    rw [h.unread, List.drop_eq_nil_iff] at hnil
    omega
  | some x =>
    obtain ⟨c, r⟩ := x
    have hu := CompRing.unread_pop hpop
    rw [h.unread, List.drop_eq_getElem_cons hlt, List.cons.injEq] at hu
    have hnext : readNext faults k st = some { st with
        compRing := Function.update st.compRing s r
        taken := st.taken ++ [(s, c)]
        reads := Function.update st.reads k
          { st.reads k with pc := .copy, out := { c with reserved := 0 } } } := by
      simp [readNext, readStep, h.pc, h.sess, h.copied, h.wanted, hj, hpop]
    refine ⟨_, hnext, ?_⟩
    constructor
    · simp
    · simpa using h.sess
    · simpa using h.wanted
    · simpa using h.copied
    · refine ⟨c, ?_, ?_⟩
      · rw [List.getElem?_eq_getElem hlt, hu.1]
      · simp [uapiEntry]
    · simp only [Function.update_self]
      exact hu.2.symm
    · exact h.delivered

/-- An entry is copied out. -/
theorem InHand.copy (h : InHand k s st0 n j st) (hf : faults j = false) :
    ∃ st', readNext faults k st = some st' ∧ AtEntry k s st0 n (j + 1) st' := by
  obtain ⟨c, hc, hout⟩ := h.out
  have hnext : readNext faults k st = some { st with
      delivered := st.delivered ++ [(s, (st.reads k).out)]
      reads := Function.update st.reads k
        { st.reads k with pc := .pop, copied := j + 1 } } := by
    simp [readNext, readStep, h.pc, h.copied, h.sess, hf]
  refine ⟨_, hnext, ?_⟩
  constructor
  · simp
  · simpa using h.sess
  · simpa using h.wanted
  · simp
  · exact h.unread
  · simp only [h.delivered, List.take_add_one, hc, Option.toList_some, List.map_append,
      List.map_singleton, List.append_assoc, hout]

/-- What the loop leaves when it stops. -/
inductive Stopped (faults : Nat → Bool) (k : Nat) (s : Sid) (st0 : Sys) (n j : Nat) (st : Sys) :
    Prop where
  | all : (∀ i, j ≤ i → i < n → faults i = false) →
      (st.reads k).ret = .ok (n * completionBytes) →
      (st.compRing s).unread = (st0.compRing s).unread.drop n →
      st.delivered = st0.delivered ++ ((st0.compRing s).unread.take n).map (uapiEntry s) →
      Stopped faults k s st0 n j st
  | fault (i : Nat) : j ≤ i → i < n → faults i = true →
      (st.reads k).ret = (if i > 0 then .ok (i * completionBytes) else .err .EFAULT) →
      (st.compRing s).unread = (st0.compRing s).unread.drop (i + 1) →
      Stopped faults k s st0 n j st

/-- A failing copy ends the call, and its entry is gone. -/
theorem InHand.fault (h : InHand k s st0 n j st) (hf : faults j = true) (hj : j < n) :
    ∃ st', ReadsTo faults k st st' ∧ Stopped faults k s st0 n j st' := by
  have hnext : readNext faults k st = some (st.setRead k { st.reads k with
      pc := .returned
      ret := if j > 0 then .ok (j * completionBytes) else .err .EFAULT }) := by
    simp [readNext, readFault, h.pc, h.copied, hf]
  refine ⟨_, .step hnext (.done ?_), .fault j (Nat.le_refl j) hj hf ?_ h.unread⟩
  · simp [Sys.setRead]
  · simp [Sys.setRead]

/-- The loop, from any of its turns. -/
theorem AtEntry.stops (faults : Nat → Bool) (h : AtEntry k s st0 n j st) (hj : j ≤ n)
    (hn : n ≤ (st0.compRing s).unread.length) :
    ∃ st', ReadsTo faults k st st' ∧ Stopped faults k s st0 n j st' := by
  -- induction on the entries that are still wanted
  induction hd : n - j generalizing j st with
  | zero =>
    have he : j = n := by omega
    subst he
    have hnext : readNext faults k st = some (st.setRead k { st.reads k with
        pc := .returned, ret := .ok (j * completionBytes) }) := by
      simp [readNext, readStep, h.pc, h.copied, h.wanted]
    refine ⟨_, .step hnext (.done ?_), .all ?_ ?_ h.unread h.delivered⟩
    · simp [Sys.setRead]
    · omega
    · simp [Sys.setRead]
  | succ d ih =>
    have hlt : j < n := by omega
    obtain ⟨st1, h1, hin⟩ := h.pop faults hlt hn
    cases hf : faults j with
    | true =>
      obtain ⟨st', hr, hs⟩ := hin.fault hf hlt
      exact ⟨st', .step h1 hr, hs⟩
    | false =>
      obtain ⟨st2, h2, hat⟩ := hin.copy hf
      obtain ⟨st', hr, hs⟩ := ih hat hlt (by omega)
      refine ⟨st', .step h1 (.step h2 hr), ?_⟩
      cases hs with
      | all hall hret hu hdel =>
        refine .all ?_ hret hu hdel
        intro i hi hin'
        by_cases he : i = j
        · rw [he]
          exact hf
        · exact hall i (by omega) hin'
      | fault i hi hin' hfi hret hu => exact .fault i (by omega) hin' hfi hret hu

/-- A call that stops has consumed what it says exactly when no copy has failed. -/
theorem Stopped.consumes (h : Stopped faults k s st0 n 0 st)
    (hn : n ≤ (st0.compRing s).unread.length) :
    ConsumesExactly s k st0 st ↔ ∀ i < n, faults i = false := by
  cases h with
  | all hall hret hu hd =>
    apply iff_of_true
    · unfold ConsumesExactly
      rw [hret]
      exact ⟨n, rfl, hu, hd⟩
    · exact fun i hi ↦ hall i (Nat.zero_le i) hi
  | fault i _ hi hf hret hu =>
    -- the ring is one entry shorter than the return value says
    have hne (m : Nat) (hm : m ≤ i) :
        (st.compRing s).unread ≠ (st0.compRing s).unread.drop m := by
      intro he
      have hlen := congrArg List.length (hu.symm.trans he)
      rw [List.length_drop, List.length_drop] at hlen
      omega
    apply iff_of_false
    · unfold ConsumesExactly
      by_cases h0 : i > 0
      · rw [hret, if_pos h0]
        rintro ⟨m, hm, hdrop, -⟩
        refine hne m ?_ hdrop
        rw [Nat.mul_right_cancel (by decide) hm]
      · rw [hret, if_neg h0]
        intro he
        refine hne 0 (Nat.zero_le i) ?_
        rw [he, List.drop_zero]
    · intro hall
      rw [hall i hi] at hf
      cases hf

end Loop

/-- A call with something to deliver and room for it comes to the loop and out of it. -/
theorem chrRead_stops (st : Sys) (s : Sid) (bytes : Nat) (faults : Nat → Bool)
    (havail : (st.compRing s).pending ≠ 0) (hroom : bytes / completionBytes ≠ 0) :
    ∃ st', ReadsTo faults st.nreads (chrRead st s bytes) st' ∧
      Stopped faults st.nreads s st (readWanted (st.compRing s) bytes) 0 st' := by
  have hs : readNext faults st.nreads (chrRead st s bytes) =
      some ((chrRead st s bytes).setRead st.nreads
        { (chrRead st s bytes).reads st.nreads with
          pc := .pop, nWant := readWanted (st.compRing s) bytes }) := by
    unfold CompRing.pending at havail
    simp [readNext, readStep, chrRead, havail, hroom, readWanted, CompRing.pending]
  have hat : AtEntry st.nreads s st (readWanted (st.compRing s) bytes) 0
      ((chrRead st s bytes).setRead st.nreads
        { (chrRead st s bytes).reads st.nreads with
          pc := .pop, nWant := readWanted (st.compRing s) bytes }) := by
    constructor <;> simp [Sys.setRead, Read.none, chrRead]
  obtain ⟨st', hr, hstop⟩ := hat.stops faults (Nat.zero_le _) (readWanted_le _ _)
  exact ⟨st', .step hs hr, hstop⟩

/-- A call that finds nothing, or has no room, returns at once and leaves the ring alone. -/
theorem chrRead_refused (st : Sys) (s : Sid) (bytes : Nat) (faults : Nat → Bool)
    (h : (st.compRing s).pending = 0 ∨ bytes / completionBytes = 0) :
    ∃ st', ReadsTo faults st.nreads (chrRead st s bytes) st' ∧
      (∃ e, (st'.reads st.nreads).ret = .err e) ∧ st'.compRing = st.compRing := by
  have hs : ∃ e, readNext faults st.nreads (chrRead st s bytes) =
      some ((chrRead st s bytes).setRead st.nreads
        { (chrRead st s bytes).reads st.nreads with pc := .returned, ret := .err e }) := by
    by_cases havail : (st.compRing s).pending = 0
    · refine ⟨.EAGAIN, ?_⟩
      unfold CompRing.pending at havail
      simp [readNext, readStep, chrRead, havail]
    · have hroom := h.resolve_left havail
      refine ⟨.EINVAL, ?_⟩
      unfold CompRing.pending at havail
      simp [readNext, readStep, chrRead, havail, hroom]
  obtain ⟨e, hs⟩ := hs
  refine ⟨_, .step hs (.done ?_), ⟨e, ?_⟩, rfl⟩
  · simp [Sys.setRead]
  · simp [Sys.setRead]

/-- A call comes to its return, and what it has consumed is decided by the copies that fail. -/
private theorem exists_readsTo (st : Sys) (s : Sid) (bytes : Nat) (faults : Nat → Bool) :
    ∃ st', ReadsTo faults st.nreads (chrRead st s bytes) st' ∧
      (ConsumesExactly s st.nreads st st' ↔
        ∀ j < readWanted (st.compRing s) bytes, faults j = false) := by
  by_cases h : (st.compRing s).pending = 0 ∨ bytes / completionBytes = 0
  · obtain ⟨st', hr, ⟨e, hret⟩, hring⟩ := chrRead_refused st s bytes faults h
    refine ⟨st', hr, iff_of_true ?_ ?_⟩
    · unfold ConsumesExactly
      rw [hret]
      exact congrFun hring s
    · have hw : readWanted (st.compRing s) bytes = 0 := by
        unfold readWanted
        rcases h with h | h <;> simp [h]
      intro j hj
      rw [hw] at hj
      cases hj
  · rw [not_or] at h
    obtain ⟨st', hr, hstop⟩ := chrRead_stops st s bytes faults h.1 h.2
    exact ⟨st', hr, hstop.consumes (readWanted_le _ _)⟩

/-- Over every ring, count and pattern of failures, a call of `read()` comes to its return, and
it has removed exactly what it has delivered if and only if none of the copies it has to make
fails. -/
theorem read_consumes (st : Sys) (s : Sid) (bytes : Nat) (faults : Nat → Bool) :
    (∃ st', ReadsTo faults st.nreads (chrRead st s bytes) st') ∧
      ∀ st', ReadsTo faults st.nreads (chrRead st s bytes) st' →
        (ConsumesExactly s st.nreads st st' ↔
          ∀ j < readWanted (st.compRing s) bytes, faults j = false) := by
  obtain ⟨st', hr, hiff⟩ := exists_readsTo st s bytes faults
  refine ⟨⟨st', hr⟩, ?_⟩
  intro st'' hr'
  rw [← hr.unique hr']
  exact hiff

/-- A read of the only completion of a session, by a caller whose memory is there. -/
theorem read_consumes_one : ∃ st st' : Sys, Reachable st ∧ (st.compRing 0).pending = 1 ∧
    ReadsTo (fun _ ↦ false) st.nreads (chrRead st 0 completionBytes) st' ∧
      ConsumesExactly 0 st.nreads st st' := by
  have hrun : (run step Sys.init (.chrOpen :: allocScript 0 0 ++ submitScript 0 0 0 14 ++
      completeScript 0 12)).any (fun st ↦ (st.compRing 0).pending == 1) = true := by
    decide +kernel
  obtain ⟨st, hr, hp⟩ := Reach.exists_of_run hrun
  obtain ⟨⟨st', hread⟩, hiff⟩ := read_consumes st 0 completionBytes fun _ ↦ false
  exact ⟨st, st', hr, beq_iff_eq.mp hp, hread, (hiff st' hread).mpr fun _ _ ↦ rfl⟩

/-- The only unread completion of a session is gone after a read whose copy fails, and the read
returns an error. -/
theorem read_loses_entry : ¬∀ st : Sys, Reachable st → ∀ s bytes faults st',
    ReadsTo faults st.nreads (chrRead st s bytes) st' → ConsumesExactly s st.nreads st st' := by
  have hrun : (run step Sys.init (.chrOpen :: allocScript 0 0 ++ submitScript 0 0 0 14 ++
      completeScript 0 12)).any (fun st ↦ (st.compRing 0).pending == 1) = true := by
    decide +kernel
  obtain ⟨st, hr, hp⟩ := Reach.exists_of_run hrun
  rw [beq_iff_eq] at hp
  intro hall
  obtain ⟨st', hread, hstop⟩ := chrRead_stops st 0 completionBytes (fun _ ↦ true)
    (by rw [hp]; decide) (by decide)
  have hwant : readWanted (st.compRing 0) completionBytes = 1 := by
    rw [readWanted, hp]
    decide
  have hnone := (hstop.consumes (readWanted_le _ _)).mp (hall st hr 0 _ _ st' hread) 0
  rw [hwant] at hnone
  cases hnone Nat.one_pos

end DmaAccel.Driver
