import DmaAccel.Runtime.Submissions

/-!
# Where a command of a Stream is

Source `track-a/dma_accel_runtime.cpp`: `do_submit` and `pump` (166–271), on top of
`dma_accel_ioc_submit`, `dma_accel_irq_handler` and `dma_accel_chr_read` in
`track-a/dma_accel_drv.c`. A command for which a `submit` function has returned a Fence is in
one place: in the routing table, in the hand of the handler, unread in the ring of the session,
in a call of `read()` of the Stream, or its fence is ready. It gets from each place to the next
and is never lost on the way, as long as `read()` can write into the array of `pump()`.
-/

namespace DmaAccel.Runtime

open DmaAccel.Base
open DmaAccel.Driver (Sys Sid SubmitReq Completion Ret CmdCtx Isr ofSess completionBytes
  ledgerOf)

/-- Where a command of a Stream can be. -/
inductive Stage where
  | table | handler | ring | reader | fence
  deriving DecidableEq, Repr

instance : Fintype Stage where
  elems := {.table, .handler, .ring, .reader, .fence}
  complete p := by cases p <;> decide

/-- The id that a table entry holds for session `s`. -/
def idOfEntry (s : Sid) (e : CmdCtx) : Option Nat :=
  if e.valid = true ∧ e.sess = s then some e.cmdId else none

/-- The id that the handler has removed from the table and not pushed yet for session `s`. -/
def idOfHandler (s : Sid) (h : Isr) : Option Nat :=
  if h.pc = .push ∧ h.owner = s then some h.comp.cmdId else none

namespace Host

/-- Completions that a call of `read()` has taken from the ring for the Stream: those in
`batch`, and the one being copied there. -/
def hands (w : Host) : List Completion :=
  match w.mach.pc, w.call with
  | .read _, some k =>
    w.batch ++ if (w.sys.reads k).pc = .copy then [(w.sys.reads k).out] else []
  | _, _ => []

/-- Ids of the Stream's commands in each place. -/
def idsAt (w : Host) : Stage → Multiset Nat
  | .table => bag (idOfEntry w.sess) Finset.univ w.sys.cmdTable
  | .handler => optBag (idOfHandler w.sess w.sys.isr)
  | .ring => (w.unread.map (·.cmdId) : List Nat)
  | .reader => (w.hands.map (·.cmdId) : List Nat)
  | .fence =>
    (((List.range w.mach.heap.size).filter w.mach.ready).map
      fun f ↦ (w.mach.heap.fences f).cmdId : List Nat)

/-- Neither the copy of a request back to the Stream faults nor a copy into the array of
`pump()`. -/
def Copies (w : Host) (b : Act) : Prop :=
  w.CopiesOut b ∧ ∀ k, b ≠ .kernel (.readFault k)

theorem hands_of_call {w : Host} (h : w.call = none) : w.hands = [] := by
  unfold hands
  rw [h]
  split
  · next hc => cases hc
  · rfl

theorem hands_of_read {w : Host} {k : Nat} {c : Cont} (hk : w.call = some k)
    (hpc : w.mach.pc = .read c) :
    w.hands = w.batch ++ if (w.sys.reads k).pc = .copy then [(w.sys.reads k).out] else [] := by
  unfold hands
  rw [hpc, hk]

theorem hands_eq_nil {w : Host} (h : ∀ c, w.mach.pc ≠ .read c) : w.hands = [] := by
  unfold hands
  split
  · next c k hpc hk => exact (h c hpc).elim
  · rfl

end Host

/-- The completions `done` are those of the fences that are ready. -/
def Settled (m : Machine) (done : List Completion) : Prop :=
  ∀ id, (∃ c ∈ done, c.cmdId = id) ↔
    ∃ f < m.heap.size, m.ready f = true ∧ (m.heap.fences f).cmdId = id

/-- What reads have taken from the ring for the Stream, they still hold, or the fences have. -/
structure CustodyInv (w : Host) : Prop where
  inv : HostInv w
  reading : ∀ k c, w.call = some k → w.mach.pc = .read c → (w.sys.reads k).Counts w.batch.length
  taken : ∃ done, w.taken.map Driver.Completion.toUser = done ++ w.hands ∧ Settled w.mach done

namespace CustodyInv

variable {w w' : Host} {a : Driver.Act} {st' : Sys} {k : Nat} {l : Label} {m : Machine}

/-- Somebody else moves. -/
private theorem other (hi : CustodyInv w) (hf : foreign w.sys w.sess a = true)
    (h : Driver.step w.sys a = some st') (hinv : HostInv { w with sys := st' }) :
    CustodyInv { w with sys := st' } := by
  have hreads : ∀ k c, w.call = some k → w.mach.pc = .read c →
      st'.reads k = w.sys.reads k := by
    intro k c hk hpc
    obtain ⟨hlt, hs⟩ := hi.inv.reading k c hk hpc
    refine Driver.step_reads h hlt ?_
    rintro (rfl | rfl)
    · simp [foreign, hs] at hf
    · simp [foreign, hs] at hf
  have htaken : ({ w with sys := st' } : Host).taken = w.taken := by
    refine (Driver.trans_of_step h).taken_eq ?_
    rintro k rfl hs
    simp [foreign, hs] at hf
  have hhands : ({ w with sys := st' } : Host).hands = w.hands := by
    by_cases hpc : ∃ c, w.mach.pc = .read c
    · obtain ⟨c, hpc⟩ := hpc
      cases hk : w.call with
      | none =>
        have hnil : ({ w with sys := st' } : Host).hands = [] := Host.hands_of_call hk
        rw [Host.hands_of_call hk, ← hnil, ← hk]
      | some k =>
        have he : ({ w with sys := st' } : Host).hands = _ := Host.hands_of_read hk hpc
        rw [Host.hands_of_read hk hpc, ← hreads k c hk hpc, ← he, ← hk]
    · have hne (c : Cont) : w.mach.pc ≠ .read c := fun he ↦ hpc ⟨c, he⟩
      have hnil : ({ w with sys := st' } : Host).hands = [] := Host.hands_eq_nil hne
      rw [Host.hands_eq_nil hne, hnil]
  refine ⟨hinv, ?_, ?_⟩
  · intro k c hk hpc
    change (st'.reads k).Counts _
    rw [hreads k c hk hpc]
    exact hi.reading k c hk hpc
  · rw [htaken, hhands]
    exact hi.taken

/-- The Stream enters a call. -/
private theorem enter (hi : CustodyInv w) (h : w.step .enter = some w') (hinv : HostInv w') :
    CustodyInv w' := by
  simp only [Host.step] at h
  split at h
  · next req hpc hn =>
    obtain ⟨st', hst, rfl⟩ := Option.map_eq_some_iff.mp h
    obtain ⟨-, hs⟩ := Option.ite_none_right_eq_some.mp hst
    cases hs
    have hne (c : Cont) : w.mach.pc ≠ .read c := by
      rw [hpc]
      intro he
      cases he
    refine ⟨hinv, fun k c _ he ↦ (hne c he).elim, ?_⟩
    obtain ⟨done, hd, hset⟩ := hi.taken
    rw [Host.hands_of_call hn] at hd
    have hnil : Host.hands { w with
        sys := Driver.ioctlSubmit w.sys w.sess req, call := some w.sys.nsubmits } = [] :=
      Host.hands_eq_nil hne
    rw [← hnil] at hd
    exact ⟨done, hd, hset⟩
  · next c hpc hn =>
    obtain ⟨st', hst, rfl⟩ := Option.map_eq_some_iff.mp h
    obtain ⟨-, hs⟩ := Option.ite_none_right_eq_some.mp hst
    cases hs
    have hcell : (Driver.chrRead w.sys w.sess (batchSize * completionBytes)).reads w.sys.nreads =
        { Driver.Read.none with
          sess := w.sess, bytes := batchSize * completionBytes, pc := .avail } :=
      Function.update_self ..
    refine ⟨hinv, ?_, ?_⟩
    · rintro k c' ⟨⟩ -
      rw [hcell]
      exact ⟨rfl, fun _ ↦ rfl, fun he ↦ by cases he⟩
    · obtain ⟨done, hd, hset⟩ := hi.taken
      rw [Host.hands_of_call hn] at hd
      have hnil : Host.hands { w with
          sys := Driver.chrRead w.sys w.sess (batchSize * completionBytes)
          call := some w.sys.nreads
          batch := [] } = [] := by
        have he : Host.hands { w with
            sys := Driver.chrRead w.sys w.sess (batchSize * completionBytes)
            call := some w.sys.nreads
            batch := [] } = _ := Host.hands_of_read rfl hpc
        rw [he, hcell]
        rfl
      rw [← hnil] at hd
      exact ⟨done, hd, hset⟩
  · cases h

/-- A step of the call in which the Stream is. -/
private theorem kernel (hi : CustodyInv w) (hk : w.call = some k)
    (hown : ownStep w.mach.pc k a = true) (hf : a ≠ .readFault k)
    (h : Driver.step w.sys a = some st')
    (hinv : HostInv { w with sys := st', batch := w.batch ++ copied w.sys a }) :
    CustodyInv { w with sys := st', batch := w.batch ++ copied w.sys a } := by
  obtain ⟨done, hd, hset⟩ := hi.taken
  have ht := Driver.trans_of_step h
  unfold ownStep at hown
  split at hown
  · next req hpc =>
    have hne (c : Cont) : w.mach.pc ≠ .read c := by
      rw [hpc]
      intro he
      cases he
    have htaken : ofSess st'.taken w.sess = w.taken := by
      refine ht.taken_eq ?_
      rintro l rfl
      simp at hown
    refine ⟨hinv, fun k c _ he ↦ (hne c he).elim, done, ?_, hset⟩
    have hnil : Host.hands { w with sys := st', batch := w.batch ++ copied w.sys a } = [] :=
      Host.hands_eq_nil hne
    rw [Host.hands_eq_nil hne, ← htaken] at hd
    rw [hnil]
    exact hd
  · next c hpc =>
    simp only [Bool.or_eq_true, decide_eq_true_eq] at hown
    obtain rfl : a = .readStep k := hown.resolve_right hf
    obtain ⟨hlt, hs⟩ := Option.ite_none_right_eq_some.mp h
    have hsess := (hi.inv.reading k c hk hpc).2
    have hhands := Host.hands_of_read hk hpc
    have hcall {j : Nat} (hj : w.call = some j) : j = k := Option.some.inj (hj.symm.trans hk)
    rw [hhands] at hd
    have hgoal (htk : (ofSess st'.taken w.sess).map Driver.Completion.toUser =
          done ++ (w.batch ++ copied w.sys (.readStep k)) ++
            (if (st'.reads k).pc = .copy then [(st'.reads k).out] else []))
        (hcount : (st'.reads k).Counts (w.batch ++ copied w.sys (.readStep k)).length) :
        CustodyInv { w with sys := st', batch := w.batch ++ copied w.sys (.readStep k) } := by
      refine ⟨hinv, ?_, done, ?_, hset⟩
      · intro j c' hj _
        obtain rfl := hcall hj
        exact hcount
      · refine htk.trans ?_
        rw [List.append_assoc]
        exact congrArg (done ++ ·) (Host.hands_of_read (w := { w with
          sys := st', batch := w.batch ++ copied w.sys (.readStep k) }) hk hpc).symm
    have hcounts := hi.reading k c hk hpc
    rcases Driver.readStep_counts hs hcounts with
      ⟨x, hp, hp', hout, htk, hc⟩ | ⟨hp, hp', htk, hc⟩ | ⟨hp, hp', htk, hc⟩
    · have hnone : copied w.sys (.readStep k) = [] := by simp [copied, hp]
      rw [if_neg (by simp [hp]), List.append_nil] at hd
      rw [hnone] at hgoal ⊢
      rw [List.append_nil] at hgoal ⊢
      refine hgoal ?_ hc
      rw [htk, Driver.ofSess_append, if_pos hsess, List.map_append, if_pos hp', hout, ← hd]
      rfl
    · have hone : copied w.sys (.readStep k) = [(w.sys.reads k).out] := by simp [copied, hp]
      rw [if_pos hp] at hd
      rw [hone] at hgoal ⊢
      refine hgoal ?_ ?_
      · rw [htk, if_neg (by simp [hp']), List.append_nil]
        exact hd
      · rw [List.length_append]
        exact hc
    · have hnone : copied w.sys (.readStep k) = [] := by simp [copied, hp]
      rw [if_neg hp, List.append_nil] at hd
      rw [hnone] at hgoal ⊢
      rw [List.append_nil] at hgoal ⊢
      refine hgoal ?_ hc
      rw [htk, if_neg hp', List.append_nil]
      exact hd
  · cases hown

/-- When a call of `read()` has returned, what it has taken is in `batch`. -/
private theorem result_cases (hi : CustodyInv w) {c : Cont} (hpc : w.mach.pc = .read c) {r : Ret}
    (hr : w.result = some r) : w.hands = w.batch ∧
      (r = .ok (w.batch.length * completionBytes) ∨ w.batch = [] ∧ ∃ e, r = .err e) := by
  unfold Host.result at hr
  rw [hpc] at hr
  cases hk : w.call with
  | none =>
    rw [hk] at hr
    cases hr
  | some k =>
    rw [hk] at hr
    simp only at hr
    split at hr
    · next hp =>
      cases hr
      refine ⟨?_, ?_⟩
      · rw [Host.hands_of_read hk hpc, if_neg (by simp [hp]), List.append_nil]
      · rcases (hi.reading k c hk hpc).ret hp with hret | ⟨hlen, he⟩
        · exact .inl hret
        · exact .inr ⟨List.eq_nil_of_length_eq_zero hlen, he⟩
    · cases hr

/-- A Stream that leaves a call without a batch leaves nothing behind. -/
private theorem hands_nil (hi : CustodyInv w) (hl : w.answers l = true)
    (h : w.mach.step l = some m) (hb : ∀ batch, l ≠ .readBatch batch) : w.hands = [] := by
  by_cases hpc : ∃ c, w.mach.pc = .read c
  · obtain ⟨c, hpc⟩ := hpc
    have hzero (hr : w.result = some (.ok 0)) : w.hands = [] := by
      obtain ⟨hh, hok | ⟨hnil, -⟩⟩ := hi.result_cases hpc hr
      · rw [hh]
        have hlen : w.batch.length * completionBytes = 0 := (Ret.ok.inj hok).symm
        exact List.eq_nil_of_length_eq_zero (by simpa [completionBytes] using hlen)
      · rw [hh, hnil]
    have herr {e : Driver.Errno} (hr : w.result = some (.err e)) : w.hands = [] := by
      obtain ⟨hh, hok | ⟨hnil, -⟩⟩ := hi.result_cases hpc hr
      · cases hok
      · rw [hh, hnil]
    cases l with
    | readBatch batch => exact (hb batch rfl).elim
    | readZero => exact hzero (of_decide_eq_true hl)
    | readEagain => exact herr (of_decide_eq_true hl)
    | readError =>
      simp only [Host.answers] at hl
      split at hl
      · next e hr => exact herr hr
      · cases hl
    | _ => simp [Machine.step, hpc] at h
  · exact Host.hands_eq_nil fun c he ↦ hpc ⟨c, he⟩

/-- A completion in `batch` belongs to a fence. -/
private theorem fence_of_batch (hi : HostInv w) {c : Cont} (hpc : w.mach.pc = .read c)
    {x : Completion} (hx : x ∈ w.batch) :
    ∃ f < w.mach.heap.size, (w.mach.heap.fences f).cmdId = x.cmdId := by
  obtain ⟨x', hx', rfl⟩ := hi.batch x hx
  have hpush : (w.sess, x') ∈ w.sys.pushed :=
    Driver.mem_ofSess.mp (Driver.taken_subset hi.sys w.sess hx')
  obtain ⟨k, -, hk, hs, hid⟩ := Driver.pushed_committed hi.sys hpush
  rcases hi.commands k hs hk with ⟨f, hf, hfid⟩ | ⟨-, req, hpc'⟩
  · exact ⟨f, hf, hfid.trans hid⟩
  · cases hpc.symm.trans hpc'

/-- The fences take over what was in `batch`. -/
private theorem settled_batch (hi : HostInv w) {done : List Completion} {pc : Pc} {c : Cont}
    (hpc : w.mach.pc = .read c) (hset : Settled w.mach done)
    (hd : w.taken.map Driver.Completion.toUser = done ++ w.batch)
    (hinv : HostInv { w with
      mach := { w.batch.foldl Machine.deliver w.mach with pc := pc }, call := none }) :
    Settled { w.batch.foldl Machine.deliver w.mach with pc := pc } (done ++ w.batch) := by
  have hdel := Machine.delivered_foldl w.mach w.batch
  intro id
  constructor
  · rintro ⟨x, hx, rfl⟩
    rcases List.mem_append.mp hx with hx | hx
    · obtain ⟨f, hf, hr, hid⟩ := (hset x.cmdId).mp ⟨x, hx, rfl⟩
      exact ⟨f, by rw [hdel.size]; exact hf, hdel.ready f hr, (hdel.cmdId f).trans hid⟩
    · obtain ⟨f, hf, hid⟩ := fence_of_batch hi hpc hx
      refine ⟨f, by rw [hdel.size]; exact hf, ?_, (hdel.cmdId f).trans hid⟩
      refine hi.table.ready_foldl ?_ hf ⟨x, hx, hid.symm⟩
      intro y hy
      obtain ⟨y', hy', rfl⟩ := hi.batch y hy
      exact ⟨y', hy', rfl, rfl⟩
  · rintro ⟨f, hf, hr, rfl⟩
    obtain ⟨x, hx, hid, -⟩ := hinv.table.ready f hf hr
    refine ⟨x.toUser, ?_, hid⟩
    rw [← hd]
    exact List.mem_map_of_mem hx

/-- The Stream takes the answer of a `read()` that has returned completions. -/
private theorem readBatch (hi : CustodyInv w) {batch : List Completion}
    (hl : w.answers (.readBatch batch) = true) (h : w.mach.step (.readBatch batch) = some m)
    (hinv : HostInv { w with mach := m, call := none }) :
    CustodyInv { w with mach := m, call := none } := by
  simp only [Machine.step] at h
  split at h
  · next c hpc =>
    split at h
    · next hb =>
      simp only [Host.answers] at hl
      split at hl
      · next n hr =>
        simp only [Bool.and_eq_true, decide_eq_true_eq] at hl
        obtain ⟨hh, hok | ⟨-, e, he⟩⟩ := hi.result_cases hpc hr
        · have hall : batch = w.batch := by
            rw [hl.2, Ret.ok.inj hok, Nat.mul_div_cancel _ (by decide), List.take_length]
          subst hall
          obtain ⟨done, hd, hset⟩ := hi.taken
          rw [hh] at hd
          cases h
          refine ⟨hinv, fun _ _ hk ↦ (by cases hk), done ++ w.batch, ?_,
            settled_batch hi.inv hpc hset hd hinv⟩
          rw [Host.hands_of_call rfl, List.append_nil]
          exact hd
        · cases he
      · cases hl
    · cases h
  · cases h

/-- The Stream takes a step in its own code. -/
private theorem code (hi : CustodyInv w) (hl : w.answers l = true) (h : w.mach.step l = some m)
    (hinv : HostInv { w with mach := m, call := none }) :
    CustodyInv { w with mach := m, call := none } := by
  by_cases hb : ∃ batch, l = .readBatch batch
  · obtain ⟨batch, rfl⟩ := hb
    exact hi.readBatch hl h hinv
  · have hne (batch : List Completion) : l ≠ .readBatch batch := fun he ↦ hb ⟨batch, he⟩
    obtain ⟨done, hd, hset⟩ := hi.taken
    rw [hi.hands_nil hl h hne] at hd
    have hgoal (hset' : Settled m done) : CustodyInv { w with mach := m, call := none } := by
      refine ⟨hinv, fun _ _ hk ↦ (by cases hk), done, ?_, hset'⟩
      rw [Host.hands_of_call rfl]
      exact hd
    cases Machine.move_of_step h with
    | goto _ pc _ _ => exact hgoal hset
    | evict _ req f _ _ => exact hgoal hset
    | deliver batch c pc _ _ _ => exact (hne batch rfl).elim
    | track req fd cmdId _ _ =>
      refine hgoal fun id ↦ (hset id).trans ?_
      have hold (f : Fid) (hf : f < w.mach.heap.size) :
          (w.mach.track fd cmdId).heap.fences f = w.mach.heap.fences f := by
        simp [Machine.track, Heap.issue, Function.update_of_ne (Nat.ne_of_lt hf)]
      constructor
      · rintro ⟨f, hf, hr, hid⟩
        refine ⟨f, Nat.lt_succ_of_lt hf, ?_, ?_⟩
        · exact (congrArg FenceState.ready (hold f hf)).trans hr
        · exact (congrArg FenceState.cmdId (hold f hf)).trans hid
      · rintro ⟨f, hf, hr, hid⟩
        rcases Nat.lt_succ_iff_lt_or_eq.mp hf with hf | rfl
        · refine ⟨f, hf, ?_, ?_⟩
          · exact (congrArg FenceState.ready (hold f hf)).symm.trans hr
          · exact (congrArg FenceState.cmdId (hold f hf)).symm.trans hid
        · simp [Machine.ready, Machine.track, Heap.issue, FenceState.fresh] at hr

/-- Every step hands completions on without losing one. -/
theorem step (hi : CustodyInv w) {b : Host.Act} (h : w.step b = some w') (hok : w.Copies b) :
    CustodyInv w' := by
  have hinv := hi.inv.step h hok.1
  cases b with
  | other a =>
    obtain ⟨hf, hs⟩ := Option.ite_none_right_eq_some.mp h
    obtain ⟨st', hst, rfl⟩ := Option.map_eq_some_iff.mp hs
    exact hi.other hf hst hinv
  | enter => exact hi.enter h hinv
  | kernel a =>
    simp only [Host.step] at h
    split at h
    · next k hk =>
      obtain ⟨hown, hs⟩ := Option.ite_none_right_eq_some.mp h
      obtain ⟨st', hst, rfl⟩ := Option.map_eq_some_iff.mp hs
      exact hi.kernel hk hown (fun he ↦ hok.2 k (he ▸ rfl)) hst hinv
    · cases h
  | code l =>
    obtain ⟨hl, hs⟩ := Option.ite_none_right_eq_some.mp h
    obtain ⟨m, hm, rfl⟩ := Option.map_eq_some_iff.mp hs
    exact hi.code hl hm hinv
  | restart =>
    obtain ⟨hr, hs⟩ := Option.ite_none_right_eq_some.mp h
    cases hs
    have hnil : w.hands = [] := by
      by_cases hpc : ∃ c, w.mach.pc = .read c
      · obtain ⟨c, hpc⟩ := hpc
        obtain ⟨hh, hok | ⟨hb, -⟩⟩ := hi.result_cases hpc hr
        · cases hok
        · rw [hh, hb]
      · exact Host.hands_eq_nil fun c he ↦ hpc ⟨c, he⟩
    obtain ⟨done, hd, hset⟩ := hi.taken
    rw [hnil] at hd
    refine ⟨hinv, fun _ _ hk ↦ (by cases hk), done, ?_, hset⟩
    rw [Host.hands_of_call rfl]
    exact hd

/-- A Stream just opened. -/
theorem init {st : Sys} (h : Driver.Reachable st) : CustodyInv (.opened st) := by
  have htaken : ofSess st.taken st.nsess = [] := by
    have hsub := Driver.taken_subset h st.nsess
    rw [Driver.pushed_fresh h] at hsub
    exact List.subset_nil.mp hsub
  refine ⟨.init h, fun _ _ hk ↦ (by cases hk), [], ?_, ?_⟩
  · rw [Host.hands_of_call rfl]
    exact congrArg (List.map _) htaken
  · intro id
    constructor
    · rintro ⟨x, hx, -⟩
      cases hx
    · rintro ⟨f, hf, -⟩
      cases hf

end CustodyInv

/-- Completions are handed on along every run. -/
theorem custodyInv {st : Sys} {w : Host} (hst : Driver.Reachable st)
    (h : Reach Host.step Host.Copies (.opened st) w) : CustodyInv w :=
  h.invariant (.init hst) fun _ _ _ _ hi hok hs ↦ hi.step hs hok

section Conservation

variable {w : Host} {id : Nat}

private theorem count_table (w : Host) (id : Nat) :
    (w.idsAt .table).count id =
      (ledgerOf w.sys).held.countP fun t ↦ t = (w.sess, id) := by
  have hcell (e : CmdCtx) : (e.valid = true ∧ e.sess = w.sess ∧ e.cmdId = id) ↔
      idOfEntry w.sess e = some id := by
    simp [idOfEntry, and_assoc]
  have hticket (e : CmdCtx) : (e.valid = true ∧ e.sess = w.sess ∧ e.cmdId = id) ↔
      ∃ t, e.ticket = some t ∧ t = (w.sess, id) := by
    simp [CmdCtx.ticket]
  exact (count_bag hcell).trans (countP_bag hticket).symm

private theorem count_handler (w : Host) (id : Nat) :
    (w.idsAt .handler).count id =
      (optBag (ledgerOf w.sys).hand).countP fun t ↦ t = (w.sess, id) := by
  unfold Host.idsAt idOfHandler
  simp only [ledgerOf, Isr.ticket]
  by_cases hp : w.sys.isr.pc = .push
  · by_cases ho : w.sys.isr.owner = w.sess
    · rw [if_pos ⟨hp, ho⟩, if_pos hp, countP_optBag_some, optBag_some, Multiset.count_singleton, ho]
      simp [eq_comm]
    · rw [if_neg fun h ↦ ho h.2, if_pos hp, countP_optBag_some, if_neg]
      · rfl
      · exact fun h ↦ ho (Prod.ext_iff.mp h).1
  · rw [if_neg fun h ↦ hp h.1, if_neg hp]
    rfl

private theorem count_delivered (w : Host) (id : Nat) :
    ((ofSess w.sys.pushed w.sess).map (·.cmdId)).count id =
      (ledgerOf w.sys).delivered.countP fun t ↦ t = (w.sess, id) := by
  unfold ofSess ledgerOf
  simp only [List.count_eq_countP, List.map_map, List.countP_map, List.countP_filter]
  apply List.countP_congr
  intro p _
  simp only [Function.comp_apply, beq_iff_eq, Bool.and_eq_true, Driver.pushTicket,
    decide_eq_true_iff]
  refine and_comm.trans ⟨fun h ↦ ?_, fun h ↦ ?_⟩
  · exact decide_eq_true (Prod.ext h.1 h.2)
  · exact Prod.ext_iff.mp (of_decide_eq_true h)

private theorem count_admitted (w : Host) (id : Nat) :
    (w.admitted.map (·.cmdId)).count id =
      (ledgerOf w.sys).admitted.countP fun t ↦ t = (w.sess, id) := by
  unfold Host.admitted ledgerOf
  simp only [List.count_eq_countP, List.map_map, List.countP_map, List.countP_filter]
  apply List.countP_congr
  intro x _
  simp only [Function.comp_apply, beq_iff_eq, Bool.and_eq_true, Driver.Admitted.ticket,
    Issue.ofCmd, decide_eq_true_iff]
  refine and_comm.trans ⟨fun h ↦ ?_, fun h ↦ ?_⟩
  · exact decide_eq_true (Prod.ext h.1 h.2)
  · exact Prod.ext_iff.mp (of_decide_eq_true h)

private theorem sum_stages (m : Stage → Multiset Nat) :
    ∑ p, m p = m .table + m .handler + (m .ring + m .reader + m .fence) := by
  have huniv : (Finset.univ : Finset Stage) = {.table, .handler, .ring, .reader, .fence} := rfl
  rw [huniv]
  simp [add_assoc]

/-- The completions that have been taken for fences, and those of the fences. -/
private theorem settled_perm {m : Machine} {done : List Completion} (hset : Settled m done)
    (hn : (done.map (·.cmdId)).Nodup) (hi : m.OutInv) :
    (done.map (·.cmdId)).Perm (((List.range m.heap.size).filter m.ready).map
      fun f ↦ (m.heap.fences f).cmdId) := by
  have hnodup : (((List.range m.heap.size).filter m.ready).map
      fun f ↦ (m.heap.fences f).cmdId).Nodup := by
    refine List.Nodup.map_on ?_ (List.nodup_range.filter _)
    intro f hf g hg he
    have hf' := List.mem_range.mp (List.mem_filter.mp hf).1
    have hg' := List.mem_range.mp (List.mem_filter.mp hg).1
    exact hi.inj f hf' g hg' he
  rw [List.perm_ext_iff_of_nodup hn hnodup]
  intro id
  simp only [List.mem_map, List.mem_filter, List.mem_range]
  rw [hset id]
  simp only [and_assoc]

/-- The ids in all places together are those of the fences, and of the command that is being
submitted once it has been admitted. -/
private theorem sum_idsAt (hi : CustodyInv w) {log : List Issue} (hlog : IssueInv w log) :
    ∑ p, w.idsAt p = (w.fenceIds ++ w.current.map (·.cmdId) : List Nat) := by
  obtain ⟨done, hd, hset⟩ := hi.taken
  have htaken : w.taken.map (·.cmdId) = done.map (·.cmdId) ++ w.hands.map (·.cmdId) := by
    rw [← List.map_append, ← hd, List.map_map]
    rfl
  have hdone : (done.map (·.cmdId)).Nodup := by
    have hn := hi.inv.pushed_nodup
    rw [List.map_append, htaken, List.nodup_append, List.nodup_append] at hn
    exact hn.1.1
  have hfence := settled_perm hset hdone hi.inv.table.toOutInv
  have hadm : w.admitted.map (·.cmdId) = w.fenceIds ++ w.current.map (·.cmdId) := by
    rw [hlog.admitted, List.map_append, hlog.fences]
  have hring : (ofSess w.sys.pushed w.sess).map (·.cmdId) =
      done.map (·.cmdId) ++ w.hands.map (·.cmdId) ++ w.unread.map (·.cmdId) := by
    rw [hi.inv.ring, List.map_append, htaken]
  ext id
  -- what the ledger says of the driver, with its deliveries followed to the fences
  have hledger := (Driver.balanced hi.inv.sys).countP fun t ↦ t = (w.sess, id)
  rw [← count_admitted, ← count_table, ← count_handler, ← count_delivered, hadm, hring,
    List.count_append, List.count_append, List.count_append, hfence.count_eq] at hledger
  rw [sum_stages, Multiset.count_add, Multiset.count_add, Multiset.count_add, Multiset.count_add,
    Multiset.coe_count, List.count_append, hledger]
  simp only [Host.idsAt, Multiset.coe_count]
  omega

/-- No id is twice in them. -/
private theorem nodup_idsAt (hi : CustodyInv w) {log : List Issue} (hlog : IssueInv w log) :
    (∑ p, w.idsAt p).Nodup := by
  have hn := (Driver.admInv hi.inv.sys).nodup
  rw [sum_idsAt hi hlog, Multiset.coe_nodup, ← hlog.fences, ← List.map_append, ← hlog.admitted]
  unfold Host.admitted
  rw [List.map_map]
  exact hn.sublist (List.filter_sublist.map _)

/-- The command of a fence is in exactly one place. -/
private theorem exists_unique_stage (hi : CustodyInv w) {log : List Issue} (hlog : IssueInv w log)
    {f : Fid} (hf : f < w.mach.heap.size) : ∃! p, (w.mach.heap.fences f).cmdId ∈ w.idsAt p := by
  apply existsUnique_mem_of_nodup_sum (nodup_idsAt hi hlog)
  rw [sum_idsAt hi hlog, Multiset.mem_coe]
  exact List.mem_append_left _ (List.mem_map.mpr ⟨f, List.mem_range.mpr hf, rfl⟩)

/-- The run of a Stream has a log of what its `submit` functions returned. -/
private theorem issueInv_of_copies {st : Sys} (hst : Driver.Reachable st)
    (h : Reach Host.step Host.Copies (.opened st) w) : ∃ log, IssueInv w log :=
  issueInv ⟨st, hst, h.mono fun _ _ hok ↦ hok.1⟩

/-- In every run every command of a Stream is in exactly one place, and nothing else is in any
of them: the ids in all places together are those of the fences, and of the command that is
being submitted once it has been admitted. -/
theorem command_custody {st : Sys} (hst : Driver.Reachable st)
    (h : Reach Host.step Host.Copies (.opened st) w) :
    ∑ p, w.idsAt p = (w.fenceIds ++ w.current.map (·.cmdId) : List Nat) ∧
      ∀ f < w.mach.heap.size, ∃! p, (w.mach.heap.fences f).cmdId ∈ w.idsAt p := by
  have hi := custodyInv hst h
  obtain ⟨log, hlog⟩ := issueInv_of_copies hst h
  exact ⟨sum_idsAt hi hlog, fun f hf ↦ exists_unique_stage hi hlog hf⟩

/-- Of its own calls, the Stream takes steps of the first two of SUBMIT only. -/
def submitsOnly : Host.Act → Bool
  | .kernel a => a = .submitStep 0 ∨ a = .submitStep 1
  | _ => true

theorem copies_of_submitsOnly (w : Host) (b : Host.Act) (hb : submitsOnly b = true) :
    w.Copies b := by
  constructor
  · rintro k rfl
    simp [submitsOnly] at hb
  · rintro k rfl
    simp [submitsOnly] at hb

/-- Of the two commands of a Stream one is in the table and the other in the ring. -/
theorem command_custody_two : ∃ w : Host, w.fenceIds = [2, 3] ∧ w.unread.map (·.cmdId) = [3] ∧
    ∑ p, w.idsAt p = (w.fenceIds ++ w.current.map (·.cmdId) : List Nat) ∧
      ∀ f < w.mach.heap.size, ∃! p, (w.mach.heap.fences f).cmdId ∈ w.idsAt p := by
  have hrun : (runChecked Host.step (fun _ ↦ submitsOnly) (.opened Sys.init)
      ((Driver.allocScript 0 0).map .other ++ submitCall 0 ++ submitCall 1 ++
        (Driver.Act.fetch :: Driver.completeScript 1 12).map .other)).any
      (fun w ↦ decide (w.fenceIds = [2, 3] ∧ w.unread.map (·.cmdId) = [3])) = true := by
    decide +kernel
  obtain ⟨w, hr, hp⟩ := Reach.exists_of_runChecked copies_of_submitsOnly hrun
  obtain ⟨hids, hu⟩ := of_decide_eq_true hp
  exact ⟨w, hids, hu, command_custody .start hr⟩

end Conservation

/-- Calls of SUBMIT on the session, other than the Stream's current one, have returned. -/
def CallsReturned (w : Host) : Prop :=
  ∀ k < w.sys.nsubmits, (w.sys.submits k).sess = w.sess → ¬w.Submitting k →
    (w.sys.submits k).pc.finished = true

namespace CallsReturned

variable {w w' : Host} {a : Driver.Act} {st' : Sys} {k : Nat}

/-- A call that has returned does not move. -/
private theorem finished_step (h : Driver.step w.sys a = some st')
    (hk : k < w.sys.nsubmits) (hf : (w.sys.submits k).pc.finished = true) :
    (st'.submits k).pc.finished = true := by
  cases (Driver.trans_of_step h).callsMove with
  | keep hkeep _ _ _ _ =>
    by_contra hne
    rw [(hkeep k).alive (Bool.not_eq_true _ ▸ hne)] at hf
    cases hf
  | enter r req _ _ hs _ _ _ =>
    rw [hs, Function.update_of_ne (Nat.ne_of_lt hk)]
    exact hf
  | newId l hl hs _ _ _ | register l hl hs _ _ _ =>
    have hne : k ≠ l := by
      rintro rfl
      rw [hl] at hf
      cases hf
    rw [hs, Function.update_of_ne hne]
    exact hf

/-- The driver moves, and nobody enters a call of SUBMIT on the session. -/
private theorem sys_step (hc : CallsReturned w)
    (h : Driver.step w.sys a = some st') (ha : ∀ req, a ≠ .submit w.sess req) :
    CallsReturned { w with sys := st' } := by
  have ht := Driver.trans_of_step h
  intro k hk hs hsub
  by_cases hlt : k < w.sys.nsubmits
  · exact finished_step h hlt (hc k hlt ((ht.sess_eq.1 k hlt).symm.trans hs) hsub)
  · cases ht with
    | submit r req hr =>
      have he : k = w.sys.nsubmits :=
        Nat.le_antisymm (Nat.le_of_lt_succ hk) (Nat.not_lt.mp hlt)
      subst he
      change (Function.update w.sys.submits w.sys.nsubmits _ w.sys.nsubmits).sess = w.sess at hs
      rw [Function.update_self] at hs
      exact (ha req (hs ▸ rfl)).elim
    | _ => exact (hlt hk).elim

/-- The Stream leaves a call, which has returned. -/
private theorem leave (hc : CallsReturned w) {m : Machine}
    (hr : ∀ k, w.Submitting k → (w.sys.submits k).pc.finished = true) :
    CallsReturned { w with mach := m, call := none } := by
  intro k hk hs _
  by_cases hsub : w.Submitting k
  · exact hr k hsub
  · exact hc k hk hs hsub

private theorem finished_of_result (h : w.result.isSome = true) (hsub : w.Submitting k) :
    (w.sys.submits k).pc.finished = true := by
  obtain ⟨hk, req, hpc⟩ := hsub
  unfold Host.result at h
  rw [hpc, hk] at h
  simp only at h
  split at h
  · next hf => exact hf
  · cases h

/-- Every step leaves at most the Stream's own call in progress. -/
theorem step (hc : CallsReturned w) {b : Host.Act} (h : w.step b = some w') :
    CallsReturned w' := by
  cases b with
  | other a =>
    obtain ⟨hf, hs⟩ := Option.ite_none_right_eq_some.mp h
    obtain ⟨st', hst, rfl⟩ := Option.map_eq_some_iff.mp hs
    refine hc.sys_step hst ?_
    rintro req rfl
    simp [foreign] at hf
  | enter =>
    simp only [Host.step] at h
    split at h
    · next req hpc hn =>
      obtain ⟨st', hst, rfl⟩ := Option.map_eq_some_iff.mp h
      intro k hk hs hsub
      have hlt : k < w.sys.nsubmits := by
        obtain ⟨-, he⟩ := Option.ite_none_right_eq_some.mp hst
        cases he
        refine Nat.lt_of_le_of_ne (Nat.le_of_lt_succ hk) ?_
        rintro rfl
        exact hsub ⟨rfl, req, hpc⟩
      have hsess := ((Driver.trans_of_step hst).sess_eq.1 k hlt).symm.trans hs
      exact finished_step hst hlt (hc k hlt hsess (Host.not_submitting hn k))
    · next c hpc hn =>
      obtain ⟨st', hst, rfl⟩ := Option.map_eq_some_iff.mp h
      have hst' := hc.sys_step hst fun _ he ↦ by cases he
      intro k hk hs _
      exact hst' k hk hs (Host.not_submitting hn k)
    · cases h
  | kernel a =>
    simp only [Host.step] at h
    split at h
    · next k hk =>
      obtain ⟨hown, hs⟩ := Option.ite_none_right_eq_some.mp h
      obtain ⟨st', hst, rfl⟩ := Option.map_eq_some_iff.mp hs
      refine hc.sys_step hst ?_
      rintro req rfl
      unfold ownStep at hown
      split at hown <;> simp at hown
    · cases h
  | code l =>
    obtain ⟨hl, hs⟩ := Option.ite_none_right_eq_some.mp h
    obtain ⟨m, hm, rfl⟩ := Option.map_eq_some_iff.mp hs
    refine hc.leave fun k hsub ↦ finished_of_result ?_ hsub
    obtain ⟨hk, req, hpc⟩ := hsub
    -- in a call of SUBMIT the Stream can only take its result
    cases l with
    | ioctlOk id =>
      simp only [Host.answers, hk, Bool.and_eq_true, decide_eq_true_eq] at hl
      rw [hl.1]
      rfl
    | ioctlError =>
      simp only [Host.answers] at hl
      split at hl
      · next r hr =>
        rw [hr]
        rfl
      · cases hl
    | _ => simp [Machine.step, hpc] at hm
  | restart =>
    obtain ⟨hr, hs⟩ := Option.ite_none_right_eq_some.mp h
    cases hs
    refine hc.leave fun k hsub ↦ finished_of_result ?_ hsub
    rw [hr]
    rfl

/-- A Stream just opened. -/
theorem init {st : Sys} (h : Driver.Reachable st) : CallsReturned (.opened st) :=
  fun k hk hs _ ↦ (Nat.ne_of_lt (Driver.sess_lt h k hk) hs).elim

end CallsReturned

section Quiescence

variable {w : Host} {st : Sys}

/-- No call of SUBMIT is in progress on the session while its Stream is outside the driver. -/
private theorem uncounted (hst : Driver.Reachable st)
    (h : Reach Host.step Host.Copies (.opened st) w) (hn : w.call = none) :
    Driver.uncountedOf w.sys w.sess = 0 := by
  have hc : CallsReturned w :=
    h.invariant (.init hst) fun _ _ _ _ hi _ hs ↦ hi.step hs
  apply Driver.callsBy_eq_zero.mpr
  rintro k hk ⟨hu, hs⟩
  have hf := hc k hk hs (Host.not_submitting hn k)
  cases hp : (w.sys.submits k).pc <;>
    simp_all [Driver.SubmitPc.finished, Driver.SubmitPc.uncounted]

/-- Outside the driver, a command whose fence is not ready is either counted in `inflight` or
unread in the ring. -/
private theorem counted_or_unread (hst : Driver.Reachable st)
    (h : Reach Host.step Host.Copies (.opened st) w) (hn : w.call = none) {f : Fid}
    (hf : f < w.mach.heap.size) (hr : w.mach.ready f = false) :
    0 < w.sys.inflight w.sess ∨ ∃ x ∈ w.unread, x.cmdId = (w.mach.heap.fences f).cmdId := by
  have hcust := custodyInv hst h
  have hi := hcust.inv
  by_cases h0 : w.sys.inflight w.sess = 0
  · obtain ⟨htable, hremoved⟩ := Driver.drained_of_counted hi.sys (uncounted hst h hn) h0
    obtain ⟨log, hlog⟩ := issueInv_of_copies hst h
    obtain ⟨p, hp, -⟩ := exists_unique_stage hcust hlog hf
    cases p with
    | table =>
      obtain ⟨i, -, hi⟩ := mem_bag.mp hp
      simp only [idOfEntry, Option.ite_none_right_eq_some] at hi
      exact (htable i hi.1.1 hi.1.2).elim
    | handler =>
      have hhand := mem_optBag.mp hp
      simp only [idOfHandler, Option.ite_none_right_eq_some] at hhand
      have hone : Driver.removedOf w.sys w.sess = 1 := by
        simp [Driver.removedOf, Driver.handBy, hhand.1.1, hhand.1.2, Driver.IsrPc.undrained]
      rw [hremoved] at hone
      cases hone
    | ring =>
      obtain ⟨x, hx, hid⟩ := List.mem_map.mp (Multiset.mem_coe.mp hp)
      exact .inr ⟨x, hx, hid⟩
    | reader =>
      have hhand : (w.mach.heap.fences f).cmdId ∈ w.hands.map (·.cmdId) :=
        Multiset.mem_coe.mp hp
      rw [Host.hands_of_call hn] at hhand
      cases hhand
    | fence =>
      obtain ⟨g, hg, hid⟩ := List.mem_map.mp (Multiset.mem_coe.mp hp)
      obtain ⟨hlt, hgr⟩ := List.mem_filter.mp hg
      rw [hi.table.inj g (List.mem_range.mp hlt) f hf hid, hr] at hgr
      cases hgr
  · have hpos := Driver.inflight_nonneg hi.sys w.sess
    left
    omega

/-- A Stream never waits in vain: outside the driver, while one of its fences is not ready, a
command of the session is in flight or `poll()` says that there is something to read. And once
nothing is in flight, one `pump()`, which from wherever it has got to comes to its end, makes every
fence of the Stream ready. -/
theorem never_waits_in_vain (hst : Driver.Reachable st)
    (h : Reach Host.step Host.Copies (.opened st) w) (hn : w.call = none) :
    (∀ f < w.mach.heap.size, w.mach.ready f = false →
      0 < w.sys.inflight w.sess ∨ Driver.chrPoll w.sys w.sess = true) ∧
    (w.sys.inflight w.sess = 0 → ∀ c, w.mach.pc = .read c →
      (∀ v, Reach Host.step Quiet w v → ∃ w', Reach Host.step Quiet v w' ∧ PumpRun w w') ∧
        ∀ w', PumpRun w w' → ∀ f < w'.mach.heap.size, w'.mach.ready f = true) := by
  have hi := (custodyInv hst h).inv
  constructor
  · intro f hf hr
    refine (counted_or_unread hst h hn hf hr).imp id ?_
    rintro ⟨x, hx, -⟩
    unfold Driver.chrPoll
    rw [bne_iff_ne]
    intro he
    have hnil : w.unread = [] := by
      unfold Host.unread Driver.CompRing.unread
      rw [he]
      exact window_self _ _
    rw [hnil] at hx
    cases hx
  · intro h0 c hpc
    have hstart := PumpInv.start hi hpc hn
    refine ⟨fun v hv ↦ PumpInv.continues hi hpc hn hv, ?_⟩
    rintro w' ⟨c', hc', -, hr, hpc'⟩ f hf
    cases hpc.symm.trans hc'
    have hrun := hstart.of_run hr
    obtain ⟨-, hall⟩ := hrun.drained hi hpc hpc'
    have hf0 : f < w.mach.heap.size := hrun.size ▸ hf
    cases hready : w.mach.ready f with
    | false =>
      rcases counted_or_unread hst h hn hf0 hready with hpos | ⟨x, hx, hid⟩
      · omega
      · obtain ⟨g, hg, hgid, hgf⟩ := hall x hx
        obtain rfl := hi.table.inj g hg f hf0 (hgid.trans hid)
        unfold Machine.ready
        rw [hgf]
    | true =>
      have hcopies : Reach Host.step Host.CopiesOut w w' := by
        refine hr.mono ?_
        rintro v b ⟨-, hq⟩ k rfl
        obtain ⟨l, hl⟩ := hq
        cases hl
      unfold Machine.ready
      rw [hi.fences_run hcopies hf0 hready]
      exact hready

/-- Nothing is in flight any more, and two completions wait to be read. -/
theorem never_waits_in_vain_drained : ∃ w : Host, w.mach.pc = .read .pump ∧
    w.unread.map (·.cmdId) = [3, 2] ∧ Driver.chrPoll w.sys w.sess = true ∧
      ∃ w', PumpRun w w' ∧ ∀ f < w'.mach.heap.size, w'.mach.ready f = true := by
  have hrun : (runChecked Host.step (fun _ ↦ submitsOnly) (.opened Sys.init)
      ((Driver.allocScript 0 0).map .other ++ submitCall 0 ++ submitCall 1 ++
        crossedScript.map .other ++ [.code .pump])).any
      (fun w ↦ decide (w.mach.pc = .read .pump ∧ w.call = none ∧
        w.unread.map (·.cmdId) = [3, 2] ∧ w.sys.inflight w.sess = 0 ∧
          0 < w.mach.heap.size ∧ w.mach.ready 0 = false)) = true := by
    decide +kernel
  obtain ⟨w, hr, hp⟩ := Reach.exists_of_runChecked copies_of_submitsOnly hrun
  obtain ⟨hpc, hn, hu, h0, hlt, hready⟩ := of_decide_eq_true hp
  obtain ⟨hpoll, hpump⟩ := never_waits_in_vain .start hr hn
  obtain ⟨hends, hall⟩ := hpump h0 .pump hpc
  obtain ⟨w', -, hrun'⟩ := hends w .start
  refine ⟨w, hpc, hu, (hpoll 0 hlt hready).resolve_left ?_, w', hrun', hall w' hrun'⟩
  omega

end Quiescence

end DmaAccel.Runtime
