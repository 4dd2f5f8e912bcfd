import DmaAccel.Runtime.Tracking

/-!
# A Stream loses no completion

Source `track-a/dma_accel_runtime.cpp`, `Stream::pump` (227–271), on top of
`dma_accel_chr_read` (1765–1817). A call of `pump()` during which nothing arrives reads the
ring once: at most sixteen completions are unread, fewer than `batch` holds, so that the first
read is short and empties the ring.
-/

namespace DmaAccel.Runtime

open DmaAccel.Base
open DmaAccel.Driver (Sys Sid SubmitReq Completion Ret queueDepth compRingSize completionBytes
  ofSess)

/-- A step of a call of `pump()` during which no completion arrives in the session's ring; the
array on the stack of `pump()` does not fault. -/
def Quiet (w : Host) (b : Host.Act) : Prop :=
  (∃ c, w.mach.pc = .read c) ∧
    match b with
    | .other a => ¬(a = .isrStep ∧ w.sys.isr.pc = .push ∧ w.sys.isr.owner = w.sess)
    | .kernel a => ∃ k, a = .readStep k
    | _ => True

/-- A whole call of `pump()`, by the caller or by a loop around `poll()`, during which no
completion arrives. -/
def PumpRun (w w' : Host) : Prop :=
  ∃ c, w.mach.pc = .read c ∧ w.call = none ∧ Reach Host.step Quiet w w' ∧ w'.mach.pc = .test c

/-- How far the call has got; `got` are the completions in `batch`, of those in `all`. -/
inductive PumpPoint (all : List Completion) (c : Cont) (w : Host) : Prop where
  | enter : w.mach.pc = .read c → w.call = none → w.unread = all → PumpPoint all c w
  | avail (k : Nat) : w.mach.pc = .read c → w.call = some k →
      (w.sys.reads k).pc = .avail → (w.sys.reads k).bytes = batchSize * completionBytes →
      (w.sys.reads k).copied = 0 → w.batch = [] → w.unread = all → PumpPoint all c w
  | pop (k : Nat) (got : List Completion) : w.mach.pc = .read c → w.call = some k →
      (w.sys.reads k).pc = .pop → (w.sys.reads k).copied = got.length →
      (w.sys.reads k).nWant = all.length → all ≠ [] → w.batch = got.map Driver.Completion.toUser →
      all = got ++ w.unread → PumpPoint all c w
  | copy (k : Nat) (got : List Completion) (x : Completion) : w.mach.pc = .read c →
      w.call = some k → (w.sys.reads k).pc = .copy → (w.sys.reads k).copied = got.length →
      (w.sys.reads k).nWant = all.length → all ≠ [] → w.batch = got.map Driver.Completion.toUser →
      (w.sys.reads k).out = x.toUser → all = got ++ x :: w.unread → PumpPoint all c w
  | nothing (k : Nat) : w.mach.pc = .read c → w.call = some k →
      (w.sys.reads k).pc = .returned → (w.sys.reads k).ret = .err .EAGAIN → all = [] →
      w.unread = [] → PumpPoint all c w
  | got (k : Nat) : w.mach.pc = .read c → w.call = some k →
      (w.sys.reads k).pc = .returned →
      (w.sys.reads k).ret = .ok (all.length * completionBytes) → all ≠ [] →
      w.batch = all.map Driver.Completion.toUser → w.unread = [] → PumpPoint all c w
  | done : w.mach.pc = .test c → w.unread = [] →
      (∀ x ∈ all, ∀ f < w.mach.heap.size, (w.mach.heap.fences f).cmdId = x.cmdId →
        w.mach.ready f = true) → PumpPoint all c w

/-- Steps a call of `pump()` has yet to take. -/
def pumpRank (w : Host) : Nat :=
  match w.mach.pc, w.call with
  | .read _, none => 2 * w.unread.length + 6
  | .read _, some k =>
    match (w.sys.reads k).pc with
    | .avail => 2 * w.unread.length + 5
    | .pop => 2 * w.unread.length + 4
    | .copy => 2 * w.unread.length + 5
    | .returned => 2
  | .test _, _ => 1
  | _, _ => 0

/-- A call of `pump()` that began in `w0`. -/
structure PumpInv (w0 : Host) (c : Cont) (w : Host) : Prop where
  inv : HostInv w
  few : w0.unread.length ≤ queueDepth
  sess : w.sess = w0.sess
  size : w.mach.heap.size = w0.mach.heap.size
  ids : ∀ f, (w.mach.heap.fences f).cmdId = (w0.mach.heap.fences f).cmdId
  pushed : ∀ x ∈ w0.unread, x ∈ ofSess w.sys.pushed w.sess
  point : PumpPoint w0.unread c w

namespace PumpInv

variable {w0 w w' : Host} {c : Cont} {a : Driver.Act} {st' : Sys} {k : Nat}

/-- A point of the call depends on the driver through the read and the ring only. -/
private theorem point_congr {all : List Completion} (h : PumpPoint all c w)
    (hreads : ∀ k, w.call = some k → w.mach.pc = .read c → st'.reads k = w.sys.reads k)
    (hring : st'.compRing w.sess = w.sys.compRing w.sess) :
    PumpPoint all c { w with sys := st' } := by
  have hunread : ({ w with sys := st' } : Host).unread = w.unread := by
    unfold Host.unread
    rw [hring]
  cases h with
  | enter hpc hn hu => exact .enter hpc hn (hunread.trans hu)
  | avail k hpc hk hp hb hc hbatch hu =>
    have he := hreads k hk hpc
    exact .avail k hpc hk (he ▸ hp) (he ▸ hb) (he ▸ hc) hbatch (hunread.trans hu)
  | pop k got hpc hk hp hc hn hne hbatch hu =>
    have he := hreads k hk hpc
    exact .pop k got hpc hk (he ▸ hp) (he ▸ hc) (he ▸ hn) hne hbatch (hunread ▸ hu)
  | copy k got c hpc hk hp hc hn hne hbatch hout hu =>
    have he := hreads k hk hpc
    exact .copy k got c hpc hk (he ▸ hp) (he ▸ hc) (he ▸ hn) hne hbatch (he ▸ hout)
      (hunread ▸ hu)
  | nothing k hpc hk hp hr hall hu =>
    have he := hreads k hk hpc
    exact .nothing k hpc hk (he ▸ hp) (he ▸ hr) hall (hunread.trans hu)
  | got k hpc hk hp hr hne hbatch hu =>
    have he := hreads k hk hpc
    exact .got k hpc hk (he ▸ hp) (he ▸ hr) hne hbatch (hunread.trans hu)
  | done hpc hu hall => exact .done hpc (hunread.trans hu) hall

/-- A step of the read. -/
private theorem point_read (hi : PumpInv w0 c w) (hk : w.call = some k)
    (h : Driver.readStep w.sys k = some st') :
    PumpPoint w0.unread c { w with sys := st', batch := w.batch ++ copied w.sys (.readStep k) } ∧
      pumpRank { w with sys := st', batch := w.batch ++ copied w.sys (.readStep k) } <
        pumpRank w := by
  have hcall {l : Nat} (hl : w.call = some l) : l = k := Option.some.inj (hl.symm.trans hk)
  cases hi.point with
  | enter hpc hn hu =>
    rw [hn] at hk
    cases hk
  | avail l hpc hl hp hb hc hbatch hu =>
    obtain rfl := hcall hl
    have hs := (hi.inv.reading l _ hk hpc).2
    have hlen : span (w.sys.compRing w.sess).head (w.sys.compRing w.sess).tail =
        w0.unread.length := by
      rw [← hu]
      exact (Driver.CompRing.length_unread _).symm
    simp only [Driver.readStep, hp, hs, hlen, hb] at h
    split at h
    · next h0 =>
      cases h
      have hnil := List.eq_nil_of_length_eq_zero h0
      refine ⟨.nothing l hpc hk ?_ ?_ hnil (hu.trans hnil), ?_⟩
      · simp [Driver.Sys.setRead]
      · simp [Driver.Sys.setRead]
      · simp [pumpRank, hpc, hk, hp, Driver.Sys.setRead]
    · next h0 =>
      -- the ring holds less than the array, so that all of it is wanted
      have hmin : min (batchSize * completionBytes / completionBytes) w0.unread.length =
          w0.unread.length := by
        have := hi.few
        simp only [batchSize, completionBytes, queueDepth] at this ⊢
        omega
      have hsize : batchSize * completionBytes / completionBytes ≠ 0 := by decide
      rw [if_neg hsize, hmin] at h
      cases h
      refine ⟨.pop l [] hpc hk ?_ ?_ ?_ ?_ ?_ hu.symm, ?_⟩
      · simp [Driver.Sys.setRead]
      · simp [Driver.Sys.setRead, hc]
      · simp [Driver.Sys.setRead]
      · exact fun he ↦ h0 (he ▸ rfl)
      · simp [hbatch, copied, hp]
      · simp [pumpRank, hpc, hk, hp, Driver.Sys.setRead, Host.unread]
  | pop l got hpc hl hp hc hn hne hbatch hu =>
    obtain rfl := hcall hl
    have hs := (hi.inv.reading l _ hk hpc).2
    have hlen := congrArg List.length hu
    rw [List.length_append] at hlen
    simp only [Driver.readStep, hp, hs, hc, hn] at h
    have hcopied : copied w.sys (.readStep l) = [] := by simp [copied, hp]
    split at h
    · next hlt =>
      split at h
      · next out r hpop =>
        cases h
        have hunread : w.unread = out :: r.unread := Driver.CompRing.unread_pop hpop
        refine ⟨.copy l got out hpc hk ?_ ?_ ?_ hne ?_ ?_ ?_, ?_⟩
        · simp
        · simp
        · simp
        · simp [hcopied, hbatch]
        · simp [Driver.Completion.toUser]
        · rw [hu, hunread]
          simp [Host.unread]
        · have hshort : w.unread.length = r.unread.length + 1 := by simp [hunread]
          simp only [pumpRank, hpc, hk, hp, Function.update_self]
          rw [hshort]
          change 2 * (Function.update w.sys.compRing w.sess r w.sess).unread.length + 5 < _
          rw [Function.update_self]
          omega
      · next hpop =>
        have hnil : w.unread = [] := Driver.CompRing.unread_of_pop_none hpop
        rw [hnil] at hlen
        simp at hlen
        omega
    · next hge =>
      cases h
      have hnil : w.unread = [] := by
        apply List.eq_nil_of_length_eq_zero
        omega
      refine ⟨.got l hpc hk ?_ ?_ hne ?_ hnil, ?_⟩
      · simp [Driver.Sys.setRead]
      · rw [hnil, List.append_nil] at hu
        simp [Driver.Sys.setRead, hu]
      · rw [hnil, List.append_nil] at hu
        simp [hcopied, hbatch, hu]
      · simp [pumpRank, hpc, hk, hp, Driver.Sys.setRead]
  | copy l got c hpc hl hp hc hn hne hbatch hout hu =>
    obtain rfl := hcall hl
    simp only [Driver.readStep, hp] at h
    cases h
    refine ⟨.pop l (got ++ [c]) hpc hk ?_ ?_ ?_ hne ?_ ?_, ?_⟩
    · simp
    · simp [hc]
    · simp [hn]
    · simp [copied, hp, hbatch, hout]
    · rw [hu]
      simp [Host.unread]
    · simp [pumpRank, hpc, hk, hp, Host.unread]
  | nothing l hpc hl hp hr hall hu =>
    obtain rfl := hcall hl
    simp [Driver.readStep, hp] at h
  | got l hpc hl hp hr hne hbatch hu =>
    obtain rfl := hcall hl
    simp [Driver.readStep, hp] at h
  | done hpc hu hall =>
    rcases hi.inv.idle k hk with ⟨req, he⟩ | ⟨c, he⟩
    · cases hpc.symm.trans he
    · cases hpc.symm.trans he

/-- Somebody else moves. -/
private theorem point_other (hi : PumpInv w0 c w) (hf : foreign w.sys w.sess a = true)
    (hpush : ¬(a = .isrStep ∧ w.sys.isr.pc = .push ∧ w.sys.isr.owner = w.sess))
    (h : Driver.step w.sys a = some st') : PumpPoint w0.unread c { w with sys := st' } := by
  refine point_congr hi.point ?_ ?_
  · intro k hk hpc
    obtain ⟨hlt, hs⟩ := hi.inv.reading k _ hk hpc
    refine Driver.step_reads h hlt ?_
    rintro (rfl | rfl)
    · simp [foreign, hs] at hf
    · simp [foreign, hs] at hf
  · refine (Driver.trans_of_step h).compRing_eq hpush ?_
    rintro k ⟨rfl, -, hs, -⟩
    simp [foreign, hs] at hf

/-- The call of `read()` begins. -/
private theorem point_enter (hi : PumpInv w0 c w) (hpc : w.mach.pc = .read c) (hn : w.call = none)
    (h : Driver.step w.sys (.read w.sess (batchSize * completionBytes)) = some st') :
    PumpPoint w0.unread c { w with sys := st', call := some w.sys.nreads, batch := [] } ∧
      pumpRank { w with sys := st', call := some w.sys.nreads, batch := [] } < pumpRank w := by
  obtain ⟨-, hs⟩ := Option.ite_none_right_eq_some.mp h
  cases hs
  have hcall {l : Nat} (hl : w.call = some l) : False := by
    rw [hn] at hl
    cases hl
  cases hi.point with
  | enter _ _ hu =>
    refine ⟨.avail w.sys.nreads hpc rfl ?_ ?_ ?_ rfl hu, ?_⟩
    · simp [Driver.chrRead]
    · simp [Driver.chrRead]
    · simp [Driver.chrRead, Driver.Read.none]
    · simp [pumpRank, hpc, hn, Driver.chrRead, Host.unread]
  | avail l _ hl => exact (hcall hl).elim
  | pop l _ _ hl => exact (hcall hl).elim
  | copy l _ _ _ hl => exact (hcall hl).elim
  | nothing l _ hl => exact (hcall hl).elim
  | got l _ hl => exact (hcall hl).elim
  | done hpc' => cases hpc.symm.trans hpc'

/-- What the call of `read()` has returned. -/
private theorem result_cases (hi : PumpInv w0 c w) {r : Ret} (hr : w.result = some r) :
    pumpRank w = 2 ∧ w.unread = [] ∧
      (r = .err .EAGAIN ∧ w0.unread = [] ∨
        r = .ok (w0.unread.length * completionBytes) ∧ w0.unread ≠ [] ∧
          w.batch = w0.unread.map Driver.Completion.toUser) := by
  cases hi.point with
  | enter hpc hn => simp [Host.result, hpc, hn] at hr
  | avail k hpc hk hp => simp [Host.result, hpc, hk, hp] at hr
  | pop k _ hpc hk hp => simp [Host.result, hpc, hk, hp] at hr
  | copy k _ _ hpc hk hp => simp [Host.result, hpc, hk, hp] at hr
  | nothing k hpc hk hp hret hall hu =>
    simp only [Host.result, hpc, hk, hp, hret, if_pos, Option.some.injEq] at hr
    exact ⟨by simp [pumpRank, hpc, hk, hp], hu, .inl ⟨hr.symm, hall⟩⟩
  | got k hpc hk hp hret hne hbatch hu =>
    simp only [Host.result, hpc, hk, hp, hret, if_pos, Option.some.injEq] at hr
    exact ⟨by simp [pumpRank, hpc, hk, hp], hu, .inr ⟨hr.symm, hne, hbatch⟩⟩
  | done hpc => simp [Host.result, hpc] at hr

/-- The batch makes every fence ready whose completion was unread. -/
private theorem ready_batch (hi : PumpInv w0 c w)
    (hb : w.batch = w0.unread.map Driver.Completion.toUser) {c : Completion}
    (hc : c ∈ w0.unread) {f : Fid} (hf : f < w.mach.heap.size)
    (hid : (w.mach.heap.fences f).cmdId = c.cmdId) :
    (w.batch.foldl Machine.deliver w.mach).ready f = true := by
  refine hi.inv.table.ready_foldl ?_ hf ⟨c.toUser, ?_, hid.symm⟩
  · intro x hx
    obtain ⟨c', hc', rfl⟩ := hi.inv.batch x hx
    exact ⟨c', hc', rfl, rfl⟩
  · rw [hb]
    exact List.mem_map_of_mem hc

/-- `pump()` takes the answer of `read()` and returns. -/
private theorem point_code (hi : PumpInv w0 c w) {l : Label} {m : Machine}
    (hpc : w.mach.pc = .read c) (hl : w.answers l = true) (h : w.mach.step l = some m) :
    m.heap.size = w.mach.heap.size ∧
      (∀ f, (m.heap.fences f).cmdId = (w.mach.heap.fences f).cmdId) ∧
      PumpPoint w0.unread c { w with mach := m, call := none } ∧
      pumpRank { w with mach := m, call := none } < pumpRank w := by
  cases l with
  | readEagain =>
    simp only [Host.answers, decide_eq_true_eq] at hl
    obtain ⟨hrank, hu, ⟨-, hnil⟩ | ⟨he, -⟩⟩ := hi.result_cases hl
    · simp only [Machine.step, hpc, hi.inv.fd, Option.isSome_some, if_true,
        Option.some.injEq] at h
      subst h
      refine ⟨rfl, fun _ ↦ rfl, .done rfl hu ?_, ?_⟩
      · rw [hnil]
        intro x hx
        cases hx
      · rw [hrank]
        exact Nat.one_lt_two
    · cases he
  | readBatch batch =>
    simp only [Host.answers] at hl
    split at hl
    · next n hn =>
      obtain ⟨hrank, hu, ⟨he, -⟩ | ⟨he, hne, hb⟩⟩ := hi.result_cases hn
      · cases he
      · -- the answer says how much of the array is filled: all of it
        have hall : batch = w.batch := by
          simp only [Bool.and_eq_true, decide_eq_true_eq] at hl
          rw [hl.2]
          cases he
          rw [Nat.mul_div_cancel _ (by decide), hb, ← List.length_map, List.take_length]
        have hlen : w.batch.length < batchSize := by
          rw [hb, List.length_map]
          exact Nat.lt_of_le_of_lt hi.few (by decide)
        simp only [Machine.step, hpc, hall, if_pos hlen] at h
        obtain ⟨-, hs⟩ := Option.ite_none_right_eq_some.mp h
        cases hs
        have hd := Machine.delivered_foldl w.mach w.batch
        refine ⟨hd.size, hd.cmdId, .done rfl hu ?_, ?_⟩
        · intro x hx f hf hid
          refine hi.ready_batch hb hx (hd.size ▸ hf) ?_
          rw [← hd.cmdId]
          exact hid
        · rw [hrank]
          exact Nat.one_lt_two
    · cases hl
  | readZero =>
    simp only [Host.answers, decide_eq_true_eq] at hl
    obtain ⟨-, -, ⟨he, -⟩ | ⟨he, hne, -⟩⟩ := hi.result_cases hl
    · cases he
    · simp [completionBytes] at he
      exact (hne he).elim
  | readError =>
    simp only [Host.answers] at hl
    split at hl
    · next e hr =>
      obtain ⟨-, -, ⟨he, -⟩ | ⟨he, -⟩⟩ := hi.result_cases hr
      · cases he
        simp at hl
      · cases he
    · cases hl
  | _ => simp [Machine.step, hpc] at h

/-- A call that has not returned is in `read()`. -/
private theorem pc_eq (hi : PumpInv w0 c w) (h : w.mach.pc ≠ .test c) : w.mach.pc = .read c := by
  cases hi.point with
  | done hpc => exact (h hpc).elim
  | enter hpc | avail _ hpc | pop _ _ hpc | copy _ _ _ hpc | nothing _ hpc | got _ hpc =>
    exact hpc

/-- A call of `pump()` copies no request back. -/
private theorem copiesOut {b : Host.Act} (hq : Quiet w b) : Host.CopiesOut w b := by
  rintro k rfl
  obtain ⟨-, l, hl⟩ := hq
  cases hl

/-- What has been pushed stays pushed. -/
private theorem pushed_mono {s : Sid} (h : Driver.Trans w.sys a st') :
    ∀ c ∈ ofSess w.sys.pushed s, c ∈ ofSess st'.pushed s := by
  intro c hc
  cases h.ringMove s with
  | keep _ hp _ => exact hp ▸ hc
  | push _ _ _ hp _ => exact hp ▸ List.mem_append_left _ hc
  | pop _ _ _ _ hp _ => exact hp ▸ hc

/-- A step of the call: the Stream's own steps bring it nearer to its end. -/
theorem step {b : Host.Act} (hi : PumpInv w0 c w) (hq : Quiet w b) (h : w.step b = some w') :
    PumpInv w0 c w' ∧ ((∀ a, b ≠ .other a) → pumpRank w' < pumpRank w) := by
  have hinv := hi.inv.step h (copiesOut hq)
  have hread : w.mach.pc = .read c := by
    obtain ⟨⟨c', hpc⟩, -⟩ := hq
    exact hi.pc_eq fun he ↦ nomatch hpc.symm.trans he
  have hsys {a : Driver.Act} {x : Host} (hx : HostInv x) (ht : Driver.Trans w.sys a x.sys)
      (hs : x.sess = w.sess) (hm : x.mach = w.mach) (hp : PumpPoint w0.unread c x) :
      PumpInv w0 c x := by
    refine ⟨hx, hi.few, hs.trans hi.sess, ?_, ?_, ?_, hp⟩
    · rw [hm]
      exact hi.size
    · rw [hm]
      exact hi.ids
    · intro c hc
      rw [hs]
      exact pushed_mono ht c (hi.pushed c hc)
  cases b with
  | other a =>
    obtain ⟨hf, hs⟩ := Option.ite_none_right_eq_some.mp h
    obtain ⟨st', hst, rfl⟩ := Option.map_eq_some_iff.mp hs
    refine ⟨hsys hinv (Driver.trans_of_step hst) rfl rfl (hi.point_other hf hq.2 hst), ?_⟩
    intro hne
    exact (hne a rfl).elim
  | enter =>
    simp only [Host.step] at h
    split at h
    · next req hpc hn => cases hpc.symm.trans hread
    · next _ _ hn =>
      obtain ⟨st', hst, rfl⟩ := Option.map_eq_some_iff.mp h
      obtain ⟨hp, hlt⟩ := hi.point_enter hread hn hst
      exact ⟨hsys hinv (Driver.trans_of_step hst) rfl rfl hp, fun _ ↦ hlt⟩
    · cases h
  | kernel a =>
    obtain ⟨k, rfl⟩ := hq.2
    simp only [Host.step] at h
    split at h
    · next l hl =>
      obtain ⟨hown, hs⟩ := Option.ite_none_right_eq_some.mp h
      obtain ⟨st', hst, rfl⟩ := Option.map_eq_some_iff.mp hs
      have hk : k = l := by
        unfold ownStep at hown
        split at hown
        · simp at hown
        · simpa using hown
        · cases hown
      subst hk
      obtain ⟨-, hread⟩ := Option.ite_none_right_eq_some.mp hst
      obtain ⟨hp, hlt⟩ := hi.point_read hl hread
      exact ⟨hsys hinv (Driver.trans_of_step hst) rfl rfl hp, fun _ ↦ hlt⟩
    · cases h
  | code l =>
    obtain ⟨hl, hs⟩ := Option.ite_none_right_eq_some.mp h
    obtain ⟨m, hm, rfl⟩ := Option.map_eq_some_iff.mp hs
    obtain ⟨hsize, hid, hp, hlt⟩ := hi.point_code hread hl hm
    exact ⟨⟨hinv, hi.few, hi.sess, hsize.trans hi.size, fun f ↦ (hid f).trans (hi.ids f),
      hi.pushed, hp⟩, fun _ ↦ hlt⟩
  | restart =>
    obtain ⟨hr, -⟩ := Option.ite_none_right_eq_some.mp h
    obtain ⟨-, -, ⟨he, -⟩ | ⟨he, -⟩⟩ := hi.result_cases hr
    · cases he
    · cases he

/-- A call that has not returned can take a step of its own. -/
theorem exists_step (hi : PumpInv w0 c w) (hne : w.mach.pc ≠ .test c) :
    ∃ b, Quiet w b ∧ (∀ a, b ≠ .other a) ∧ (w.step b).isSome = true := by
  have hread := hi.pc_eq hne
  have hkernel {k : Nat} (hk : w.call = some k)
      (hp : (w.sys.reads k).pc ≠ .returned) :
      ∃ b, Quiet w b ∧ (∀ a, b ≠ .other a) ∧ (w.step b).isSome = true := by
    have hlt := (hi.inv.reading k _ hk hread).1
    obtain ⟨st', hst⟩ : ∃ st', Driver.readStep w.sys k = some st' := by
      unfold Driver.readStep
      dsimp only
      repeat' split
      all_goals first | exact ⟨_, rfl⟩ | contradiction
    refine ⟨.kernel (.readStep k), ⟨⟨c, hread⟩, k, rfl⟩, by simp, ?_⟩
    simp [Host.step, hk, hread, ownStep, Driver.step, hlt, hst]
  cases hi.point with
  | enter _ hn hu =>
    refine ⟨.enter, ⟨⟨c, hread⟩, trivial⟩, by simp, ?_⟩
    simp [Host.step, hread, hn, Driver.step, hi.inv.opened]
  | avail k _ hk hp => exact hkernel hk (by simp [hp])
  | pop k _ _ hk hp => exact hkernel hk (by simp [hp])
  | copy k _ _ _ hk hp => exact hkernel hk (by simp [hp])
  | nothing k _ hk hp hret hall hu =>
    refine ⟨.code .readEagain, ⟨⟨c, hread⟩, trivial⟩, by simp, ?_⟩
    simp [Host.step, Host.answers, Host.result, Machine.step, hread, hk, hp, hret, hi.inv.fd]
  | got k _ hk hp hret hall hb hu =>
    have hlen : w.batch.length ≤ batchSize := by
      rw [hb, List.length_map]
      exact Nat.le_trans hi.few (by decide)
    have hne' : w.batch ≠ [] := by
      rw [hb]
      simpa using hall
    refine ⟨.code (.readBatch w.batch), ⟨⟨c, hread⟩, trivial⟩, by simp, ?_⟩
    have hans : w.answers (.readBatch w.batch) = true := by
      simp [Host.answers, Host.result, hread, hk, hp, hret, hall, hb, completionBytes]
    rw [Host.step, if_pos hans]
    simp [Machine.step, hread, hi.inv.fd, hlen, hne']
  | done hdone => exact (hne hdone).elim

/-- The call begins. -/
theorem start (hi : HostInv w) (hpc : w.mach.pc = .read c) (hn : w.call = none) :
    PumpInv w c w where
  inv := hi
  few := hi.unread_le
  sess := rfl
  size := rfl
  ids _ := rfl
  pushed x hx := by
    rw [hi.ring]
    exact List.mem_append_right _ hx
  point := .enter hpc hn rfl

/-- The call returns, whatever others do meanwhile. -/
theorem returns (hi : PumpInv w0 c w) :
    ∃ w', Reach Host.step Quiet w w' ∧ w'.mach.pc = .test c := by
  refine Reach.exists_of_measure (P := PumpInv w0 c) pumpRank (fun v hv ↦ ?_) hi
  by_cases hpc : v.mach.pc = .test c
  · exact .inl hpc
  · obtain ⟨b, hq, hown, hs⟩ := hv.exists_step hpc
    obtain ⟨v', hv'⟩ := Option.isSome_iff_exists.mp hs
    obtain ⟨hi', hlt⟩ := hv.step hq hv'
    exact .inr ⟨b, v', hq, hv', hi', hlt hown⟩

/-- The states of the call. -/
theorem of_run (hi : PumpInv w0 c w) (h : Reach Host.step Quiet w w') : PumpInv w0 c w' :=
  h.invariant hi fun _ _ _ _ hi hq hs ↦ (hi.step hq hs).1

/-- However far the call has got, it can be continued to its end. -/
theorem continues {v : Host} (hi : HostInv w) (hpc : w.mach.pc = .read c) (hn : w.call = none)
    (h : Reach Host.step Quiet w v) : ∃ w', Reach Host.step Quiet v w' ∧ PumpRun w w' := by
  obtain ⟨w', hr, hpc'⟩ := ((start hi hpc hn).of_run h).returns
  exact ⟨w', hr, c, hpc, hn, h.trans hr, hpc'⟩

/-- When the call returns, the ring is empty and the fences have what was in it. -/
theorem drained (hi : PumpInv w c w') (hw : HostInv w) (hpc : w.mach.pc = .read c)
    (hpc' : w'.mach.pc = .test c) : w'.unread = [] ∧ ∀ x ∈ w.unread,
      ∃ f < w.mach.heap.size, (w.mach.heap.fences f).cmdId = x.cmdId ∧
        w'.mach.heap.fences f = ⟨x.cmdId, true, x.status⟩ := by
  have hdone : w'.unread = [] ∧ ∀ x ∈ w.unread, ∀ f < w'.mach.heap.size,
      (w'.mach.heap.fences f).cmdId = x.cmdId → w'.mach.ready f = true := by
    cases hi.point with
    | done _ hu hall => exact ⟨hu, hall⟩
    | enter h | avail _ h | pop _ _ h | copy _ _ _ h | nothing _ h | got _ h =>
      cases hpc'.symm.trans h
  refine ⟨hdone.1, ?_⟩
  intro x hx
  obtain ⟨f, hf, hid⟩ | ⟨k, ⟨-, req, he⟩, -⟩ := hw.unread_cases hx
  · have hlt := hw.order.lt f hf
    have hlt' : f < w'.mach.heap.size := hi.size ▸ hlt
    have hid' := (hi.ids f).trans hid
    have hr := hdone.2 x hx f hlt' hid'
    obtain ⟨x', hx', hxid, hst⟩ := hi.inv.table.ready f hlt' hr
    -- the fence has the status of the only completion of its command
    have hpushed := hi.pushed x hx
    rw [hi.inv.ring] at hpushed
    have he : x' = x := List.inj_on_of_nodup_map hi.inv.pushed_nodup
      (List.mem_append_left _ hx') hpushed (hxid.trans hid')
    refine ⟨f, hlt, hid, ?_⟩
    cases hfence : w'.mach.heap.fences f with
    | mk cmdId ready status =>
      rw [hfence] at hid' hst
      rw [Machine.ready, hfence] at hr
      change cmdId = x.cmdId at hid'
      change ready = true at hr
      change x'.status = status at hst
      rw [hid', hr, ← hst, he]
  · cases hpc.symm.trans he

end PumpInv

namespace HostInv

variable {w w' : Host} {f : Fid}

/-- A step leaves the fences alone that are ready. -/
theorem fences_step (hi : HostInv w) {b : Host.Act} (h : w.step b = some w')
    (hf : f < w.mach.heap.size) (hr : w.mach.ready f = true) :
    f < w'.mach.heap.size ∧ w'.mach.heap.fences f = w.mach.heap.fences f := by
  cases b with
  | other a =>
    obtain ⟨-, hs⟩ := Option.ite_none_right_eq_some.mp h
    obtain ⟨st', -, rfl⟩ := Option.map_eq_some_iff.mp hs
    exact ⟨hf, rfl⟩
  | enter =>
    simp only [Host.step] at h
    split at h
    · obtain ⟨st', -, rfl⟩ := Option.map_eq_some_iff.mp h
      exact ⟨hf, rfl⟩
    · obtain ⟨st', -, rfl⟩ := Option.map_eq_some_iff.mp h
      exact ⟨hf, rfl⟩
    · cases h
  | kernel a =>
    simp only [Host.step] at h
    split at h
    · obtain ⟨-, hs⟩ := Option.ite_none_right_eq_some.mp h
      obtain ⟨st', -, rfl⟩ := Option.map_eq_some_iff.mp hs
      exact ⟨hf, rfl⟩
    · cases h
  | code l =>
    obtain ⟨hl, hs⟩ := Option.ite_none_right_eq_some.mp h
    obtain ⟨m, hm, rfl⟩ := Option.map_eq_some_iff.mp hs
    cases Machine.move_of_step hm with
    | goto _ pc _ _ => exact ⟨hf, rfl⟩
    | evict _ req g _ _ => exact ⟨hf, rfl⟩
    | deliver batch c pc hpc hfd hcont =>
      refine ⟨?_, hi.table.fences_foldl ?_ hr⟩
      · change f < (batch.foldl Machine.deliver w.mach).heap.size
        rw [(Machine.delivered_foldl w.mach batch).size]
        exact hf
      · intro c hc
        obtain ⟨c', hc', rfl⟩ := hi.batch c (mem_batch hl c hc)
        exact ⟨c', hc', rfl, rfl⟩
    | track req fd cmdId hpc hfd =>
      exact ⟨Nat.lt_succ_of_lt hf, Function.update_of_ne (Nat.ne_of_lt hf) _ _⟩
  | restart =>
    obtain ⟨-, hs⟩ := Option.ite_none_right_eq_some.mp h
    cases hs
    exact ⟨hf, rfl⟩

/-- So do all later steps. -/
theorem fences_run (hi : HostInv w) (h : Reach Host.step Host.CopiesOut w w')
    (hf : f < w.mach.heap.size) (hr : w.mach.ready f = true) :
    w'.mach.heap.fences f = w.mach.heap.fences f := by
  suffices hall : HostInv w' ∧ f < w'.mach.heap.size ∧
      w'.mach.heap.fences f = w.mach.heap.fences f from hall.2.2
  refine h.invariant (I := fun x ↦ HostInv x ∧ f < x.mach.heap.size ∧
    x.mach.heap.fences f = w.mach.heap.fences f) ⟨hi, hf, rfl⟩ ?_
  rintro x b x' - ⟨hx, hlt, he⟩ hok hs
  have hready : x.mach.ready f = true := by
    unfold Machine.ready
    rw [he]
    exact hr
  obtain ⟨hlt', he'⟩ := hx.fences_step hs hlt hready
  exact ⟨hx.step hs hok, hlt', he'.trans he⟩

end HostInv

/-- What the tables of a Stream, its fences and the ring of its session satisfy. -/
structure Tracks (w : Host) : Prop where
  tables : ∀ f < w.mach.heap.size, w.mach.ready f = false →
    w.mach.stream.outstanding (w.mach.heap.fences f).cmdId = some f ∧
      f ∈ w.mach.stream.submissionOrder
  order : w.mach.stream.submissionOrder.length ≤ queueDepth
  notReady : ((List.range w.mach.heap.size).filter fun f ↦ !w.mach.ready f).length ≤ queueDepth
  unread : w.unread.length ≤ queueDepth
  /-- The handler finds room in the ring and drops nothing. -/
  room : span (w.sys.compRing w.sess).head (w.sys.compRing w.sess).tail < compRingSize
  /-- The status is that of the one completion the handler routed for the command. -/
  status : ∀ f < w.mach.heap.size, w.mach.ready f = true →
    ∃ x ∈ ofSess w.sys.pushed w.sess, x.cmdId = (w.mach.heap.fences f).cmdId ∧
      x.status = (w.mach.heap.fences f).status ∧
      ∀ y ∈ ofSess w.sys.pushed w.sess, y.cmdId = (w.mach.heap.fences f).cmdId → y = x
  /-- A fence that is ready stays as it is. -/
  settled : ∀ w', Reach Host.step Host.CopiesOut w w' → ∀ f < w.mach.heap.size,
    w.mach.ready f = true → w'.mach.heap.fences f = w.mach.heap.fences f
  /-- A call of `pump()` during which nothing arrives returns, from wherever it has got to, and
  loses nothing. -/
  pumps : ∀ c, w.mach.pc = .read c → w.call = none →
    (∀ v, Reach Host.step Quiet w v → ∃ w', Reach Host.step Quiet v w' ∧ PumpRun w w') ∧
      ∀ w', PumpRun w w' → w'.unread = [] ∧ ∀ x ∈ w.unread,
        ∃ f < w.mach.heap.size, (w.mach.heap.fences f).cmdId = x.cmdId ∧
          w'.mach.heap.fences f = ⟨x.cmdId, true, x.status⟩

/-- Fences that are not ready are all in `submission_order_`. -/
private theorem notReady_le {w : Host} (hi : HostInv w) :
    ((List.range w.mach.heap.size).filter fun f ↦ !w.mach.ready f).length ≤ queueDepth := by
  have hsub : (List.range w.mach.heap.size).filter (fun f ↦ !w.mach.ready f) ⊆
      w.mach.stream.submissionOrder := by
    intro f hf
    obtain ⟨hlt, hr⟩ := List.mem_filter.mp hf
    rw [List.mem_range] at hlt
    rw [Bool.not_eq_true'] at hr
    exact (hi.table.pending f hlt hr).1
  have hnodup := List.Nodup.filter (fun f ↦ !w.mach.ready f)
    (List.nodup_range (n := w.mach.heap.size))
  exact Nat.le_trans (hnodup.subperm hsub).length_le hi.order.length

/-- In every run of a Stream on top of the driver, and whatever the other sessions do. -/
theorem stream_tracks {w : Host} (h : w.Reachable) : Tracks w := by
  have hi := hostInv h
  refine ⟨?_, hi.order.length, notReady_le hi, hi.unread_le, hi.room, ?_, ?_, ?_⟩
  · intro f hf hr
    exact (hi.table.pending f hf hr).symm
  · intro f hf hr
    obtain ⟨x, hx, hid, hst⟩ := hi.table.ready f hf hr
    rw [hi.ring]
    refine ⟨x, List.mem_append_left _ hx, hid, hst, ?_⟩
    intro y hy hyid
    exact List.inj_on_of_nodup_map hi.pushed_nodup hy (List.mem_append_left _ hx)
      (hyid.trans hid.symm)
  · intro w' hr f hf hready
    exact hi.fences_run hr hf hready
  · intro c hpc hn
    refine ⟨fun v hv ↦ PumpInv.continues hi hpc hn hv, ?_⟩
    rintro w' ⟨c', hc', -, hr, hpc'⟩
    cases hpc.symm.trans hc'
    exact ((PumpInv.start hi hpc hn).of_run hr).drained hi hpc hpc'

/-- Script: a Stream submits a command, the system's `k`-th. -/
def submitCall (k : Nat) : List Host.Act :=
  [.code (.submit (Driver.copyReq 0)), .code .pass, .enter] ++
    List.replicate 14 (.kernel (.submitStep k)) ++ [.code (.ioctlOk (k + 2))]

/-- Script: two commands have been submitted, and the device executes the second one first. -/
def crossedScript : List Driver.Act :=
  [.fetch] ++ Driver.completeScript 1 12 ++ [.post 0 Driver.statusOk, .postStep, .postStep, .irq] ++
    List.replicate 12 .isrStep

/-- Two commands of a Stream complete before it calls `pump()`. -/
theorem stream_tracks_crossed : ∃ w : Host, w.Reachable ∧ w.mach.pc = .read .pump ∧
    w.unread.map (·.cmdId) = [3, 2] ∧ Tracks w ∧ ∃ w', PumpRun w w' ∧ w'.unread = [] := by
  have hrun : (runChecked Host.step
      (fun _ b ↦ match b with
        | .kernel a => decide (a = .submitStep 0 ∨ a = .submitStep 1)
        | _ => true)
      (.opened Sys.init)
      ((Driver.allocScript 0 0).map .other ++ submitCall 0 ++ submitCall 1 ++
        crossedScript.map .other ++ [.code .pump])).any
      (fun w ↦ decide (w.mach.pc = .read .pump ∧ w.call = none ∧
        w.unread.map (·.cmdId) = [3, 2])) = true := by
    decide +kernel
  have hok : ∀ (w : Host) (b : Host.Act),
      (match b with
        | .kernel a => decide (a = .submitStep 0 ∨ a = .submitStep 1)
        | _ => true) = true → Host.CopiesOut w b := by
    rintro w b hb k rfl
    simp at hb
  obtain ⟨w, hr, hp⟩ := Reach.exists_of_runChecked hok hrun
  obtain ⟨hpc, hn, hu⟩ := of_decide_eq_true hp
  have hw : w.Reachable := ⟨Sys.init, .start, hr⟩
  have ht := stream_tracks hw
  obtain ⟨hends, hall⟩ := ht.pumps .pump hpc hn
  obtain ⟨w', -, hrun'⟩ := hends w .start
  exact ⟨w, hw, hpc, hu, ht, w', hrun', (hall w' hrun').1⟩

end DmaAccel.Runtime
