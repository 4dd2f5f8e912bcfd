import DmaAccel.Driver.Transitions
import DmaAccel.Base.Tally

/-!
# Calls of SUBMIT along a run

Facts about `dma_accel_ioc_submit` calls that do not depend on the device: command ids are
unique and never reused, a call works on an open session, and the history of admissions is
exactly the calls that passed their commit point, with the descriptors they store.
-/

namespace DmaAccel.Driver

open DmaAccel.Base

/-- Past the commit point: the table entry has been registered. -/
def SubmitPc.committed : SubmitPc → Bool
  | .incInflight | .incTotal | .enqIdx | .enqStore | .enqReadTail | .enqWriteTail
  | .enqLoadTail | .enqDoorbell | .copyOut | .returned => true
  | _ => false

/-- The descriptor has been stored in a submission-queue slot. -/
def SubmitPc.stored : SubmitPc → Bool
  | .enqReadTail | .enqWriteTail | .enqLoadTail | .enqDoorbell | .copyOut | .returned => true
  | _ => false

/-- The command id has not been drawn yet. -/
def SubmitPc.early : SubmitPc → Bool
  | .copyIn | .check | .newId => true
  | _ => false

/-- The call is past drawing its id and was not refused. -/
def SubmitPc.numbered (pc : SubmitPc) : Bool := !pc.early && pc != .refused

/-- Registered, and `sess->inflight` not yet incremented. -/
def SubmitPc.uncounted : SubmitPc → Bool
  | .incInflight => true
  | _ => false

/-- Registered, and `dev->total_inflight` not yet incremented. -/
def SubmitPc.uncountedTotal : SubmitPc → Bool
  | .incInflight | .incTotal => true
  | _ => false

variable {st st' : Sys} {a : Act} {c c' : Submit}

/-- What every step of a call after drawing its id keeps. -/
structure Keeps (c c' : Submit) : Prop where
  sess : c'.sess = c.sess
  req : c'.req = c.req
  cmdId : c'.cmdId = c.cmdId
  early : c'.pc.early = true → c.pc.early = true
  numbered : c'.pc.numbered = true → c.pc.numbered = true
  desc : c.pc.early = false → c'.desc = c.desc
  committed : c.pc.committed = true → c'.pc.committed = true
  stored : c.pc.stored = true → c'.pc.stored = true
  alive : c'.pc.finished = false → c.pc.finished = false
  refused : c.pc = .refused → c'.pc = .refused

/-- What every step that is local to a call leaves alone. -/
structure SameCall (c c' : Submit) : Prop extends Keeps c c' where
  committed_eq : c'.pc.committed = c.pc.committed
  stored_eq : c'.pc.stored = c.pc.stored
  uncounted_eq : c'.pc.uncounted = c.pc.uncounted
  uncountedTotal_eq : c'.pc.uncountedTotal = c.pc.uncountedTotal

/-- Nothing changed. -/
theorem Keeps.refl (c : Submit) : Keeps c c :=
  ⟨rfl, rfl, rfl, id, id, fun _ ↦ rfl, id, id, id, id⟩

/-- Nothing changed. -/
theorem SameCall.refl (c : Submit) : SameCall c c :=
  ⟨.refl c, rfl, rfl, rfl, rfl⟩

/-- Local steps change neither the identity of the call nor its accounting. -/
theorem SubmitLocal.sameCall (h : SubmitLocal st c c') : SameCall c c' := by
  cases h <;> refine ⟨⟨?_, ?_, ?_, ?_, ?_, ?_, ?_, ?_, ?_, ?_⟩, ?_, ?_, ?_, ?_⟩ <;>
    simp_all [SubmitPc.committed, SubmitPc.stored, SubmitPc.uncounted,
      SubmitPc.uncountedTotal, SubmitPc.early, SubmitPc.numbered, SubmitPc.finished, Submit.desc]

/-- Waking a sleeper changes neither the identity of the call nor its accounting. -/
theorem Submit.sameCall_wake (c : Submit) : SameCall c c.wake := by
  unfold Submit.wake
  split
  · next hp => exact (@SubmitLocal.getUp Sys.init c hp).sameCall
  · exact .refl c

/-- A step of a numbered call that only moves its program counter onwards. -/
theorem Keeps.of_pc {pc : SubmitPc} (hn : c.pc.numbered = true) (he : pc.early = false)
    (hc : c.pc.committed = true → pc.committed = true)
    (hs : c.pc.stored = true → pc.stored = true) (ha : c.pc.finished = false) :
    Keeps c { c with pc := pc } :=
  ⟨rfl, rfl, rfl, fun h ↦ by simp [he] at h, fun _ ↦ hn, fun _ ↦ rfl, hc, hs, fun _ ↦ ha,
    fun h ↦ by simp [h, SubmitPc.finished] at ha⟩

/-- One updated cell of a table that otherwise stays the same. -/
theorem rel_update {α : Type} {R : α → α → Prop} (hr : ∀ x, R x x) {f : Nat → α} {k : Nat}
    {x : α} (h : R (f k) x) (j : Nat) : R (f j) (Function.update f k x j) := by
  by_cases hj : j = k
  · subst hj
    rw [Function.update_self]
    exact h
  · rw [Function.update_of_ne hj]
    exact hr _

/-- How the calls of SUBMIT and the history of admissions change in one step. -/
inductive CallsMove (st st' : Sys) : Prop where
  | keep : (∀ k, Keeps (st.submits k) (st'.submits k)) →
      (∀ k, (st'.submits k).pc.committed = (st.submits k).pc.committed) →
      st'.admitted = st.admitted → st'.nsubmits = st.nsubmits →
      st'.nextCmdId = st.nextCmdId → CallsMove st st'
  | enter (s : Sid) (req : SubmitReq) : st.phase s = .opened → st'.phase = st.phase →
      st'.submits = Function.update st.submits st.nsubmits
        { Submit.none with sess := s, req := req, pc := .copyIn } →
      st'.admitted = st.admitted → st'.nsubmits = st.nsubmits + 1 →
      st'.nextCmdId = st.nextCmdId → CallsMove st st'
  | newId (k : Nat) : (st.submits k).pc = .newId →
      st'.submits = Function.update st.submits k
        { st.submits k with pc := .readActive, cmdId := st.nextCmdId + 1 } →
      st'.admitted = st.admitted → st'.nsubmits = st.nsubmits →
      st'.nextCmdId = st.nextCmdId + 1 → CallsMove st st'
  | register (k : Nat) : (st.submits k).pc = .admission →
      st'.submits = Function.update st.submits k { st.submits k with pc := .incInflight } →
      st'.admitted = st.admitted ++ [⟨(st.submits k).sess, (st.submits k).desc⟩] →
      st'.nsubmits = st.nsubmits → st'.nextCmdId = st.nextCmdId → CallsMove st st'

/-- A committed call moves its program counter on towards its return. -/
private theorem callsMove_onward {k : Nat} {x : Submit} (h : Keeps (st.submits k) x)
    (hp : (st.submits k).pc.committed = true)
    (hs : st'.submits = Function.update st.submits k x) (ha : st'.admitted = st.admitted)
    (hn : st'.nsubmits = st.nsubmits) (hid : st'.nextCmdId = st.nextCmdId) :
    CallsMove st st' := by
  refine .keep ?_ ?_ ha hn hid
  · rw [hs]
    exact rel_update .refl h
  · rw [hs]
    exact rel_update (R := fun y z : Submit ↦ z.pc.committed = y.pc.committed) (fun _ ↦ rfl)
      ((h.committed hp).trans hp.symm)

private theorem callsMove_same (h : ∀ k, SameCall (st.submits k) (st'.submits k))
    (ha : st'.admitted = st.admitted) (hn : st'.nsubmits = st.nsubmits)
    (hid : st'.nextCmdId = st.nextCmdId) : CallsMove st st' :=
  .keep (fun k ↦ (h k).toKeeps) (fun k ↦ (h k).committed_eq) ha hn hid

/-- Every step of the system moves the calls in one of these ways. -/
theorem Trans.callsMove (h : Trans st a st') : CallsMove st st' := by
  have honward {k : Nat} {pc pc' : SubmitPc} (hp : (st.submits k).pc = pc)
      (hn : pc.numbered = true) (hc : pc.committed = true) (hf : pc.finished = false)
      (he : pc'.early = false) (hc' : pc'.committed = true)
      (hs : pc.stored = true → pc'.stored = true) :
      Keeps (st.submits k) { st.submits k with pc := pc' } :=
    .of_pc (hp ▸ hn) he (fun _ ↦ hc') (hp ▸ hs) (hp ▸ hf)
  cases h with
  | submit s req hs => exact .enter s req hs rfl rfl rfl rfl rfl
  | newId k hk hp => exact .newId k hp rfl rfl rfl rfl
  | register k j hk hp => exact .register k hp rfl rfl rfl rfl
  | submitLocal _ k c hk hl => exact callsMove_same (rel_update .refl hl.sameCall) rfl rfl rfl
  | incInflight k hk hp =>
    exact callsMove_onward (honward hp rfl rfl rfl rfl rfl nofun) (hp ▸ rfl) rfl rfl rfl rfl
  | incTotal k hk hp =>
    exact callsMove_onward (honward hp rfl rfl rfl rfl rfl nofun) (hp ▸ rfl) rfl rfl rfl rfl
  | enqIdx k hk hp =>
    have hk : Keeps (st.submits k)
        { st.submits k with pc := .enqStore, idx := slotOf _ st.sqTail } :=
      ⟨rfl, rfl, rfl, nofun, fun _ ↦ hp ▸ rfl, fun _ ↦ rfl, fun _ ↦ rfl,
        by simp [hp, SubmitPc.stored], fun _ ↦ hp ▸ rfl, by simp [hp]⟩
    exact callsMove_onward hk (hp ▸ rfl) rfl rfl rfl rfl
  | enqStore k hk hp =>
    exact callsMove_onward (honward hp rfl rfl rfl rfl rfl nofun) (hp ▸ rfl) rfl rfl rfl rfl
  | enqWriteTail k hk hp =>
    exact callsMove_onward (honward hp rfl rfl rfl rfl rfl fun _ ↦ rfl) (hp ▸ rfl) rfl rfl rfl
      rfl
  | enqDoorbell k hk hp =>
    exact callsMove_onward (honward hp rfl rfl rfl rfl rfl fun _ ↦ rfl) (hp ▸ rfl) rfl rfl rfl
      rfl
  | relWake s hs => exact callsMove_same (fun k ↦ (st.submits k).sameCall_wake) rfl rfl rfl
  | wakeQuota hp => exact callsMove_same (fun k ↦ (st.submits k).sameCall_wake) rfl rfl rfl
  | _ => exact callsMove_same (fun k ↦ .refl _) rfl rfl rfl

/-- An open session stays open unless nothing is in progress on it. -/
theorem Trans.opened (h : Trans st a st') {s : Sid} (hs : st.phase s = .opened) :
    st'.phase s = .opened ∨ st.quiescent s := by
  cases h.phaseMove s with
  | keep hp => exact .inl (hp.trans hs)
  | opens _ _ hp => exact .inl hp
  | closes _ _ hq _ => exact .inr hq
  | wakes hr => simp [hs] at hr
  | polls hr => simp [hs] at hr
  | frees hr => simp [hs] at hr
  | kfrees _ hr => simp [hs] at hr

/-- Discipline of the calls: ids come from the counter and are never drawn twice, a call has
one exactly from the moment it drew it, and a call in progress keeps its session open. -/
structure CallInv (st : Sys) : Prop where
  pos : 1 ≤ st.nextCmdId
  bound : ∀ k, (st.submits k).cmdId ≤ st.nextCmdId
  inj : ∀ k l, (st.submits k).cmdId ≠ 0 → (st.submits k).cmdId = (st.submits l).cmdId → k = l
  early : ∀ k, (st.submits k).pc.early = true → (st.submits k).cmdId = 0
  numbered : ∀ k, (st.submits k).pc.numbered = true → (st.submits k).cmdId ≠ 0
  blank : ∀ k, st.nsubmits ≤ k → (st.submits k).pc = .refused ∧ (st.submits k).cmdId = 0
  opened : ∀ k, (st.submits k).pc.finished = false → st.phase (st.submits k).sess = .opened

namespace CallInv

/-- A call that was not refused is one of the calls made. -/
theorem lt (hi : CallInv st) {k : Nat} (h : (st.submits k).pc ≠ .refused) :
    k < st.nsubmits := by
  by_contra hk
  exact h (hi.blank k (by omega)).1

/-- So is a call in progress. -/
theorem lt_of_running (hi : CallInv st) {k : Nat} (h : (st.submits k).pc.finished = false) :
    k < st.nsubmits := by
  refine hi.lt fun he ↦ ?_
  rw [he] at h
  cases h

/-- And a call past its commit point. -/
theorem lt_of_committed (hi : CallInv st) {k : Nat} (h : (st.submits k).pc.committed = true) :
    k < st.nsubmits := by
  refine hi.lt fun he ↦ ?_
  rw [he] at h
  cases h

/-- A call past its commit point has drawn its id. -/
theorem cmdId_ne (hi : CallInv st) {k : Nat} (h : (st.submits k).pc.committed = true) :
    (st.submits k).cmdId ≠ 0 := by
  apply hi.numbered k
  cases hp : (st.submits k).pc <;>
    simp_all [SubmitPc.committed, SubmitPc.numbered, SubmitPc.early]

private theorem opened_keep (hi : CallInv st) (ht : Trans st a st') {k : Nat}
    (hf : (st.submits k).pc.finished = false) : st'.phase (st.submits k).sess = .opened := by
  rcases ht.opened (hi.opened k hf) with ho | hq
  · exact ho
  · have := hq.1 k (hi.lt_of_running hf) rfl
    rw [hf] at this
    cases this

private theorem keep (hi : CallInv st) (ht : Trans st a st')
    (h : ∀ k, Keeps (st.submits k) (st'.submits k)) (hn : st'.nsubmits = st.nsubmits)
    (hid : st'.nextCmdId = st.nextCmdId) : CallInv st' where
  pos := by
    rw [hid]
    exact hi.pos
  bound k := by
    rw [hid, (h k).cmdId]
    exact hi.bound k
  inj k l hk hl := by
    rw [(h k).cmdId] at hk hl
    rw [(h l).cmdId] at hl
    exact hi.inj k l hk hl
  early k hk := by
    rw [(h k).cmdId]
    exact hi.early k ((h k).early hk)
  numbered k hk := by
    rw [(h k).cmdId]
    exact hi.numbered k ((h k).numbered hk)
  blank k hk := by
    rw [hn] at hk
    rw [(h k).cmdId]
    exact ⟨(h k).refused (hi.blank k hk).1, (hi.blank k hk).2⟩
  opened k hk := by
    rw [(h k).sess]
    exact hi.opened_keep ht ((h k).alive hk)

private theorem enter (hi : CallInv st) {x : Submit} (hx : x.pc = .copyIn) (hid : x.cmdId = 0)
    (ho : st.phase x.sess = .opened) (hp : st'.phase = st.phase)
    (hs : st'.submits = Function.update st.submits st.nsubmits x)
    (hn : st'.nsubmits = st.nsubmits + 1) (hnext : st'.nextCmdId = st.nextCmdId) :
    CallInv st' := by
  have hself : st'.submits st.nsubmits = x := by rw [hs, Function.update_self]
  have hother {k : Nat} (hk : k ≠ st.nsubmits) : st'.submits k = st.submits k := by
    rw [hs, Function.update_of_ne hk]
  have hsame (k : Nat) : (st'.submits k).cmdId = (st.submits k).cmdId := by
    by_cases hk : k = st.nsubmits
    · rw [hk, hself, hid, (hi.blank st.nsubmits (Nat.le_refl _)).2]
    · rw [hother hk]
  refine ⟨?_, ?_, ?_, ?_, ?_, ?_, ?_⟩
  · rw [hnext]
    exact hi.pos
  · intro k
    rw [hnext, hsame]
    exact hi.bound k
  · intro k l hk hl
    rw [hsame] at hk
    rw [hsame, hsame] at hl
    exact hi.inj k l hk hl
  · intro k hk
    by_cases he : k = st.nsubmits
    · rw [he, hself, hid]
    · rw [hother he] at hk ⊢
      exact hi.early k hk
  · intro k hk
    by_cases he : k = st.nsubmits
    · rw [he, hself, hx] at hk
      cases hk
    · rw [hother he] at hk ⊢
      exact hi.numbered k hk
  · intro k hk
    rw [hother (by omega)]
    exact hi.blank k (by omega)
  · intro k hk
    rw [hp]
    by_cases he : k = st.nsubmits
    · rw [he, hself]
      exact ho
    · rw [hother he] at hk ⊢
      exact hi.opened k hk

private theorem newId (hi : CallInv st) (ht : Trans st a st') {k : Nat} {x : Submit}
    (hk : (st.submits k).pc = .newId) (hs : st'.submits = Function.update st.submits k x)
    (hx : x.pc = .readActive) (hxs : x.sess = (st.submits k).sess)
    (hid : x.cmdId = st.nextCmdId + 1) (hn : st'.nsubmits = st.nsubmits)
    (hnext : st'.nextCmdId = st.nextCmdId + 1) : CallInv st' := by
  have hself : st'.submits k = x := by rw [hs, Function.update_self]
  have hother {l : Nat} (hl : l ≠ k) : st'.submits l = st.submits l := by
    rw [hs, Function.update_of_ne hl]
  -- the drawn id is above every id of another call
  have habove (l : Nat) : (st.submits l).cmdId ≠ st.nextCmdId + 1 := by
    have := hi.bound l
    omega
  refine ⟨?_, ?_, ?_, ?_, ?_, ?_, ?_⟩
  · omega
  · intro l
    rw [hnext]
    by_cases hl : l = k
    · rw [hl, hself, hid]
    · rw [hother hl]
      have := hi.bound l
      omega
  · intro l m hne heq
    by_cases hl : l = k <;> by_cases hm : m = k
    · rw [hl, hm]
    · rw [hl, hself, hother hm, hid] at heq
      exact (habove m heq.symm).elim
    · rw [hm, hself, hother hl, hid] at heq
      exact (habove l heq).elim
    · rw [hother hl] at hne heq
      rw [hother hm] at heq
      exact hi.inj l m hne heq
  · intro l he
    by_cases hl : l = k
    · rw [hl, hself, hx] at he
      cases he
    · rw [hother hl] at he ⊢
      exact hi.early l he
  · intro l he
    by_cases hl : l = k
    · rw [hl, hself, hid]
      omega
    · rw [hother hl] at he ⊢
      exact hi.numbered l he
  · intro l hl
    rw [hn] at hl
    have hlk : l ≠ k := by
      rintro rfl
      rw [(hi.blank l hl).1] at hk
      cases hk
    rw [hother hlk]
    exact hi.blank l hl
  · intro l hf
    by_cases hl : l = k
    · rw [hl, hself, hxs]
      exact hi.opened_keep ht (hk ▸ rfl)
    · rw [hother hl] at hf ⊢
      exact hi.opened_keep ht hf

/-- Every step keeps the discipline. -/
theorem step (hi : CallInv st) (h : Trans st a st') : CallInv st' := by
  cases h.callsMove with
  | keep hk _ _ hn hid => exact hi.keep h hk hn hid
  | enter s req ho hp hs _ hn hid => exact hi.enter rfl rfl ho hp hs hn hid
  | newId k hk hs _ hn hid => exact hi.newId h hk hs rfl rfl rfl hn hid
  | register k hk hs _ hn hid =>
    refine hi.keep h ?_ hn hid
    rw [hs]
    exact rel_update .refl (.of_pc (hk ▸ rfl) rfl (fun _ ↦ rfl)
      (by simp [hk, SubmitPc.stored]) (hk ▸ rfl))

/-- The discipline holds before any call. -/
theorem init : CallInv Sys.init :=
  ⟨Nat.le_refl 1, fun _ ↦ Nat.zero_le _, fun _ _ h ↦ (h rfl).elim, fun _ _ ↦ rfl, nofun,
    fun _ _ ↦ ⟨rfl, rfl⟩, nofun⟩

end CallInv

/-- The discipline of the calls holds along every run. -/
theorem callInv {ok : Sys → Act → Prop} (h : ReachBy ok st) : CallInv st :=
  invariant_of_trans CallInv.init (fun _ _ _ _ hi _ ht ↦ hi.step ht) h

/-- The history entry of a call at its commit point. -/
def Submit.toAdmitted (c : Submit) : Admitted := ⟨c.sess, c.desc⟩

/-- The history of admissions is the calls past their commit point, each once. -/
structure AdmInv (st : Sys) : Prop where
  mem_iff : ∀ x, x ∈ st.admitted ↔ ∃ k, (st.submits k).pc.committed = true ∧
    (st.submits k).toAdmitted = x
  nodup : (st.admitted.map (·.cmd.cmdId)).Nodup

namespace AdmInv

private theorem keep (hi : AdmInv st) (h : ∀ k, Keeps (st.submits k) (st'.submits k))
    (hc : ∀ k, (st'.submits k).pc.committed = (st.submits k).pc.committed)
    (ha : st'.admitted = st.admitted) : AdmInv st' := by
  have hto (k : Nat) (hk : (st.submits k).pc.committed = true) :
      (st'.submits k).toAdmitted = (st.submits k).toAdmitted := by
    have he : (st.submits k).pc.early = false := by
      cases hp : (st.submits k).pc <;> simp_all [SubmitPc.committed, SubmitPc.early]
    rw [Submit.toAdmitted, (h k).sess, (h k).desc he]
    rfl
  constructor
  · intro x
    rw [ha, hi.mem_iff]
    constructor
    · rintro ⟨k, hk, hx⟩
      exact ⟨k, (hc k).trans hk, (hto k hk).trans hx⟩
    · rintro ⟨k, hk, hx⟩
      rw [hc k] at hk
      exact ⟨k, hk, (hto k hk).symm.trans hx⟩
  · rw [ha]
    exact hi.nodup

private theorem uncommitted (hi : AdmInv st) {k : Nat} {x : Submit}
    (hs : st'.submits = Function.update st.submits k x) (ha : st'.admitted = st.admitted)
    (hk : (st.submits k).pc.committed = false) (hx : x.pc.committed = false) : AdmInv st' := by
  constructor
  · intro y
    rw [ha, hi.mem_iff, hs]
    constructor
    · rintro ⟨l, hl, hy⟩
      refine ⟨l, ?_⟩
      rw [Function.update_of_ne (by rintro rfl; simp [hk] at hl)]
      exact ⟨hl, hy⟩
    · rintro ⟨l, hl, hy⟩
      have hlk : l ≠ k := by
        rintro rfl
        rw [Function.update_self, hx] at hl
        cases hl
      rw [Function.update_of_ne hlk] at hl hy
      exact ⟨l, hl, hy⟩
  · rw [ha]
    exact hi.nodup

private theorem register (hi : AdmInv st) (hc : CallInv st) {k : Nat} {x : Submit}
    (hk : (st.submits k).pc = .admission) (hs : st'.submits = Function.update st.submits k x)
    (hx : x.pc = .incInflight) (hxa : x.toAdmitted = (st.submits k).toAdmitted)
    (ha : st'.admitted = st.admitted ++ [(st.submits k).toAdmitted]) : AdmInv st' := by
  constructor
  · intro y
    rw [ha, List.mem_append, List.mem_singleton, hi.mem_iff, hs]
    constructor
    · rintro (⟨l, hl, hy⟩ | rfl)
      · refine ⟨l, ?_⟩
        rw [Function.update_of_ne (by rintro rfl; simp [hk, SubmitPc.committed] at hl)]
        exact ⟨hl, hy⟩
      · refine ⟨k, ?_⟩
        rw [Function.update_self]
        exact ⟨hx ▸ rfl, hxa⟩
    · rintro ⟨l, hl, hy⟩
      by_cases hlk : l = k
      · rw [hlk, Function.update_self, hxa] at hy
        exact .inr hy.symm
      · rw [Function.update_of_ne hlk] at hl hy
        exact .inl ⟨l, hl, hy⟩
  · rw [ha, List.map_append, List.nodup_append]
    refine ⟨hi.nodup, List.nodup_singleton _, ?_⟩
    -- an equal id would belong to the same call, which had not committed before
    intro i hi' j hj hij
    obtain ⟨y, hy, rfl⟩ := List.mem_map.mp hi'
    obtain ⟨l, hl, rfl⟩ := (hi.mem_iff y).mp hy
    rw [List.map_singleton, List.mem_singleton] at hj
    have hne : (st.submits k).cmdId ≠ 0 := hc.numbered k (hk ▸ rfl)
    have hkl : k = l := hc.inj k l hne (hj.symm.trans hij.symm)
    rw [← hkl, hk] at hl
    cases hl

/-- Every step keeps history and calls in agreement. -/
theorem step (hi : AdmInv st) (hc : CallInv st) (h : Trans st a st') : AdmInv st' := by
  cases h.callsMove with
  | keep hk hcm ha _ _ => exact hi.keep hk hcm ha
  | enter s req _ _ hs ha _ _ =>
    exact hi.uncommitted hs ha ((hc.blank _ (Nat.le_refl _)).1 ▸ rfl) rfl
  | newId k hk hs ha _ _ => exact hi.uncommitted hs ha (hk ▸ rfl) rfl
  | register k hk hs ha _ _ => exact hi.register hc hk hs rfl rfl ha

/-- There is no history before any call. -/
theorem init : AdmInv Sys.init :=
  ⟨fun x ↦ ⟨fun h ↦ by simp [Sys.init] at h, fun ⟨_, h, _⟩ ↦ by cases h⟩, List.nodup_nil⟩

end AdmInv

/-- History and calls agree along every run. -/
theorem admInv {ok : Sys → Act → Prop} (h : ReachBy ok st) : AdmInv st :=
  invariant_of_trans AdmInv.init (fun _ _ _ hr hi _ ht ↦ hi.step (callInv hr) ht) h

end DmaAccel.Driver
