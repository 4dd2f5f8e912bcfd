import DmaAccel.Admission.FairShare

/-!
# Whether the others can fill the ring

Source `track-a/dma_accel_drv.c`, `dma_accel_admission_likely_ok` (1510–1534) and the
admission loop (1647–1691). Shares are rounded up, so the shares of all sessions but one can
add up to the whole ring. `AtOnce n` says that, among `n` sessions that stay open and submit
one at a time, a session with nothing in flight always passes the locked check; the main
result decides it for every number of sessions the ring has slots for.
-/

namespace DmaAccel.Driver

open DmaAccel.Base

/-- The action changes which sessions are open. -/
def Act.opensOrCloses : Act → Bool
  | .chrOpen | .chrRelease _ => true
  | _ => false

/-- The action is a new SUBMIT ioctl. -/
def Act.isSubmit : Act → Bool
  | .submit _ _ => true
  | _ => false

/-- No SUBMIT ioctl is in progress. -/
def noSubmit (st : Sys) : Prop := ∀ k < st.nsubmits, (st.submits k).pc.finished = true

instance (st : Sys) : Decidable (noSubmit st) := inferInstanceAs (Decidable (∀ k < _, _))

/-- The open sessions stay as they are, and SUBMIT ioctls execute one at a time. -/
def OneAtATime (st : Sys) (a : Act) : Prop :=
  a.opensOrCloses = false ∧ (a.isSubmit = true → noSubmit st)

instance (st : Sys) (a : Act) : Decidable (OneAtATime st a) :=
  inferInstanceAs (Decidable (_ ∧ _))

/-- Exactly `n` sessions are open, the ring is empty and no SUBMIT is in progress. -/
def FairStart (n : Nat) (st : Sys) : Prop :=
  openCount st = n ∧ unrouted st = [] ∧ noSubmit st

instance (n : Nat) (st : Sys) : Decidable (FairStart n st) := inferInstanceAs (Decidable (_ ∧ _))

/-- A SUBMIT about to be checked on a session with no command in flight is admitted. -/
def idleAdmitted (st : Sys) (k : Nat) : Prop :=
  (st.submits k).pc = .admission → unroutedOf st (st.submits k).sess = [] → admits st k

instance (st : Sys) (k : Nat) : Decidable (idleAdmitted st k) :=
  inferInstanceAs (Decidable (_ → _))

/-- In every run of `n` sessions from an empty ring, and in every state of it that satisfies
`p`, a session with no command in flight is admitted without blocking. -/
def AtOnce (n : Nat) (p : Sys → Prop) : Prop :=
  ∀ st0 st : Sys, Reachable st0 → FairStart n st0 → Reach step OneAtATime st0 st → p st →
    ∀ k, idleAdmitted st k

/-- The handler is not between pushing a completion and decrementing `total_inflight`. -/
def settled (st : Sys) : Prop := st.isr.pc.lateTotal = false

instance (st : Sys) : Decidable (settled st) := inferInstanceAs (Decidable (_ = _))

variable {st st' : Sys} {a : Act} {n : Nat}

section Steps

/-- Without `open` and `release` the open sessions stay open. -/
private theorem Trans.stays_open (h : Trans st a st') (ha : a.opensOrCloses = false) {s : Sid}
    (hs : st.phase s = .opened) : st'.phase s = .opened := by
  cases h.phaseMove s with
  | keep hp => exact hp.trans hs
  | opens _ _ hp => exact hp
  | closes he => rw [he] at ha; cases ha
  | wakes hr => simp [hs] at hr
  | polls hr => simp [hs] at hr
  | frees hr => simp [hs] at hr
  | kfrees _ hr => simp [hs] at hr

private theorem Trans.active_same (h : Trans st a st') (ha : a.opensOrCloses = false) :
    st'.activeSessions = st.activeSessions := by
  cases h with
  | chrOpen => cases ha
  | chrRelease r => cases ha
  | _ => rfl

/-- A call in progress was in progress before, unless it has just entered. -/
private theorem Trans.in_progress (h : Trans st a st') {k : Nat}
    (hk : (st'.submits k).pc.finished = false) :
    (st.submits k).pc.finished = false ∨ a.isSubmit = true ∧ k = st.nsubmits := by
  have hcell {l : Nat} {x : Submit} (hs : st'.submits = Function.update st.submits l x)
      (hl : (st.submits l).pc.finished = false) : (st.submits k).pc.finished = false := by
    by_cases he : k = l
    · rw [he]
      exact hl
    · rw [hs, Function.update_of_ne he] at hk
      exact hk
  cases h.callsMove with
  | keep hkeep _ _ _ _ => exact .inl ((hkeep k).alive hk)
  | enter s req _ _ hs _ hn _ =>
    have hsub : st'.nsubmits = st.nsubmits ∨ a.isSubmit = true := by
      cases h with
      | submit s req ho => exact .inr rfl
      | _ => exact .inl rfl
    by_cases he : k = st.nsubmits
    · exact .inr ⟨hsub.resolve_left (by omega), he⟩
    · rw [hs, Function.update_of_ne he] at hk
      exact .inl hk
  | newId l hl hs _ _ _ => exact .inl (hcell hs (hl ▸ rfl))
  | register l hl hs _ _ _ => exact .inl (hcell hs (hl ▸ rfl))

/-- Where SUBMIT ioctls enter one at a time, at most one is in progress. -/
theorem Trans.single (h : Trans st a st') (hc : CallInv st)
    (hone : a.isSubmit = true → noSubmit st)
    (hi : ∀ k l, (st.submits k).pc.finished = false → (st.submits l).pc.finished = false → k = l)
    (k l : Nat) (hk : (st'.submits k).pc.finished = false)
    (hl : (st'.submits l).pc.finished = false) : k = l := by
  have hnew {j : Nat} (ha : a.isSubmit = true) (hj : (st.submits j).pc.finished = false) :
      False := by
    have := hone ha j (hc.lt_of_running hj)
    rw [hj] at this
    cases this
  rcases h.in_progress hk with hk | ⟨ha, rfl⟩ <;>
    rcases h.in_progress hl with hl | ⟨hb, rfl⟩
  · exact hi k l hk hl
  · exact (hnew hb hk).elim
  · exact (hnew ha hl).elim
  · rfl

/-- Unrouted commands were unrouted before, or have just been admitted. -/
private theorem Trans.unrouted_cases (h : Trans st a st') {x : Admitted}
    (hx : x ∈ unrouted st') :
    x ∈ unrouted st ∨ ∃ k ∈ a.submitCall, admits st k ∧ x = (st.submits k).toAdmitted := by
  obtain ⟨l, hl⟩ := h.pushed_append
  unfold unrouted at hx ⊢
  simp only [List.mem_filter, decide_eq_true_eq, hl, List.map_append, List.mem_append,
    not_or] at hx ⊢
  obtain ⟨hadm, hnot, -⟩ := hx
  rcases h.admitted_cases with he | ⟨k, hk, -, hk', he⟩
  · exact .inl ⟨he ▸ hadm, hnot⟩
  · rw [he, List.mem_append, List.mem_singleton] at hadm
    rcases hadm with hadm | hadm
    · exact .inl ⟨hadm, hnot⟩
    · exact .inr ⟨k, hk, hk', hadm⟩

end Steps

/-- What a run of `n` sessions that submit one at a time keeps. -/
structure ShareInv (n : Nat) (st : Sys) : Prop where
  active : st.activeSessions = n
  single : ∀ k l, (st.submits k).pc.finished = false → (st.submits l).pc.finished = false →
    k = l
  quota : ∀ k, (st.submits k).pc = .admission → (st.submits k).quota = quotaOf n
  share : ∀ s, ((ledgerOf st).outstanding (fun t ↦ t.1 = s) : Int) ≤ quotaOf n
  owners : ∀ x ∈ unrouted st, st.phase x.sess = .opened

namespace ShareInv

/-- While one call is being checked no other submitter is under way. -/
theorem no_uncounted (hi : ShareInv n st) {k : Nat} (hk : (st.submits k).pc = .admission)
    {u : SubmitPc → Bool} (q : Sid → Prop) [DecidablePred q] (hu : u .admission = false)
    (hfin : ∀ pc, u pc = true → pc.finished = false) : callsBy u q st = 0 := by
  apply callsBy_eq_zero.mpr
  rintro l - ⟨hl, -⟩
  rw [hi.single l k (hfin _ hl) (hk ▸ rfl), hk, hu] at hl
  cases hl

private theorem uncountedOf_zero (hi : ShareInv n st) {k : Nat}
    (hk : (st.submits k).pc = .admission) (s : Sid) : uncountedOf st s = 0 :=
  hi.no_uncounted hk (· = s) rfl fun pc hpc ↦ by
    cases pc <;> simp_all [SubmitPc.uncounted, SubmitPc.finished]

private theorem uncountedAll_zero (hi : ShareInv n st) {k : Nat}
    (hk : (st.submits k).pc = .admission) : uncountedAll st = 0 :=
  hi.no_uncounted hk (fun _ ↦ True) rfl fun pc hpc ↦ by
    cases pc <;> simp_all [SubmitPc.uncountedTotal, SubmitPc.finished]

/-- Every step of such a run keeps it. -/
theorem step (hr : Reachable st) (hi : ShareInv n st) (hok : OneAtATime st a)
    (h : Trans st a st') : ShareInv n st' where
  active := (h.active_same hok.1).trans hi.active
  single := h.single (callInv hr) hok.2 hi.single
  quota k hk := by
    rcases h.admission_cases hk with ⟨-, hq⟩ | ⟨hp, hq⟩
    · rw [hq, hi.active]
    · rw [hq, hi.quota k hp]
  share s := by
    rcases h.outstanding (· = s) with hle | ⟨k, -, -, hadm, he⟩
    · have := hi.share s
      omega
    · rw [he]
      split
      · next hs =>
        subst hs
        have hbound := outstanding_sess hr (st.submits k).sess
        rw [hi.uncountedOf_zero hadm.1] at hbound
        have hlt := hadm.2.2.1
        rw [hi.quota k hadm.1] at hlt
        omega
      · have := hi.share s
        omega
  owners x hx := by
    apply h.stays_open hok.1
    rcases h.unrouted_cases hx with hx | ⟨k, -, hadm, rfl⟩
    · exact hi.owners x hx
    · exact (callInv hr).opened k (hadm.1 ▸ rfl)

/-- The start of such a run has it. -/
theorem start (hr : Reachable st) (h : FairStart n st) : ShareInv n st where
  active := by rw [(sessInv hr).active, h.1]
  single k l hk _ := by
    have := h.2.2 k ((callInv hr).lt_of_running hk)
    rw [hk] at this
    cases this
  quota k hk := by
    have := h.2.2 k ((callInv hr).lt_of_running (hk ▸ rfl))
    rw [hk] at this
    cases this
  share s := by
    rw [← length_unroutedOf hr, unroutedOf, h.2.1]
    exact (quotaOf_pos n).le
  owners x hx := by
    rw [h.2.1] at hx
    cases hx

end ShareInv

/-- Every run of `n` sessions that submit one at a time keeps its invariant. -/
theorem shareInv {st0 : Sys} (h0 : Reachable st0) (hs : FairStart n st0)
    (h : Reach step OneAtATime st0 st) : ShareInv n st :=
  h.invariant (.start h0 hs) fun _ _ _ hr hi hok hstep ↦
    hi.step (h0.trans hr.any) hok (trans_of_step hstep)

/-- The others of `n` sessions hold at most their shares. -/
theorem unrouted_le_others (hr : Reachable st) (hi : ShareInv n st) {s : Sid}
    (ho : st.phase s = .opened) (hs : unroutedOf st s = []) :
    ((unrouted st).length : Int) ≤ quotaOf n * (n - 1) := by
  have hsess := sessInv hr
  have hnodup : (unrouted st).Nodup :=
    (List.Nodup.of_map _ (admInv hr).nodup).filter _
  -- the sessions that can own an unrouted command
  let others := ((Finset.range st.nsess).filter fun r ↦ st.phase r = .opened).erase s
  have hopen : s ∈ (Finset.range st.nsess).filter fun r ↦ st.phase r = .opened :=
    Finset.mem_filter.mpr ⟨Finset.mem_range.mpr (hsess.lt (by simp [ho])), ho⟩
  have hcard : (others.card : Int) = n - 1 := by
    have h1 : others.card = openCount st - 1 := Finset.card_erase_of_mem hopen
    have h2 : 0 < openCount st := Finset.card_pos.mpr ⟨s, hopen⟩
    have := hsess.active
    rw [hi.active] at this
    omega
  have hmaps : ∀ x ∈ unrouted st, x.sess ∈ others := by
    intro x hx
    have hox := hi.owners x hx
    refine Finset.mem_erase.mpr ⟨?_, Finset.mem_filter.mpr
      ⟨Finset.mem_range.mpr (hsess.lt (by simp [hox])), hox⟩⟩
    rintro rfl
    have : x ∈ unroutedOf st x.sess := List.mem_filter.mpr ⟨hx, by simp⟩
    rw [hs] at this
    cases this
  have hfiber : ∀ r ∈ others, ((unrouted st).filter fun x ↦ x.sess = r).length ≤
      (quotaOf n).toNat := by
    intro r _
    have hshare := hi.share r
    rw [← length_unroutedOf hr, unroutedOf] at hshare
    omega
  have hmul := length_le_mul_card hnodup hmaps hfiber
  calc ((unrouted st).length : Int) ≤ ((quotaOf n).toNat * others.card : Nat) := by
        exact_mod_cast hmul
    _ = quotaOf n * (n - 1) := by
        rw [Nat.cast_mul, hcard, Int.toNat_of_nonneg (quotaOf_pos n).le]

/-- A table with an entry to spare offers a slot. -/
theorem freeCmdSlot_isSome (h : validAll st < maxInflightCmds) :
    (freeCmdSlot st.cmdTable).isSome = true := by
  by_contra hn
  rw [Bool.not_eq_true, Option.isSome_eq_false_iff, Option.isNone_iff_eq_none] at hn
  have hall : ∀ j, (st.cmdTable j).valid = true := by
    intro j
    have := List.find?_eq_none.mp hn j (List.mem_finRange j)
    simpa using this
  have : validAll st = maxInflightCmds := by
    unfold validAll validBy count
    rw [Finset.filter_true_of_mem fun j _ ↦ ⟨hall j, trivial⟩, Finset.card_univ,
      Fintype.card_fin]
  omega

/-- An idle session is admitted where the others' shares and the completion in the
handler's hand leave room. -/
private theorem idleAdmitted_of_room (hr : Reachable st) (hi : ShareInv n st) {k : Nat}
    (hroom : quotaOf n * (n - 1) + lateAll st < queueDepth) (hown : lateAll st < quotaOf n) :
    idleAdmitted st k := by
  intro hk hidle
  have hopen := (callInv hr).opened k (hk ▸ rfl)
  have hothers := unrouted_le_others hr hi hopen hidle
  have hall := outstanding_all hr
  rw [← length_unrouted hr, hi.uncountedAll_zero hk] at hall
  have hsess := outstanding_sess hr (st.submits k).sess
  rw [← length_unroutedOf hr, hidle, hi.uncountedOf_zero hk] at hsess
  have hlate : lateOf st (st.submits k).sess ≤ lateAll st := by
    unfold lateOf lateAll handBy
    cases st.isr.pc <;> simp [IsrPc.late, IsrPc.lateTotal]
    split <;> omega
  have hvalid := (accounted hr).total
  rw [hi.uncountedAll_zero hk] at hvalid
  have htotal : st.totalInflight < queueDepth := by omega
  have hdepth : queueDepth < maxInflightCmds := by decide
  refine ⟨hk, htotal, ?_, freeCmdSlot_isSome (by omega)⟩
  rw [hi.quota k hk]
  simp only [List.length_nil] at hsess
  omega

/-- Script: `n` sessions open and each allocates a buffer. -/
def fairScript (n : Nat) : List Act :=
  List.replicate n .chrOpen ++ (List.range n).flatMap fun s ↦ allocScript s s

/-- Script: the first sessions fill the ring with their shares of `q`, then the last of `n`
sessions submits. -/
def fillScript (n q : Nat) : List Act :=
  (List.range 16).flatMap (fun i ↦ submitScript (i / q) (i / q) i 14) ++
    submitScript (n - 1) (n - 1) 16 4

/-- Script: the last of `n` sessions submits, the others take fifteen slots in shares of `q`,
and the last session submits again while the handler is counting its first command off. -/
def lateScript (n q : Nat) : List Act :=
  submitScript (n - 1) (n - 1) 0 14 ++
    (List.range 15).flatMap (fun i ↦ submitScript (i / q) (i / q) (i + 1) 14) ++
    completeScript 0 6 ++ submitScript (n - 1) (n - 1) 16 4

/-- The script leads `n` sessions from an empty ring, submitting one at a time, to a state
that satisfies `p` and in which call 16 of an idle session is not admitted. -/
def starves (n : Nat) (script : List Act) (p : Sys → Prop) [DecidablePred p] : Bool :=
  (run step Sys.init (fairScript n)).any fun st0 ↦ decide (FairStart n st0) &&
    (runChecked step (fun st a ↦ decide (OneAtATime st a)) st0 script).any fun st ↦
      decide (p st ∧ ¬idleAdmitted st 16)

private theorem not_atOnce {script : List Act} {p : Sys → Prop} [DecidablePred p]
    (h : starves n script p = true) : ¬AtOnce n p := by
  obtain ⟨st0, hr, hp⟩ := Reach.exists_of_run h
  rw [Bool.and_eq_true] at hp
  have hrun : ∃ st, Reach step OneAtATime st0 st ∧ _ :=
    Reach.exists_of_runChecked (fun _ _ hc ↦ of_decide_eq_true hc) hp.2
  obtain ⟨st, hs, hbad⟩ := hrun
  intro hall
  exact (of_decide_eq_true hbad).2
    (hall st0 st hr (of_decide_eq_true hp.1) hs (of_decide_eq_true hbad).1 16)

/-- Numbers of sessions of which all but one can fill the ring. -/
private theorem starves_fill : ∀ n ∈ [5, 7, 9, 10, 11, 12, 13, 14, 15],
    starves n (fillScript n (quotaOf n).toNat) settled = true := by decide +kernel

/-- Numbers of sessions of which all but one can fill the ring up to one slot. -/
private theorem starves_late : ∀ n ∈ [6, 16],
    starves n (lateScript n (quotaOf n).toNat) (fun _ ↦ True) = true := by decide +kernel

private theorem fill_of_no_room : ∀ n : Nat, n ≤ 16 → ¬quotaOf n * (n - 1) < queueDepth →
    n ∈ [5, 7, 9, 10, 11, 12, 13, 14, 15] := by decide

private theorem late_of_no_room : ∀ n : Nat, n ≤ 16 → ¬quotaOf n * (n - 1) + 1 < queueDepth →
    n ∈ [5, 7, 9, 10, 11, 12, 13, 14, 15] ∨ n ∈ [6, 16] := by decide

private theorem share_of_room : ∀ n : Nat, n ≤ 16 → (quotaOf n * (n - 1) + 1 < queueDepth →
    1 < quotaOf n) ∧ 0 < quotaOf n := by decide

/-- Among `n` sessions that stay open and submit one at a time, an idle session is always
admitted at once exactly if the shares of the others leave two slots (`n` is 1, 2, 3, 4 or
8); while the handler is not counting a completion off, exactly if they leave one (also 6
and 16). -/
theorem atOnce_iff (n : Nat) (hn : n ≤ 16) :
    (AtOnce n (fun _ ↦ True) ↔ quotaOf n * (n - 1) + 1 < queueDepth) ∧
    (AtOnce n settled ↔ quotaOf n * (n - 1) < queueDepth) := by
  refine ⟨⟨?_, ?_⟩, ⟨?_, ?_⟩⟩
  · intro hall
    by_contra hno
    rcases late_of_no_room n hn hno with hf | hl
    · refine not_atOnce (starves_fill n hf) ?_
      intro st0 st hr hs hrun _
      exact hall st0 st hr hs hrun trivial
    · exact not_atOnce (starves_late n hl) hall
  · intro hroom st0 st hr hs hrun _ k
    have hlate : lateAll st ≤ 1 := by
      unfold lateAll handBy
      split <;> omega
    have := (share_of_room n hn).1 hroom
    exact idleAdmitted_of_room (hr.trans hrun.any) (shareInv hr hs hrun) (by omega) (by omega)
  · intro hall
    by_contra hno
    exact not_atOnce (starves_fill n (fill_of_no_room n hn hno)) hall
  · intro hroom st0 st hr hs hrun hset k
    have hlate : lateAll st = 0 := by
      unfold lateAll handBy
      rw [show st.isr.pc.lateTotal = false from hset]
      rfl
    have := (share_of_room n hn).2
    exact idleAdmitted_of_room (hr.trans hrun.any) (shareInv hr hs hrun) (by omega) (by omega)

/-- Four sessions never starve each other. -/
theorem atOnce_four : AtOnce 4 fun _ ↦ True :=
  (atOnce_iff 4 (by decide)).1.mpr (by decide)

/-- Five sessions do: four of them hold four slots each, and the fifth has to wait. -/
theorem starved_five : ¬∀ n ≤ 16, AtOnce n fun _ ↦ True := by
  intro hall
  have hstarves : starves 5 (fillScript 5 4) (fun _ ↦ True) = true := by decide +kernel
  exact not_atOnce hstarves (hall 5 (by decide))

end DmaAccel.Driver
