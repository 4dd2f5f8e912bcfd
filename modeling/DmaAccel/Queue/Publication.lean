import DmaAccel.Admission.RingCap

/-!
# Publication of commands in the submission queue

Source `track-a/dma_accel_drv.c`, `dma_accel_queue_submit_ext` (822–849), which
`dma_accel_ioc_submit` calls after it has dropped `cmd_lock` and `buf_mutex` (1691–1697). The
enqueue itself takes no lock, and its last load of `sq_tail` and the write of the doorbell are
two accesses like the others. Run by one submitter at a time, from the computation of the slot
to the doorbell, and with the cap on the ring intact, it implements a queue: `queue` below, the
descriptors fetched so far followed by the window of the ring, is the sequence of the calls
that have advanced `sq_tail`.
-/

namespace DmaAccel.Driver

open DmaAccel.Base

/-- Between the computation of the slot and the write of the doorbell. -/
def SubmitPc.enqueuing : SubmitPc → Bool
  | .enqStore | .enqReadTail | .enqWriteTail | .enqLoadTail | .enqDoorbell => true
  | _ => false

/-- `sq_tail` has been advanced past the descriptor of the call. -/
def SubmitPc.queued : SubmitPc → Bool
  | .enqLoadTail | .enqDoorbell | .copyOut | .returned => true
  | _ => false

/-- Advanced `sq_tail`, and the doorbell not yet written. -/
def SubmitPc.ringing : SubmitPc → Bool
  | .enqLoadTail | .enqDoorbell => true
  | _ => false

/-- No submitter starts the enqueue while another one is between the computation of its slot
and the write of its doorbell, and nobody passes the locked check while another submitter is on
its way to `total_inflight`. -/
def EnqueueSerial (st : Sys) (a : Act) : Prop :=
  CapSerial st a ∧ ∀ k ∈ a.submitCall, (st.submits k).pc = .enqIdx →
    ∀ l < st.nsubmits, (st.submits l).pc.enqueuing = false

instance (st : Sys) (a : Act) : Decidable (EnqueueSerial st a) :=
  inferInstanceAs (Decidable (_ ∧ ∀ k ∈ a.submitCall, _))

/-- Every fetched descriptor is that of an admitted command and of no other fetch; when no
SUBMIT is in progress and the device has caught up with the doorbell, every admitted command
has been fetched. -/
structure Published (st : Sys) : Prop where
  distinct : (st.fetched.map (·.cmdId)).Nodup
  admitted : ∀ d ∈ st.fetched, ∃ x ∈ st.admitted, x.cmd = d
  complete : (∀ k < st.nsubmits, (st.submits k).pc.finished = true) →
    st.regSqHead = st.regSqTail → ∀ x ∈ st.admitted, x.cmd ∈ st.fetched

/-- The descriptors handed to the device: those fetched, then those in the ring. -/
def queue (st : Sys) : List Cmd := st.fetched ++ window st.sqBuf st.regSqHead st.sqTail

/-- The ring, its counters and the calls in the enqueue agree. -/
structure QueueInv (st : Sys) : Prop where
  single : ∀ k l, (st.submits k).pc.enqueuing = true → (st.submits l).pc.enqueuing = true →
    k = l
  idx : ∀ k, (st.submits k).pc = .enqStore → (st.submits k).idx = slotOf _ st.sqTail
  stored : ∀ k, (st.submits k).pc = .enqReadTail ∨ (st.submits k).pc = .enqWriteTail →
    st.sqBuf (slotOf _ st.sqTail) = (st.submits k).desc
  tail : ∀ k, (st.submits k).pc = .enqWriteTail ∨ (st.submits k).pc = .enqDoorbell →
    (st.submits k).tail = st.sqTail
  rung : (∀ k, (st.submits k).pc.ringing = false) → st.regSqTail = st.sqTail
  between : span st.regSqHead st.regSqTail + span st.regSqTail st.sqTail =
    span st.regSqHead st.sqTail
  mem : ∀ d, d ∈ queue st ↔ ∃ k, (st.submits k).pc.queued = true ∧ (st.submits k).desc = d
  nodup : ((queue st).map (·.cmdId)).Nodup

variable {st st' : Sys} {a : Act}

/-- A queued command has been registered. -/
theorem committed_of_queued {pc : SubmitPc} (h : pc.queued = true) :
    pc.committed = true := by
  cases pc <;> simp_all [SubmitPc.queued, SubmitPc.committed]

/-- A command on the way to the doorbell has been registered. -/
theorem committed_of_ringing {pc : SubmitPc} (h : pc.ringing = true) :
    pc.committed = true := by
  cases pc <;> simp_all [SubmitPc.ringing, SubmitPc.committed]

/-- A registered command of which no completion has been pushed is unrouted. -/
theorem unrouted_of_unpushed {ok : Sys → Act → Prop} (h : ReachBy ok st) {k : Nat}
    (hk : (st.submits k).pc.committed = true)
    (hp : ∀ p ∈ st.pushed, p.2.cmdId ≠ (st.submits k).cmdId) :
    (st.submits k).cmdId ∈ (unrouted st).map (·.cmd.cmdId) := by
  refine List.mem_map.mpr ⟨(st.submits k).toAdmitted, ?_, rfl⟩
  refine List.mem_filter.mpr ⟨((admInv h).mem_iff _).mpr ⟨k, hk, rfl⟩, ?_⟩
  rw [decide_eq_true_eq]
  intro hmem
  obtain ⟨p, hmem, he⟩ := List.mem_map.mp hmem
  exact hp p hmem (congrArg Prod.snd he)

namespace QueueInv

/-- The device never overtakes `sq_tail`. -/
theorem head_ne (hi : QueueInv st) (h : st.regSqHead ≠ st.regSqTail) :
    st.regSqHead ≠ st.sqTail := by
  intro he
  apply h
  have := hi.between
  rw [span_eq_zero_iff.mpr he] at this
  exact span_eq_zero_iff.mp (by omega)

/-- The device fetches no command id twice. -/
theorem fetched_nodup (hi : QueueInv st) : (st.fetched.map (·.cmdId)).Nodup := by
  have hnodup := hi.nodup
  unfold queue at hnodup
  rw [List.map_append, List.nodup_append] at hnodup
  exact hnodup.1

/-- A queued command is not queued under another call's id. -/
theorem id_not_mem (hi : QueueInv st) (hc : CallInv st) {k : Nat}
    (hk : (st.submits k).pc.committed = true) (hn : (st.submits k).pc.queued = false) :
    (st.submits k).cmdId ∉ (queue st).map (·.cmdId) := by
  intro hmem
  obtain ⟨d, hd, hid⟩ := List.mem_map.mp hmem
  obtain ⟨j, hj, rfl⟩ := (hi.mem d).mp hd
  have hjk : k = j := hc.inj k j (hc.cmdId_ne hk) hid.symm
  rw [← hjk, hn] at hj
  cases hj

/-- A command whose id the device has not fetched is unrouted. -/
private theorem unrouted_of_unfetched {ok : Sys → Act → Prop} (h : ReachBy ok st) {k : Nat}
    (hk : (st.submits k).pc.committed = true)
    (hf : (st.submits k).cmdId ∉ st.fetched.map (·.cmdId)) :
    (st.submits k).cmdId ∈ (unrouted st).map (·.cmd.cmdId) := by
  refine unrouted_of_unpushed h hk ?_
  intro p hmem hid
  rcases (repInv h).pushed p hmem with h0 | ⟨d, hd, hd'⟩
  · exact (callInv h).cmdId_ne hk (hid.symm.trans h0)
  · exact hf (List.mem_map.mpr ⟨d, hd, hd'.trans hid⟩)

/-- While a submitter has yet to advance `sq_tail` the ring is not full. -/
theorem span_lt {ok : Sys → Act → Prop} (hi : QueueInv st) (h : ReachBy ok st)
    (hcap : (unrouted st).length ≤ queueDepth) {k : Nat}
    (hk : (st.submits k).pc.committed = true) (hn : (st.submits k).pc.queued = false) :
    span st.regSqHead st.sqTail < queueDepth := by
  have hnot := hi.id_not_mem (callInv h) hk hn
  have hnodup := hi.nodup
  unfold queue at hnot hnodup
  rw [List.map_append] at hnot hnodup
  rw [List.nodup_append] at hnodup
  obtain ⟨-, hwin, hdisj⟩ := hnodup
  rw [List.mem_append, not_or] at hnot
  -- the ids in the window and that of the submitter belong to distinct unrouted commands
  have hsub : (st.submits k).cmdId ::
      (window st.sqBuf st.regSqHead st.sqTail).map (·.cmdId) ⊆
        (unrouted st).map (·.cmd.cmdId) := by
    intro id hid
    rcases List.mem_cons.mp hid with rfl | hid
    · exact unrouted_of_unfetched h hk hnot.1
    · obtain ⟨d, hd, rfl⟩ := List.mem_map.mp hid
      obtain ⟨j, hj, rfl⟩ := (hi.mem d).mp (List.mem_append_right _ hd)
      refine unrouted_of_unfetched h (committed_of_queued hj) ?_
      intro hf
      exact hdisj _ hf _ hid rfl
  have hlen := (List.subperm_of_subset (List.nodup_cons.mpr ⟨hnot.2, hwin⟩) hsub).length_le
  rw [List.length_cons, List.length_map, List.length_map, length_window] at hlen
  omega

end QueueInv

/-- What a step that concerns neither the ring nor the enqueue does to a call. -/
inductive EnqKeeps (c c' : Submit) : Prop where
  | same : c' = c → EnqKeeps c c'
  | outside : c.pc.enqueuing = false → c.pc.queued = false → c'.pc.enqueuing = false →
      c'.pc.queued = false → EnqKeeps c c'
  | leave : c.pc = .copyOut → c'.pc = .returned → c'.desc = c.desc → EnqKeeps c c'

namespace EnqKeeps

variable {c c' : Submit}

/-- Calls in the enqueue are left alone. -/
theorem enqueuing (h : EnqKeeps c c') (he : c'.pc.enqueuing = true) : c' = c := by
  cases h with
  | same h => exact h
  | outside _ _ h1 _ =>
    rw [h1] at he
    cases he
  | leave _ h1 _ =>
    rw [h1] at he
    cases he

/-- So are calls on the way to the doorbell. -/
theorem ringing (h : EnqKeeps c c') (hc : c'.pc.ringing = false) : c.pc.ringing = false := by
  cases h with
  | same h => exact h ▸ hc
  | outside h0 _ _ _ => cases hp : c.pc <;> simp_all [SubmitPc.enqueuing, SubmitPc.ringing]
  | leave h0 _ _ =>
    rw [h0]
    rfl

/-- No call becomes queued or changes its descriptor once it is. -/
theorem queued (h : EnqKeeps c c') : c'.pc.queued = c.pc.queued ∧
    (c.pc.queued = true → c'.desc = c.desc) := by
  cases h with
  | same h =>
    rw [h]
    exact ⟨rfl, fun _ ↦ rfl⟩
  | outside _ h0 _ h1 =>
    rw [h0, h1]
    exact ⟨rfl, nofun⟩
  | leave h0 h1 hd =>
    rw [h0, h1]
    exact ⟨rfl, fun _ ↦ hd⟩

end EnqKeeps

namespace QueueInv

/-- Steps that leave the slots, `sq_tail` and the calls in the enqueue alone. -/
private theorem frame (hi : QueueInv st) (hsq : st'.sqBuf = st.sqBuf)
    (ht : st'.sqTail = st.sqTail) (hq : queue st' = queue st)
    (hsame : ∀ k, (st'.submits k).pc.enqueuing = true → st'.submits k = st.submits k)
    (hqueued : ∀ k, (st'.submits k).pc.queued = (st.submits k).pc.queued ∧
      ((st.submits k).pc.queued = true → (st'.submits k).desc = (st.submits k).desc))
    (hrung : (∀ k, (st'.submits k).pc.ringing = false) → st'.regSqTail = st'.sqTail)
    (hbetween : span st'.regSqHead st'.regSqTail + span st'.regSqTail st'.sqTail =
      span st'.regSqHead st'.sqTail) : QueueInv st' := by
  refine ⟨?_, ?_, ?_, ?_, hrung, hbetween, ?_, ?_⟩
  · intro k l hk hl
    exact hi.single k l (hsame k hk ▸ hk) (hsame l hl ▸ hl)
  · intro k hk
    have he := hsame k (hk ▸ rfl)
    rw [he] at hk
    rw [he, ht]
    exact hi.idx k hk
  · intro k hk
    have he := hsame k (by rcases hk with hk | hk <;> rw [hk] <;> rfl)
    rw [he] at hk
    rw [he, hsq, ht]
    exact hi.stored k hk
  · intro k hk
    have he := hsame k (by rcases hk with hk | hk <;> rw [hk] <;> rfl)
    rw [he] at hk
    rw [he, ht]
    exact hi.tail k hk
  · intro d
    rw [hq, hi.mem]
    constructor
    · rintro ⟨k, hk, hd⟩
      exact ⟨k, (hqueued k).1.trans hk, ((hqueued k).2 hk).trans hd⟩
    · rintro ⟨k, hk, hd⟩
      rw [(hqueued k).1] at hk
      exact ⟨k, hk, ((hqueued k).2 hk).symm.trans hd⟩
  · rw [hq]
    exact hi.nodup

/-- Steps that concern neither the ring nor the enqueue. -/
private theorem keep (hi : QueueInv st) (hsq : st'.sqBuf = st.sqBuf)
    (ht : st'.sqTail = st.sqTail) (hrt : st'.regSqTail = st.regSqTail)
    (hrh : st'.regSqHead = st.regSqHead) (hf : st'.fetched = st.fetched)
    (h : ∀ k, EnqKeeps (st.submits k) (st'.submits k)) : QueueInv st' := by
  refine hi.frame hsq ht ?_ (fun k ↦ (h k).enqueuing) (fun k ↦ (h k).queued) ?_ ?_
  · unfold queue
    rw [hsq, ht, hrh, hf]
  · intro hno
    rw [hrt, ht]
    exact hi.rung fun k ↦ (h k).ringing (hno k)
  · rw [ht, hrt, hrh]
    exact hi.between

/-- The one call in the enqueue moves on; `x` is the call after its step. -/
private theorem focus {k : Nat} {x : Submit} (hs : st'.submits = Function.update st.submits k x)
    (honly : ∀ l, l ≠ k → (st.submits l).pc.enqueuing = false)
    (hidx : x.pc = .enqStore → x.idx = slotOf _ st'.sqTail)
    (hstored : x.pc = .enqReadTail ∨ x.pc = .enqWriteTail →
      st'.sqBuf (slotOf _ st'.sqTail) = x.desc)
    (htail : x.pc = .enqWriteTail ∨ x.pc = .enqDoorbell → x.tail = st'.sqTail)
    (hrung : (∀ l, (st'.submits l).pc.ringing = false) → st'.regSqTail = st'.sqTail)
    (hbetween : span st'.regSqHead st'.regSqTail + span st'.regSqTail st'.sqTail =
      span st'.regSqHead st'.sqTail)
    (hmem : ∀ d, d ∈ queue st' ↔ ∃ l, (st'.submits l).pc.queued = true ∧
      (st'.submits l).desc = d)
    (hnodup : ((queue st').map (·.cmdId)).Nodup) : QueueInv st' := by
  have hself : st'.submits k = x := by rw [hs, Function.update_self]
  have hk {l : Nat} (hl : (st'.submits l).pc.enqueuing = true) : l = k := by
    by_contra hne
    rw [hs, Function.update_of_ne hne, honly l hne] at hl
    cases hl
  refine ⟨?_, ?_, ?_, ?_, hrung, hbetween, hmem, hnodup⟩
  · intro l m hl hm
    rw [hk hl, hk hm]
  · intro l hl
    obtain rfl : l = k := hk (hl ▸ rfl)
    rw [hself] at hl ⊢
    exact hidx hl
  · intro l hl
    obtain rfl : l = k := hk (by rcases hl with hl | hl <;> rw [hl] <;> rfl)
    rw [hself] at hl ⊢
    exact hstored hl
  · intro l hl
    obtain rfl : l = k := hk (by rcases hl with hl | hl <;> rw [hl] <;> rfl)
    rw [hself] at hl ⊢
    exact htail hl

/-- The set of queued calls stays when one of them, or one that is not, moves on. -/
private theorem mem_same {k : Nat} {x : Submit} (hi : QueueInv st)
    (hs : st'.submits = Function.update st.submits k x) (hq : queue st' = queue st)
    (hx : x.pc.queued = (st.submits k).pc.queued) (hd : x.desc = (st.submits k).desc) (d : Cmd) :
    d ∈ queue st' ↔ ∃ l, (st'.submits l).pc.queued = true ∧ (st'.submits l).desc = d := by
  have hcell (l : Nat) : (st'.submits l).pc.queued = (st.submits l).pc.queued ∧
      (st'.submits l).desc = (st.submits l).desc := by
    rw [hs]
    exact rel_update (R := fun y z : Submit ↦ z.pc.queued = y.pc.queued ∧ z.desc = y.desc)
      (fun _ ↦ ⟨rfl, rfl⟩) ⟨hx, hd⟩ l
  rw [hq, hi.mem]
  constructor
  · rintro ⟨l, hl, he⟩
    exact ⟨l, (hcell l).1.trans hl, (hcell l).2.trans he⟩
  · rintro ⟨l, hl, he⟩
    exact ⟨l, (hcell l).1.symm.trans hl, (hcell l).2.symm.trans he⟩

/-- A call moves without ringing the doorbell, which is as up to date as before. -/
private theorem rung_of (hi : QueueInv st) {k : Nat} {x : Submit}
    (hs : st'.submits = Function.update st.submits k x)
    (hx : x.pc.ringing = (st.submits k).pc.ringing)
    (hno : ∀ l, (st'.submits l).pc.ringing = false) : st.regSqTail = st.sqTail := by
  refine hi.rung fun l ↦ ?_
  rw [← hno l, hs]
  exact rel_update (R := fun y z : Submit ↦ y.pc.ringing = z.pc.ringing) (fun _ ↦ rfl) hx.symm l

/-- A step inside the enqueue that leaves the queue and the counters alone. -/
private theorem inside (hi : QueueInv st) {k : Nat} {x : Submit}
    (hs : st'.submits = Function.update st.submits k x)
    (honly : ∀ l, l ≠ k → (st.submits l).pc.enqueuing = false)
    (hr : x.pc.ringing = (st.submits k).pc.ringing)
    (hx : x.pc.queued = (st.submits k).pc.queued)
    (hd : x.desc = (st.submits k).desc) (hq : queue st' = queue st)
    (ht : st'.sqTail = st.sqTail) (hrt : st'.regSqTail = st.regSqTail)
    (hrh : st'.regSqHead = st.regSqHead)
    (hidx : x.pc = .enqStore → x.idx = slotOf _ st'.sqTail)
    (hstored : x.pc = .enqReadTail ∨ x.pc = .enqWriteTail →
      st'.sqBuf (slotOf _ st'.sqTail) = x.desc)
    (htail : x.pc = .enqWriteTail ∨ x.pc = .enqDoorbell → x.tail = st'.sqTail) :
    QueueInv st' := by
  refine focus hs honly hidx hstored htail ?_ ?_ ?_ ?_
  · rw [ht, hrt]
    exact hi.rung_of hs hr
  · rw [ht, hrt, hrh]
    exact hi.between
  · exact hi.mem_same hs hq hx hd
  · rw [hq]
    exact hi.nodup

/-- The first step of the enqueue, taken while nobody else is in it. -/
private theorem enqIdx (hi : QueueInv st) {k : Nat} {x : Submit}
    (hk : (st.submits k).pc = .enqIdx) (hno : ∀ l, (st.submits l).pc.enqueuing = false)
    (hs : st'.submits = Function.update st.submits k x) (hx : x.pc = .enqStore)
    (hidx : x.idx = slotOf _ st.sqTail) (hd : x.desc = (st.submits k).desc)
    (hq : queue st' = queue st) (ht : st'.sqTail = st.sqTail)
    (hrt : st'.regSqTail = st.regSqTail) (hrh : st'.regSqHead = st.regSqHead) :
    QueueInv st' := by
  refine hi.inside hs (fun l _ ↦ hno l) (by rw [hx, hk]; rfl) (by rw [hx, hk]; rfl) hd hq ht
    hrt hrh ?_ ?_ ?_
  · intro _
    rw [ht]
    exact hidx
  · simp [hx]
  · simp [hx]

/-- Nobody but the call that moves is in the enqueue. -/
private theorem alone (hi : QueueInv st) {k : Nat} (hk : (st.submits k).pc.enqueuing = true)
    (l : Nat) (hl : l ≠ k) : (st.submits l).pc.enqueuing = false := by
  by_contra hne
  exact hl (hi.single l k (Bool.not_eq_false _ ▸ hne) hk)

private theorem enqStore (hi : QueueInv st) (hroom : span st.regSqHead st.sqTail < queueDepth)
    {k : Nat} {x : Submit} (hk : (st.submits k).pc = .enqStore)
    (hs : st'.submits = Function.update st.submits k x) (hx : x.pc = .enqReadTail)
    (hd : x.desc = (st.submits k).desc)
    (hsq : st'.sqBuf = Function.update st.sqBuf (st.submits k).idx (st.submits k).desc)
    (ht : st'.sqTail = st.sqTail) (hrt : st'.regSqTail = st.regSqTail)
    (hrh : st'.regSqHead = st.regSqHead) (hf : st'.fetched = st.fetched) : QueueInv st' := by
  rw [hi.idx k hk] at hsq
  -- the slot written is outside the window
  have hq : queue st' = queue st := by
    unfold queue
    rw [hsq, ht, hrh, hf, window_store (by decide) st.sqBuf hroom]
  refine hi.inside hs (hi.alone (hk ▸ rfl)) (by rw [hx, hk]; rfl) (by rw [hx, hk]; rfl) hd hq ht
    hrt hrh ?_ ?_ ?_
  · simp [hx]
  · intro _
    rw [hsq, ht, Function.update_self, hd]
  · simp [hx]

private theorem enqReadTail (hi : QueueInv st) {k : Nat} {x : Submit}
    (hk : (st.submits k).pc = .enqReadTail)
    (hs : st'.submits = Function.update st.submits k x) (hx : x.pc = .enqWriteTail)
    (hd : x.desc = (st.submits k).desc) (htail : x.tail = st.sqTail)
    (hsq : st'.sqBuf = st.sqBuf) (ht : st'.sqTail = st.sqTail)
    (hrt : st'.regSqTail = st.regSqTail) (hrh : st'.regSqHead = st.regSqHead)
    (hq : queue st' = queue st) : QueueInv st' := by
  refine hi.inside hs (hi.alone (hk ▸ rfl)) (by rw [hx, hk]; rfl) (by rw [hx, hk]; rfl) hd hq ht
    hrt hrh ?_ ?_ ?_
  · simp [hx]
  · intro _
    rw [hsq, ht, hd]
    exact hi.stored k (.inl hk)
  · intro _
    rw [ht]
    exact htail

private theorem enqWriteTail (hi : QueueInv st) (hc : CallInv st)
    (hroom : span st.regSqHead st.sqTail < queueDepth) {k : Nat} {x : Submit}
    (hk : (st.submits k).pc = .enqWriteTail)
    (hs : st'.submits = Function.update st.submits k x) (hx : x.pc = .enqLoadTail)
    (hd : x.desc = (st.submits k).desc) (hsq : st'.sqBuf = st.sqBuf)
    (ht : st'.sqTail = (st.submits k).tail + 1) (hrt : st'.regSqTail = st.regSqTail)
    (hrh : st'.regSqHead = st.regSqHead) (hf : st'.fetched = st.fetched) : QueueInv st' := by
  rw [hi.tail k (.inl hk)] at ht
  have hspan : span st.regSqHead st.sqTail + 1 < 2 ^ 32 := by
    have : queueDepth < 2 ^ 32 := by decide
    omega
  have hq : queue st' = queue st ++ [(st.submits k).desc] := by
    unfold queue
    rw [hsq, ht, hrh, hf, window_advance _ hspan, hi.stored k (.inr hk), List.append_assoc]
  have hself : st'.submits k = x := by rw [hs, Function.update_self]
  have hother {l : Nat} (hl : l ≠ k) : st'.submits l = st.submits l := by
    rw [hs, Function.update_of_ne hl]
  refine focus hs (hi.alone (hk ▸ rfl)) ?_ ?_ ?_ ?_ ?_ ?_ ?_
  · simp [hx]
  · simp [hx]
  · simp [hx]
  · intro hno
    have := hno k
    rw [hself, hx] at this
    cases this
  · have hle := hi.between
    rw [ht, hrt, hrh, span_succ hspan, span_succ (by omega)]
    omega
  · intro d
    rw [hq, List.mem_append, List.mem_singleton, hi.mem]
    constructor
    · rintro (⟨l, hl, he⟩ | rfl)
      · have hlk : l ≠ k := by
          rintro rfl
          rw [hk] at hl
          cases hl
        exact ⟨l, by rw [hother hlk]; exact hl, by rw [hother hlk]; exact he⟩
      · exact ⟨k, by rw [hself, hx]; rfl, by rw [hself, hd]⟩
    · rintro ⟨l, hl, he⟩
      by_cases hlk : l = k
      · rw [hlk, hself, hd] at he
        exact .inr he.symm
      · rw [hother hlk] at hl he
        exact .inl ⟨l, hl, he⟩
  · rw [hq, List.map_append, List.nodup_append]
    refine ⟨hi.nodup, List.nodup_singleton _, ?_⟩
    intro i hmem j hj hij
    rw [List.map_singleton, List.mem_singleton] at hj
    refine hi.id_not_mem hc (k := k) (hk ▸ rfl) (hk ▸ rfl) ?_
    rw [hij, hj] at hmem
    exact hmem

private theorem enqLoadTail (hi : QueueInv st) {k : Nat} {x : Submit}
    (hk : (st.submits k).pc = .enqLoadTail)
    (hs : st'.submits = Function.update st.submits k x) (hx : x.pc = .enqDoorbell)
    (hd : x.desc = (st.submits k).desc) (htail : x.tail = st.sqTail)
    (ht : st'.sqTail = st.sqTail) (hrt : st'.regSqTail = st.regSqTail)
    (hrh : st'.regSqHead = st.regSqHead) (hq : queue st' = queue st) : QueueInv st' := by
  refine hi.inside hs (hi.alone (hk ▸ rfl)) (by rw [hx, hk]; rfl) (by rw [hx, hk]; rfl) hd hq ht
    hrt hrh ?_ ?_ ?_
  · simp [hx]
  · simp [hx]
  · intro _
    rw [ht]
    exact htail

private theorem enqDoorbell (hi : QueueInv st) {k : Nat} {x : Submit}
    (hk : (st.submits k).pc = .enqDoorbell)
    (hs : st'.submits = Function.update st.submits k x) (hx : x.pc = .copyOut)
    (hd : x.desc = (st.submits k).desc) (hsq : st'.sqBuf = st.sqBuf)
    (ht : st'.sqTail = st.sqTail) (hrt : st'.regSqTail = (st.submits k).tail)
    (hq : queue st' = queue st) : QueueInv st' := by
  -- nobody has advanced `sq_tail` since the call loaded it
  rw [hi.tail k (.inr hk)] at hrt
  refine hi.frame hsq ht hq ?_ ?_ ?_ ?_
  · intro l hl
    rw [hs] at hl ⊢
    by_cases hlk : l = k
    · rw [hlk, Function.update_self, hx] at hl
      cases hl
    · rw [Function.update_of_ne hlk]
  · intro l
    rw [hs]
    exact rel_update (R := fun y z : Submit ↦ z.pc.queued = y.pc.queued ∧
      (y.pc.queued = true → z.desc = y.desc)) (fun _ ↦ ⟨rfl, fun _ ↦ rfl⟩)
      ⟨by rw [hx, hk]; rfl, fun _ ↦ hd⟩ l
  · intro _
    rw [hrt, ht]
  · rw [hrt, ht, span_eq_zero_iff.mpr rfl, Nat.add_zero]

/-- A fetch moves the oldest descriptor of the window to the fetched ones. -/
private theorem fetch (hi : QueueInv st) (hne : st.regSqHead ≠ st.regSqTail)
    (hs : st'.submits = st.submits) (hsq : st'.sqBuf = st.sqBuf) (ht : st'.sqTail = st.sqTail)
    (hrt : st'.regSqTail = st.regSqTail) (hrh : st'.regSqHead = st.regSqHead + 1)
    (hf : st'.fetched = st.fetched ++ [st.sqBuf (slotOf _ st.regSqHead)]) : QueueInv st' := by
  refine hi.frame hsq ht ?_ (fun k _ ↦ by rw [hs]) (fun k ↦ by rw [hs]; exact ⟨rfl, fun _ ↦ rfl⟩)
    ?_ ?_
  · unfold queue
    rw [hsq, ht, hrh, hf, window_pop st.sqBuf (hi.head_ne hne), List.append_assoc]
    rfl
  · rw [hs, ht, hrt]
    exact hi.rung
  · have hbetween := hi.between
    rw [span_pop hne, span_pop (hi.head_ne hne)] at hbetween
    rw [ht, hrt, hrh]
    omega

/-- Local steps of a call leave the queue alone, or load `sq_tail` in the enqueue. -/
private theorem enqKeeps_local {c c' : Submit} (h : SubmitLocal st c c') :
    EnqKeeps c c' ∨
      (c.pc = .enqReadTail ∧ c' = { c with pc := .enqWriteTail, tail := st.sqTail }) ∨
      (c.pc = .enqLoadTail ∧ c' = { c with pc := .enqDoorbell, tail := st.sqTail }) := by
  cases h with
  | readTail hp => exact .inr (.inl ⟨hp, rfl⟩)
  | loadTail hp => exact .inr (.inr ⟨hp, rfl⟩)
  | copyOut hp => exact .inl (.leave hp rfl rfl)
  | copyOutFault hp => exact .inl (.leave hp rfl rfl)
  | copyIn hp => exact .inl (.outside (hp ▸ rfl) (hp ▸ rfl) rfl rfl)
  | copyInFault hp => exact .inl (.outside (hp ▸ rfl) (hp ▸ rfl) rfl rfl)
  | resolve r hp => exact .inl (.outside (hp ▸ rfl) (hp ▸ rfl) rfl rfl)
  | reject e hp => exact .inl (.outside (hp ▸ rfl) (hp ▸ rfl) rfl rfl)
  | readActive hp => exact .inl (.outside (hp ▸ rfl) (hp ▸ rfl) rfl rfl)
  | block hp => exact .inl (.outside (hp ▸ rfl) (hp ▸ rfl) rfl rfl)
  | retry hp => exact .inl (.outside (hp ▸ rfl) (hp ▸ rfl) rfl rfl)
  | sleep hp => exact .inl (.outside (hp ▸ rfl) (hp ▸ rfl) rfl rfl)
  | interrupt hp => exact .inl (.outside (hp ▸ rfl) (hp ▸ rfl) rfl rfl)
  | getUp hp => exact .inl (.outside (hp ▸ rfl) (hp ▸ rfl) rfl rfl)

private theorem enqKeeps_wake (c : Submit) : EnqKeeps c c.wake := by
  unfold Submit.wake
  split
  · next hp => exact .outside (hp ▸ rfl) (hp ▸ rfl) rfl rfl
  · exact .same rfl

/-- Every step of a run with a serial enqueue keeps the queue in order. -/
theorem step (hi : QueueInv st) {ok : Sys → Act → Prop} (hr : ReachBy ok st)
    (hcap : (unrouted st).length ≤ queueDepth) (hok : EnqueueSerial st a)
    (h : Trans st a st') : QueueInv st' := by
  have hc := callInv hr
  have hone {k : Nat} {x : Submit} (hx : EnqKeeps (st.submits k) x) :
      ∀ l, EnqKeeps (st.submits l) (Function.update st.submits k x l) :=
    rel_update (fun _ ↦ .same rfl) hx
  cases h with
  | submit s req ho =>
    have hp := (hc.blank _ (Nat.le_refl _)).1
    exact hi.keep rfl rfl rfl rfl rfl (hone (.outside (hp ▸ rfl) (hp ▸ rfl) rfl rfl))
  | submitLocal _ k c hk hl =>
    rcases enqKeeps_local hl with hkeep | ⟨hp, rfl⟩ | ⟨hp, rfl⟩
    · exact hi.keep rfl rfl rfl rfl rfl (hone hkeep)
    · exact hi.enqReadTail hp rfl rfl rfl rfl rfl rfl rfl rfl rfl
    · exact hi.enqLoadTail hp rfl rfl rfl rfl rfl rfl rfl rfl
  | newId k hk hp =>
    exact hi.keep rfl rfl rfl rfl rfl (hone (.outside (hp ▸ rfl) (hp ▸ rfl) rfl rfl))
  | register k j hk hp =>
    exact hi.keep rfl rfl rfl rfl rfl (hone (.outside (hp ▸ rfl) (hp ▸ rfl) rfl rfl))
  | incInflight k hk hp =>
    exact hi.keep rfl rfl rfl rfl rfl (hone (.outside (hp ▸ rfl) (hp ▸ rfl) rfl rfl))
  | incTotal k hk hp =>
    exact hi.keep rfl rfl rfl rfl rfl (hone (.outside (hp ▸ rfl) (hp ▸ rfl) rfl rfl))
  | enqIdx k hk hp =>
    refine hi.enqIdx hp ?_ rfl rfl rfl rfl rfl rfl rfl rfl
    intro l
    by_cases hl : l < st.nsubmits
    · exact hok.2 k rfl hp l hl
    · rw [(hc.blank l (Nat.not_lt.mp hl)).1]
      rfl
  | enqStore k hk hp =>
    have hroom := hi.span_lt hr hcap (k := k) (hp ▸ rfl) (hp ▸ rfl)
    exact hi.enqStore hroom hp rfl rfl rfl rfl rfl rfl rfl rfl
  | enqWriteTail k hk hp =>
    have hroom := hi.span_lt hr hcap (k := k) (hp ▸ rfl) (hp ▸ rfl)
    exact hi.enqWriteTail hc hroom hp rfl rfl rfl rfl rfl rfl rfl rfl
  | enqDoorbell k hk hp => exact hi.enqDoorbell hp rfl rfl rfl rfl rfl rfl rfl
  | relWake s hs => exact hi.keep rfl rfl rfl rfl rfl fun k ↦ enqKeeps_wake _
  | wakeQuota hp => exact hi.keep rfl rfl rfl rfl rfl fun k ↦ enqKeeps_wake _
  | fetch hne => exact hi.fetch hne rfl rfl rfl rfl rfl rfl
  | _ => exact hi.keep rfl rfl rfl rfl rfl fun k ↦ .same rfl

/-- The empty queue is in order. -/
theorem init : QueueInv Sys.init := by
  have hq : queue Sys.init = [] := window_self Sys.init.sqBuf 0
  refine ⟨nofun, nofun, ?_, ?_, fun _ ↦ rfl, rfl, ?_, ?_⟩
  · rintro k (hk | hk) <;> cases hk
  · rintro k (hk | hk) <;> cases hk
  · intro d
    rw [hq]
    exact ⟨nofun, fun ⟨_, hk, _⟩ ↦ by cases hk⟩
  · rw [hq]
    exact List.nodup_nil

end QueueInv

/-- The queue is in order along every run with a serial enqueue. -/
theorem queueInv (h : ReachBy EnqueueSerial st) : QueueInv st := by
  refine invariant_of_trans QueueInv.init ?_ h
  intro st a st' hr hi hok ht
  refine hi.step hr ?_ hok ht
  rw [length_unrouted hr]
  exact outstanding_le_queueDepth (hr.mono fun _ _ hok ↦ hok.1)

/-- Where the enqueue is serial and the ring cap intact, the device fetches the complete
descriptor of every admitted command, each once, and nothing else. -/
theorem commands_published (h : ReachBy EnqueueSerial st) : Published st := by
  have hi := queueInv h
  have hmem {d : Cmd} (hd : d ∈ st.fetched) : d ∈ queue st := List.mem_append_left _ hd
  refine ⟨hi.fetched_nodup, ?_, ?_⟩
  · intro d hd
    obtain ⟨k, hk, rfl⟩ := (hi.mem d).mp (hmem hd)
    exact ⟨_, ((admInv h).mem_iff _).mpr ⟨k, committed_of_queued hk, rfl⟩, rfl⟩
  · intro hfin hhead x hx
    obtain ⟨k, hk, rfl⟩ := ((admInv h).mem_iff x).mp hx
    have hqueued : (st.submits k).pc.queued = true := by
      have := hfin k ((callInv h).lt_of_committed hk)
      cases hp : (st.submits k).pc <;>
        simp_all [SubmitPc.finished, SubmitPc.committed, SubmitPc.queued]
    -- nobody is on the way to the doorbell, so the window is empty
    have hrung : st.regSqTail = st.sqTail := by
      refine hi.rung fun l ↦ ?_
      by_contra hne
      have hl : (st.submits l).pc.ringing = true := Bool.not_eq_false _ ▸ hne
      have := hfin l ((callInv h).lt_of_committed (committed_of_ringing hl))
      cases hp : (st.submits l).pc <;> simp_all [SubmitPc.finished, SubmitPc.ringing]
    have hin := (hi.mem _).mpr ⟨k, hqueued, rfl⟩
    unfold queue at hin
    rw [hhead, hrung, window_self, List.append_nil] at hin
    exact hin

/-- Two commands are submitted one after the other and fetched. -/
theorem commands_published_two : ∃ st : Sys, ReachBy EnqueueSerial st ∧
    st.admitted.length = 2 ∧ st.fetched.map (·.cmdId) = [2, 3] ∧ Published st := by
  have hrun : (runChecked step (fun st a ↦ decide (EnqueueSerial st a)) Sys.init
      (.chrOpen :: allocScript 0 0 ++ submitScript 0 0 0 14 ++ submitScript 0 0 1 14 ++
        [.fetch, .fetch])).any (fun st ↦ decide (st.admitted.length = 2 ∧
          st.fetched.map (·.cmdId) = [2, 3])) = true := by decide +kernel
  obtain ⟨st, hr, hp⟩ := Reach.exists_of_runChecked (fun _ _ hc ↦ of_decide_eq_true hc) hrun
  obtain ⟨hadm, hids⟩ := of_decide_eq_true hp
  exact ⟨st, hr, hadm, hids, commands_published hr⟩

/-- Two submitters compute the same slot before either advances `sq_tail`: the second store
overwrites the first, and the device fetches an empty slot in its place. -/
theorem descriptor_lost : ¬∀ st : Sys, Reachable st → Published st := by
  have hrun : (run step Sys.init (.chrOpen :: allocScript 0 0 ++ submitScript 0 0 0 8 ++
      submitScript 0 0 1 8 ++ List.replicate 6 (.submitStep 0) ++
      List.replicate 6 (.submitStep 1) ++ [.fetch, .fetch])).any
      (fun st ↦ st.fetched.any fun d ↦ st.admitted.all fun x ↦ decide (x.cmd ≠ d)) = true := by
    decide +kernel
  obtain ⟨st, hr, hp⟩ := Reach.exists_of_run hrun
  obtain ⟨d, hd, hnone⟩ := List.any_eq_true.mp hp
  intro hall
  obtain ⟨x, hx, he⟩ := (hall st hr).admitted d hd
  exact of_decide_eq_true (List.all_eq_true.mp hnone x hx) he

end DmaAccel.Driver
