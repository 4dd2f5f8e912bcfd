import DmaAccel.Runtime.Host
import DmaAccel.Runtime.Session

/-!
# The tables of a Stream and the ring of its session

Source `track-a/dma_accel_runtime.cpp`: `throttle_before_submit`, `do_submit`, `pump` and
`wait` (142–329), on top of the ring push of `dma_accel_irq_handler` (342–374). What is unread
in the session's ring belongs to commands whose fences are not ready; these are all in
`submission_order_`, which the throttle keeps below the depth of the device queue, a quarter of
the size of the ring.
-/

namespace DmaAccel.Runtime

open DmaAccel.Base
open DmaAccel.Driver (Sys Sid SubmitReq Completion Ret queueDepth compRingSize ofSess)

namespace Machine

/-- The fences and the tables of a Stream. A fence that is not ready is in both tables, and
one that is ready carries the status of a completion that was read. -/
structure TableInv (m : Machine) (read : List Completion) : Prop extends OutInv m where
  pending : ∀ f < m.heap.size, m.ready f = false → f ∈ m.stream.submissionOrder ∧
    m.stream.outstanding (m.heap.fences f).cmdId = some f
  ready : ∀ f < m.heap.size, m.ready f = true → ∃ c ∈ read,
    c.cmdId = (m.heap.fences f).cmdId ∧ c.status = (m.heap.fences f).status

namespace TableInv

variable {m : Machine} {read read' : List Completion} {f : Fid} {id : Nat}

/-- It does not matter where the Stream is. -/
theorem goto (hi : TableInv m read) (pc : Pc) : TableInv { m with pc := pc } read where
  toOutInv := hi.toOutInv.goto pc
  pending := hi.pending
  ready := hi.ready

/-- More may have been read. -/
theorem mono (hi : TableInv m read) (h : ∀ c ∈ read, c ∈ read') : TableInv m read' where
  toOutInv := hi.toOutInv
  pending := hi.pending
  ready f hf hr := by
    obtain ⟨c, hc, hcf⟩ := hi.ready f hf hr
    exact ⟨c, h c hc, hcf⟩

/-- A completion makes its fence ready and takes it out of `outstanding_`. -/
theorem deliver (hi : TableInv m read) {c : Completion}
    (hc : ∃ c' ∈ read, c'.cmdId = c.cmdId ∧ c'.status = c.status) :
    TableInv (m.deliver c) read := by
  cases ho : m.stream.outstanding c.cmdId with
  | none =>
    have he : m.deliver c = m := by simp [Machine.deliver, ho]
    rw [he]
    exact hi
  | some f =>
    obtain ⟨hf, hid, hr⟩ := hi.out c.cmdId f ho
    have hd := delivered_deliver m c
    have hother (g : Fid) (hg : g ≠ f) :
        (m.deliver c).heap.fences g = m.heap.fences g := by
      simp [Machine.deliver, Heap.complete, ho, Function.update_of_ne hg]
    have hself : (m.deliver c).heap.fences f =
        { m.heap.fences f with ready := true, status := c.status } := by
      simp [Machine.deliver, Heap.complete, ho]
    have hout : (m.deliver c).stream.outstanding =
        Function.update m.stream.outstanding c.cmdId none := by
      simp [Machine.deliver, Heap.complete, ho]
    refine ⟨hi.toOutInv.deliver c, ?_, ?_⟩
    · rw [hd.size, hd.order, hout]
      intro g hg hgr
      have hne : g ≠ f := by
        rintro rfl
        simp [Machine.ready, hself] at hgr
      have hid' : (m.heap.fences g).cmdId ≠ c.cmdId := by
        intro he
        exact hne (hi.inj g hg f hf (he.trans hid.symm))
      unfold Machine.ready at hgr
      rw [hother g hne] at hgr ⊢
      rw [Function.update_of_ne hid']
      exact hi.pending g hg hgr
    · rw [hd.size]
      intro g hg hgr
      by_cases hgf : g = f
      · rw [hgf, hself]
        obtain ⟨c', hc', hcid, hcst⟩ := hc
        exact ⟨c', hc', hcid.trans hid.symm, hcst⟩
      · unfold Machine.ready at hgr
        rw [hother g hgf] at hgr ⊢
        exact hi.ready g hg hgr

/-- So does a whole batch. -/
theorem foldl (hi : TableInv m read) {batch : List Completion}
    (hb : ∀ c ∈ batch, ∃ c' ∈ read, c'.cmdId = c.cmdId ∧ c'.status = c.status) :
    TableInv (batch.foldl Machine.deliver m) read := by
  induction batch generalizing m with
  | nil => exact hi
  | cons c batch ih =>
    refine ih (hi.deliver (hb c List.mem_cons_self)) ?_
    intro c' hc'
    exact hb c' (List.mem_cons_of_mem c hc')

/-- A batch makes the fences of its completions ready. -/
theorem ready_foldl (hi : TableInv m read) {batch : List Completion}
    (hb : ∀ c ∈ batch, ∃ c' ∈ read, c'.cmdId = c.cmdId ∧ c'.status = c.status)
    (hf : f < m.heap.size) (hc : ∃ c ∈ batch, c.cmdId = (m.heap.fences f).cmdId) :
    (batch.foldl Machine.deliver m).ready f = true := by
  induction batch generalizing m with
  | nil =>
    obtain ⟨c, hc, -⟩ := hc
    cases hc
  | cons c batch ih =>
    have hd := delivered_deliver m c
    have hrest := delivered_foldl (m.deliver c) batch
    obtain ⟨c', hmem, hid⟩ := hc
    rcases List.mem_cons.mp hmem with rfl | hmem
    · apply hrest.ready
      by_cases hr : m.ready f = true
      · exact hd.ready f hr
      · rw [Bool.not_eq_true] at hr
        obtain ⟨-, ho⟩ := hi.pending f hf hr
        rw [← hid] at ho
        simp [Machine.deliver, Machine.ready, Heap.complete, ho]
    · refine ih (hi.deliver (hb c List.mem_cons_self)) ?_ (by rw [hd.size]; exact hf) ?_
      · intro c'' hc''
        exact hb c'' (List.mem_cons_of_mem c hc'')
      · rw [hd.cmdId]
        exact ⟨c', hmem, hid⟩

/-- A batch leaves the fences alone that are ready. -/
theorem fences_foldl (hi : TableInv m read) {batch : List Completion}
    (hb : ∀ c ∈ batch, ∃ c' ∈ read, c'.cmdId = c.cmdId ∧ c'.status = c.status)
    (hr : m.ready f = true) :
    (batch.foldl Machine.deliver m).heap.fences f = m.heap.fences f := by
  induction batch generalizing m with
  | nil => rfl
  | cons c batch ih =>
    have hstep : (m.deliver c).heap.fences f = m.heap.fences f := by
      unfold Machine.deliver
      split
      · next g hg =>
        refine Function.update_of_ne ?_ _ _
        rintro rfl
        rw [(hi.out c.cmdId f hg).2.2] at hr
        cases hr
      · rfl
    rw [List.foldl_cons, ih (hi.deliver (hb c List.mem_cons_self)) ?_ ?_, hstep]
    · intro c' hc'
      exact hb c' (List.mem_cons_of_mem c hc')
    · exact (delivered_deliver m c).ready f hr

/-- A command that is ready is dropped from the tables. -/
theorem evict (hi : TableInv m read) {rest : List Fid}
    (ho : m.stream.submissionOrder = f :: rest) (hlt : f < m.heap.size)
    (hr : m.ready f = true) : TableInv (m.evict f) read where
  toOutInv := hi.toOutInv.evict f
  pending g hg hgr := by
    have hne : g ≠ f := by
      rintro rfl
      rw [show m.ready g = false from hgr] at hr
      cases hr
    obtain ⟨hmem, hout⟩ := hi.pending g hg hgr
    rw [ho] at hmem
    refine ⟨?_, ?_⟩
    · change g ∈ m.stream.submissionOrder.tail
      rw [ho]
      exact (List.mem_cons.mp hmem).resolve_left hne
    · change Function.update m.stream.outstanding (m.heap.fences f).cmdId none
        (m.heap.fences g).cmdId = some g
      rw [Function.update_of_ne]
      · exact hout
      · intro he
        exact hne (hi.inj g hg f hlt he)
  ready := hi.ready

/-- A new command enters both tables. -/
theorem track (hi : TableInv m read) (fd : Fd)
    (hnew : ∀ f < m.heap.size, (m.heap.fences f).cmdId ≠ id) :
    TableInv (m.track fd id) read := by
  obtain ⟨hoi, hout⟩ := hi.toOutInv.track fd hnew
  have hself : (m.track fd id).heap.fences m.heap.size = .fresh id := by
    simp [Machine.track, Heap.issue]
  have hother (f : Fid) (hf : f < m.heap.size) :
      (m.track fd id).heap.fences f = m.heap.fences f := by
    simp [Machine.track, Heap.issue, Function.update_of_ne (Nat.ne_of_lt hf)]
  have hcases (f : Fid) (hf : f < (m.track fd id).heap.size) :
      f < m.heap.size ∨ f = m.heap.size := Nat.lt_succ_iff_lt_or_eq.mp hf
  refine ⟨hoi, ?_, ?_⟩
  · intro f hf hr
    rcases hcases f hf with hf | rfl
    · unfold Machine.ready at hr
      rw [hother f hf] at hr ⊢
      obtain ⟨hmem, ho⟩ := hi.pending f hf hr
      refine ⟨List.mem_append_left _ hmem, ?_⟩
      rw [hout, Function.update_of_ne (hnew f hf)]
      exact ho
    · refine ⟨List.mem_append_right _ List.mem_cons_self, ?_⟩
      rw [hself, hout]
      exact Function.update_self ..
  · intro f hf hr
    rcases hcases f hf with hf | rfl
    · unfold Machine.ready at hr
      rw [hother f hf] at hr ⊢
      exact hi.ready f hf hr
    · unfold Machine.ready at hr
      rw [hself] at hr
      cases hr

end TableInv

end Machine

/-- A Stream and its session. Every committed command of the session has a fence, or is the one
the Stream is submitting; every fence has such a command; nothing is lost between the ring and
the fences. -/
structure HostInv (w : Host) : Prop where
  sys : Driver.Reachable w.sys
  opened : w.sys.phase w.sess = .opened
  fd : w.mach.stream.fd = some w.sess
  order : w.mach.OrderInv
  table : w.mach.TableInv w.taken
  submitting : ∀ k, w.Submitting k → k < w.sys.nsubmits ∧ (w.sys.submits k).sess = w.sess
  reading : ∀ k c, w.call = some k → w.mach.pc = .read c →
    k < w.sys.nreads ∧ (w.sys.reads k).sess = w.sess
  idle : ∀ k, w.call = some k → (∃ req, w.mach.pc = .ioctl req) ∨ ∃ c, w.mach.pc = .read c
  rets : ∀ k < w.sys.nsubmits, (w.sys.submits k).sess = w.sess → (w.sys.submits k).RetOk
  commands : ∀ k, (w.sys.submits k).sess = w.sess → (w.sys.submits k).pc.committed = true →
    (∃ f < w.mach.heap.size, (w.mach.heap.fences f).cmdId = (w.sys.submits k).cmdId) ∨
      w.Submitting k
  calls : ∀ f < w.mach.heap.size, ∃ k, (w.sys.submits k).pc.committed = true ∧
    (w.sys.submits k).cmdId = (w.mach.heap.fences f).cmdId ∧ ¬w.Submitting k
  ring : ofSess w.sys.pushed w.sess = w.taken ++ w.unread
  batch : ∀ c ∈ w.batch, ∃ c' ∈ w.taken, c = c'.toUser

namespace HostInv

variable {w w' : Host} {a : Driver.Act} {st' : Sys} {k : Nat}

/-- Ids of the pushes to the session are distinct. -/
theorem pushed_nodup (hi : HostInv w) : ((w.taken ++ w.unread).map (·.cmdId)).Nodup := by
  rw [← hi.ring]
  have hall := Driver.pushed_nodup hi.sys
  unfold ofSess
  rw [List.map_map]
  refine hall.sublist ?_
  exact List.filter_sublist.map _

/-- An unread completion belongs to a fence that is not ready, or to the command that is being
submitted. -/
theorem unread_cases (hi : HostInv w) {c : Completion} (hc : c ∈ w.unread) :
    (∃ f ∈ w.mach.stream.submissionOrder, (w.mach.heap.fences f).cmdId = c.cmdId) ∨
      ∃ k, w.Submitting k ∧ (w.sys.submits k).cmdId = c.cmdId := by
  have hpush : (w.sess, c) ∈ w.sys.pushed := by
    rw [← Driver.mem_ofSess, hi.ring]
    exact List.mem_append_right _ hc
  obtain ⟨k, -, hk, hs, hid⟩ := Driver.pushed_committed hi.sys hpush
  rcases hi.commands k hs hk with ⟨f, hf, hfid⟩ | hcur
  · refine .inl ⟨f, ?_, hfid.trans hid⟩
    refine (hi.table.pending f hf ?_).1
    -- a fence that is ready has had its completion read
    by_contra hr
    rw [Bool.not_eq_false] at hr
    obtain ⟨c', hc', hcid, -⟩ := hi.table.ready f hf hr
    have hnodup := hi.pushed_nodup
    rw [List.map_append, List.nodup_append] at hnodup
    refine hnodup.2.2 c'.cmdId (List.mem_map_of_mem hc') c.cmdId (List.mem_map_of_mem hc) ?_
    exact hcid.trans (hfid.trans hid)
  · exact .inr ⟨k, hcur, hid⟩

/-- The ring never holds more than the device queue. -/
theorem unread_le (hi : HostInv w) : w.unread.length ≤ queueDepth := by
  have hnodup := hi.pushed_nodup
  rw [List.map_append, List.nodup_append] at hnodup
  have hunread : (w.unread.map (·.cmdId)).Nodup := hnodup.2.1
  -- the ids of the tables, and of the command that is being submitted
  suffices hids : ∃ ids : List Nat, w.unread.map (·.cmdId) ⊆ ids ∧ ids.length ≤ queueDepth by
    obtain ⟨ids, hsub, hle⟩ := hids
    have hlen := (hunread.subperm hsub).length_le
    rw [List.length_map] at hlen
    exact Nat.le_trans hlen hle
  by_cases hcur : ∃ k, w.Submitting k
  · obtain ⟨k, hk⟩ := hcur
    refine ⟨(w.sys.submits k).cmdId ::
      w.mach.stream.submissionOrder.map fun f ↦ (w.mach.heap.fences f).cmdId, ?_, ?_⟩
    · intro id hid
      obtain ⟨c, hc, rfl⟩ := List.mem_map.mp hid
      rcases hi.unread_cases hc with ⟨f, hf, hfid⟩ | ⟨k', hk', hkid⟩
      · rw [← hfid]
        exact List.mem_cons_of_mem _ (List.mem_map.mpr ⟨f, hf, rfl⟩)
      · have he : k' = k := by
          have := hk'.1.symm.trans hk.1
          cases this
          rfl
        rw [← hkid, he]
        exact List.mem_cons_self
    · obtain ⟨-, req, hpc⟩ := hk
      rw [List.length_cons, List.length_map]
      exact hi.order.ioctl req hpc
  · refine ⟨w.mach.stream.submissionOrder.map fun f ↦ (w.mach.heap.fences f).cmdId, ?_, ?_⟩
    · intro id hid
      obtain ⟨c, hc, rfl⟩ := List.mem_map.mp hid
      rcases hi.unread_cases hc with ⟨f, hf, hfid⟩ | ⟨k, hk, -⟩
      · rw [← hfid]
        exact List.mem_map.mpr ⟨f, hf, rfl⟩
      · exact (hcur ⟨k, hk⟩).elim
    · rw [List.length_map]
      exact hi.order.length

/-- So there is always room for the next completion. -/
theorem room (hi : HostInv w) : (w.sys.compRing w.sess).pending < compRingSize := by
  rw [← Driver.CompRing.length_unread]
  exact Nat.lt_of_le_of_lt hi.unread_le (by decide)

/-- A step of the driver that is somebody else's or the Stream's own, short of closing the
session and of a fault in copying the request back. -/
structure Admissible (w : Host) (a : Driver.Act) : Prop where
  release : a ≠ .chrRelease w.sess
  submits : ∀ k, a = .submitStep k → (w.sys.submits k).sess = w.sess → w.Submitting k
  faults : ∀ k, a = .submitFault k → (w.sys.submits k).sess = w.sess →
    (w.sys.submits k).pc ≠ .copyOut

/-- What has been taken stays taken. -/
theorem taken_mono (h : Driver.Trans w.sys a st') :
    ∀ c ∈ w.taken, c ∈ ofSess st'.taken w.sess := by
  intro c hc
  cases h.ringMove w.sess with
  | keep _ _ ht => exact ht ▸ hc
  | push _ _ _ _ ht => exact ht ▸ hc
  | pop _ _ _ _ _ ht => exact ht ▸ List.mem_append_left _ hc

/-- The driver moves. -/
theorem sys_step (hi : HostInv w) (h : Driver.step w.sys a = some st')
    (ha : Admissible w a) : HostInv { w with sys := st' } := by
  have ht := Driver.trans_of_step h
  have hc := Driver.callInv hi.sys
  have hmono := taken_mono (w := w) ht
  have hnsub : w.sys.nsubmits ≤ st'.nsubmits ∧ w.sys.nreads ≤ st'.nreads := by
    cases ht with
    | submit r req hr => exact ⟨Nat.le_succ _, Nat.le_refl _⟩
    | read r bytes hr => exact ⟨Nat.le_refl _, Nat.le_succ _⟩
    | _ => exact ⟨Nat.le_refl _, Nat.le_refl _⟩
  refine ⟨hi.sys.next trivial h, ?_, hi.fd, hi.order, hi.table.mono hmono, ?_, ?_, hi.idle, ?_,
    ?_, ?_, ?_, ?_⟩
  · cases ht.phaseMove w.sess with
    | keep hp => exact hp.trans hi.opened
    | opens _ _ hp => exact hp
    | closes he _ _ _ => exact (ha.release he).elim
    | wakes hr => simp [hi.opened] at hr
    | polls hr => simp [hi.opened] at hr
    | frees hr => simp [hi.opened] at hr
    | kfrees _ hr => simp [hi.opened] at hr
  · intro k hk
    obtain ⟨hlt, hs⟩ := hi.submitting k hk
    exact ⟨Nat.lt_of_lt_of_le hlt hnsub.1, (ht.sess_eq.1 k hlt).trans hs⟩
  · intro k c hk hpc
    obtain ⟨hlt, hs⟩ := hi.reading k c hk hpc
    exact ⟨Nat.lt_of_lt_of_le hlt hnsub.2, (ht.sess_eq.2 k hlt).trans hs⟩
  · intro k hk hs
    by_cases hlt : k < w.sys.nsubmits
    · have hs' : (w.sys.submits k).sess = w.sess := (ht.sess_eq.1 k hlt).symm.trans hs
      exact Driver.step_retOk h hlt (hi.rets k hlt hs') fun he ↦ ha.faults k he hs'
    · have hnew := ht.new_submit hlt hk
      simp [Driver.Submit.RetOk, hnew]
  · intro k hs hk
    rcases ht.committed_cases hk with ⟨hold, hse, hid⟩ | ⟨he, hse⟩
    · rw [hid]
      exact hi.commands k (hse.symm.trans hs) hold
    · exact .inr (ha.submits k he (hse.symm.trans hs))
  · intro f hf
    obtain ⟨k, hk, hid, hnot⟩ := hi.calls f hf
    have hkeep := ht.keeps_committed hc hk
    exact ⟨k, hkeep.committed hk, hkeep.cmdId.trans hid, hnot⟩
  · change ofSess st'.pushed w.sess = ofSess st'.taken w.sess ++ (st'.compRing w.sess).unread
    have hring := hi.ring
    unfold Host.taken Host.unread at hring
    cases ht.ringMove w.sess with
    | keep hr hp htk => rw [hr, hp, htk, hring]
    | push _ _ hr hp htk =>
      rw [hr, hp, htk, hring, Driver.CompRing.unread_push hi.room, List.append_assoc]
    | pop c r hpop hr hp htk =>
      rw [hr, hp, htk, hring, Driver.CompRing.unread_pop hpop, List.append_assoc]
      rfl
  · intro c hc
    obtain ⟨c', hc', he⟩ := hi.batch c hc
    exact ⟨c', hmono c' hc', he⟩

/-- Steps of others are admissible. -/
theorem admissible_foreign (h : foreign w.sys w.sess a = true) : Admissible w a := by
  refine ⟨?_, ?_, ?_⟩
  · rintro rfl
    simp [foreign] at h
  · rintro k rfl hs
    simp [foreign, hs] at h
  · rintro k rfl hs
    simp [foreign, hs] at h

/-- So are the Stream's own. -/
theorem admissible_own (hk : w.call = some k) (h : ownStep w.mach.pc k a = true)
    (hf : a = .submitFault k → (w.sys.submits k).pc ≠ .copyOut) : Admissible w a := by
  unfold ownStep at h
  split at h
  · next req hpc =>
    simp only [Bool.or_eq_true, decide_eq_true_eq] at h
    rcases h with (rfl | rfl) | rfl
    · refine ⟨nofun, ?_, nofun⟩
      rintro l ⟨⟩ -
      exact ⟨hk, req, hpc⟩
    · refine ⟨nofun, nofun, ?_⟩
      rintro l ⟨⟩ -
      exact hf rfl
    · exact ⟨nofun, nofun, nofun⟩
  · simp only [Bool.or_eq_true, decide_eq_true_eq] at h
    rcases h with rfl | rfl
    · exact ⟨nofun, nofun, nofun⟩
    · exact ⟨nofun, nofun, nofun⟩
  · cases h

/-- The Stream leaves the driver. -/
private theorem leave (hi : HostInv w)
    (hcur : ∀ k, w.Submitting k → (w.sys.submits k).pc.committed = false) :
    HostInv { w with call := none } where
  sys := hi.sys
  opened := hi.opened
  fd := hi.fd
  order := hi.order
  table := hi.table
  submitting k hk := (Host.not_submitting rfl k hk).elim
  reading := nofun
  idle := nofun
  rets := hi.rets
  commands k hs hk := by
    rcases hi.commands k hs hk with hf | hsub
    · exact .inl hf
    · rw [hcur k hsub] at hk
      cases hk
  calls f hf := by
    obtain ⟨k, hk, hid, -⟩ := hi.calls f hf
    exact ⟨k, hk, hid, Host.not_submitting rfl k⟩
  ring := hi.ring
  batch := hi.batch

/-- The Stream enters a call of SUBMIT. -/
private theorem enterSubmit (hi : HostInv w) {req : SubmitReq} (hpc : w.mach.pc = .ioctl req)
    (hn : w.call = none) (h : Driver.step w.sys (.submit w.sess req) = some st') :
    HostInv { w with sys := st', call := some w.sys.nsubmits } := by
  have hst := hi.sys_step h ⟨nofun, nofun, nofun⟩
  obtain ⟨-, hs⟩ := Option.ite_none_right_eq_some.mp h
  have hnew : st'.submits w.sys.nsubmits =
      { Driver.Submit.none with sess := w.sess, req := req, pc := .copyIn } := by
    cases hs
    exact Function.update_self ..
  have hlt : w.sys.nsubmits < st'.nsubmits := by
    cases hs
    exact Nat.lt_succ_self _
  refine ⟨hst.sys, hst.opened, hst.fd, hst.order, hst.table, ?_, ?_, fun _ _ ↦ .inl ⟨req, hpc⟩,
    hst.rets, ?_, ?_, hst.ring, hst.batch⟩
  · rintro k ⟨⟨⟩, -⟩
    exact ⟨hlt, by rw [hnew]⟩
  · intro k c _ hpc'
    rw [hpc] at hpc'
    cases hpc'
  · intro k hsess hk
    rcases hst.commands k hsess hk with hf | ⟨hcall, -⟩
    · exact .inl hf
    · rw [hn] at hcall
      cases hcall
  · intro f hf
    obtain ⟨k, hk, hid, -⟩ := hst.calls f hf
    refine ⟨k, hk, hid, ?_⟩
    rintro ⟨⟨⟩, -⟩
    rw [hnew] at hk
    cases hk

/-- The Stream enters a call of `read()`. -/
private theorem enterRead (hi : HostInv w) {c : Cont} {bytes : Nat} (hpc : w.mach.pc = .read c)
    (h : Driver.step w.sys (.read w.sess bytes) = some st') :
    HostInv { w with sys := st', call := some w.sys.nreads, batch := [] } := by
  have hst := hi.sys_step h ⟨nofun, nofun, nofun⟩
  obtain ⟨-, hs⟩ := Option.ite_none_right_eq_some.mp h
  have hnot {x : Host} {k : Nat} (hsub : x.Submitting k) (hx : x.mach.pc = w.mach.pc) :
      False := by
    obtain ⟨-, req, hpc'⟩ := hsub
    rw [hx, hpc] at hpc'
    cases hpc'
  refine ⟨hst.sys, hst.opened, hst.fd, hst.order, hst.table, fun k hk ↦ (hnot hk rfl).elim,
    ?_, fun _ _ ↦ .inr ⟨c, hpc⟩, hst.rets, ?_, ?_, hst.ring, nofun⟩
  · rintro k c' ⟨⟩ -
    cases hs
    refine ⟨Nat.lt_succ_self _, ?_⟩
    change (Function.update w.sys.reads w.sys.nreads _ w.sys.nreads).sess = w.sess
    rw [Function.update_self]
  · intro k hsess hk
    rcases hst.commands k hsess hk with hf | hsub
    · exact .inl hf
    · exact (hnot hsub rfl).elim
  · intro f hf
    obtain ⟨k, hk, hid, -⟩ := hst.calls f hf
    exact ⟨k, hk, hid, fun hsub ↦ hnot hsub rfl⟩

/-- A step inside the driver. -/
private theorem kernel (hi : HostInv w) (hk : w.call = some k)
    (hown : ownStep w.mach.pc k a = true)
    (hf : a = .submitFault k → (w.sys.submits k).pc ≠ .copyOut)
    (h : Driver.step w.sys a = some st') :
    HostInv { w with sys := st', batch := w.batch ++ copied w.sys a } := by
  have hst := hi.sys_step h (admissible_own hk hown hf)
  refine ⟨hst.sys, hst.opened, hst.fd, hst.order, hst.table, hst.submitting, hst.reading,
    hst.idle, hst.rets, hst.commands, hst.calls, hst.ring, ?_⟩
  intro c hc
  rcases List.mem_append.mp hc with hc | hc
  · exact hst.batch c hc
  · -- the completion was in the hand of the read
    obtain ⟨l, rfl, hpc, rfl⟩ := mem_copied hc
    have hread : l = k ∧ ∃ c, w.mach.pc = .read c := by
      unfold ownStep at hown
      split at hown
      · simp at hown
      · next c hpc' => exact ⟨by simpa using hown, c, hpc'⟩
      · cases hown
    obtain ⟨rfl, c, hpc'⟩ := hread
    obtain ⟨c', hc', he⟩ := Driver.hand_taken hi.sys hpc
    rw [(hi.reading l c hk hpc').2] at hc'
    exact ⟨c', taken_mono (Driver.trans_of_step h) c' hc', he⟩

/-- A call of SUBMIT that has returned an error has not committed. -/
theorem refused_of_error (hi : HostInv w) (hsub : w.Submitting k) {r : Ret}
    (hr : w.result = some r) (hne : r ≠ .ok 0) : (w.sys.submits k).pc.committed = false := by
  obtain ⟨hlt, hs⟩ := hi.submitting k hsub
  obtain ⟨hcall, req, hpc⟩ := hsub
  simp only [Host.result, hpc, hcall] at hr
  split at hr
  · next hfin =>
    cases hr
    have hret := (hi.rets k hlt hs).2
    cases hk : (w.sys.submits k).pc with
    | refused => rfl
    | returned => exact (hne (hret hk)).elim
    | _ => simp [hk, Driver.SubmitPc.finished] at hfin
  · cases hr

/-- One that has returned success has. -/
theorem committed_of_ok (hi : HostInv w) (hsub : w.Submitting k)
    (hr : w.result = some (.ok 0)) : (w.sys.submits k).pc.committed = true := by
  obtain ⟨hlt, hs⟩ := hi.submitting k hsub
  obtain ⟨hcall, req, hpc⟩ := hsub
  simp only [Host.result, hpc, hcall] at hr
  split at hr
  · next hfin =>
    have hret := (hi.rets k hlt hs).1
    cases hk : (w.sys.submits k).pc with
    | returned => rfl
    | refused => exact (hret hk (Option.some.inj hr)).elim
    | _ => simp [hk, Driver.SubmitPc.finished] at hfin
  · cases hr

/-- In a call of SUBMIT the Stream can only take the answer. -/
theorem submitting_label (hi : HostInv w) {l : Label} {m : Machine}
    (hsub : w.Submitting k) (h : w.mach.step l = some m) (hl : w.answers l = true) :
    (w.sys.submits k).pc.committed = false ∨ l = .ioctlOk (w.sys.submits k).cmdId := by
  obtain ⟨hcall, req, hpc⟩ := id hsub
  cases l with
  | ioctlOk cmdId =>
    simp only [Host.answers, hcall, Bool.and_eq_true, decide_eq_true_eq] at hl
    exact .inr (by rw [hl.2])
  | ioctlError =>
    left
    simp only [Host.answers] at hl
    split at hl
    · next r hr => exact hi.refused_of_error hsub hr (of_decide_eq_true hl)
    · cases hl
  | _ => simp [Machine.step, hpc] at h

/-- The Stream moves without tracking a command. -/
private theorem move (hi : HostInv w) {l : Label} {m : Machine} (h : w.mach.Move l m)
    (hl : ∀ id, l ≠ .ioctlOk id)
    (hb : ∀ batch, l = .readBatch batch → ∀ c ∈ batch, c ∈ w.batch)
    (hcur : ∀ k, w.Submitting k → (w.sys.submits k).pc.committed = false) :
    HostInv { w with mach := m, call := none } := by
  have hleave := hi.leave hcur
  have hmach (hfd : m.stream.fd = w.mach.stream.fd) (hsize : m.heap.size = w.mach.heap.size)
      (hid : ∀ f, (m.heap.fences f).cmdId = (w.mach.heap.fences f).cmdId)
      (htable : m.TableInv w.taken) : HostInv { w with mach := m, call := none } := by
    refine ⟨hi.sys, hi.opened, hfd.trans hi.fd, hi.order.move h, htable,
      fun k hk ↦ (Host.not_submitting rfl k hk).elim, nofun, nofun, hi.rets, ?_, ?_, hi.ring,
      hi.batch⟩
    · intro k hs hk
      rcases hleave.commands k hs hk with ⟨f, hf, hfid⟩ | hsub
      · exact .inl ⟨f, by rw [hsize]; exact hf, (hid f).trans hfid⟩
      · exact (Host.not_submitting rfl k hsub).elim
    · intro f hf
      rw [hsize] at hf
      obtain ⟨k, hk, hkid, -⟩ := hleave.calls f hf
      exact ⟨k, hk, hkid.trans (hid f).symm, Host.not_submitting rfl k⟩
  cases h with
  | goto _ pc _ _ =>
    exact hmach rfl rfl (fun _ ↦ rfl) (hi.table.goto pc)
  | evict _ req f hr hf =>
    obtain ⟨rest, hrest, -⟩ := hi.order.evicted hf
    have hlt := hi.order.lt f (by rw [hrest]; exact List.mem_cons_self)
    exact hmach rfl rfl (fun _ ↦ rfl) ((hi.table.evict hrest hlt hr).goto _)
  | deliver batch c pc hpc hfd hcont =>
    have hd := Machine.delivered_foldl w.mach batch
    have hread : ∀ c ∈ batch, ∃ c' ∈ w.taken, c'.cmdId = c.cmdId ∧ c'.status = c.status := by
      intro c hc
      obtain ⟨c', hc', rfl⟩ := hi.batch c (hb batch rfl c hc)
      exact ⟨c', hc', rfl, rfl⟩
    exact hmach hd.fd hd.size hd.cmdId ((hi.table.foldl hread).goto _)
  | track req fd cmdId => exact (hl cmdId rfl).elim

/-- The Stream tracks the command it has submitted. -/
private theorem track (hi : HostInv w) (hsub : w.Submitting k)
    (hk : (w.sys.submits k).pc.committed = true) {m : Machine}
    (h : w.mach.step (.ioctlOk (w.sys.submits k).cmdId) = some m) :
    HostInv { w with mach := m, call := none } := by
  have hc := Driver.callInv hi.sys
  have hne := hc.cmdId_ne hk
  have hnew : ∀ f < w.mach.heap.size,
      (w.mach.heap.fences f).cmdId ≠ (w.sys.submits k).cmdId := by
    intro f hf he
    obtain ⟨l, hl, hid, hnot⟩ := hi.calls f hf
    rw [he] at hid
    have hkl := hc.inj k l hne hid.symm
    exact hnot (hkl ▸ hsub)
  obtain ⟨-, req, hpc⟩ := id hsub
  simp only [Machine.step, hpc, hi.fd, Option.some.injEq] at h
  have htable := hi.table.track w.sess hnew
  have hother (f : Fid) (hf : f < w.mach.heap.size) :
      ((w.mach.track w.sess (w.sys.submits k).cmdId).heap.fences f).cmdId =
        (w.mach.heap.fences f).cmdId := by
    simp [Machine.track, Heap.issue, Function.update_of_ne (Nat.ne_of_lt hf)]
  have hself :
      ((w.mach.track w.sess (w.sys.submits k).cmdId).heap.fences w.mach.heap.size).cmdId =
        (w.sys.submits k).cmdId := by
    simp [Machine.track, Heap.issue, FenceState.fresh]
  subst h
  refine ⟨hi.sys, hi.opened, hi.fd, hi.order.move (.track req w.sess _ hpc hi.fd),
    (htable.goto _),
    fun k hk ↦ (Host.not_submitting rfl k hk).elim, by simp, by simp, hi.rets, ?_, ?_, hi.ring,
    hi.batch⟩
  · intro l hs hl
    left
    rcases hi.commands l hs hl with ⟨f, hf, hfid⟩ | hsub'
    · exact ⟨f, Nat.lt_succ_of_lt hf, (hother f hf).trans hfid⟩
    · have he := hsub.1.symm.trans hsub'.1
      cases he
      exact ⟨w.mach.heap.size, Nat.lt_succ_self _, hself⟩
  · intro f hf
    rcases Nat.lt_succ_iff_lt_or_eq.mp hf with hf | rfl
    · obtain ⟨l, hl, hid, -⟩ := hi.calls f hf
      exact ⟨l, hl, hid.trans (hother f hf).symm, Host.not_submitting rfl l⟩
    · exact ⟨k, hk, hself.symm, Host.not_submitting rfl k⟩

/-- The Stream takes in what is in the array. -/
theorem mem_batch {batch : List Completion} (h : w.answers (.readBatch batch) = true) :
    ∀ c ∈ batch, c ∈ w.batch := by
  intro c hc
  simp only [Host.answers] at h
  split at h
  · simp only [Bool.and_eq_true, decide_eq_true_eq] at h
    rw [h.2] at hc
    exact List.mem_of_mem_take hc
  · cases h

/-- The Stream takes a step in its own code. -/
private theorem code (hi : HostInv w) {l : Label} {m : Machine} (hl : w.answers l = true)
    (h : w.mach.step l = some m) : HostInv { w with mach := m, call := none } := by
  by_cases hcur : ∃ k, w.Submitting k ∧ (w.sys.submits k).pc.committed = true
  · obtain ⟨k, hsub, hk⟩ := hcur
    rcases hi.submitting_label hsub h hl with hnot | rfl
    · rw [hk] at hnot
      cases hnot
    · exact hi.track hsub hk h
  · have hnone (k : Nat) (hsub : w.Submitting k) :
        (w.sys.submits k).pc.committed = false := by
      by_contra hk
      exact hcur ⟨k, hsub, Bool.not_eq_false _ ▸ hk⟩
    refine hi.move (Machine.move_of_step h) ?_ ?_ hnone
    · -- an id is the answer to a call that has committed
      rintro id rfl
      simp only [Host.answers] at hl
      split at hl
      · next k hcall =>
        simp only [Bool.and_eq_true, decide_eq_true_eq] at hl
        have hsub : w.Submitting k := by
          simp only [Machine.step] at h
          split at h
          · next req fd hpc hfd => exact ⟨hcall, req, hpc⟩
          · cases h
        exact hcur ⟨k, hsub, hi.committed_of_ok hsub hl.1⟩
      · cases hl
    · rintro batch rfl
      exact mem_batch hl

/-- Every step of the system keeps the Stream and its session in step. -/
theorem step {b : Host.Act} (hi : HostInv w) (h : w.step b = some w')
    (hok : Host.CopiesOut w b) : HostInv w' := by
  cases b with
  | other a =>
    obtain ⟨hf, hs⟩ := Option.ite_none_right_eq_some.mp h
    obtain ⟨st', hst, rfl⟩ := Option.map_eq_some_iff.mp hs
    exact hi.sys_step hst (admissible_foreign hf)
  | enter =>
    simp only [Host.step] at h
    split at h
    · next req hpc hn =>
      obtain ⟨st', hst, rfl⟩ := Option.map_eq_some_iff.mp h
      exact hi.enterSubmit hpc hn hst
    · next c hpc hn =>
      obtain ⟨st', hst, rfl⟩ := Option.map_eq_some_iff.mp h
      exact hi.enterRead hpc hst
    · cases h
  | kernel a =>
    simp only [Host.step] at h
    split at h
    · next k hk =>
      obtain ⟨hown, hs⟩ := Option.ite_none_right_eq_some.mp h
      obtain ⟨st', hst, rfl⟩ := Option.map_eq_some_iff.mp hs
      exact hi.kernel hk hown (fun he ↦ hok k (he ▸ rfl)) hst
    · cases h
  | code l =>
    obtain ⟨hl, hs⟩ := Option.ite_none_right_eq_some.mp h
    obtain ⟨m, hm, rfl⟩ := Option.map_eq_some_iff.mp hs
    exact hi.code hl hm
  | restart =>
    obtain ⟨hr, hs⟩ := Option.ite_none_right_eq_some.mp h
    cases hs
    exact hi.leave fun k hsub ↦ hi.refused_of_error hsub hr nofun

/-- A Stream whose session has just been opened. -/
theorem init {st : Sys} (h : Driver.Reachable st) : HostInv (.opened st) := by
  have hlt := Driver.sess_lt h
  have hpush := Driver.pushed_fresh h
  have htaken : ofSess st.taken st.nsess = [] := by
    have hsub := Driver.taken_subset h st.nsess
    rw [hpush] at hsub
    exact List.subset_nil.mp hsub
  have hunread : (st.compRing st.nsess).unread = [] := by
    have hlast := (Driver.ringInv h st.nsess).last
    rw [hpush] at hlast
    exact List.suffix_nil.mp hlast
  refine ⟨h.next (a := .chrOpen) trivial rfl, Function.update_self .., rfl, .opened _ _, ?_,
    fun k hk ↦ (Host.not_submitting rfl k hk).elim, nofun, nofun, ?_, ?_, nofun, ?_, nofun⟩
  · exact ⟨⟨nofun, nofun⟩, nofun, nofun⟩
  · intro k hk hs
    exact (Nat.ne_of_lt (hlt k hk) hs).elim
  · intro k hs hk
    exact (Nat.ne_of_lt (hlt k ((Driver.callInv h).lt_of_committed hk)) hs).elim
  · change ofSess st.pushed st.nsess = ofSess st.taken st.nsess ++ (st.compRing st.nsess).unread
    rw [hpush, htaken, hunread]
    rfl

end HostInv

/-- The Stream and its session are in step along every run. -/
theorem hostInv {w : Host} (h : w.Reachable) : HostInv w := by
  obtain ⟨st, hst, hr⟩ := h
  exact hr.invariant (.init hst) fun _ _ _ _ hi hok hs ↦ hi.step hs hok

end DmaAccel.Runtime
