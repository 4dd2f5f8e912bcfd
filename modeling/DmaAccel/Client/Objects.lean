import DmaAccel.Client.Clients
import DmaAccel.Client.Grants

/-!
# What Contexts and Buffers stand for

`ClientInv` speaks of which Context holds a file with which ids on record, and of which files
and ids are mapped, not of the objects that say so: a move only hands this on. A Context or a
mapping keeps its file from being released, and as long as that is so, the slots that the file
was granted stay what they are.
-/

namespace DmaAccel.Client

open DmaAccel.Base
open DmaAccel.Driver (Sys Sid U32 SubmitReq Ret Grant GrantedReq opcodeNeedsSrc2 Trans
  trans_of_step)
open DmaAccel.Runtime (Buffer Call Context Fid Stream Thrown)

/-- Context `i` holds the file `f`, with these ids on record. -/
def State.Holds (s : State) (i : Nat) (f : Sid) (ids : Finset U32) : Prop :=
  ∃ c, s.contexts i = some c ∧ c.stream.fd = some f ∧ c.ownedBufferIds = ids

/-- Some Buffer with this id maps the file `f`. -/
def State.Maps (s : State) (f : Sid) (id : U32) : Prop :=
  ∃ j buf, s.buffers j = some buf ∧ buf.addr = some f ∧ buf.bufferId = id

/-- What is known of the call a Context is in. -/
inductive InCall (s : State) (i : Nat) : Pc → Prop where
  | idle : InCall s i .idle
  | allocating {k : Nat} {f : Sid} {ids : Finset U32} : s.Holds i f ids → k < s.sys.nallocs →
      (s.sys.allocs k).sess = f → InCall s i (.allocating k)
  | throttled {x : Call} {f : Sid} {ids : Finset U32} : s.Holds i f ids →
      (∀ buf ∈ x.args, buf.bufferId ∈ ids) → InCall s i (.throttled x x.req)
  | submitting {x : Call} {k : Nat} {f : Sid} {ids : Finset U32} : s.Holds i f ids →
      (∀ buf ∈ x.args, buf.bufferId ∈ ids) → k < s.sys.nsubmits → (s.sys.submits k).sess = f →
      (s.sys.submits k).req = x.req →
      (x.namesSources = true → (s.sys.submits k).ret ≠ .err .EPERM) →
      InCall s i (.submitting x k)

/-- Files that are held or mapped are open, and what is recorded or mapped was granted to their
sessions; a file has one Context at most, which has recorded what is mapped of it. -/
structure ClientInv (s : State) : Prop where
  sys : Driver.Reachable s.sys
  context : ∀ i c, s.contexts i = some c → i < s.ncontexts
  buffer : ∀ j buf, s.buffers j = some buf → j < s.nbuffers
  blank : ∀ i c, s.contexts i = some c → c.stream.fd = none → c.ownedBufferIds = ∅
  held : ∀ i f ids, s.Holds i f ids → s.sys.phase f = .opened ∧ ∀ id ∈ ids, Grant s.sys f id
  sole : ∀ i j f ids ids', s.Holds i f ids → s.Holds j f ids' → i = j
  maps : ∀ f id, s.Maps f id → s.sys.phase f = .opened ∧ Grant s.sys f id
  recorded : ∀ i f ids id, s.Holds i f ids → s.Maps f id → id ∈ ids
  calls : ∀ i, InCall s i (s.pcs i)

variable {s s' : State} {a : Act} {i j k : Nat} {f : Sid} {id : U32} {ids : Finset U32}

theorem held_iff (hi : ClientInv s) : s.held f = true ↔ ∃ i ids, s.Holds i f ids := by
  simp only [State.held, List.any_eq_true, List.mem_range, Option.any_eq_true, decide_eq_true_eq]
  constructor
  · rintro ⟨i, -, c, hc, hf⟩
    exact ⟨i, _, c, hc, hf, rfl⟩
  · rintro ⟨i, ids, c, hc, hf, -⟩
    exact ⟨i, hi.context i c hc, c, hc, hf⟩

theorem mapped_iff (hi : ClientInv s) : s.mapped f = true ↔ ∃ id, s.Maps f id := by
  simp only [State.mapped, List.any_eq_true, List.mem_range, Option.any_eq_true,
    decide_eq_true_eq]
  constructor
  · rintro ⟨j, -, buf, hb, hf⟩
    exact ⟨_, j, buf, hb, hf, rfl⟩
  · rintro ⟨id, j, buf, hb, hf, -⟩
    exact ⟨j, hi.buffer j buf hb, buf, hb, hf⟩

/-- A session stays open unless its release begins. -/
theorem opened_step {st st' : Sys} {b : Driver.Act} (h : Trans st b st')
    (ho : st.phase f = .opened) (hb : b ≠ .chrRelease f) : st'.phase f = .opened := by
  cases h.phaseMove f with
  | keep hp => exact hp.trans ho
  | opens _ _ hp => exact hp
  | closes hrel _ _ _ => exact absurd hrel hb
  | wakes hr | polls hr | frees hr | kfrees _ hr =>
    rw [ho] at hr
    cases hr

/-- A call goes on where the driver is as it was and the Context holds what it held. -/
theorem InCall.congr {pc : Pc} (h : InCall s i pc) (hsys : s'.sys = s.sys)
    (hh : ∀ f ids, s.Holds i f ids → s'.Holds i f ids) : InCall s' i pc := by
  cases h with
  | idle => exact .idle
  | allocating h hk hs => exact .allocating (hh _ _ h) (hsys ▸ hk) (hsys ▸ hs)
  | throttled h hx => exact .throttled (hh _ _ h) hx
  | submitting h hx hk hs hreq hperm =>
    exact .submitting (hh _ _ h) hx (hsys ▸ hk) (hsys ▸ hs) (hsys ▸ hreq) (hsys ▸ hperm)

/-- What holds of the objects and of a replacement holds after the replacement. -/
theorem forall_update {α : Type} {g : Nat → Option α} {x : Option α} {P : Nat → α → Prop}
    (h : ∀ l y, g l = some y → P l y) (hx : ∀ y, x = some y → P i y) :
    ∀ l y, Function.update g i x l = some y → P l y := by
  intro l y hl
  by_cases he : l = i
  · subst he
    rw [Function.update_self] at hl
    exact hx y hl
  · rw [Function.update_of_ne he] at hl
    exact h l y hl

namespace ClientInv

/-- What a Context has on record for a call is granted. -/
theorem grantedReq (hi : ClientInv s) {x : Call} (hh : s.Holds i f ids)
    (hx : ∀ buf ∈ x.args, buf.bufferId ∈ ids) (hn : x.namesSources = true) :
    GrantedReq s.sys f x.req := by
  have hg {buf : Buffer} (hb : buf ∈ x.args) : Grant s.sys f buf.bufferId :=
    (hi.held i f ids hh).2 _ (hx buf hb)
  cases x with
  | submit opcode src srcOffset dst dstOffset len =>
    refine ⟨hg (by simp [Call.args]), hg (by simp [Call.args]), fun hop ↦ ?_⟩
    have hop' : opcodeNeedsSrc2 opcode = true := hop
    simp [Call.namesSources, hop'] at hn
  | submitScaleAdd a aOffset b bOffset dst dstOffset len scalar =>
    exact ⟨hg (by simp [Call.args]), hg (by simp [Call.args]), fun _ ↦ hg (by simp [Call.args])⟩
  | submitTileMatmul a aOffset b bOffset m cOffset =>
    exact ⟨hg (by simp [Call.args]), hg (by simp [Call.args]), fun _ ↦ hg (by simp [Call.args])⟩

/-- The call a Context is in is still in progress after a step of the driver. -/
theorem inCall_driver (hi : ClientInv s) {st : Sys} {b : Driver.Act} {pc : Pc}
    (h : Trans s.sys b st) (hc : InCall s i pc) : InCall { s with sys := st } i pc := by
  cases hc with
  | idle => exact .idle
  | allocating hh hk hs =>
    obtain ⟨hk', hs'⟩ := h.alloc_sess hk
    exact .allocating hh hk' (hs'.trans hs)
  | throttled hh hx => exact .throttled hh hx
  | @submitting x k f ids hh hx hk hs hreq hperm =>
    obtain ⟨hk', hfrom⟩ := h.permFrom hk
    refine .submitting hh hx hk' (hfrom.sess.trans hs) (hfrom.req.trans hreq) ?_
    intro hn herr
    rcases hfrom.perm herr with hold | hcheck
    · exact hperm hn hold
    · rw [hs, hreq] at hcheck
      exact Driver.checkSubmit_granted (hi.grantedReq hh hx hn) hi.sys (hi.held i f ids hh).1
        hcheck

/-- A step of the driver that begins no release of a file in use. -/
theorem driver (hi : ClientInv s) {st : Sys} {b : Driver.Act} (h : Driver.step s.sys b = some st)
    (hb : ∀ f, b = .chrRelease f → s.held f = false ∧ s.mapped f = false) :
    ClientInv { s with sys := st } where
  sys := hi.sys.next trivial h
  context := hi.context
  buffer := hi.buffer
  blank := hi.blank
  held i f ids hh := by
    obtain ⟨ho, hg⟩ := hi.held i f ids hh
    have ht := trans_of_step h
    refine ⟨opened_step ht ho ?_, fun id hid ↦ (hg id hid).step ht⟩
    intro he
    have hheld := (held_iff hi).mpr ⟨i, ids, hh⟩
    rw [(hb f he).1] at hheld
    cases hheld
  sole := hi.sole
  maps f id hm := by
    obtain ⟨ho, hg⟩ := hi.maps f id hm
    have ht := trans_of_step h
    refine ⟨opened_step ht ho ?_, hg.step ht⟩
    intro he
    have hmapped := (mapped_iff hi).mpr ⟨id, hm⟩
    rw [(hb f he).2] at hmapped
    cases hmapped
  recorded := hi.recorded
  calls i := hi.inCall_driver (trans_of_step h) (hi.calls i)

/-- A Context comes to another point of its code. -/
theorem setPc (hi : ClientInv s) {pc : Pc} (hc : InCall s i pc) : ClientInv (s.setPc i pc) where
  sys := hi.sys
  context := hi.context
  buffer := hi.buffer
  blank := hi.blank
  held := hi.held
  sole := hi.sole
  maps := hi.maps
  recorded := hi.recorded
  calls k := by
    change InCall _ k (Function.update s.pcs i pc k)
    by_cases he : k = i
    · subst he
      rw [Function.update_self]
      exact hc.congr rfl fun _ _ h ↦ h
    · rw [Function.update_of_ne he]
      exact (hi.calls k).congr rfl fun _ _ h ↦ h

/-- The Contexts change hands: what Context `k` holds afterwards, Context `o k` held before, and
no two have it from the same one. -/
theorem carry (hi : ClientInv s) {cs : Nat → Option Context} {n : Nat} (o : Nat → Nat)
    (live : Nat → Prop) (hn : ∀ i c, cs i = some c → i < n)
    (hblank : ∀ i c, cs i = some c → c.stream.fd = none → c.ownedBufferIds = ∅)
    (hfrom : ∀ i f ids, State.Holds { s with contexts := cs, ncontexts := n } i f ids →
      live i ∧ s.Holds (o i) f ids)
    (hinj : ∀ i j, live i → live j → o i = o j → i = j)
    (hbusy : ∀ i f ids, s.pcs i ≠ .idle → s.Holds i f ids →
      State.Holds { s with contexts := cs, ncontexts := n } i f ids) :
    ClientInv { s with contexts := cs, ncontexts := n } where
  sys := hi.sys
  context := hn
  buffer := hi.buffer
  blank := hblank
  held i f ids hh := hi.held _ f ids (hfrom i f ids hh).2
  sole i j f ids ids' hh hh' := by
    obtain ⟨hl, hold⟩ := hfrom i f ids hh
    obtain ⟨hl', hold'⟩ := hfrom j f ids' hh'
    exact hinj i j hl hl' (hi.sole _ _ f ids ids' hold hold')
  maps := hi.maps
  recorded i f ids id hh hm := hi.recorded _ f ids id (hfrom i f ids hh).2 hm
  calls i := by
    by_cases hidle : s.pcs i = .idle
    · change InCall _ i (s.pcs i)
      rw [hidle]
      exact .idle
    · exact (hi.calls i).congr rfl fun f ids ↦ hbusy i f ids hidle

/-- The Buffers change: what is mapped afterwards was mapped before, or is accounted for. -/
theorem remap (hi : ClientInv s) {bs : Nat → Option Buffer} {n : Nat}
    (hn : ∀ j buf, bs j = some buf → j < n)
    (hfrom : ∀ j buf, bs j = some buf → ∀ f, buf.addr = some f →
      (s.sys.phase f = .opened ∧ Grant s.sys f buf.bufferId) ∧
        ∀ i ids, s.Holds i f ids → buf.bufferId ∈ ids) :
    ClientInv { s with buffers := bs, nbuffers := n } where
  sys := hi.sys
  context := hi.context
  buffer := hn
  blank := hi.blank
  held := hi.held
  sole := hi.sole
  maps f id := by
    rintro ⟨j, buf, hj, hf, rfl⟩
    exact (hfrom j buf hj f hf).1
  recorded i f ids id hh := by
    rintro ⟨j, buf, hj, hf, rfl⟩
    exact (hfrom j buf hj f hf).2 i ids hh
  calls i := (hi.calls i).congr rfl fun _ _ h ↦ h

/-! ### Moves of Contexts -/

/-- Context `dst` takes over what `src` holds, and `src` is left with nothing. -/
theorem transfer (hi : ClientInv s) {cs : Nat → Option Context} {n src dst : Nat}
    {c x y : Context} (hne : src ≠ dst) (hc : s.contexts src = some c)
    (hidle : s.pcs src = .idle) (hfree : s.pcs dst = .idle ∨ s.contexts dst = none)
    (hdst : cs dst = some y) (hfd : y.stream.fd = c.stream.fd)
    (hids : y.ownedBufferIds = c.ownedBufferIds) (hsrc : cs src = some x)
    (hx : x.stream.fd = none ∧ x.ownedBufferIds = ∅)
    (hother : ∀ l, l ≠ src → l ≠ dst → cs l = s.contexts l) (hn : ∀ l d, cs l = some d → l < n) :
    ClientInv { s with contexts := cs, ncontexts := n } := by
  apply hi.carry (fun l ↦ if l = dst then src else l) (· ≠ src) hn
  · intro l d hd hnone
    by_cases hls : l = src
    · rw [hls, hsrc] at hd
      cases hd
      exact hx.2
    · by_cases hld : l = dst
      · rw [hld, hdst] at hd
        cases hd
        rw [hids]
        exact hi.blank src c hc (hfd ▸ hnone)
      · rw [hother l hls hld] at hd
        exact hi.blank l d hd hnone
  · rintro l f ids ⟨d, hd, hf, hd'⟩
    change cs l = some d at hd
    have hls : l ≠ src := by
      rintro rfl
      rw [hsrc] at hd
      cases hd
      rw [hx.1] at hf
      cases hf
    refine ⟨hls, ?_⟩
    by_cases hld : l = dst
    · rw [hld, hdst] at hd
      cases hd
      rw [if_pos hld]
      exact ⟨c, hc, hfd ▸ hf, hids ▸ hd'⟩
    · rw [if_neg hld]
      rw [hother l hls hld] at hd
      exact ⟨d, hd, hf, hd'⟩
  · intro l m hl hm he
    by_cases hld : l = dst <;> by_cases hmd : m = dst
    · rw [hld, hmd]
    · rw [if_pos hld, if_neg hmd] at he
      exact absurd he.symm hm
    · rw [if_neg hld, if_pos hmd] at he
      exact absurd he hl
    · rw [if_neg hld, if_neg hmd] at he
      exact he
  · rintro l f ids hbusy ⟨d, hd, hrest⟩
    have hls : l ≠ src := by
      rintro rfl
      exact hbusy hidle
    have hld : l ≠ dst := by
      rintro rfl
      rcases hfree with hfree | hfree
      · exact hbusy hfree
      · rw [hfree] at hd
        cases hd
    exact ⟨d, (hother l hls hld).trans hd, hrest⟩

theorem moveContext (hi : ClientInv s) {c : Context} (hc : s.contexts i = some c)
    (hidle : s.pcs i = .idle) :
    ClientInv { s with
      ncontexts := s.ncontexts + 1
      contexts := Function.update (Function.update s.contexts i (some c.moveCtor.2))
        s.ncontexts (some c.moveCtor.1) } := by
  have hlt := hi.context i c hc
  have hnew : s.contexts s.ncontexts = none := by
    by_contra hsome
    obtain ⟨d, hd⟩ := Option.ne_none_iff_exists'.mp hsome
    exact absurd (hi.context _ d hd) (Nat.lt_irrefl _)
  apply hi.transfer (Nat.ne_of_lt hlt) hc hidle (.inr hnew)
  · rw [Function.update_self]
  · rfl
  · rfl
  · rw [Function.update_of_ne (Nat.ne_of_lt hlt), Function.update_self]
  · exact ⟨rfl, rfl⟩
  · intro l hls hld
    rw [Function.update_of_ne hld, Function.update_of_ne hls]
  · apply forall_update
    · apply forall_update
      · exact fun l d hd ↦ Nat.lt_succ_of_lt (hi.context l d hd)
      · exact fun _ _ ↦ Nat.lt_succ_of_lt hlt
    · exact fun _ _ ↦ Nat.lt_succ_self _

theorem assignContext (hi : ClientInv s) {this other : Context} (hne : i ≠ j)
    (hthis : s.contexts i = some this) (hother : s.contexts j = some other)
    (hidle : s.pcs i = .idle) (hidle' : s.pcs j = .idle) :
    ClientInv { s with
      contexts := Function.update (Function.update s.contexts i
        (some (this.moveAssign other).1)) j (some (this.moveAssign other).2) } := by
  apply hi.transfer (n := s.ncontexts) hne.symm hother hidle' (.inl hidle)
  · rw [Function.update_of_ne hne, Function.update_self]
  · rfl
  · rfl
  · rw [Function.update_self]
  · exact ⟨rfl, rfl⟩
  · intro l hls hld
    rw [Function.update_of_ne hls, Function.update_of_ne hld]
  · apply forall_update
    · apply forall_update hi.context
      exact fun _ _ ↦ hi.context i this hthis
    · exact fun _ _ ↦ hi.context j other hother

theorem destroyContext (hi : ClientInv s) (hidle : s.pcs i = .idle) :
    ClientInv { s with contexts := Function.update s.contexts i none } := by
  apply hi.carry (n := s.ncontexts) id (fun _ ↦ True)
  · exact forall_update hi.context fun _ h ↦ by cases h
  · exact forall_update hi.blank fun _ h ↦ by cases h
  · rintro l f ids ⟨d, hd, hrest⟩
    refine ⟨trivial, d, ?_, hrest⟩
    change Function.update s.contexts i none l = some d at hd
    by_cases he : l = i
    · rw [he, Function.update_self] at hd
      cases hd
    · rwa [Function.update_of_ne he] at hd
  · exact fun _ _ _ _ h ↦ h
  · rintro l f ids hbusy ⟨d, hd, hrest⟩
    have hne : l ≠ i := by
      rintro rfl
      exact hbusy hidle
    exact ⟨d, (Function.update_of_ne hne _ _).trans hd, hrest⟩

theorem runStream (hi : ClientInv s) {c : Context} {st : Stream} (hc : s.contexts i = some c)
    (hfd : st.fd = c.stream.fd) :
    ClientInv { s with
      contexts := Function.update s.contexts i (some { c with stream := st }) } := by
  have hholds (l : Nat) (f : Sid) (ids : Finset U32) : State.Holds { s with
      contexts := Function.update s.contexts i (some { c with stream := st }) } l f ids ↔
      s.Holds l f ids := by
    unfold State.Holds
    by_cases he : l = i
    · subst he
      simp [hc, hfd]
    · simp [Function.update_of_ne he]
  apply hi.carry (n := s.ncontexts) id (fun _ ↦ True)
  · exact forall_update hi.context fun _ _ ↦ hi.context i c hc
  · apply forall_update hi.blank
    intro d hd hnone
    cases hd
    exact hi.blank i c hc (hfd ▸ hnone)
  · exact fun l f ids hh ↦ ⟨trivial, (hholds l f ids).mp hh⟩
  · exact fun _ _ _ _ h ↦ h
  · exact fun l f ids _ hh ↦ (hholds l f ids).mpr hh

/-! ### Moves of Buffers -/

/-- A mapped Buffer is accounted for. -/
theorem accounted (hi : ClientInv s) (j : Nat) (buf : Buffer) (hj : s.buffers j = some buf)
    (f : Sid) (hf : buf.addr = some f) :
    (s.sys.phase f = .opened ∧ Grant s.sys f buf.bufferId) ∧
      ∀ i ids, s.Holds i f ids → buf.bufferId ∈ ids :=
  ⟨hi.maps f _ ⟨j, buf, hj, hf, rfl⟩,
    fun i ids hh ↦ hi.recorded i f ids _ hh ⟨j, buf, hj, hf, rfl⟩⟩

theorem moveBuffer (hi : ClientInv s) {buf : Buffer} (hj : s.buffers j = some buf) :
    ClientInv ({ s with
      buffers := Function.update s.buffers j (some buf.moveCtor.2) }.addBuffer buf.moveCtor.1) := by
  have hlt := hi.buffer j buf hj
  apply hi.remap
  · apply forall_update
    · apply forall_update
      · exact fun l b hb ↦ Nat.lt_succ_of_lt (hi.buffer l b hb)
      · exact fun _ _ ↦ Nat.lt_succ_of_lt hlt
    · exact fun _ _ ↦ Nat.lt_succ_self _
  · apply forall_update
    · apply forall_update hi.accounted
      intro b hb f hf
      cases hb
      cases hf
    · intro b hb
      cases hb
      exact hi.accounted j buf hj

theorem assignBuffer (hi : ClientInv s) {l : Nat} {this other : Buffer}
    (hthis : s.buffers j = some this) (hother : s.buffers l = some other) :
    ClientInv { s with
      buffers := Function.update (Function.update s.buffers j
        (some (this.moveAssign other).1)) l (some (this.moveAssign other).2) } := by
  apply hi.remap (n := s.nbuffers)
  · apply forall_update
    · apply forall_update hi.buffer
      exact fun _ _ ↦ hi.buffer j this hthis
    · exact fun _ _ ↦ hi.buffer l other hother
  · apply forall_update
    · apply forall_update hi.accounted
      intro b hb
      cases hb
      exact hi.accounted l other hother
    · intro b hb f hf
      cases hb
      cases hf

theorem destroyBuffer (hi : ClientInv s) :
    ClientInv { s with buffers := Function.update s.buffers j none } := by
  apply hi.remap (n := s.nbuffers)
  · exact forall_update hi.buffer fun _ h ↦ by cases h
  · exact forall_update hi.accounted fun _ h ↦ by cases h

/-! ### New objects -/

/-- A constructor opens a file that nobody knows. -/
theorem openContext (hi : ClientInv s) (name : String) :
    ClientInv { s with
      sys := Driver.chrOpen s.sys
      ncontexts := s.ncontexts + 1
      contexts := Function.update s.contexts s.ncontexts
        (some ⟨name, .opened s.sys.nsess, ∅⟩) } := by
  have hd : ClientInv { s with sys := Driver.chrOpen s.sys } :=
    hi.driver (show Driver.step s.sys .chrOpen = some _ from rfl) fun _ h ↦ by cases h
  have hclosed : s.sys.phase s.sys.nsess ≠ .opened := by
    rw [(Driver.sessInv hi.sys).fresh _ (Nat.le_refl _)]
    decide
  have hold : ∀ i f ids, State.Holds { s with
      sys := Driver.chrOpen s.sys
      ncontexts := s.ncontexts + 1
      contexts := Function.update s.contexts s.ncontexts
        (some ⟨name, .opened s.sys.nsess, ∅⟩) } i f ids →
      i = s.ncontexts ∧ f = s.sys.nsess ∧ ids = ∅ ∨ i ≠ s.ncontexts ∧ s.Holds i f ids := by
    rintro i f ids ⟨c, hc, hf, hids⟩
    change Function.update s.contexts s.ncontexts _ i = some c at hc
    by_cases he : i = s.ncontexts
    · rw [he, Function.update_self] at hc
      cases hc
      exact .inl ⟨he, (Option.some.inj hf).symm, hids.symm⟩
    · rw [Function.update_of_ne he] at hc
      exact .inr ⟨he, c, hc, hf, hids⟩
  refine ⟨hd.sys, ?_, hi.buffer, ?_, ?_, ?_, hd.maps, ?_, ?_⟩
  · apply forall_update
    · exact fun i c hc ↦ Nat.lt_succ_of_lt (hi.context i c hc)
    · exact fun _ _ ↦ Nat.lt_succ_self _
  · apply forall_update hi.blank
    intro c hc hnone
    cases hc
    rfl
  · intro i f ids hh
    rcases hold i f ids hh with ⟨-, rfl, rfl⟩ | ⟨-, hh⟩
    · refine ⟨Function.update_self .., fun id hid ↦ ?_⟩
      cases hid
    · exact hd.held i f ids hh
  · intro i j f ids ids' hh hh'
    rcases hold i f ids hh with ⟨rfl, rfl, -⟩ | ⟨hne, hh⟩
    · rcases hold j _ ids' hh' with ⟨rfl, -, -⟩ | ⟨-, hh'⟩
      · rfl
      · exact absurd (hi.held j _ ids' hh').1 hclosed
    · rcases hold j f ids' hh' with ⟨-, rfl, -⟩ | ⟨-, hh'⟩
      · exact absurd (hi.held i _ ids hh).1 hclosed
      · exact hi.sole i j f ids ids' hh hh'
  · intro i f ids id hh hm
    rcases hold i f ids hh with ⟨-, rfl, -⟩ | ⟨-, hh⟩
    · exact absurd (hi.maps _ id hm).1 hclosed
    · exact hi.recorded i f ids id hh hm
  · intro i
    refine (hd.calls i).congr rfl fun f ids hh ↦ ?_
    obtain ⟨c, hc, hrest⟩ := hh
    have hne := Nat.ne_of_lt (hi.context i c hc)
    exact ⟨c, (Function.update_of_ne hne _ _).trans hc, hrest⟩

/-- A Context records an id that its session was granted. -/
theorem record (hi : ClientInv s) {c : Context} {buf : Buffer} (hc : s.contexts i = some c)
    (hf : c.stream.fd = some f) (hg : Grant s.sys f buf.bufferId) (hidle : s.pcs i = .idle) :
    ClientInv { s with contexts := Function.update s.contexts i (some (c.record buf)) } := by
  have hself : s.Holds i f c.ownedBufferIds := ⟨c, hc, hf, rfl⟩
  have hold : ∀ l r ids, State.Holds { s with
      contexts := Function.update s.contexts i (some (c.record buf)) } l r ids →
      ∃ ids', s.Holds l r ids' ∧ ids' ⊆ ids ∧ ∀ id ∈ ids, Grant s.sys r id := by
    rintro l r ids ⟨d, hd, hr, rfl⟩
    change Function.update s.contexts i _ l = some d at hd
    by_cases he : l = i
    · subst he
      rw [Function.update_self] at hd
      cases hd
      obtain rfl : f = r := Option.some.inj (hf.symm.trans hr)
      refine ⟨_, hself, Finset.subset_insert _ _, fun id hid ↦ ?_⟩
      rcases Finset.mem_insert.mp hid with rfl | hid
      · exact hg
      · exact (hi.held l f _ hself).2 id hid
    · rw [Function.update_of_ne he] at hd
      exact ⟨_, ⟨d, hd, hr, rfl⟩, Finset.Subset.refl _, (hi.held l r _ ⟨d, hd, hr, rfl⟩).2⟩
  refine ⟨hi.sys, ?_, hi.buffer, ?_, ?_, ?_, hi.maps, ?_, ?_⟩
  · exact forall_update hi.context fun _ _ ↦ hi.context i c hc
  · apply forall_update hi.blank
    intro d hd hnone
    cases hd
    exact absurd (hf.symm.trans hnone) (Option.some_ne_none f)
  · intro l r ids hh
    obtain ⟨ids', hh', -, hgrant⟩ := hold l r ids hh
    exact ⟨(hi.held l r ids' hh').1, hgrant⟩
  · intro l m r ids ids' hh hh'
    obtain ⟨_, hl, -, -⟩ := hold l r ids hh
    obtain ⟨_, hm, -, -⟩ := hold m r ids' hh'
    exact hi.sole l m r _ _ hl hm
  · intro l r ids id hh hm
    obtain ⟨ids', hh', hsub, -⟩ := hold l r ids hh
    exact hsub (hi.recorded l r ids' id hh' hm)
  · intro l
    by_cases he : l = i
    · subst he
      change InCall _ l (s.pcs l)
      rw [hidle]
      exact .idle
    · refine (hi.calls l).congr rfl fun r ids hh ↦ ?_
      obtain ⟨d, hd, hrest⟩ := hh
      exact ⟨d, (Function.update_of_ne he _ _).trans hd, hrest⟩

/-- A Buffer is built that maps a granted id of an open file. -/
theorem addBuffer (hi : ClientInv s) {buf : Buffer} (hf : buf.addr = some f)
    (ho : s.sys.phase f = .opened) (hg : Grant s.sys f buf.bufferId)
    (hh : ∀ i ids, s.Holds i f ids → buf.bufferId ∈ ids) : ClientInv (s.addBuffer buf) := by
  apply hi.remap
  · apply forall_update
    · exact fun l b hb ↦ Nat.lt_succ_of_lt (hi.buffer l b hb)
    · exact fun _ _ ↦ Nat.lt_succ_self _
  · apply forall_update hi.accounted
    intro b hb r hr
    cases hb
    obtain rfl : f = r := Option.some.inj (hf.symm.trans hr)
    exact ⟨⟨ho, hg⟩, hh⟩

/-! ### Calls -/

/-- A Context enters the ioctl of `alloc_buffer`. -/
theorem allocBuffer (hi : ClientInv s) {st : Sys} {size : U32} (hh : s.Holds i f ids)
    (h : Driver.step s.sys (.alloc f size) = some st) :
    ClientInv ({ s with sys := st }.setPc i (.allocating s.sys.nallocs)) := by
  have hd : ClientInv { s with sys := st } := hi.driver h fun _ h ↦ by cases h
  apply hd.setPc
  obtain ⟨-, hs⟩ := Option.ite_none_right_eq_some.mp h
  cases hs
  refine .allocating hh (Nat.lt_succ_self _) ?_
  change (Function.update s.sys.allocs s.sys.nallocs _ s.sys.nallocs).sess = f
  rw [Function.update_self]

/-- A call that passes is made on a Context that holds a file. -/
theorem submit (hi : ClientInv s) {c : Context} {x : Call} {req : SubmitReq}
    (hc : s.contexts i = some c) (h : c.call x = .ok req) :
    ClientInv (s.setPc i (.throttled x req)) := by
  obtain ⟨hx, rfl⟩ := Runtime.Context.call_ok h
  cases hf : c.stream.fd with
  | some f => exact hi.setPc (.throttled ⟨c, hc, hf, rfl⟩ hx)
  | none =>
    obtain ⟨buf, hbuf⟩ := List.exists_mem_of_ne_nil _ x.args_ne_nil
    have hmem := hx buf hbuf
    rw [hi.blank i c hc hf] at hmem
    cases hmem

/-- A Context enters the ioctl of `do_submit` with the request of a call that has passed. -/
theorem submitted (hi : ClientInv s) {st : Sys} {x : Call} (hh : s.Holds i f ids)
    (hx : ∀ buf ∈ x.args, buf.bufferId ∈ ids)
    (h : Driver.step s.sys (.submit f x.req) = some st) :
    ClientInv ({ s with sys := st }.setPc i (.submitting x s.sys.nsubmits)) := by
  have hd : ClientInv { s with sys := st } := hi.driver h fun _ h ↦ by cases h
  apply hd.setPc
  obtain ⟨-, hs⟩ := Option.ite_none_right_eq_some.mp h
  cases hs
  have hnew : (Driver.ioctlSubmit s.sys f x.req).submits s.sys.nsubmits =
      { Driver.Submit.none with sess := f, req := x.req, pc := .copyIn } :=
    Function.update_self ..
  refine .submitting hh hx (Nat.lt_succ_self _) ?_ ?_ ?_
  · exact congrArg Driver.Submit.sess hnew
  · exact congrArg Driver.Submit.req hnew
  · intro _ herr
    change ((Driver.ioctlSubmit s.sys f x.req).submits s.sys.nsubmits).ret = _ at herr
    rw [hnew] at herr
    cases herr

/-- A Buffer that `Stream::alloc_buffer` returns maps what its call was granted. -/
theorem grant_of_allocBuffer {st : Sys} {mapped : Ret} {buf : Buffer} (hk : k < st.nallocs)
    (hr : (st.allocs k).pc = .returned) (h : Stream.allocBuffer st k mapped = .ok buf) :
    buf.addr = some (st.allocs k).sess ∧ Grant st (st.allocs k).sess buf.bufferId := by
  unfold Stream.allocBuffer at h
  dsimp only at h
  split at h
  · cases h
  · next n hret =>
    split at h
    · cases h
    · cases h
      refine ⟨rfl, k, hk, ?_, rfl, rfl⟩
      simp [Driver.Alloc.granted, hr, hret]

/-- `alloc_buffer` records the id and returns the Buffer. -/
theorem allocReturn (hi : ClientInv s) {c : Context} {mapped : Ret} {buf : Buffer}
    (hc : s.contexts i = some c) (hpc : s.pcs i = .allocating k)
    (hr : (s.sys.allocs k).pc = .returned)
    (h : Stream.allocBuffer s.sys k mapped = .ok buf) :
    ClientInv (({ s with contexts := Function.update s.contexts i (some (c.record buf)) }.addBuffer
      buf).setPc i .idle) := by
  have hcall := hi.calls i
  rw [hpc] at hcall
  cases hcall with
  | @allocating _ f ids hh hk hs =>
    obtain ⟨hmap, hg⟩ := grant_of_allocBuffer hk hr h
    rw [hs] at hmap hg
    obtain ⟨d, hd, hf, -⟩ := id hh
    rw [hc] at hd
    cases hd
    have hidle : ClientInv (s.setPc i .idle) := hi.setPc .idle
    have hrec := hidle.record hc hf hg (Function.update_self ..)
    refine hrec.addBuffer hmap (hi.held i f ids hh).1 hg fun l ids' hl ↦ ?_
    have hnew : State.Holds { s.setPc i .idle with
        contexts := Function.update s.contexts i (some (c.record buf)) } i f
        (c.record buf).ownedBufferIds := ⟨_, Function.update_self .., hf, rfl⟩
    obtain rfl := hrec.sole l i f _ _ hl hnew
    obtain ⟨d, hd, -, rfl⟩ := hl
    change Function.update s.contexts l _ l = some d at hd
    rw [Function.update_self] at hd
    cases hd
    exact Finset.mem_insert_self _ _

/-- Every step keeps what the objects stand for. -/
theorem step (hi : ClientInv s) (h : step s a = some s') : ClientInv s' := by
  cases a with
  | driver b =>
    obtain ⟨hb, h⟩ := Option.ite_none_right_eq_some.mp h
    obtain ⟨st, hst, rfl⟩ := Option.map_eq_some_iff.mp h
    refine hi.driver hst fun f hf ↦ ?_
    subst hf
    simpa [State.admits] using hb
  | openContext name =>
    cases h
    exact hi.openContext name
  | moveContext i =>
    simp only [Client.step] at h
    split at h
    · next c hc =>
      obtain ⟨hidle, hs⟩ := Option.ite_none_right_eq_some.mp h
      cases hs
      exact hi.moveContext hc hidle
    · cases h
  | assignContext i j =>
    simp only [Client.step] at h
    split at h
    · next this other hthis hother =>
      obtain ⟨⟨hidle, hidle'⟩, hs⟩ := Option.ite_none_right_eq_some.mp h
      split at hs
      · cases hs
        exact hi
      · next hne =>
        cases hs
        exact hi.assignContext hne hthis hother hidle hidle'
    · cases h
  | destroyContext i =>
    obtain ⟨hidle, hs⟩ := Option.ite_none_right_eq_some.mp h
    cases hs
    exact hi.destroyContext hidle
  | runStream i outstanding submissionOrder =>
    simp only [Client.step] at h
    split at h
    · next c hc =>
      cases h
      exact hi.runStream hc rfl
    · cases h
  | allocBuffer i size =>
    simp only [Client.step] at h
    split at h
    · next c hc =>
      obtain ⟨-, hs⟩ := Option.ite_none_right_eq_some.mp h
      split at hs
      · next f hf =>
        obtain ⟨st, hst, rfl⟩ := Option.map_eq_some_iff.mp hs
        exact hi.allocBuffer ⟨c, hc, hf, rfl⟩ hst
      · cases hs
        exact hi
    · cases h
  | allocReturn i mapped =>
    simp only [Client.step] at h
    split at h
    · next c k hc hpc =>
      obtain ⟨hr, hs⟩ := Option.ite_none_right_eq_some.mp h
      split at hs
      · next buf hbuf =>
        cases hs
        exact hi.allocReturn hc hpc hr hbuf
      · cases hs
        exact hi.setPc .idle
    · cases h
  | streamBuffer k mapped =>
    obtain ⟨⟨hk, hr, ho, hheld⟩, hs⟩ := Option.ite_none_right_eq_some.mp h
    split at hs
    · next buf hbuf =>
      cases hs
      obtain ⟨hmap, hg⟩ := grant_of_allocBuffer hk hr hbuf
      refine hi.addBuffer hmap ho hg fun i ids hh ↦ ?_
      have hyes := (held_iff hi).mpr ⟨i, ids, hh⟩
      rw [hheld] at hyes
      cases hyes
    · cases hs
      exact hi
  | moveBuffer j =>
    simp only [Client.step] at h
    split at h
    · next buf hj =>
      cases h
      exact hi.moveBuffer hj
    · cases h
  | assignBuffer j l =>
    simp only [Client.step] at h
    split at h
    · next this other hthis hother =>
      split at h
      · cases h
        exact hi
      · cases h
        exact hi.assignBuffer hthis hother
    · cases h
  | destroyBuffer j =>
    cases h
    exact hi.destroyBuffer
  | submit i x =>
    simp only [Client.step] at h
    split at h
    · next c hc =>
      obtain ⟨-, hs⟩ := Option.ite_none_right_eq_some.mp h
      split at hs
      · next req hreq =>
        cases hs
        exact hi.submit hc hreq
      · cases hs
        exact hi
    · cases h
  | throttleThrows i =>
    simp only [Client.step] at h
    split at h
    · cases h
      exact hi.setPc .idle
    · cases h
  | issue i =>
    simp only [Client.step] at h
    split at h
    · next c x req hc hpc =>
      have hcall := hi.calls i
      rw [hpc] at hcall
      split at h
      · next f hf =>
        obtain ⟨st, hst, rfl⟩ := Option.map_eq_some_iff.mp h
        cases hcall with
        | throttled hh hx =>
          obtain ⟨d, hd, hf', rfl⟩ := hh
          rw [hc] at hd
          cases hd
          exact hi.submitted ⟨c, hc, hf, rfl⟩ hx hst
      · cases h
        exact hi.setPc .idle
    · cases h
  | restart i =>
    simp only [Client.step] at h
    split at h
    · next x k hpc =>
      have hcall := hi.calls i
      rw [hpc] at hcall
      obtain ⟨-, hs⟩ := Option.ite_none_right_eq_some.mp h
      obtain ⟨st, hst, rfl⟩ := Option.map_eq_some_iff.mp hs
      cases hcall with
      | submitting hh hx hk hsess hreq hperm =>
        rw [hsess, hreq] at hst
        exact hi.submitted hh hx hst
    · cases h
  | submitReturn i =>
    simp only [Client.step] at h
    split at h
    · obtain ⟨-, hs⟩ := Option.ite_none_right_eq_some.mp h
      cases hs
      exact hi.setPc .idle
    · cases h

end ClientInv

end DmaAccel.Client
