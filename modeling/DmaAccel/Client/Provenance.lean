import DmaAccel.Client.Objects

/-!
# Provenance of Buffers

A Context records the ids of the buffers it allocates. Ids are numbers of slots, which the
driver gives out again, and nothing is ever taken off the record. It says where a mapped Buffer
comes from all the same, and the calls of a Context whose buffers are all arguments of the call
never see the driver's `EPERM`. `Context::submit` with an opcode that has a second source is
another matter: the request then names buffer 0, whosever that is.
-/

namespace DmaAccel.Client

open DmaAccel.Base
open DmaAccel.Driver (opcodeScaleAdd opcodeCopy)
open DmaAccel.Runtime (Buffer Call Context Thrown)

variable {s : State}

/-- A mapped Buffer belongs elsewhere if it maps another file than the Context's. Of a Buffer
that maps nothing, moved from or reset, there is only the id to go by. -/
def Elsewhere (c : Context) (buf : Buffer) : Prop :=
  if buf.addr = none then buf.bufferId ∉ c.ownedBufferIds else buf.addr ≠ c.stream.fd

/-- What the record of a Context is good for. -/
structure Provenance (s : State) : Prop where
  recorded : ∀ i c j buf f, s.contexts i = some c → s.buffers j = some buf →
    buf.addr = some f → (buf.bufferId ∈ c.ownedBufferIds ↔ c.stream.fd = some f)
  thrown : ∀ i c x, s.contexts i = some c → s.exist x = true →
    ((∃ what, c.call x = .error (.logicError what)) ↔ ∃ buf ∈ x.args, Elsewhere c buf)
  named : ∀ i c x e, s.contexts i = some c → s.exist x = true → c.call x = .error e →
    ∃ buf ∈ x.args, Elsewhere c buf ∧ e = .logicError (c.notAllocated buf x.what)
  permitted : ∀ i x k, s.pcs i = .submitting x k → x.namesSources = true →
    (s.sys.submits k).ret ≠ .err .EPERM

theorem clientInv_init : ClientInv init where
  sys := .start
  context _ _ h := by cases h
  buffer _ _ h := by cases h
  blank _ _ h := by cases h
  held := by
    rintro i f ids ⟨c, hc, -⟩
    cases hc
  sole := by
    rintro i j f ids ids' ⟨c, hc, -⟩
    cases hc
  maps := by
    rintro f id ⟨j, buf, hb, -⟩
    cases hb
  recorded := by
    rintro i f ids id ⟨c, hc, -⟩
    cases hc
  calls _ := .idle

theorem clientInv (h : Reach step anyStep init s) : ClientInv s :=
  h.invariant clientInv_init fun _ _ _ _ hi _ hs ↦ hi.step hs

namespace ClientInv

/-- An id is on record with the Context that holds the file of its Buffer, and with no other. -/
theorem recorded_iff (hi : ClientInv s) {i j f : Nat} {c : Context} {buf : Buffer}
    (hc : s.contexts i = some c) (hb : s.buffers j = some buf) (hf : buf.addr = some f) :
    buf.bufferId ∈ c.ownedBufferIds ↔ c.stream.fd = some f := by
  have hmaps : s.Maps f buf.bufferId := ⟨j, buf, hb, hf, rfl⟩
  constructor
  · intro hid
    cases hr : c.stream.fd with
    | none =>
      rw [hi.blank i c hc hr] at hid
      cases hid
    | some r =>
      obtain ⟨ho, hg⟩ := hi.held i r _ ⟨c, hc, hr, rfl⟩
      obtain ⟨ho', hg'⟩ := hi.maps f _ hmaps
      rw [(hg _ hid).unique hg' hi.sys ho ho']
  · exact fun hr ↦ hi.recorded i f _ _ ⟨c, hc, hr, rfl⟩ hmaps

/-- An argument belongs elsewhere exactly if it is not on record. -/
theorem elsewhere_iff (hi : ClientInv s) {i : Nat} {c : Context} {x : Call} {buf : Buffer}
    (hc : s.contexts i = some c) (he : s.exist x = true) (hbuf : buf ∈ x.args) :
    Elsewhere c buf ↔ buf.bufferId ∉ c.ownedBufferIds := by
  unfold Elsewhere
  split
  · exact Iff.rfl
  · next hm =>
    have hex := List.all_eq_true.mp he buf hbuf
    obtain ⟨j, -, hj⟩ := List.any_eq_true.mp hex
    obtain ⟨f, hf⟩ := Option.ne_none_iff_exists'.mp hm
    rw [hi.recorded_iff hc (of_decide_eq_true hj) hf, hf]
    exact not_congr eq_comm

theorem named (hi : ClientInv s) {i : Nat} {c : Context} {x : Call} {e : Thrown}
    (hc : s.contexts i = some c) (he : s.exist x = true) (h : c.call x = .error e) :
    ∃ buf ∈ x.args, Elsewhere c buf ∧ e = .logicError (c.notAllocated buf x.what) := by
  obtain ⟨buf, hbuf, hid, rfl⟩ := Context.call_error h
  exact ⟨buf, hbuf, (hi.elsewhere_iff hc he hbuf).mpr hid, rfl⟩

/-- A call throws where an argument belongs elsewhere. -/
theorem throws (hi : ClientInv s) {i : Nat} {c : Context} {x : Call} {buf : Buffer}
    (hc : s.contexts i = some c) (he : s.exist x = true) (hbuf : buf ∈ x.args)
    (hels : Elsewhere c buf) : ∃ what, c.call x = .error (.logicError what) := by
  cases h : c.call x with
  | ok req =>
    have hid := (hi.elsewhere_iff hc he hbuf).mp hels
    exact absurd ((Context.call_ok h).1 buf hbuf) hid
  | error e =>
    obtain ⟨b, -, -, rfl⟩ := Context.call_error h
    exact ⟨_, rfl⟩

end ClientInv

/-- In every history of Contexts and Buffers, among any other clients, the record of a Context
tells its own Buffers from those of others, and its calls rely on nothing else. -/
theorem context_provenance (h : Reach step anyStep init s) : Provenance s := by
  have hi := clientInv h
  constructor
  · exact fun i c j buf f hc hb hf ↦ hi.recorded_iff hc hb hf
  · intro i c x hc he
    constructor
    · rintro ⟨what, hx⟩
      obtain ⟨buf, hbuf, hels, -⟩ := hi.named hc he hx
      exact ⟨buf, hbuf, hels⟩
    · rintro ⟨buf, hbuf, hels⟩
      exact hi.throws hc he hbuf hels
  · exact fun i c x e hc he hx ↦ hi.named hc he hx
  · intro i x k hpc hn
    have hcall := hi.calls i
    rw [hpc] at hcall
    cases hcall with
    | submitting hh hx hk hs hreq hperm => exact hperm hn

/-- Two Contexts allocate one Buffer each, and the second is assigned the first, by way of a
third: its own file is closed and stays open for the mapping. -/
theorem context_provenance_moved : ∃ s, Reach step anyStep init s ∧
    (s.contexts 1).map (·.stream.fd) = some (some 0) ∧
    (s.buffers 1).map (·.addr) = some (some 1) ∧
    s.pcs 1 = .submitting (.submit opcodeCopy ⟨some 0, 4096, 0⟩ 0 ⟨some 0, 4096, 0⟩ 0 16) 0 ∧
    Provenance s := by
  have hrun : (run step init ([.openContext "client-A"] ++ allocScript 0 0 ++
      [.openContext "client-B"] ++ allocScript 1 1 ++ [.moveContext 0, .assignContext 1 2] ++
      submitScript 1 (.submit opcodeCopy ⟨some 0, 4096, 0⟩ 0 ⟨some 0, 4096, 0⟩ 0 16) 0 14)).any
      (fun s ↦ decide ((s.contexts 1).map (·.stream.fd) = some (some 0) ∧
        (s.buffers 1).map (·.addr) = some (some 1) ∧
        s.pcs 1 = .submitting (.submit opcodeCopy ⟨some 0, 4096, 0⟩ 0 ⟨some 0, 4096, 0⟩ 0 16)
          0)) = true := by
    decide +kernel
  obtain ⟨s, hr, hp⟩ := Reach.exists_of_run hrun
  obtain ⟨hfd, hmap, hpc⟩ := of_decide_eq_true hp
  exact ⟨s, hr, hfd, hmap, hpc, context_provenance hr⟩

/-- `Context::submit` of a SCALE_ADD passes the check with the Context's own Buffer and is
rejected for buffer 0, which another Context owns. -/
theorem scale_add_rejected : ¬∀ s i x k, Reach step anyStep init s →
    s.pcs i = .submitting x k → (s.sys.submits k).ret ≠ .err .EPERM := by
  have hrun : (run step init ([.openContext "client-A"] ++ allocScript 0 0 ++
      [.openContext "client-B"] ++ allocScript 1 1 ++
      submitScript 1 (.submit opcodeScaleAdd ⟨some 1, 4096, 1⟩ 0 ⟨some 1, 4096, 1⟩ 0 16) 0 2)).any
      (fun s ↦ decide (s.pcs 1 = .submitting
          (.submit opcodeScaleAdd ⟨some 1, 4096, 1⟩ 0 ⟨some 1, 4096, 1⟩ 0 16) 0 ∧
        (s.sys.submits 0).ret = .err .EPERM)) = true := by
    decide +kernel
  obtain ⟨s, hr, hp⟩ := Reach.exists_of_run hrun
  obtain ⟨hpc, hret⟩ := of_decide_eq_true hp
  intro hall
  exact hall s 1 _ 0 hr hpc hret

end DmaAccel.Client
