import DmaAccel.Base.Owners
import DmaAccel.Routing.Calls
import DmaAccel.Routing.Sessions

/-!
# Ownership of buffer slots

Source `track-a/dma_accel_drv.c`: `dma_accel_ioc_buffer_alloc` (1403–1484) and
`dma_accel_chr_release` (1346–1401). Ownership is kept twice, as owner pointers in the table
and as one bitmap for each session. `BufInv` keeps the two in step; what makes the rollback
of a failed BUFFER_ALLOC safe is that the slots of calls between publication and return are
owned and pairwise distinct, and that `release` never overlaps such a call.
-/

namespace DmaAccel.Driver

open DmaAccel.Base

/-- The slot is published and the call has yet to return. -/
def AllocPc.published : AllocPc → Bool
  | .copyOut | .rollback => true
  | _ => false

variable {st st' : Sys} {a : Act}

section Release

variable {b : Fin maxBuffers → BufEntry} {i : Fin maxBuffers}

/-- The bits of the bitmap are visited once each. -/
theorem mem_setBits {owned : Finset (Fin maxBuffers)} : i ∈ setBits owned ↔ i ∈ owned := by
  simp [setBits]

/-- No bit is visited twice. -/
theorem nodup_setBits (owned : Finset (Fin maxBuffers)) : (setBits owned).Nodup :=
  (List.nodup_finRange maxBuffers).filter _

/-- The freeing loop releases the slots it visits and no other. -/
theorem releaseSlots_apply (l : List (Fin maxBuffers)) (b : Fin maxBuffers → BufEntry)
    (i : Fin maxBuffers) : releaseSlots l b i = if i ∈ l then (b i).release else b i := by
  induction l generalizing b with
  | nil => rfl
  | cons j l ih =>
    rw [releaseSlots, ih]
    by_cases hj : i = j
    · subst hj
      rw [Function.update_self, if_pos (List.mem_cons_self ..)]
      split <;> rfl
    · rw [Function.update_of_ne hj]
      simp only [List.mem_cons, hj, false_or]

/-- The freeing loop frees the memory the table describes, slot by slot. -/
theorem releaseFrees_eq (l : List (Fin maxBuffers)) (b : Fin maxBuffers → BufEntry) :
    releaseFrees l b = l.map (freeOf b) := by
  induction l generalizing b with
  | nil => rfl
  | cons j l ih =>
    rw [releaseFrees, ih, List.map_cons]
    congr 1
    apply List.map_congr_left
    intro i _
    unfold freeOf
    by_cases hj : i = j
    · subst hj
      rw [Function.update_self]
      rfl
    · rw [Function.update_of_ne hj]

/-- The slot a publication uses was not in use. -/
theorem freeBufSlot_spec (h : freeBufSlot b = some i) : (b i).inUse = false := by
  have := List.find?_some h
  simpa using this

end Release

/-- How the calls of BUFFER_ALLOC change in one step. -/
inductive AllocMove (st st' : Sys) : Prop where
  | keep : st'.allocs = st.allocs → st'.nallocs = st.nallocs → AllocMove st st'
  | enter (s : Sid) (size : U32) : st.phase s = .opened → st'.phase = st.phase →
      st'.allocs = Function.update st.allocs st.nallocs
        { Alloc.none with sess := s, reqSize := size, pc := .copyIn } →
      st'.nallocs = st.nallocs + 1 → AllocMove st st'
  | move (k : Nat) (c : Alloc) : k < st.nallocs → (st.allocs k).pc ≠ .returned →
      st'.allocs = Function.update st.allocs k c → c.sess = (st.allocs k).sess →
      st'.phase = st.phase → st'.nallocs = st.nallocs → AllocMove st st'

/-- A call that has returned has no further step; only a publishing section publishes. -/
theorem AllocLocal.spec {c c' : Alloc} (h : AllocLocal st c c') :
    c.pc ≠ .returned ∧ c'.sess = c.sess ∧
      (c'.pc.published = true → c.pc.published = true ∧ c'.slot = c.slot) := by
  cases h <;> simp_all [AllocPc.published]

/-- Every step of the system moves the calls of BUFFER_ALLOC in one of these ways. -/
theorem Trans.allocMove (h : Trans st a st') : AllocMove st st' := by
  cases h with
  | alloc s size hs => exact .enter s size hs rfl rfl rfl
  | allocLocal _ k c hk hl => exact .move k c hk hl.spec.1 rfl hl.spec.2.1 rfl rfl
  | publish k i kaddr dmaAddr hk hp => exact .move k _ hk (by simp [hp]) rfl rfl rfl rfl
  | rollback k mem hk hp => exact .move k _ hk (by simp [hp]) rfl rfl rfl rfl
  | _ => exact .keep rfl rfl

/-- A call of BUFFER_ALLOC in progress keeps its session open. -/
structure AllocInv (st : Sys) : Prop where
  blank : ∀ k, st.nallocs ≤ k → (st.allocs k).pc = .returned
  opened : ∀ k, (st.allocs k).pc ≠ .returned → st.phase (st.allocs k).sess = .opened

namespace AllocInv

private theorem opened_keep (hi : AllocInv st) (ht : Trans st a st') {k : Nat}
    (hk : (st.allocs k).pc ≠ .returned) : st'.phase (st.allocs k).sess = .opened := by
  rcases ht.opened (hi.opened k hk) with ho | hq
  · exact ho
  · have hlt : k < st.nallocs := by
      by_contra hn
      exact hk (hi.blank k (Nat.not_lt.mp hn))
    exact (hk (hq.2.1 k hlt rfl)).elim

/-- Every step keeps it. -/
theorem step (hi : AllocInv st) (h : Trans st a st') : AllocInv st' := by
  cases h.allocMove with
  | keep ha hn =>
    constructor
    · intro k hk
      rw [ha]
      exact hi.blank k (hn ▸ hk)
    · intro k hk
      rw [ha] at hk ⊢
      exact hi.opened_keep h hk
  | enter s size ho hp ha hn =>
    constructor
    · intro k hk
      rw [ha, Function.update_of_ne (by omega)]
      exact hi.blank k (by omega)
    · intro k hk
      rw [hp]
      rw [ha] at hk ⊢
      by_cases he : k = st.nallocs
      · rw [he, Function.update_self]
        exact ho
      · rw [Function.update_of_ne he] at hk ⊢
        exact hi.opened k hk
  | move k c hk hpc ha hsess hp hn =>
    constructor
    · intro l hl
      rw [ha, Function.update_of_ne (by omega)]
      exact hi.blank l (hn ▸ hl)
    · intro l hl
      rw [hp]
      rw [ha] at hl ⊢
      by_cases he : l = k
      · rw [he, Function.update_self, hsess]
        exact hi.opened k hpc
      · rw [Function.update_of_ne he] at hl ⊢
        exact hi.opened l hl

/-- It holds before any call. -/
theorem init : AllocInv Sys.init := ⟨fun _ _ ↦ rfl, fun _ h ↦ (h rfl).elim⟩

end AllocInv

/-- Calls of BUFFER_ALLOC keep their sessions open along every run. -/
theorem allocInv {ok : Sys → Act → Prop} (h : ReachBy ok st) : AllocInv st :=
  invariant_of_trans AllocInv.init (fun _ _ _ _ hi _ ht ↦ hi.step ht) h

/-- The table of owners and the bitmaps agree, and a slot is in use exactly if it has an
owner. -/
structure BufInv (st : Sys) : Prop where
  agree : Agree (BufEntry.owner ∘ st.buffers) (fun s ↦ (st.phase s).live = true)
    st.ownedBuffers
  inUse : ∀ i, (st.buffers i).inUse = (st.buffers i).owner.isSome
  quota : ∀ s, (st.ownedBuffers s).card ≤ defaultBufferQuota
  closed : ∀ s, st.phase s = .closed → st.ownedBuffers s = ∅

/-- Calls between publication and return own their slots, each its own. -/
structure SlotInv (st : Sys) : Prop where
  slot : ∀ k, (st.allocs k).pc.published = true →
    (st.allocs k).slot ∈ st.ownedBuffers (st.allocs k).sess
  inj : ∀ k l, (st.allocs k).pc.published = true → (st.allocs l).pc.published = true →
    (st.allocs k).slot = (st.allocs l).slot → k = l

private theorem ne_returned {pc : AllocPc} (h : pc.published = true) : pc ≠ .returned := by
  rintro rfl
  cases h

namespace BufInv

/-- A slot that a live session holds is in use and names the session. -/
theorem held (hi : BufInv st) {s : Sid} {i : Fin maxBuffers} (hs : (st.phase s).live = true)
    (hsi : i ∈ st.ownedBuffers s) :
    (st.buffers i).inUse = true ∧ (st.buffers i).owner = some s := by
  have ho : (st.buffers i).owner = some s := (hi.agree i s).mpr ⟨hs, hsi⟩
  rw [hi.inUse, ho]
  exact ⟨rfl, rfl⟩

/-- One session moves between two live phases, or between two that are not. -/
private theorem phase (hi : BufInv st) {r : Sid} {p : Phase}
    (hp : st'.phase = Function.update st.phase r p) (hb : st'.buffers = st.buffers)
    (ho : st'.ownedBuffers = st.ownedBuffers) (hlive : p.live = (st.phase r).live)
    (hne : p ≠ .closed) : BufInv st' := by
  refine ⟨?_, hb ▸ hi.inUse, ho ▸ hi.quota, ?_⟩
  · rw [hb, ho]
    refine hi.agree.congr_live ?_
    intro s
    rw [hp]
    by_cases hs : s = r
    · rw [hs, Function.update_self, hlive]
    · rw [Function.update_of_ne hs]
  · intro s hs
    rw [hp] at hs
    by_cases he : s = r
    · rw [he, Function.update_self] at hs
      exact (hne hs).elim
    · rw [Function.update_of_ne he] at hs
      rw [ho]
      exact hi.closed s hs

private theorem opened (hi : BufInv st) (hs : SessInv st) : BufInv (chrOpen st) := by
  have hnew : st.ownedBuffers st.nsess = ∅ := hi.closed _ (hs.fresh _ (Nat.le_refl _))
  have hphase (s : Sid) : (chrOpen st).phase s = if s = st.nsess then .opened else st.phase s :=
    Function.update_apply ..
  refine ⟨(hi.agree.enlist hnew).congr_live ?_, hi.inUse, hi.quota, ?_⟩
  · intro s
    rw [hphase]
    split
    · next he => simp [he, Phase.live]
    · next he => simp [he]
  · intro s hc
    rw [hphase] at hc
    split at hc
    · cases hc
    · exact hi.closed s hc

/-- The bitmap of an open session does not matter to those never opened. -/
private theorem closed_update (hi : BufInv st) {r : Sid} {S : Finset (Fin maxBuffers)}
    (hopen : st.phase r = .opened) (hp : st'.phase = st.phase)
    (ho : st'.ownedBuffers = Function.update st.ownedBuffers r S) :
    ∀ s, st'.phase s = .closed → st'.ownedBuffers s = ∅ := by
  intro s hs
  rw [hp] at hs
  rw [ho, Function.update_of_ne]
  · exact hi.closed s hs
  · rintro rfl
    rw [hopen] at hs
    cases hs

/-- An entry is replaced by one whose flag and owner agree. -/
private theorem inUse_update (hi : BufInv st) {i : Fin maxBuffers} {e : BufEntry}
    (hb : st'.buffers = Function.update st.buffers i e) (he : e.inUse = e.owner.isSome) :
    ∀ j, (st'.buffers j).inUse = (st'.buffers j).owner.isSome := by
  intro j
  rw [hb]
  by_cases hj : j = i
  · rw [hj, Function.update_self, he]
  · rw [Function.update_of_ne hj]
    exact hi.inUse j

private theorem publish (hi : BufInv st) {k : Nat} {i : Fin maxBuffers} {e : BufEntry}
    (hfree : (st.buffers i).inUse = false) (hopen : st.phase (st.allocs k).sess = .opened)
    (hquota : (st.ownedBuffers (st.allocs k).sess).card < defaultBufferQuota)
    (hb : st'.buffers = Function.update st.buffers i e)
    (ho : st'.ownedBuffers = Function.update st.ownedBuffers (st.allocs k).sess
      (insert i (st.ownedBuffers (st.allocs k).sess))) (hp : st'.phase = st.phase)
    (he : e.inUse = true ∧ e.owner = some (st.allocs k).sess) : BufInv st' := by
  have hnone : (st.buffers i).owner = none := by
    rw [hi.inUse] at hfree
    exact Option.isNone_iff_eq_none.mp (by simpa using hfree)
  have hflag : e.inUse = e.owner.isSome := by
    rw [he.1, he.2]
    rfl
  refine ⟨?_, hi.inUse_update hb hflag, ?_, hi.closed_update hopen hp ho⟩
  · rw [hb, ho, hp, Function.comp_update, he.2]
    exact hi.agree.grant hnone (hopen ▸ rfl)
  · intro s
    rw [ho, Function.update_apply]
    split
    · exact (Finset.card_insert_le _ _).trans hquota
    · exact hi.quota s

private theorem rollback (hi : BufInv st) {k : Nat} {i : Fin maxBuffers}
    (hslot : i ∈ st.ownedBuffers (st.allocs k).sess)
    (hopen : st.phase (st.allocs k).sess = .opened)
    (hb : st'.buffers = Function.update st.buffers i (st.buffers i).release)
    (ho : st'.ownedBuffers = Function.update st.ownedBuffers (st.allocs k).sess
      ((st.ownedBuffers (st.allocs k).sess).erase i)) (hp : st'.phase = st.phase) :
    BufInv st' := by
  refine ⟨?_, hi.inUse_update hb rfl, ?_, hi.closed_update hopen hp ho⟩
  · rw [hb, ho, hp, Function.comp_update]
    exact hi.agree.revoke (hopen ▸ rfl) hslot
  · intro s
    rw [ho, Function.update_apply]
    split
    · exact (Finset.card_erase_le).trans (hi.quota _)
    · exact hi.quota s

private theorem release (hi : BufInv st) {s : Sid} (hs : (st.phase s).live = true)
    (hb : st'.buffers = releaseSlots (setBits (st.ownedBuffers s)) st.buffers)
    (ho : st'.ownedBuffers = st.ownedBuffers)
    (hp : st'.phase = Function.update st.phase s .relKfree) : BufInv st' := by
  have hentry (i : Fin maxBuffers) : st'.buffers i =
      if i ∈ st.ownedBuffers s then (st.buffers i).release else st.buffers i := by
    rw [hb, releaseSlots_apply]
    simp only [mem_setBits]
  refine ⟨?_, ?_, ho ▸ hi.quota, ?_⟩
  · rw [ho]
    have howner (i : Fin maxBuffers) : (BufEntry.owner ∘ st'.buffers) i =
        if i ∈ st.ownedBuffers s then none else (BufEntry.owner ∘ st.buffers) i := by
      rw [Function.comp_apply, hentry]
      split <;> rfl
    refine (hi.agree.retire hs howner).congr_live ?_
    intro r
    rw [hp, Function.update_apply]
    split
    · next he => simp [he, Phase.live]
    · next he => simp [he]
  · intro i
    rw [hentry]
    split
    · rfl
    · exact hi.inUse i
  · intro r hr
    rw [hp, Function.update_apply] at hr
    rw [ho]
    split at hr
    · cases hr
    · exact hi.closed r hr

/-- Every step keeps table and bitmaps in agreement. -/
theorem step (hi : BufInv st) (hs : SessInv st) (ha : AllocInv st) (hc : SlotInv st)
    (h : Trans st a st') : BufInv st' := by
  cases h with
  | chrOpen => exact hi.opened hs
  | chrRelease r hr hq => exact hi.phase rfl rfl rfl (hr ▸ rfl) nofun
  | relWake r hr => exact hi.phase rfl rfl rfl (hr ▸ rfl) nofun
  | relPoll r hr => exact hi.phase rfl rfl rfl (hr ▸ rfl) nofun
  | relFree r hr => exact hi.release (hr ▸ rfl) rfl rfl rfl
  | relKfree r hr => exact hi.phase rfl rfl rfl (hr ▸ rfl) nofun
  | publish k i kaddr dmaAddr hk hp hq hf =>
    exact hi.publish (freeBufSlot_spec hf) (ha.opened k (by simp [hp])) hq rfl rfl rfl
      ⟨rfl, rfl⟩
  | rollback k mem hk hp =>
    exact hi.rollback (hc.slot k (hp ▸ rfl)) (ha.opened k (by simp [hp])) rfl rfl rfl
  | _ => exact ⟨hi.agree, hi.inUse, hi.quota, hi.closed⟩

/-- No slot is in use before any call. -/
theorem init : BufInv Sys.init := by
  refine ⟨?_, fun _ ↦ rfl, fun _ ↦ Nat.zero_le _, fun _ _ ↦ rfl⟩
  intro i s
  simp [Sys.init]

end BufInv

namespace SlotInv

/-- No call starts holding a slot, and the bitmaps stay. -/
private theorem keep (hi : SlotInv st) (ho : st'.ownedBuffers = st.ownedBuffers)
    (hcalls : ∀ k, (st'.allocs k).pc.published = true → (st.allocs k).pc.published = true ∧
      (st'.allocs k).slot = (st.allocs k).slot ∧ (st'.allocs k).sess = (st.allocs k).sess) :
    SlotInv st' where
  slot k hk := by
    obtain ⟨hp, hslot, hsess⟩ := hcalls k hk
    rw [hslot, hsess, ho]
    exact hi.slot k hp
  inj k l hk hl he := by
    obtain ⟨hpk, hsk, -⟩ := hcalls k hk
    obtain ⟨hpl, hsl, -⟩ := hcalls l hl
    rw [hsk, hsl] at he
    exact hi.inj k l hpk hpl he

/-- The slot of a call that has published is in use. -/
theorem inUse (hi : SlotInv st) (hb : BufInv st) (ha : AllocInv st) {k : Nat}
    (hk : (st.allocs k).pc.published = true) :
    (st.buffers (st.allocs k).slot).inUse = true := by
  have hopen := ha.opened k (ne_returned hk)
  exact (hb.held (hopen ▸ rfl) (hi.slot k hk)).1

private theorem publish (hi : SlotInv st) (hb : BufInv st) (ha : AllocInv st) {k : Nat}
    {i : Fin maxBuffers} {c : Alloc} (hfree : (st.buffers i).inUse = false)
    (ho : st'.ownedBuffers = Function.update st.ownedBuffers (st.allocs k).sess
      (insert i (st.ownedBuffers (st.allocs k).sess)))
    (hs : st'.allocs = Function.update st.allocs k c)
    (hc : c.slot = i ∧ c.sess = (st.allocs k).sess) : SlotInv st' := by
  have hself : (st'.allocs k).slot = i := by rw [hs, Function.update_self, hc.1]
  have hother {l : Nat} (hl : l ≠ k) : st'.allocs l = st.allocs l := by
    rw [hs, Function.update_of_ne hl]
  have hne {l : Nat} (hl : (st.allocs l).pc.published = true) : (st.allocs l).slot ≠ i := by
    rintro rfl
    rw [hi.inUse hb ha hl] at hfree
    cases hfree
  constructor
  · intro l hl
    rw [ho]
    by_cases hlk : l = k
    · rw [hlk, hself, hs, Function.update_self, hc.2, Function.update_self]
      exact Finset.mem_insert_self _ _
    · rw [hother hlk] at hl ⊢
      rw [Function.update_apply]
      split
      · next he => exact Finset.mem_insert_of_mem (he ▸ hi.slot l hl)
      · exact hi.slot l hl
  · intro l m hl hm he
    by_cases hlk : l = k <;> by_cases hmk : m = k
    · rw [hlk, hmk]
    · rw [hother hmk] at hm he
      rw [hlk, hself] at he
      exact (hne hm he.symm).elim
    · rw [hother hlk] at hl he
      rw [hmk, hself] at he
      exact (hne hl he).elim
    · rw [hother hlk] at hl he
      rw [hother hmk] at hm he
      exact hi.inj l m hl hm he

private theorem rollback (hi : SlotInv st) {k : Nat} {c : Alloc}
    (hk : (st.allocs k).pc.published = true)
    (ho : st'.ownedBuffers = Function.update st.ownedBuffers (st.allocs k).sess
      ((st.ownedBuffers (st.allocs k).sess).erase (st.allocs k).slot))
    (hs : st'.allocs = Function.update st.allocs k c) (hc : c.pc = .returned) :
    SlotInv st' := by
  have hne {l : Nat} (hl : (st'.allocs l).pc.published = true) : l ≠ k := by
    rintro rfl
    rw [hs, Function.update_self, hc] at hl
    cases hl
  have hother {l : Nat} (hl : (st'.allocs l).pc.published = true) :
      st'.allocs l = st.allocs l := by rw [hs, Function.update_of_ne (hne hl)]
  constructor
  · intro l hl
    have hsame := hother hl
    rw [hsame] at hl ⊢
    rw [ho, Function.update_apply]
    split
    · next he =>
      refine Finset.mem_erase.mpr ⟨?_, he ▸ hi.slot l hl⟩
      -- another call's slot is another slot
      intro heq
      exact hne (hsame.symm ▸ hl) (hi.inj l k hl hk heq)
    · exact hi.slot l hl
  · intro l m hl hm he
    have hsl := hother hl
    have hsm := hother hm
    rw [hsl] at hl he
    rw [hsm] at hm he
    exact hi.inj l m hl hm he

/-- Every step keeps the slots of the calls apart. -/
theorem step (hi : SlotInv st) (hb : BufInv st) (ha : AllocInv st) (h : Trans st a st') :
    SlotInv st' := by
  cases h with
  | alloc s size hs =>
    refine hi.keep rfl ?_
    intro k hk
    by_cases he : k = st.nallocs
    · subst he
      simp [ioctlAlloc, AllocPc.published] at hk
    · simp only [ioctlAlloc, Function.update_of_ne he] at hk ⊢
      exact ⟨hk, trivial, trivial⟩
  | allocLocal _ k c hk hl =>
    refine hi.keep rfl ?_
    intro l hp
    by_cases he : l = k
    · subst he
      simp only [Sys.setAlloc, Function.update_self] at hp ⊢
      exact ⟨(hl.spec.2.2 hp).1, (hl.spec.2.2 hp).2, hl.spec.2.1⟩
    · simp only [Sys.setAlloc, Function.update_of_ne he] at hp ⊢
      exact ⟨hp, trivial, trivial⟩
  | publish k i kaddr dmaAddr hk hp hq hf =>
    exact hi.publish hb ha (freeBufSlot_spec hf) rfl rfl ⟨rfl, rfl⟩
  | rollback k mem hk hp => exact hi.rollback (hp ▸ rfl) rfl rfl rfl
  | _ => exact ⟨hi.slot, hi.inj⟩

/-- No call holds a slot before any call. -/
theorem init : SlotInv Sys.init := ⟨nofun, nofun⟩

end SlotInv

/-- Table, bitmaps and calls agree along every run. -/
theorem bufInv {ok : Sys → Act → Prop} (h : ReachBy ok st) : BufInv st ∧ SlotInv st :=
  invariant_of_trans (I := fun st ↦ BufInv st ∧ SlotInv st) ⟨BufInv.init, SlotInv.init⟩
    (fun _ _ _ hr hi _ ht ↦ ⟨hi.1.step (sessInv hr) (allocInv hr) hi.2 ht,
      hi.2.step hi.1 (allocInv hr) ht⟩) h

/-- The freeing section of `release` has run. -/
def Phase.gone : Phase → Bool
  | .relKfree | .freed => true
  | _ => false

/-- What a step of `release` of session `s` does to buffers and bitmaps: the table changes in
the freeing section only, which frees the session's slots once each and is then behind. -/
structure ReleaseEffect (st st' : Sys) (s : Sid) : Prop where
  bitmaps : st'.ownedBuffers = st.ownedBuffers
  others : ∀ i, i ∉ st.ownedBuffers s → st'.buffers i = st.buffers i
  idle : st.phase s ≠ .relFree → st'.buffers = st.buffers ∧ st'.frees = st.frees
  freeing : st.phase s = .relFree → (st'.phase s).gone = true ∧
    ∃ slots : List (Fin maxBuffers), slots.Nodup ∧
      (∀ i, i ∈ slots ↔ i ∈ st.ownedBuffers s) ∧
      st'.frees = st.frees ++ slots.map (freeOf st.buffers) ∧
      ∀ i ∈ slots, st'.buffers i = (st.buffers i).release

/-- Steps of `release` other than the freeing section touch no buffer. -/
private theorem ReleaseEffect.of_same {s : Sid} (hb : st'.buffers = st.buffers)
    (ho : st'.ownedBuffers = st.ownedBuffers) (hf : st'.frees = st.frees)
    (hp : st.phase s ≠ .relFree) : ReleaseEffect st st' s :=
  ⟨ho, fun i _ ↦ congrFun hb i, fun _ ↦ ⟨hb, hf⟩, fun he ↦ (hp he).elim⟩

/-- The freeing section. -/
private theorem ReleaseEffect.of_freeing {s : Sid} (hp : st.phase s = .relFree)
    (hb : st'.buffers = releaseSlots (setBits (st.ownedBuffers s)) st.buffers)
    (ho : st'.ownedBuffers = st.ownedBuffers)
    (hf : st'.frees = st.frees ++ releaseFrees (setBits (st.ownedBuffers s)) st.buffers)
    (hg : (st'.phase s).gone = true) : ReleaseEffect st st' s := by
  refine ⟨ho, ?_, fun he ↦ (he hp).elim, fun _ ↦ ⟨hg, setBits (st.ownedBuffers s),
    nodup_setBits _, fun i ↦ mem_setBits, ?_, ?_⟩⟩
  · intro i hi
    rw [hb, releaseSlots_apply, if_neg (mt mem_setBits.mp hi)]
  · rw [hf, releaseFrees_eq]
  · intro i hi
    rw [hb, releaseSlots_apply, if_pos hi]

/-- Every step of `release` has this effect. -/
theorem releaseEffect {s : Sid} (ha : a = .chrRelease s ∨ a = .releaseStep s)
    (hs : step st a = some st') : ReleaseEffect st st' s := by
  rcases ha with rfl | rfl
  · simp only [step] at hs
    split at hs
    · next hg => cases hs; exact .of_same rfl rfl rfl (by simp [hg.1])
    · cases hs
  · simp only [step, releaseStep] at hs
    split at hs
    · next hp => cases hs; exact .of_same rfl rfl rfl (by simp [hp])
    · next hp => split at hs <;> cases hs <;> exact .of_same rfl rfl rfl (by simp [hp])
    · next hp => cases hs; exact .of_freeing hp rfl rfl rfl (by simp [Phase.gone])
    · next hp => cases hs; exact .of_same rfl rfl rfl (by simp [hp])
    · cases hs
    · cases hs
    · cases hs

/-- A session whose buffers have been freed never comes back to the freeing section. -/
private theorem Trans.stays_gone (h : Trans st a st') (hi : SessInv st) {s : Sid}
    (hs : (st.phase s).gone = true) : (st'.phase s).gone = true := by
  cases h.phaseMove s with
  | keep hp => rw [hp]; exact hs
  | opens _ hn _ => rw [hi.fresh s (Nat.le_of_eq hn.symm)] at hs; cases hs
  | closes _ hp => rw [hp] at hs; cases hs
  | wakes hp => rw [hp] at hs; cases hs
  | polls hp => rw [hp] at hs; cases hs
  | frees hp => rw [hp] at hs; cases hs
  | kfrees _ _ hp => rw [hp]; rfl

/-- Buffer ownership: a slot is in use exactly if exactly one live session has its bit set,
that session is the owner on record and a slot not in use has none; no session exceeds its
quota; and `release` frees exactly the slots of its session, in a section that it never runs
twice. -/
theorem buffer_ownership (h : Reachable st) :
    (∀ i, ((st.buffers i).inUse = true ↔
        ∃! s, (st.phase s).live = true ∧ i ∈ st.ownedBuffers s) ∧
      (∀ s, (st.phase s).live = true → i ∈ st.ownedBuffers s → (st.buffers i).owner = some s) ∧
      ((st.buffers i).inUse = false → (st.buffers i).owner = none)) ∧
    (∀ s, (st.ownedBuffers s).card ≤ defaultBufferQuota) ∧
    (∀ s a st', a = .chrRelease s ∨ a = .releaseStep s → step st a = some st' →
      ReleaseEffect st st' s) ∧
    (∀ s a st', (st.phase s).gone = true → step st a = some st' →
      (st'.phase s).gone = true) := by
  have hb := (bufInv h).1
  refine ⟨?_, hb.quota, fun s a st' ha hs ↦ releaseEffect ha hs,
    fun s a st' hg hs ↦ (trans_of_step hs).stays_gone (sessInv h) hg⟩
  intro i
  refine ⟨?_, fun s hs hsi ↦ (hb.held hs hsi).2, ?_⟩
  · rw [hb.inUse]
    exact hb.agree.isSome_iff i
  · intro hu
    rw [hb.inUse] at hu
    simpa using hu

/-- Two sessions with one buffer each; the first is in the freeing section of `release`. -/
theorem buffer_ownership_two : ∃ st st' : Sys, Reachable st ∧ st.phase 0 = .relFree ∧
    step st (.releaseStep 0) = some st' ∧ (st'.buffers 0).inUse = false ∧
    (st'.buffers 1).owner = some 1 ∧ ReleaseEffect st st' 0 ∧
    ((st.buffers 0).inUse = true ↔
      ∃! s, (st.phase s).live = true ∧ (0 : Fin maxBuffers) ∈ st.ownedBuffers s) := by
  have hrun : (run step Sys.init (.chrOpen :: .chrOpen :: allocScript 0 0 ++ allocScript 1 1 ++
      [.chrRelease 0, .releaseStep 0, .releaseStep 0])).any
      (fun st ↦ decide (st.phase 0 = .relFree) && (step st (.releaseStep 0)).any fun st' ↦
        decide ((st'.buffers 0).inUse = false ∧ (st'.buffers 1).owner = some 1)) = true := by
    decide +kernel
  obtain ⟨st, hr, hp⟩ := Reach.exists_of_run hrun
  rw [Bool.and_eq_true] at hp
  obtain ⟨st', hs, htest⟩ := (Option.any_eq_true _ _).mp hp.2
  obtain ⟨hfree, hown⟩ := of_decide_eq_true htest
  obtain ⟨htable, -, hrel, -⟩ := buffer_ownership hr
  exact ⟨st, st', hr, of_decide_eq_true hp.1, hs, hfree, hown, hrel 0 _ st' (.inr rfl) hs,
    (htable 0).1⟩

end DmaAccel.Driver
