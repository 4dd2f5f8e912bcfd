import DmaAccel.Pool.BufferPool

/-!
# The buffers of a pool are partitioned

In every state a program can reach, the storage of each pool is the sum of its free list
and of the buffers its live handles hold. The law is one equation between bags; that no
buffer is lost, listed twice or held twice, and what `available` and `acquire` answer, are
read off it.
-/

namespace DmaAccel.Pool

open Base

/-- The buffer of pool `p` that an object holds, if it is live and holds one. -/
def holdsFrom (p : Nat) (o : Option PooledBuffer) : Option BufferPtr :=
  o.bind fun x ↦ if x.pool = some p then x.buffer else none

namespace Heap

/-- The buffers of pool `p` in the hands of live handles. -/
def heldFrom (s : Heap) (p : Nat) : Multiset BufferPtr :=
  bag (holdsFrom p) (Finset.range s.nhandles) s.handles

/-- Number of live handles that hold a buffer of pool `p`. -/
def holders (s : Heap) (p : Nat) : Nat :=
  count (fun o ↦ (holdsFrom p o).isSome = true) (Finset.range s.nhandles) s.handles

/-- Conservation for pool `p` in the state `P`. -/
def Balanced (s : Heap) (p : Nat) (P : BufferPool) : Prop :=
  (P.freeList : Multiset BufferPtr) + s.heldFrom p = (P.buffers : Multiset BufferPtr)

/-- The tables are bounded, handles name live pools, only a handle with a pool has a buffer,
and the storage of a pool is its own. -/
structure Tidy (s : Heap) : Prop where
  handles_lt : ∀ h x, s.handles h = some x → h < s.nhandles
  pools_lt : ∀ p P, s.pools p = some P → p < s.npools
  home : ∀ h x p, s.handles h = some x → x.pool = some p → ∃ P, s.pools p = some P
  paired : ∀ h x b, s.handles h = some x → x.buffer = some b → ∃ p, x.pool = some p
  storage : ∀ p P, s.pools p = some P → ∃ n, P.buffers = (List.range n).map (⟨p, ·⟩)

/-- What every operation keeps. -/
structure Inv (s : Heap) : Prop extends Tidy s where
  balanced : ∀ p P, s.pools p = some P → s.Balanced p P

end Heap

theorem holdsFrom_some (p : Nat) (x : PooledBuffer) :
    holdsFrom p (some x) = if x.pool = some p then x.buffer else none := rfl

@[simp] theorem holdsFrom_none (p : Nat) : holdsFrom p none = none := rfl

@[simp] theorem holdsFrom_null (p : Nat) : holdsFrom p (some .null) = none := by
  simp [holdsFrom_some, PooledBuffer.null]

section Tables

variable {s : Heap} {h k p q : Nat}

/-- Overwriting a handle trades what it held for what it holds now. -/
theorem heldFrom_setHandle (hb : h < s.nhandles) (o : Option PooledBuffer) :
    (s.setHandle h o).heldFrom q + optBag (holdsFrom q (s.handles h)) =
      s.heldFrom q + optBag (holdsFrom q o) :=
  bag_update (Finset.mem_range.mpr hb) o

theorem heldFrom_newHandle (x : PooledBuffer) :
    (s.newHandle x).heldFrom q = s.heldFrom q + optBag (holdsFrom q (some x)) :=
  bag_range_succ _

/-- Emptying a handle takes its buffer out of the held ones. -/
theorem heldFrom_empty (hb : h < s.nhandles) {o : Option PooledBuffer}
    (ho : holdsFrom q o = none) :
    (s.setHandle h o).heldFrom q + optBag (holdsFrom q (s.handles h)) = s.heldFrom q := by
  rw [heldFrom_setHandle hb, ho, optBag_none, add_zero]

/-- A move into an empty handle changes the holder and nothing else. -/
theorem heldFrom_move (hh : h < s.nhandles) (hk : k < s.nhandles) (hne : h ≠ k)
    {other : PooledBuffer} (he : s.handles h = some .null) (ho : s.handles k = some other) :
    ((s.setHandle h (some other)).setHandle k (some .null)).heldFrom q = s.heldFrom q := by
  have hput : (s.setHandle h (some other)).heldFrom q =
      s.heldFrom q + optBag (holdsFrom q (some other)) := by
    have hset := heldFrom_setHandle (q := q) hh (some other)
    rw [he, holdsFrom_null, optBag_none, add_zero] at hset
    exact hset
  have htake := heldFrom_empty (s := s.setHandle h (some other)) (q := q) hk
    (holdsFrom_null q)
  have hread : (s.setHandle h (some other)).handles k = some other := by
    simp [Heap.setHandle, Function.update_of_ne (Ne.symm hne), ho]
  rw [hread, hput] at htake
  exact add_right_cancel htake

/-- A move into a new handle changes the holder and nothing else. -/
theorem heldFrom_moveConstruct (hk : k < s.nhandles) {other : PooledBuffer}
    (ho : s.handles k = some other) :
    ((s.newHandle other).setHandle k (some .null)).heldFrom q = s.heldFrom q := by
  have htake := heldFrom_empty (s := s.newHandle other) (q := q) (Nat.lt_succ_of_lt hk)
    (holdsFrom_null q)
  have hread : (s.newHandle other).handles k = some other := by
    simp [Heap.newHandle, Function.update_of_ne (Nat.ne_of_lt hk), ho]
  rw [hread, heldFrom_newHandle] at htake
  exact add_right_cancel htake

end Tables

namespace BufferPool

variable {P P' : BufferPool} {b : BufferPtr}

/-- `acquire` takes the back of the free list and touches nothing else. -/
theorem acquire_eq_some (h : P.acquire = some (b, P')) :
    P.freeList = P'.freeList ++ [b] ∧ P'.buffers = P.buffers := by
  obtain ⟨c, hc, he⟩ := Option.map_eq_some_iff.mp h
  cases he
  exact ⟨(List.dropLast_append_getLast? b hc).symm, rfl⟩

theorem acquire_eq_none_iff : P.acquire = none ↔ P.freeList = [] := by
  simp [acquire]

end BufferPool

namespace Heap.Tidy

variable {s : Heap} {h p : Nat} {x : PooledBuffer} {P Q : BufferPool}

theorem setHandle (ht : s.Tidy) (hb : h < s.nhandles) {o : Option PooledBuffer}
    (ho : ∀ y q, o = some y → y.pool = some q → ∃ Q, s.pools q = some Q)
    (hp : ∀ y b, o = some y → y.buffer = some b → ∃ p, y.pool = some p) :
    (s.setHandle h o).Tidy where
  handles_lt k y hy := by
    rw [setHandle_handles, update_eq_some_iff] at hy
    rcases hy with ⟨rfl, -⟩ | ⟨-, hy⟩
    · exact hb
    · exact ht.handles_lt k y hy
  pools_lt := ht.pools_lt
  home k y q hy hq := by
    rw [setHandle_handles, update_eq_some_iff] at hy
    rcases hy with ⟨-, hy⟩ | ⟨-, hy⟩
    · exact ho y q hy hq
    · exact ht.home k y q hy hq
  paired k y b hy hb := by
    rw [setHandle_handles, update_eq_some_iff] at hy
    rcases hy with ⟨-, hy⟩ | ⟨-, hy⟩
    · exact hp y b hy hb
    · exact ht.paired k y b hy hb
  storage := ht.storage

/-- A handle is emptied. -/
theorem setNull (ht : s.Tidy) (hb : h < s.nhandles) : (s.setHandle h (some .null)).Tidy := by
  apply ht.setHandle hb
  · intro y q hy hq
    cases hy
    cases hq
  · intro y b hy hb
    cases hy
    cases hb

theorem newHandle (ht : s.Tidy) (ho : ∀ q, x.pool = some q → ∃ Q, s.pools q = some Q)
    (hp : ∀ b, x.buffer = some b → ∃ p, x.pool = some p) : (s.newHandle x).Tidy where
  handles_lt k y hy := by
    rw [newHandle_handles, update_eq_some_iff] at hy
    rw [newHandle_nhandles]
    rcases hy with ⟨rfl, -⟩ | ⟨-, hy⟩
    · omega
    · have hlt := ht.handles_lt k y hy
      omega
  pools_lt := ht.pools_lt
  home k y q hy hq := by
    rw [newHandle_handles, update_eq_some_iff] at hy
    rcases hy with ⟨-, hy⟩ | ⟨-, hy⟩
    · cases hy
      exact ho q hq
    · exact ht.home k y q hy hq
  paired k y b hy hb := by
    rw [newHandle_handles, update_eq_some_iff] at hy
    rcases hy with ⟨-, hy⟩ | ⟨-, hy⟩
    · cases hy
      exact hp b hb
    · exact ht.paired k y b hy hb
  storage := ht.storage

/-- A pool changes its free list. -/
theorem setPool (ht : s.Tidy) (hP : s.pools p = some P) (hQ : Q.buffers = P.buffers) :
    (s.setPool p (some Q)).Tidy where
  handles_lt := ht.handles_lt
  pools_lt q R hR := by
    rw [setPool_pools, update_eq_some_iff] at hR
    rcases hR with ⟨rfl, -⟩ | ⟨-, hR⟩
    · exact ht.pools_lt q P hP
    · exact ht.pools_lt q R hR
  home k y q hy hq := by
    obtain ⟨R, hR⟩ := ht.home k y q hy hq
    by_cases hqp : q = p
    · subst hqp
      exact ⟨Q, by simp⟩
    · exact ⟨R, by simp [Function.update_of_ne hqp, hR]⟩
  paired := ht.paired
  storage q R hR := by
    rw [setPool_pools, update_eq_some_iff] at hR
    rcases hR with ⟨rfl, hR⟩ | ⟨-, hR⟩
    · cases hR
      rw [hQ]
      exact ht.storage q P hP
    · exact ht.storage q R hR

end Heap.Tidy

namespace Heap.Inv

variable {s : Heap} {h k p : Nat} {x other : PooledBuffer} {P P' : BufferPool} {b : BufferPtr}

theorem init : Heap.init.Inv where
  handles_lt _ _ hx := by cases hx
  pools_lt _ _ hP := by cases hP
  home _ _ _ hx := by cases hx
  paired _ _ _ hx := by cases hx
  storage _ _ hP := by cases hP
  balanced _ _ hP := by cases hP

/-- Steps that leave the pools and what is held of each as they were. -/
theorem of_held (hi : s.Inv) {s' : Heap} (ht : s'.Tidy) (hp : s'.pools = s.pools)
    (hheld : ∀ q, s'.heldFrom q = s.heldFrom q) : s'.Inv where
  toTidy := ht
  balanced q Q hQ := by
    unfold Balanced
    rw [hheld q]
    rw [hp] at hQ
    exact hi.balanced q Q hQ

/-- A handle that holds nothing can be emptied. -/
theorem setNull (hi : s.Inv) (hx : s.handles h = some x)
    (hf : ∀ q, holdsFrom q (some x) = none) : (s.setHandle h (some .null)).Inv := by
  have hb := hi.handles_lt h x hx
  apply hi.of_held (hi.toTidy.setNull hb) rfl
  intro q
  have hheld := heldFrom_empty (q := q) hb (holdsFrom_null q)
  rw [hx, hf q, optBag_none, add_zero] at hheld
  exact hheld

/-- An empty handle can be destroyed. -/
theorem destroy (hi : s.Inv) (hx : s.handles h = some .null) : (s.setHandle h none).Inv := by
  have hb := hi.handles_lt h _ hx
  apply hi.of_held (hi.toTidy.setHandle hb (by simp) (by simp)) rfl
  intro q
  have hheld := heldFrom_empty (q := q) hb (holdsFrom_none q)
  rw [hx, holdsFrom_null, optBag_none, add_zero] at hheld
  exact hheld

/-- The buffer that a live handle holds goes back to its own pool. -/
theorem giveBack (hi : s.Inv) (hx : s.handles h = some x) (hp : x.pool = some p)
    (hb : x.buffer = some b) (hP : s.pools p = some P) :
    ((s.setPool p (some (P.release b))).setHandle h (some .null)).Inv where
  toTidy := (hi.toTidy.setPool (Q := P.release b) hP rfl).setNull (hi.handles_lt h x hx)
  balanced q Q hQ := by
    rw [setHandle_pools, setPool_pools, update_eq_some_iff] at hQ
    have hheld := heldFrom_empty (s := s.setPool p (some (P.release b))) (q := q)
      (hi.handles_lt h x hx) (holdsFrom_null q)
    change _ + optBag (holdsFrom q (s.handles h)) = s.heldFrom q at hheld
    rw [hx, holdsFrom_some, hp] at hheld
    unfold Balanced
    rcases hQ with ⟨rfl, hQ⟩ | ⟨hq, hQ⟩
    · cases hQ
      rw [if_pos rfl, hb, optBag_some] at hheld
      have hbal := hi.balanced q P hP
      unfold Balanced at hbal
      rw [← hheld] at hbal
      show ((P.freeList ++ [b] : List BufferPtr) : Multiset BufferPtr) + _ = _
      rw [← Multiset.coe_add, add_assoc, add_comm ([b] : Multiset BufferPtr)]
      exact hbal
    · have hne : ¬some p = some q := by
        intro he
        cases he
        exact hq rfl
      rw [if_neg hne, optBag_none, add_zero] at hheld
      rw [hheld]
      exact hi.balanced q Q hQ

/-- `release_if_held` on a live handle goes through a live pool and empties the handle. -/
theorem releaseIfHeld (hi : s.Inv) (hx : s.handles h = some x) :
    ∃ s', s.releaseIfHeld h x = some s' ∧ s'.Inv ∧ s'.nhandles = s.nhandles ∧
      s'.handles = Function.update s.handles h (some .null) := by
  cases hp : x.pool with
  | none =>
    have hf (q : Nat) : holdsFrom q (some x) = none := by simp [holdsFrom_some, hp]
    exact ⟨_, by simp [Heap.releaseIfHeld, hp], hi.setNull hx hf, rfl, rfl⟩
  | some p =>
    cases hb : x.buffer with
    | none =>
      have hf (q : Nat) : holdsFrom q (some x) = none := by simp [holdsFrom_some, hb]
      exact ⟨_, by simp [Heap.releaseIfHeld, hp, hb], hi.setNull hx hf, rfl, rfl⟩
    | some b =>
      obtain ⟨P, hP⟩ := hi.home h x p hx hp
      exact ⟨_, by simp [Heap.releaseIfHeld, hp, hb, hP], hi.giveBack hx hp hb hP, rfl, rfl⟩

/-- A move into an empty handle. -/
theorem moveInto (hi : s.Inv) (hne : h ≠ k) (hx : s.handles h = some .null)
    (ho : s.handles k = some other) :
    ((s.setHandle h (some other)).setHandle k (some .null)).Inv := by
  have hh := hi.handles_lt h _ hx
  have hk := hi.handles_lt k _ ho
  have ht : (s.setHandle h (some other)).Tidy := by
    apply hi.toTidy.setHandle hh
    · intro y q hy hq
      cases hy
      exact hi.home k other q ho hq
    · intro y b hy hb
      cases hy
      exact hi.paired k other b ho hb
  exact hi.of_held (ht.setNull hk) rfl fun q ↦ heldFrom_move hh hk hne hx ho

/-- A move into a new handle. -/
theorem moveConstruct (hi : s.Inv) (ho : s.handles k = some other) :
    ((s.newHandle other).setHandle k (some .null)).Inv := by
  have hk := hi.handles_lt k _ ho
  have ht : (s.newHandle other).Tidy :=
    hi.toTidy.newHandle (fun q hq ↦ hi.home k other q ho hq)
      fun b hb ↦ hi.paired k other b ho hb
  exact hi.of_held (ht.setNull (Nat.lt_succ_of_lt hk)) rfl fun q ↦ heldFrom_moveConstruct hk ho

/-- A buffer leaves the free list and is held by a new handle. -/
theorem acquire (hi : s.Inv) (hP : s.pools p = some P) (ha : P.acquire = some (b, P')) :
    ((s.setPool p (some P')).newHandle ⟨some p, some b⟩).Inv where
  toTidy := by
    apply (hi.toTidy.setPool hP (BufferPool.acquire_eq_some ha).2).newHandle
    · intro q hq
      cases hq
      exact ⟨P', by simp⟩
    · intro c _
      exact ⟨p, rfl⟩
  balanced q Q hQ := by
    rw [newHandle_pools, setPool_pools, update_eq_some_iff] at hQ
    unfold Balanced
    rw [heldFrom_newHandle, holdsFrom_some]
    change _ + (s.heldFrom q + _) = _
    rcases hQ with ⟨rfl, hQ⟩ | ⟨hq, hQ⟩
    · cases hQ
      obtain ⟨hfree, hbuf⟩ := BufferPool.acquire_eq_some ha
      have hbal := hi.balanced q P hP
      unfold Balanced at hbal
      rw [hfree, ← Multiset.coe_add, add_assoc, add_comm ([b] : Multiset BufferPtr)] at hbal
      rw [if_pos rfl, optBag_some, hbuf]
      exact hbal
    · have hne : ¬some p = some q := by
        intro he
        cases he
        exact hq rfl
      rw [if_neg hne, optBag_none, add_zero]
      exact hi.balanced q Q hQ

/-- A new pool has all its buffers on the free list: no handle names it yet. -/
theorem newPool (hi : s.Inv) (count : Nat) :
    Heap.Inv { s with
      npools := s.npools + 1
      pools := Function.update s.pools s.npools (some (.construct s.npools count)) } where
  handles_lt := hi.handles_lt
  pools_lt q Q hQ := by
    rw [update_eq_some_iff] at hQ
    show q < s.npools + 1
    rcases hQ with ⟨rfl, -⟩ | ⟨-, hQ⟩
    · omega
    · have hlt := hi.pools_lt q Q hQ
      omega
  home h x q hx hq := by
    obtain ⟨Q, hQ⟩ := hi.home h x q hx hq
    have hlt := hi.pools_lt q Q hQ
    exact ⟨Q, by simp [Function.update_of_ne (Nat.ne_of_lt hlt), hQ]⟩
  paired := hi.paired
  storage q Q hQ := by
    rw [update_eq_some_iff] at hQ
    rcases hQ with ⟨rfl, hQ⟩ | ⟨-, hQ⟩
    · cases hQ
      exact ⟨count, rfl⟩
    · exact hi.storage q Q hQ
  balanced q Q hQ := by
    rw [update_eq_some_iff] at hQ
    rcases hQ with ⟨rfl, hQ⟩ | ⟨-, hQ⟩
    · cases hQ
      have hzero : s.heldFrom s.npools = 0 := by
        apply Multiset.eq_zero_of_forall_notMem
        intro b hb
        obtain ⟨h, -, hh⟩ := mem_bag.mp hb
        obtain ⟨x, hx, hx'⟩ := Option.bind_eq_some_iff.mp hh
        split at hx'
        · next hq =>
          obtain ⟨Q, hQ⟩ := hi.home h x s.npools hx hq
          exact Nat.lt_irrefl _ (hi.pools_lt _ Q hQ)
        · cases hx'
      show _ + s.heldFrom s.npools = _
      rw [hzero, add_zero]
      rfl
    · exact hi.balanced q Q hQ

/-- A pool that no live handle names can be destroyed. -/
theorem dropPool (hi : s.Inv) (hr : ¬s.Refers p) : (s.setPool p none).Inv where
  handles_lt := hi.handles_lt
  pools_lt q Q hQ := by
    rw [setPool_pools, update_eq_some_iff] at hQ
    rcases hQ with ⟨-, hQ⟩ | ⟨-, hQ⟩
    · cases hQ
    · exact hi.pools_lt q Q hQ
  home h x q hx hq := by
    have hne : q ≠ p := by
      intro he
      subst he
      apply hr
      have hx' : s.handles h = some x := hx
      exact ⟨h, Finset.mem_range.mpr (hi.handles_lt h x hx), by rw [hx']; exact hq⟩
    obtain ⟨Q, hQ⟩ := hi.home h x q hx hq
    exact ⟨Q, by simp [Function.update_of_ne hne, hQ]⟩
  paired := hi.paired
  storage q Q hQ := by
    rw [setPool_pools, update_eq_some_iff] at hQ
    rcases hQ with ⟨-, hQ⟩ | ⟨-, hQ⟩
    · cases hQ
    · exact hi.storage q Q hQ
  balanced q Q hQ := by
    rw [setPool_pools, update_eq_some_iff] at hQ
    rcases hQ with ⟨-, hQ⟩ | ⟨-, hQ⟩
    · cases hQ
    · exact hi.balanced q Q hQ

/-- Every operation keeps the invariant. -/
theorem step (hi : s.Inv) {a : Act} {s' : Heap} (h : Pool.step s a = some s') : s'.Inv := by
  cases a with
  | newPool count =>
    cases h
    exact hi.newPool count
  | dropPool p =>
    obtain ⟨P, -, h⟩ := Option.bind_eq_some_iff.mp h
    split at h
    · cases h
    · next hr =>
      cases h
      exact hi.dropPool hr
  | acquire p =>
    obtain ⟨P, hP, h⟩ := Option.bind_eq_some_iff.mp h
    cases ha : P.acquire with
    | none =>
      simp only [ha] at h
      cases h
      exact hi
    | some r =>
      simp only [ha] at h
      cases h
      exact hi.acquire hP ha
  | moveConstruct k =>
    obtain ⟨other, ho, h⟩ := Option.bind_eq_some_iff.mp h
    cases h
    exact hi.moveConstruct ho
  | moveAssign h' k =>
    obtain ⟨this, ht, h⟩ := Option.bind_eq_some_iff.mp h
    split at h
    · cases h
      exact hi
    · next hne =>
      obtain ⟨s₁, hrel, h⟩ := Option.bind_eq_some_iff.mp h
      obtain ⟨other, ho, h⟩ := Option.bind_eq_some_iff.mp h
      obtain ⟨s₂, hrel', hi₂, -, hh⟩ := hi.releaseIfHeld ht
      cases hrel.symm.trans hrel'
      cases h
      exact hi₂.moveInto hne (by rw [hh, Function.update_self]) ho
  | destroy h' =>
    obtain ⟨this, ht, h⟩ := Option.bind_eq_some_iff.mp h
    obtain ⟨s₁, hrel, h⟩ := Option.bind_eq_some_iff.mp h
    obtain ⟨s₂, hrel', hi₂, -, hh⟩ := hi.releaseIfHeld ht
    cases hrel.symm.trans hrel'
    cases h
    exact hi₂.destroy (by rw [hh, Function.update_self])

end Heap.Inv

/-- Handle `h` is live and holds the buffer `b`. -/
def Heap.Holds (s : Heap) (h : Nat) (b : BufferPtr) : Prop :=
  ∃ x, s.handles h = some x ∧ x.buffer = some b

/-- The objects that an operation names are live; a pool is destroyed only after the
handles that name it. -/
def Heap.Permits (s : Heap) : Act → Prop
  | .newPool _ => True
  | .dropPool p => s.pools p ≠ none ∧ ¬s.Refers p
  | .acquire p => s.pools p ≠ none
  | .moveConstruct k => s.handles k ≠ none
  | .moveAssign h k => s.handles h ≠ none ∧ s.handles k ≠ none
  | .destroy h => s.handles h ≠ none

/-- How the buffers of the live pool `p` are divided. -/
structure Partition (s : Heap) (p : Nat) (P : BufferPool) : Prop where
  /-- The buffers of a pool are told apart. -/
  storage : P.buffers.Nodup
  free : P.freeList.Nodup
  /-- A buffer on the free list belongs to the pool and is in nobody's hands. -/
  unheld : ∀ b ∈ P.freeList, b ∈ P.buffers ∧ ∀ h, ¬s.Holds h b
  /-- Any other buffer of the pool has one holder. -/
  held : ∀ b ∈ P.buffers, b ∉ P.freeList → ∃! h, s.Holds h b
  counts : P.available + s.holders p = P.capacity
  exhausted : P.acquire = none ↔ ∀ b ∈ P.buffers, ∃ h, s.Holds h b

namespace Heap.Inv

variable {s : Heap} {h k p : Nat} {P : BufferPool} {b : BufferPtr}

theorem mem_heldFrom (hi : s.Inv) :
    b ∈ s.heldFrom p ↔ ∃ h x, s.handles h = some x ∧ x.pool = some p ∧ x.buffer = some b := by
  unfold heldFrom
  rw [mem_bag]
  constructor
  · rintro ⟨h, -, hh⟩
    obtain ⟨x, hx, hb⟩ := Option.bind_eq_some_iff.mp hh
    split at hb
    · next hp => exact ⟨h, x, hx, hp, hb⟩
    · cases hb
  · rintro ⟨h, x, hx, hp, hb⟩
    refine ⟨h, Finset.mem_range.mpr (hi.handles_lt h x hx), ?_⟩
    rw [hx, holdsFrom_some, if_pos hp]
    exact hb

theorem buffers_nodup (hi : s.Inv) (hP : s.pools p = some P) : P.buffers.Nodup := by
  obtain ⟨n, hn⟩ := hi.storage p P hP
  rw [hn]
  apply List.nodup_range.map
  intro i j hij
  cases hij
  rfl

/-- A held buffer lies in the storage of the pool that its handle names. -/
theorem home_of_holds (hi : s.Inv) {x : PooledBuffer} (hx : s.handles h = some x)
    (hb : x.buffer = some b) : x.pool = some b.pool ∧ ∃ P, s.pools b.pool = some P ∧
      b ∈ P.buffers := by
  obtain ⟨p, hp⟩ := hi.paired h x b hx hb
  obtain ⟨P, hP⟩ := hi.home h x p hx hp
  have hmem : b ∈ (P.buffers : Multiset BufferPtr) := by
    rw [← hi.balanced p P hP]
    exact Multiset.mem_add.mpr (.inr (hi.mem_heldFrom.mpr ⟨h, x, hx, hp, hb⟩))
  have hpool : b.pool = p := by
    obtain ⟨n, hn⟩ := hi.storage p P hP
    rw [Multiset.mem_coe, hn] at hmem
    obtain ⟨i, -, rfl⟩ := List.mem_map.mp hmem
    rfl
  subst hpool
  exact ⟨hp, P, hP, hmem⟩

/-- No two live handles hold one buffer. -/
theorem holds_unique (hi : s.Inv) (hh : s.Holds h b) (hk : s.Holds k b) : h = k := by
  obtain ⟨x, hx, hxb⟩ := hh
  obtain ⟨y, hy, hyb⟩ := hk
  obtain ⟨hxp, P, hP, -⟩ := hi.home_of_holds hx hxb
  obtain ⟨hyp, -⟩ := hi.home_of_holds hy hyb
  have hn : (s.heldFrom b.pool).Nodup := by
    have hall := Multiset.coe_nodup.mpr (hi.buffers_nodup hP)
    rw [← hi.balanced b.pool P hP] at hall
    exact (Multiset.nodup_add.mp hall).2.1
  apply bag_injective hn (Finset.mem_range.mpr (hi.handles_lt h x hx))
    (Finset.mem_range.mpr (hi.handles_lt k y hy))
  · rw [hx, holdsFrom_some, if_pos hxp, hxb]
  · rw [hy, holdsFrom_some, if_pos hyp, hyb]

/-- The held buffers of a pool, in terms of its handles. -/
theorem mem_heldFrom_iff (hi : s.Inv) (hP : s.pools p = some P) (hb : b ∈ P.buffers) :
    b ∈ s.heldFrom p ↔ ∃ h, s.Holds h b := by
  rw [hi.mem_heldFrom]
  constructor
  · rintro ⟨h, x, hx, -, hxb⟩
    exact ⟨h, x, hx, hxb⟩
  · rintro ⟨h, x, hx, hxb⟩
    obtain ⟨n, hn⟩ := hi.storage p P hP
    rw [hn] at hb
    obtain ⟨i, -, rfl⟩ := List.mem_map.mp hb
    exact ⟨h, x, hx, (hi.home_of_holds hx hxb).1, hxb⟩

/-- The conservation law divides the storage of every live pool. -/
theorem partition (hi : s.Inv) (hP : s.pools p = some P) : Partition s p P := by
  have hbal := hi.balanced p P hP
  have hall := Multiset.coe_nodup.mpr (hi.buffers_nodup hP)
  unfold Balanced at hbal
  rw [← hbal] at hall
  obtain ⟨hfree, -, hdis⟩ := Multiset.nodup_add.mp hall
  have hmem (b : BufferPtr) : b ∈ P.buffers ↔ b ∈ P.freeList ∨ b ∈ s.heldFrom p := by
    rw [← Multiset.mem_coe, ← hbal, Multiset.mem_add, Multiset.mem_coe]
  have hcount : (s.heldFrom p).card = s.holders p := by
    have h := countP_bag (s := Finset.range s.nhandles) (f := s.handles) (t := holdsFrom p)
      (q := fun _ ↦ True) (p := fun o ↦ (holdsFrom p o).isSome = true)
      (fun o ↦ by simp [Option.isSome_iff_exists])
    rw [Multiset.countP_True] at h
    exact h
  refine ⟨hi.buffers_nodup hP, Multiset.coe_nodup.mp hfree, ?_, ?_, ?_, ?_⟩
  · intro b hb
    have hbuf := (hmem b).mpr (.inl hb)
    refine ⟨hbuf, fun h hh ↦ ?_⟩
    have hheld := (hi.mem_heldFrom_iff hP hbuf).mpr ⟨h, hh⟩
    exact Multiset.disjoint_left.mp hdis hb hheld
  · intro b hb hf
    have hheld := ((hmem b).mp hb).resolve_left hf
    obtain ⟨h, hh⟩ := (hi.mem_heldFrom_iff hP hb).mp hheld
    exact ⟨h, hh, fun k hk ↦ hi.holds_unique hk hh⟩
  · have hcard := congrArg Multiset.card hbal
    rw [Multiset.card_add, Multiset.coe_card, Multiset.coe_card, hcount] at hcard
    exact hcard
  · rw [BufferPool.acquire_eq_none_iff]
    constructor
    · intro hnil b hb
      apply (hi.mem_heldFrom_iff hP hb).mp
      apply ((hmem b).mp hb).resolve_left
      simp [hnil]
    · intro hheld
      apply List.eq_nil_iff_forall_not_mem.mpr
      intro b hb
      have hbuf := (hmem b).mpr (.inl hb)
      have hin := (hi.mem_heldFrom_iff hP hbuf).mpr (hheld b hbuf)
      exact Multiset.disjoint_left.mp hdis hb hin

/-- An operation on live objects never goes through a destroyed pool. -/
theorem step_isSome (hi : s.Inv) {a : Act} (ha : s.Permits a) : (Pool.step s a).isSome = true := by
  cases a with
  | newPool count => rfl
  | dropPool p =>
    obtain ⟨P, hP⟩ := Option.ne_none_iff_exists'.mp ha.1
    simp [Pool.step, hP, ha.2]
  | acquire p =>
    obtain ⟨P, hP⟩ := Option.ne_none_iff_exists'.mp ha
    cases hacq : P.acquire <;> simp [Pool.step, hP, hacq]
  | moveConstruct k =>
    obtain ⟨x, hx⟩ := Option.ne_none_iff_exists'.mp ha
    simp [Pool.step, hx]
  | moveAssign h k =>
    obtain ⟨x, hx⟩ := Option.ne_none_iff_exists'.mp ha.1
    obtain ⟨y, hy⟩ := Option.ne_none_iff_exists'.mp ha.2
    obtain ⟨s', hrel, -, -, hh⟩ := hi.releaseIfHeld hx
    by_cases hhk : h = k
    · simp [Pool.step, hhk, hy]
    · have hk : s'.handles k = some y := by
        rw [hh, Function.update_of_ne (Ne.symm hhk)]
        exact hy
      simp [Pool.step, hx, hhk, hrel, hk]
  | destroy h =>
    obtain ⟨x, hx⟩ := Option.ne_none_iff_exists'.mp ha
    obtain ⟨s', hrel, -⟩ := hi.releaseIfHeld hx
    simp [Pool.step, hx, hrel]

end Heap.Inv

/-- In every reachable state the buffers of each live pool are divided between its free list
and its holders, no buffer has two holders, and every operation on live objects is carried
out. -/
theorem buffers_partitioned {s : Heap} (hr : Reach step anyStep .init s) :
    (∀ p P, s.pools p = some P → Partition s p P) ∧
    (∀ h k b, s.Holds h b → s.Holds k b → h = k) ∧
    ∀ a, s.Permits a → (step s a).isSome = true := by
  have hi : s.Inv := hr.invariant .init fun _ _ _ _ hi _ hs ↦ hi.step hs
  exact ⟨fun _ _ hP ↦ hi.partition hP, fun _ _ _ hh hk ↦ hi.holds_unique hh hk,
    fun _ ha ↦ hi.step_isSome ha⟩

/-- A run over two pools: one handle moves over a handle of the other pool, over one of its
own and over itself, and another is destroyed. -/
theorem buffers_partitioned_moves : ∃ s, Reach step anyStep .init s ∧
    (s.pools 0).map (·.available) = some 1 ∧ s.holders 0 = 1 ∧
    (s.pools 1).map (·.available) = some 1 ∧ s.holders 1 = 0 ∧
    ∀ p P, s.pools p = some P → Partition s p P := by
  have hrun : (run step .init [.newPool 2, .newPool 1, .acquire 0, .acquire 0, .acquire 1,
      .acquire 1, .moveAssign 2 0, .moveAssign 2 1, .moveAssign 2 2, .moveConstruct 2,
      .destroy 2, .destroy 0]).any (fun s ↦ (s.pools 0).map (·.available) == some 1 &&
        s.holders 0 == 1 && (s.pools 1).map (·.available) == some 1 && s.holders 1 == 0) =
      true := by decide
  obtain ⟨s, hr, hs⟩ := Reach.exists_of_run hrun
  simp only [Bool.and_eq_true, beq_iff_eq] at hs
  exact ⟨s, hr, hs.1.1.1, hs.1.1.2, hs.1.2, hs.2, (buffers_partitioned hr).1⟩

end DmaAccel.Pool
