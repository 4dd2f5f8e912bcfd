import DmaAccel.Base.RoundRobin

/-!
# Service of queues by calls that may throw

`sendAll` makes the calls of a list of elements one after the other, up to the first that
throws, and `tried` is the part of the list that was called. `serveAll` is the service loop
over live queues: `serveAll_performs` says that with enough fuel it makes the calls of
`items` in order and takes from each queue what it tried of it.
-/

namespace DmaAccel.Base

universe u v w x

variable {κ : Type u} {σ : Type v} {ε : Type w} {φ : Type x}

/-! ### Calls in order -/

/-- The world and the results so far, each with the queue it belongs to. -/
structure Sent (σ : Type v) (φ : Type x) where
  world : σ
  results : List (Nat × φ)

/-- Make the call of one element; a throw carries what had been reached. -/
def send (call : Nat → κ → σ → Except ε φ × σ) (o : Sent σ φ) (it : Nat × κ) :
    Except (ε × Sent σ φ) (Sent σ φ) :=
  match call it.1 it.2 o.world with
  | (.error e, w) => .error (e, { o with world := w })
  | (.ok f, w) => .ok { world := w, results := o.results ++ [(it.1, f)] }

/-- Make the calls in order, up to the first that throws. -/
def sendAll (call : Nat → κ → σ → Except ε φ × σ) :
    List (Nat × κ) → Sent σ φ → Except (ε × Sent σ φ) (Sent σ φ)
  | [], o => .ok o
  | it :: its, o =>
    match send call o it with
    | .error x => .error x
    | .ok o => sendAll call its o

/-- The elements whose call was made, the one that throws included. -/
def tried (call : Nat → κ → σ → Except ε φ × σ) :
    List (Nat × κ) → Sent σ φ → List (Nat × κ)
  | [], _ => []
  | it :: its, o =>
    match send call o it with
    | .error _ => [it]
    | .ok o => it :: tried call its o

section Send

variable {call : Nat → κ → σ → Except ε φ × σ} {a b : List (Nat × κ)} {o o' : Sent σ φ}
  {x : ε × Sent σ φ}

theorem sendAll_append_of_ok (h : sendAll call a o = .ok o') :
    sendAll call (a ++ b) o = sendAll call b o' := by
  induction a generalizing o with
  | nil =>
    cases h
    rfl
  | cons it a ih =>
    simp only [sendAll] at h
    simp only [List.cons_append, sendAll]
    cases hs : send call o it with
    | error y =>
      rw [hs] at h
      cases h
    | ok o₁ =>
      rw [hs] at h
      exact ih h

theorem sendAll_append_of_error (h : sendAll call a o = .error x) :
    sendAll call (a ++ b) o = .error x := by
  induction a generalizing o with
  | nil => cases h
  | cons it a ih =>
    simp only [sendAll] at h
    simp only [List.cons_append, sendAll]
    cases hs : send call o it with
    | error y =>
      rw [hs] at h
      exact h
    | ok o₁ =>
      rw [hs] at h
      exact ih h

theorem tried_append_of_ok (h : sendAll call a o = .ok o') :
    tried call (a ++ b) o = a ++ tried call b o' := by
  induction a generalizing o with
  | nil =>
    cases h
    rfl
  | cons it a ih =>
    simp only [sendAll] at h
    simp only [List.cons_append, tried]
    cases hs : send call o it with
    | error x =>
      rw [hs] at h
      cases h
    | ok o₁ =>
      rw [hs] at h
      exact congrArg (it :: ·) (ih h)

theorem tried_append_of_error (h : sendAll call a o = .error x) :
    tried call (a ++ b) o = tried call a o := by
  induction a generalizing o with
  | nil => cases h
  | cons it a ih =>
    simp only [sendAll] at h
    simp only [List.cons_append, tried]
    cases hs : send call o it with
    | error y => rfl
    | ok o₁ =>
      rw [hs] at h
      exact congrArg (it :: ·) (ih h)

/-- One result for each call that returned. -/
theorem map_fst_results (h : sendAll call a o = .ok o') :
    o'.results.map (·.1) = o.results.map (·.1) ++ a.map (·.1) := by
  induction a generalizing o with
  | nil =>
    cases h
    simp
  | cons it a ih =>
    simp only [sendAll, send] at h
    split at h
    · cases h
    · next o₁ hs =>
      split at hs
      · cases hs
      · cases hs
        rw [ih h]
        simp

/-- A throw comes from one element: those before it returned, those behind it were not
called. -/
theorem sendAll_eq_error {e : ε} (h : sendAll call a o = .error (e, o')) :
    ∃ pre it post o₁, a = pre ++ it :: post ∧ sendAll call pre o = .ok o₁ ∧
      tried call a o = pre ++ [it] ∧ call it.1 it.2 o₁.world = (.error e, o'.world) ∧
      o'.results = o₁.results := by
  induction a generalizing o with
  | nil => cases h
  | cons it a ih =>
    simp only [sendAll] at h
    simp only [tried]
    cases hs : send call o it with
    | error x =>
      rw [hs] at h
      cases h
      simp only [send] at hs
      split at hs
      · next e' w hc =>
        cases hs
        exact ⟨[], it, a, o, rfl, rfl, rfl, hc, rfl⟩
      · cases hs
    | ok o₁ =>
      rw [hs] at h
      obtain ⟨pre, it', post, o₂, rfl, hpre, ht, hc, hr⟩ := ih h
      refine ⟨it :: pre, it', post, o₂, rfl, ?_, ?_, hc, hr⟩
      · simp only [sendAll, hs]
        exact hpre
      · simp only [ht]
        rfl

/-- Where no call throws, all are made. -/
theorem sendAll_of_returns (h : ∀ it ∈ a, ∀ w e, (call it.1 it.2 w).1 ≠ .error e) :
    ∃ o', sendAll call a o = .ok o' := by
  cases hs : sendAll call a o with
  | ok o' => exact ⟨o', rfl⟩
  | error x =>
    obtain ⟨pre, it, post, o₁, rfl, -, -, hc, -⟩ := sendAll_eq_error hs
    exact (h it (by simp) o₁.world x.1 (congrArg Prod.fst hc)).elim

end Send

/-! ### The service loop -/

/-- What is left in the queues, whether the current round has served anything, and the calls
made. -/
structure Served (κ : Type u) (σ : Type v) (φ : Type x) where
  queues : List (List κ)
  progressed : Bool
  sent : Sent σ φ

/-- Serve queue `i`: its first element is taken off before its call is made. -/
def serve (call : Nat → κ → σ → Except ε φ × σ) (st : Served κ σ φ) (i : Nat) :
    Except (ε × Served κ σ φ) (Served κ σ φ) :=
  match st.queues.getD i [] with
  | [] => .ok st
  | c :: rest =>
    match send call st.sent (i, c) with
    | .error x => .error (x.1, { st with queues := st.queues.set i rest, sent := x.2 })
    | .ok o => .ok { queues := st.queues.set i rest, progressed := true, sent := o }

/-- Serve the queues named by `is`. -/
def serveRound (call : Nat → κ → σ → Except ε φ × σ) :
    List Nat → Served κ σ φ → Except (ε × Served κ σ φ) (Served κ σ φ)
  | [], st => .ok st
  | i :: is, st =>
    match serve call st i with
    | .error x => .error x
    | .ok st => serveRound call is st

/-- Rounds over all queues until one serves nothing; `none` when the fuel is used up. -/
def serveAll (call : Nat → κ → σ → Except ε φ × σ) :
    Nat → Served κ σ φ → Option (Except (ε × Served κ σ φ) (Served κ σ φ))
  | 0, _ => none
  | fuel + 1, st =>
    match serveRound call (List.range st.queues.length) { st with progressed := false } with
    | .error x => some (.error x)
    | .ok st => if st.progressed then serveAll call fuel st else some (.ok st)

/-- Each queue of `qs'` is what is left of `qs` when the elements `its` are taken. -/
structure Consumed (qs : List (List κ)) (its : List (Nat × κ)) (qs' : List (List κ)) : Prop where
  length : qs'.length = qs.length
  left : ∀ i, qs'.getD i [] = (qs.getD i []).drop (countOf i its)

/-- The exit `r` of a loop that starts with the queues `qs` and the calls `o` is that of
making the calls of `its` in order. -/
inductive Performs (call : Nat → κ → σ → Except ε φ × σ) (qs : List (List κ)) (o : Sent σ φ)
    (its : List (Nat × κ)) : Except (ε × Served κ σ φ) (Served κ σ φ) → Prop where
  | done {st : Served κ σ φ} : sendAll call its o = .ok st.sent →
      Consumed qs its st.queues → Performs call qs o its (.ok st)
  | threw {e : ε} {st : Served κ σ φ} : sendAll call its o = .error (e, st.sent) →
      Consumed qs (tried call its o) st.queues → Performs call qs o its (.error (e, st))

section Serve

variable {call : Nat → κ → σ → Except ε φ × σ} {st st' : Served κ σ φ} {i : Nat}
  {is : List Nat} {qs qs' qs'' : List (List κ)} {a b : List (Nat × κ)} {o o' : Sent σ φ}

theorem Consumed.refl (qs : List (List κ)) : Consumed qs [] qs := ⟨rfl, fun _ ↦ rfl⟩

theorem Consumed.trans (h : Consumed qs a qs') (h' : Consumed qs' b qs'') :
    Consumed qs (a ++ b) qs'' where
  length := h'.length.trans h.length
  left i := by rw [h'.left, h.left, List.drop_drop, countOf_append]

/-- Taking the first element of queue `i`. -/
theorem Consumed.pop {c : κ} {rest : List κ} (hq : qs.getD i [] = c :: rest) :
    Consumed qs [(i, c)] (qs.set i rest) where
  length := List.length_set
  left j := by
    have hi : i < qs.length := by
      by_contra hge
      rw [List.getD_eq_default _ _ (Nat.le_of_not_lt hge)] at hq
      cases hq
    by_cases hij : i = j
    · subst hij
      have hset : (qs.set i rest).getD i [] = rest := by
        rw [List.getD_eq_getElem _ _ (by rw [List.length_set]; exact hi), List.getElem_set_self]
      rw [hset, hq]
      simp [countOf]
    · have hset : (qs.set i rest).getD j [] = qs.getD j [] := by
        rw [List.getD_eq_getElem?_getD, List.getElem?_set_ne hij, ← List.getD_eq_getElem?_getD]
      rw [hset]
      simp [countOf, hij]

/-- A call that returns, followed by what is performed after it. -/
theorem Performs.cons {c : κ} {rest : List κ} (hq : qs.getD i [] = c :: rest)
    (hs : send call o (i, c) = .ok o') {r : Except (ε × Served κ σ φ) (Served κ σ φ)}
    (hr : Performs call (qs.set i rest) o' a r) : Performs call qs o ((i, c) :: a) r := by
  cases hr with
  | done hsent hcons =>
    apply Performs.done
    · simp only [sendAll, hs]
      exact hsent
    · exact (Consumed.pop hq).trans hcons
  | threw hsent hcons =>
    apply Performs.threw
    · simp only [sendAll, hs]
      exact hsent
    · simp only [tried, hs]
      exact (Consumed.pop hq).trans hcons

/-- What is performed where the calls all return. -/
theorem Performs.of_ok {r : Except (ε × Served κ σ φ) (Served κ σ φ)}
    (h : Performs call qs o a r) (hs : sendAll call a o = .ok o') :
    ∃ st, r = .ok st ∧ st.sent = o' ∧ Consumed qs a st.queues := by
  cases h with
  | done hsent hcons =>
    rw [hs] at hsent
    cases hsent
    exact ⟨_, rfl, rfl, hcons⟩
  | threw hsent hcons =>
    rw [hs] at hsent
    cases hsent

/-- What is performed where one of the calls throws. -/
theorem Performs.of_error {e : ε} {r : Except (ε × Served κ σ φ) (Served κ σ φ)}
    (h : Performs call qs o a r) (hs : sendAll call a o = .error (e, o')) :
    ∃ st, r = .error (e, st) ∧ st.sent = o' ∧ Consumed qs (tried call a o) st.queues := by
  cases h with
  | done hsent hcons =>
    rw [hs] at hsent
    cases hsent
  | threw hsent hcons =>
    rw [hs] at hsent
    cases hsent
    exact ⟨_, rfl, rfl, hcons⟩

/-- What is performed after calls that have all returned. -/
theorem Performs.append (hsent : sendAll call a o = .ok o') (hcons : Consumed qs a qs')
    {r : Except (ε × Served κ σ φ) (Served κ σ φ)} (hr : Performs call qs' o' b r) :
    Performs call qs o (a ++ b) r := by
  cases hr with
  | done hsent' hcons' =>
    exact .done ((sendAll_append_of_ok hsent).trans hsent') (hcons.trans hcons')
  | threw hsent' hcons' =>
    apply Performs.threw ((sendAll_append_of_ok hsent).trans hsent')
    rw [tried_append_of_ok hsent]
    exact hcons.trans hcons'

/-- Heads of queues other than the changed one. -/
theorem heads_set {rest : List κ} (hi : i ∉ is) : heads (qs.set i rest) is = heads qs is := by
  unfold heads
  apply List.filterMap_congr
  intro j hj
  have hij : i ≠ j := fun h ↦ hi (h ▸ hj)
  rw [List.getD_eq_getElem?_getD, List.getElem?_set_ne hij, ← List.getD_eq_getElem?_getD]

/-- A round serves the heads of the queues it visits. -/
theorem serveRound_performs (hn : is.Nodup) (st : Served κ σ φ) :
    Performs call st.queues st.sent (heads st.queues is) (serveRound call is st) := by
  induction is generalizing st with
  | nil => exact .done rfl (.refl _)
  | cons i is ih =>
    obtain ⟨hi, hn⟩ := List.nodup_cons.mp hn
    rw [serveRound]
    cases hq : st.queues.getD i [] with
    | nil =>
      have hserve : serve call st i = .ok st := by simp only [serve, hq]
      have hheads : heads st.queues (i :: is) = heads st.queues is := by
        unfold heads
        rw [List.filterMap_cons_none (by simp only [hq]; rfl)]
      rw [hserve, hheads]
      exact ih hn st
    | cons c rest =>
      have hheads : heads st.queues (i :: is) = (i, c) :: heads st.queues is := by
        unfold heads
        rw [List.filterMap_cons_some (b := (i, c)) (by simp only [hq]; rfl)]
      rw [hheads]
      cases hs : send call st.sent (i, c) with
      | error x =>
        have hserve : serve call st i =
            .error (x.1, { st with queues := st.queues.set i rest, sent := x.2 }) := by
          simp only [serve, hq, hs]
        rw [hserve]
        apply Performs.threw
        · simp only [sendAll, hs]
        · simp only [tried, hs]
          exact .pop hq
      | ok o =>
        have hserve : serve call st i = .ok ⟨st.queues.set i rest, true, o⟩ := by
          simp only [serve, hq, hs]
        rw [hserve]
        apply Performs.cons hq hs
        have hset : heads (st.queues.set i rest) is = heads st.queues is := heads_set hi
        rw [← hset]
        exact ih hn ⟨st.queues.set i rest, true, o⟩

/-- A round has made progress exactly when some queue it visited had an element. -/
theorem progressed_of_serveRound (hn : is.Nodup) (h : serveRound call is st = .ok st') :
    st'.progressed = true ↔ st.progressed = true ∨ heads st.queues is ≠ [] := by
  induction is generalizing st with
  | nil =>
    cases h
    simp [heads]
  | cons i is ih =>
    obtain ⟨hi, hn⟩ := List.nodup_cons.mp hn
    rw [serveRound] at h
    cases hq : st.queues.getD i [] with
    | nil =>
      have hserve : serve call st i = .ok st := by simp only [serve, hq]
      have hheads : heads st.queues (i :: is) = heads st.queues is := by
        unfold heads
        rw [List.filterMap_cons_none (by simp only [hq]; rfl)]
      rw [hserve] at h
      rw [hheads]
      exact ih hn h
    | cons c rest =>
      have hheads : heads st.queues (i :: is) = (i, c) :: heads st.queues is := by
        unfold heads
        rw [List.filterMap_cons_some (b := (i, c)) (by simp only [hq]; rfl)]
      cases hs : send call st.sent (i, c) with
      | error x =>
        simp only [serve, hq, hs] at h
        cases h
      | ok o =>
        simp only [serve, hq, hs] at h
        rw [ih hn h, hheads]
        simp

/-- What one round over all queues leaves are their tails. -/
theorem Consumed.tails (h : Consumed qs (heads qs (List.range qs.length)) qs') :
    qs' = qs.map List.tail := by
  apply List.ext_getElem (by rw [h.length, List.length_map])
  intro i hi hi'
  have hleft := h.left i
  rw [List.getD_eq_getElem _ _ hi] at hleft
  have hlt : i < qs.length := h.length ▸ hi
  rw [hleft, countOf_heads qs List.nodup_range, List.getElem_map, List.getD_eq_getElem _ _ hlt]
  cases qs[i] with
  | nil => simp
  | cons c rest => simp [hlt]

/-- With more fuel than the longest queue has elements, the service loop ends, and what it
has done is to make the calls of `items` in order. -/
theorem serveAll_performs (call : Nat → κ → σ → Except ε φ × σ) (st : Served κ σ φ) {fuel : Nat}
    (hf : longest (st.queues.map List.length) < fuel) :
    ∃ r, serveAll call fuel st = some r ∧
      Performs call st.queues st.sent (items st.queues) r := by
  induction fuel generalizing st with
  | zero => exact absurd hf (Nat.not_lt_zero _)
  | succ fuel ih =>
    have hround : Performs call st.queues st.sent (heads st.queues (List.range st.queues.length))
        (serveRound call (List.range st.queues.length) { st with progressed := false }) :=
      serveRound_performs List.nodup_range { st with progressed := false }
    unfold serveAll
    rw [items_eq]
    cases hr : serveRound call (List.range st.queues.length) { st with progressed := false } with
    | error x =>
      rw [hr] at hround
      cases hround with
      | threw hsent hcons =>
        refine ⟨_, rfl, .threw (sendAll_append_of_error hsent) ?_⟩
        rw [tried_append_of_error hsent]
        exact hcons
    | ok st₁ =>
      rw [hr] at hround
      have hprog := progressed_of_serveRound List.nodup_range hr
      simp only [Bool.false_eq_true, false_or] at hprog
      cases hround with
      | done hsent hcons =>
        have htails := hcons.tails
        simp only at htails ⊢
        split
        · next hp =>
          have hlong : longest (st.queues.map List.length) ≠ 0 := by
            intro hz
            apply hprog.mp hp
            have hnil := items_eq_nil hz
            rw [items_eq] at hnil
            exact (List.append_eq_nil_iff.mp hnil).1
          have hlt : longest (st₁.queues.map List.length) < fuel := by
            rw [htails, longest_tail]
            omega
          obtain ⟨r, hrun, hperf⟩ := ih st₁ hlt
          rw [htails] at hperf hcons
          exact ⟨r, hrun, Performs.append hsent hcons hperf⟩
        · next hp =>
          have hnil : heads st.queues (List.range st.queues.length) = [] := by
            by_contra hne
            exact hp (hprog.mpr hne)
          have hrest : items (st.queues.map List.tail) = [] := by
            apply items_eq_nil
            rw [longest_tail, longest_of_heads hnil]
          rw [hrest, List.append_nil]
          exact ⟨_, rfl, .done hsent hcons⟩

end Serve

/-! ### Loops that leave alike -/

/-- Two loops leave alike: both normally, in states related by `R`, or both by the same
throw, in states related by `S`. -/
inductive Exits {α : Type u} {β : Type v} (R S : α → β → Prop) :
    Except (ε × α) α → Except (ε × β) β → Prop where
  | ok {a : α} {b : β} : R a b → Exits R S (.ok a) (.ok b)
  | error {e : ε} {a : α} {b : β} : S a b → Exits R S (.error (e, a)) (.error (e, b))

section Exits

variable {α : Type u} {β : Type v} {R S : α → β → Prop} {r : Except (ε × α) α}
  {r' : Except (ε × β) β}

theorem Exits.ok_left {a : α} (h : Exits R S (.ok a) r') : ∃ b, r' = .ok b ∧ R a b := by
  cases h with
  | ok hab => exact ⟨_, rfl, hab⟩

theorem Exits.error_left {x : ε × α} (h : Exits R S (.error x) r') :
    ∃ b, r' = .error (x.1, b) ∧ S x.2 b := by
  cases h with
  | error hab => exact ⟨_, rfl, hab⟩

theorem Exits.ok_right {b : β} (h : Exits R S r (.ok b)) : ∃ a, r = .ok a ∧ R a b := by
  cases h with
  | ok hab => exact ⟨_, rfl, hab⟩

theorem Exits.error_right {x : ε × β} (h : Exits R S r (.error x)) :
    ∃ a, r = .error (x.1, a) ∧ S a x.2 := by
  cases h with
  | error hab => exact ⟨_, rfl, hab⟩

end Exits

end DmaAccel.Base
