import Htll.InterposedInvariant

/-!
# Every intercepted mutex is an atomic mutex of its own

The owner of a mutex address is the thread that holds the lock object stored under it. There is at
most one, an action takes or frees at most one mutex, and it is the mutex of the call that the
thread is in. A call returns as its mutex promises, and the function of the lock interface that an
unlock or a wait reaches works on the object that its caller holds.
-/

namespace Htll

open ParkingLock Transition
open TableState (staticMutex)

/-- One member of a family makes a step. -/
def OneMoves {A X : Type*} (r : X → X → Prop) (f g : A → X) : Prop :=
  ∃ a, r (f a) (g a) ∧ ∀ b, b ≠ a → g b = f b

namespace Interposed

variable {T C : Type*} [DecidableEq T] [DecidableEq C] [Fintype T] {s s' : Interposed T C} {t : T}
  {x : InterposedAction T C} {a : Addr} {o : LockObject}

/-- Who owns which mutex. -/
def Owners (s : Interposed T C) (owners : Addr → Option T) : Prop :=
  ∀ t a, s.Owns t a ↔ owners a = some t

omit [DecidableEq T] [DecidableEq C] [Fintype T] in
/-- The owner of a mutex is whoever holds its object. -/
theorem Linked.owns_iff (h : s.Linked) (ho : s.table.table.Holds a o) :
    s.Owns t a ↔ s.locks.holds t o = true := by
  refine ⟨fun ⟨o', ho', hholds⟩ => ?_, fun hholds => ⟨o, ho, hholds⟩⟩
  rwa [(h.sound a).entry.unique.holds ho ho']

omit [DecidableEq T] [DecidableEq C] [Fintype T] in
/-- A mutex has at most one owner. -/
theorem Linked.owner_unique (h : s.Linked) {u : T} (ht : s.Owns t a) (hu : s.Owns u a) : u = t := by
  obtain ⟨o, ho, hholds⟩ := ht
  exact (h.exclusive o).unique u t ((h.owns_iff ho).mp hu) hholds

omit [DecidableEq T] [DecidableEq C] [Fintype T] in
/-- The owners of all mutexes. -/
theorem Linked.exists_owners (h : s.Linked) : ∃ owners, s.Owners owners := by
  have hone : ∀ a, ∃ owner, ∀ t, s.Owns t a ↔ owner = some t := by
    intro a
    by_cases hnone : ∃ t, s.Owns t a
    · obtain ⟨t, ht⟩ := hnone
      refine ⟨some t, fun u => ⟨fun hu => ?_, fun hu => ?_⟩⟩
      · rw [h.owner_unique ht hu]
      · rwa [← Option.some.inj hu]
    · exact ⟨none, fun t => ⟨fun ht => absurd ⟨t, ht⟩ hnone, fun hne => by cases hne⟩⟩
  choose owners howners using hone
  exact ⟨owners, fun t a => howners a t⟩

omit [DecidableEq T] [DecidableEq C] [Fintype T] in
/-- A table that grows under locks that stay changes no owner. -/
theorem Linked.owns_of_grows (h : s.Linked) (h' : s'.Linked)
    (hgrows : s.table.table.Grows s'.table.table) (hholds : s'.locks.holds = s.locks.holds)
    (t : T) (a : Addr) : s'.Owns t a ↔ s.Owns t a := by
  refine ⟨fun ⟨o, ho, hheld⟩ => ?_, fun hbefore => hbefore.mono hgrows (by rw [hholds])⟩
  rw [hholds] at hheld
  obtain ⟨b, hb⟩ := h.stored t o hheld
  obtain ⟨home, hhomed⟩ := h'.homed
  obtain rfl : b = a := hhomed.addr_unique (hgrows.holds hb) ho
  exact ⟨o, hb, hheld⟩

/-- An action changes no owner, or it is an access of a thread to the lock object of the mutex that
it called with. -/
theorem Linked.owns_step (h : s.Linked) (hproper : s.Proper x) (hstep : s.step x = some s') :
    (∀ t a, s'.Owns t a ↔ s.Owns t a) ∨
      ∃ t input c a o, x = .lock (.access t input) ∧ s.call t = some c ∧ c.mutex = some a ∧
        s.table.table.Holds a o ∧ s'.table.table.Holds a o ∧
        Moves (s.locks.view o) (s'.locks.view o) ∧
        ∀ u b, u ≠ t ∨ b ≠ a → (s'.Owns u b ↔ s.Owns u b) := by
  have h' := h.step hproper hstep
  have hacts := (acts_of_step hstep).2
  cases hacts with
  | manage hmanages hidle hs =>
    have hfiles := TableState.files_begin (fun a v hc => by rw [hc] at hmanages; cases hmanages) hs
    exact Or.inl (h.owns_of_grows h' hfiles.grows rfl)
  | lookUp _ _ _ hs =>
    exact Or.inl (h.owns_of_grows h' (TableState.files_begin (by simp) hs).grows rfl)
  | notify _ _ hs => exact Or.inl (h.owns_of_grows h' .refl (State.call_step hs).2.2)
  | table _ hs => exact Or.inl (h.owns_of_grows h' (ProperAt.files h hproper hs).grows rfl)
  | enter _ _ hs hlocks =>
    exact Or.inl (h.owns_of_grows h' (ProperAt.files h hproper hs).grows
      (State.call_step hlocks).2.2)
  | clear hs =>
    exact Or.inl (h.owns_of_grows h'
      (TableState.files_clearSlot (h.sound reusedMutex).slots hproper hs).grows rfl)
  | @lock y locks hpermits hs =>
    rcases State.step_cases hs with ⟨t, c, last, rfl, -⟩ | ⟨t, input, rfl, -, haccess⟩ |
      ⟨t, -, rfl⟩ | ⟨tls, rfl, t, -⟩
    · exact hpermits.elim
    · cases hmutex : (s.locks.point t).mutex with
      | none =>
        refine Or.inl (h.owns_of_grows h' .refl (funext fun u => funext fun o => ?_))
        by_contra hchanges
        have := (State.holds_access h.coherent haccess hchanges).2
        rw [hmutex] at this
        cases this
      | some o =>
        obtain ⟨c, a, hcall, hc, ha⟩ := h.stored_of_mutex hmutex
        refine Or.inr ⟨t, input, c, a, o, rfl, hcall, hc, ha, ha,
          State.step_moves h.coherent hs o, fun u b hb => ?_⟩
        refine exists_congr fun o' => and_congr_right fun ho' => ?_
        obtain ⟨home, hhomed⟩ := h.homed
        have hsame : locks.holds u o' = s.locks.holds u o' := by
          by_contra hchanges
          obtain ⟨hu, hmutex'⟩ := State.holds_access h.coherent haccess hchanges
          rw [hmutex] at hmutex'
          obtain rfl := Option.some.inj hmutex'
          exact hb.elim (absurd hu) (absurd (hhomed.addr_unique ho' ha))
        rw [hsame]
    · exact Or.inl (h.owns_of_grows h' .refl rfl)
    · exact Or.inl (h.owns_of_grows h' .refl rfl)

/-- The intercepted mutexes refine a family of atomic mutexes, one for each address: in every
reachable state each address has at most one owner, and every action takes or frees one mutex,
for the thread that makes it inside a call with this mutex, or leaves all owners alone. -/
theorem interposed_refines_atomic_mutexes (hpath : Path step Proper initial s) :
    ∃ owners, s.Owners owners ∧ ∀ x s', s.Proper x → s.step x = some s' →
      ∃ owners', s'.Owners owners' ∧
        Relation.ReflGen (OneMoves AtomicMutex.Step) owners owners' ∧
        ∀ a, owners' a ≠ owners a → ∃ t input c, x = .lock (.access t input) ∧
          s.call t = some c ∧ c.mutex = some a ∧ (owners a = some t ∨ owners' a = some t) := by
  have h := linked_of_path hpath
  obtain ⟨owners, howners⟩ := h.exists_owners
  refine ⟨owners, howners, fun x s' hproper hstep => ?_⟩
  rcases h.owns_step hproper hstep with hsame | ⟨t, input, c, a, o, rfl, hcall, hc, ho, ho', hmoves,
    hothers⟩
  · exact ⟨owners, fun t a => (hsame t a).trans (howners t a), .refl, fun a hne => absurd rfl hne⟩
  · have h' := h.step hproper hstep
    obtain ⟨owners', howners'⟩ := h'.exists_owners
    have hrest : ∀ b, b ≠ a → owners' b = owners b := by
      intro b hb
      ext u
      exact ((howners' u b).symm.trans (hothers u b (Or.inr hb))).trans (howners u b)
    have hone : Relation.ReflGen AtomicMutex.Step (owners a) (owners' a) :=
      AtomicMutex.refines_moves (h.exclusive o) hmoves
        (fun u => (h.owns_iff ho).symm.trans (howners u a))
        (fun u => (h'.owns_iff ho').symm.trans (howners' u a))
    refine ⟨owners', howners', ?_, fun b hb => ?_⟩
    · rcases (Relation.reflGen_iff ..).mp hone with hsame | hmove
      · have heq : owners' = owners := by
          funext b
          by_cases hb : b = a
          · rw [hb, hsame]
          · exact hrest b hb
        rw [heq]
      · exact .single ⟨a, hmove, hrest⟩
    · obtain rfl : b = a := by
        by_contra hne
        exact hb (hrest b hne)
      refine ⟨t, input, c, rfl, hcall, hc, ?_⟩
      by_contra hneither
      rw [not_or] at hneither
      -- other threads own what they owned, so that the owner changes from or to the thread
      refine hb (Option.ext fun u => ?_)
      by_cases hu : u = t
      · exact ⟨fun hafter => absurd (hu ▸ hafter) hneither.2,
          fun hbefore => absurd (hu ▸ hbefore) hneither.1⟩
      · exact ((howners' u b).symm.trans (hothers u b (Or.inl hu))).trans (howners u b)

/-- A number of accesses of a thread to the table. -/
def tableTurns (t : T) (n : ℕ) : List (InterposedAction T C) := List.replicate n (.table t)

/-- A number of accesses of a thread below the table. -/
def lockTurns (t : T) (n : ℕ) : List (InterposedAction T C) :=
  (Action.turns t n).map .lock

/-- A thread initialises a mutex and locks it. -/
def lockedActions (t : T) (a : Addr) : List (InterposedAction T Unit) :=
  .manage t (.init a) :: tableTurns t 4 ++ .call t (.lock a) :: tableTurns t 3 ++ lockTurns t 2

/-- It is the owner of the mutex then. -/
theorem interposed_refines_atomic_mutexes_locked : ∃ s : Interposed (Fin 2) Unit,
    Path step Proper initial s ∧ ∃ owners, s.Owners owners ∧ owners staticMutex = some 0 := by
  have hrun : ∃ s : Interposed (Fin 2) Unit, Path step Proper initial s ∧ s.Owns 0 staticMutex := by
    refine exists_path_of_execute _ _ (lockedActions 0 staticMutex) _ _ ?_
    decide +kernel
  obtain ⟨s, hpath, howns⟩ := hrun
  obtain ⟨owners, howners, -⟩ := interposed_refines_atomic_mutexes hpath
  exact ⟨s, hpath, owners, howners, (howners 0 staticMutex).mp howns⟩

/-! ## What the calls return and reach -/

omit [DecidableEq T] [DecidableEq C] [Fintype T] in
/-- A thread that is back from a call acted on the object of the mutex of the call. -/
theorem Linked.of_returned (h : s.Linked) {c : Call Addr C} {code : ℤ}
    (hreturned : s.Returned t c code) :
    ∃ o, s.locks.point t = .outside (some (c.map (fun _ => o), code)) ∧
      ∀ a ∈ c.mutex, s.table.table.Holds a o := by
  obtain ⟨hcall, houtside, c', hpoint⟩ := hreturned
  obtain ⟨c₁, o, hc₁, rfl, hstored⟩ :=
    h.working t c' (seeks_of_outside houtside) (by rw [hpoint]; rfl)
  obtain rfl : c₁ = c := Option.some.inj (hc₁.symm.trans hcall)
  exact ⟨o, hpoint, hstored⟩

omit [DecidableEq T] [DecidableEq C] [Fintype T] in
/-- A thread that is back from a call that takes its mutex owns it alone. -/
theorem Linked.owns_of_returned (h : s.Linked) {c : Call Addr C} {code : ℤ}
    (hreturned : s.Returned t c code) (ha : c.acquired code = some a) (u : T) :
    s.Owns u a ↔ u = t := by
  obtain ⟨o, hpoint, hstored⟩ := h.of_returned hreturned
  have hholds : s.locks.holds t o = true :=
    h.promises t _ code hpoint o (by rw [Call.acquired_map, ha]; rfl)
  have howns : s.Owns t a := ⟨o, hstored a (Call.mutex_of_acquired ha), hholds⟩
  exact ⟨h.owner_unique howns, fun hu => hu ▸ howns⟩

omit [DecidableEq T] [DecidableEq C] [Fintype T] in
/-- A thread outside calls is awake. -/
theorem Linked.awake_of_isOutside (h : s.Linked) (houtside : (s.locks.point t).isOutside = true) :
    s.locks.asleep t = none := by
  cases hasleep : s.locks.asleep t with
  | none => rfl
  | some w =>
    cases w with
    | word o =>
      have hmutex := h.coherent.parked t o hasleep
      rw [Point.mutex_of_isOutside houtside] at hmutex
      cases hmutex
    | seq c =>
      obtain ⟨m, abstime, hpoint⟩ := h.coherent.sleeping t c hasleep
      rw [hpoint] at houtside
      cases abstime <;> cases houtside

/-- `ht_lock_get` can always return, and the call goes on with the object that is stored under its
mutex, which its caller holds if it must. -/
theorem Linked.enters (h : s.Linked) (hrunning : s.table.exited = none)
    (hreturns : s.table.returns t = some o) :
    ∃ c a s', s.call t = some c ∧ c.mutex = some a ∧ s.step (.table t) = some s' ∧
      s'.table.table.Holds a o ∧ s'.locks.point t = (c.map fun _ => o).entry ∧
      (c.held ≠ none → s'.locks.holds t o = true) := by
  obtain ⟨a, ha⟩ := TableState.seeks_of_returns hreturns
  obtain ⟨c, hcall, hmutex, hheld⟩ := h.seeking t a ha
  have htable : s.table.point t ≠ .outside := fun houtside => by
    rw [seeks_of_outside houtside] at ha
    cases ha
  have houtside := h.apart t htable
  obtain ⟨table, hs⟩ := TableState.access_of_returns hreturns
  have hproper : s.ProperAt (s.table.point t) := by
    rcases TableState.returns_cases hreturns with ⟨a', i, hp, -⟩ | ⟨a', i, hp⟩ <;>
      exact hp ▸ trivial
  have ho : table.table.Holds a o := TableState.holds_returns (h.sound a) ha hreturns hs
  have hholder : ∀ b ∈ c.held, s.locks.holds t o = true := by
    intro b hb
    obtain rfl : b = a := Option.some.inj ((Call.mutex_of_held hb).symm.trans hmutex)
    obtain ⟨o', ho', hholds⟩ := hheld b hb
    have hsame := (ProperAt.sound h hproper hs b).entry.unique.holds ho
      ((ProperAt.files h hproper hs).grows.holds ho')
    rwa [hsame]
  obtain ⟨locks, hlocks⟩ : ∃ locks, s.locks.step (.call t (c.map fun _ => o)) = some locks := by
    refine State.exists_call_step houtside (h.awake_of_isOutside houtside) fun m hm => ?_
    rw [Call.held_map, Option.mem_def, Option.map_eq_some_iff] at hm
    obtain ⟨b, hb, rfl⟩ := hm
    exact hholder b hb
  obtain ⟨-, hpoint, hholds⟩ := State.call_step hlocks
  refine ⟨c, a, { s with table, locks }, hcall, hmutex, ?_, ho, ?_, fun hne => ?_⟩
  · simp only [Interposed.step, tableAccess, TableState.step, if_pos hrunning, hs, Option.bind_some,
      hreturns, hcall, Interposed.enter, hlocks, Option.map_some]
  · rw [hpoint, Function.update_self]
  · obtain ⟨b, hb⟩ := Option.ne_none_iff_exists'.mp hne
    rw [hholds]
    exact hholder b hb

/-- `EBUSY` is returned over an owner. -/
theorem Linked.owned_of_ebusy (h : s.Linked) {input : Input T}
    (hs : s.step (.lock (.access t input)) = some s')
    (hreturned : s'.Returned t (.trylock a) ebusy) (h' : s'.Linked) : ∃ u, s.Owns u a := by
  obtain ⟨-, hacts⟩ := acts_of_step hs
  obtain ⟨o, hpoint, hstored⟩ := h'.of_returned hreturned
  cases hacts with
  | @lock _ locks _ hlocks =>
    obtain ⟨hasleep, haccess⟩ := Option.ite_none_right_eq_some.mp hlocks
    have hcall : (s.locks.point t).call = some (.trylock o) := by
      rw [← State.call_access haccess, hpoint]
      rfl
    have hp : s.locks.point t = .trylock o := by
      cases hp : s.locks.point t with
      | outside last => simp [State.access, hp] at haccess
      | trylock m =>
        rw [hp] at hcall
        cases hcall
        rfl
      | unlock m after p =>
        rw [hp] at hcall
        rcases after with _ | ⟨c, seq, _ | abstime⟩ <;> cases hcall
      | bind c m abstime p | wait c m seq abstime rt | retake c m abstime code p =>
        rw [hp] at hcall
        cases abstime <;> cases hcall
      | _ =>
        rw [hp] at hcall
        cases hcall
    obtain ⟨u, hu⟩ := State.trylock_ebusy h.coherent (h.exclusive o) haccess hp hpoint
    exact ⟨u, o, hstored a rfl, hu⟩

/-- The intercepted calls do what they promise: a lock, a successful trylock and every return of a
wait leave their caller as the only owner of the mutex, `EBUSY` is returned while somebody owns
it, and a call whose lookup ends is never refused and works on the object of its mutex, which
the caller of an unlock or a wait holds. -/
theorem intercepted_calls_keep_promises (hpath : Path step Proper initial s) :
    (∀ t c code a, s.Returned t c code → c.acquired code = some a →
      ∀ u, s.Owns u a ↔ u = t) ∧
    (∀ t input s' a, s.step (.lock (.access t input)) = some s' →
      s'.Returned t (.trylock a) ebusy → ∃ u, s.Owns u a) ∧
    (s.table.exited = none → ∀ t o, s.table.returns t = some o →
      ∃ c a s', s.call t = some c ∧ c.mutex = some a ∧ s.step (.table t) = some s' ∧
        s'.table.table.Holds a o ∧ s'.locks.point t = (c.map fun _ => o).entry ∧
        (c.held ≠ none → s'.locks.holds t o = true)) := by
  have h := linked_of_path hpath
  refine ⟨fun t c code a hreturned ha => h.owns_of_returned hreturned ha, ?_,
    fun hrunning t o hreturns => h.enters hrunning hreturns⟩
  exact fun t input s' a hs hreturned => h.owned_of_ebusy hs hreturned
    (h.step (x := .lock (.access t input)) trivial hs)

/-- Thread 0 is back from locking a mutex that thread 1 finds busy. -/
theorem intercepted_calls_keep_promises_locked : ∃ s : Interposed (Fin 2) Unit,
    s.Returned 0 (.lock staticMutex) 0 ∧ s.Returned 1 (.trylock staticMutex) ebusy ∧
      ∀ u, s.Owns u staticMutex ↔ u = 0 := by
  have hrun : ∃ s : Interposed (Fin 2) Unit, Path step Proper initial s ∧
      (s.call 0 = some (.lock staticMutex) ∧ s.table.point 0 = .outside ∧
        s.locks.point 0 = .outside (some (.lock 0, 0))) ∧
      s.call 1 = some (.trylock staticMutex) ∧ s.table.point 1 = .outside ∧
        s.locks.point 1 = .outside (some (.trylock 0, ebusy)) := by
    refine exists_path_of_execute _ _ (lockedActions 0 staticMutex ++
      .call 1 (.trylock staticMutex) :: tableTurns 1 3 ++ lockTurns 1 1) _ _ ?_
    decide +kernel
  obtain ⟨s, hpath, ⟨hcall, htable, hpoint⟩, hcall', htable', hpoint'⟩ := hrun
  have hreturned : s.Returned 0 (.lock staticMutex) 0 := ⟨hcall, htable, _, hpoint⟩
  exact ⟨s, hreturned, ⟨hcall', htable', _, hpoint'⟩,
    (intercepted_calls_keep_promises hpath).1 0 _ 0 staticMutex hreturned rfl⟩

end Interposed

end Htll
