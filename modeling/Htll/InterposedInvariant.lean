import Htll.InterposedMoves
import Htll.MachineFlow

/-!
# The table and the locks agree

A thread is at the table or in a function of the lock interface, never in both. While it is in
such a function, the lock object that it works on is stored under the mutex that it called with,
and a lock that somebody holds is in the table. With the invariants of the table and of the locks
this is kept by every action, as long as objects are created for addresses that have none.
-/

namespace Htll

open ParkingLock Transition

section Calls

variable {M N C : Type*} {f : M → N} {c : Call M C}

@[simp] theorem Call.mutex_map : (c.map f).mutex = c.mutex.map f := by cases c <;> rfl

@[simp] theorem Call.held_map : (c.map f).held = c.held.map f := by cases c <;> rfl

@[simp] theorem Call.acquired_map {code : ℤ} :
    (c.map f).acquired code = (c.acquired code).map f := by
  cases c with
  | trylock m =>
    simp only [map, acquired]
    split <;> rfl
  | _ => rfl

/-- The mutex that only its holder may call with is that of the call. -/
theorem Call.mutex_of_held {m : M} (h : c.held = some m) : c.mutex = some m := by
  cases c <;> first | exact h | cases h

/-- So is the mutex that a call leaves its caller with. -/
theorem Call.mutex_of_acquired {m : M} {code : ℤ} (h : c.acquired code = some m) :
    c.mutex = some m := by
  cases c with
  | trylock m' =>
    simp only [acquired] at h
    split at h
    · exact h
    · cases h
  | _ => first | exact h | cases h

/-- The call that a thread is in or back from. -/
def Point.call : Point M C → Option (Call M C)
  | .outside last => last.map Prod.fst
  | .lock m _ => some (.lock m)
  | .trylock m => some (.trylock m)
  | .unlock m .unlock _ => some (.unlock m)
  | .unlock m (.wait c _ abstime) _ | .bind c m abstime _ | .wait c m _ abstime _
  | .retake c m abstime _ _ => some (.waiting c m abstime)
  | .clock c m _ abstime | .reclock c m abstime => some (.timedwait c m abstime)
  | .signalAdd c | .signalWake c => some (.signal c)
  | .broadcastLoad c | .broadcastAdd c _ | .broadcastRequeue c _ => some (.broadcast c)

/-- A call begins at its own points. -/
@[simp] theorem Call.entry_call : c.entry.call = some c := by cases c <;> rfl

/-- A thread inside an operation on a mutex called with that mutex. -/
theorem Point.call_of_mutex {q : Point M C} {m : M} (h : q.mutex = some m) :
    ∃ c, q.call = some c ∧ c.mutex = some m := by
  have hwaiting : ∀ (c : C) abstime, (Call.waiting c m abstime).mutex = some m := by
    intro c abstime
    cases abstime <;> rfl
  cases q with
  | lock m' p | trylock m' | clock c m' seq abstime | reclock c m' abstime =>
    exact ⟨_, rfl, h⟩
  | bind c m' abstime p | wait c m' seq abstime rt | retake c m' abstime code p =>
    obtain rfl := Option.some.inj h
    exact ⟨_, rfl, hwaiting c abstime⟩
  | unlock m' after p =>
    obtain rfl := Option.some.inj h
    rcases after with _ | ⟨c, seq, abstime⟩
    · exact ⟨_, rfl, rfl⟩
    · exact ⟨_, rfl, hwaiting c abstime⟩
  | _ => cases h

/-- A thread outside calls works on no mutex. -/
theorem Point.mutex_of_isOutside {q : Point M C} (h : q.isOutside = true) : q.mutex = none := by
  cases q <;> first | rfl | cases h

/-- The points after a release belong to the same call. -/
theorem After.point_call {m : M} {after : After C} {p : UnlockPoint} :
    (after.point m : Point M C).call = (Point.unlock m after p).call := by
  rcases after with _ | ⟨c, seq, _ | abstime⟩ <;> rfl

end Calls

namespace State

variable {T M C : Type*} [DecidableEq T] [DecidableEq M] [DecidableEq C] [Fintype T]
  {s s' : State T M C} {t : T} {input : Input T}

/-- A thread stays in its call until it is back from it. -/
theorem call_access (h : s.access t input = some s') :
    (s'.point t).call = (s.point t).call := by
  cases hp : s.point t with
  | outside last => simp [access, hp] at h
  | lock m p =>
    rw [lock_access hp h]
    cases (htllMutexLock (s.tls t).curSegmentId input.ticks (s.mutex m) p).2.next <;> rfl
  | trylock m =>
    obtain ⟨code, hpoint⟩ := trylock_access hp h
    rw [hpoint]
    rfl
  | unlock m after p =>
    rw [unlock_access hp h]
    cases (htllMutexUnlock (s.mutex m) p).2.next with
    | none => exact After.point_call
    | some p' => cases after <;> rfl
  | retake c m abstime code p =>
    rw [retake_access hp h]
    cases (retakeMutex (s.mutex m) p).2.next <;> rfl
  | bind c m abstime p =>
    simp only [access, hp] at h
    split at h <;> cases h <;> simp [Point.call]
  | clock c m seq abstime =>
    simp only [access, hp, Option.some.injEq] at h
    subst h
    simp only [goto, Function.update_self, afterClock]
    split <;> rfl
  | wait c m seq abstime rt =>
    rw [wait_access hp h]
    cases abstime <;> rfl
  | reclock | signalAdd | broadcastAdd =>
    simp only [access, hp, Option.some.injEq] at h
    subst h
    simp [Point.call, Call.waiting]
  | broadcastLoad c =>
    simp only [access, hp] at h
    split at h <;> cases h <;> simp [Point.call]
  | signalWake c | broadcastRequeue c m =>
    simp only [access, hp, Option.map_eq_some_iff] at h
    obtain ⟨s₁, -, rfl⟩ := h
    simp [Point.call]

/-- An access to a mutex changes who holds that mutex at most. -/
theorem commit_holds {P : Type*} {m m' : M} {pick : Option T} {embed : P → Point M C}
    {taken failed ended : Point M C} {result : Mutex × Outcome P}
    (h : s.commit t m pick embed taken failed ended result = some s') (hne : m' ≠ m) :
    s'.holds t m' = s.holds t m' := by
  obtain ⟨x, outcome⟩ := result
  cases outcome with
  | free p => cases p <;> cases h <;> simp [hne]
  | wake =>
    simp only [commit, Option.map_eq_some_iff] at h
    obtain ⟨s₁, hwake, rfl⟩ := h
    rcases wake_cases hwake with ⟨w, -, rfl⟩ | ⟨-, rfl⟩ <;> rfl
  | _ => cases h; simp [hne]

/-- An access changes who holds the mutex of its own call at most. -/
theorem holds_access (hcoh : s.Coherent) (h : s.access t input = some s') {u : T} {m : M}
    (hchanges : s'.holds u m ≠ s.holds u m) : u = t ∧ (s.point t).mutex = some m := by
  obtain rfl : u = t := by
    by_contra hu
    exact hchanges (by rw [(frame_access hcoh h).holds u hu])
  refine ⟨rfl, ?_⟩
  by_contra hmutex
  refine hchanges ?_
  cases hp : s.point u with
  | outside last => simp [access, hp] at h
  | lock m' p | trylock m' | unlock m' after p | retake c m' abstime code p =>
    simp only [access, hp] at h
    exact commit_holds h fun heq => hmutex (by rw [hp, heq]; rfl)
  | bind c m' abstime p =>
    simp only [access, hp] at h
    split at h <;> cases h <;> rfl
  | wait c m' seq abstime rt =>
    simp only [access, hp, Option.some.injEq] at h
    subst h
    split <;> rfl
  | clock | reclock | signalAdd | broadcastAdd =>
    simp only [access, hp, Option.some.injEq] at h
    subst h
    rfl
  | broadcastLoad c =>
    simp only [access, hp] at h
    split at h <;> cases h <;> rfl
  | signalWake c =>
    simp only [access, hp, Option.map_eq_some_iff] at h
    obtain ⟨s₁, hwake, rfl⟩ := h
    rcases wake_cases hwake with ⟨w, -, rfl⟩ | ⟨-, rfl⟩ <;> rfl
  | broadcastRequeue c m' =>
    simp only [access, hp, Option.map_eq_some_iff] at h
    obtain ⟨s₁, hrequeue, rfl⟩ := h
    rcases requeue_cases hrequeue with ⟨w, -, rfl⟩ | ⟨-, rfl⟩ <;> rfl

/-- A call begins outside calls and changes nothing but the point of its thread. -/
theorem call_step {c : Call M C} (h : s.step (.call t c) = some s') :
    (s.point t).isOutside = true ∧ s'.point = Function.update s.point t c.entry ∧
      s'.holds = s.holds := by
  simp only [step] at h
  split at h
  · rename_i last hp
    obtain ⟨-, heq⟩ := Option.ite_none_right_eq_some.mp h
    cases heq
    exact ⟨by rw [hp]; rfl, rfl, rfl⟩
  · cases h

/-- A thread outside calls may begin one, with a mutex that it holds if it must. -/
theorem exists_call_step {c : Call M C} (houtside : (s.point t).isOutside = true)
    (hasleep : s.asleep t = none) (hheld : ∀ m ∈ c.held, s.holds t m = true) :
    ∃ s', s.step (.call t c) = some s' := by
  cases hp : s.point t with
  | outside last =>
    have hpossible : s.asleep t = none ∧ ∀ m ∈ c.held, s.holds t m = true := ⟨hasleep, hheld⟩
    simp only [step, hp, if_pos hpossible]
    exact ⟨_, rfl⟩
  | _ =>
    rw [hp] at houtside
    cases houtside

end State

/-- What a growing table holds it goes on holding. -/
theorem LockTable.Grows.holds {table table' : LockTable} (h : table.Grows table') {a : Addr}
    {o : LockObject} (ho : table.Holds a o) : table'.Holds a o := by
  obtain ⟨i, hi⟩ := ho
  refine ⟨i, ?_⟩
  rw [LockTable.entry, h.filled (LockTable.entry_eq_some hi), if_pos rfl]

namespace Interposed

variable {T C : Type*} [DecidableEq T] [DecidableEq C] [Fintype T] {s s' : Interposed T C} {t : T}
  {x : InterposedAction T C}

/-- What every action keeps while objects are only created for addresses that have none. -/
structure Linked (s : Interposed T C) : Prop where
  sound : ∀ a, TableState.Sound s.table a
  homed : ∃ home, TableState.Homed home s.table
  intercepted : ∀ t, (s.table.point t).intercepted = true
  coherent : s.locks.Coherent
  exclusive : ∀ o, Exclusive (s.locks.view o)
  promises : ∀ t, State.KeepsPromise s.locks t
  /-- A thread at the table is in no function of the lock interface. -/
  apart : ∀ t, s.table.point t ≠ .outside → (s.locks.point t).isOutside = true
  /-- A lookup is for a call, and the caller of an unlock or a wait still owns its mutex. -/
  seeking : ∀ t a, (s.table.point t).seeks = some a →
    ∃ c, s.call t = some c ∧ c.mutex = some a ∧ ∀ a ∈ c.held, s.Owns t a
  /-- A function of the lock interface works on the object of the mutex of its call. -/
  working : ∀ t c', (s.table.point t).seeks = none → (s.locks.point t).call = some c' →
    ∃ c o, s.call t = some c ∧ c' = c.map (fun _ => o) ∧ ∀ a ∈ c.mutex, s.table.table.Holds a o
  /-- A lock that is held is in the table. -/
  stored : ∀ t o, s.locks.holds t o = true → ∃ a, s.table.table.Holds a o

/-! ## Actions -/

/-- What an action can be. -/
inductive Acts (s : Interposed T C) : InterposedAction T C → Interposed T C → Prop
  /-- A call that only reaches the table begins. -/
  | manage {t : T} {c : TableCall} {table : TableState T} (hmanages : c.manages = true)
      (hidle : s.Idle t) (hs : s.table.begin t c = some table) :
      Acts s (.manage t c) { s with table }
  /-- `ht_lock_get` begins. -/
  | lookUp {t : T} {c : Call Addr C} {a : Addr} {table : TableState T} (hidle : s.Idle t)
      (hheld : ∀ a ∈ c.held, s.Owns t a) (hmutex : c.mutex = some a)
      (hs : s.table.begin t (.htLockGet a) = some table) :
      Acts s (.call t c) { s with table, call := Function.update s.call t (some c) }
  /-- A signal or a broadcast begins. -/
  | notify {t : T} {c : Call Addr C} {locks : State T LockObject C} (hidle : s.Idle t)
      (hmutex : c.mutex = none) (hs : s.locks.step (.call t (c.map fun _ => 0)) = some locks) :
      Acts s (.call t c) { s with locks, call := Function.update s.call t (some c) }
  /-- An access to the table at which `ht_lock_get` does not return. -/
  | table {t : T} {table : TableState T} (hreturns : s.table.returns t = none ∨ s.call t = none)
      (hs : s.table.access t = some table) : Acts s (.table t) { s with table }
  /-- `ht_lock_get` returns and the call goes on with the object. -/
  | enter {t : T} {c : Call Addr C} {o : LockObject} {table : TableState T}
      {locks : State T LockObject C} (hreturns : s.table.returns t = some o)
      (hcall : s.call t = some c) (hs : s.table.access t = some table)
      (hlocks : s.locks.step (.call t (c.map fun _ => o)) = some locks) :
      Acts s (.table t) { s with table, locks }
  /-- `memset` clears one slot. -/
  | clear {t : T} {b : Fin bucketSize} {i : Fin bucketLength} {table : TableState T}
      (hs : s.table.clear t b i = some table) : Acts s (.clear t b i) { s with table }
  /-- An action below the table. -/
  | lock {x : Action T LockObject C} {locks : State T LockObject C} (hpermits : s.permits x)
      (hs : s.locks.step x = some locks) : Acts s (.lock x) { s with locks }

/-- A call begins with a lookup or, without a mutex, at once. -/
theorem acts_of_begin {c : Call Addr C} (hrunning : s.table.exited = none) (hidle : s.Idle t)
    (hheld : ∀ a ∈ c.held, s.Owns t a) (h : s.begin t c = some s') : Acts s (.call t c) s' := by
  have hlookUp : ∀ a, c.mutex = some a → s.lookUp t c a = some s' → Acts s (.call t c) s' := by
    intro a hmutex h
    simp only [Interposed.lookUp, TableState.step, if_pos hrunning, if_pos hidle.1,
      Option.map_eq_some_iff] at h
    obtain ⟨table, hs, rfl⟩ := h
    exact .lookUp hidle hheld hmutex hs
  cases c with
  | lock a | trylock a | unlock a | wait cond a | timedwait cond a abstime => exact hlookUp a rfl h
  | signal cond | broadcast cond =>
    obtain ⟨locks, hs, rfl⟩ := Option.map_eq_some_iff.mp h
    exact .notify hidle rfl hs

/-- Every action is one of these, in a process that was not terminated. -/
theorem acts_of_step (h : s.step x = some s') : s.table.exited = none ∧ Acts s x s' := by
  obtain ⟨hrunning, h⟩ := Option.ite_none_right_eq_some.mp h
  refine ⟨hrunning, ?_⟩
  cases x with
  | manage t c =>
    obtain ⟨⟨hmanages, hidle⟩, h⟩ := Option.ite_none_right_eq_some.mp h
    simp only [TableState.step, if_pos hrunning, if_pos hidle.1, Option.map_eq_some_iff] at h
    obtain ⟨table, hs, rfl⟩ := h
    exact .manage hmanages hidle hs
  | call t c =>
    obtain ⟨⟨hidle, hheld⟩, h⟩ := Option.ite_none_right_eq_some.mp h
    exact acts_of_begin hrunning hidle hheld h
  | table t =>
    simp only [tableAccess, TableState.step, if_pos hrunning, Option.bind_eq_some_iff] at h
    obtain ⟨table, hs, h⟩ := h
    split at h
    · rename_i o c hreturns hcall
      obtain ⟨locks, hlocks, rfl⟩ := Option.map_eq_some_iff.mp h
      exact .enter hreturns hcall hs hlocks
    · rename_i hnot
      cases h
      refine .table ?_ hs
      cases hreturns : s.table.returns t with
      | none => exact Or.inl rfl
      | some o =>
        refine Or.inr (Option.eq_none_iff_forall_not_mem.mpr fun c hc => ?_)
        exact hnot o c hreturns hc
  | clear t b i =>
    simp only [TableState.step, if_pos hrunning, Option.map_eq_some_iff] at h
    obtain ⟨table, hs, rfl⟩ := h
    exact .clear hs
  | lock x =>
    obtain ⟨hpermits, h⟩ := Option.ite_none_right_eq_some.mp h
    obtain ⟨locks, hs, rfl⟩ := Option.map_eq_some_iff.mp h
    exact .lock hpermits hs

/-! ## Every action keeps the agreement -/

omit [DecidableEq T] [DecidableEq C] [Fintype T] in
/-- Nothing is filed by an action that leaves the table alone. -/
theorem files_refl (table : TableState T) : TableState.Files t table table :=
  .of_same (fun _ _ => rfl) rfl rfl (Or.inr rfl)

omit [DecidableEq T] [DecidableEq C] [Fintype T] in
/-- A thread whose lookup is not over is at the table. -/
theorem seeks_of_outside {table : TableState T} (h : table.point t = .outside) :
    (table.point t).seeks = none := by
  rw [h]
  rfl

omit [DecidableEq T] [DecidableEq C] [Fintype T] in
/-- Whoever owned a mutex still does if the table only grew and the thread kept its locks. -/
theorem Owns.mono (hgrows : s.table.table.Grows s'.table.table)
    (hholds : s'.locks.holds t = s.locks.holds t) {a : Addr} (h : s.Owns t a) : s'.Owns t a := by
  obtain ⟨o, ho, hheld⟩ := h
  exact ⟨o, hgrows.holds ho, by rwa [hholds]⟩

omit [DecidableEq T] [DecidableEq C] [Fintype T] in
/-- A thread inside an operation on a lock object called with a mutex that the object is stored
under. -/
theorem Linked.stored_of_mutex (h : s.Linked) {o : LockObject}
    (hmutex : (s.locks.point t).mutex = some o) :
    ∃ c a, s.call t = some c ∧ c.mutex = some a ∧ s.table.table.Holds a o := by
  obtain ⟨c', hc', hmutex'⟩ := Point.call_of_mutex hmutex
  have houtside : s.table.point t = .outside := by
    by_contra htable
    rw [Point.mutex_of_isOutside (h.apart t htable)] at hmutex
    cases hmutex
  obtain ⟨c, o', hcall, rfl, hholds⟩ := h.working t c' (seeks_of_outside houtside) hc'
  rw [Call.mutex_map] at hmutex'
  obtain ⟨a, ha, rfl⟩ := Option.map_eq_some_iff.mp hmutex'
  exact ⟨c, a, hcall, ha, hholds a ha⟩

omit [DecidableEq C] [Fintype T] in
/-- A move of one thread keeps the agreement if the table and the locks keep theirs and the thread
is where its call and its lookup say. -/
theorem Linked.of_move (h : s.Linked) (t : T) (hfiles : TableState.Files t s.table s'.table)
    (hsound : ∀ a, TableState.Sound s'.table a)
    (hintercepted : (s'.table.point t).intercepted = true) (hcoherent : s'.locks.Coherent)
    (hexclusive : ∀ o, Exclusive (s'.locks.view o))
    (hpromises : ∀ u, State.KeepsPromise s'.locks u)
    (hpoint : ∀ u, u ≠ t → s'.locks.point u = s.locks.point u)
    (hholds : ∀ u o, s'.locks.holds u o ≠ s.locks.holds u o →
      u = t ∧ (s.locks.point t).mutex = some o)
    (hcall : ∀ u, u ≠ t → s'.call u = s.call u)
    (hapart : s'.table.point t ≠ .outside → (s'.locks.point t).isOutside = true)
    (hseeking : ∀ a, (s'.table.point t).seeks = some a →
      ∃ c, s'.call t = some c ∧ c.mutex = some a ∧ ∀ a ∈ c.held, s'.Owns t a)
    (hworking : ∀ c', (s'.table.point t).seeks = none → (s'.locks.point t).call = some c' →
      ∃ c o, s'.call t = some c ∧ c' = c.map (fun _ => o) ∧
        ∀ a ∈ c.mutex, s'.table.table.Holds a o) : s'.Linked where
  sound := hsound
  homed := by
    obtain ⟨home, hhomed⟩ := h.homed
    exact hhomed.step hfiles
  intercepted u := by
    by_cases hu : u = t
    · exact hu ▸ hintercepted
    · rw [hfiles.others u hu]
      exact h.intercepted u
  coherent := hcoherent
  exclusive := hexclusive
  promises := hpromises
  apart u hu := by
    by_cases hut : u = t
    · exact hut ▸ hapart (hut ▸ hu)
    · rw [hfiles.others u hut] at hu
      rw [hpoint u hut]
      exact h.apart u hu
  seeking u a hu := by
    by_cases hut : u = t
    · exact hut ▸ hseeking a (hut ▸ hu)
    · rw [hfiles.others u hut] at hu
      obtain ⟨c, hc, hmutex, hheld⟩ := h.seeking u a hu
      refine ⟨c, (hcall u hut).trans hc, hmutex, fun a' ha' => ?_⟩
      refine (hheld a' ha').mono hfiles.grows (funext fun o => ?_)
      by_contra hchanges
      exact hut (hholds u o hchanges).1
  working u c' hseeks hc' := by
    by_cases hut : u = t
    · exact hut ▸ hworking c' (hut ▸ hseeks) (hut ▸ hc')
    · rw [hfiles.others u hut] at hseeks
      rw [hpoint u hut] at hc'
      obtain ⟨c, o, hc, heq, hstored⟩ := h.working u c' hseeks hc'
      exact ⟨c, o, (hcall u hut).trans hc, heq, fun a ha => hfiles.grows.holds (hstored a ha)⟩
  stored u o hu := by
    by_cases hsame : s'.locks.holds u o = s.locks.holds u o
    · obtain ⟨a, ha⟩ := h.stored u o (hsame ▸ hu)
      exact ⟨a, hfiles.grows.holds ha⟩
    · obtain ⟨rfl, hmutex⟩ := hholds u o hsame
      obtain ⟨c, a, -, -, ha⟩ := h.stored_of_mutex hmutex
      exact ⟨a, hfiles.grows.holds ha⟩

omit [DecidableEq C] [Fintype T] in
/-- A step of the table alone keeps the agreement if the thread goes on with the same lookup. -/
theorem Linked.of_table (h : s.Linked) {table : TableState T}
    (hfiles : TableState.Files t s.table table) (hsound : ∀ a, TableState.Sound table a)
    (hintercepted : (table.point t).intercepted = true)
    (hseeks : (table.point t).seeks = (s.table.point t).seeks)
    (hapart : table.point t ≠ .outside → (s.locks.point t).isOutside = true) :
    ({ s with table } : Interposed T C).Linked := by
  refine h.of_move t hfiles hsound hintercepted h.coherent h.exclusive h.promises (fun _ _ => rfl)
    (fun _ _ hchanges => absurd rfl hchanges) (fun _ _ => rfl) hapart (fun a ha => ?_)
    fun c' hnone hc' => ?_
  · obtain ⟨c, hc, hmutex, hheld⟩ := h.seeking t a (hseeks ▸ ha)
    exact ⟨c, hc, hmutex, fun a' ha' => (hheld a' ha').mono hfiles.grows (by rfl)⟩
  · obtain ⟨c, o, hc, heq, hstored⟩ := h.working t c' (hseeks ▸ hnone) hc'
    exact ⟨c, o, hc, heq, fun a ha => hfiles.grows.holds (hstored a ha)⟩

/-- A step of the locks alone keeps the agreement if the thread stays in its call or begins one
that needs no object. -/
theorem Linked.of_locks (h : s.Linked) (t : T) {a : Action T LockObject C}
    {locks : State T LockObject C} {call : T → Option (Call Addr C)}
    (hs : s.locks.step a = some locks)
    (hpoint : ∀ u, u ≠ t → locks.point u = s.locks.point u)
    (hholds : ∀ u o, locks.holds u o ≠ s.locks.holds u o →
      u = t ∧ (s.locks.point t).mutex = some o)
    (hcall : ∀ u, u ≠ t → call u = s.call u)
    (hapart : s.table.point t ≠ .outside → (locks.point t).isOutside = true)
    (hseeking : s.table.point t ≠ .outside → call t = s.call t)
    (hworking : ∀ c', (s.table.point t).seeks = none → (locks.point t).call = some c' →
      ∃ c o, call t = some c ∧ c' = c.map (fun _ => o) ∧
        ∀ a ∈ c.mutex, s.table.table.Holds a o) :
    ({ s with locks, call } : Interposed T C).Linked := by
  refine h.of_move t (files_refl s.table) h.sound (h.intercepted t) (h.coherent.step hs)
    (fun o => (h.exclusive o).moves (State.step_moves h.coherent hs o))
    (State.keepsPromise_step h.coherent h.promises hs) hpoint hholds hcall hapart ?_ hworking
  intro a ha
  have htable : s.table.point t ≠ .outside := fun houtside => by
    rw [seeks_of_outside houtside] at ha
    cases ha
  obtain ⟨c, hc, hmutex, hheld⟩ := h.seeking t a ha
  refine ⟨c, (hseeking htable).trans hc, hmutex, fun a' ha' => ?_⟩
  -- a thread at the table is outside the locks and holds what it held
  have hkept : locks.holds t = s.locks.holds t := by
    funext o
    by_contra hchanges
    have hinside := (hholds t o hchanges).2
    rw [Point.mutex_of_isOutside (h.apart t htable)] at hinside
    cases hinside
  obtain ⟨o, ho, hheld'⟩ := hheld a' ha'
  exact ⟨o, ho, (congrFun hkept o).trans hheld'⟩

/-! ## Every step -/

omit [DecidableEq C] [Fintype T] in
/-- A condition of the client makes an access orderly for every address. -/
theorem ProperAt.sound (h : s.Linked) (hproper : s.ProperAt (s.table.point t))
    {table : TableState T} (hs : s.table.access t = some table) (a : Addr) :
    TableState.Sound table a := by
  refine (h.sound a).access (fun hcreates => ?_) ?_ hs
  · cases hp : s.table.point t <;> rw [hp] at hcreates hproper <;> cases hcreates
    exact hproper
  · cases hp : s.table.point t with
    | initClear rwlock cleared =>
      rw [hp] at hproper
      intro b i hmem
      have hkey := hproper b i hmem
      exact ⟨fun heq => a.2 (heq.symm.trans hkey), fun _ => hkey⟩
    | _ => exact trivial

omit [DecidableEq C] [Fintype T] in
/-- It makes `memset` leave everything in use alone. -/
theorem ProperAt.files (h : s.Linked) (hproper : s.ProperAt (s.table.point t))
    {table : TableState T} (hs : s.table.access t = some table) :
    TableState.Files t s.table table := by
  refine TableState.files_access (h.sound reusedMutex).slots (h.intercepted t) ?_ hs
  intro rwlock cleared hp b i hmem
  rw [hp] at hproper
  exact hproper b i hmem

omit [DecidableEq C] [Fintype T] in
/-- A call that only reaches the table looks nothing up for the locks. -/
theorem begin_manages {c : TableCall} (hmanages : c.manages = true)
    (hpoint : s.table.point t = .outside) {table : TableState T}
    (hs : s.table.begin t c = some table) :
    (table.point t).seeks = none ∧ (table.point t).intercepted = true := by
  cases c with
  | init a | rwlockInit a | interposeInit =>
    cases hs
    simp [TablePoint.seeks, TablePoint.intercepted]
  | destroy a =>
    cases hs
    simp [hpoint, TablePoint.seeks, TablePoint.intercepted]
  | _ => cases hmanages

/-- A thread that hands its object over is at the table no more. -/
theorem Linked.enter (h : s.Linked) (hproper : s.ProperAt (s.table.point t)) {c : Call Addr C}
    {o : LockObject} {table : TableState T} {locks : State T LockObject C}
    (hreturns : s.table.returns t = some o) (hcall : s.call t = some c)
    (hs : s.table.access t = some table)
    (hlocks : s.locks.step (.call t (c.map fun _ => o)) = some locks) :
    ({ s with table, locks } : Interposed T C).Linked := by
  have hcontinues := TableState.continues_access (h.intercepted t) hs
  have houtside : table.point t = .outside := hcontinues.outside (by simp [hreturns])
  have hfiles := ProperAt.files h hproper hs
  refine h.of_move t hfiles (ProperAt.sound h hproper hs) hcontinues.intercepted
    (h.coherent.step hlocks)
    (fun o => (h.exclusive o).moves (State.step_moves h.coherent hlocks o))
    (State.keepsPromise_step h.coherent h.promises hlocks) ?_ ?_ (fun _ _ => rfl)
    (fun hne => absurd houtside hne) (fun a ha => ?_) fun c' _ hc' => ?_
  · intro u hu
    rw [(State.call_step hlocks).2.1, Function.update_of_ne hu]
  · intro u o hchanges
    exact absurd (by rw [(State.call_step hlocks).2.2]) hchanges
  · rw [seeks_of_outside houtside] at ha
    cases ha
  · rw [(State.call_step hlocks).2.1, Function.update_self, Call.entry_call] at hc'
    cases hc'
    refine ⟨c, o, hcall, rfl, fun a ha => ?_⟩
    -- the object was returned for the mutex of the call
    obtain ⟨a', ha'⟩ := TableState.seeks_of_returns hreturns
    obtain ⟨c', hc', hmutex, -⟩ := h.seeking t a' ha'
    obtain rfl : c' = c := Option.some.inj (hc'.symm.trans hcall)
    obtain rfl : a' = a := Option.some.inj (hmutex.symm.trans ha)
    exact TableState.holds_returns (h.sound a') ha' hreturns hs

/-- An action below the table keeps the agreement. -/
theorem Linked.lock (h : s.Linked) {a : Action T LockObject C} {locks : State T LockObject C}
    (hpermits : s.permits a) (hs : s.locks.step a = some locks) :
    ({ s with locks } : Interposed T C).Linked := by
  have hstays : ∀ t : T, locks.point = s.locks.point → locks.holds = s.locks.holds →
      ({ s with locks } : Interposed T C).Linked := by
    intro t hpoint hholds
    refine h.of_locks t hs (fun u _ => by rw [hpoint])
      (fun u o hchanges => absurd (by rw [hholds]) hchanges) (fun _ _ => rfl) ?_ (fun _ => rfl) ?_
    · rw [hpoint]
      exact h.apart t
    · rw [hpoint]
      exact h.working t
  rcases State.step_cases hs with ⟨t, c, last, rfl, -⟩ | ⟨t, input, rfl, hasleep, haccess⟩ |
    ⟨t, -, rfl⟩ | ⟨tls, rfl, t, -⟩
  · exact hpermits.elim
  · have hframe := State.frame_access h.coherent haccess
    refine h.of_locks t hs hframe.point (fun u o => State.holds_access h.coherent haccess)
      (fun _ _ => rfl) (fun htable => ?_) (fun _ => rfl) fun c' hnone hc' => ?_
    · have houtside := h.apart t htable
      cases hp : s.locks.point t with
      | outside last => simp [State.access, hp] at haccess
      | _ =>
        rw [hp] at houtside
        cases houtside
    · exact h.working t c' hnone ((State.call_access haccess).symm.trans hc')
  · exact hstays t rfl rfl
  · exact hstays t rfl rfl

/-- So does everything that an action can be. -/
theorem Linked.of_acts (h : s.Linked) (hproper : s.Proper x) (hacts : Acts s x s') :
    s'.Linked := by
  cases hacts with
  | @manage t c table hmanages hidle hs =>
    obtain ⟨hseeks, hintercepted⟩ := begin_manages hmanages hidle.1 hs
    have hput : ∀ a v, c ≠ .hashPut a v := fun a v hc => by
      rw [hc] at hmanages
      cases hmanages
    refine h.of_table (TableState.files_begin hput hs) (fun a => ?_) hintercepted ?_
      fun _ => hidle.2
    · exact (h.sound a).begin (fun a' v hc => absurd hc (hput a' v)) hs
    · rw [hseeks, seeks_of_outside hidle.1]
  | @lookUp t c a table hidle hheld hmutex hs =>
    have hfiles : TableState.Files t s.table table := TableState.files_begin (by simp) hs
    have hsound : ∀ a', TableState.Sound table a' := fun a' =>
      (h.sound a').begin (fun _ _ hc => by cases hc) hs
    cases hs
    refine h.of_move t hfiles hsound ?_ h.coherent h.exclusive h.promises (fun _ _ => rfl)
      (fun _ _ hchanges => absurd rfl hchanges) (fun u hu => Function.update_of_ne hu _ _)
      (fun _ => hidle.2) (fun a' ha' => ?_) fun c' hnone _ => ?_
    · simp [TablePoint.intercepted]
    · obtain rfl : a = a' := by simpa [TablePoint.seeks] using ha'
      exact ⟨c, Function.update_self .., hmutex, fun a'' ha'' => hheld a'' ha''⟩
    · simp [TablePoint.seeks] at hnone
  | @notify t c locks hidle hmutex hs =>
    obtain ⟨-, hpoint, hholds⟩ := State.call_step hs
    refine h.of_locks t hs (fun u hu => by rw [hpoint, Function.update_of_ne hu])
      (fun u o hchanges => absurd (by rw [hholds]) hchanges)
      (fun u hu => Function.update_of_ne hu _ _) (fun hne => absurd hidle.1 hne)
      (fun hne => absurd hidle.1 hne) fun c' _ hc' => ?_
    rw [hpoint, Function.update_self, Call.entry_call] at hc'
    cases hc'
    refine ⟨c, 0, Function.update_self .., rfl, fun a ha => ?_⟩
    rw [hmutex] at ha
    cases ha
  | @table t table hreturns hs =>
    have hcontinues := TableState.continues_access (h.intercepted t) hs
    have hnone : s.table.returns t = none := by
      cases ho : s.table.returns t with
      | none => rfl
      | some o =>
        obtain ⟨a, ha⟩ := TableState.seeks_of_returns ho
        obtain ⟨c, hc, -⟩ := h.seeking t a ha
        rcases hreturns with hnone | hnone
        · exact ho.symm.trans hnone
        · rw [hnone] at hc
          cases hc
    refine h.of_table (ProperAt.files h hproper hs) (ProperAt.sound h hproper hs)
      hcontinues.intercepted (hcontinues.seeks hnone) fun _ => h.apart t fun houtside => ?_
    simp [TableState.access, houtside] at hs
  | enter hreturns hcall hs hlocks => exact h.enter hproper hreturns hcall hs hlocks
  | @clear t b i table hs =>
    have hkey : (s.table.table b i).key = 0 := hproper
    have hfiles := TableState.files_clearSlot (h.sound reusedMutex).slots hkey hs
    have hsound : ∀ a, TableState.Sound table a := fun a =>
      (h.sound a).clear ⟨fun heq => a.2 (heq.symm.trans hkey), fun _ => hkey⟩ hs
    obtain ⟨rwlock, cleared, cleared', hp, hp'⟩ := TableState.clear_point hs
    refine h.of_table hfiles hsound (by rw [hp']; rfl) (by rw [hp, hp']; rfl) fun _ => ?_
    exact h.apart t (by rw [hp]; simp)
  | @lock a locks hpermits hs => exact h.lock hpermits hs

/-- Every action keeps the agreement, as long as objects are created for addresses that have none
and `memset` finds unused slots. -/
theorem Linked.step (h : s.Linked) (hproper : s.Proper x) (hs : s.step x = some s') :
    s'.Linked :=
  h.of_acts hproper (acts_of_step hs).2

omit [DecidableEq T] [DecidableEq C] [Fintype T] in
/-- A process begins in agreement. -/
theorem linked_initial : (initial : Interposed T C).Linked where
  sound _ := TableState.sound_initial
  homed := by
    have hnone : ∀ a o, ¬(TableState.initial : TableState T).table.Holds a o := by
      rintro a o ⟨i, hi⟩
      rw [LockTable.entry_eq_none_iff.mpr fun heq => a.2 heq.symm] at hi
      cases hi
    exact ⟨fun _ => reusedMutex, fun a o ho => absurd ho (hnone a o), fun _ _ _ hv => by cases hv⟩
  intercepted _ := rfl
  coherent := State.initial_started.coherent
  exclusive := State.initial_started.exclusive
  promises _ _ _ hpoint := by cases hpoint
  apart _ _ := rfl
  seeking _ _ hseeks := by cases hseeks
  working _ _ _ hcall := by cases hcall
  stored _ _ hholds := by cases hholds

/-- The agreement holds in every run. -/
theorem linked_of_path (hpath : Path step Proper initial s) : s.Linked :=
  Path.invariant Linked (fun _ _ _ hproper hs h => h.step hproper hs) hpath linked_initial

end Interposed

end Htll
