import Htll.FirstUse
import Htll.MutualExclusion

/-!
# The intercepted functions on top of the locks

`pthread_mutex_lock` and its companions ask `ht_lock_get` for the lock object of a mutex address
and go on with a function of the lock interface on that object. Here both run together: a thread
makes its accesses to the table, the access at which `ht_lock_get` returns hands the object over,
and the accesses that follow are those of the function. A signal or a broadcast does not look
anything up. The rwlock functions but for `pthread_rwlock_init` have the text of their mutex
counterparts, so they are the same calls.

A client unlocks a mutex, or waits with it, only while it holds the object stored under it.
-/

namespace Htll

open Transition

section Calls

variable {M N C : Type*}

/-- The same call with another mutex. -/
def Call.map (f : M → N) : Call M C → Call N C
  | .lock m => .lock (f m)
  | .trylock m => .trylock (f m)
  | .unlock m => .unlock (f m)
  | .wait c m => .wait c (f m)
  | .timedwait c m abstime => .timedwait c (f m) abstime
  | .signal c => .signal c
  | .broadcast c => .broadcast c

/-- The mutex that a call is made with. -/
def Call.mutex : Call M C → Option M
  | .lock m | .trylock m | .unlock m | .wait _ m | .timedwait _ m _ => some m
  | .signal _ | .broadcast _ => none

/-- The thread is in no call. -/
def Point.isOutside : Point M C → Bool
  | .outside _ => true
  | _ => false

end Calls

/-- The calls that only reach the table: `pthread_mutex_init`, the two destroy functions,
`pthread_rwlock_init` and the constructor. -/
def TableCall.manages : TableCall → Bool
  | .init _ | .destroy _ | .rwlockInit _ | .interposeInit => true
  | .hashGet _ | .hashPut _ _ | .htLockGet _ | .lock _ | .trylock _ | .unlock _ => false

/-- The object that the next access of a thread makes `ht_lock_get` return. -/
def TableState.returns {T : Type*} (s : TableState T) (t : T) : Option LockObject :=
  match s.point t with
  | .result a .htLockGet i => (s.table a.bucket i).value
  | .store _ v (.use .htLockGet) _ => some v
  | _ => none

/-- One action of a process whose mutexes are intercepted. -/
inductive InterposedAction (T C : Type*) where
  /-- A call that only reaches the table begins. -/
  | manage (t : T) (c : TableCall)
  /-- A call with a mutex or a condition variable begins. -/
  | call (t : T) (c : Call Addr C)
  /-- The next access of a thread to the table. -/
  | table (t : T)
  /-- `memset` clears one slot. -/
  | clear (t : T) (b : Fin bucketSize) (i : Fin bucketLength)
  /-- An access below the table, the end of a sleep or a call of the segment interface. -/
  | lock (x : Action T LockObject C)

/-- The table, the locks, and the latest call of each thread. -/
structure Interposed (T C : Type*) where
  table : TableState T
  locks : State T LockObject C
  call : T → Option (Call Addr C)

namespace Interposed

variable {T C : Type*} [DecidableEq T] [DecidableEq C]

/-- Nothing called, every thread outside segments. -/
def initial : Interposed T C where
  table := TableState.initial
  locks := State.initial fun _ => htllThreadStart Tls.zero
  call := fun _ => none

/-- The thread is in no call. -/
def Idle (s : Interposed T C) (t : T) : Prop :=
  s.table.point t = .outside ∧ (s.locks.point t).isOutside = true

instance (s : Interposed T C) (t : T) : Decidable (s.Idle t) :=
  inferInstanceAs (Decidable (_ ∧ _))

/-- The thread holds an object that is stored under an address. -/
def Owns (s : Interposed T C) (t : T) (a : Addr) : Prop :=
  ∃ o, s.table.table.Holds a o ∧ s.locks.holds t o = true

instance (s : Interposed T C) (t : T) (a : Addr) : Decidable (s.Owns t a) :=
  decidable_of_iff (∃ i, (s.table.table.entry a i).join.any (s.locks.holds t) = true) <| by
    simp only [Option.any_eq_true, Option.join_eq_some_iff, Owns, LockTable.Holds]
    exact ⟨fun ⟨i, o, hi, ho⟩ => ⟨o, ⟨i, hi⟩, ho⟩, fun ⟨o, ⟨i, hi⟩, ho⟩ => ⟨i, o, hi, ho⟩⟩

instance (s : Interposed T C) (t : T) (c : Call Addr C) :
    Decidable (∀ a ∈ c.held, s.Owns t a) :=
  decidable_of_iff (c.held.all (s.Owns t ·) = true) <| by simp [Option.all_eq_true]

variable [Fintype T]

/-- `ht_lock_get` begins for the mutex of a call. -/
def lookUp (s : Interposed T C) (t : T) (c : Call Addr C) (a : Addr) :
    Option (Interposed T C) :=
  (s.table.step (.call t (.htLockGet a))).map fun table =>
    { s with table, call := Function.update s.call t (some c) }

/-- A function of the lock interface begins. -/
def enter (s : Interposed T C) (t : T) (c : Call LockObject C) : Option (Interposed T C) :=
  (s.locks.step (.call t c)).map fun locks => { s with locks }

/-- A call begins: those with a mutex look it up. -/
def begin (s : Interposed T C) (t : T) (c : Call Addr C) : Option (Interposed T C) :=
  match c with
  | .lock a | .trylock a | .unlock a | .wait _ a | .timedwait _ a _ => s.lookUp t c a
  | .signal cond => { s with call := Function.update s.call t (some c) }.enter t (.signal cond)
  | .broadcast cond =>
    { s with call := Function.update s.call t (some c) }.enter t (.broadcast cond)

/-- The next access of a thread to the table. When it makes `ht_lock_get` return, the call that
looked the mutex up goes on with the object. -/
def tableAccess (s : Interposed T C) (t : T) : Option (Interposed T C) :=
  (s.table.step (.access t)).bind fun table =>
    match s.table.returns t, s.call t with
    | some o, some c => { s with table }.enter t (c.map fun _ => o)
    | _, _ => some { s with table }

/-- The actions of the locks that are possible on their own: calls begin above, and a thread that
looks a mutex up is in no segment call. -/
def permits (s : Interposed T C) : Action T LockObject C → Prop
  | .call .. => False
  | .access .. | .unpark _ => True
  | .segmentStart t .. | .segmentEnd t .. => s.table.point t = .outside

instance (s : Interposed T C) : DecidablePred s.permits
  | .call .. => .isFalse id
  | .access .. | .unpark _ => .isTrue trivial
  | .segmentStart t .. | .segmentEnd t .. =>
    inferInstanceAs (Decidable (s.table.point t = .outside))

/-- One action, if it is possible in this state; a terminated process makes no step. -/
def step (s : Interposed T C) (x : InterposedAction T C) : Option (Interposed T C) :=
  if s.table.exited = none then
    match x with
    | .manage t c =>
      if c.manages = true ∧ s.Idle t then
        (s.table.step (.call t c)).map fun table => { s with table }
      else none
    | .call t c => if s.Idle t ∧ ∀ a ∈ c.held, s.Owns t a then s.begin t c else none
    | .table t => s.tableAccess t
    | .clear t b i => (s.table.step (.clear t b i)).map fun table => { s with table }
    | .lock x => if s.permits x then (s.locks.step x).map fun locks => { s with locks } else none
  else none

/-! ## The condition on the client -/

/-- A lock object is created for an address that has none, and `memset` finds the rest of the table
unused. -/
def ProperAt (s : Interposed T C) : TablePoint → Prop
  | .create a _ => s.table.Uncreated a
  | .initClear _ cleared => ∀ b i, (b, i) ∉ cleared → (s.table.table b i).key = 0
  | _ => True

instance (s : Interposed T C) : DecidablePred s.ProperAt
  | .create a _ => inferInstanceAs (Decidable (s.table.Uncreated a))
  | .initClear _ cleared =>
    inferInstanceAs (Decidable (∀ b i, (b, i) ∉ cleared → (s.table.table b i).key = 0))
  | .outside | .get .. | .value .. | .result .. | .put .. | .cas .. | .store .. | .operate ..
  | .initCheck _ | .initCas _ | .initSpin _ | .initThreadId _ | .initLoad _ | .initDone _ =>
    .isTrue trivial

/-- Every address is initialised, or used for the first time, while it has no lock object and none
is being put there, and the constructor runs before any of that. -/
def Proper (s : Interposed T C) : InterposedAction T C → Prop
  | .table t => s.ProperAt (s.table.point t)
  | .clear _ b i => (s.table.table b i).key = 0
  | _ => True

instance (s : Interposed T C) : DecidablePred s.Proper
  | .table t => inferInstanceAs (Decidable (s.ProperAt (s.table.point t)))
  | .clear _ b i => inferInstanceAs (Decidable ((s.table.table b i).key = 0))
  | .manage .. | .call .. | .lock _ => .isTrue trivial

/-- A thread is back from its latest call with a code. -/
def Returned (s : Interposed T C) (t : T) (c : Call Addr C) (code : ℤ) : Prop :=
  s.call t = some c ∧ s.table.point t = .outside ∧
    ∃ c', s.locks.point t = .outside (some (c', code))

end Interposed

end Htll
