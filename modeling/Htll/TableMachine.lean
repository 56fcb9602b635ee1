import Htll.LockTable
import Htll.Protocol.Transition

/-!
# Threads sharing the table

Any number of threads call the intercepted mutex and rwlock functions, `hash_get` and `hash_put`
themselves, and `interpose_init`. One action is one access to a slot, to `init_spinlock`, to the
thread counter or to a lock object. A lock object is an atomic mutex here, which is what the
lock word refines. `memset` clears slots in any order, each key and value at once.

`printf` aside, `pthread_mutex_destroy` does nothing. The rwlock functions other than
`pthread_rwlock_init` have the text of their mutex counterparts. `lock_application_init` is
empty, and loading the real functions is assumed to succeed.

The last five fields of the state are bookkeeping that no step reads: which objects a completed
`hash_put` stored under an address, which of them were there when a thread's latest `hash_get`
began, how many objects were created for a bucket, which addresses are live, and what the
calls returned.
-/

namespace Htll

/-- `MAX_THREADS`. -/
def maxThreads : BitVec 32 := 2048

/-- What a lookup of an address is for. -/
inductive Purpose where
  | hashGet
  | htLockGet
  | lock
  | trylock
  | unlock
  deriving DecidableEq

/-- Why a value is put into the table. -/
inductive Creation where
  | hashPut
  | init
  | use (p : Purpose)
  deriving DecidableEq

/-- The calls of the table interface. -/
inductive TableCall where
  /-- `hash_get`. -/
  | hashGet (a : Addr)
  /-- `hash_put` of an object that exists. -/
  | hashPut (a : Addr) (v : LockObject)
  /-- `ht_lock_get`, as the waits call it. -/
  | htLockGet (a : Addr)
  /-- `pthread_mutex_init`. -/
  | init (a : Addr)
  /-- `pthread_mutex_destroy` and `pthread_rwlock_destroy`. -/
  | destroy (a : Addr)
  /-- `pthread_mutex_lock`, `pthread_rwlock_rdlock` and `pthread_rwlock_wrlock`. -/
  | lock (a : Addr)
  /-- `pthread_mutex_trylock`, `pthread_rwlock_tryrdlock` and `pthread_rwlock_trywrlock`. -/
  | trylock (a : Addr)
  /-- `pthread_mutex_unlock` and `pthread_rwlock_unlock`. -/
  | unlock (a : Addr)
  /-- `pthread_rwlock_init`. -/
  | rwlockInit (a : Addr)
  /-- `interpose_init`, run as a constructor. -/
  | interposeInit
  deriving DecidableEq

/-- The program point of a thread. Inside `interpose_init` it carries the rwlock whose
initialisation goes on afterwards, if any. -/
inductive TablePoint where
  | outside
  /-- In `hash_get`, before the key of a slot is read. -/
  | get (a : Addr) (p : Purpose) (i : Fin bucketLength)
  /-- In `hash_get`, before the value of a matching slot is compared with zero. -/
  | value (a : Addr) (p : Purpose) (i : Fin bucketLength)
  /-- In `hash_get`, before the value is read once more to be returned. -/
  | result (a : Addr) (p : Purpose) (i : Fin bucketLength)
  /-- In `ht_lock_create`, before the object is allocated. -/
  | create (a : Addr) (w : Creation)
  /-- In `hash_put`, before the key of a slot is read. -/
  | put (a : Addr) (v : LockObject) (w : Creation) (i : Fin bucketLength)
  /-- In `hash_put`, before the compare-and-swap on the key of a slot. -/
  | cas (a : Addr) (v : LockObject) (w : Creation) (i : Fin bucketLength)
  /-- In `hash_put`, before the value is stored. -/
  | store (a : Addr) (v : LockObject) (w : Creation) (i : Fin bucketLength)
  /-- Before the operation on the lock object. -/
  | operate (a : Addr) (o : LockObject) (p : Purpose)
  /-- In `pthread_rwlock_init`, before `init_spinlock` is read. -/
  | initCheck (a : Addr)
  /-- Before the compare-and-swap on `init_spinlock`. -/
  | initCas (rwlock : Option Addr)
  /-- Before `init_spinlock` is read again while another thread initialises. -/
  | initSpin (rwlock : Option Addr)
  /-- In `memset`, with the slots that are cleared already. -/
  | initClear (rwlock : Option Addr) (cleared : List (Fin bucketSize × Fin bucketLength))
  /-- Before `last_thread_id` is advanced. -/
  | initThreadId (rwlock : Option Addr)
  /-- Before the real functions are loaded. -/
  | initLoad (rwlock : Option Addr)
  /-- Before `init_spinlock` is set to 2. -/
  | initDone (rwlock : Option Addr)
  deriving DecidableEq

/-- Why the process was terminated. -/
inductive Exit where
  /-- `Hash Table FULL (LitL)`. -/
  | tableFull
  /-- `Maximum number of threads reached`. -/
  | maxThreads
  deriving DecidableEq

/-- What is recorded of the calls. -/
inductive TableEvent where
  /-- `hash_get` returned; the objects that were associated with the address when it began. -/
  | got (a : Addr) (known : List LockObject) (result : Option LockObject)
  /-- `hash_put` returned a code. -/
  | put (a : Addr) (v : LockObject) (code : ℤ)
  /-- `ht_lock_get` returned an object. -/
  | located (a : Addr) (o : LockObject)
  /-- An object was unlocked. -/
  | unlocked (a : Addr) (o : LockObject)
  deriving DecidableEq

/-- One action of the system. -/
inductive TableAction (T : Type*) where
  | call (t : T) (c : TableCall)
  /-- The next access of a thread; in `memset` the clearing of all slots that are left. -/
  | access (t : T)
  /-- `memset` clears one slot. -/
  | clear (t : T) (b : Fin bucketSize) (i : Fin bucketLength)

/-- The table, the lock objects, the initialisation and every thread. -/
structure TableState (T : Type*) where
  table : LockTable
  owner : LockObject → Option T
  allocated : ℕ
  initSpinlock : BitVec 8
  lastThreadId : BitVec 32
  loaded : Bool
  exited : Option Exit
  point : T → TablePoint
  associated : Addr → List LockObject
  known : T → List LockObject
  created : Fin bucketSize → ℕ
  live : List Addr
  log : List TableEvent

namespace TableState

variable {T : Type*} [DecidableEq T]

/-- Everything zero and nothing called. -/
def initial : TableState T where
  table := fun _ _ => Slot.clear
  owner := fun _ => none
  allocated := 0
  initSpinlock := 0
  lastThreadId := 0
  loaded := false
  exited := none
  point := fun _ => .outside
  associated := fun _ => []
  known := fun _ => []
  created := fun _ => 0
  live := []
  log := []

/-- Move a thread to a program point. -/
@[simps] def goto (s : TableState T) (t : T) (p : TablePoint) : TableState T :=
  { s with point := Function.update s.point t p }

/-- Record an event. -/
@[simps] def note (s : TableState T) (e : TableEvent) : TableState T := { s with log := e :: s.log }

/-- Begin a `hash_get`. -/
@[simps] def lookUp (s : TableState T) (t : T) (a : Addr) (p : Purpose) : TableState T :=
  { s with
    point := Function.update s.point t (.get a p firstSlot)
    known := Function.update s.known t (s.associated a) }

/-- Count the creation of an object for a bucket. -/
@[simps] def countCreation (s : TableState T) (b : Fin bucketSize) : TableState T :=
  { s with created := Function.update s.created b (s.created b + 1) }

/-- An address is initialised or used. -/
@[simps] def enliven (s : TableState T) (a : Addr) : TableState T :=
  { s with live := if a ∈ s.live then s.live else a :: s.live }

/-- An address is destroyed. -/
@[simps] def bury (s : TableState T) (a : Addr) : TableState T := { s with live := s.live.erase a }

/-- `ht_lock_get` returns an object and the caller goes on with it. -/
def located (s : TableState T) (t : T) (a : Addr) (o : LockObject) (p : Purpose) : TableState T :=
  (s.note (.located a o)).goto t
    (match p with
    | .hashGet | .htLockGet => .outside
    | .lock | .trylock | .unlock => .operate a o p)

/-- `hash_get` returns an object. -/
def found (s : TableState T) (t : T) (a : Addr) (o : LockObject) (p : Purpose) : TableState T :=
  let s' := s.note (.got a (s.known t) (some o))
  if p = .hashGet then s'.goto t .outside else s'.located t a o p

/-- `hash_get` returns `NULL`. -/
def missing (s : TableState T) (t : T) (a : Addr) (p : Purpose) : TableState T :=
  (s.note (.got a (s.known t) none)).goto t
    (if p = .hashGet then .outside else .create a (.use p))

/-- `hash_put` returns 0. -/
def stored (s : TableState T) (t : T) (a : Addr) (v : LockObject) (w : Creation) : TableState T :=
  let s' := s.note (.put a v 0)
  match w with
  | .hashPut | .init => s'.goto t .outside
  | .use p => s'.located t a v p

/-- `hash_put` returns −1. -/
def full (s : TableState T) (t : T) (a : Addr) (v : LockObject) (w : Creation) : TableState T :=
  let s' := s.note (.put a v (-1))
  match w with
  | .hashPut => s'.goto t .outside
  | .init | .use _ => { s' with exited := some .tableFull }

/-- `hash_put` goes on to the slot after an occupied one, or fails. -/
def tryNext (s : TableState T) (t : T) (a : Addr) (v : LockObject) (w : Creation)
    (i : Fin bucketLength) : TableState T :=
  match nextSlot i with
  | some j => s.goto t (.put a v w j)
  | none => s.full t a v w

/-- `interpose_init` returns. -/
def initialised (s : TableState T) (t : T) : Option Addr → TableState T
  | none => s.goto t .outside
  | some a => s.goto t (.create a .init)

/-- The operation on a lock object; a lock that is taken blocks. -/
def operate (s : TableState T) (t : T) (a : Addr) (o : LockObject) : Purpose → Option (TableState T)
  | .hashGet | .htLockGet => some (s.goto t .outside)
  | .lock =>
    if s.owner o = none then
      some ({ s with owner := Function.update s.owner o (some t) }.goto t .outside)
    else none
  | .trylock =>
    if s.owner o = none then
      some ({ s with owner := Function.update s.owner o (some t) }.goto t .outside)
    else some (s.goto t .outside)
  | .unlock =>
    some (({ s with owner := Function.update s.owner o none }.note (.unlocked a o)).goto t .outside)

/-- The next access of a thread. -/
def access (s : TableState T) (t : T) : Option (TableState T) :=
  match s.point t with
  | .outside => none
  | .get a p i =>
    some (if (s.table a.bucket i).key = a.1 then s.goto t (.value a p i)
      else
        match nextSlot i with
        | some j => s.goto t (.get a p j)
        | none => s.missing t a p)
  | .value a p i =>
    some (if (s.table a.bucket i).value = none then s else s.goto t (.result a p i))
  | .result a p i =>
    match (s.table a.bucket i).value with
    | none => some (s.missing t a p)
    | some o => some (s.found t a o p)
  | .create a w =>
    some (({ s with
      allocated := s.allocated + 1
      owner := Function.update s.owner s.allocated none }.countCreation a.bucket).goto t
        (.put a s.allocated w firstSlot))
  | .put a v w i =>
    some (if (s.table a.bucket i).key = 0 then s.goto t (.cas a v w i) else s.tryNext t a v w i)
  | .cas a v w i =>
    some (if (s.table a.bucket i).key = 0 then
        { s with table := s.table.set a.bucket i { s.table a.bucket i with key := a.1 } }.goto t
          (.store a v w i)
      else s.tryNext t a v w i)
  | .store a v w i =>
    some ({ s with
      table := s.table.set a.bucket i { s.table a.bucket i with value := some v }
      associated := Function.update s.associated a (v :: s.associated a) }.stored t a v w)
  | .operate a o p => s.operate t a o p
  | .initCheck a =>
    some (s.goto t (if s.initSpinlock ≠ 2 then .initCas (some a) else .create a .init))
  | .initCas rwlock =>
    some (if s.initSpinlock = 0 then { s with initSpinlock := 1 }.goto t (.initClear rwlock [])
      else if s.initSpinlock = 1 then s.goto t (.initSpin rwlock)
      else s.initialised t rwlock)
  | .initSpin rwlock => some (if s.initSpinlock = 1 then s else s.initialised t rwlock)
  | .initClear rwlock cleared =>
    some ({ s with
      table := fun b i => if (b, i) ∈ cleared then s.table b i else Slot.clear }.goto t
        (.initThreadId rwlock))
  | .initThreadId rwlock =>
    let s' := { s with lastThreadId := s.lastThreadId + 1 }
    some (if s.lastThreadId ≥ maxThreads then { s' with exited := some .maxThreads }
      else s'.goto t (.initLoad rwlock))
  | .initLoad rwlock => some ({ s with loaded := true }.goto t (.initDone rwlock))
  | .initDone rwlock => some ({ s with initSpinlock := 2 }.initialised t rwlock)

/-- The beginning of a call. -/
def begin (s : TableState T) (t : T) : TableCall → Option (TableState T)
  | .hashGet a => some (s.lookUp t a .hashGet)
  | .hashPut a v =>
    if v < s.allocated then
      some ((s.countCreation a.bucket).goto t (.put a v .hashPut firstSlot))
    else none
  | .htLockGet a => some ((s.enliven a).lookUp t a .htLockGet)
  | .init a => some ((s.enliven a).goto t (.create a .init))
  | .destroy a => some (s.bury a)
  | .lock a => some ((s.enliven a).lookUp t a .lock)
  | .trylock a => some ((s.enliven a).lookUp t a .trylock)
  | .unlock a => some ((s.enliven a).lookUp t a .unlock)
  | .rwlockInit a => some ((s.enliven a).goto t (.initCheck a))
  | .interposeInit => some (s.goto t (.initCas none))

/-- `memset` clears one slot. -/
def clear (s : TableState T) (t : T) (b : Fin bucketSize) (i : Fin bucketLength) :
    Option (TableState T) :=
  match s.point t with
  | .initClear rwlock cleared =>
    if (b, i) ∈ cleared then none
    else
      some ({ s with table := s.table.set b i Slot.clear }.goto t
        (.initClear rwlock ((b, i) :: cleared)))
  | _ => none

/-- One action, if it is possible in this state; a terminated process makes no step. -/
def step (s : TableState T) (a : TableAction T) : Option (TableState T) :=
  if s.exited = none then
    match a with
    | .call t c => if s.point t = .outside then s.begin t c else none
    | .access t => s.access t
    | .clear t b i => s.clear t b i
  else none

end TableState

end Htll
