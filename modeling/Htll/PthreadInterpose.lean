import Htll.MutexCalls
import Htll.Protocol.PosixMutex

/-!
# The wrapper around POSIX mutexes

`pthreadinterpose.c` with `COND_VAR` 0, under the intercepted calls of `interpose.c`: the lock
object of an address has one POSIX mutex, and a call of the application becomes the call on that
mutex with its code checked, folded or dropped. Beside it is the same program on mutexes of its
own, without the library.

A call runs to its end before the next one begins; a call that blocks is made again later. The
code with which the system initialises a mutex, if a call does so, comes with the call. A mutex
of the application that was never initialised is one with `PTHREAD_MUTEX_INITIALIZER`.
-/

namespace Htll

open Posix

/-- The calls on a mutex. -/
inductive PthreadCall where
  /-- `pthread_mutex_init`. -/
  | init (attr : Option Attr)
  /-- `pthread_mutex_lock`. -/
  | lock
  /-- `pthread_mutex_trylock`. -/
  | trylock
  /-- `pthread_mutex_unlock`. -/
  | unlock
  deriving DecidableEq

/-- What happens in the program. -/
inductive PthreadEvent (T : Type*) where
  /-- A thread makes a call; `initCode` is what an initialisation during the call returns. -/
  | call (t : T) (a : Addr) (c : PthreadCall) (initCode : Code)
  /-- A thread terminates. -/
  | terminated (t : T)

variable {T : Type*} [DecidableEq T]

/-! ## Without the library -/

/-- The mutexes of the application that are initialised. -/
abbrev Mutexes (T : Type*) := Addr → Option (PosixMutex T)

/-- A mutex of the application as a call finds it. -/
def Mutexes.get (ms : Mutexes T) (a : Addr) : PosixMutex T := (ms a).getD (.new defaultAttr)

/-- A call on a mutex. -/
def realCall (limit : ℕ) (ms : Mutexes T) (t : T) (a : Addr) (initCode : Code) :
    PthreadCall → Answer (Mutexes T)
  | .init attr =>
    if ms a = none then
      .returned initCode
        (if initCode = .success then
          Function.update ms a (some (.new (attr.getD defaultAttr)))
        else ms)
    else .undefined
  | .lock => ((ms.get a).lock limit t).map fun m => Function.update ms a (some m)
  | .trylock => ((ms.get a).trylock limit t).map fun m => Function.update ms a (some m)
  | .unlock => ((ms.get a).unlock t).map fun m => Function.update ms a (some m)

/-- An event without the library. -/
def real (limit : ℕ) (ms : Mutexes T) : PthreadEvent T → Answer (Mutexes T)
  | .call t a c initCode => realCall limit ms t a initCode c
  | .terminated t => .returned .success fun a => (ms a).map fun m => m.terminate t

/-! ## With the library -/

/-- The state of the library between calls: `impl->lock` of every object, if it was initialised. -/
structure PthreadLibrary (T : Type*) where
  table : LockTable
  lock : LockObject → Option (PosixMutex T)
  allocated : ℕ

/-- What an intercepted call does. -/
inductive Reply (S : Type*) where
  | returned (code : Code) (after : S)
  | blocks
  | undefined
  /-- An assertion fails. -/
  | aborted
  /-- `Hash Table FULL (LitL)`. -/
  | exited

/-- The code and the state of a call that returns. -/
def Reply.result {S : Type*} : Reply S → Option (Code × S)
  | .returned code s => some (code, s)
  | .blocks | .undefined | .aborted | .exited => none

/-- A call has a result exactly if it returns. -/
theorem Reply.result_eq_some {S : Type*} {r : Reply S} {code : Code} {s : S} :
    r.result = some (code, s) ↔ r = .returned code s := by
  cases r <;> simp [Reply.result]

namespace PthreadLibrary

/-- An empty table and no lock object. -/
def initial : PthreadLibrary T := ⟨fun _ _ => Slot.clear, fun _ => none, 0⟩

/-- Set the mutex of a lock object. -/
def setLock (l : PthreadLibrary T) (o : LockObject) (m : Option (PosixMutex T)) :
    PthreadLibrary T :=
  { l with lock := Function.update l.lock o m }

/-- The mutex that later calls on an address use. -/
def mutexAt (l : PthreadLibrary T) (a : Addr) : Option (PosixMutex T) :=
  (hashGet l.table a).bind l.lock

/-- `pthread_interpose_mutex_create`. -/
def pthreadInterposeMutexCreate (l : PthreadLibrary T) (attr : Option Attr) (initCode : Code) :
    PthreadLibrary T × LockObject :=
  ({ l.setLock l.allocated
      (if initCode = .success then some (.new (attr.getD defaultAttr)) else none) with
    allocated := l.allocated + 1 }, l.allocated)

/-- `ht_lock_create`; nothing is returned if the process ends. -/
def htLockCreate (l : PthreadLibrary T) (a : Addr) (attr : Option Attr) (initCode : Code) :
    Option (PthreadLibrary T × LockObject) :=
  let (l', o) := l.pthreadInterposeMutexCreate attr initCode
  (hashPut l'.table a o).map fun table => ({ l' with table := table }, o)

omit [DecidableEq T] in
/-- The new object has the mutex that was initialised for it. -/
theorem htLockCreate_eq (l : PthreadLibrary T) (a : Addr) (attr : Option Attr) (initCode : Code) :
    l.htLockCreate a attr initCode =
      (hashPut l.table a l.allocated).map fun table =>
        (⟨table, Function.update l.lock l.allocated
          (if initCode = .success then some (.new (attr.getD defaultAttr)) else none),
          l.allocated + 1⟩, l.allocated) := rfl

/-- `ht_lock_get`. -/
def htLockGet (l : PthreadLibrary T) (a : Addr) (initCode : Code) :
    Option (PthreadLibrary T × LockObject) :=
  match hashGet l.table a with
  | some o => some (l, o)
  | none => l.htLockCreate a none initCode

/-- A call on the mutex of a lock object, and what becomes of its code. -/
def withMutex (l : PthreadLibrary T) (o : LockObject) (f : PosixMutex T → Answer (PosixMutex T))
    (fold : Code → PthreadLibrary T → Reply (PthreadLibrary T)) : Reply (PthreadLibrary T) :=
  match l.lock o with
  | none => .undefined
  | some m =>
    match f m with
    | .returned ret m' => fold ret (l.setLock o (some m'))
    | .blocks => .blocks
    | .undefined => .undefined

/-- `pthread_interpose_mutex_lock`. -/
def pthreadInterposeMutexLock (limit : ℕ) (l : PthreadLibrary T) (t : T) (o : LockObject) :
    Reply (PthreadLibrary T) :=
  l.withMutex o (fun m => m.lock limit t) fun ret l' =>
    if ret = .success then .returned .success l' else .aborted

/-- `pthread_interpose_mutex_trylock`. -/
def pthreadInterposeMutexTrylock (limit : ℕ) (l : PthreadLibrary T) (t : T) (o : LockObject) :
    Reply (PthreadLibrary T) :=
  l.withMutex o (fun m => m.trylock limit t) fun ret l' =>
    if ret ≠ .ebusy then .returned .success l' else .returned .ebusy l'

/-- `pthread_interpose_mutex_unlock`, and the code that `pthread_mutex_unlock` returns then. -/
def pthreadInterposeMutexUnlock (l : PthreadLibrary T) (t : T) (o : LockObject) :
    Reply (PthreadLibrary T) :=
  l.withMutex o (fun m => m.unlock t) fun _ l' => .returned .success l'

/-- A call that looks the lock object of an address up. -/
def withLock (l : PthreadLibrary T) (a : Addr) (initCode : Code)
    (f : PthreadLibrary T → LockObject → Reply (PthreadLibrary T)) : Reply (PthreadLibrary T) :=
  match l.htLockGet a initCode with
  | some (l', o) => f l' o
  | none => .exited

/-- `pthread_mutex_init`. -/
def pthreadMutexInit (l : PthreadLibrary T) (a : Addr) (attr : Option Attr) (initCode : Code) :
    Reply (PthreadLibrary T) :=
  match l.htLockCreate a attr initCode with
  | some (l', _) => .returned .success l'
  | none => .exited

/-- `pthread_mutex_lock`. -/
def pthreadMutexLock (limit : ℕ) (l : PthreadLibrary T) (t : T) (a : Addr) (initCode : Code) :
    Reply (PthreadLibrary T) :=
  l.withLock a initCode fun l' o => l'.pthreadInterposeMutexLock limit t o

/-- `pthread_mutex_trylock`. -/
def pthreadMutexTrylock (limit : ℕ) (l : PthreadLibrary T) (t : T) (a : Addr) (initCode : Code) :
    Reply (PthreadLibrary T) :=
  l.withLock a initCode fun l' o => l'.pthreadInterposeMutexTrylock limit t o

/-- `pthread_mutex_unlock`. -/
def pthreadMutexUnlock (l : PthreadLibrary T) (t : T) (a : Addr) (initCode : Code) :
    Reply (PthreadLibrary T) :=
  l.withLock a initCode fun l' o => l'.pthreadInterposeMutexUnlock t o

/-- An intercepted call. -/
def interposedCall (limit : ℕ) (l : PthreadLibrary T) (t : T) (a : Addr) (initCode : Code) :
    PthreadCall → Reply (PthreadLibrary T)
  | .init attr => l.pthreadMutexInit a attr initCode
  | .lock => l.pthreadMutexLock limit t a initCode
  | .trylock => l.pthreadMutexTrylock limit t a initCode
  | .unlock => l.pthreadMutexUnlock t a initCode

/-- An event with the library. -/
def interposed (limit : ℕ) (l : PthreadLibrary T) : PthreadEvent T → Reply (PthreadLibrary T)
  | .call t a c initCode => l.interposedCall limit t a initCode c
  | .terminated t =>
    .returned .success { l with lock := fun o => (l.lock o).map fun m => m.terminate t }

/-- The library after a sequence of events, if all of them return. -/
def runEvents (limit : ℕ) (l : PthreadLibrary T) (events : List (PthreadEvent T)) :
    Option (PthreadLibrary T) :=
  events.foldlM (fun l e => (l.interposed limit e).result.map Prod.snd) l

end PthreadLibrary

end Htll
