import Htll.Condition
import Htll.Protocol.PosixMutex
import Htll.Protocol.Transition

/-!
# A mutex made of two POSIX mutexes

`pthreadinterpose.c` with `COND_VAR` 1: a mutex is taken by taking `impl->lock` and then
`impl->posix_lock`, and a thread waits for a condition variable with `posix_lock`, having released
`lock` before. Any number of threads call the functions for one mutex and any number of condition
variables; one action is one call on a POSIX mutex or a condition variable.

A default mutex is a normal one here, as on Linux: its owner blocks if it locks it again, and what
happens if another thread unlocks it is not specified. A thread that waits for a condition
variable is in its queue until a signal, a broadcast, its deadline or nothing at all wakes it; it
then takes `posix_lock` back. The process ends when an assertion fails.
-/

namespace Htll

open Posix

/-- Whether `pthread_cond_timedwait` takes a deadline. -/
def Timespec.proper (ts : Timespec) : Bool := 0 ≤ ts.tvNsec && ts.tvNsec < 1000000000

/-- The calls. -/
inductive PairCall (C : Type*) where
  /-- `pthread_interpose_mutex_lock`. -/
  | lock
  /-- `pthread_interpose_mutex_trylock`. -/
  | trylock
  /-- `pthread_interpose_mutex_unlock`. -/
  | unlock
  /-- `pthread_interpose_cond_timedwait`, and `pthread_interpose_cond_wait` without a deadline. -/
  | wait (c : C) (ts : Option Timespec)

/-- The program point of a thread. -/
inductive PairPoint (C : Type*) where
  /-- Between calls, with the code that the last one returned. -/
  | outside (code : ℤ)
  /-- In `mutex_lock`, before `lock` is taken. -/
  | lockOuter
  /-- In `mutex_lock`, before `posix_lock` is taken. -/
  | lockInner
  /-- In `mutex_trylock`, before `lock` is tried. -/
  | tryOuter
  /-- In `mutex_trylock`, before `posix_lock` is tried. -/
  | tryInner
  /-- In `mutex_unlock`, before `posix_lock` is released. -/
  | unlockInner
  /-- In `mutex_unlock`, before `lock` is released. -/
  | unlockOuter
  /-- In `cond_timedwait`, before `lock` is released. -/
  | waitRelease (c : C) (ts : Option Timespec)
  /-- In `cond_timedwait`, before the wait for the condition variable. -/
  | waitEnter (c : C) (ts : Option Timespec)
  /-- Waiting for the condition variable. -/
  | waiting (c : C) (ts : Option Timespec)
  /-- Woken, before the wait has taken `posix_lock` back. -/
  | reacquire (res : ℤ)
  /-- In `cond_timedwait`, before `posix_lock` is released. -/
  | waitUnlock (res : ℤ)
  /-- In `cond_timedwait`, before `lock` is taken. -/
  | waitLockOuter (res : ℤ)
  /-- In `cond_timedwait`, before `posix_lock` is taken. -/
  | waitLockInner (res : ℤ)
  deriving DecidableEq

/-- The first program point of a call. -/
def PairCall.start {C : Type*} : PairCall C → PairPoint C
  | .lock => .lockOuter
  | .trylock => .tryOuter
  | .unlock => .unlockInner
  | .wait c ts => .waitRelease c ts

/-- One action of the system. -/
inductive PairAction (T C : Type*) where
  | call (t : T) (c : PairCall C)
  /-- The next step of a thread in a call. -/
  | access (t : T)
  /-- `pthread_interpose_cond_signal`, and whom it wakes. -/
  | signal (t : T) (c : C) (woken : Option T)
  /-- `pthread_interpose_cond_broadcast`. -/
  | broadcast (t : T) (c : C)
  /-- The deadline of a wait is over. -/
  | timeout (t : T)
  /-- A wait ends by itself. -/
  | wakeUp (t : T)

/-- The owners of the two mutexes, the queues of the condition variables and every thread. -/
structure LockPair (T C : Type*) where
  lock : Option T
  posixLock : Option T
  queue : C → List T
  point : T → PairPoint C
  /-- An assertion failed, or a call was made whose behaviour is not specified. -/
  failed : Bool

namespace LockPair

variable {T C : Type*} [DecidableEq T] [DecidableEq C]

/-- Both mutexes free and nothing called. -/
def initial : LockPair T C := ⟨none, none, fun _ => [], fun _ => .outside 0, false⟩

/-- `REAL(pthread_mutex_lock)` of a mutex with a given owner. -/
def realLock (owner : Option T) (t : T) : Answer (Option T) :=
  ((PosixMutex.plain owner).lock 0 t).map PosixMutex.owner

/-- `REAL(pthread_mutex_trylock)`. -/
def realTrylock (owner : Option T) (t : T) : Answer (Option T) :=
  ((PosixMutex.plain owner).trylock 0 t).map PosixMutex.owner

/-- `REAL(pthread_mutex_unlock)`. -/
def realUnlock (owner : Option T) (t : T) : Answer (Option T) :=
  ((PosixMutex.plain owner).unlock t).map PosixMutex.owner

@[simp] theorem realLock_eq (owner : Option T) (t : T) :
    realLock owner t = if owner = none then .returned .success (some t) else .blocks := by
  simp only [realLock, PosixMutex.plain_lock]
  split <;> simp [Answer.map]

@[simp] theorem realTrylock_eq (owner : Option T) (t : T) :
    realTrylock owner t =
      if owner = none then .returned .success (some t) else .returned .ebusy owner := by
  simp only [realTrylock, PosixMutex.plain_trylock]
  split <;> simp [Answer.map]

@[simp] theorem realUnlock_eq (owner : Option T) (t : T) :
    realUnlock owner t = if owner = some t then .returned .success none else .undefined := by
  simp only [realUnlock, PosixMutex.plain_unlock]
  split <;> simp [Answer.map]

/-- Move a thread to a program point. -/
@[simps] def goto (s : LockPair T C) (t : T) (p : PairPoint C) : LockPair T C :=
  { s with point := Function.update s.point t p }

/-- An assertion fails. -/
@[simps] def fail (s : LockPair T C) : LockPair T C := { s with failed := true }

/-- A call on `impl->lock`, and what the code does next. -/
def onLock (s : LockPair T C) (x : Answer (Option T))
    (next : Code → LockPair T C → LockPair T C) : Option (LockPair T C) :=
  match x with
  | .returned ret owner => some (next ret { s with lock := owner })
  | .blocks => none
  | .undefined => some s.fail

/-- A call on `impl->posix_lock`, and what the code does next. -/
def onPosixLock (s : LockPair T C) (x : Answer (Option T))
    (next : Code → LockPair T C → LockPair T C) : Option (LockPair T C) :=
  match x with
  | .returned ret owner => some (next ret { s with posixLock := owner })
  | .blocks => none
  | .undefined => some s.fail

/-- A thread enters the queue of a condition variable. -/
def enqueue (s : LockPair T C) (t : T) (c : C) (ts : Option Timespec) : LockPair T C :=
  { s with queue := Function.update s.queue c (s.queue c ++ [t]) }.goto t (.waiting c ts)

/-- A thread leaves the queue of a condition variable. -/
def wake (s : LockPair T C) (t : T) (c : C) (res : ℤ) : LockPair T C :=
  { s with queue := Function.update s.queue c ((s.queue c).erase t) }.goto t (.reacquire res)

/-- All threads leave the queue of a condition variable. -/
def wakeAll (s : LockPair T C) (c : C) : LockPair T C :=
  { s with
    queue := Function.update s.queue c []
    point := fun t => if t ∈ s.queue c then .reacquire 0 else s.point t }

/-- The next step of a thread in a call; none if it blocks. -/
def access (s : LockPair T C) (t : T) : Option (LockPair T C) :=
  match s.point t with
  | .outside _ | .waiting .. => none
  | .lockOuter => s.onLock (realLock s.lock t) fun _ s' => s'.goto t .lockInner
  | .lockInner => s.onPosixLock (realLock s.posixLock t) fun ret s' =>
      if ret = .success then s'.goto t (.outside 0) else s'.fail
  | .tryOuter => s.onLock (realTrylock s.lock t) fun ret s' =>
      if ret ≠ .ebusy then s'.goto t .tryInner else s'.goto t (.outside ebusy)
  | .tryInner => s.onPosixLock (realTrylock s.posixLock t) fun ret s' =>
      if ret = .ebusy then s'
      else if ret = .success then s'.goto t (.outside 0) else s'.fail
  | .unlockInner => s.onPosixLock (realUnlock s.posixLock t) fun ret s' =>
      if ret = .success then s'.goto t .unlockOuter else s'.fail
  | .unlockOuter => s.onLock (realUnlock s.lock t) fun _ s' => s'.goto t (.outside 0)
  | .waitRelease c ts => s.onLock (realUnlock s.lock t) fun _ s' => s'.goto t (.waitEnter c ts)
  | .waitEnter c ts =>
    -- `EINVAL` is neither 0 nor `ETIMEDOUT`
    if ts.all Timespec.proper then
      s.onPosixLock (realUnlock s.posixLock t) fun _ s' => s'.enqueue t c ts
    else some s.fail
  | .reacquire res => s.onPosixLock (realLock s.posixLock t) fun _ s' =>
      if res ≠ 0 ∧ res ≠ etimedout then s'.fail else s'.goto t (.waitUnlock res)
  | .waitUnlock res => s.onPosixLock (realUnlock s.posixLock t) fun ret s' =>
      if ret ≠ .success then s'.fail else s'.goto t (.waitLockOuter res)
  | .waitLockOuter res => s.onLock (realLock s.lock t) fun _ s' => s'.goto t (.waitLockInner res)
  | .waitLockInner res => s.onPosixLock (realLock s.posixLock t) fun _ s' =>
      s'.goto t (.outside res)

/-- Whether a thread is between calls. -/
def isOutside (s : LockPair T C) (t : T) : Bool :=
  match s.point t with
  | .outside _ => true
  | _ => false

/-- One action, if it is possible in this state; a process that has failed makes no step. -/
def step (s : LockPair T C) (x : PairAction T C) : Option (LockPair T C) :=
  if s.failed then none
  else
    match x with
    | .call t c => if s.isOutside t then some (s.goto t c.start) else none
    | .access t => s.access t
    | .signal t c none =>
      if s.isOutside t ∧ s.queue c = [] then some (s.goto t (.outside 0)) else none
    | .signal t c (some u) =>
      if s.isOutside t ∧ u ∈ s.queue c then some ((s.wake u c 0).goto t (.outside 0)) else none
    | .broadcast t c => if s.isOutside t then some ((s.wakeAll c).goto t (.outside 0)) else none
    | .timeout t =>
      match s.point t with
      | .waiting c (some _) => some (s.wake t c etimedout)
      | _ => none
    | .wakeUp t =>
      match s.point t with
      | .waiting c _ => some (s.wake t c 0)
      | _ => none

/-- A thread owns the mutex: it holds both locks. -/
def Owns (s : LockPair T C) (t : T) : Prop := s.lock = some t ∧ s.posixLock = some t

instance (s : LockPair T C) (t : T) : Decidable (s.Owns t) :=
  inferInstanceAs (Decidable (_ ∧ _))

/-- Only the owner unlocks and waits, and a deadline is one that the wait takes. -/
def Disciplined (s : LockPair T C) : PairAction T C → Prop
  | .call t .unlock => s.Owns t
  | .call t (.wait _ ts) => s.Owns t ∧ ts.all Timespec.proper = true
  | _ => True

instance (s : LockPair T C) (x : PairAction T C) : Decidable (s.Disciplined x) := by
  unfold Disciplined
  split <;> infer_instance

end LockPair

end Htll
