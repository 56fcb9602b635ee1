import Htll.Condition
import Htll.Protocol.Transition
import Htll.Segment
import Mathlib.Data.Fintype.Basic
import Mathlib.Tactic.Simps.Basic

/-!
# Threads, mutexes and condition variables running together

Any finite number of threads call the lock, the condition variable and the segment interface
on any mutexes and condition variables. One action lets one thread make one access to shared
memory, one futex call or one clock reading; actions carry what the hardware and the kernel
choose: tick counts, clock readings, which sleeper a wake-up reaches, and when a sleep ends.

The kernel keeps one queue for each futex word. `FUTEX_WAIT` compares and sleeps at once, and a
sleep may end at any time, by its timer or by a signal; a refused time-out is a sleep that ends
at once. `FUTEX_REQUEUE` moves all remaining sleepers: a process has at most 2048 threads, so
`INT_MAX` is no limit. Clients unlock and wait only with a mutex that they hold.

`holds`, `calls`, `bumps` and `ticket` are bookkeeping that no step reads: who took which mutex
and has not freed it, how many calls a thread has begun, how often a sequence number was
advanced, and how often it had been when a waiter read it.
-/

namespace Htll

open ParkingLock Transition

/-- A futex word: the lock word of a mutex or the sequence number of a condition variable. -/
inductive FutexAddr (M C : Type*) where
  | word (m : M)
  | seq (c : C)
  deriving DecidableEq

/-- The calls of the lock and condition variable interface. -/
inductive Call (M C : Type*) where
  | lock (m : M)
  | trylock (m : M)
  | unlock (m : M)
  | wait (c : C) (m : M)
  | timedwait (c : C) (m : M) (abstime : Timespec)
  | signal (c : C)
  | broadcast (c : C)
  deriving DecidableEq

/-- The wait of a condition variable with or without an absolute time-out. -/
def Call.waiting {M C : Type*} (c : C) (m : M) : Option Timespec → Call M C
  | none => .wait c m
  | some abstime => .timedwait c m abstime

/-- What follows a release: the return of `htll_mutex_unlock`, or the rest of a wait. -/
inductive After (C : Type*) where
  | unlock
  | wait (c : C) (seq : BitVec 32) (abstime : Option Timespec)
  deriving DecidableEq

/-- The program point of a thread. -/
inductive Point (M C : Type*) where
  /-- In no call; the last call and the code it returned. -/
  | outside (last : Option (Call M C × ℤ))
  | lock (m : M) (p : LockPoint)
  | trylock (m : M)
  | unlock (m : M) (after : After C) (p : UnlockPoint)
  /-- In a wait, before the mutex is released. -/
  | bind (c : C) (m : M) (abstime : Option Timespec) (p : BindPoint)
  /-- Before the first `gettimeofday` of `htll_cond_timedwait`. -/
  | clock (c : C) (m : M) (seq : BitVec 32) (abstime : Timespec)
  /-- Before `FUTEX_WAIT` on `seq`, with the relative time-out that it is given. -/
  | wait (c : C) (m : M) (seq : BitVec 32) (abstime rt : Option Timespec)
  /-- After `FUTEX_WAIT`, before the second `gettimeofday` of `htll_cond_timedwait`. -/
  | reclock (c : C) (m : M) (abstime : Timespec)
  /-- In the loop that takes the mutex back, with the code to return. -/
  | retake (c : C) (m : M) (abstime : Option Timespec) (code : ℤ) (p : RetakePoint)
  /-- Before `c->seq` is advanced by a signal. -/
  | signalAdd (c : C)
  /-- Before the `FUTEX_WAKE` of a signal. -/
  | signalWake (c : C)
  /-- Before `c->m` is read by a broadcast. -/
  | broadcastLoad (c : C)
  /-- Before `c->seq` is advanced by a broadcast. -/
  | broadcastAdd (c : C) (m : M)
  /-- Before the `FUTEX_REQUEUE` of a broadcast. -/
  | broadcastRequeue (c : C) (m : M)
  deriving DecidableEq

/-- What the hardware and the kernel choose for one access. -/
structure Input (T : Type*) where
  ticks : BitVec 64
  now : Timeval
  pick : Option T

/-- One action of the system. -/
inductive Action (T M C : Type*) where
  /-- A thread outside calls begins one. -/
  | call (t : T) (call : Call M C)
  /-- A thread inside a call makes its next access. -/
  | access (t : T) (input : Input T)
  /-- A sleep ends by its timer or by a signal. -/
  | unpark (t : T)
  | segmentStart (t : T) (segmentId : ℤ) (ticks : BitVec 64)
  | segmentEnd (t : T) (segmentId : ℤ) (requiredLatency ticks : BitVec 64)

/-- A number of accesses of one thread with all clocks at zero and nobody to wake. -/
def Action.turns {T M C : Type*} (t : T) (n : ℕ) : List (Action T M C) :=
  List.replicate n (.access t ⟨0, ⟨0, 0⟩, none⟩)

/-- One access of a thread whose spin is over. -/
def Action.late {T M C : Type*} (t : T) : Action T M C := .access t ⟨10000, ⟨0, 0⟩, none⟩

/-- The shared memory, the kernel's queues and every thread. -/
structure State (T M C : Type*) where
  mutex : M → Mutex
  cond : C → Cond M
  tls : T → Tls
  point : T → Point M C
  asleep : T → Option (FutexAddr M C)
  holds : T → M → Bool
  calls : T → ℕ
  bumps : C → ℕ
  ticket : T → ℕ

/-- The point at which a call begins. -/
def Call.entry {M C : Type*} : Call M C → Point M C
  | .lock m => .lock m .entry
  | .trylock m => .trylock m
  | .unlock m => .unlock m .unlock .load
  | .wait c m => .bind c m none .seq
  | .timedwait c m abstime => .bind c m (some abstime) .seq
  | .signal c => .signalAdd c
  | .broadcast c => .broadcastLoad c

/-- The point after a release is complete. -/
def After.point {M C : Type*} (m : M) : After C → Point M C
  | .unlock => .outside (some (.unlock m, 0))
  | .wait c seq none => .wait c m seq none none
  | .wait c seq (some abstime) => .clock c m seq abstime

/-- The point after `FUTEX_WAIT` on `seq`. -/
def afterWait {M C : Type*} (c : C) (m : M) : Option Timespec → Point M C
  | none => .retake c m none 0 .swap
  | some abstime => .reclock c m abstime

/-- The point after the first `gettimeofday`: an elapsed time-out skips the sleep. -/
def afterClock {M C : Type*} (c : C) (m : M) (seq : BitVec 32) (abstime rt : Timespec) :
    Point M C :=
  if rt.tvSec < 0 then .retake c m (some abstime) etimedout .swap
  else .wait c m seq (some abstime) (some rt)

/-- The mutex that only its holder may make the call with. -/
def Call.held {M C : Type*} : Call M C → Option M
  | .unlock m | .wait _ m | .timedwait _ m _ => some m
  | .lock _ | .trylock _ | .signal _ | .broadcast _ => none

namespace State

variable {T M C : Type*} [DecidableEq T] [DecidableEq M] [DecidableEq C]

/-- Every thread outside calls, everything just created. -/
def initial (tls : T → Tls) : State T M C where
  mutex := fun _ => htllMutexCreate
  cond := fun _ => upmutexCond1Init
  tls := tls
  point := fun _ => .outside none
  asleep := fun _ => none
  holds := fun _ _ => false
  calls := fun _ => 0
  bumps := fun _ => 0
  ticket := fun _ => 0

/-- Move a thread to a program point. -/
@[simps] def goto (s : State T M C) (t : T) (p : Point M C) : State T M C :=
  { s with point := Function.update s.point t p }

/-- Replace the record of a mutex. -/
@[simps] def setMutex (s : State T M C) (m : M) (x : Mutex) : State T M C :=
  { s with mutex := Function.update s.mutex m x }

/-- Replace the record of a condition variable. -/
@[simps] def setCond (s : State T M C) (c : C) (x : Cond M) : State T M C :=
  { s with cond := Function.update s.cond c x }

/-- Record whether a thread holds a mutex. -/
@[simps] def setHolds (s : State T M C) (t : T) (m : M) (b : Bool) : State T M C :=
  { s with holds := Function.update s.holds t (Function.update (s.holds t) m b) }

/-- Put a thread to sleep on a futex word, or make it runnable. -/
@[simps] def setAsleep (s : State T M C) (t : T) (a : Option (FutexAddr M C)) : State T M C :=
  { s with asleep := Function.update s.asleep t a }

/-- Set `has_waiter` of the thread's innermost segment. -/
@[simps] def markWaiter (s : State T M C) (t : T) : State T M C :=
  { s with tls := Function.update s.tls t (Htll.markWaiter (s.tls t)) }

/-- Record how often a sequence number had been advanced when a waiter read it. -/
@[simps] def setTicket (s : State T M C) (t : T) (n : ℕ) : State T M C :=
  { s with ticket := Function.update s.ticket t n }

/-- `__sync_fetch_and_add(&c->seq, 1)`. -/
@[simps] def bump (s : State T M C) (c : C) : State T M C :=
  { s with
    cond := Function.update s.cond c { s.cond c with seq := (s.cond c).seq + 1 }
    bumps := Function.update s.bumps c (s.bumps c + 1) }

variable [Fintype T]

/-- `FUTEX_WAKE` of one thread: the picked sleeper, or nobody when the queue is empty. -/
def wake (s : State T M C) (a : FutexAddr M C) : Option T → Option (State T M C)
  | some w => if s.asleep w = some a then some (s.setAsleep w none) else none
  | none => if ∀ w, s.asleep w ≠ some a then some s else none

/-- `FUTEX_REQUEUE`: the picked sleeper on `seq` wakes, the others move to the mutex word. -/
def requeue (s : State T M C) (c : C) (m : M) : Option T → Option (State T M C)
  | some w =>
    if s.asleep w = some (.seq c) then
      some { s with
        asleep := fun u =>
          if u = w then none
          else if s.asleep u = some (.seq c) then some (.word m) else s.asleep u }
    else none
  | none => if ∀ w, s.asleep w ≠ some (.seq c) then some s else none

/-- The effect of one access to a mutex by a thread inside a call: `embed` places the points of
the accessed function, the remaining arguments are the points after its possible ends. -/
def commit {P : Type*} (s : State T M C) (t : T) (m : M) (pick : Option T) (embed : P → Point M C)
    (taken failed ended : Point M C) (result : Mutex × Outcome P) : Option (State T M C) :=
  let s' := s.setMutex m result.1
  match result.2 with
  | .goto p => some (s'.goto t (embed p))
  | .mark p => some ((s'.markWaiter t).goto t (embed p))
  | .sleep p => some ((s'.setAsleep t (some (.word m))).goto t (embed p))
  | .take => some ((s'.setHolds t m true).goto t taken)
  | .fail => some (s'.goto t failed)
  | .free (some p) => some ((s'.setHolds t m false).goto t (embed p))
  | .free none => some ((s'.setHolds t m false).goto t ended)
  | .wake => (s'.wake (.word m) pick).map fun s' => s'.goto t ended
  | .done => some (s'.goto t ended)

/-- The next access of a runnable thread. -/
def access (s : State T M C) (t : T) (input : Input T) : Option (State T M C) :=
  match s.point t with
  | .outside _ => none
  | .lock m p =>
    let returned := .outside (some (.lock m, 0))
    s.commit t m input.pick (.lock m) returned returned returned
      (htllMutexLock (s.tls t).curSegmentId input.ticks (s.mutex m) p)
  | .trylock m =>
    let returned (code : ℤ) := .outside (some (.trylock m, code))
    s.commit t m input.pick (.lock m) (returned 0) (returned ebusy) (returned 0)
      (htllMutexTrylock (s.mutex m))
  | .unlock m after p =>
    s.commit t m input.pick (.unlock m after) (after.point m) (after.point m) (after.point m)
      (htllMutexUnlock (s.mutex m) p)
  | .bind c m abstime p =>
    let (x, outcome) := bindCond m (s.cond c) p
    let s' := s.setCond c x
    match outcome with
    | .goto p' =>
      some ((s'.setTicket t (if p = .seq then s.bumps c else s.ticket t)).goto t
        (.bind c m abstime p'))
    | .einval => some (s'.goto t (.outside (some (.waiting c m abstime, einval))))
    | .bound seq => some (s'.goto t (.unlock m (.wait c seq abstime) .load))
  | .clock c m seq abstime =>
    some (s.goto t (afterClock c m seq abstime (relativeTimeout abstime input.now)))
  | .wait c m seq abstime _ =>
    let s' := s.goto t (afterWait c m abstime)
    some (if (s.cond c).seq = seq then s'.setAsleep t (some (.seq c)) else s')
  | .reclock c m abstime =>
    let code := if (relativeTimeout abstime input.now).tvSec < 0 then etimedout else 0
    some (s.goto t (.retake c m (some abstime) code .swap))
  | .retake c m abstime code p =>
    let returned := .outside (some (.waiting c m abstime, code))
    s.commit t m input.pick (.retake c m abstime code) returned returned returned
      (retakeMutex (s.mutex m) p)
  | .signalAdd c => some ((s.bump c).goto t (.signalWake c))
  | .signalWake c =>
    (s.wake (.seq c) input.pick).map fun s' => s'.goto t (.outside (some (.signal c, 0)))
  | .broadcastLoad c =>
    match (s.cond c).m with
    | none => some (s.goto t (.outside (some (.broadcast c, 0))))
    | some m => some (s.goto t (.broadcastAdd c m))
  | .broadcastAdd c m => some ((s.bump c).goto t (.broadcastRequeue c m))
  | .broadcastRequeue c m =>
    (s.requeue c m input.pick).map fun s' => s'.goto t (.outside (some (.broadcast c, 0)))

/-- One action, if it is possible in this state. -/
def step (s : State T M C) : Action T M C → Option (State T M C)
  | .call t call =>
    match s.point t with
    | .outside _ =>
      if s.asleep t = none ∧ ∀ m ∈ call.held, s.holds t m = true then
        some { s.goto t call.entry with calls := Function.update s.calls t (s.calls t + 1) }
      else none
    | _ => none
  | .access t input => if s.asleep t = none then s.access t input else none
  | .unpark t => if s.asleep t = none then none else some (s.setAsleep t none)
  | .segmentStart t segmentId ticks =>
    match s.point t with
    | .outside _ =>
      (segmentStart (s.tls t) segmentId ticks).map fun result =>
        { s with tls := Function.update s.tls t result.2 }
    | _ => none
  | .segmentEnd t segmentId requiredLatency ticks =>
    match s.point t with
    | .outside _ =>
      (segmentEnd (s.tls t) segmentId requiredLatency ticks).map fun result =>
        { s with tls := Function.update s.tls t result.2 }
    | _ => none

/-- The states in which a process may begin: nothing used yet and no segment open. -/
def Initial (s : State T M C) : Prop := ∃ tls, (∀ t, AtRest (tls t)) ∧ s = initial tls

omit [DecidableEq T] [DecidableEq M] [DecidableEq C] [Fintype T] in
/-- A process may begin when `htll_thread_start` has run in every thread. -/
theorem initial_started :
    (initial fun _ => htllThreadStart Tls.zero : State T M C).Initial :=
  ⟨_, fun _ => atRest_htllThreadStart, rfl⟩

end State

end Htll
