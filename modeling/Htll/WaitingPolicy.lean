import Htll.Protocol.Transition
import Mathlib.Data.Fintype.Basic
import Mathlib.Tactic.Simps.Basic

/-!
# Waiting policies

`waiting_policy.h` has four ways to wait until a variable is `UNLOCKED`, one of which is chosen
when a lock is compiled: to spin on it, to spin with a compare-and-swap that takes the variable back
to `LOCKED`, to sleep on it, and to sleep after a bounded spin. Any number of threads wait for and
release any number of variables here. One action is one access to a variable or to a counter, or one
futex call.

A sleep in the kernel ends by `FUTEX_WAKE`, by a signal, or for no reason. `FUTEX_WAIT` fails with
`EAGAIN` if the variable is not `LOCKED` and with `EINTR` after a signal; other errors and those of
`FUTEX_WAKE` do not occur for an aligned `int`. A failed assertion ends the process. Clients set a
variable to `LOCKED` and to nothing else.
-/

namespace Htll

/-- `LOCKED`. -/
def policyLocked : BitVec 32 := 0

/-- `UNLOCKED`. -/
def policyUnlocked : BitVec 32 := 1

/-- `SPINNING_THRESHOLD`. -/
def spinningThreshold : ℕ := 4000

/-- `WAITING_POLICY`. -/
inductive WaitingPolicy where
  | spinlock
  | spinlockAtomic
  | spinThenPark
  | park
  deriving DecidableEq

/-- The counters of `interpose.c`. -/
inductive WaitCounter where
  | spinCnt
  | parkCnt
  | wakeCnt
  deriving DecidableEq

/-- What follows the increment of a counter. -/
inductive AfterTally where
  /-- The return of `waiting_policy_sleep`. -/
  | returned
  /-- Another `FUTEX_WAIT`. -/
  | retry
  /-- The end of the loop around `FUTEX_WAIT`. -/
  | leave
  /-- The loop after it. -/
  | confirm
  /-- The store of `waiting_policy_wake`. -/
  | store
  deriving DecidableEq

/-- The program point of a thread. -/
inductive PolicyPoint (V : Type*) where
  | outside
  /-- Before `*var` is read by `WAITING_SPINLOCK`. -/
  | spin (v : V)
  /-- Before the compare-and-swap of a sleep by `WAITING_SPINLOCK_ATOMIC`. -/
  | swap (v : V)
  /-- In the bounded spin, with the number of rounds. -/
  | count (v : V) (i : ℕ)
  /-- Before `*var` is read after the bounded spin. -/
  | look (v : V)
  /-- Before `FUTEX_WAIT`. -/
  | wait (v : V)
  /-- Asleep in `FUTEX_WAIT`. -/
  | parked (v : V)
  /-- Before `*var` is read in the last loop. -/
  | confirm (v : V)
  /-- In the increment of a counter, with its value if it has been read. -/
  | tally (v : V) (c : WaitCounter) (value : Option (BitVec 32)) (next : AfterTally)
  /-- Before `*var` is read by a wake. -/
  | peek (v : V)
  /-- Before `*var` is set. -/
  | store (v : V)
  /-- Before the compare-and-swap of a wake by `WAITING_SPINLOCK_ATOMIC`. -/
  | cas (v : V)
  /-- Before `FUTEX_WAKE`. -/
  | futexWake (v : V)
  deriving DecidableEq

/-- One action of the system. -/
inductive PolicyAction (T V : Type*) where
  /-- `waiting_policy_sleep` begins. -/
  | sleep (t : T) (v : V)
  /-- `waiting_policy_wake` begins. -/
  | wake (t : T) (v : V)
  /-- The next access of a thread, with the sleeper that a wake-up reaches. -/
  | access (t : T) (pick : Option T)
  /-- A sleep ends by a signal, or for no reason. -/
  | interrupt (t : T) (signal : Bool)
  /-- A client sets a variable to `LOCKED`. -/
  | lock (v : V)

/-- The variables, the counters and every thread. -/
structure PolicyState (T V : Type*) where
  var : V → BitVec 32
  counter : WaitCounter → BitVec 32
  point : T → PolicyPoint V
  aborted : Bool

section Points

variable {V : Type*} (v : V)

/-- Where `waiting_policy_sleep` begins. -/
def WaitingPolicy.sleepEntry : WaitingPolicy → PolicyPoint V
  | .spinlock => .spin v
  | .spinlockAtomic => .swap v
  | .spinThenPark => .count v 0
  | .park => .wait v

/-- Where `waiting_policy_wake` begins. -/
def WaitingPolicy.wakeEntry : WaitingPolicy → PolicyPoint V
  | .spinlock | .park => .store v
  | .spinlockAtomic => .cas v
  | .spinThenPark => .peek v

/-- After `FUTEX_WAIT` returned 0. -/
def WaitingPolicy.afterWait : WaitingPolicy → PolicyPoint V
  | .spinThenPark => .tally v .parkCnt none .confirm
  | _ => .confirm v

/-- After `FUTEX_WAIT` failed with `EINTR`. -/
def WaitingPolicy.afterSignal : WaitingPolicy → PolicyPoint V
  | .spinThenPark => .tally v .parkCnt none .retry
  | _ => .wait v

/-- After `FUTEX_WAIT` failed with `EAGAIN`. -/
def WaitingPolicy.afterRace : WaitingPolicy → PolicyPoint V
  | .spinThenPark => .tally v .spinCnt none .leave
  | _ => .confirm v

/-- After the variable is set. -/
def WaitingPolicy.afterStore : WaitingPolicy → PolicyPoint V
  | .spinThenPark | .park => .futexWake v
  | .spinlock | .spinlockAtomic => .outside

/-- After a counter is incremented. -/
def AfterTally.point : AfterTally → PolicyPoint V
  | .returned => .outside
  | .retry => .wait v
  | .leave => .tally v .parkCnt none .confirm
  | .confirm => .confirm v
  | .store => .store v

end Points

namespace PolicyState

variable {T V : Type*} [DecidableEq T] [DecidableEq V]

/-- Every variable `LOCKED`, every counter zero, nobody in a call. -/
def initial : PolicyState T V where
  var := fun _ => policyLocked
  counter := fun _ => 0
  point := fun _ => .outside
  aborted := false

/-- Move a thread to a program point. -/
@[simps] def goto (s : PolicyState T V) (t : T) (p : PolicyPoint V) : PolicyState T V :=
  { s with point := Function.update s.point t p }

/-- Write a variable. -/
@[simps] def set (s : PolicyState T V) (v : V) (x : BitVec 32) : PolicyState T V :=
  { s with var := Function.update s.var v x }

variable [Fintype T]

/-- `FUTEX_WAKE` of one thread: the picked sleeper, or nobody if nobody sleeps on the variable. -/
def futexWake (policy : WaitingPolicy) (s : PolicyState T V) (v : V) :
    Option T → Option (PolicyState T V)
  | some w => if s.point w = .parked v then some (s.goto w (policy.afterWait v)) else none
  | none => if ∀ w, s.point w ≠ .parked v then some s else none

/-- The next access of a thread that is awake. -/
def access (policy : WaitingPolicy) (s : PolicyState T V) (t : T) (pick : Option T) :
    Option (PolicyState T V) :=
  match s.point t with
  | .outside | .parked _ => none
  | .spin v => some (if s.var v = policyLocked then s else s.goto t .outside)
  | .swap v =>
    if s.var v = policyLocked then some s
    else
      some ((if s.var v = policyUnlocked then s.set v policyLocked else s).goto t .outside)
  | .count v i =>
    some (s.goto t
      (if i < spinningThreshold ∧ s.var v ≠ policyUnlocked then .count v (i + 1) else .look v))
  | .look v =>
    some (s.goto t
      (if s.var v = policyUnlocked then .tally v .spinCnt none .returned else .wait v))
  | .wait v =>
    some (s.goto t (if s.var v = policyLocked then .parked v else policy.afterRace v))
  | .confirm v => some (if s.var v ≠ policyUnlocked then s else s.goto t .outside)
  | .tally v c none next => some (s.goto t (.tally v c (some (s.counter c)) next))
  | .tally v c (some value) next =>
    some ({ s with counter := Function.update s.counter c (value + 1) }.goto t (next.point v))
  | .peek v =>
    some (s.goto t (if s.var v = 0 then .tally v .wakeCnt none .store else .store v))
  | .store v => some ((s.set v policyUnlocked).goto t (policy.afterStore v))
  | .cas v =>
    if s.var v = policyLocked then some ((s.set v policyUnlocked).goto t .outside)
    else some { s with aborted := true }
  | .futexWake v => (s.futexWake policy v pick).map fun s' => s'.goto t .outside

/-- One action, if it is possible in this state; an aborted process makes no step. -/
def step (policy : WaitingPolicy) (s : PolicyState T V) (x : PolicyAction T V) :
    Option (PolicyState T V) :=
  if s.aborted then none
  else
    match x with
    | .sleep t v =>
      if s.point t = .outside then some (s.goto t (policy.sleepEntry v)) else none
    | .wake t v => if s.point t = .outside then some (s.goto t (policy.wakeEntry v)) else none
    | .access t pick => s.access policy t pick
    | .interrupt t signal =>
      match s.point t with
      | .parked v =>
        some (s.goto t (if signal then policy.afterSignal v else policy.afterWait v))
      | _ => none
    | .lock v => some (s.set v policyLocked)

end PolicyState

end Htll
