import Htll.SegmentStack
import Htll.TableMachine
import Mathlib.Data.Finset.Card
import Mathlib.Tactic.Simps.Basic

/-!
# Threads of a process

A thread enters the library in one of two ways. The main thread runs the constructor
`interpose_init`; every other thread is created by a running one and begins in
`lp_start_routine`, which also calls `lock_thread_start` before the client's routine. Both take
the next number of `last_thread_id` as `cur_thread_id` and end the process if it is not below
`MAX_THREADS`. No number is ever given back.

The system bounds how many threads are alive at the same time, and a creation beyond that
bound does not succeed. The parts of `interpose_init` other than the numbering are left out:
they are those of the table, and no second thread exists before they are done.

`issued` is bookkeeping that no step reads: the threads in the order in which they took their
numbers.
-/

namespace Htll

/-- The function in which a thread enters the library. -/
inductive Entry where
  | interposeInit
  | lpStartRoutine
  deriving DecidableEq

/-- The program point of a thread. -/
inductive ThreadPoint where
  /-- Not created. -/
  | unborn
  /-- Before `last_thread_id` is advanced. -/
  | fetch (f : Entry)
  /-- Before `cur_thread_id` is compared with `MAX_THREADS`. -/
  | check (f : Entry)
  /-- In `lp_start_routine`, before `lock_thread_start`. -/
  | start
  /-- In the client's code. -/
  | running
  | gone
  deriving DecidableEq

/-- The point after the comparison. -/
def Entry.passed : Entry → ThreadPoint
  | .interposeInit => .running
  | .lpStartRoutine => .start

/-- A thread that exists. -/
def ThreadPoint.isAlive : ThreadPoint → Bool
  | .unborn | .gone => false
  | .fetch _ | .check _ | .start | .running => true

/-- A thread that has taken a number. -/
def ThreadPoint.numbered : ThreadPoint → Bool
  | .unborn | .fetch _ => false
  | .check _ | .start | .running | .gone => true

/-- A thread that has compared its number. -/
def ThreadPoint.admitted : ThreadPoint → Bool
  | .unborn | .fetch _ | .check _ => false
  | .start | .running | .gone => true

/-- One action of the process. -/
inductive ProcessAction (T : Type*) where
  /-- A running thread creates another one. -/
  | create (t u : T)
  /-- The next access of a thread on its way to the client's code. -/
  | access (t : T)
  /-- A running thread calls the segment interface or waits for a lock. -/
  | segment (t : T) (e : SegmentEvent)
  /-- A running thread returns from its routine. -/
  | exit (t : T)

/-- The thread counter and every thread. -/
structure Process (T : Type*) where
  lastThreadId : BitVec 32
  curThreadId : T → BitVec 32
  point : T → ThreadPoint
  tls : T → Tls
  alive : Finset T
  /-- `Maximum number of threads reached`, and `exit(-1)`. -/
  terminated : Bool
  issued : List T

namespace Process

variable {T : Type*} [DecidableEq T]

/-- The main thread before the constructor. -/
def initial (main : T) : Process T where
  lastThreadId := 0
  curThreadId := fun _ => 0
  point := fun t => if t = main then .fetch .interposeInit else .unborn
  tls := fun _ => Tls.zero
  alive := {main}
  terminated := false
  issued := []

/-- Move a thread to a program point. -/
@[simps] def goto (s : Process T) (t : T) (p : ThreadPoint) : Process T :=
  { s with point := Function.update s.point t p }

/-- Replace the `__thread` variables of a thread. -/
@[simps] def setTls (s : Process T) (t : T) (th : Tls) : Process T :=
  { s with tls := Function.update s.tls t th }

/-- `cur_thread_id = __sync_fetch_and_add(&last_thread_id, 1)`. -/
@[simps] def number (s : Process T) (t : T) : Process T :=
  { s with
    lastThreadId := s.lastThreadId + 1
    curThreadId := Function.update s.curThreadId t s.lastThreadId
    issued := s.issued ++ [t] }

/-- The next access of a thread in `interpose_init` or `lp_start_routine`. -/
def access (s : Process T) (t : T) : Option (Process T) :=
  match s.point t with
  | .fetch f => some ((s.number t).goto t (.check f))
  | .check f =>
    some (if s.curThreadId t ≥ maxThreads then { s with terminated := true }
      else s.goto t f.passed)
  | .start => some ((s.setTls t (htllThreadStart (s.tls t))).goto t .running)
  | .unborn | .running | .gone => none

/-- One action, if it is possible in this state; a terminated process makes no step. -/
def step (limit : ℕ) (s : Process T) (a : ProcessAction T) : Option (Process T) :=
  if s.terminated then none
  else
    match a with
    | .create t u =>
      if s.point t = .running ∧ s.point u = .unborn ∧ s.alive.card < limit then
        some { s.goto u (.fetch .lpStartRoutine) with alive := insert u s.alive }
      else none
    | .access t => s.access t
    | .segment t e =>
      if s.point t = .running then (segmentStep (s.tls t) e).map fun result => s.setTls t result.2
      else none
    | .exit t =>
      if s.point t = .running then some { s.goto t .gone with alive := s.alive.erase t } else none

variable {limit : ℕ} {s s' : Process T} {a : ProcessAction T}

/-- What a step can do. -/
inductive Effect (limit : ℕ) (s : Process T) : ProcessAction T → Process T → Prop where
  | created {t u : T} (ht : s.point t = .running) (hu : s.point u = .unborn)
      (hroom : s.alive.card < limit) :
      Effect limit s (.create t u)
        { s.goto u (.fetch .lpStartRoutine) with alive := insert u s.alive }
  | numbered {t : T} {f : Entry} (hp : s.point t = .fetch f) :
      Effect limit s (.access t) ((s.number t).goto t (.check f))
  | refused {t : T} {f : Entry} (hp : s.point t = .check f) (hid : s.curThreadId t ≥ maxThreads) :
      Effect limit s (.access t) { s with terminated := true }
  | admitted {t : T} {f : Entry} (hp : s.point t = .check f) (hid : s.curThreadId t < maxThreads) :
      Effect limit s (.access t) (s.goto t f.passed)
  | started {t : T} (hp : s.point t = .start) :
      Effect limit s (.access t) ((s.setTls t (htllThreadStart (s.tls t))).goto t .running)
  | called {t : T} {e : SegmentEvent} {code : ℤ} {th : Tls} (hp : s.point t = .running)
      (h : segmentStep (s.tls t) e = some (code, th)) :
      Effect limit s (.segment t e) (s.setTls t th)
  | exited {t : T} (hp : s.point t = .running) :
      Effect limit s (.exit t) { s.goto t .gone with alive := s.alive.erase t }

/-- Every step has one of these effects. -/
theorem step_effect (h : s.step limit a = some s') :
    s.terminated = false ∧ Effect limit s a s' := by
  obtain ⟨hterminated, h⟩ := Option.ite_none_left_eq_some.mp h
  refine ⟨by simpa using hterminated, ?_⟩
  cases a with
  | create t u =>
    obtain ⟨⟨ht, hu, hroom⟩, h⟩ := Option.ite_none_right_eq_some.mp h
    cases h
    exact .created ht hu hroom
  | access t =>
    simp only [access] at h
    split at h
    · rename_i f hp
      cases h
      exact .numbered hp
    · rename_i f hp
      split at h
      · rename_i hid
        cases h
        exact .refused hp hid
      · rename_i hid
        cases h
        exact .admitted hp (BitVec.not_le.mp hid)
    · rename_i hp
      cases h
      exact .started hp
    · cases h
    · cases h
    · cases h
  | segment t e =>
    obtain ⟨hp, h⟩ := Option.ite_none_right_eq_some.mp h
    obtain ⟨⟨code, th⟩, hstep, rfl⟩ := Option.map_eq_some_iff.mp h
    exact .called hp hstep
  | exit t =>
    obtain ⟨hp, h⟩ := Option.ite_none_right_eq_some.mp h
    cases h
    exact .exited hp

/-- Every effect is a step of a process that is not terminated. -/
theorem Effect.step (h : Effect limit s a s') (hterminated : s.terminated = false) :
    s.step limit a = some s' := by
  cases h with
  | created ht hu hroom => simp [Process.step, hterminated, ht, hu, hroom]
  | numbered hp => simp [Process.step, hterminated, access, hp]
  | refused hp hid => simp [Process.step, hterminated, access, hp, hid]
  | admitted hp hid => simp [Process.step, hterminated, access, hp, BitVec.not_le.mpr hid]
  | started hp => simp [Process.step, hterminated, access, hp]
  | called hp h => simp [Process.step, hterminated, hp, h]
  | exited hp => simp [Process.step, hterminated, hp]

end Process

end Htll
