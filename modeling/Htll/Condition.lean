import Htll.MutexUnlock

/-!
# Waiting on a condition variable

`upmutex_cond1_wait` and `htll_cond_timedwait` share their text up to the time-out: they read
`seq`, bind the condition variable to the mutex, release the mutex, sleep on `seq`, and take
the mutex back by swapping 257 until the locked byte was clear. The binding reads `c->m` three
times around one compare-and-swap.
-/

namespace Htll

open ParkingLock

/-- `EINVAL`. -/
def einval : ℤ := 22

/-- `ETIMEDOUT`. -/
def etimedout : ℤ := 110

/-- `EBUSY`. -/
def ebusy : ℤ := 16

/-- `upmutex_cond1_t`: the bound mutex, if any, and the sequence number. -/
structure Cond (M : Type*) where
  m : Option M
  seq : BitVec 32

/-- `upmutex_cond1_init`. -/
def upmutexCond1Init {M : Type*} : Cond M := { m := none, seq := 0 }

/-- `struct timespec`. -/
structure Timespec where
  tvSec : ℤ
  tvNsec : ℤ
  deriving DecidableEq

/-- `struct timeval`. -/
structure Timeval where
  tvSec : ℤ
  tvUsec : ℤ
  deriving DecidableEq

/-- The absolute time-out as a time relative to a clock reading. -/
def relativeTimeout (ts : Timespec) (tv : Timeval) : Timespec :=
  let sec := ts.tvSec - tv.tvSec
  let nsec := ts.tvNsec - tv.tvUsec * 1000
  if nsec < 0 then { tvSec := sec - 1, tvNsec := nsec + 1000000000 }
  else { tvSec := sec, tvNsec := nsec }

/-- The program points of the binding of a condition variable to a mutex. -/
inductive BindPoint where
  /-- Before `c->seq` is read. -/
  | seq
  /-- Before `c->m` is compared with the mutex. -/
  | compare (seq : BitVec 32)
  /-- Before `c->m` is compared with `NULL`. -/
  | vacant (seq : BitVec 32)
  /-- Before the compare-and-swap from `NULL`. -/
  | swap (seq : BitVec 32)
  /-- Before `c->m` is compared with the mutex again. -/
  | confirm (seq : BitVec 32)
  deriving DecidableEq

/-- What one access of the binding leads to. -/
inductive BindOutcome where
  | goto (p : BindPoint)
  | einval
  | bound (seq : BitVec 32)

/-- One access of the binding. -/
def bindCond {M : Type*} [DecidableEq M] (m : M) (c : Cond M) : BindPoint → Cond M × BindOutcome
  | .seq => (c, .goto (.compare c.seq))
  | .compare seq => (c, if c.m = some m then .bound seq else .goto (.vacant seq))
  | .vacant seq => (c, if c.m.isSome then .einval else .goto (.swap seq))
  | .swap seq => (if c.m = none then { c with m := some m } else c, .goto (.confirm seq))
  | .confirm seq => (c, if c.m = some m then .bound seq else .einval)

/-- The program points of the loop that takes the mutex back. -/
inductive RetakePoint where
  /-- Before the swap of 257. -/
  | swap
  /-- Before the timed `FUTEX_WAIT`. -/
  | park
  /-- After the timed `FUTEX_WAIT`. -/
  | mark
  deriving DecidableEq

/-- One access of the loop that takes the mutex back. -/
def retakeMutex (x : Mutex) : RetakePoint → Mutex × Outcome RetakePoint
  | .swap =>
    let (old, u) := htllSwapUint32 x.u lockedAndContended
    ({ x with u }, if old &&& 1 = 0 then .take else .goto .park)
  | .park => (x, if x.u = lockedAndContended then .sleep .mark else .goto .mark)
  | .mark => (x, .mark .swap)

/-- The loop does not end without the mutex. -/
theorem retakeMutex_acquires (x : Mutex) (p : RetakePoint) :
    (retakeMutex x p).2.acquires = true := by
  cases p <;> simp only [retakeMutex] <;> try split_ifs
  all_goals rfl

/-- The next access to the word is the full swap, except before the sleep. -/
def RetakePoint.role : RetakePoint → Role
  | .swap | .mark => .taker
  | .park => .neutral

/-- Every access of the loop is a step of the parking lock. -/
theorem retakeMutex_sound {T : Type*} [DecidableEq T] {s : ParkingLock.State T} {t : T} {x : Mutex}
    (p : RetakePoint) (hword : x.u = wordOf s.locked s.contended) (hawake : s.place t = .awake)
    (hrole : s.role t = p.role) : Outcome.Sound RetakePoint.role s t (retakeMutex x p) := by
  cases p with
  | swap => exact fullSwap_sound (r := .neutral) hword hawake hrole (by simp) rfl
  | park => exact futexWait_sound hword hawake (Or.inl ⟨hrole, rfl⟩)
  | mark => exact ⟨s.locked, s.contended, hword, Moves.keep_role hrole⟩

section Binding

variable {M : Type*} [DecidableEq M] {m : M} {c : Cond M}

/-- The binding never changes a bound mutex. -/
theorem bindCond_m (p : BindPoint) (m₀ : M) (h : c.m = some m₀) :
    (bindCond m c p).1.m = some m₀ := by
  cases p <;> simp [bindCond, h]

/-- The binding never changes the sequence number. -/
theorem bindCond_seq (p : BindPoint) : (bindCond m c p).1.seq = c.seq := by
  cases p with
  | swap => by_cases h : c.m = none <;> simp [bindCond, h]
  | _ => rfl

/-- A binding that succeeds leaves the condition variable bound to the mutex. -/
theorem bindCond_bound {p : BindPoint} {seq : BitVec 32}
    (h : (bindCond m c p).2 = .bound seq) : (bindCond m c p).1.m = some m := by
  cases p with
  | compare _ | confirm _ =>
    by_contra hne
    simp only [bindCond] at h hne
    rw [if_neg hne] at h
    cases h
  | vacant _ =>
    simp only [bindCond] at h
    split at h <;> cases h
  | seq | swap _ => cases h

end Binding

end Htll
