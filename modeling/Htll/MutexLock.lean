import Htll.LockWord
import Htll.Protocol.ParkingLock

/-!
# Taking the lock: `htll_mutex_lock` and `htll_mutex_trylock`

Each program point stands before one access to shared memory or before one futex call. The
local variables that later accesses read are carried by the point: `flag` (no segment is
open), the spin budget `spin_ticks` and the tick count at which the current spin began. The
tick counter is read from outside, so a spin lasts any number of byte swaps.

A call inside a segment parks with a time-out and starts again from the top of the loop; a
call outside segments swaps 257 before each untimed park.
-/

namespace Htll

open ParkingLock

/-- What one access of a thread leads to, besides its effect on the mutex record. -/
inductive Outcome (P : Type*) where
  /-- The call goes on at a program point. -/
  | goto (p : P)
  /-- The call records that the thread waited in its segment and goes on. -/
  | mark (p : P)
  /-- The kernel puts the thread to sleep on the mutex word; the call goes on afterwards. -/
  | sleep (p : P)
  /-- The access took the lock and the call returns. -/
  | take
  /-- The call returns without the lock. -/
  | fail
  /-- The access freed the lock; the call goes on, or is over. -/
  | free (p : Option P)
  /-- One sleeper on the mutex word is woken and the call is over. -/
  | wake
  /-- The call is over. -/
  | done

/-- The abstract state after an access that left the given bytes; a wake-up is not included. -/
def Outcome.apply {P T : Type*} [DecidableEq T] (role : P → Role) (s : ParkingLock.State T) (t : T)
    (locked contended : Bool) : Outcome P → ParkingLock.State T
  | .goto p | .mark p =>
    { s with locked, contended, role := Function.update s.role t (role p) }
  | .sleep p =>
    { s with
      locked, contended
      role := Function.update s.role t (role p)
      place := Function.update s.place t .onWord }
  | .take =>
    { s with
      locked, contended
      holds := Function.update s.holds t true
      role := Function.update s.role t .neutral }
  | .free p =>
    { s with
      locked, contended
      holds := Function.update s.holds t false
      role := Function.update s.role t (p.elim .neutral role) }
  | .fail | .wake | .done => { s with locked, contended, role := Function.update s.role t .neutral }

/-- The access of a thread is one step of the parking lock, or none. -/
def Outcome.Sound {P T : Type*} [DecidableEq T] (role : P → Role) (s : ParkingLock.State T) (t : T)
    (result : Mutex × Outcome P) : Prop :=
  ∃ locked contended, result.1.u = wordOf locked contended ∧
    Moves s (result.2.apply role s t locked contended)

/-- The program points of `htll_mutex_lock`. -/
inductive LockPoint where
  /-- Before `m->ticks_spin` and `cur_segment_id` are read. -/
  | entry
  /-- Before the byte swap at the top of the loop. -/
  | top (flag : Bool) (spinTicks : BitVec 32)
  /-- Before the first tick count of `HTLL_FOR_N_CYCLES`. -/
  | start (flag : Bool) (spinTicks : BitVec 32)
  /-- Before the byte swap inside `HTLL_FOR_N_CYCLES`. -/
  | spin (flag : Bool) (spinTicks : BitVec 32) (since : BitVec 64)
  /-- Before the second tick count of `HTLL_FOR_N_CYCLES`. -/
  | elapsed (flag : Bool) (spinTicks : BitVec 32) (since : BitVec 64)
  /-- Before the swap of `LOCKED_AND_CONTENDED`. -/
  | sleep (flag : Bool) (spinTicks : BitVec 32)
  /-- Inside a segment, before the timed `FUTEX_WAIT`. -/
  | park (spinTicks : BitVec 32)
  /-- Inside a segment, after the timed `FUTEX_WAIT`. -/
  | mark (spinTicks : BitVec 32)
  /-- Outside segments, before the swap of 257. -/
  | swap
  /-- Outside segments, before the untimed `FUTEX_WAIT`. -/
  | wait
  deriving DecidableEq

/-- One access of `htll_mutex_lock` by a thread with the given `cur_segment_id`. -/
def htllMutexLock (curSegmentId : ℤ) (ticks : BitVec 64) (x : Mutex) :
    LockPoint → Mutex × Outcome LockPoint
  | .entry => (x, .goto (.top (curSegmentId == -1) x.ticksSpin))
  | .top flag spinTicks =>
    let (old, u) := htllSwapUint8 x.u 1
    ({ x with u }, if old = 0 then .take else .goto (.start flag spinTicks))
  | .start flag spinTicks => (x, .goto (.spin flag spinTicks ticks))
  | .spin flag spinTicks since =>
    let (old, u) := htllSwapUint8 x.u 1
    ({ x with u }, if old = 0 then .take else .goto (.elapsed flag spinTicks since))
  | .elapsed flag spinTicks since =>
    -- the int `n` is converted to uint64_t for this comparison
    (x, if ticks - since > spinTicks.signExtend 64 then .goto (.sleep flag spinTicks)
      else .goto (.spin flag spinTicks since))
  | .sleep flag spinTicks =>
    let (old, u) := htllSwapUint32 x.u lockedAndContended
    ({ x with u },
      if old &&& 1 = 0 then .take else if flag then .goto .swap else .goto (.park spinTicks))
  | .park spinTicks =>
    (x, if x.u = lockedAndContended then .sleep (.mark spinTicks) else .goto (.mark spinTicks))
  | .mark spinTicks => (x, .mark (.top false (spinTicks * 2)))
  | .swap =>
    let (old, u) := htllSwapUint32 x.u lockedAndContended
    ({ x with u }, if old &&& 1 = 0 then .take else .goto .wait)
  | .wait => (x, if x.u = lockedAndContended then .sleep .swap else .goto .swap)

/-- `htll_mutex_trylock`: one byte swap, and `EBUSY` when the byte was set. -/
def htllMutexTrylock (x : Mutex) : Mutex × Outcome LockPoint :=
  let (old, u) := htllSwapUint8 x.u 1
  ({ x with u }, if old = 0 then .take else .fail)

/-- What a thread inside `htll_mutex_lock` has ahead of it: inside a segment it may take the
lock by a byte swap until it reaches the full swap. -/
def LockPoint.role : LockPoint → Role
  | .entry | .wait => .neutral
  | .top flag _ | .start flag _ | .spin flag _ _ | .elapsed flag _ _ =>
    if flag then .neutral else .racer
  | .park _ | .mark _ => .racer
  | .sleep _ _ | .swap => .taker

/-- The access belongs to a call that only returns once it has the lock. -/
def Outcome.acquires {P : Type*} : Outcome P → Bool
  | .goto _ | .mark _ | .sleep _ | .take => true
  | .fail | .free _ | .wake | .done => false

/-- Such an access wakes nobody. -/
theorem Outcome.ne_wake_of_acquires {P : Type*} {o : Outcome P} (h : o.acquires = true) :
    o ≠ .wake := by
  rintro rfl
  cases h

/-- `htll_mutex_lock` does not return without the lock. -/
theorem htllMutexLock_acquires (curSegmentId : ℤ) (ticks : BitVec 64) (x : Mutex) (p : LockPoint) :
    (htllMutexLock curSegmentId ticks x p).2.acquires = true := by
  cases p <;> simp only [htllMutexLock] <;> try split_ifs
  all_goals rfl

/-- `htll_mutex_trylock` is over after its swap. -/
theorem htllMutexTrylock_ends (x : Mutex) :
    (htllMutexTrylock x).2 = .take ∨ (htllMutexTrylock x).2 = .fail ∧ lockedByte x.u ≠ 0 := by
  by_cases h : lockedByte x.u = 0
  · exact Or.inl (if_pos h)
  · exact Or.inr ⟨if_neg h, h⟩

section Accesses

variable {T P : Type*} [DecidableEq T] {role : P → Role} {s : ParkingLock.State T} {t : T}
  {x : Mutex}

/-- An access that leaves the word alone moves the thread to a point of the same or of a more
committed role. -/
theorem goto_sound {p : P} (hword : x.u = wordOf s.locked s.contended) (hawake : s.place t = .awake)
    (hrole : role p = s.role t ∨ s.role t = .neutral ∧ (role p = .taker ∨ role p = .racer) ∨
      s.role t = .racer ∧ role p = .taker) : Outcome.Sound role s t (x, .goto p) := by
  refine ⟨s.locked, s.contended, hword, ?_⟩
  rcases hrole with hsame | ⟨hneutral, hnew⟩ | ⟨hracer, hnew⟩
  · exact Moves.keep_role hsame.symm
  · exact .single (.compete hawake hneutral hnew)
  · simp only [Outcome.apply, hnew]
    exact .single (.fallBack hawake hracer)

/-- The byte swap takes a free lock and changes nothing otherwise. -/
theorem byteSwap_sound {o : Outcome P} {r : Role} (hword : x.u = wordOf s.locked s.contended)
    (hawake : s.place t = .awake) (hr : s.role t = r) (hrole : r = .neutral ∨ r = .racer)
    (ho : o.apply role s t true s.contended =
      { s with locked := true, role := Function.update s.role t r }) :
    Outcome.Sound role s t ({ x with u := (htllSwapUint8 x.u 1).2 },
      if (htllSwapUint8 x.u 1).1 = 0 then .take else o) := by
  refine ⟨true, s.contended, by simp [htllSwapUint8, hword], ?_⟩
  cases hlocked : s.locked with
  | false =>
    simp only [htllSwapUint8, hword, hlocked, lockedByte_wordOf]
    exact .single (.byteTake hawake (hr ▸ hrole) hlocked)
  | true =>
    simp only [htllSwapUint8, hword, hlocked, lockedByte_wordOf]
    rw [if_neg (by decide), ho, ← hlocked]
    exact Moves.keep_role hr

/-- The full swap takes a free lock and marks a taken one. -/
theorem fullSwap_sound {o : Outcome P} {r : Role} (hword : x.u = wordOf s.locked s.contended)
    (hawake : s.place t = .awake) (hrole : s.role t = .taker)
    (hr : r = .neutral ∨ r = .taker ∨ r = .racer)
    (ho : o.apply role s t true true =
      { s with locked := true, contended := true, role := Function.update s.role t r }) :
    Outcome.Sound role s t ({ x with u := (htllSwapUint32 x.u lockedAndContended).2 },
      if (htllSwapUint32 x.u lockedAndContended).1 &&& 1 = 0 then .take else o) := by
  refine ⟨true, true, lockedAndContended_eq, ?_⟩
  cases hlocked : s.locked with
  | false =>
    simp only [htllSwapUint32, hword, hlocked]
    rw [if_pos (by simp)]
    exact .single (.fullTake hawake hrole hlocked)
  | true =>
    simp only [htllSwapUint32, hword, hlocked]
    rw [if_neg (by simp), ho]
    have hstep := Step.fullFail hawake hrole hlocked hr
    rw [hlocked] at hstep
    exact .single hstep

/-- `FUTEX_WAIT` with the value 257 sleeps exactly while both bytes are set. -/
theorem futexWait_sound {p : P} (hword : x.u = wordOf s.locked s.contended)
    (hawake : s.place t = .awake)
    (hrole : s.role t = .neutral ∧ role p = .taker ∨ s.role t = .racer ∧ role p = .racer) :
    Outcome.Sound role s t
      (x, if x.u = lockedAndContended then .sleep p else .goto p) := by
  by_cases hboth : x.u = lockedAndContended
  · rw [if_pos hboth]
    refine ⟨s.locked, s.contended, hword, ?_⟩
    rw [hword, wordOf_eq_lockedAndContended] at hboth
    exact .single (.park hawake hboth.1 hboth.2 hrole)
  · rw [if_neg hboth]
    refine goto_sound hword hawake ?_
    rcases hrole with ⟨hneutral, htaker⟩ | ⟨hracer, hsame⟩
    · exact Or.inr (Or.inl ⟨hneutral, Or.inl htaker⟩)
    · exact Or.inl (hsame.trans hracer.symm)

end Accesses

variable {T : Type*} [DecidableEq T] {s : ParkingLock.State T} {t : T} {x : Mutex}

/-- Every access of `htll_mutex_lock` is a step of the parking lock. -/
theorem htllMutexLock_sound (curSegmentId : ℤ) (ticks : BitVec 64) (p : LockPoint)
    (hword : x.u = wordOf s.locked s.contended) (hawake : s.place t = .awake)
    (hrole : s.role t = p.role) :
    Outcome.Sound LockPoint.role s t (htllMutexLock curSegmentId ticks x p) := by
  cases p with
  | entry =>
    refine goto_sound hword hawake ?_
    rw [hrole]
    cases h : curSegmentId == -1 <;> simp [LockPoint.role]
  | top flag spinTicks =>
    exact byteSwap_sound hword hawake hrole (by cases flag <;> simp [LockPoint.role]) rfl
  | start flag spinTicks => exact goto_sound hword hawake (Or.inl hrole.symm)
  | spin flag spinTicks since =>
    exact byteSwap_sound hword hawake hrole (by cases flag <;> simp [LockPoint.role]) rfl
  | elapsed flag spinTicks since =>
    simp only [htllMutexLock]
    split
    · refine goto_sound hword hawake ?_
      rw [hrole]
      cases flag <;> simp [LockPoint.role]
    · exact goto_sound hword hawake (Or.inl hrole.symm)
  | sleep flag spinTicks =>
    cases flag with
    | false => exact fullSwap_sound (r := .racer) hword hawake hrole (by simp) rfl
    | true => exact fullSwap_sound (r := .taker) hword hawake hrole (by simp) rfl
  | park spinTicks => exact futexWait_sound hword hawake (Or.inr ⟨hrole, rfl⟩)
  | mark spinTicks =>
    exact ⟨s.locked, s.contended, hword, Moves.keep_role hrole⟩
  | swap => exact fullSwap_sound (r := .neutral) hword hawake hrole (by simp) rfl
  | wait => exact futexWait_sound hword hawake (Or.inl ⟨hrole, rfl⟩)

/-- `htll_mutex_trylock` is one byte swap of a thread that carries nothing. -/
theorem htllMutexTrylock_sound (hword : x.u = wordOf s.locked s.contended)
    (hawake : s.place t = .awake) (hrole : s.role t = .neutral) :
    Outcome.Sound LockPoint.role s t (htllMutexTrylock x) :=
  byteSwap_sound hword hawake hrole (Or.inl rfl) rfl

end Htll
