import Htll.MutexLock

/-!
# Releasing the lock: `htll_mutex_unlock`

An uncontended lock is freed by one compare-and-swap. Otherwise the locked byte is stored,
and only if it is still clear after two looks is the contended byte cleared and one sleeper
woken. Between its release and its wake-up the caller does not hold the lock any more, while
it still writes to the word. The counters that steer the spin budget take one step each.
-/

namespace Htll

open ParkingLock

/-- `adjust_spin_ticks`: raise or lower the spin budget by the number of recent wake-ups. -/
def adjustSpinTicks (x : Mutex) : Mutex :=
  let ticksSpin :=
    if x.cntWake > 32 then x.ticksSpin + 512
    else if x.cntWake < 16 then x.ticksSpin - 256
    else x.ticksSpin
  { x with ticksSpin, cntWake := 0 }

/-- The program points of `htll_mutex_unlock`. -/
inductive UnlockPoint where
  /-- Before the word is compared with 1. -/
  | load
  /-- Before the compare-and-swap from 1 to 0. -/
  | cas
  /-- Before `cnt_unlock` is counted and, every 2048th time, the spin budget adjusted. -/
  | count
  /-- Before `locked` is cleared. -/
  | store
  /-- Before the first look at `locked` after the release. -/
  | check
  /-- Before the second look, after `delay_ticks`. -/
  | recheck
  /-- Before `contended` is cleared. -/
  | clear
  /-- Before `cnt_wake` is counted. -/
  | tally
  /-- Before `FUTEX_WAKE`. -/
  | wake
  deriving DecidableEq

/-- One access of `htll_mutex_unlock`. -/
def htllMutexUnlock (x : Mutex) : UnlockPoint → Mutex × Outcome UnlockPoint
  | .load => (x, .goto (if x.u = 1 then .cas else .count))
  | .cas =>
    let (old, u) := syncValCompareAndSwap x.u 1 0
    ({ x with u }, if old = 1 then .free none else .goto .count)
  | .count =>
    let x' := { x with cntUnlock := x.cntUnlock + 1 }
    (if x'.cntUnlock &&& 2047 = 0 then adjustSpinTicks x' else x', .goto .store)
  | .store => ({ x with u := setLockedByte x.u 0 }, .free (some .check))
  | .check => (x, if lockedByte x.u = 0 then .goto .recheck else .done)
  | .recheck => (x, if lockedByte x.u = 1 then .done else .goto .clear)
  | .clear => ({ x with u := setContendedByte x.u 0 }, .goto .tally)
  | .tally => ({ x with cntWake := x.cntWake + 1 }, .goto .wake)
  | .wake => (x, .wake)

/-- The caller still holds the lock. -/
def UnlockPoint.holding : UnlockPoint → Bool
  | .load | .cas | .count | .store => true
  | .check | .recheck | .clear | .tally | .wake => false

/-- The hand-off begins with the store that frees the lock. -/
def UnlockPoint.role : UnlockPoint → Role
  | .load | .cas | .count | .store => .neutral
  | .check | .recheck | .clear => .releaser
  | .tally | .wake => .waker

/-- Only the last access of `htll_mutex_unlock` wakes somebody. -/
theorem htllMutexUnlock_ne_wake (x : Mutex) {p : UnlockPoint} (hp : p ≠ .wake) :
    (htllMutexUnlock x p).2 ≠ .wake := by
  cases p <;> simp only [htllMutexUnlock] <;> try split_ifs
  all_goals first | exact absurd rfl hp | simp

/-- A caller that goes on without freeing the lock holds it afterwards only if it did before. -/
theorem htllMutexUnlock_goto_holding {x : Mutex} {p p' : UnlockPoint}
    (h : (htllMutexUnlock x p).2 = .goto p') (hp : p'.holding = true) : p.holding = true := by
  cases p with
  | load | cas | count | store => rfl
  | check | recheck =>
    simp only [htllMutexUnlock] at h
    split at h <;> cases h
    exact hp
  | clear | tally | wake =>
    cases h
    try exact hp

/-- The access that frees the lock leaves the caller without it. -/
theorem htllMutexUnlock_free_holding {x : Mutex} {p p' : UnlockPoint}
    (h : (htllMutexUnlock x p).2 = .free (some p')) : p'.holding = false := by
  cases p with
  | store =>
    cases h
    rfl
  | cas | check | recheck =>
    simp only [htllMutexUnlock] at h
    split at h <;> cases h
  | load | count | clear | tally | wake => cases h

/-- Releasing never puts the caller to sleep and never records a wait. -/
theorem htllMutexUnlock_awake {x : Mutex} {p p' : UnlockPoint} :
    (htllMutexUnlock x p).2 ≠ .sleep p' ∧ (htllMutexUnlock x p).2 ≠ .mark p' := by
  cases p <;> simp only [htllMutexUnlock] <;> try split_ifs
  all_goals simp

variable {T : Type*} [DecidableEq T] {s : ParkingLock.State T} {t : T} {x : Mutex}

/-- A second look after the release ends the call exactly when the lock is taken again. -/
theorem look_sound {p : UnlockPoint} {taken : Prop} [Decidable taken]
    (hword : x.u = wordOf s.locked s.contended) (hawake : s.place t = .awake)
    (hrole : s.role t = .releaser) (hp : p.role = .releaser) (htaken : taken ↔ s.locked = true) :
    Outcome.Sound UnlockPoint.role s t (x, if taken then .done else .goto p) := by
  by_cases h : taken
  · rw [if_pos h]
    exact ⟨s.locked, s.contended, hword, .single (.seeTaken hrole (htaken.mp h))⟩
  · rw [if_neg h]
    exact goto_sound hword hawake (Or.inl (hp.trans hrole.symm))

/-- Every access of `htll_mutex_unlock` but the wake-up is a step of the parking lock, for a
caller that holds the lock until it frees it. -/
theorem htllMutexUnlock_sound (p : UnlockPoint) (hword : x.u = wordOf s.locked s.contended)
    (hawake : s.place t = .awake) (hrole : s.role t = p.role)
    (hholds : p.holding = true → s.holds t = true) (hp : p ≠ .wake) :
    Outcome.Sound UnlockPoint.role s t (htllMutexUnlock x p) := by
  cases p with
  | load =>
    refine goto_sound hword hawake (Or.inl ?_)
    rw [hrole]
    split <;> rfl
  | cas =>
    simp only [htllMutexUnlock, syncValCompareAndSwap]
    by_cases hone : x.u = 1
    · simp only [hone, if_true]
      refine ⟨false, false, rfl, ?_⟩
      rw [hword, BitVec.ofNat_eq_ofNat, wordOf_eq_one] at hone
      have hkeep : Function.update s.role t .neutral = s.role :=
        Function.update_eq_self_iff.mpr hrole.symm
      have hstep := Step.releaseFast (hholds rfl) hone.1 hone.2
      rw [hone.2] at hstep
      simp only [Outcome.apply, Option.elim_none, hkeep]
      exact .single hstep
    · simp only [hone, if_false]
      exact goto_sound hword hawake (Or.inl hrole.symm)
  | count =>
    simp only [htllMutexUnlock]
    refine goto_sound ?_ hawake (Or.inl hrole.symm)
    split <;> exact hword
  | store =>
    refine ⟨false, s.contended, by simp [htllMutexUnlock, hword], ?_⟩
    exact .single (.releaseSlow hawake hrole (hholds rfl))
  | check =>
    have hzero : lockedByte x.u = 0 ↔ ¬s.locked = true := by
      rw [hword, lockedByte_wordOf]
      cases s.locked <;> decide
    simp only [htllMutexUnlock]
    rw [← ite_not]
    exact look_sound hword hawake hrole rfl (by rw [hzero, not_not])
  | recheck =>
    refine look_sound hword hawake hrole rfl ?_
    rw [hword, lockedByte_wordOf]
    cases s.locked <;> decide
  | clear =>
    refine ⟨s.locked, false, by simp [htllMutexUnlock, hword], ?_⟩
    exact .single (.clear hrole)
  | tally => exact goto_sound hword hawake (Or.inl hrole.symm)
  | wake => exact absurd rfl hp

end Htll
