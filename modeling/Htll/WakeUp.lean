import Htll.MutualExclusion

/-!
# Lost and kept wake-ups on a mutex

A releasing thread clears the contended byte before it wakes one sleeper, so the others depend
on somebody setting it again. Threads outside segments and waiting threads always come back
through the full swap, which does. A thread inside a segment starts again with a byte swap: if
that takes the lock, the mark is lost, its next release takes the fast path, and a sleeper in
the untimed wait is never woken.

Below are a run that loses a wake-up so, and the condition on such a byte swap under which
none is lost.
-/

namespace Htll

open ParkingLock Transition

/-- A thread with something ahead of it on a mutex is inside an operation on it. -/
theorem Point.mutex_of_role {M C : Type*} [DecidableEq M] {m : M} {p : Point M C}
    (h : p.role m ≠ .neutral) : p.mutex = some m := by
  cases p with
  | lock m' | unlock m' | reclock _ m' | retake _ m' =>
    have hm : m' = m := by
      by_contra hm
      exact h (if_neg hm)
    exact congrArg some hm
  | _ => exact absurd rfl h

/-- Before a byte swap of `htll_mutex_lock` inside a segment. -/
def LockPoint.races : LockPoint → Bool
  | .top flag _ | .spin flag _ _ => !flag
  | _ => false

/-- Inside a segment the lock is only taken, short of the full swap, by a byte swap of the
clear locked byte. -/
theorem htllMutexLock_take {curSegmentId : ℤ} {ticks : BitVec 64} {x : Mutex} {p : LockPoint}
    (h : (htllMutexLock curSegmentId ticks x p).2 = .take) (hrole : p.role = .racer) :
    p.races = true ∧ lockedByte x.u = 0 := by
  cases p with
  | top flag spinTicks | spin flag spinTicks since =>
    refine ⟨by cases flag <;> simp_all [LockPoint.role, LockPoint.races], ?_⟩
    simp only [htllMutexLock] at h
    split at h
    · assumption
    · cases h
  | elapsed | park =>
    simp only [htllMutexLock] at h
    split at h <;> cases h
  | sleep | swap | wait => cases hrole
  | entry | start | mark => cases h

namespace State

variable {T M C : Type*} [DecidableEq T] [DecidableEq M] [DecidableEq C] [Fintype T]
  {s s' : State T M C} {t : T} {m : M} {input : Input T}

/-- A byte swap by a thread inside a segment finds the free and unmarked mutex only while nobody
sleeps there with the full swap ahead, or another thread is about to wake a sleeper or is awake
and bound for the word. -/
def RaceKeepsHandOff (s : State T M C) (t : T) : Point M C → Prop
  | .lock m p =>
    p.races = true → (s.mutex m).u = 0 → ∀ u, Sleeper (s.view m) u → CarriedByOther (s.view m) t
  | _ => True

/-- The condition on the byte swaps of `htll_mutex_lock` inside segments. -/
def RacesKeepHandOff (s : State T M C) : Action T M C → Prop
  | .access t _ => RaceKeepsHandOff s t (s.point t)
  | _ => True

instance (s : State T M C) (t : T) : DecidablePred (RaceKeepsHandOff s t)
  | .lock m p => inferInstanceAs (Decidable (p.races = true → (s.mutex m).u = 0 →
      ∀ u, Sleeper (s.view m) u → CarriedByOther (s.view m) t))
  | .outside _ | .trylock _ | .unlock .. | .bind .. | .clock .. | .wait .. | .reclock ..
  | .retake .. | .signalAdd _ | .signalWake _ | .broadcastLoad _ | .broadcastAdd ..
  | .broadcastRequeue .. => .isTrue trivial

instance (s : State T M C) : DecidablePred (RacesKeepHandOff s)
  | .access t _ => inferInstanceAs (Decidable (RaceKeepsHandOff s t (s.point t)))
  | .call .. | .unpark _ | .segmentStart .. | .segmentEnd .. => .isTrue trivial

/-- A thread parked in the untimed wait of `htll_mutex_lock` on a free mutex with every other
thread outside any operation on it. -/
def LostWakeUp (s : State T M C) (t : T) (m : M) : Prop :=
  s.asleep t = some (.word m) ∧ s.point t = .lock m .swap ∧ lockedByte (s.mutex m).u = 0 ∧
    ∀ u, u ≠ t → (s.point u).mutex ≠ some m

instance (s : State T M C) (t : T) (m : M) : Decidable (LostWakeUp s t m) :=
  inferInstanceAs (Decidable (_ ∧ _ ∧ _ ∧ _))

section Commit

variable {P : Type*} {m' : M} {pick : Option T} {embed : P → Point M C}
  {taken failed ended : Point M C} {result : Mutex × Outcome P}

/-- Only the access that takes a mutex makes its thread a holder, and of that mutex. -/
theorem commit_gains (h : s.commit t m' pick embed taken failed ended result = some s')
    (hbefore : s.holds t m = false) (hafter : s'.holds t m = true) :
    m = m' ∧ result.2 = .take := by
  obtain ⟨x, outcome⟩ := result
  cases outcome with
  | take =>
    cases h
    by_cases hm : m = m'
    · exact ⟨hm, rfl⟩
    · simp [hm, hbefore] at hafter
  | free p =>
    cases p <;> cases h <;> by_cases hm : m = m' <;> simp [hm, hbefore] at hafter
  | wake =>
    simp only [commit, Option.map_eq_some_iff] at h
    obtain ⟨s₁, hwake, rfl⟩ := h
    rcases wake_cases hwake with ⟨w, -, rfl⟩ | ⟨-, rfl⟩ <;> simp [hbefore] at hafter
  | _ =>
    cases h
    simp [hbefore] at hafter

end Commit

/-- A thread with a role in a mutex that becomes its holder does so by an access of
`htll_mutex_lock` or of the loop that takes the mutex back. -/
theorem gains_of_access (hrole : (s.point t).role m = .racer) (hbefore : s.holds t m = false)
    (h : s.access t input = some s') (hafter : s'.holds t m = true) :
    ∃ p, s.point t = .lock m p ∧ p.role = .racer ∧
      (htllMutexLock (s.tls t).curSegmentId input.ticks (s.mutex m) p).2 = .take := by
  cases hp : s.point t with
  | lock m' p =>
    simp only [access, hp] at h
    obtain ⟨rfl, htake⟩ := commit_gains h hbefore hafter
    exact ⟨p, rfl, by simpa [hp, Point.role] using hrole, htake⟩
  | retake c m' abstime code p =>
    simp only [access, hp] at h
    obtain ⟨rfl, -⟩ := commit_gains h hbefore hafter
    cases p <;> simp [hp, Point.role, RetakePoint.role] at hrole
  | unlock m' after p =>
    by_cases hm : m' = m <;> cases p <;> simp [hp, Point.role, UnlockPoint.role, hm] at hrole
  | reclock c m' abstime => by_cases hm : m' = m <;> simp [hp, Point.role, hm] at hrole
  | _ => simp [hp, Point.role] at hrole

/-- The condition on the byte swaps is what the parking lock asks of a race. -/
theorem raceKeepsWakeUp (hcoh : s.Coherent) {a : Action T M C} (hguard : RacesKeepHandOff s a)
    (h : s.step a = some s') (m : M) : RaceKeepsWakeUp (s.view m) (s'.view m) := by
  intro t u hrole hbefore hafter hmark hsleeper
  rcases step_cases h with ⟨t', call, last, -, hp, -, -, rfl⟩ | ⟨t', input, ha, hasleep, h⟩ |
    ⟨t', -, rfl⟩ | ⟨tls, rfl, -⟩
  · exact absurd (hbefore.symm.trans hafter) (by simp)
  · by_cases ht : t = t'
    · subst ht
      obtain ⟨p, hp, hp', htake⟩ := gains_of_access hrole hbefore h hafter
      obtain ⟨hraces, hbyte⟩ := htllMutexLock_take htake hp'
      subst ha
      simp only [RacesKeepHandOff, hp] at hguard
      refine hguard hraces ?_ u hsleeper
      rw [hcoh.word m, hmark] at hbyte ⊢
      cases hlocked : (s.view m).locked with
      | false => rfl
      | true =>
        rw [hlocked] at hbyte
        exact absurd hbyte (by decide)
    · have hholds : s'.holds t m = s.holds t m := by rw [(frame_access hcoh h).holds t ht]
      exact absurd ((hbefore.symm.trans hholds.symm).trans hafter) (by simp)
  · exact absurd (hbefore.symm.trans hafter) (by simp)
  · exact absurd (hbefore.symm.trans hafter) (by simp)

/-- What is known of a lock along a run whose races keep the hand-off. -/
structure HandOff (s : State T M C) (m : M) : Prop where
  exclusive : Exclusive (s.view m)
  sleepers : SleepersReturn (s.view m)
  carried : NoLostWakeUp (s.view m)

/-- The hand-off is kept by every action that meets the condition. -/
theorem HandOff.step (hcoh : s.Coherent) (hhand : HandOff s m) {a : Action T M C}
    (hguard : RacesKeepHandOff s a) (h : s.step a = some s') : HandOff s' m := by
  have hmoves := step_moves hcoh h m
  have hrace := raceKeepsWakeUp hcoh hguard h m
  exact
    { exclusive := hhand.exclusive.moves hmoves
      sleepers := hhand.sleepers.moves hmoves
      carried := hhand.carried.moves hhand.exclusive hhand.sleepers hmoves hrace }

omit [DecidableEq T] [DecidableEq C] [Fintype T] in
/-- A process begins with nothing to hand off. -/
theorem Initial.handOff (hs : s.Initial) (m : M) : HandOff s m := by
  have hexcl := hs.exclusive m
  obtain ⟨tls, -, rfl⟩ := hs
  exact
    { exclusive := hexcl
      sleepers := fun _ h => by cases h
      carried := fun _ h => by cases h.1 }

/-- In a run whose races keep the hand-off, the wake-up of every sleeper is carried. -/
theorem handOff_of_path (hs : s.Initial) (hpath : Path step RacesKeepHandOff s s') (m : M) :
    HandOff s' m :=
  Path.invariant_of Coherent (fun s => HandOff s m) (fun _ _ _ _ h hcoh => hcoh.step h)
    (fun _ _ _ hguard h hcoh hhand => hhand.step hcoh hguard h) hpath hs.coherent (hs.handOff m)

omit [DecidableEq T] [DecidableEq C] [Fintype T] in
/-- Somebody other than a sleeper is inside an operation on a free mutex that has sleepers. -/
theorem HandOff.busy (hhand : HandOff s m) (hsleeper : Sleeper (s.view m) t)
    (hfree : (s.view m).locked = false) : ∃ u, u ≠ t ∧ (s.point u).mutex = some m := by
  have hbusy : ∀ u, (s.point u).role m ≠ .neutral → (s.point u).mutex = some m :=
    fun u hu => Point.mutex_of_role hu
  cases hhand.carried t hsleeper with
  | marked hlocked => exact absurd hlocked (by simp [hfree])
  | releasing _ u hu =>
    have hrole : (s.point u).role m = .releaser := hu
    refine ⟨u, ?_, hbusy u (by simp [hrole])⟩
    rintro rfl
    exact absurd (hsleeper.2.symm.trans hu) (by simp)
  | waking u hu =>
    have hrole : (s.point u).role m = .waker := hu
    refine ⟨u, ?_, hbusy u (by simp [hrole])⟩
    rintro rfl
    exact absurd (hsleeper.2.symm.trans hu) (by simp)
  | bound u hu =>
    refine ⟨u, ?_, hbusy u ?_⟩
    · rintro rfl
      exact absurd (hsleeper.1.symm.trans hu.1) (by simp)
    · have hrole : (s.point u).role m = .taker ∨ (s.point u).role m = .racer := hu.2
      rcases hrole with hrole | hrole <;> simp [hrole]

/-- The calls and segments of a client that uses mutexes only. -/
def locksOnly (_ : State T M C) : Action T M C → Bool
  | .call _ (.lock _) | .call _ (.trylock _) | .call _ (.unlock _) => true
  | .call _ _ => false
  | _ => true

/-- A wake-up can be lost. Threads 1 and 2 wait for thread 0, thread 2 inside a segment. The
unlocking thread 0 clears the contended byte and its `FUTEX_WAKE` reaches thread 2, which takes
the lock by a byte swap and frees it by the compare-and-swap; thread 1 sleeps on. -/
theorem wake_up_lost : ∃ s : State (Fin 3) Unit Unit,
    Path step (fun s a => locksOnly s a = true) (initial fun _ => htllThreadStart Tls.zero) s ∧
      LostWakeUp s 1 () := by
  refine exists_path_of_execute _ _
    (.call 0 (.lock ()) :: Action.turns 0 2 ++
      .call 1 (.lock ()) :: Action.turns 1 4 ++ Action.late 1 :: Action.turns 1 3 ++
      .segmentStart 2 0 0 :: .call 2 (.lock ()) :: Action.turns 2 4 ++
      Action.late 2 :: Action.turns 2 2 ++
      .call 0 (.unlock ()) :: Action.turns 0 7 ++
      .access 0 ⟨0, ⟨0, 0⟩, some 2⟩ :: Action.turns 2 2 ++
      .call 2 (.unlock ()) :: Action.turns 2 2) _ _ ?_
  decide +kernel

/-- No wake-up is lost in a run whose races keep the hand-off, whatever mix of threads inside
and outside segments takes part. -/
theorem no_lost_wake_up_of_races (hs : s.Initial) (hpath : Path step RacesKeepHandOff s s') (t : T)
    (m : M) : ¬LostWakeUp s' t m := by
  rintro ⟨hasleep, hp, hbyte, hothers⟩
  have hsleeper : Sleeper (s'.view m) t :=
    ⟨place_eq_onWord.mpr hasleep, by simp [view, hp, Point.role, LockPoint.role]⟩
  have hfree : (s'.view m).locked = false := by simp [view, isLocked, hbyte]
  obtain ⟨u, hne, hbusy⟩ := (handOff_of_path hs hpath m).busy hsleeper hfree
  exact hothers u hne hbusy

/-- Thread 1 sleeps without a time-out; the time-out of thread 2, inside a segment, ends while
the contended byte is still set, so that the byte swap of thread 2 loses nothing. -/
theorem no_lost_wake_up_of_races_timed : ∃ s : State (Fin 3) Unit Unit,
    s.asleep 1 = some (.word ()) ∧ s.point 2 = .outside (some (.lock (), 0)) ∧
      ¬LostWakeUp s 1 () := by
  obtain ⟨s, hpath, hasleep, hlock⟩ := exists_path_of_execute (step (T := Fin 3) (M := Unit)
    (C := Unit)) RacesKeepHandOff
    (.call 0 (.lock ()) :: Action.turns 0 2 ++
      .call 1 (.lock ()) :: Action.turns 1 4 ++ Action.late 1 :: Action.turns 1 3 ++
      .segmentStart 2 0 0 :: .call 2 (.lock ()) :: Action.turns 2 4 ++
      Action.late 2 :: Action.turns 2 2 ++
      .call 0 (.unlock ()) :: Action.turns 0 4 ++ .unpark 2 :: Action.turns 2 2)
    (initial fun _ => htllThreadStart Tls.zero)
    (fun s => s.asleep 1 = some (.word ()) ∧ s.point 2 = .outside (some (.lock (), 0)))
    (by decide +kernel)
  exact ⟨s, hasleep, hlock,
    no_lost_wake_up_of_races initial_started hpath 1 ()⟩

end State

end Htll
