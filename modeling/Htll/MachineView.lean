import Htll.Machine

/-!
# Each mutex of the machine is a parking lock

Seen from one mutex, the machine is a parking lock: the two bytes of its word, who holds it,
what each thread has ahead of it there, and where each thread sleeps. Every action makes at
most one step of that lock. The invariant that this needs says that words keep their four
values, that a release is only under way by a holder, that a condition variable stays bound
to the mutex of its waiters, and that threads sleep where their program points say.
-/

namespace Htll

open ParkingLock Transition

/-- What a thread at a program point has ahead of it on one mutex. -/
def Point.role {M C : Type*} [DecidableEq M] (m : M) : Point M C → Role
  | .lock m' p => if m' = m then p.role else .neutral
  | .unlock m' _ p => if m' = m then p.role else .neutral
  | .reclock _ m' _ => if m' = m then .taker else .neutral
  | .retake _ m' _ _ p => if m' = m then p.role else .neutral
  | .outside _ | .trylock _ | .bind .. | .clock .. | .wait .. | .signalAdd _ | .signalWake _
  | .broadcastLoad _ | .broadcastAdd .. | .broadcastRequeue .. => .neutral

/-- The mutex that the caller must still hold at a program point. -/
def Point.holding {M C : Type*} : Point M C → Option M
  | .unlock m _ p => if p.holding then some m else none
  | .bind _ m _ _ => some m
  | _ => none

/-- The mutex of the operation that a thread is inside of. -/
def Point.mutex {M C : Type*} : Point M C → Option M
  | .lock m _ | .trylock m | .unlock m _ _ | .bind _ m _ _ | .clock _ m _ _ | .wait _ m _ _ _
  | .reclock _ m _ | .retake _ m _ _ _ => some m
  | .outside _ | .signalAdd _ | .signalWake _ | .broadcastLoad _ | .broadcastAdd ..
  | .broadcastRequeue .. => none

/-- The binding that a program point relies on. -/
def Point.binding {M C : Type*} : Point M C → Option (C × M)
  | .unlock m (.wait c _ _) _ => some (c, m)
  | .clock c m _ _ | .wait c m _ _ _ | .reclock c m _ | .retake c m _ _ _ => some (c, m)
  | .broadcastAdd c m | .broadcastRequeue c m => some (c, m)
  | _ => none

/-- Where a sleeping thread sleeps, seen from one mutex. -/
def placeOf {M C : Type*} [DecidableEq M] (m : M) : Option (FutexAddr M C) → Place
  | none => .awake
  | some (.word m') => if m' = m then .onWord else .elsewhere
  | some (.seq _) => .elsewhere

namespace State

variable {T M C : Type*} [DecidableEq T] [DecidableEq M] [DecidableEq C]

/-- The machine seen from one mutex. -/
def view (s : State T M C) (m : M) : ParkingLock.State T where
  locked := isLocked (s.mutex m).u
  contended := isContended (s.mutex m).u
  holds := fun t => s.holds t m
  role := fun t => (s.point t).role m
  place := fun t => placeOf m (s.asleep t)

/-- What every reachable state satisfies before anything is said about the locks. -/
structure Coherent (s : State T M C) : Prop where
  word : ∀ m, (s.mutex m).u = wordOf (s.view m).locked (s.view m).contended
  holding : ∀ t m, (s.point t).holding = some m → s.holds t m = true
  binding : ∀ t c m, (s.point t).binding = some (c, m) → (s.cond c).m = some m
  sleeping : ∀ t c, s.asleep t = some (.seq c) → ∃ m abstime, s.point t = afterWait c m abstime
  parked : ∀ t m, s.asleep t = some (.word m) → (s.point t).mutex = some m

section View

variable (s : State T M C) (t : T) (m m₀ : M)

omit [DecidableEq C] in
@[simp] theorem view_goto (p : Point M C) :
    (s.goto t p).view m =
      { s.view m with role := Function.update (s.view m).role t (p.role m) } := by
  simp only [view, goto, ParkingLock.State.mk.injEq, true_and, and_true]
  funext u
  by_cases hu : u = t
  · subst hu
    simp
  · simp [hu]

omit [DecidableEq C] [DecidableEq T] in
theorem view_setMutex_self (x : Mutex) :
    (s.setMutex m x).view m =
      { s.view m with locked := isLocked x.u, contended := isContended x.u } := by
  simp [view, setMutex]

omit [DecidableEq C] [DecidableEq T] in
theorem view_setMutex_of_ne {m m₀ : M} (hne : m₀ ≠ m) (x : Mutex) :
    (s.setMutex m x).view m₀ = s.view m₀ := by
  simp [view, setMutex, hne]

omit [DecidableEq C] in
theorem view_setHolds_self (b : Bool) :
    (s.setHolds t m b).view m =
      { s.view m with holds := Function.update (s.view m).holds t b } := by
  simp only [view, setHolds, ParkingLock.State.mk.injEq, true_and, and_true]
  funext u
  by_cases hu : u = t
  · subst hu
    simp
  · simp [hu]

omit [DecidableEq C] in
theorem view_setHolds_of_ne {m m₀ : M} (hne : m₀ ≠ m) (b : Bool) :
    (s.setHolds t m b).view m₀ = s.view m₀ := by
  simp only [view, setHolds, ParkingLock.State.mk.injEq, true_and, and_true]
  funext u
  by_cases hu : u = t
  · subst hu
    simp [hne]
  · simp [hu]

omit [DecidableEq C] in
@[simp] theorem view_setAsleep (a : Option (FutexAddr M C)) :
    (s.setAsleep t a).view m =
      { s.view m with place := Function.update (s.view m).place t (placeOf m a) } := by
  simp only [view, setAsleep, ParkingLock.State.mk.injEq, true_and]
  funext u
  by_cases hu : u = t
  · subst hu
    simp
  · simp [hu]

omit [DecidableEq C] in
@[simp] theorem view_markWaiter : (s.markWaiter t).view m = s.view m := rfl

omit [DecidableEq T] in
@[simp] theorem view_setCond (c : C) (x : Cond M) : (s.setCond c x).view m = s.view m := rfl

omit [DecidableEq C] in
@[simp] theorem view_setTicket (n : ℕ) : (s.setTicket t n).view m = s.view m := rfl

omit [DecidableEq T] in
@[simp] theorem view_bump (c : C) : (s.bump c).view m = s.view m := rfl

end View

section Commit

variable [Fintype T] {P : Type*} {s s' : State T M C} {t : T} {m m₀ : M} {pick : Option T}
  {embed : P → Point M C} {taken failed ended : Point M C} {result : Mutex × Outcome P}

/-- An access that is sound for the parking lock gives the abstract state it announces. -/
theorem commit_view {role : P → Role} {locked contended : Bool}
    (h : s.commit t m pick embed taken failed ended result = some s')
    (hembed : ∀ p, (embed p).role m = role p)
    (hends : taken.role m = .neutral ∧ failed.role m = .neutral ∧ ended.role m = .neutral)
    (hword : result.1.u = wordOf locked contended) (hwake : result.2 ≠ .wake) :
    s'.view m = result.2.apply role (s.view m) t locked contended := by
  obtain ⟨x, outcome⟩ := result
  obtain ⟨htaken, hfailed, hover⟩ := hends
  dsimp only at hword
  cases outcome with
  | wake => exact absurd rfl hwake
  | free p =>
    cases p <;> cases h <;>
      simp [Outcome.apply, view_setHolds_self, view_setMutex_self, hword, hembed, hover]
  | goto | mark | sleep | take | fail | done =>
    cases h
    simp [Outcome.apply, view_setHolds_self, view_setMutex_self, placeOf, hword, hembed, htaken,
      hfailed, hover]

omit [Fintype T] [DecidableEq C] in
/-- A thread that moves to a point with the same role leaves the lock as it is. -/
theorem goto_view {p : Point M C} (hrole : p.role m = (s.point t).role m) :
    (s.goto t p).view m = s.view m := by
  have hkeep : Function.update (s.view m).role t (p.role m) = (s.view m).role :=
    Function.update_eq_self_iff.mpr hrole
  rw [view_goto, hkeep]

/-- `FUTEX_WAKE` wakes one sleeper, and nobody only if nobody sleeps there. -/
theorem wake_cases {a : FutexAddr M C} (h : s.wake a pick = some s') :
    (∃ w, s.asleep w = some a ∧ s' = s.setAsleep w none) ∨
      (∀ w, s.asleep w ≠ some a) ∧ s' = s := by
  cases pick with
  | some w =>
    obtain ⟨hasleep, heq⟩ := Option.ite_none_right_eq_some.mp h
    exact Or.inl ⟨w, hasleep, (Option.some.inj heq).symm⟩
  | none =>
    obtain ⟨hnone, heq⟩ := Option.ite_none_right_eq_some.mp h
    exact Or.inr ⟨hnone, (Option.some.inj heq).symm⟩

/-- `FUTEX_REQUEUE` wakes one sleeper and moves the others, unless nobody sleeps there. -/
theorem requeue_cases {c : C} (h : s.requeue c m pick = some s') :
    (∃ w, s.asleep w = some (.seq c) ∧
      s' = { s with
        asleep := fun u =>
          if u = w then none
          else if s.asleep u = some (.seq c) then some (.word m) else s.asleep u }) ∨
      (∀ w, s.asleep w ≠ some (.seq c)) ∧ s' = s := by
  cases pick with
  | some w =>
    obtain ⟨hasleep, heq⟩ := Option.ite_none_right_eq_some.mp h
    exact Or.inl ⟨w, hasleep, (Option.some.inj heq).symm⟩
  | none =>
    obtain ⟨hnone, heq⟩ := Option.ite_none_right_eq_some.mp h
    exact Or.inr ⟨hnone, (Option.some.inj heq).symm⟩

omit [DecidableEq C] [DecidableEq T] [Fintype T] in
/-- A thread that sleeps nowhere is awake. -/
theorem place_eq_awake {u : T} : (s.view m).place u = .awake ↔ s.asleep u = none := by
  simp only [view]
  cases s.asleep u with
  | none => simp [placeOf]
  | some a =>
    cases a with
    | seq c => simp [placeOf]
    | word m' => by_cases hm : m' = m <;> simp [placeOf, hm]

omit [DecidableEq C] [DecidableEq T] [Fintype T] in
/-- Sleeping on the word of the mutex is sleeping in that futex queue. -/
theorem place_eq_onWord {u : T} :
    (s.view m).place u = .onWord ↔ s.asleep u = some (.word m) := by
  simp only [view]
  cases s.asleep u with
  | none => simp [placeOf]
  | some a =>
    cases a with
    | seq c => simp [placeOf]
    | word m' => by_cases hm : m' = m <;> simp [placeOf, hm]

/-- The wake-up of an unlocking thread reaches one sleeper if there is one. -/
theorem commit_wake {x : Mutex}
    (h : s.commit t m pick embed taken failed ended (x, .wake) = some s')
    (hover : ended.role m = .neutral) (hx : x = s.mutex m) (hrole : (s.point t).role m = .waker) :
    Step (s.view m) (s'.view m) := by
  have hsame : s.setMutex m x = s := by simp [setMutex, hx]
  simp only [commit, hsame, Option.map_eq_some_iff] at h
  obtain ⟨s₁, hwake, rfl⟩ := h
  rcases wake_cases hwake with ⟨w, hasleep, rfl⟩ | ⟨hnone, rfl⟩
  · simpa [hover, placeOf] using Step.wakeOne hrole (place_eq_onWord.mpr hasleep)
  · have hplace : ∀ w, (s₁.view m).place w ≠ .onWord := fun w hw => hnone w (place_eq_onWord.mp hw)
    simpa [hover] using Step.wakeNone hrole hplace

/-- Waking a sleeper of any queue ends its sleep. -/
theorem wake_moves {a : FutexAddr M C} (h : s.wake a pick = some s') :
    Moves (s.view m) (s'.view m) := by
  rcases wake_cases h with ⟨w, -, rfl⟩ | ⟨-, rfl⟩
  · rw [view_setAsleep]
    exact .single .unpark
  · exact .refl

/-- A wake-up changes no program point. -/
theorem wake_point {a : FutexAddr M C} (h : s.wake a pick = some s') : s'.point = s.point := by
  rcases wake_cases h with ⟨w, -, rfl⟩ | ⟨-, rfl⟩ <;> rfl

/-- An access to one mutex is at most a change of sleep for every other. -/
theorem commit_moves_of_ne (h : s.commit t m pick embed taken failed ended result = some s')
    (hne : m₀ ≠ m) (hasleep : s.asleep t = none) (hpoint : (s.point t).role m₀ = .neutral)
    (hembed : ∀ p, (embed p).role m₀ = .neutral)
    (hends : taken.role m₀ = .neutral ∧ failed.role m₀ = .neutral ∧ ended.role m₀ = .neutral) :
    Moves (s.view m₀) (s'.view m₀) := by
  obtain ⟨x, outcome⟩ := result
  obtain ⟨htaken, hfailed, hover⟩ := hends
  have hkeep : Function.update (s.view m₀).role t .neutral = (s.view m₀).role :=
    Function.update_eq_self_iff.mpr hpoint.symm
  cases outcome with
  | wake =>
    simp only [commit, Option.map_eq_some_iff] at h
    obtain ⟨s₁, hwake, rfl⟩ := h
    rw [goto_view (by rw [hover, wake_point hwake]; exact hpoint.symm),
      ← view_setMutex_of_ne s hne x]
    exact wake_moves hwake
  | sleep p =>
    cases h
    simp only [view_goto, view_setAsleep, view_setMutex_of_ne s hne, hembed, placeOf, hne.symm,
      if_false]
    exact .single (.parkElsewhere (by simp [view, hasleep, placeOf]) hpoint (Or.inl rfl))
  | free p =>
    cases p <;> cases h <;>
      simp only [view_goto, view_setHolds_of_ne _ _ hne, view_setMutex_of_ne s hne, hembed, hover,
        hkeep] <;> exact .refl
  | goto | mark | take | fail | done =>
    cases h
    simp only [view_goto, view_markWaiter, view_setHolds_of_ne _ _ hne, view_setMutex_of_ne s hne,
      hembed, htaken, hfailed, hover, hkeep]
    exact .refl

end Commit

end State

end Htll
