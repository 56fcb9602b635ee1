import Mathlib.Data.Fintype.Basic
import Mathlib.Logic.Function.Basic
import Mathlib.Logic.Relation

/-!
# A parking lock: one word with a locked and a contended byte

Threads take the lock by swapping the locked byte alone or by swapping both bytes at once.
A thread that fails the full swap may go to sleep on the word while both bytes are set. A
holder releases with both bytes clear in one step when nobody contends, and otherwise frees
the locked byte, looks whether somebody took it, clears the contended byte and wakes one
sleeper. Sleepers of another queue may be moved onto the word, provided one of them is woken.

Clearing the contended byte before waking one thread leaves every other sleeper without a
mark on the word, so the wake-up is an obligation that some thread has to carry. The rules
below record for each thread which part of the hand-off it is in; the two invariants are
mutual exclusion and the presence of a carrier whenever somebody sleeps.
-/

namespace ParkingLock

variable {T : Type*} [DecidableEq T]

/-- The part a thread plays in the hand-off of one lock. -/
inductive Role where
  /-- Carries nothing: outside the lock's code, or before a byte swap or a sleep. -/
  | neutral
  /-- Its next access to the word is the full swap, asleep or not. -/
  | taker
  /-- Tries the byte swap again before it falls back to the full swap. -/
  | racer
  /-- Freed the locked byte and has not decided yet whether to wake somebody. -/
  | releaser
  /-- Cleared the contended byte and has not issued the wake-up yet. -/
  | waker
  deriving DecidableEq

/-- Where a thread is asleep. -/
inductive Place where
  | awake
  | onWord
  | elsewhere
  deriving DecidableEq

/-- The word of one lock and the threads around it. -/
structure State (T : Type*) where
  locked : Bool
  contended : Bool
  holds : T → Bool
  role : T → Role
  place : T → Place

/-- One access to the word, to the wait queue, or a move of one thread. -/
inductive Step : State T → State T → Prop
  /-- A thread that carries nothing starts to compete. -/
  | compete {s : State T} {t : T} {r : Role} (hawake : s.place t = .awake)
      (hrole : s.role t = .neutral) (hr : r = .taker ∨ r = .racer) :
      Step s { s with role := Function.update s.role t r }
  /-- A racer falls back to the full swap. -/
  | fallBack {s : State T} {t : T} (hawake : s.place t = .awake) (hrole : s.role t = .racer) :
      Step s { s with role := Function.update s.role t .taker }
  /-- The byte swap takes the free lock and leaves the contended byte alone. -/
  | byteTake {s : State T} {t : T} (hawake : s.place t = .awake)
      (hrole : s.role t = .neutral ∨ s.role t = .racer) (hfree : s.locked = false) :
      Step s { s with
        locked := true
        holds := Function.update s.holds t true
        role := Function.update s.role t .neutral }
  /-- The full swap takes the free lock. -/
  | fullTake {s : State T} {t : T} (hawake : s.place t = .awake) (hrole : s.role t = .taker)
      (hfree : s.locked = false) :
      Step s { s with
        locked := true
        contended := true
        holds := Function.update s.holds t true
        role := Function.update s.role t .neutral }
  /-- The full swap finds the lock taken and leaves the contended mark. -/
  | fullFail {s : State T} {t : T} {r : Role} (hawake : s.place t = .awake)
      (hrole : s.role t = .taker) (htaken : s.locked = true)
      (hr : r = .neutral ∨ r = .taker ∨ r = .racer) :
      Step s { s with contended := true, role := Function.update s.role t r }
  /-- The kernel compares the word and puts the thread to sleep on it. -/
  | park {s : State T} {t : T} {r : Role} (hawake : s.place t = .awake)
      (hlocked : s.locked = true) (hcontended : s.contended = true)
      (hr : s.role t = .neutral ∧ r = .taker ∨ s.role t = .racer ∧ r = .racer) :
      Step s { s with
        role := Function.update s.role t r
        place := Function.update s.place t .onWord }
  /-- A thread goes to sleep in another queue. -/
  | parkElsewhere {s : State T} {t : T} {r : Role} (hawake : s.place t = .awake)
      (hrole : s.role t = .neutral) (hr : r = .neutral ∨ r = .taker) :
      Step s { s with
        role := Function.update s.role t r
        place := Function.update s.place t .elsewhere }
  /-- A sleep ends without this lock's wake-up: a timer, a signal, or another queue's wake-up. -/
  | unpark {s : State T} {t : T} :
      Step s { s with place := Function.update s.place t .awake }
  /-- The holder finds the lock uncontended and frees it with one compare-and-swap. -/
  | releaseFast {s : State T} {t : T} (hholds : s.holds t = true) (hlocked : s.locked = true)
      (hcontended : s.contended = false) :
      Step s { s with locked := false, holds := Function.update s.holds t false }
  /-- The holder stores the locked byte. -/
  | releaseSlow {s : State T} {t : T} (hawake : s.place t = .awake)
      (hrole : s.role t = .neutral) (hholds : s.holds t = true) :
      Step s { s with
        locked := false
        holds := Function.update s.holds t false
        role := Function.update s.role t .releaser }
  /-- The releaser sees that somebody took the lock meanwhile. -/
  | seeTaken {s : State T} {t : T} (hrole : s.role t = .releaser) (htaken : s.locked = true) :
      Step s { s with role := Function.update s.role t .neutral }
  /-- The releaser clears the contended byte, whoever holds the lock by now. -/
  | clear {s : State T} {t : T} (hrole : s.role t = .releaser) :
      Step s { s with contended := false, role := Function.update s.role t .waker }
  /-- The wake-up reaches one sleeper of the kernel's choice. -/
  | wakeOne {s : State T} {t w : T} (hrole : s.role t = .waker) (hasleep : s.place w = .onWord) :
      Step s { s with
        role := Function.update s.role t .neutral
        place := Function.update s.place w .awake }
  /-- The wake-up finds nobody asleep. -/
  | wakeNone {s : State T} {t : T} (hrole : s.role t = .waker)
      (hnone : ∀ w, s.place w ≠ .onWord) :
      Step s { s with role := Function.update s.role t .neutral }
  /-- One sleeper of another queue is woken and others are moved onto the word. -/
  | requeue {s : State T} {w : T} {place : T → Place} (hrole : s.role w = .taker)
      (hw : place w = .awake)
      (hplace : ∀ u, u ≠ w → place u = s.place u ∨ s.role u = .taker ∧ s.place u = .elsewhere) :
      Step s { s with place := place }

/-- At most one step, for accesses that this lock does not notice. -/
abbrev Moves : State T → State T → Prop := Relation.ReflGen Step

/-- A role is set to itself. -/
theorem Moves.keep_role {s : State T} {t : T} {r : Role} (hrole : s.role t = r) :
    Moves s { s with role := Function.update s.role t r } := by
  rw [← hrole, Function.update_eq_self]

/-! ## Mutual exclusion -/

/-- The locked byte is set exactly while one thread holds the lock. -/
structure Exclusive (s : State T) : Prop where
  locked_of_holds : ∀ t, s.holds t = true → s.locked = true
  unique : ∀ t u, s.holds t = true → s.holds u = true → t = u
  held_of_locked : s.locked = true → ∃ t, s.holds t = true

omit [DecidableEq T] in
/-- Nobody holds a lock whose locked byte is clear. -/
theorem Exclusive.not_holds {s : State T} (h : Exclusive s) (hfree : s.locked = false) (t : T) :
    s.holds t = false := by
  cases hholds : s.holds t with
  | false => rfl
  | true => exact absurd (h.locked_of_holds t hholds) (by simp [hfree])

/-- Taking a free lock makes the taker its only holder. -/
theorem Exclusive.take {s s' : State T} (h : Exclusive s) {t : T} (hfree : s.locked = false)
    (hlocked : s'.locked = true) (hholds : s'.holds = Function.update s.holds t true) :
    Exclusive s' := by
  have hnone := h.not_holds hfree
  have honly : ∀ u, s'.holds u = true → u = t := by
    intro u hu
    by_contra hne
    rw [hholds, Function.update_of_ne hne, hnone u] at hu
    exact Bool.noConfusion hu
  exact
    { locked_of_holds := fun _ _ => hlocked
      unique := fun u v hu hv => (honly u hu).trans (honly v hv).symm
      held_of_locked := fun _ => ⟨t, by rw [hholds, Function.update_self]⟩ }

/-- When the holder lets go nobody holds the lock. -/
theorem Exclusive.release {s s' : State T} (h : Exclusive s) {t : T} (ht : s.holds t = true)
    (hlocked : s'.locked = false) (hholds : s'.holds = Function.update s.holds t false) :
    Exclusive s' := by
  have hnone : ∀ u, s'.holds u = false := by
    intro u
    rw [hholds]
    by_cases hu : u = t
    · rw [hu, Function.update_self]
    · rw [Function.update_of_ne hu]
      cases hold : s.holds u with
      | false => rfl
      | true => exact absurd (h.unique u t hold ht) hu
  exact
    { locked_of_holds := fun u hu => absurd hu (by simp [hnone u])
      unique := fun u _ hu => absurd hu (by simp [hnone u])
      held_of_locked := fun hl => absurd hl (by simp [hlocked]) }

/-- Every step keeps mutual exclusion. -/
theorem Exclusive.step {s s' : State T} (h : Exclusive s) (hstep : Step s s') : Exclusive s' := by
  cases hstep with
  | byteTake _ _ hfree => exact h.take hfree rfl rfl
  | fullTake _ _ hfree => exact h.take hfree rfl rfl
  | releaseFast hholds => exact h.release hholds rfl rfl
  | releaseSlow _ _ hholds => exact h.release hholds rfl rfl
  | _ => exact ⟨h.locked_of_holds, h.unique, h.held_of_locked⟩

/-- An access that the lock may not notice keeps mutual exclusion. -/
theorem Exclusive.moves {s s' : State T} (h : Exclusive s) (hmoves : Moves s s') :
    Exclusive s' := by
  cases hmoves with
  | refl => exact h
  | single hstep => exact h.step hstep

/-- Along every run of the lock it keeps mutual exclusion. -/
theorem Exclusive.run {s s' : State T} (h : Exclusive s)
    (hrun : Relation.ReflTransGen Step s s') : Exclusive s' := by
  induction hrun with
  | refl => exact h
  | tail _ hstep ih => exact ih.step hstep

/-! ## The wake-up is always carried by somebody -/

/-- Asleep on the word, with the full swap ahead: only a wake-up brings it back. -/
def Sleeper (s : State T) (t : T) : Prop := s.place t = .onWord ∧ s.role t = .taker

/-- Awake and bound to access the word again before it can leave. -/
def Bound (s : State T) (t : T) : Prop :=
  s.place t = .awake ∧ (s.role t = .taker ∨ s.role t = .racer)

omit [DecidableEq T] in
instance (s : State T) : DecidablePred (Sleeper s) :=
  fun _ => inferInstanceAs (Decidable (_ ∧ _))

omit [DecidableEq T] in
instance (s : State T) : DecidablePred (Bound s) :=
  fun _ => inferInstanceAs (Decidable (_ ∧ (_ ∨ _)))

/-- Whoever sleeps on the word has another access to it ahead. -/
def SleepersReturn (s : State T) : Prop :=
  ∀ t, s.place t = .onWord → s.role t = .taker ∨ s.role t = .racer

/-- A new role of a thread that is not asleep on the word keeps the sleepers' roles. -/
theorem SleepersReturn.set_role {s s' : State T} (h : SleepersReturn s) {t : T} {r : Role}
    (hrole : s'.role = Function.update s.role t r) (hplace : s'.place = s.place)
    (ht : s.place t ≠ .onWord) : SleepersReturn s' := by
  intro u hu
  rw [hplace] at hu
  have hne : u ≠ t := fun h => ht (h ▸ hu)
  rw [hrole, Function.update_of_ne hne]
  exact h u hu

/-- Every step keeps the roles of the sleepers. -/
theorem SleepersReturn.step {s s' : State T} (h : SleepersReturn s) (hstep : Step s s') :
    SleepersReturn s' := by
  have hnot : ∀ t, s.role t = .releaser ∨ s.role t = .waker → s.place t ≠ .onWord := by
    intro t ht hp
    rcases h t hp with hr | hr <;> simp [hr] at ht
  cases hstep with
  | compete hawake => exact h.set_role rfl rfl (by simp [hawake])
  | fallBack hawake => exact h.set_role rfl rfl (by simp [hawake])
  | byteTake hawake => exact h.set_role rfl rfl (by simp [hawake])
  | fullTake hawake => exact h.set_role rfl rfl (by simp [hawake])
  | fullFail hawake => exact h.set_role rfl rfl (by simp [hawake])
  | releaseSlow hawake => exact h.set_role rfl rfl (by simp [hawake])
  | seeTaken hrole => exact h.set_role rfl rfl (hnot _ (Or.inl hrole))
  | clear hrole => exact h.set_role rfl rfl (hnot _ (Or.inl hrole))
  | wakeNone hrole => exact h.set_role rfl rfl (hnot _ (Or.inr hrole))
  | releaseFast => exact h
  | @park t r hawake hlocked hcontended hr =>
    intro u hu
    by_cases hut : u = t
    · rcases hr with ⟨-, rfl⟩ | ⟨-, rfl⟩ <;> simp [hut]
    · simpa [hut] using h u (by simpa [hut] using hu)
  | @parkElsewhere t r hawake hrole hr =>
    intro u hu
    by_cases hut : u = t
    · simp [hut] at hu
    · simpa [hut] using h u (by simpa [hut] using hu)
  | @unpark t =>
    intro u hu
    by_cases hut : u = t
    · simp [hut] at hu
    · exact h u (by simpa [hut] using hu)
  | @wakeOne t w hrole hasleep =>
    intro u hu
    by_cases huw : u = w
    · simp [huw] at hu
    · have hplace : s.place u = .onWord := by simpa [huw] using hu
      have hne : u ≠ t := by
        rintro rfl
        exact hnot u (Or.inr hrole) hplace
      simpa [hne] using h u hplace
  | @requeue w place hrole hw hplace =>
    intro u hu
    by_cases huw : u = w
    · simp [huw, hw] at hu
    · rcases hplace u huw with hsame | ⟨hr, -⟩
      · exact h u (hsame ▸ hu)
      · exact Or.inl hr

/-- An access that the lock may not notice keeps them as well. -/
theorem SleepersReturn.moves {s s' : State T} (h : SleepersReturn s) (hmoves : Moves s s') :
    SleepersReturn s' := by
  cases hmoves with
  | refl => exact h
  | single hstep => exact h.step hstep

/-- The ways in which a sleeper's wake-up is still on its way. -/
inductive Carried (s : State T) : Prop where
  | marked (hlocked : s.locked = true) (hcontended : s.contended = true)
  | releasing (hcontended : s.contended = true) (t : T) (hrole : s.role t = .releaser)
  | waking (t : T) (hrole : s.role t = .waker)
  | bound (t : T) (hbound : Bound s t)

/-- Whenever a thread sleeps on the word its wake-up is carried. -/
def NoLostWakeUp (s : State T) : Prop := ∀ t, Sleeper s t → Carried s

/-- Another thread than the given one still carries the wake-up while the word is unmarked. -/
def CarriedByOther (s : State T) (t : T) : Prop :=
  (∃ u, s.role u = .waker) ∨ ∃ u, u ≠ t ∧ Bound s u

instance [Fintype T] (s : State T) : DecidablePred (CarriedByOther s) :=
  fun t => inferInstanceAs (Decidable ((∃ u, s.role u = .waker) ∨ ∃ u, u ≠ t ∧ Bound s u))

/-- A racer takes the unmarked lock with sleepers left only while another thread carries the
wake-up. -/
def RaceKeepsWakeUp (s s' : State T) : Prop :=
  ∀ t u, s.role t = .racer → s.holds t = false → s'.holds t = true → s.contended = false →
    Sleeper s u → CarriedByOther s t

omit [DecidableEq T] in
/-- A carrier survives when both bytes stay and no carrying thread changes, up to one thread that
was not carrying. -/
theorem Carried.frame {s s' : State T} {t : T} (h : Carried s) (hlocked : s'.locked = s.locked)
    (hcontended : s'.contended = s.contended)
    (hidle : s.role t ≠ .releaser ∧ s.role t ≠ .waker ∧ ¬Bound s t)
    (hrole : ∀ u, u ≠ t → s'.role u = s.role u)
    (hplace : ∀ u, u ≠ t → s.place u = .awake → s'.place u = .awake) : Carried s' := by
  cases h with
  | marked hl hc => exact .marked (hlocked.trans hl) (hcontended.trans hc)
  | releasing hc u hu =>
    have hne : u ≠ t := fun h => hidle.1 (h ▸ hu)
    exact .releasing (hcontended.trans hc) u ((hrole u hne).trans hu)
  | waking u hu =>
    have hne : u ≠ t := fun h => hidle.2.1 (h ▸ hu)
    exact .waking u ((hrole u hne).trans hu)
  | bound u hu =>
    have hne : u ≠ t := fun h => hidle.2.2 (h ▸ hu)
    exact .bound u ⟨hplace u hne hu.1, by rw [hrole u hne]; exact hu.2⟩

omit [DecidableEq T] in
/-- With the contended byte clear, a carrier other than a given thread survives a change of the
bytes and of that thread. -/
theorem CarriedByOther.carried {s s' : State T} {t : T} (h : CarriedByOther s t)
    (hidle : s.role t ≠ .waker) (hrole : ∀ u, u ≠ t → s'.role u = s.role u)
    (hplace : s'.place = s.place) : Carried s' := by
  rcases h with ⟨u, hu⟩ | ⟨u, hne, hu⟩
  · exact .waking u ((hrole u fun h => hidle (h ▸ hu)).trans hu)
  · exact .bound u ⟨by rw [hplace]; exact hu.1, by rw [hrole u hne]; exact hu.2⟩

omit [DecidableEq T] in
/-- While the contended byte is clear only a waker or a bound thread can carry. -/
theorem Carried.unmarked {s : State T} {t : T} (h : Carried s) (hcontended : s.contended = false)
    (hidle : ¬Bound s t) : CarriedByOther s t := by
  cases h with
  | marked _ hc => exact absurd hc (by simp [hcontended])
  | releasing hc => exact absurd hc (by simp [hcontended])
  | waking u hu => exact Or.inl ⟨u, hu⟩
  | bound u hu => exact Or.inr ⟨u, fun h => hidle (h ▸ hu), hu⟩

omit [DecidableEq T] in
/-- A thread that carries nothing is not bound. -/
theorem not_bound_of_neutral {s : State T} {t : T} (hrole : s.role t = .neutral) : ¬Bound s t := by
  rintro ⟨-, h | h⟩ <;> simp [hrole] at h

/-- Changing the role of one thread leaves the other roles alone. -/
theorem role_update_of_ne {s : State T} {t u : T} {r : Role} (hne : u ≠ t) :
    Function.update s.role t r u = s.role u := Function.update_of_ne hne _ _

omit [DecidableEq T] in
/-- A sleeper was one before, if only a thread that does not sleep now has changed. -/
theorem Sleeper.before {s s' : State T} {t v : T} (hv : Sleeper s' v) (ht : ¬Sleeper s' t)
    (hplace : ∀ u ≠ t, s'.place u = s.place u) (hrole : ∀ u ≠ t, s'.role u = s.role u) :
    Sleeper s v := by
  have hne : v ≠ t := by
    rintro rfl
    exact ht hv
  exact ⟨(hplace v hne).symm.trans hv.1, (hrole v hne).symm.trans hv.2⟩

/-- Every step on which no race loses the mark keeps the wake-up of each sleeper carried. -/
theorem NoLostWakeUp.step {s s' : State T} (h : NoLostWakeUp s) (hexcl : Exclusive s)
    (hreturn : SleepersReturn s) (hstep : Step s s') (hrace : RaceKeepsWakeUp s s') :
    NoLostWakeUp s' := by
  intro v hv
  cases hstep with
  | @compete t r hawake hrole hr =>
    refine .bound t ⟨hawake, ?_⟩
    rcases hr with rfl | rfl <;> simp
  | @fallBack t hawake hrole =>
    exact .bound t ⟨hawake, by simp⟩
  | @byteTake t hawake hrole hfree =>
    have hsleep : Sleeper s v := hv.before (t := t) (by simp [Sleeper, hawake])
      (fun _ _ => rfl) (fun u hu => role_update_of_ne hu)
    by_cases hc : s.contended = true
    · exact .marked rfl hc
    have hc' : s.contended = false := by simpa using hc
    have hother : CarriedByOther s t := by
      rcases hrole with hrole | hrole
      · exact (h v hsleep).unmarked hc' (not_bound_of_neutral hrole)
      · exact hrace t v hrole (hexcl.not_holds hfree t) (by simp) hc' hsleep
    exact hother.carried (by rcases hrole with hrole | hrole <;> simp [hrole])
      (fun u hu => role_update_of_ne hu) rfl
  | fullTake => exact .marked rfl rfl
  | fullFail _ _ htaken => exact .marked htaken rfl
  | park _ hlocked hcontended => exact .marked hlocked hcontended
  | @parkElsewhere t r hawake hrole hr =>
    have hsleep : Sleeper s v := hv.before (t := t) (by simp [Sleeper])
      (fun u hu => by simp [hu]) (fun u hu => role_update_of_ne hu)
    exact (h v hsleep).frame (t := t) rfl rfl
      ⟨by simp [hrole], by simp [hrole], not_bound_of_neutral hrole⟩
      (fun u hu => role_update_of_ne hu) (fun u hu ha => by simpa [hu] using ha)
  | @unpark t =>
    have hsleep : Sleeper s v := hv.before (t := t) (by simp [Sleeper])
      (fun u hu => by simp [hu]) (fun _ _ => rfl)
    cases h v hsleep with
    | marked hl hc => exact .marked hl hc
    | releasing hc u hu => exact .releasing hc u hu
    | waking u hu => exact .waking u hu
    | bound u hu =>
      refine .bound u ⟨?_, hu.2⟩
      by_cases hut : u = t
      · simp [hut]
      · simpa [hut] using hu.1
  | @releaseFast t hholds hlocked hcontended =>
    cases h v hv with
    | marked _ hc => exact absurd hc (by simp [hcontended])
    | releasing hc => exact absurd hc (by simp [hcontended])
    | waking u hu => exact .waking u hu
    | bound u hu => exact .bound u hu
  | @releaseSlow t hawake hrole hholds =>
    have hsleep : Sleeper s v := hv.before (t := t) (by simp [Sleeper])
      (fun _ _ => rfl) (fun u hu => role_update_of_ne hu)
    by_cases hc : s.contended = true
    · exact .releasing hc t (by simp)
    have hother := (h v hsleep).unmarked (by simpa using hc) (not_bound_of_neutral hrole)
    exact hother.carried (by simp [hrole]) (fun u hu => role_update_of_ne hu) rfl
  | @seeTaken t hrole htaken =>
    have hsleep : Sleeper s v := hv.before (t := t) (by simp [Sleeper])
      (fun _ _ => rfl) (fun u hu => role_update_of_ne hu)
    by_cases hc : s.contended = true
    · exact .marked htaken hc
    have hidle : ¬Bound s t := by rintro ⟨-, hb | hb⟩ <;> simp [hrole] at hb
    have hother := (h v hsleep).unmarked (by simpa using hc) hidle
    exact hother.carried (by simp [hrole]) (fun u hu => role_update_of_ne hu) rfl
  | @clear t hrole => exact .waking t (by simp)
  | @wakeOne t w hrole hasleep =>
    -- the woken thread is itself bound to come back to the word
    have hne : w ≠ t := by
      rintro rfl
      rcases hreturn w hasleep with hr | hr <;> simp [hrole] at hr
    exact .bound w ⟨by simp, by simpa [hne] using hreturn w hasleep⟩
  | @wakeNone t hrole hnone => exact absurd hv.1 (hnone v)
  | @requeue w place hrole hw hplace => exact .bound w ⟨hw, Or.inl hrole⟩

/-- An access that the lock may not notice keeps every wake-up carried. -/
theorem NoLostWakeUp.moves {s s' : State T} (h : NoLostWakeUp s) (hexcl : Exclusive s)
    (hreturn : SleepersReturn s) (hmoves : Moves s s') (hrace : RaceKeepsWakeUp s s') :
    NoLostWakeUp s' := by
  cases hmoves with
  | refl => exact h
  | single hstep => exact h.step hexcl hreturn hstep hrace

end ParkingLock
