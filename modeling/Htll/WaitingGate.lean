import Htll.Protocol.Gate
import Htll.WaitingPolicy

/-!
# Every waiting policy is a gate

A variable is an open gate while it is `UNLOCKED`. Under each of the policies a thread leaves
`waiting_policy_sleep` only through the open gate; the compare-and-swap of `WAITING_SPINLOCK_ATOMIC`
makes it a turnstile.
-/

namespace Htll

open Transition

/-- The variable that a thread waits for. -/
def PolicyPoint.sleeps {V : Type*} : PolicyPoint V → Option V
  | .spin v | .swap v | .count v _ | .look v | .wait v | .parked v | .confirm v
  | .tally v _ _ .retry | .tally v _ _ .leave | .tally v _ _ .confirm => some v
  | .outside | .tally _ _ _ .returned | .tally _ _ _ .store | .peek _ | .store _ | .cas _
  | .futexWake _ => none

/-- The points of a policy. -/
def WaitingPolicy.has {V : Type*} : WaitingPolicy → PolicyPoint V → Bool
  | _, .outside => true
  | .spinlock, .spin _ | .spinlock, .store _ => true
  | .spinlockAtomic, .swap _ | .spinlockAtomic, .cas _ => true
  | .spinThenPark, .count .. | .spinThenPark, .look _ | .spinThenPark, .wait _
  | .spinThenPark, .parked _ | .spinThenPark, .confirm _ | .spinThenPark, .tally ..
  | .spinThenPark, .peek _ | .spinThenPark, .store _ | .spinThenPark, .futexWake _ => true
  | .park, .wait _ | .park, .parked _ | .park, .confirm _ | .park, .store _
  | .park, .futexWake _ => true
  | _, _ => false

namespace PolicyState

variable {T V : Type*} [DecidableEq T] [DecidableEq V] {s s' : PolicyState T V} {t : T} {v : V}
  {policy : WaitingPolicy} {x : PolicyAction T V}

/-- The variables as gates. -/
def view (s : PolicyState T V) : Gate.State T V where
  isOpen := fun v => s.var v = policyUnlocked
  waits := fun t => (s.point t).sleeps

/-- Variables are `LOCKED` or `UNLOCKED`, and every thread is at a point of the policy. -/
structure Sound (policy : WaitingPolicy) (s : PolicyState T V) : Prop where
  binary : ∀ v, s.var v = policyLocked ∨ s.var v = policyUnlocked
  has : ∀ t, policy.has (s.point t) = true

omit [DecidableEq V] in
/-- A thread that moves changes where it waits. -/
theorem view_goto (q : PolicyPoint V) : (s.goto t q).view =
    { s.view with waits := Function.update s.view.waits t q.sleeps } := by
  simp only [view, goto_var, goto_point, Gate.State.mk.injEq, true_and]
  funext u
  by_cases hu : u = t
  · subst hu
    simp
  · simp [hu]

omit [DecidableEq V] in
/-- A thread that waits where it waited leaves the gates alone. -/
theorem view_goto_same {q : PolicyPoint V} (hq : q.sleeps = (s.point t).sleeps) :
    (s.goto t q).view = s.view := by
  have hkeep : Function.update s.view.waits t q.sleeps = s.view.waits :=
    Function.update_eq_self_iff.mpr hq
  rw [view_goto, hkeep]

omit [DecidableEq T] in
/-- A write opens or closes a gate. -/
theorem view_set (x : BitVec 32) : (s.set v x).view =
    { s.view with isOpen := Function.update s.view.isOpen v (x = policyUnlocked) } := by
  simp only [view, set_var, set_point, Gate.State.mk.injEq, and_true]
  funext u
  by_cases hu : u = v
  · subst hu
    simp
  · simp [hu]

/-! ## One step -/

omit [DecidableEq T] [DecidableEq V] in
/-- A variable that is not `LOCKED` is `UNLOCKED`. -/
theorem Sound.open_of_ne (h : s.Sound policy) (hne : s.var v ≠ policyLocked) :
    s.var v = policyUnlocked := (h.binary v).resolve_left hne

omit [DecidableEq V] in
/-- A move within the policy. -/
theorem Sound.goto (h : s.Sound policy) {q : PolicyPoint V} (hq : policy.has q = true) :
    (s.goto t q).Sound policy where
  binary := h.binary
  has u := by
    by_cases hu : u = t
    · subst hu
      simpa using hq
    · simpa [hu] using h.has u

omit [DecidableEq T] in
/-- A write of one of the two values. -/
theorem Sound.set (h : s.Sound policy) {x : BitVec 32}
    (hx : x = policyLocked ∨ x = policyUnlocked) : (s.set v x).Sound policy where
  binary u := by
    by_cases hu : u = v
    · subst hu
      simpa using hx
    · simpa [hu] using h.binary u
  has := h.has

omit [DecidableEq T] [DecidableEq V] in
/-- Nobody cares for the counters. -/
theorem Sound.count (h : s.Sound policy) (counter : WaitCounter → BitVec 32) :
    ({ s with counter } : PolicyState T V).Sound policy := ⟨h.binary, h.has⟩

/-- What an action does at the gates: nothing that shows, or one step of a thread. -/
inductive Move (policy : WaitingPolicy) (s : PolicyState T V) (x : PolicyAction T V) :
    PolicyState T V → Prop
  /-- A thread goes on, and waits where it waited. -/
  | goes (t : T) (q : PolicyPoint V) (counter : WaitCounter → BitVec 32)
      (hq : policy.has q = true) (hsleeps : q.sleeps = (s.point t).sleeps)
      (hparks : ∀ v, q = .parked v → s.point t = .parked v ∨ s.var v = policyLocked)
      (hwakes : ∀ v, s.point t = .futexWake v → q = .futexWake v ∨ ∀ w, s.point w ≠ .parked v) :
      Move policy s x ({ s with counter }.goto t q)
  /-- `FUTEX_WAKE` wakes a sleeper. -/
  | wakes (t w : T) (v : V) (hw : s.point w = .parked v) (hp : s.point t = .futexWake v) :
      Move policy s x ((s.goto w (policy.afterWait v)).goto t .outside)
  /-- A thread begins to wait. -/
  | arrives (t : T) (v : V) (hx : x = .sleep t v) (hp : s.point t = .outside) :
      Move policy s x (s.goto t (policy.sleepEntry v))
  /-- A thread leaves its wait. -/
  | passes (t : T) (v : V) (q : PolicyPoint V) (hpolicy : policy ≠ .spinlockAtomic)
      (hwaits : (s.point t).sleeps = some v) (hopen : s.var v = policyUnlocked)
      (hq : policy.has q = true) (hsleeps : q.sleeps = none) : Move policy s x (s.goto t q)
  /-- A thread leaves its wait and takes the variable back. -/
  | turns (t : T) (v : V) (hpolicy : policy = .spinlockAtomic) (hp : s.point t = .swap v)
      (hopen : s.var v = policyUnlocked) : Move policy s x ((s.set v policyLocked).goto t .outside)
  /-- A thread sets a variable to `UNLOCKED`. -/
  | opens (t : T) (v : V) (q : PolicyPoint V) (hq : policy.has q = true)
      (hbefore : (s.point t).sleeps = none) (hsleeps : q.sleeps = none)
      (hstore : ∀ w, s.point t ≠ .futexWake w)
      (hwake : policy.has (.parked v : PolicyPoint V) = true → q = .futexWake v) :
      Move policy s x ((s.set v policyUnlocked).goto t q)
  /-- A client sets a variable to `LOCKED`. -/
  | locks (v : V) (hx : x = .lock v) : Move policy s x (s.set v policyLocked)
  /-- An assertion fails. -/
  | aborts : Move policy s x { s with aborted := true }

/-- A thread that stays where it is. -/
theorem Move.stays (h : s.Sound policy) (t : T) : Move policy s x s := by
  have hsame : ({ s with counter := s.counter } : PolicyState T V).goto t (s.point t) = s := by
    simp [PolicyState.goto]
  have hmove : Move policy s x (({ s with counter := s.counter } : PolicyState T V).goto t
      (s.point t)) :=
    .goes t (s.point t) s.counter (h.has t) rfl (fun _ => Or.inl) fun _ => Or.inl
  rwa [hsame] at hmove

/-- A thread that neither falls asleep nor wakes anybody. -/
theorem Move.advance {q : PolicyPoint V} (counter : WaitCounter → BitVec 32)
    (hq : policy.has q = true) (hsleeps : q.sleeps = (s.point t).sleeps)
    (hparks : ∀ v, q ≠ .parked v) (hwakes : ∀ v, s.point t ≠ .futexWake v) :
    Move policy s x ({ s with counter }.goto t q) :=
  .goes t q counter hq hsleeps (fun v hv => absurd hv (hparks v)) fun v hv => absurd hv (hwakes v)

variable [Fintype T]

/-- Every access is such a move. -/
theorem move_access (h : s.Sound policy) {pick : Option T} (hs : s.access policy t pick = some s') :
    Move policy s x s' := by
  have hhas := h.has t
  cases hp : s.point t with
  | outside | parked v => simp [access, hp] at hs
  | spin v =>
    rw [hp] at hhas
    simp only [access, hp, Option.some.injEq] at hs
    subst hs
    split
    · exact .stays h t
    · rename_i hne
      refine .passes t v .outside ?_ (by rw [hp]; rfl) (h.open_of_ne hne) (by cases policy <;> rfl)
        rfl
      rintro rfl
      cases hhas
  | swap v =>
    rw [hp] at hhas
    simp only [access, hp] at hs
    split at hs <;> cases hs
    · exact .stays h t
    · rename_i hne
      have hopen := h.open_of_ne hne
      rw [if_pos hopen]
      refine .turns t v ?_ hp hopen
      cases policy <;> first | rfl | cases hhas
  | count v i =>
    rw [hp] at hhas
    obtain rfl : policy = .spinThenPark := by cases policy <;> first | rfl | cases hhas
    simp only [access, hp, Option.some.injEq] at hs
    subst hs
    split
    · exact .advance s.counter rfl (by rw [hp]; rfl) (by simp) (by simp [hp])
    · exact .advance s.counter rfl (by rw [hp]; rfl) (by simp) (by simp [hp])
  | look v =>
    rw [hp] at hhas
    obtain rfl : policy = .spinThenPark := by cases policy <;> first | rfl | cases hhas
    simp only [access, hp, Option.some.injEq] at hs
    subst hs
    split
    · rename_i hopen
      exact .passes t v _ (by decide) (by rw [hp]; rfl) hopen rfl rfl
    · exact .advance s.counter rfl (by rw [hp]; rfl) (by simp) (by simp [hp])
  | wait v =>
    rw [hp] at hhas
    simp only [access, hp, Option.some.injEq] at hs
    subst hs
    split
    · rename_i hlocked
      refine .goes t _ s.counter ?_ (by rw [hp]; rfl) (fun w hw => ?_) (by simp [hp])
      · cases policy <;> first | rfl | cases hhas
      · cases hw
        exact Or.inr hlocked
    · refine .advance s.counter ?_ ?_ ?_ (by simp [hp])
      · cases policy <;> first | rfl | cases hhas
      · rw [hp]
        cases policy <;> rfl
      · cases policy <;> simp [WaitingPolicy.afterRace]
  | confirm v =>
    rw [hp] at hhas
    simp only [access, hp, Option.some.injEq] at hs
    subst hs
    split
    · exact .stays h t
    · rename_i hopen
      refine .passes t v .outside ?_ (by rw [hp]; rfl) (not_not.mp hopen) (by cases policy <;> rfl)
        rfl
      rintro rfl
      cases hhas
  | tally v c value next =>
    rw [hp] at hhas
    obtain rfl : policy = .spinThenPark := by cases policy <;> first | rfl | cases hhas
    cases value with
    | none =>
      simp only [access, hp, Option.some.injEq] at hs
      subst hs
      exact .advance s.counter rfl (by rw [hp]; cases next <;> rfl) (by simp) (by simp [hp])
    | some value =>
      simp only [access, hp, Option.some.injEq] at hs
      subst hs
      exact .advance _ (by cases next <;> rfl) (by rw [hp]; cases next <;> rfl)
        (by cases next <;> simp [AfterTally.point]) (by simp [hp])
  | peek v =>
    rw [hp] at hhas
    obtain rfl : policy = .spinThenPark := by cases policy <;> first | rfl | cases hhas
    simp only [access, hp, Option.some.injEq] at hs
    subst hs
    split
    · exact .advance s.counter rfl (by rw [hp]; rfl) (by simp) (by simp [hp])
    · exact .advance s.counter rfl (by rw [hp]; rfl) (by simp) (by simp [hp])
  | store v =>
    simp only [access, hp, Option.some.injEq] at hs
    subst hs
    refine .opens t v _ ?_ (by rw [hp]; rfl) ?_ (by simp [hp]) ?_
    · cases policy <;> rfl
    · cases policy <;> rfl
    · cases policy <;> simp [WaitingPolicy.has, WaitingPolicy.afterStore]
  | cas v =>
    rw [hp] at hhas
    obtain rfl : policy = .spinlockAtomic := by cases policy <;> first | rfl | cases hhas
    simp only [access, hp] at hs
    split at hs <;> cases hs
    · exact .opens t v .outside rfl (by rw [hp]; rfl) rfl (by simp [hp]) fun hno => by cases hno
    · exact .aborts
  | futexWake v =>
    simp only [access, hp, Option.map_eq_some_iff] at hs
    obtain ⟨s₁, hwake, rfl⟩ := hs
    cases pick with
    | some w =>
      obtain ⟨hw, heq⟩ := Option.ite_none_right_eq_some.mp hwake
      cases heq
      exact .wakes t w v hw hp
    | none =>
      obtain ⟨hnone, heq⟩ := Option.ite_none_right_eq_some.mp hwake
      cases heq
      refine .goes t .outside s.counter (by cases policy <;> rfl) (by rw [hp]; rfl) (by simp)
        fun w hw => Or.inr ?_
      rw [hp, PolicyPoint.futexWake.injEq] at hw
      exact hw ▸ hnone

/-- Every action is such a move. -/
theorem move_step (h : s.Sound policy) (hs : s.step policy x = some s') : Move policy s x s' := by
  obtain ⟨-, hs⟩ := Option.ite_none_left_eq_some.mp hs
  cases x with
  | sleep t v =>
    obtain ⟨hp, hs⟩ := Option.ite_none_right_eq_some.mp hs
    cases hs
    exact .arrives t v rfl hp
  | wake t v =>
    obtain ⟨hp, hs⟩ := Option.ite_none_right_eq_some.mp hs
    cases hs
    exact .advance s.counter (by cases policy <;> rfl) (by rw [hp]; cases policy <;> rfl)
      (by cases policy <;> simp [WaitingPolicy.wakeEntry]) (by simp [hp])
  | access t pick => exact move_access h hs
  | interrupt t signal =>
    dsimp only at hs
    split at hs
    · rename_i v hp
      have hhas := h.has t
      rw [hp] at hhas
      cases hs
      refine .advance s.counter ?_ ?_ ?_ (by simp [hp])
      · cases policy <;> first | (split <;> rfl) | cases hhas
      · rw [hp]
        cases policy <;> split <;> rfl
      · cases policy <;> cases signal <;>
          simp [WaitingPolicy.afterSignal, WaitingPolicy.afterWait]
    · cases hs
  | lock v =>
    cases hs
    exact .locks v rfl

omit [Fintype T] in
/-- A move keeps the values of the variables and the points of the policy. -/
theorem Sound.move (h : s.Sound policy) (hmove : Move policy s x s') : s'.Sound policy := by
  cases hmove with
  | goes t q counter hq => exact (h.count counter).goto hq
  | wakes t w v hw =>
    have hhas := h.has w
    rw [hw] at hhas
    refine (h.goto ?_).goto (by cases policy <;> rfl)
    cases policy <;> first | rfl | cases hhas
  | arrives t v => exact h.goto (by cases policy <;> rfl)
  | passes t v q _ _ _ hq => exact h.goto hq
  | turns t v => exact (h.set (Or.inl rfl)).goto (by cases policy <;> rfl)
  | opens t v q hq => exact (h.set (Or.inr rfl)).goto hq
  | locks v => exact h.set (Or.inl rfl)
  | aborts => exact ⟨h.binary, h.has⟩

omit [DecidableEq T] [DecidableEq V] [Fintype T] in
/-- Nothing is wrong in the beginning. -/
theorem sound_initial : (initial : PolicyState T V).Sound policy :=
  ⟨fun _ => Or.inl rfl, fun _ => by cases policy <;> rfl⟩

/-- Nothing is ever wrong. -/
theorem sound_of_path {guard : PolicyState T V → PolicyAction T V → Prop}
    (hpath : Path (step policy) guard initial s) : s.Sound policy :=
  Path.invariant (Sound policy) (fun _ _ _ _ hs h => h.move (move_step h hs)) hpath sound_initial

omit [Fintype T] in
/-- A move is at most one step at the gates. -/
theorem Move.view (hmove : Move policy s x s') :
    Relation.ReflGen (Gate.Step (policy = .spinlockAtomic)) s.view s'.view := by
  cases hmove with
  | goes t q counter _ hsleeps =>
    have hsame : (({ s with counter } : PolicyState T V).goto t q).view = s.view :=
      view_goto_same hsleeps
    rw [hsame]
  | wakes t w v hw hp =>
    have hwoken : (s.goto w (policy.afterWait v)).view = s.view := by
      refine view_goto_same ?_
      rw [hw]
      cases policy <;> rfl
    have hback : ((s.goto w (policy.afterWait v)).goto t .outside).view =
        (s.goto w (policy.afterWait v)).view := by
      refine view_goto_same ?_
      have hne : t ≠ w := by
        rintro rfl
        rw [hp] at hw
        cases hw
      rw [goto_point, Function.update_of_ne hne, hp]
      rfl
    rw [hback, hwoken]
  | arrives t v _ hp =>
    have hsleeps : (policy.sleepEntry v).sleeps = some v := by cases policy <;> rfl
    rw [view_goto, hsleeps]
    refine .single (.arrive ?_)
    simp [PolicyState.view, hp, PolicyPoint.sleeps]
  | passes t v q hpolicy hwaits hopen _ hsleeps =>
    have hstep : Gate.Step (policy = .spinlockAtomic) s.view
        { isOpen := if (policy = .spinlockAtomic : Bool) then Function.update s.view.isOpen v false
            else s.view.isOpen
          waits := Function.update s.view.waits t none } :=
      .pass hwaits (by simpa [PolicyState.view] using hopen)
    rw [view_goto, hsleeps]
    simpa [hpolicy] using Relation.ReflGen.single hstep
  | turns t v hpolicy hp hopen =>
    have hstep : Gate.Step (policy = .spinlockAtomic) s.view
        { isOpen := if (policy = .spinlockAtomic : Bool) then Function.update s.view.isOpen v false
            else s.view.isOpen
          waits := Function.update s.view.waits t none } :=
      .pass (by simp [PolicyState.view, hp, PolicyPoint.sleeps])
        (by simpa [PolicyState.view] using hopen)
    rw [view_goto, view_set]
    simpa [hpolicy, PolicyPoint.sleeps, policyLocked, policyUnlocked] using
      Relation.ReflGen.single hstep
  | opens t v q _ hbefore hsleeps =>
    have hsame : ((s.set v policyUnlocked).goto t q).view = (s.set v policyUnlocked).view :=
      view_goto_same (hsleeps.trans hbefore.symm)
    rw [hsame, view_set]
    refine .single ?_
    simpa using Gate.Step.opens (s := s.view) (v := v)
  | locks v =>
    rw [view_set]
    refine .single ?_
    simpa [policyLocked, policyUnlocked] using Gate.Step.closes (s := s.view) (v := v)
  | aborts => exact .refl

/-- Every policy refines the gate, `WAITING_SPINLOCK_ATOMIC` the turnstile: every run is matched by
a run of the gates, every further action by at most one of their steps, and a thread leaves its
wait only while its variable is `UNLOCKED`. -/
theorem waiting_policies_are_gates (hpath : Path (step policy) anyStep initial s) :
    Relation.ReflTransGen (Gate.Step (policy = .spinlockAtomic))
      (initial : PolicyState T V).view s.view ∧
    ∀ x s', s.step policy x = some s' →
      Relation.ReflGen (Gate.Step (policy = .spinlockAtomic)) s.view s'.view ∧
        ∀ t v, (s.point t).sleeps = some v → (s'.point t).sleeps ≠ some v →
          s.var v = policyUnlocked ∧ (s'.point t).sleeps = none := by
  have hsound : s.Sound policy := sound_of_path hpath
  refine ⟨Path.simulate (Sound policy) PolicyState.view
    (fun _ _ _ _ hs h => h.move (move_step h hs))
    (fun _ _ _ _ hs h => (move_step h hs).view.to_reflTransGen) hpath sound_initial, ?_⟩
  intro x s' hs
  have hview := (move_step hsound hs).view
  refine ⟨hview, fun t v hbefore hafter => ?_⟩
  rcases (Relation.reflGen_iff ..).mp hview with hsame | hgate
  · refine absurd ?_ hafter
    have hwaits : s'.view.waits t = some v := by
      rw [hsame]
      exact hbefore
    exact hwaits
  · obtain ⟨hopen, hleft⟩ := hgate.open_of_left (t := t) (v := v) hbefore hafter
    exact ⟨by simpa [PolicyState.view] using hopen, hleft⟩

/-- Thread 1 wakes thread 0, whose compare-and-swap passes the turnstile. -/
theorem waiting_policies_are_gates_swap : ∃ s s' : PolicyState (Fin 2) Unit,
    Relation.ReflTransGen (Gate.Step true) (initial : PolicyState (Fin 2) Unit).view s.view ∧
      s.step .spinlockAtomic (.access 0 none) = some s' ∧
      s.var () = policyUnlocked ∧ s'.var () = policyLocked ∧ (s'.point 0).sleeps = none := by
  obtain ⟨s, hpath, hp, hends⟩ := exists_path_of_execute
    (step (T := Fin 2) (V := Unit) .spinlockAtomic) anyStep
    [.sleep 0 (), .wake 1 (), .access 1 none] initial
    (fun s => s.point 0 = .swap () ∧ (s.step .spinlockAtomic (.access 0 none)).any (fun s' =>
      s'.var () = policyLocked ∧ s'.point 0 = .outside) = true) (by decide +kernel)
  obtain ⟨s', hs', hafter⟩ := (Option.any_eq_true _ _).mp hends
  obtain ⟨hlocked, hp'⟩ := of_decide_eq_true hafter
  obtain ⟨hruns, hsteps⟩ := waiting_policies_are_gates hpath
  have hpasses := (hsteps (.access 0 none) s' hs').2 0 () (by rw [hp]; rfl) (by rw [hp']; nofun)
  exact ⟨s, s', hruns, hs', hpasses.1, hlocked, hpasses.2⟩

end PolicyState

end Htll
