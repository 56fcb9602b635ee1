import Htll.WaitingGate

/-!
# Wake-ups of the waiting policies

As long as no two threads wait for one variable at a time, a thread that is asleep on an `UNLOCKED`
variable is about to be woken, and one that is awake is back after a fixed number of its own
accesses. Under `WAITING_SPINLOCK_ATOMIC` every wake lets one sleep return, and the assertion fails
exactly if the wake before has let nobody return yet.
-/

namespace Htll

open Transition

namespace PolicyState

variable {T V : Type*} [DecidableEq T] [DecidableEq V] {s s' : PolicyState T V} {t : T} {v : V}
  {policy : WaitingPolicy} {x : PolicyAction T V} [Fintype T]

/-! ## One thread at each variable -/

/-- Nobody begins to wait for a variable that somebody waits for. -/
def OneSleeper (s : PolicyState T V) : PolicyAction T V → Prop
  | .sleep _ v => ∀ u, (s.point u).sleeps ≠ some v
  | _ => True

instance (s : PolicyState T V) : DecidablePred s.OneSleeper
  | .sleep _ v => inferInstanceAs (Decidable (∀ u, (s.point u).sleeps ≠ some v))
  | .wake .. | .access .. | .interrupt .. | .lock _ => .isTrue trivial

/-- Threads that wait for one variable are one thread, and whoever sleeps on an `UNLOCKED` variable
is about to be woken. -/
structure Served (s : PolicyState T V) : Prop where
  alone : ∀ t u v, (s.point t).sleeps = some v → (s.point u).sleeps = some v → t = u
  carried : ∀ t v, s.point t = .parked v → s.var v = policyLocked ∨ ∃ u, s.point u = .futexWake v

omit [Fintype T] in
/-- Threads at one variable stay one thread. -/
theorem Served.alone_move (h : s.Served) (hmove : Move policy s x s') (hguard : s.OneSleeper x)
    (t u : T) (v : V) (ht : (s'.point t).sleeps = some v) (hu : (s'.point u).sleeps = some v) :
    t = u := by
  have hkeeps : (∀ u v, (s'.point u).sleeps = some v → (s.point u).sleeps = some v) → t = u :=
    fun hkeeps => h.alone t u v (hkeeps t v ht) (hkeeps u v hu)
  have hleaves : ∀ w (q : PolicyPoint V) var, q.sleeps = none →
      ∀ u v, ((({ s with var } : PolicyState T V).goto w q).point u).sleeps = some v →
        (s.point u).sleeps = some v := by
    intro w q var hq u v hsleeps
    by_cases huw : u = w
    · subst huw
      rw [goto_point, Function.update_self, hq] at hsleeps
      cases hsleeps
    · simpa [huw] using hsleeps
  cases hmove with
  | goes w q counter _ hsleeps =>
    refine hkeeps fun u v hv => ?_
    by_cases huw : u = w
    · subst huw
      rw [goto_point, Function.update_self, hsleeps] at hv
      exact hv
    · simpa [huw] using hv
  | wakes w w' v' hw' =>
    refine hkeeps fun u v hv => ?_
    by_cases huw : u = w
    · subst huw
      rw [goto_point, Function.update_self] at hv
      cases hv
    · by_cases huw' : u = w'
      · subst huw'
        have hafter : (policy.afterWait v').sleeps = some v' := by cases policy <;> rfl
        rw [goto_point, Function.update_of_ne huw, goto_point, Function.update_self, hafter] at hv
        rw [hw']
        exact hv
      · simpa [huw, huw'] using hv
  | arrives w v' hx hp =>
    subst hx
    have hnew : (policy.sleepEntry v').sleeps = some v' := by cases policy <;> rfl
    have hother : ∀ u, u ≠ w → ((s.goto w (policy.sleepEntry v')).point u).sleeps = some v →
        v ≠ v' := by
      intro u huw hv hvv
      rw [goto_point, Function.update_of_ne huw, hvv] at hv
      exact hguard u hv
    have hself : ∀ u, u = w → ((s.goto w (policy.sleepEntry v')).point u).sleeps = some v →
        v' = v := by
      intro u huw hv
      rw [goto_point, huw, Function.update_self, hnew] at hv
      exact Option.some.inj hv
    by_cases htw : t = w
    · by_cases huw : u = w
      · exact htw.trans huw.symm
      · exact absurd (hself t htw ht).symm (hother u huw hu)
    · by_cases huw : u = w
      · exact absurd (hself u huw hu).symm (hother t htw ht)
      · refine h.alone t u v ?_ ?_
        · simpa [htw] using ht
        · simpa [huw] using hu
  | passes w v' q _ _ _ _ hq => exact hkeeps (hleaves w q s.var hq)
  | turns w v' | opens w v' q _ _ hq => exact hkeeps (hleaves w _ _ (by first | rfl | exact hq))
  | locks | aborts => exact hkeeps fun _ _ hv => hv

omit [Fintype T] in
/-- The wake-up of a sleeper on an `UNLOCKED` variable stays on its way. -/
theorem Served.carried_move (h : s.Served) (hsound : s.Sound policy) (hmove : Move policy s x s')
    (t : T) (v : V) (hparked : s'.point t = .parked v) :
    s'.var v = policyLocked ∨ ∃ u, s'.point u = .futexWake v := by
  -- a carrier stays one while another thread moves
  have hother : ∀ (w : T) (q : PolicyPoint V), (∀ v, s.point w ≠ .futexWake v) →
      (∃ u, s.point u = .futexWake v) → ∃ u, (s.goto w q).point u = .futexWake v := by
    rintro w q hw ⟨u, hu⟩
    refine ⟨u, ?_⟩
    have huw : u ≠ w := by
      rintro rfl
      exact hw v hu
    rw [goto_point, Function.update_of_ne huw, hu]
  -- a thread that moves elsewhere was parked before
  have hbefore : ∀ (w : T) (q : PolicyPoint V), q ≠ .parked v →
      (s.goto w q).point t = .parked v → s.point t = .parked v := by
    intro w q hq hpoint
    by_cases htw : t = w
    · subst htw
      rw [goto_point, Function.update_self] at hpoint
      exact absurd hpoint hq
    · rwa [goto_point, Function.update_of_ne htw] at hpoint
  cases hmove with
  | goes w q counter _ _ hparks hwakes =>
    have hpoint : (s.goto w q).point t = .parked v := hparked
    have hcarries : (∃ u, s.point u = .futexWake v) → s.point t = .parked v →
        ∃ u, (s.goto w q).point u = .futexWake v := by
      rintro ⟨u, hu⟩ ht
      by_cases huw : u = w
      · subst huw
        rcases hwakes v hu with hstays | hnone
        · exact ⟨u, by rw [goto_point, Function.update_self, hstays]⟩
        · exact absurd ht (hnone t)
      · exact ⟨u, by rw [goto_point, Function.update_of_ne huw, hu]⟩
    by_cases htw : t = w
    · subst htw
      have hq : q = .parked v := by rwa [goto_point, Function.update_self] at hpoint
      rcases hparks v hq with ht | hlocked
      · exact (h.carried t v ht).imp id fun hcarrier => hcarries hcarrier ht
      · exact Or.inl hlocked
    · have ht : s.point t = .parked v := by rwa [goto_point, Function.update_of_ne htw] at hpoint
      exact (h.carried t v ht).imp id fun hcarrier => hcarries hcarrier ht
  | wakes w w' v' hw' hp =>
    have htw : t ≠ w := by
      rintro rfl
      rw [goto_point, Function.update_self] at hparked
      cases hparked
    have htw' : t ≠ w' := by
      rintro rfl
      rw [goto_point, Function.update_of_ne htw, goto_point, Function.update_self] at hparked
      cases policy <;> cases hparked
    have ht : s.point t = .parked v := by simpa [htw, htw'] using hparked
    -- the woken thread was the only one there
    have hv : v' ≠ v := by
      rintro rfl
      exact htw' (h.alone t w' v' (by rw [ht]; rfl) (by rw [hw']; rfl))
    refine (h.carried t v ht).imp id ?_
    rintro ⟨u, hu⟩
    have huw : u ≠ w := by
      rintro rfl
      rw [hp, PolicyPoint.futexWake.injEq] at hu
      exact hv hu
    have huw' : u ≠ w' := by
      rintro rfl
      rw [hw'] at hu
      cases hu
    exact ⟨u, by rw [goto_point, Function.update_of_ne huw, goto_point,
      Function.update_of_ne huw', hu]⟩
  | arrives w v' _ hp =>
    refine (h.carried t v (hbefore w _ ?_ hparked)).imp id (hother w _ (by simp [hp]))
    cases policy <;> simp [WaitingPolicy.sleepEntry]
  | passes w v' q _ hwaits _ _ hq =>
    refine (h.carried t v (hbefore w q ?_ hparked)).imp id (hother w q fun v hv => ?_)
    · rintro rfl
      cases hq
    · rw [hv] at hwaits
      cases hwaits
  | turns w v' hpolicy hp =>
    have ht : s.point t = .parked v := hbefore w .outside (by simp) hparked
    have hhas := hsound.has t
    rw [ht, hpolicy] at hhas
    cases hhas
  | opens w v' q _ _ hq hstore hwake =>
    have hne : q ≠ .parked v := by
      rintro rfl
      cases hq
    have ht : s.point t = .parked v := hbefore w q hne hparked
    by_cases hv : v' = v
    · subst hv
      refine Or.inr ⟨w, ?_⟩
      have hhas := hsound.has t
      rw [ht] at hhas
      rw [goto_point, Function.update_self, hwake hhas]
    · refine (h.carried t v ht).imp (fun hlocked => ?_) (hother w q hstore)
      rwa [goto_var, set_var, Function.update_of_ne (Ne.symm hv)]
  | locks v' _ =>
    refine (h.carried t v hparked).imp (fun hlocked => ?_) id
    by_cases hv : v = v'
    · subst hv
      exact Function.update_self ..
    · rwa [set_var, Function.update_of_ne hv]
  | aborts => exact h.carried t v hparked

/-- Every action of clients that wait one at a time keeps them served. -/
theorem Served.step (h : s.Served) (hsound : s.Sound policy) (hguard : s.OneSleeper x)
    (hs : s.step policy x = some s') : s'.Served where
  alone := h.alone_move (move_step hsound hs) hguard
  carried := h.carried_move hsound (move_step hsound hs)

/-- They are always served. -/
theorem served_of_path (hpath : Path (step policy) OneSleeper initial s) : s.Served := by
  refine Path.invariant_of (Sound policy) Served (fun _ _ _ _ hs h => h.move (move_step h hs))
    (fun _ _ _ hguard hs hsound h => h.step hsound hguard hs) hpath sound_initial ⟨?_, ?_⟩
  · intro t u v ht
    cases ht
  · intro t v ht
    cases ht

/-! ## The way out -/

end PolicyState

/-- How many accesses are at most ahead after the increment of a counter, if the variable is
`UNLOCKED`. -/
def AfterTally.ahead : AfterTally → ℕ
  | .returned | .store => 0
  | .confirm => 1
  | .leave => 3
  | .retry => 6

/-- How many accesses of `waiting_policy_sleep` are at most ahead, if the variable is `UNLOCKED`. -/
def PolicyPoint.ahead {V : Type*} : PolicyPoint V → ℕ
  | .spin _ | .swap _ | .confirm _ => 1
  | .look _ => 3
  | .count .. => 4
  | .wait _ => 6
  | .tally _ _ none next => next.ahead + 2
  | .tally _ _ (some _) next => next.ahead + 1
  | .outside | .parked _ | .peek _ | .store _ | .cas _ | .futexWake _ => 0

/-- The thread is in no call or has only a counter to increment. -/
def PolicyPoint.leaves {V : Type*} : PolicyPoint V → Bool
  | .outside | .tally _ _ _ .returned => true
  | _ => false

/-- The action is an access of the thread. -/
def PolicyAction.isAccess {T V : Type*} [DecidableEq T] (t : T) : PolicyAction T V → Bool
  | .access u _ => u = t
  | _ => false

/-- The thread of an action. -/
def PolicyAction.actor {T V : Type*} : PolicyAction T V → Option T
  | .sleep t _ | .wake t _ | .access t _ | .interrupt t _ => some t
  | .lock _ => none

namespace PolicyState

variable {T V : Type*} [DecidableEq T] [DecidableEq V] {s s' : PolicyState T V} {t : T} {v : V}
  {policy : WaitingPolicy} {x : PolicyAction T V}

/-- A thread that is on its way out, or awake before the open gate. -/
def Admitted (s : PolicyState T V) (t : T) (v : V) : Prop :=
  (s.point t).leaves = true ∨
    ((s.point t).sleeps = some v ∧ s.var v = policyUnlocked ∧ s.point t ≠ .parked v)

omit [DecidableEq T] [DecidableEq V] in
/-- An admitted thread is awake. -/
theorem Admitted.awake (h : s.Admitted t v) (w : V) : s.point t ≠ .parked w := by
  intro hw
  rcases h with hleaves | ⟨hsleeps, -, hparked⟩
  · rw [hw] at hleaves
    cases hleaves
  · rw [hw] at hsleeps
    obtain rfl := Option.some.inj hsleeps
    exact hparked hw

omit [DecidableEq T] [DecidableEq V] in
/-- An admitted thread without accesses ahead is back. -/
theorem Admitted.outside (h : s.Admitted t v) (hnone : (s.point t).ahead = 0) :
    s.point t = .outside := by
  cases hp : s.point t with
  | outside => rfl
  | parked w => exact absurd hp (h.awake w)
  | peek | store | cas | futexWake =>
    rcases h with hleaves | ⟨hsleeps, -⟩
    · rw [hp] at hleaves
      cases hleaves
    · rw [hp] at hsleeps
      cases hsleeps
  | tally w c value next =>
    rw [hp] at hnone
    cases value <;> cases hnone
  | _ =>
    rw [hp] at hnone
    cases hnone

variable [Fintype T]

/-- An access of an admitted thread leaves it admitted, with fewer accesses ahead. -/
theorem admitted_access (h : s.Admitted t v) {pick : Option T}
    (hs : s.access policy t pick = some s') :
    s'.Admitted t v ∧ (s'.point t).ahead ≤ (s.point t).ahead - 1 := by
  rcases h with hleaves | ⟨hsleeps, hopen, hawake⟩
  · cases hp : s.point t with
    | tally v' c value next =>
      rw [hp] at hleaves
      obtain rfl : next = .returned := by cases next <;> first | rfl | cases hleaves
      cases value <;> simp only [access, hp, Option.some.injEq] at hs <;> subst hs <;>
        simp [Admitted, PolicyPoint.leaves, PolicyPoint.ahead, AfterTally.point]
    | outside => simp [access, hp] at hs
    | _ =>
      rw [hp] at hleaves
      cases hleaves
  · have hne : s.var v ≠ policyLocked := by
      rw [hopen]
      decide
    cases hp : s.point t with
    | outside | peek | store | cas | futexWake =>
      rw [hp] at hsleeps
      cases hsleeps
    | parked v' =>
      rw [hp] at hsleeps
      obtain rfl := Option.some.inj hsleeps
      exact absurd hp hawake
    | spin v' | swap v' | look v' | confirm v' | count v' =>
      rw [hp] at hsleeps
      obtain rfl := Option.some.inj hsleeps
      have hstays : policyUnlocked ≠ policyLocked := by decide
      simp only [access, hp, hopen, if_neg hstays, ne_eq, not_true_eq_false, and_false, if_false,
        if_true, Option.some.injEq] at hs
      subst hs
      simp [Admitted, PolicyPoint.leaves, PolicyPoint.sleeps, PolicyPoint.ahead, AfterTally.ahead,
        hopen]
    | wait v' =>
      rw [hp] at hsleeps
      obtain rfl := Option.some.inj hsleeps
      simp only [access, hp, if_neg hne, Option.some.injEq] at hs
      subst hs
      cases policy <;> simp [Admitted, PolicyPoint.sleeps, PolicyPoint.ahead, AfterTally.ahead,
        WaitingPolicy.afterRace, hopen]
    | tally v' c value next =>
      rw [hp] at hsleeps
      have hsame : v' = v := by cases next <;> first | exact Option.some.inj hsleeps | cases hsleeps
      subst hsame
      cases value <;> simp only [access, hp, Option.some.injEq] at hs <;> subst hs <;>
        cases next <;> first
          | (cases hsleeps; done)
          | simp [Admitted, PolicyPoint.sleeps, PolicyPoint.ahead, AfterTally.ahead,
              AfterTally.point, hopen]

/-- An action of others leaves a thread that is awake where it is. -/
theorem point_of_step (hs : s.step policy x = some s') (hx : x.actor ≠ some t)
    (hawake : ∀ v, s.point t ≠ .parked v) : s'.point t = s.point t := by
  have hgoto : ∀ (s₁ : PolicyState T V) u q, t ≠ u → (s₁.goto u q).point t = s₁.point t :=
    fun s₁ u q hu => by rw [goto_point, Function.update_of_ne hu]
  have hne : ∀ u, x.actor = some u → t ≠ u := by
    rintro u hu rfl
    exact hx hu
  obtain ⟨-, hs⟩ := Option.ite_none_left_eq_some.mp hs
  cases x with
  | sleep u w | wake u w =>
    obtain ⟨-, hs⟩ := Option.ite_none_right_eq_some.mp hs
    cases hs
    exact hgoto s u _ (hne u rfl)
  | interrupt u signal =>
    dsimp only at hs
    split at hs <;> cases hs
    exact hgoto s u _ (hne u rfl)
  | lock w =>
    cases hs
    rfl
  | access u pick =>
    have hu := hne u rfl
    dsimp only [access] at hs
    split at hs
    case h_1 | h_2 => cases hs
    case h_3 | h_8 =>
      cases hs
      split
      · rfl
      · exact hgoto s u _ hu
    case h_4 =>
      split at hs <;> cases hs
      · rfl
      · split <;> exact hgoto _ u _ hu
    case h_13 =>
      split at hs <;> cases hs
      · exact hgoto _ u _ hu
      · rfl
    case h_14 w hp =>
      obtain ⟨s₁, hwake, rfl⟩ := Option.map_eq_some_iff.mp hs
      rw [hgoto s₁ u _ hu]
      cases pick with
      | none =>
        obtain ⟨-, heq⟩ := Option.ite_none_right_eq_some.mp hwake
        rw [← Option.some.inj heq]
      | some y =>
        obtain ⟨hy, heq⟩ := Option.ite_none_right_eq_some.mp hwake
        rw [← Option.some.inj heq]
        refine hgoto s y _ ?_
        rintro rfl
        exact hawake w hy
    all_goals
      cases hs
      exact hgoto _ u _ hu

/-- So it leaves it admitted, if it does not set the variable to `LOCKED` and no other thread waits
for it. -/
theorem admitted_other (hsound : s.Sound policy) (hserved : s.Served) (h : s.Admitted t v)
    (hs : s.step policy x = some s') (hx : x.actor ≠ some t) (hlock : x ≠ .lock v) :
    s'.Admitted t v ∧ s'.point t = s.point t := by
  have hpoint := point_of_step hs hx h.awake
  refine ⟨?_, hpoint⟩
  rcases h with hleaves | ⟨hsleeps, hopen, hparked⟩
  · exact Or.inl (by rwa [hpoint])
  · refine Or.inr ⟨by rwa [hpoint], ?_, by rwa [hpoint]⟩
    cases move_step hsound hs with
    | goes | wakes | arrives | passes | aborts => exact hopen
    | turns u w _ hp =>
      -- only the thread itself could have taken the variable back
      have hw : v ≠ w := by
        rintro rfl
        obtain rfl : u = t := hserved.alone u t v (by rw [hp]; rfl) hsleeps
        rw [goto_point, Function.update_self, hp] at hpoint
        cases hpoint
      rwa [goto_var, set_var, Function.update_of_ne hw]
    | opens u w =>
      by_cases hw : v = w
      · subst hw
        exact Function.update_self ..
      · rwa [goto_var, set_var, Function.update_of_ne hw]
    | locks w hx =>
      have hw : v ≠ w := by
        rintro rfl
        exact hlock hx
      rwa [set_var, Function.update_of_ne hw]

/-- Every action of clients that wait one at a time leaves an admitted thread admitted, but for its
own calls, with fewer accesses ahead after its own. -/
theorem admitted_step (hsound : s.Sound policy) (hserved : s.Served) (hadmitted : s.Admitted t v)
    (hguard : s.OneSleeper x) (hs : s.step policy x = some s') (hlock : x ≠ .lock v)
    (hcalls : ∀ w, x ≠ .sleep t w ∧ x ≠ .wake t w) :
    (s'.Sound policy ∧ s'.Served ∧ s'.Admitted t v) ∧
      (s'.point t).ahead ≤ (s.point t).ahead - (x.isAccess t).toNat := by
  have hnext : s'.Sound policy ∧ s'.Served :=
    ⟨hsound.move (move_step hsound hs), hserved.step hsound hguard hs⟩
  by_cases hactor : x.actor = some t
  · cases x with
    | lock w => cases hactor
    | sleep u w =>
      obtain rfl := Option.some.inj hactor
      exact absurd rfl (hcalls w).1
    | wake u w =>
      obtain rfl := Option.some.inj hactor
      exact absurd rfl (hcalls w).2
    | interrupt u signal =>
      obtain rfl := Option.some.inj hactor
      obtain ⟨-, hs⟩ := Option.ite_none_left_eq_some.mp hs
      dsimp only at hs
      split at hs
      · rename_i w hw
        exact absurd hw (hadmitted.awake w)
      · cases hs
    | access u pick =>
      obtain rfl := Option.some.inj hactor
      obtain ⟨-, haccess⟩ := Option.ite_none_left_eq_some.mp hs
      obtain ⟨hstays, hfalls⟩ := admitted_access hadmitted haccess
      exact ⟨⟨hnext.1, hnext.2, hstays⟩, by simpa [PolicyAction.isAccess] using hfalls⟩
  · obtain ⟨hstays, hpoint⟩ := admitted_other hsound hserved hadmitted hs hactor hlock
    refine ⟨⟨hnext.1, hnext.2, hstays⟩, ?_⟩
    have hnot : x.isAccess t = false := by
      cases x with
      | access u pick => exact decide_eq_false fun hu => hactor (congrArg some hu)
      | _ => rfl
    rw [hpoint, hnot]
    exact Nat.le_refl _

omit [DecidableEq T] [DecidableEq V] [Fintype T] in
/-- At most 8 accesses are ahead of any thread. -/
theorem ahead_le (q : PolicyPoint V) : q.ahead ≤ 8 := by
  cases q with
  | tally v c value next =>
    cases value <;> cases next <;> simp [PolicyPoint.ahead, AfterTally.ahead]
  | _ => simp [PolicyPoint.ahead]

/-- As long as no two threads wait for one variable at a time, no wake-up is lost under any policy:
a thread that sleeps in the kernel sleeps on a `LOCKED` variable or is about to be woken. A thread
that waits awake for an `UNLOCKED` variable is back after as many of its own accesses as are
ahead, at most 8, whatever the others do, unless somebody sets the variable to `LOCKED`. -/
theorem woken_sleepers_return (hpath : Path (step policy) OneSleeper initial s)
    (hsleeps : (s.point t).sleeps = some v) :
    (s.point t = .parked v → s.var v = policyLocked ∨ ∃ u, s.point u = .futexWake v) ∧
    (s.point t).ahead ≤ 8 ∧
    (s.var v = policyUnlocked → s.point t ≠ .parked v → ∀ actions s',
      execute (step policy) OneSleeper s actions = some s' → .lock v ∉ actions →
      (∀ w, .sleep t w ∉ actions ∧ .wake t w ∉ actions) →
      (s.point t).ahead ≤ actions.countP (·.isAccess t) → s'.point t = .outside) := by
  have hsound : s.Sound policy := sound_of_path hpath
  have hserved : s.Served := served_of_path hpath
  refine ⟨hserved.carried t v, ahead_le _,
    fun hopen hparked actions s' h hlock hcalls henough => ?_⟩
  -- the thread stays admitted while its accesses go by
  obtain ⟨⟨-, -, hadmitted⟩, hrank⟩ := execute_rank
    (fun s₁ => s₁.Sound policy ∧ s₁.Served ∧ s₁.Admitted t v) (fun s₁ => (s₁.point t).ahead)
    (·.isAccess t)
    (fun x hx s₁ s₂ hguard h hs => admitted_step h.1 h.2.1 h.2.2 hguard hs
      (fun heq => hlock (heq ▸ hx)) fun w => ⟨fun heq => (hcalls w).1 (heq ▸ hx),
        fun heq => (hcalls w).2 (heq ▸ hx)⟩)
    ⟨hsound, hserved, Or.inr ⟨hsleeps, hopen, hparked⟩⟩ h
  exact hadmitted.outside (by omega)

/-- Thread 1 wakes thread 0, which is back after one more access. -/
theorem woken_sleepers_return_park : ∃ s s' : PolicyState (Fin 2) Unit,
    (s.point 0).sleeps = some () ∧
      execute (step .park) OneSleeper s [.access 0 none] = some s' ∧ s'.point 0 = .outside := by
  obtain ⟨s, hpath, hsleeps, hopen, hparked, hahead, hruns⟩ := exists_path_of_execute
    (step (T := Fin 2) (V := Unit) .park) OneSleeper
    [.sleep 0 (), .access 0 none, .wake 1 (), .access 1 none, .access 1 (some 0)] initial
    (fun s => (s.point 0).sleeps = some () ∧ s.var () = policyUnlocked ∧ s.point 0 ≠ .parked () ∧
      (s.point 0).ahead = 1 ∧
      (execute (step .park) OneSleeper s [.access 0 none]).isSome = true) (by decide +kernel)
  obtain ⟨s', hs'⟩ := Option.isSome_iff_exists.mp hruns
  refine ⟨s, s', hsleeps, hs', (woken_sleepers_return hpath hsleeps).2.2 hopen hparked _ s' hs'
    (by simp) (by simp) ?_⟩
  rw [hahead]
  decide

/-! ## Wakes and sleeps of `WAITING_SPINLOCK_ATOMIC` -/

/-- The compare-and-swap of a wake sets the variable to `UNLOCKED`. -/
def gives (v : V) (s : PolicyState T V) : PolicyAction T V → Bool
  | .access t _ => s.point t = .cas v ∧ s.var v = policyLocked
  | _ => false

/-- The compare-and-swap of a sleep takes the variable back. -/
def takes (v : V) (s : PolicyState T V) : PolicyAction T V → Bool
  | .access t _ => s.point t = .swap v ∧ s.var v = policyUnlocked
  | _ => false

/-- The variable is `UNLOCKED` after an action exactly if it was, or a wake set it, and no sleep
took it. -/
theorem gives_takes_step (hsound : s.Sound .spinlockAtomic) (hlock : x ≠ .lock v)
    (hs : s.step .spinlockAtomic x = some s') :
    (s.var v == policyUnlocked).toNat + (s.gives v x).toNat =
      (s'.var v == policyUnlocked).toNat + (s.takes v x).toNat := by
  have hdiffer : (policyLocked == policyUnlocked) = false := by decide
  obtain ⟨-, hs⟩ := Option.ite_none_left_eq_some.mp hs
  cases x with
  | sleep t w | wake t w =>
    obtain ⟨-, hs⟩ := Option.ite_none_right_eq_some.mp hs
    cases hs
    rfl
  | interrupt t signal =>
    dsimp only at hs
    split at hs <;> cases hs
    rfl
  | lock w =>
    have hw : v ≠ w := fun heq => hlock (heq ▸ rfl)
    cases hs
    simp [gives, takes, Function.update_of_ne hw]
  | access t pick =>
    have hhas := hsound.has t
    dsimp only at hs
    cases hp : s.point t with
    | outside => simp [access, hp] at hs
    | swap w =>
      simp only [access, hp] at hs
      split at hs <;> cases hs
      · rename_i hlocked
        by_cases hw : w = v
        · subst hw
          simp [gives, takes, hp, hlocked, policyLocked, policyUnlocked]
        · simp [gives, takes, hp, hw]
      · rename_i hne
        have hopen := hsound.open_of_ne hne
        rw [if_pos hopen]
        by_cases hw : w = v
        · subst hw
          simp [gives, takes, hp, hopen, hdiffer]
        · simp [gives, takes, hp, hw, Function.update_of_ne (Ne.symm hw)]
    | cas w =>
      simp only [access, hp] at hs
      split at hs <;> cases hs
      · rename_i hlocked
        by_cases hw : w = v
        · subst hw
          simp [gives, takes, hp, hlocked, hdiffer]
        · simp [gives, takes, hp, hw, Function.update_of_ne (Ne.symm hw)]
      · rename_i hne
        by_cases hw : w = v
        · subst hw
          simp [gives, takes, hp, hne]
        · simp [gives, takes, hp, hw]
    | _ =>
      rw [hp] at hhas
      cases hhas

/-- Under `WAITING_SPINLOCK_ATOMIC`, in every run in which no client sets the variable, as many
wakes have set it as sleeps have returned, and one more while it is `UNLOCKED`: no wake-up is lost,
and none lets two sleeps return. The assertion of a wake fails exactly if a wake before it has let
no sleep return. -/
theorem atomic_wakes_let_one_return {actions : List (PolicyAction T V)}
    (h : execute (step .spinlockAtomic) anyStep initial actions = some s)
    (hlock : .lock v ∉ actions) :
    occurrences (step .spinlockAtomic) (gives v) initial actions =
      (s.var v == policyUnlocked).toNat +
        occurrences (step .spinlockAtomic) (takes v) initial actions ∧
    ∀ t pick s', s.point t = .cas v → s.step .spinlockAtomic (.access t pick) = some s' →
      (s'.aborted = true ↔
        occurrences (step .spinlockAtomic) (gives v) initial actions ≠
          occurrences (step .spinlockAtomic) (takes v) initial actions) := by
  have hcounts : occurrences (step .spinlockAtomic) (gives v) initial actions =
      (s.var v == policyUnlocked).toNat +
        occurrences (step .spinlockAtomic) (takes v) initial actions := by
    induction actions using List.reverseRecOn generalizing s with
    | nil =>
      cases h
      rfl
    | append_singleton actions x ih =>
      obtain ⟨s₁, hs₁, hstep⟩ := execute_snoc.mp h
      have hbefore := ih hs₁ fun hmem => hlock (List.mem_append_left [x] hmem)
      have hsound : s₁.Sound .spinlockAtomic := sound_of_path (execute_path _ _ _ _ _ hs₁)
      have hx : x ≠ .lock v := by
        rintro rfl
        exact hlock (List.mem_append_right actions (List.mem_singleton_self _))
      have hcount := gives_takes_step hsound hx hstep
      rw [occurrences_snoc _ _ hs₁, occurrences_snoc _ _ hs₁]
      omega
  refine ⟨hcounts, fun t pick s' hp hs => ?_⟩
  obtain ⟨hrunning, haccess⟩ := Option.ite_none_left_eq_some.mp hs
  simp only [access, hp] at haccess
  rw [hcounts]
  split at haccess <;> cases haccess
  · rename_i hlocked
    have hdiffer : (policyLocked == policyUnlocked) = false := by decide
    simp [hlocked, hdiffer, hrunning]
  · rename_i hne
    have hsound : s.Sound .spinlockAtomic := sound_of_path (execute_path _ _ _ _ _ h)
    simp [hsound.open_of_ne hne]

/-- A thread wakes twice in a row. -/
def secondWake {T : Type*} (t : T) : List (PolicyAction T Unit) :=
  [.wake t (), .access t none, .wake t ()]

/-- The assertion of the second wake fails: the first has let no sleep return. -/
theorem atomic_wakes_let_one_return_twice : ∃ (t : Fin 2) (s s' : PolicyState (Fin 2) Unit),
    execute (step .spinlockAtomic) anyStep initial (secondWake t) = some s ∧
      s.step .spinlockAtomic (.access t none) = some s' ∧
      occurrences (step .spinlockAtomic) (gives ()) initial (secondWake t) ≠
        occurrences (step .spinlockAtomic) (takes ()) initial (secondWake t) := by
  have hrun : (execute (step .spinlockAtomic) anyStep initial (secondWake (0 : Fin 2))).any
      (fun s => s.point 0 = .cas () ∧
        (s.step .spinlockAtomic (.access 0 none)).any (·.aborted)) = true := by
    decide +kernel
  obtain ⟨s, hs, hends⟩ := (Option.any_eq_true _ _).mp hrun
  obtain ⟨hp, hnext⟩ := of_decide_eq_true hends
  obtain ⟨s', hs', haborted⟩ := (Option.any_eq_true _ _).mp hnext
  have hiff := (atomic_wakes_let_one_return (v := ()) hs (by simp [secondWake])).2 0 none s' hp hs'
  exact ⟨0, s, s', hs, hs', hiff.mp haborted⟩

end PolicyState

end Htll
