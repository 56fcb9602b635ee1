import Htll.MachineFlow
import Htll.MutualExclusion

/-!
# The mutex of a condition variable

A wait binds its condition variable to its mutex: it reads `c->m`, compares, swaps it in over
`NULL` and reads it again. Nothing ever unbinds it, neither the end of a wait nor
`upmutex_cond1_destroy`. The caller holds its mutex throughout, so nobody else can be binding the
same one in the meantime, and a wait that finds a mutex there which is not its own can only return
`EINVAL`, having changed nothing.
-/

namespace Htll

open Transition

/-- How many accesses of the binding are left at most. -/
def BindPoint.left : BindPoint → ℕ
  | .seq => 5
  | .compare _ => 4
  | .vacant _ => 3
  | .swap _ => 2
  | .confirm _ => 1

/-- What a thread that holds its mutex knows about `c->m` in the binding. -/
def BindPoint.Knows {M : Type*} (m : M) (bound : Option M) : BindPoint → Prop
  | .seq | .compare _ => True
  | .vacant _ | .swap _ => bound ≠ some m
  | .confirm _ => bound ≠ none

section Binding

variable {M : Type*} [DecidableEq M] {m m₀ : M} {c : Cond M} {p p' : BindPoint}

/-- Only the compare-and-swap changes `c->m`, from `NULL` to the mutex of the wait. -/
theorem bindCond_changes (h : (bindCond m c p).1.m ≠ c.m) :
    c.m = none ∧ (∃ seq, p = .swap seq) ∧ (bindCond m c p).1.m = some m := by
  cases p with
  | swap seq =>
    cases hm : c.m with
    | none => exact ⟨rfl, ⟨seq, rfl⟩, by simp [bindCond, hm]⟩
    | some m' => simp [bindCond, hm] at h
  | seq | compare | vacant | confirm => exact absurd rfl h

/-- An access of the binding changes nothing unless it binds. -/
theorem bindCond_keeps_or_binds (p : BindPoint) :
    (bindCond m c p).1 = c ∨ (bindCond m c p).1.m = some m := by
  cases p with
  | swap seq => cases hm : c.m <;> simp [bindCond, hm]
  | seq | compare | vacant | confirm => exact Or.inl rfl

/-- What the thread knows is kept up by its own accesses. -/
theorem bindCond_knows (h : p.Knows m c.m) (hgoto : (bindCond m c p).2 = .goto p') :
    p'.Knows m (bindCond m c p).1.m := by
  cases p with
  | seq =>
    cases hgoto
    exact trivial
  | compare seq =>
    simp only [bindCond] at hgoto
    split at hgoto <;> cases hgoto
    assumption
  | vacant seq =>
    simp only [bindCond] at hgoto
    split at hgoto <;> cases hgoto
    exact h
  | swap seq =>
    cases hgoto
    cases hm : c.m <;> simp [bindCond, BindPoint.Knows, hm]
  | confirm seq =>
    simp only [bindCond] at hgoto
    split at hgoto <;> cases hgoto

/-- `EINVAL` is returned over a different mutex. -/
theorem bindCond_einval (h : p.Knows m c.m) (heinval : (bindCond m c p).2 = .einval) :
    ∃ m₀, (bindCond m c p).1.m = some m₀ ∧ m₀ ≠ m := by
  cases p with
  | seq | swap => cases heinval
  | compare seq =>
    simp only [bindCond] at heinval
    split at heinval <;> cases heinval
  | vacant seq =>
    simp only [bindCond] at heinval ⊢
    split at heinval
    · rename_i hsome
      obtain ⟨m₀, hm₀⟩ := Option.isSome_iff_exists.mp hsome
      refine ⟨m₀, hm₀, ?_⟩
      rintro rfl
      exact h hm₀
    · cases heinval
  | confirm seq =>
    simp only [bindCond] at heinval ⊢
    split at heinval
    · cases heinval
    · rename_i hne
      obtain ⟨m₀, hm₀⟩ := Option.ne_none_iff_exists'.mp h
      refine ⟨m₀, hm₀, ?_⟩
      rintro rfl
      exact hne hm₀

/-- The binding comes to its end. -/
theorem bindCond_left (hgoto : (bindCond m c p).2 = .goto p') : p'.left + 1 = p.left := by
  cases p with
  | seq | swap =>
    cases hgoto
    rfl
  | compare | vacant =>
    simp only [bindCond] at hgoto
    split at hgoto <;> cases hgoto
    rfl
  | confirm =>
    simp only [bindCond] at hgoto
    split at hgoto <;> cases hgoto

end Binding

/-- The thread is inside a wait on the condition variable. -/
def Point.waitsOn {M C : Type*} [DecidableEq C] (c : C) : Point M C → Bool
  | .bind c' _ _ _ | .unlock _ (.wait c' _ _) _ | .clock c' _ _ _ | .wait c' _ _ _ _
  | .reclock c' _ _ | .retake c' _ _ _ _ => c' = c
  | _ => false

/-- Where an access of the binding takes its thread. -/
def BindOutcome.point {M C : Type*} (c : C) (m : M) (abstime : Option Timespec) :
    BindOutcome → Point M C
  | .goto p => .bind c m abstime p
  | .einval => .outside (some (.waiting c m abstime, Htll.einval))
  | .bound seq => .unlock m (.wait c seq abstime) .load

/-- What a program point says about the bindings: a thread in the binding is right about `c->m`,
the code of a wait that has bound is not `EINVAL`, and a wait that returned `EINVAL` had another
mutex than the bound one. -/
def Point.Agrees {M C : Type*} (cond : C → Cond M) : Point M C → Prop
  | .bind c m _ p => p.Knows m (cond c).m
  | .retake _ _ _ code _ => code ≠ einval
  | .outside (some (.wait c m, code)) | .outside (some (.timedwait c m _, code)) =>
    code = einval → ∃ m₀, (cond c).m = some m₀ ∧ m₀ ≠ m
  | _ => True

/-- A wait that returned a code agrees if the code is not `EINVAL` or its mutex is not bound. -/
theorem Point.agrees_waiting {M C : Type*} {cond : C → Cond M} {c : C} {m : M}
    {abstime : Option Timespec} {code : ℤ} :
    (Point.outside (some (Call.waiting c m abstime, code))).Agrees cond ↔
      (code = einval → ∃ m₀, (cond c).m = some m₀ ∧ m₀ ≠ m) := by
  cases abstime <;> rfl

namespace State

variable {T M C : Type*} [DecidableEq T] [DecidableEq M] [DecidableEq C]

/-- Every thread is right about the bindings. -/
def Agreed (s : State T M C) : Prop := ∀ t, (s.point t).Agrees s.cond

variable [Fintype T] {s s' s'' : State T M C} {t : T} {c : C} {m : M}
  {abstime : Option Timespec} {input : Input T}

/-- An access of the binding changes nothing but `c->m` and the thread's place. -/
theorem bind_access {p : BindPoint} (hp : s.point t = .bind c m abstime p)
    (h : s.access t input = some s') :
    s'.point t = (bindCond m (s.cond c) p).2.point c m abstime ∧
      s'.cond = Function.update s.cond c (bindCond m (s.cond c) p).1 ∧
      s'.mutex = s.mutex ∧ s'.holds = s.holds ∧ s'.asleep = s.asleep := by
  simp only [access, hp] at h
  split at h <;> rename_i hres <;> cases h <;>
    exact ⟨by simp [hres, BindOutcome.point], rfl, rfl, rfl, rfl⟩

/-- It is always possible. -/
theorem bind_access_isSome {p : BindPoint} (hp : s.point t = .bind c m abstime p)
    (hasleep : s.asleep t = none) (input : Input T) :
    (s.step (.access t input)).isSome = true := by
  simp only [step, hasleep, if_true, access, hp]
  split <;> rfl

/-- Only the compare-and-swap of a wait changes `c->m`, from `NULL` to the mutex of the wait. -/
theorem cond_access (h : s.access t input = some s') (hchanges : (s'.cond c).m ≠ (s.cond c).m) :
    (s.cond c).m = none ∧ ∃ m abstime seq, s.point t = .bind c m abstime (.swap seq) ∧
      (s'.cond c).m = some m := by
  cases writes_access h with
  | nothing _ hcond | mutex _ _ _ _ hcond =>
    rw [hcond] at hchanges
    exact absurd rfl hchanges
  | bind c' m abstime p hp _ hcond =>
    rw [hcond] at hchanges ⊢
    by_cases hc : c = c'
    · subst hc
      rw [Function.update_self] at hchanges ⊢
      obtain ⟨hnone, ⟨seq, rfl⟩, hbound⟩ := bindCond_changes hchanges
      exact ⟨hnone, m, abstime, seq, hp, hbound⟩
    · rw [Function.update_of_ne hc] at hchanges
      exact absurd rfl hchanges
  | bump c' _ hcond =>
    rw [hcond] at hchanges
    refine absurd ?_ hchanges
    by_cases hc : c = c'
    · subst hc
      rw [Function.update_self]
    · rw [Function.update_of_ne hc]

/-- The thread that made an access is right about the bindings. -/
theorem agrees_access (hs : (s.point t).Agrees s.cond) (h : s.access t input = some s') :
    (s'.point t).Agrees s'.cond := by
  cases hp : s.point t with
  | outside last => simp [access, hp] at h
  | lock m p =>
    rw [lock_access hp h]
    cases (htllMutexLock (s.tls t).curSegmentId input.ticks (s.mutex m) p).2.next <;> exact trivial
  | trylock m =>
    obtain ⟨code, hpoint⟩ := trylock_access hp h
    exact hpoint ▸ trivial
  | unlock m after p =>
    rw [unlock_access hp h]
    cases (htllMutexUnlock (s.mutex m) p).2.next with
    | none => rcases after with _ | ⟨c, seq, _ | abstime⟩ <;> exact trivial
    | some p' => exact trivial
  | bind c m abstime p =>
    rw [hp] at hs
    obtain ⟨hpoint, hcond, -⟩ := bind_access hp h
    have hc : s'.cond c = (bindCond m (s.cond c) p).1 := by rw [hcond, Function.update_self]
    rw [hpoint]
    cases hres : (bindCond m (s.cond c) p).2 with
    | goto p' =>
      change p'.Knows m (s'.cond c).m
      exact hc ▸ bindCond_knows hs hres
    | einval =>
      refine Point.agrees_waiting.mpr fun _ => ?_
      rw [hc]
      exact bindCond_einval hs hres
    | bound seq => exact trivial
  | clock c m seq abstime =>
    simp only [access, hp, Option.some.injEq] at h
    subst h
    simp only [goto, Function.update_self, afterClock]
    split
    · exact (by decide : etimedout ≠ einval)
    · exact trivial
  | wait c m seq abstime rt =>
    rw [wait_access hp h]
    cases abstime with
    | none => exact (by decide : (0 : ℤ) ≠ einval)
    | some abstime => exact trivial
  | reclock c m abstime =>
    simp only [access, hp, Option.some.injEq] at h
    subst h
    simp only [goto, Function.update_self]
    split
    · exact (by decide : etimedout ≠ einval)
    · exact (by decide : (0 : ℤ) ≠ einval)
  | retake c m abstime code p =>
    rw [hp] at hs
    rw [retake_access hp h]
    cases (retakeMutex (s.mutex m) p).2.next with
    | none => exact Point.agrees_waiting.mpr fun hcode => absurd hcode hs
    | some p' => exact hs
  | signalAdd | broadcastAdd =>
    simp only [access, hp, Option.some.injEq] at h
    subst h
    simp [Point.Agrees]
  | broadcastLoad c =>
    simp only [access, hp] at h
    split at h <;> cases h <;> simp [Point.Agrees]
  | signalWake c | broadcastRequeue c m =>
    simp only [access, hp, Option.map_eq_some_iff] at h
    obtain ⟨s₁, -, rfl⟩ := h
    simp [Point.Agrees]

/-- Another thread stays right about the bindings: its mutex is its own, so it is not the one that
is bound meanwhile. -/
theorem agrees_other (hcoh : s.Coherent) (hexcl : ∀ m, ParkingLock.Exclusive (s.view m)) {u : T}
    (hu : u ≠ t) (hs : (s.point u).Agrees s.cond) (h : s.access t input = some s') :
    (s'.point u).Agrees s'.cond := by
  have hframe := frame_access hcoh h
  rw [hframe.point u hu]
  cases hp : s.point u with
  | bind c m abstime p =>
    rw [hp] at hs
    by_cases hsame : (s'.cond c).m = (s.cond c).m
    · simp only [Point.Agrees] at hs ⊢
      rw [hsame]
      exact hs
    · obtain ⟨hnone, m', abstime', seq', hp', hbound⟩ := cond_access h hsame
      have hne : m' ≠ m := by
        rintro rfl
        have hholds := hcoh.holding u m' (by rw [hp]; rfl)
        have hholds' := hcoh.holding t m' (by rw [hp']; rfl)
        exact hu ((hexcl m').unique u t hholds hholds')
      cases p <;> simp [Point.Agrees, BindPoint.Knows, hbound, hne]
  | outside last =>
    rw [hp] at hs
    have hkeep : ∀ c m, (∃ m₀, (s.cond c).m = some m₀ ∧ m₀ ≠ m) →
        ∃ m₀, (s'.cond c).m = some m₀ ∧ m₀ ≠ m := by
      rintro c m ⟨m₀, hbound, hne⟩
      exact ⟨m₀, hframe.bound c m₀ hbound, hne⟩
    rcases last with _ | ⟨call, code⟩
    · exact trivial
    · cases call with
      | wait c m | timedwait c m => exact fun hcode => hkeep c m (hs hcode)
      | lock | trylock | unlock | signal | broadcast => exact trivial
  | retake => rwa [hp] at hs
  | lock | trylock | unlock | clock | wait | reclock | signalAdd | signalWake | broadcastLoad
  | broadcastAdd | broadcastRequeue => exact trivial

/-- Every action leaves every thread right about the bindings. -/
theorem Agreed.step (hcoh : s.Coherent) (hexcl : ∀ m, ParkingLock.Exclusive (s.view m))
    (hs : s.Agreed) {a : Action T M C} (h : s.step a = some s') : s'.Agreed := by
  intro u
  rcases step_cases h with ⟨t, call, last, -, -, -, -, rfl⟩ | ⟨t, input, -, -, h⟩ |
    ⟨t, -, rfl⟩ | ⟨tls, rfl, -⟩
  · by_cases hu : u = t
    · subst hu
      simp only [goto, Function.update_self]
      cases call <;> exact trivial
    · simp only [goto, Function.update_of_ne hu]
      exact hs u
  · by_cases hu : u = t
    · subst hu
      exact agrees_access (hs u) h
    · exact agrees_other hcoh hexcl hu (hs u) h
  · exact hs u
  · exact hs u

/-- Along every run every thread is right about the bindings. -/
theorem agreed_of_path {guard : State T M C → Action T M C → Prop} (hs : s.Initial)
    (hpath : Path step guard s s') : s'.Agreed := by
  refine Path.invariant_of (fun s => s.Coherent ∧ ∀ m, ParkingLock.Exclusive (s.view m)) Agreed
    (fun _ _ _ _ h hknown =>
      ⟨hknown.1.step h, fun m => (hknown.2 m).moves (step_moves hknown.1 h m)⟩)
    (fun _ _ _ _ h hknown hagreed => hagreed.step hknown.1 hknown.2 h) hpath
    ⟨hs.coherent, hs.exclusive⟩ ?_
  obtain ⟨tls, -, rfl⟩ := hs
  exact fun t => trivial

/-- A condition variable that is bound stays bound to the same mutex. -/
theorem bound_of_path {guard : State T M C → Action T M C → Prop} (hcoh : s.Coherent)
    (hpath : Path step guard s s') (hbound : (s.cond c).m = some m) : (s'.cond c).m = some m := by
  refine Path.invariant_of Coherent (fun s => (s.cond c).m = some m)
    (fun _ _ _ _ h hcoh => hcoh.step h) ?_ hpath hcoh hbound
  intro s₁ a s₂ _ h hcoh hbound
  rcases step_cases h with ⟨t, call, last, -, -, -, -, rfl⟩ | ⟨t, input, -, -, h⟩ |
    ⟨t, -, rfl⟩ | ⟨tls, rfl, -⟩
  · exact hbound
  · exact (frame_access hcoh h).bound c m hbound
  · exact hbound
  · exact hbound

/-- A wait returns `EINVAL` over another mutex than its own. -/
theorem refused_of_path {guard : State T M C → Action T M C → Prop} (hs : s.Initial)
    (hpath : Path step guard s s')
    (hp : s'.point t = .outside (some (.waiting c m abstime, einval))) :
    ∃ m₀, (s'.cond c).m = some m₀ ∧ m₀ ≠ m := by
  have hagrees := agreed_of_path hs hpath t
  rw [hp] at hagrees
  exact Point.agrees_waiting.mp hagrees rfl

/-- A wait with the mutex that is bound, then or later, does not return `EINVAL`. -/
theorem not_refused_of_bound {guard : State T M C → Action T M C → Prop} (hs : s.Initial)
    (hpath : Path step guard s s') (hlater : Path step guard s' s'')
    (hbound : (s''.cond c).m = some m) :
    s'.point t ≠ .outside (some (.waiting c m abstime, einval)) := by
  intro hp
  obtain ⟨m₀, hm₀, hne⟩ := refused_of_path hs hpath hp
  rw [bound_of_path (coherent_of_path hs hpath) hlater hm₀, Option.some.injEq] at hbound
  exact hne hbound

/-! ## A wait with another mutex -/

/-- The action is an access of the thread. -/
def accesses (t : T) (_ : State T M C) : Action T M C → Bool
  | .access u _ => decide (u = t)
  | _ => false

/-- A wait of the thread, so far with the given number of accesses, has bound nothing: it is still
in the binding, with at most five accesses altogether, or has returned `EINVAL`. -/
structure Unbound (t : T) (c : C) (m : M) (abstime : Option Timespec) (n : ℕ)
    (s : State T M C) : Prop where
  coherent : s.Coherent
  awake : s.asleep t = none
  place : (∃ p, s.point t = .bind c m abstime p ∧ p.left + n = 5) ∨
    s.point t = .outside (some (.waiting c m abstime, einval))

/-- An action other than a new call of the thread lets the wait go on without a binding, unless
it binds. -/
theorem Unbound.step {n : ℕ} (hs : Unbound t c m abstime n s) {a : Action T M C}
    (hsame : ∀ call, a ≠ .call t call) (h : s.step a = some s')
    (hother : (s'.cond c).m ≠ some m) :
    Unbound t c m abstime (n + (accesses t s a).toNat) s' := by
  have hcoh := hs.coherent.step h
  rcases step_cases h with ⟨u, call, last, rfl, -, -, -, rfl⟩ | ⟨u, input, rfl, -, h⟩ |
    ⟨u, rfl, rfl⟩ | ⟨tls, rfl, u, result, -, hcall⟩
  · have hu : t ≠ u := by
      rintro rfl
      exact hsame call rfl
    refine ⟨hcoh, hs.awake, ?_⟩
    simpa [hu, accesses] using hs.place
  · by_cases hu : u = t
    · subst hu
      rcases hs.place with ⟨p, hp, hleft⟩ | hp
      · obtain ⟨hpoint, hcond, -, -, hasleep⟩ := bind_access hp h
        refine ⟨hcoh, hasleep ▸ hs.awake, ?_⟩
        rw [hpoint]
        cases hres : (bindCond m (s.cond c) p).2 with
        | goto p' =>
          have := bindCond_left hres
          refine Or.inl ⟨p', rfl, ?_⟩
          simp only [accesses, decide_true, Bool.toNat_true]
          omega
        | einval => exact Or.inr rfl
        | bound seq =>
          rw [hcond, Function.update_self] at hother
          exact absurd (bindCond_bound hres) hother
      · simp [access, hp] at h
    · have hframe := frame_access hs.coherent h
      refine ⟨hcoh, hframe.awake (Ne.symm hu) hs.awake, ?_⟩
      rw [hframe.point t (Ne.symm hu)]
      simpa [accesses, hu] using hs.place
  · refine ⟨hcoh, ?_, hs.place⟩
    by_cases hu : t = u
    · simp [hu]
    · simpa [hu] using hs.awake
  · have hcount : accesses t s a = false := by
      rcases hcall with ⟨_, _, rfl, -⟩ | ⟨_, _, _, rfl, -⟩ <;> rfl
    rw [hcount]
    exact ⟨hcoh, hs.awake, hs.place⟩

/-- A wait on the condition variable fails cleanly: its caller holds its mutex, it has returned
`EINVAL` or will within five accesses of its own, all of them possible, and none of its accesses
changes a condition variable or a lock word, releases a mutex or parks. -/
structure FailsCleanly (t : T) (c : C) (m : M) (abstime : Option Timespec) (s₁ : State T M C)
    (actions : List (Action T M C)) (s₂ : State T M C) : Prop where
  held : s₂.holds t m = true
  returns : s₂.point t = .outside (some (.waiting c m abstime, einval)) ∨
    (∃ p, s₂.point t = .bind c m abstime p) ∧
      occurrences State.step (accesses t) s₁ actions < 5 ∧
      ∀ input, (s₂.step (.access t input)).isSome = true
  untouched : ∀ before input s s', (before ++ [.access t input]) <+: actions →
    execute State.step anyStep s₁ before = some s → s.step (.access t input) = some s' →
    s'.cond = s.cond ∧ s'.mutex = s.mutex ∧ s'.holds = s.holds ∧ s'.asleep = s.asleep

omit [DecidableEq T] [DecidableEq M] [DecidableEq C] [Fintype T] in
/-- The point at which a wait begins. -/
theorem entry_waiting (c : C) (m : M) (abstime : Option Timespec) :
    (Call.waiting c m abstime).entry = .bind c m abstime .seq := by
  cases abstime <;> rfl

/-- A wait with another mutex than the one that the condition variable is bound to in the end fails
cleanly. -/
theorem failsCleanly_of_bound {guard : State T M C → Action T M C → Prop} {s₁ s₂ : State T M C}
    (hs : s.Initial) (hpath : Path State.step guard s s')
    (hcall : s'.step (.call t (Call.waiting c m abstime)) = some s₁)
    {actions : List (Action T M C)} (hsame : ∀ call, Action.call t call ∉ actions)
    (hrun : execute State.step anyStep s₁ actions = some s₂) {m₀ : M}
    (hbound : (s₂.cond c).m = some m₀) (hne : m₀ ≠ m) :
    FailsCleanly t c m abstime s₁ actions s₂ := by
  have hcoh := coherent_of_path hs hpath
  have hnot : ∀ before s, before <+: actions → execute State.step anyStep s₁ before = some s →
      s.Coherent → (s.cond c).m ≠ some m := by
    intro before s hpart hs hcoh hm
    have hlater := bound_of_path hcoh (execute_rest hpart hs hrun) hm
    rw [hbound, Option.some.injEq] at hlater
    exact hne hlater
  -- by induction on the run, the wait has bound nothing
  have hunbound : ∀ before s, before <+: actions → execute State.step anyStep s₁ before = some s →
      Unbound t c m abstime (occurrences State.step (accesses t) s₁ before) s := by
    intro before s hpart hs
    refine occurrences_invariant State.step (accesses t) (Unbound t c m abstime) ?_ ?_ hpart hs
    · rcases step_cases hcall with ⟨_, _, last, heq, hp, hasleep, -, rfl⟩ | ⟨_, _, heq, -⟩ |
        ⟨_, heq, -⟩ | ⟨_, -, _, _, -, ⟨_, _, heq, -⟩ | ⟨_, _, _, heq, -⟩⟩ <;> cases heq
      refine ⟨hcoh.step hcall, hasleep, Or.inl ⟨.seq, ?_, rfl⟩⟩
      simp [entry_waiting]
    · intro before a s s' hpart hs hstep hunbound
      have hmem := (part_snoc hpart).2
      refine hunbound.step ?_ hstep ?_
      · rintro call rfl
        exact hsame call hmem
      · exact hnot _ s' hpart (execute_snoc.mpr ⟨s, hs, hstep⟩) (hunbound.coherent.step hstep)
  have hend := hunbound actions s₂ (List.prefix_refl actions) hrun
  have hwhole : Path State.step anyStep s s₂ :=
    ((hpath.mono fun _ _ _ => trivial).extend _ trivial hcall).trans
      (execute_path State.step anyStep actions s₁ s₂ hrun)
  refine ⟨?_, ?_, ?_⟩
  · rcases hend.place with ⟨p, hp, -⟩ | hp
    · exact hend.coherent.holding t m (by rw [hp]; rfl)
    · refine keepsPromise_of_path hs hwhole t _ _ hp m ?_
      cases abstime <;> rfl
  · rcases hend.place with ⟨p, hp, hleft⟩ | hp
    · refine Or.inr ⟨⟨p, hp⟩, ?_, bind_access_isSome hp hend.awake⟩
      cases p <;> simp only [BindPoint.left] at hleft <;> omega
    · exact Or.inl hp
  · intro before input s s' hpart hs hstep
    have hbefore := hunbound before s (part_snoc hpart).1 hs
    obtain ⟨-, haccess⟩ := Option.ite_none_right_eq_some.mp hstep
    rcases hbefore.place with ⟨p, hp, -⟩ | hp
    · obtain ⟨-, hcond, hrest⟩ := bind_access hp haccess
      have hafter := hnot _ s' hpart (execute_snoc.mpr ⟨s, hs, hstep⟩)
        (hbefore.coherent.step hstep)
      rw [hcond, Function.update_self] at hafter
      rw [hcond, (bindCond_keeps_or_binds p).resolve_right hafter, Function.update_eq_self]
      exact ⟨rfl, hrest⟩
    · simp [access, hp] at haccess

/-- Two threads take a mutex each. -/
def ownMutexActions : List (Action Bool Bool Unit) :=
  .call false (.lock false) :: Action.turns false 2 ++ .call true (.lock true) ::
    Action.turns true 2

/-- A wait comes as far as its compare-and-swap, then another one binds, and the first goes on. -/
def raceActions : List (Action Bool Bool Unit) :=
  Action.turns false 3 ++ .call true (.wait () true) :: Action.turns true 4 ++ Action.turns false 2

/-- The first waits on a condition variable agree on one mutex and fail cleanly. What is bound
stays bound; `c->m` only changes from `NULL`, to the mutex of a wait whose caller alone holds it; no
wait with the bound mutex returns `EINVAL`, be it before or after the binding; and every wait with
another mutex fails cleanly. -/
theorem first_waits_agree {guard : State T M C → Action T M C → Prop} {s₁ s₂ : State T M C}
    (hs : s.Initial) (hfirst : Path State.step guard s s₁) (hlater : Path State.step guard s₁ s₂)
    (c : C) :
    (∀ m, (s₁.cond c).m = some m → (s₂.cond c).m = some m) ∧
    (∀ a s', s₁.step a = some s' → (s'.cond c).m ≠ (s₁.cond c).m → (s₁.cond c).m = none ∧
      ∃ t input m abstime seq, a = .access t input ∧
        s₁.point t = .bind c m abstime (.swap seq) ∧ SoleHolder s₁ t m ∧ (s'.cond c).m = some m) ∧
    (∀ t m abstime, (s₂.cond c).m = some m →
      s₁.point t ≠ .outside (some (.waiting c m abstime, einval)) ∧
      s₂.point t ≠ .outside (some (.waiting c m abstime, einval))) ∧
    ∀ t m abstime s' s'' actions, s₁.step (.call t (Call.waiting c m abstime)) = some s' →
      (∀ call, Action.call t call ∉ actions) →
      execute State.step anyStep s' actions = some s'' →
      ∀ m₀, (s''.cond c).m = some m₀ → m₀ ≠ m → FailsCleanly t c m abstime s' actions s'' := by
  have hcoh := coherent_of_path hs hfirst
  refine ⟨fun m => bound_of_path hcoh hlater, ?_, ?_, ?_⟩
  · intro a s' h hchanges
    rcases step_cases h with ⟨t, call, last, -, -, -, -, rfl⟩ | ⟨t, input, rfl, -, haccess⟩ |
      ⟨t, -, rfl⟩ | ⟨tls, rfl, -⟩
    · exact absurd rfl hchanges
    · obtain ⟨hnone, m, abstime, seq, hp, hbound⟩ := cond_access haccess hchanges
      have hholds := hcoh.holding t m (by rw [hp]; rfl)
      exact ⟨hnone, t, input, m, abstime, seq, rfl, hp,
        soleHolder_of_holds (exclusive_of_path hs hfirst m) hholds, hbound⟩
    · exact absurd rfl hchanges
    · exact absurd rfl hchanges
  · intro t m abstime hbound
    exact ⟨not_refused_of_bound hs hfirst hlater hbound,
      not_refused_of_bound hs (hfirst.trans hlater) .refl hbound⟩
  · intro t m abstime s' s'' actions hcall hsame hrun m₀ hbound hne
    exact failsCleanly_of_bound hs hfirst hcall hsame hrun hbound hne

/-- Two threads wait with their own mutexes: one has found `c->m` empty when the other one binds. -/
theorem first_waits_agree_race : ∃ s₁ s' s'' : State Bool Bool Unit,
    s₁.step (.call false (.wait () false)) = some s' ∧
    execute State.step anyStep s' raceActions = some s'' ∧ (s''.cond ()).m = some true ∧
    FailsCleanly false () false none s' raceActions s'' := by
  have hruns : ((execute State.step anyStep (initial fun _ => htllThreadStart Tls.zero)
      ownMutexActions).any fun s₁ : State Bool Bool Unit =>
      ((s₁.step (.call false (.wait () false))).any fun s' =>
        (execute State.step anyStep s' raceActions).any fun s'' =>
          (s''.cond ()).m = some true) = true) = true := by
    decide +kernel
  simp only [Option.any_eq_true, decide_eq_true_eq] at hruns
  obtain ⟨s₁, hsetup, s', hcall, s'', hrun, hbound⟩ := hruns
  have hpath := execute_path State.step anyStep ownMutexActions _ s₁ hsetup
  have hagree := first_waits_agree initial_started hpath .refl ()
  refine ⟨s₁, s', s'', hcall, hrun, hbound, ?_⟩
  refine hagree.2.2.2 false false none s' s'' raceActions hcall ?_ hrun true hbound (by decide)
  simp [raceActions, Action.turns]

/-! ## A wait after all others have left -/

/-- The condition variable is bound to no other mutex than the given one, and nobody is about to
bind it to another one. -/
structure OnlyWith (c : C) (m : M) (s : State T M C) : Prop where
  coherent : s.Coherent
  bound : ∀ m', (s.cond c).m = some m' → m' = m
  binding : ∀ u m' abstime p, s.point u = .bind c m' abstime p → m' = m

omit [DecidableEq T] [DecidableEq M] [DecidableEq C] [Fintype T] in
/-- An access leads into the binding from within it only. -/
theorem Flow.of_bind {q : Point M C} (hflow : Flow s t q) {p : BindPoint}
    (hq : q = .bind c m abstime p) : ∃ p', s.point t = .bind c m abstime p' := by
  cases hflow with
  | reading hp | binding hp =>
    cases hq
    exact ⟨_, hp⟩
  | @unlocked m' after p' hp => rcases after with _ | ⟨c', seq, _ | abstime'⟩ <;> cases hq
  | @clocked c' m' seq abstime' hp rt =>
    simp only [afterClock] at hq
    split at hq <;> cases hq
  | @waited c' m' seq abstime' rt hp => cases abstime' <;> cases hq
  | _ => cases hq

/-- This is kept by every action that begins no wait with another mutex. -/
theorem OnlyWith.step (hs : OnlyWith c m s) {a : Action T M C}
    (hsame : ∀ u m' abstime, a = .call u (Call.waiting c m' abstime) → m' = m)
    (h : s.step a = some s') : OnlyWith c m s' := by
  have hcoh := hs.coherent.step h
  rcases step_cases h with ⟨t, call, last, rfl, -, -, -, rfl⟩ | ⟨t, input, rfl, -, haccess⟩ |
    ⟨t, rfl, rfl⟩ | ⟨tls, rfl, -⟩
  · refine ⟨hcoh, hs.bound, fun u m' abstime p hp => ?_⟩
    by_cases hu : u = t
    · subst hu
      simp only [goto, Function.update_self] at hp
      refine hsame u m' abstime ?_
      cases call <;> cases hp <;> rfl
    · refine hs.binding u m' abstime p ?_
      simpa [hu] using hp
  · refine ⟨hcoh, fun m' hm' => ?_, fun u m' abstime p hp => ?_⟩
    · by_cases hchanges : (s'.cond c).m = (s.cond c).m
      · exact hs.bound m' (hchanges.symm.trans hm')
      · obtain ⟨-, m₁, abstime, seq, hp, hm₁⟩ := cond_access haccess hchanges
        rw [hm₁, Option.some.injEq] at hm'
        exact hm' ▸ hs.binding t m₁ abstime _ hp
    · by_cases hu : u = t
      · subst hu
        obtain ⟨p', hp'⟩ := (flow_access haccess).of_bind hp
        exact hs.binding u m' abstime p' hp'
      · rw [(frame_access hs.coherent haccess).point u hu] at hp
        exact hs.binding u m' abstime p hp
  · exact ⟨hcoh, hs.bound, hs.binding⟩
  · exact ⟨hcoh, hs.bound, hs.binding⟩

/-- The binding outlives its waiters. When no thread is inside a wait on the condition variable, a
wait that begins then does not return `EINVAL` if its mutex is the bound one, nor if none is bound
and no wait with another mutex begins in the meantime; if another mutex is bound, that one stays
bound and the wait fails cleanly. It returns `EINVAL` only over another bound mutex. -/
theorem einval_iff_bound_to_another {guard : State T M C → Action T M C → Prop}
    {s₀ s₁ s₂ : State T M C} (hs : s.Initial) (hpath : Path State.step guard s s₀)
    (hnobody : ∀ u, (s₀.point u).waitsOn c = false)
    (hcall : s₀.step (.call t (Call.waiting c m abstime)) = some s₁)
    {actions : List (Action T M C)} (hsame : ∀ call, Action.call t call ∉ actions)
    (hrun : execute State.step anyStep s₁ actions = some s₂) :
    ((s₀.cond c).m = some m → s₂.point t ≠ .outside (some (.waiting c m abstime, einval))) ∧
    ((s₀.cond c).m = none →
      (∀ u m' abstime', Action.call u (Call.waiting c m' abstime') ∈ actions → m' = m) →
      s₂.point t ≠ .outside (some (.waiting c m abstime, einval))) ∧
    (∀ m₀, (s₀.cond c).m = some m₀ → m₀ ≠ m →
      (s₂.cond c).m = some m₀ ∧ FailsCleanly t c m abstime s₁ actions s₂) ∧
    (s₂.point t = .outside (some (.waiting c m abstime, einval)) →
      ∃ m₀, (s₂.cond c).m = some m₀ ∧ m₀ ≠ m) := by
  have hcoh := coherent_of_path hs hpath
  have hwhole : Path State.step anyStep s₀ s₂ :=
    (Path.single _ trivial hcall).trans (execute_path State.step anyStep actions s₁ s₂ hrun)
  have hend : Path State.step anyStep s s₂ := (hpath.mono fun _ _ _ => trivial).trans hwhole
  have hrefused : s₂.point t = .outside (some (.waiting c m abstime, einval)) →
      ∃ m₀, (s₂.cond c).m = some m₀ ∧ m₀ ≠ m := refused_of_path hs hend
  refine ⟨fun hbound => ?_, fun hnone hothers hp => ?_, fun m₀ hbound hne => ?_, hrefused⟩
  · exact not_refused_of_bound hs hend .refl (bound_of_path hcoh hwhole hbound)
  · obtain ⟨m₀, hm₀, hne⟩ := hrefused hp
    have honly₀ : OnlyWith c m s₀ := by
      refine ⟨hcoh, fun m' hm' => ?_, fun u m' abstime' p hp => ?_⟩
      · rw [hnone] at hm'
        cases hm'
      · have hout := hnobody u
        simp [hp, Point.waitsOn] at hout
    have honly₁ : OnlyWith c m s₁ := by
      refine honly₀.step (fun u m' abstime' heq => ?_) hcall
      cases abstime <;> cases abstime' <;> cases heq <;> rfl
    have honly₂ : OnlyWith c m s₂ := by
      refine execute_invariant (OnlyWith c m) (fun a ha s s' honly hstep => ?_) honly₁ hrun
      refine honly.step (fun u m' abstime' heq => ?_) hstep
      exact hothers u m' abstime' (heq ▸ ha)
    exact hne (honly₂.bound m₀ hm₀)
  · have hlater := bound_of_path hcoh hwhole hbound
    exact ⟨hlater, failsCleanly_of_bound hs hpath hcall hsame hrun hlater hne⟩

/-- A thread waits on the condition variable with one mutex until the sleep ends by itself, and
then takes the other mutex too. -/
def waitedActions : List (Action Bool Bool Unit) :=
  .call true (.lock true) :: Action.turns true 2 ++ .call true (.wait () true) ::
    Action.turns true 8 ++ .unpark true :: Action.turns true 1 ++ .call true (.lock false) ::
    Action.turns true 2

/-- A second wait with the same mutex does not return `EINVAL`. -/
theorem einval_iff_bound_to_another_again : ∃ s₀ s₁ s₂ : State Bool Bool Unit,
    s₀.step (.call true (.wait () true)) = some s₁ ∧
    execute State.step anyStep s₁ (Action.turns true 2) = some s₂ ∧
    s₂.point true ≠ .outside (some (.wait () true, einval)) := by
  have hruns : ((execute State.step anyStep (initial fun _ => htllThreadStart Tls.zero)
      waitedActions).any fun s₀ : State Bool Bool Unit =>
      (∀ u, (s₀.point u).waitsOn () = false) ∧ (s₀.cond ()).m = some true ∧
      ((s₀.step (.call true (.wait () true))).any fun s₁ =>
        (execute State.step anyStep s₁ (Action.turns true 2)).isSome) = true) = true := by
    decide +kernel
  simp only [Option.any_eq_true, decide_eq_true_eq, Option.isSome_iff_exists] at hruns
  obtain ⟨s₀, hsetup, hnobody, hbound, s₁, hcall, s₂, hrun⟩ := hruns
  have hpath := execute_path State.step anyStep waitedActions _ s₀ hsetup
  have hwait : s₀.step (.call true (Call.waiting () true none)) = some s₁ := hcall
  have hsame : ∀ call : Call Bool Unit, Action.call true call ∉ Action.turns true 2 := by
    simp [Action.turns]
  have hagain := einval_iff_bound_to_another initial_started hpath hnobody
    hwait hsame hrun
  exact ⟨s₀, s₁, s₂, hcall, hrun, hagain.1 hbound⟩

/-- A thread that waited with one mutex is alone when it waits with another one and gets
`EINVAL`. -/
theorem binding_outlives_waiters : ∃ s s₀ s₁ s₂ : State Bool Bool Unit, s.Initial ∧
    Path State.step anyStep s s₀ ∧ (∀ u, (s₀.point u).waitsOn () = false) ∧
    s₀.holds true false = true ∧ s₀.step (.call true (.wait () false)) = some s₁ ∧
    execute State.step anyStep s₁ (Action.turns true 3) = some s₂ ∧
    s₂.point true = .outside (some (.wait () false, einval)) := by
  have hruns : ((execute State.step anyStep (initial fun _ => htllThreadStart Tls.zero)
      waitedActions).any fun s₀ : State Bool Bool Unit =>
      (∀ u, (s₀.point u).waitsOn () = false) ∧ s₀.holds true false = true ∧
      ((s₀.step (.call true (.wait () false))).any fun s₁ =>
        (execute State.step anyStep s₁ (Action.turns true 3)).any fun s₂ =>
          s₂.point true = .outside (some (.wait () false, einval))) = true) = true := by
    decide +kernel
  simp only [Option.any_eq_true, decide_eq_true_eq] at hruns
  obtain ⟨s₀, hsetup, hnobody, hholds, s₁, hcall, s₂, hrun, hpoint⟩ := hruns
  have hpath := execute_path State.step anyStep waitedActions _ s₀ hsetup
  exact ⟨_, s₀, s₁, s₂, initial_started, hpath, hnobody, hholds, hcall,
    hrun, hpoint⟩

end State

end Htll
