import Htll.MachineInvariant
import Htll.Protocol.AtomicMutex

/-!
# The lock word is an atomic mutex

Along every run each mutex keeps mutual exclusion, because it is a parking lock. What is left
is what the calls return: a call that reports success returns at the access that took the
mutex, the waits return with it in every case, and `EBUSY` is only returned over the set byte
of a holder.
-/

namespace Htll

open ParkingLock Transition

/-- The mutex that a call leaves its caller with when it returns the given code. -/
def Call.acquired {M C : Type*} (code : ℤ) : Call M C → Option M
  | .lock m | .wait _ m | .timedwait _ m _ => some m
  | .trylock m => if code = 0 then some m else none
  | .unlock _ | .signal _ | .broadcast _ => none

namespace State

variable {T M C : Type*} [DecidableEq T] [DecidableEq M] [DecidableEq C] [Fintype T]
  {s s' : State T M C} {t : T} {input : Input T}

/-- The thread holds the mutex and nobody else does. -/
def SoleHolder (s : State T M C) (t : T) (m : M) : Prop := ∀ u, s.holds u m = true ↔ u = t

/-- A thread whose last call promises a mutex still holds it. -/
def KeepsPromise (s : State T M C) (t : T) : Prop :=
  ∀ call code, s.point t = .outside (some (call, code)) →
    ∀ m ∈ call.acquired code, s.holds t m = true

section Commit

variable {P : Type*} {m : M} {pick : Option T} {embed : P → Point M C}
  {taken failed ended : Point M C} {result : Mutex × Outcome P}

/-- A call that only ends with the mutex returns holding it. -/
theorem commit_acquires (h : s.commit t m pick embed taken failed ended result = some s')
    (hacquires : result.2.acquires = true) :
    (∃ p, s'.point t = embed p) ∨ s'.point t = taken ∧ s'.holds t m = true := by
  obtain ⟨x, outcome⟩ := result
  cases outcome with
  | goto p | mark p | sleep p =>
    cases h
    exact Or.inl ⟨p, by simp⟩
  | take =>
    cases h
    exact Or.inr (by simp)
  | _ => cases hacquires

/-- Such a call keeps its promise. -/
theorem keepsPromise_commit (h : s.commit t m pick embed taken failed ended result = some s')
    (hacquires : result.2.acquires = true) (hembed : ∀ p last, embed p ≠ .outside last)
    {call : Call M C} {code : ℤ} (htaken : taken = .outside (some (call, code)))
    (hcall : ∀ m' ∈ call.acquired code, m' = m) : KeepsPromise s' t := by
  intro call' code' hpoint m' hm'
  rcases commit_acquires h hacquires with ⟨p, hp⟩ | ⟨hp, hholds⟩
  · exact absurd (hp.symm.trans hpoint) (hembed p _)
  · rw [hp, htaken] at hpoint
    cases hpoint
    rw [hcall m' hm']
    exact hholds

end Commit

omit [DecidableEq T] [DecidableEq M] [DecidableEq C] [Fintype T] in
/-- A thread inside a call, or back from a call that takes nothing, has nothing to keep. -/
theorem keepsPromise_of_none (h : ∀ call code, s.point t = .outside (some (call, code)) →
    call.acquired code = none) : KeepsPromise s t := by
  intro call code hpoint m hm
  rw [h call code hpoint] at hm
  cases hm

/-- Every access lets its thread keep its promise. -/
theorem keepsPromise_access (hcoh : s.Coherent) (h : s.access t input = some s') :
    KeepsPromise s' t := by
  cases hp : s.point t with
  | outside last => simp [access, hp] at h
  | lock m p =>
    simp only [access, hp] at h
    exact keepsPromise_commit h (htllMutexLock_acquires _ _ _ p) (by simp) rfl
      (fun m' hm' => (Option.some.inj hm').symm)
  | trylock m =>
    simp only [access, hp] at h
    rcases htllMutexTrylock_ends (s.mutex m) with htake | ⟨hfail, -⟩
    · exact keepsPromise_commit h (by rw [htake]; rfl) (by simp) rfl
        (fun m' hm' => (Option.some.inj hm').symm)
    · refine keepsPromise_of_none fun call code hpoint => ?_
      simp only [commit, hfail, Option.some.injEq] at h
      subst h
      simp only [goto, Function.update_self, Point.outside.injEq, Option.some.injEq,
        Prod.mk.injEq] at hpoint
      obtain ⟨rfl, rfl⟩ := hpoint
      rfl
  | retake c m abstime code p =>
    simp only [access, hp] at h
    refine keepsPromise_commit h (retakeMutex_acquires _ p) (by simp) rfl ?_
    intro m' hm'
    cases abstime <;> exact (Option.some.inj hm').symm
  | unlock m after p =>
    simp only [access, hp] at h
    refine keepsPromise_of_none fun call code hpoint => ?_
    rcases commit_point h with hend | ⟨p', hp', -⟩
    · have hafter : s'.point t = after.point m := by rcases hend with h | h | h <;> exact h
      rw [hafter] at hpoint
      rcases after with _ | ⟨c, seq, _ | abstime⟩ <;> cases hpoint
      rfl
    · rw [hp'] at hpoint
      cases hpoint
  | bind c m abstime p =>
    have hholds := hcoh.holding t m (by rw [hp]; rfl)
    simp only [access, hp] at h
    split at h <;> cases h
    · exact keepsPromise_of_none fun call code hpoint => by simp at hpoint
    · intro call code hpoint m' hm'
      simp only [goto, Function.update_self, Point.outside.injEq, Option.some.injEq,
        Prod.mk.injEq] at hpoint
      obtain ⟨rfl, rfl⟩ := hpoint
      have hsame : m = m' := by cases abstime <;> exact Option.some.inj hm'
      exact hsame ▸ hholds
    · exact keepsPromise_of_none fun call code hpoint => by simp at hpoint
  | clock c m seq abstime =>
    simp only [access, hp, Option.some.injEq] at h
    subst h
    refine keepsPromise_of_none fun call code hpoint => ?_
    simp only [goto, Function.update_self, afterClock] at hpoint
    split at hpoint <;> cases hpoint
  | wait c m seq abstime rt =>
    refine keepsPromise_of_none fun call code hpoint => ?_
    rw [wait_access hp h] at hpoint
    cases abstime <;> cases hpoint
  | reclock | signalAdd | broadcastAdd =>
    simp only [access, hp, Option.some.injEq] at h
    subst h
    exact keepsPromise_of_none fun call code hpoint => by simp at hpoint
  | broadcastLoad c =>
    simp only [access, hp] at h
    split at h <;> cases h <;> refine keepsPromise_of_none fun call code hpoint => ?_
    · simp only [goto, Function.update_self, Point.outside.injEq, Option.some.injEq,
        Prod.mk.injEq] at hpoint
      exact hpoint.1 ▸ rfl
    · simp at hpoint
  | signalWake c | broadcastRequeue c =>
    simp only [access, hp, Option.map_eq_some_iff] at h
    obtain ⟨s₁, -, rfl⟩ := h
    refine keepsPromise_of_none fun call code hpoint => ?_
    simp only [goto, Function.update_self, Point.outside.injEq, Option.some.injEq,
      Prod.mk.injEq] at hpoint
    exact hpoint.1 ▸ rfl

/-- Every action lets all threads keep their promises. -/
theorem keepsPromise_step (hcoh : s.Coherent) (hkeep : ∀ u, KeepsPromise s u)
    {a : Action T M C} (h : s.step a = some s') (u : T) : KeepsPromise s' u := by
  rcases step_cases h with ⟨t, call, last, -, -, -, -, rfl⟩ | ⟨t, input, -, -, h⟩ |
    ⟨t, -, rfl⟩ | ⟨tls, rfl, -⟩
  · by_cases hu : u = t
    · subst hu
      refine keepsPromise_of_none fun call' code hpoint => ?_
      simp only [goto, Function.update_self] at hpoint
      cases call <;> cases hpoint
    · intro call' code hpoint m hm
      exact hkeep u call' code (by simpa [hu] using hpoint) m hm
  · by_cases hu : u = t
    · exact hu ▸ keepsPromise_access hcoh h
    · have hframe := frame_access hcoh h
      intro call code hpoint m hm
      rw [hframe.holds u hu]
      exact hkeep u call code (by rwa [hframe.point u hu] at hpoint) m hm
  · exact hkeep u
  · exact hkeep u

/-- `EBUSY` is returned over the locked byte of a holder. -/
theorem trylock_ebusy {m : M} (hcoh : s.Coherent) (hexcl : Exclusive (s.view m))
    (h : s.access t input = some s') (hp : s.point t = .trylock m)
    (hreturn : s'.point t = .outside (some (.trylock m, ebusy))) :
    ∃ u, s.holds u m = true := by
  simp only [access, hp] at h
  rcases htllMutexTrylock_ends (s.mutex m) with htake | ⟨-, hbyte⟩
  · simp only [commit, htake, Option.some.injEq] at h
    subst h
    simp [ebusy] at hreturn
  · refine hexcl.held_of_locked ?_
    rw [hcoh.word m, lockedByte_wordOf] at hbyte
    by_contra hfree
    simp [hfree] at hbyte

omit [Fintype T] [DecidableEq C] [DecidableEq T] in
/-- A process begins with every lock free. -/
theorem Initial.exclusive (hs : s.Initial) (m : M) : Exclusive (s.view m) := by
  obtain ⟨tls, -, rfl⟩ := hs
  exact
    { locked_of_holds := fun t ht => by cases ht
      unique := fun t u ht => by cases ht
      held_of_locked := fun h => absurd h (by decide : ¬isLocked 0 = true) }

/-- Along every run each lock keeps mutual exclusion. -/
theorem exclusive_of_path {guard : State T M C → Action T M C → Prop} (hs : s.Initial)
    (hpath : Path step guard s s') (m : M) : Exclusive (s'.view m) :=
  (hs.exclusive m).run (view_of_path hs hpath m)

/-- Along every run every thread keeps the promise of its last call. -/
theorem keepsPromise_of_path {guard : State T M C → Action T M C → Prop} (hs : s.Initial)
    (hpath : Path step guard s s') (t : T) : KeepsPromise s' t := by
  refine Path.invariant_of Coherent (fun s => ∀ t, KeepsPromise s t)
    (fun _ _ _ _ h hcoh => hcoh.step h)
    (fun _ _ _ _ h hcoh hkeep => keepsPromise_step hcoh hkeep h) hpath hs.coherent ?_ t
  obtain ⟨tls, -, rfl⟩ := hs
  exact fun u => keepsPromise_of_none fun _ _ hpoint => by cases hpoint

omit [Fintype T] [DecidableEq C] [DecidableEq T] in
/-- With mutual exclusion a holder is the only one. -/
theorem soleHolder_of_holds {m : M} (hexcl : Exclusive (s.view m)) (h : s.holds t m = true) :
    SoleHolder s t m :=
  fun u => ⟨fun hu => hexcl.unique u t hu h, fun hu => hu ▸ h⟩

/-- The lock word refines the atomic mutex: in every reachable state the word has one of its
four values, its locked byte is 1 exactly while one thread is the only holder and otherwise
nobody is, and every call that reports the mutex, a wait in each of its returns, leaves its
caller as that holder; every action acquires, releases or keeps the mutex, and `EBUSY` is
returned over a holder. -/
theorem htll_mutex_refines_atomic_mutex {guard : State T M C → Action T M C → Prop}
    (hs : s.Initial) (hpath : Path step guard s s') (m : M) :
    (s'.mutex m).u ∈ WordValues ∧
    (lockedByte (s'.mutex m).u = 1 ↔ ∃ t, SoleHolder s' t m) ∧
    (lockedByte (s'.mutex m).u ≠ 1 → ∀ t, s'.holds t m = false) ∧
    (∀ t call code, s'.point t = .outside (some (call, code)) → m ∈ call.acquired code →
      SoleHolder s' t m) ∧
    ∀ a s'', s'.step a = some s'' →
      (∃ owner owner', AtomicMutex.Owns (s'.view m) owner ∧ AtomicMutex.Owns (s''.view m) owner' ∧
        Relation.ReflGen AtomicMutex.Step owner owner') ∧
      ∀ t, s'.point t = .trylock m → s''.point t = .outside (some (.trylock m, ebusy)) →
        ∃ u, s'.holds u m = true := by
  have hcoh := coherent_of_path hs hpath
  have hexcl := exclusive_of_path hs hpath m
  have hlocked : lockedByte (s'.mutex m).u = 1 ↔ (s'.view m).locked = true := by
    simp [view, isLocked]
  refine ⟨?_, ⟨fun h => ?_, ?_⟩, ?_, ?_, ?_⟩
  · rw [hcoh.word m]
    exact wordOf_mem _ _
  · obtain ⟨t, ht⟩ := hexcl.held_of_locked (hlocked.mp h)
    exact ⟨t, soleHolder_of_holds hexcl ht⟩
  · rintro ⟨t, ht⟩
    exact hlocked.mpr (hexcl.locked_of_holds t ((ht t).mpr rfl))
  · intro h t
    refine hexcl.not_holds ?_ t
    rwa [ne_eq, hlocked, Bool.not_eq_true] at h
  · intro t call code hpoint hm
    exact soleHolder_of_holds hexcl (keepsPromise_of_path hs hpath t call code hpoint m hm)
  · intro a s'' h
    have hmoves := step_moves hcoh h m
    obtain ⟨owner, howner, -⟩ := AtomicMutex.exists_owner hexcl
    obtain ⟨owner', howner', -⟩ := AtomicMutex.exists_owner (hexcl.moves hmoves)
    refine ⟨⟨owner, owner', howner, howner', AtomicMutex.refines_moves hexcl hmoves howner howner'⟩,
      fun t hp hreturn => ?_⟩
    obtain ⟨input, -, -, haccess⟩ :=
      access_of_moved (t := t) hcoh h (by simp [hp]) (by simp [hp, hreturn])
    exact trylock_ebusy hcoh hexcl haccess hp hreturn

/-- One thread takes the lock and another one is refused it. -/
theorem htll_mutex_refines_atomic_mutex_ebusy :
    ∃ s : State (Fin 2) Unit Unit, Path step anyStep (initial fun _ => htllThreadStart Tls.zero) s ∧
      s.point 1 = .outside (some (.trylock (), ebusy)) ∧ SoleHolder s 0 () ∧
      (s.mutex ()).u ∈ WordValues := by
  obtain ⟨s, hpath, hebusy, hlock⟩ := exists_path_of_execute (step (T := Fin 2) (M := Unit)
    (C := Unit)) anyStep
    (.call 0 (.lock ()) :: Action.turns 0 2 ++ .call 1 (.trylock ()) :: Action.turns 1 1)
    (initial fun _ => htllThreadStart Tls.zero)
    (fun s => s.point 1 = .outside (some (.trylock (), ebusy)) ∧
      s.point 0 = .outside (some (.lock (), 0))) (by decide +kernel)
  obtain ⟨hword, -, -, hreturn, -⟩ :=
    htll_mutex_refines_atomic_mutex initial_started hpath ()
  exact ⟨s, hpath, hebusy, hreturn 0 _ _ hlock rfl, hword⟩

end State

end Htll
