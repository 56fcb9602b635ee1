import Htll.MachineView

/-!
# Every action of the machine is a step of each parking lock

The accesses of each function were related to the parking lock where the function is
defined. Here they are put together: one lemma for an access, one for an action, and the
preservation of the coherence that the first one assumes.
-/

namespace Htll

open ParkingLock Transition

namespace State

variable {T M C : Type*} [DecidableEq T] [DecidableEq M] [DecidableEq C] [Fintype T]
  {s s' : State T M C} {t : T} {input : Input T}

section Own

variable {P : Type*} {role : P → Role} {m : M} {pick : Option T} {embed : P → Point M C}
  {taken failed ended : Point M C} {result : Mutex × Outcome P}

/-- A sound access to a mutex is at most one step of its parking lock. -/
theorem commit_moves (h : s.commit t m pick embed taken failed ended result = some s')
    (hembed : ∀ p, (embed p).role m = role p)
    (hends : taken.role m = .neutral ∧ failed.role m = .neutral ∧ ended.role m = .neutral)
    (hsound : Outcome.Sound role (s.view m) t result) (hwake : result.2 ≠ .wake) :
    Moves (s.view m) (s'.view m) := by
  obtain ⟨locked, contended, hword, hmoves⟩ := hsound
  rw [commit_view h hembed hends hword hwake]
  exact hmoves

end Own

omit [DecidableEq C] in
/-- A waiting thread's next access to its mutex is the full swap. -/
theorem afterWait_role (c : C) (m : M) (abstime : Option Timespec) :
    (afterWait c m abstime).role m = .taker := by
  cases abstime <;> simp [afterWait, Point.role, RetakePoint.role]

omit [Fintype T] in
/-- All sleepers of a condition variable wait with the mutex that it is bound to, so moving them
onto its word is a step of that lock; any other lock only sees one of them wake. -/
theorem requeue_moves (hcoh : s.Coherent) {c : C} {m m' : M} {w : T}
    (hw : s.asleep w = some (.seq c)) (hbound : (s.cond c).m = some m') :
    Moves (s.view m)
      (State.view { s with
        asleep := fun u =>
          if u = w then none
          else if s.asleep u = some (.seq c) then some (.word m') else s.asleep u } m) := by
  have hrole : ∀ u, s.asleep u = some (.seq c) → (s.point u).role m' = .taker := by
    intro u hu
    obtain ⟨m'', abstime, hpoint⟩ := hcoh.sleeping u c hu
    have hsame : (s.cond c).m = some m'' :=
      hcoh.binding u c m'' (by rw [hpoint]; cases abstime <;> rfl)
    rw [hbound, Option.some.injEq] at hsame
    rw [hpoint, hsame, afterWait_role]
  by_cases hm : m' = m
  · subst hm
    refine .single (.requeue (hrole w hw) (by simp [placeOf]) ?_)
    intro u hu
    simp only [hu, if_false]
    by_cases hseq : s.asleep u = some (.seq c)
    · exact Or.inr ⟨hrole u hseq, by simp [view, hseq, placeOf]⟩
    · exact Or.inl (by simp [view, hseq])
  · have hplace : (State.view { s with
        asleep := fun u =>
          if u = w then none
          else if s.asleep u = some (.seq c) then some (.word m') else s.asleep u } m).place =
        Function.update (s.view m).place w .awake := by
      funext u
      by_cases hu : u = w
      · simp [view, hu, placeOf]
      · by_cases hseq : s.asleep u = some (.seq c) <;> simp [view, hu, hseq, placeOf, hm]
    have hstep := Step.unpark (s := s.view m) (t := w)
    rw [← hplace] at hstep
    exact .single hstep

/-- Every access of a runnable thread is at most one step of each parking lock. -/
theorem access_moves (hcoh : s.Coherent) (hasleep : s.asleep t = none)
    (h : s.access t input = some s') (m : M) : Moves (s.view m) (s'.view m) := by
  have hawake : (s.view m).place t = .awake := by simp [view, hasleep, placeOf]
  have hrole : (s.view m).role t = (s.point t).role m := rfl
  have hword := hcoh.word m
  cases hp : s.point t with
  | outside last => simp [access, hp] at h
  | lock m' p =>
    simp only [access, hp] at h
    by_cases hm : m' = m
    · subst hm
      refine commit_moves h (fun _ => if_pos rfl) ⟨rfl, rfl, rfl⟩
        (htllMutexLock_sound _ _ p hword hawake (by rw [hrole, hp]; exact if_pos rfl)) ?_
      exact Outcome.ne_wake_of_acquires (htllMutexLock_acquires _ _ _ p)
    · exact commit_moves_of_ne h (Ne.symm hm) hasleep (by rw [hp]; exact if_neg hm)
        (fun _ => if_neg hm) ⟨rfl, rfl, rfl⟩
  | trylock m' =>
    simp only [access, hp] at h
    by_cases hm : m' = m
    · subst hm
      refine commit_moves h (fun _ => if_pos rfl) ⟨rfl, rfl, rfl⟩
        (htllMutexTrylock_sound hword hawake (by rw [hrole, hp]; rfl)) ?_
      rcases htllMutexTrylock_ends (s.mutex m') with htake | ⟨hfail, -⟩
      · simp [htake]
      · simp [hfail]
    · exact commit_moves_of_ne h (Ne.symm hm) hasleep (by rw [hp]; rfl)
        (fun _ => if_neg hm) ⟨rfl, rfl, rfl⟩
  | unlock m' after p =>
    simp only [access, hp] at h
    have hafter : ∀ m, (after.point m' : Point M C).role m = .neutral := by
      intro m
      rcases after with _ | ⟨c, seq, _ | abstime⟩ <;> rfl
    by_cases hm : m' = m
    · subst hm
      by_cases hwake : p = .wake
      · subst hwake
        exact .single (commit_wake h (hafter m') rfl (by rw [hp]; exact if_pos rfl))
      · refine commit_moves h (fun _ => if_pos rfl) ⟨hafter m', hafter m', hafter m'⟩
          (htllMutexUnlock_sound p hword hawake (by rw [hrole, hp]; exact if_pos rfl) ?_ hwake) ?_
        · intro hhold
          exact hcoh.holding t m' (by rw [hp]; exact if_pos hhold)
        · exact htllMutexUnlock_ne_wake _ hwake
    · exact commit_moves_of_ne h (Ne.symm hm) hasleep (by rw [hp]; exact if_neg hm)
        (fun _ => if_neg hm) ⟨hafter m, hafter m, hafter m⟩
  | bind c m' abstime p =>
    have hneutral : (s.view m).role t = .neutral := by rw [hrole, hp]; rfl
    simp only [access, hp] at h
    split at h
    · cases h
      rw [view_goto, view_setTicket, view_setCond]
      exact Moves.keep_role hneutral
    · cases h
      rw [view_goto, view_setCond]
      exact Moves.keep_role hneutral
    · cases h
      rw [view_goto, view_setCond]
      refine Moves.keep_role (hneutral.trans ?_)
      simp [Point.role, UnlockPoint.role]
  | clock c m' seq abstime =>
    simp only [access, hp, Option.some.injEq] at h
    subst h
    have hneutral : (s.view m).role t = .neutral := by rw [hrole, hp]; rfl
    rw [view_goto, afterClock]
    split
    · by_cases hm : m' = m
      · exact .single (.compete hawake hneutral (Or.inl (if_pos hm)))
      · exact Moves.keep_role (hneutral.trans (if_neg hm).symm)
    · exact Moves.keep_role hneutral
  | wait c m' seq abstime rt =>
    simp only [access, hp, Option.some.injEq] at h
    subst h
    have hneutral : (s.view m).role t = .neutral := by rw [hrole, hp]; rfl
    have hafter : (afterWait c m' abstime).role m = .neutral ∨
        (afterWait c m' abstime).role m = .taker := by
      by_cases hm : m' = m
      · exact Or.inr (hm ▸ afterWait_role c m' abstime)
      · exact Or.inl (by cases abstime <;> exact if_neg hm)
    split
    · rw [view_setAsleep, view_goto]
      exact .single (.parkElsewhere hawake hneutral hafter)
    · rw [view_goto]
      rcases hafter with hsame | htaker
      · exact Moves.keep_role (hneutral.trans hsame.symm)
      · exact .single (.compete hawake hneutral (Or.inl htaker))
  | reclock c m' abstime =>
    simp only [access, hp] at h
    cases h
    rw [goto_view (by rw [hp]; rfl)]
  | retake c m' abstime code p =>
    simp only [access, hp] at h
    by_cases hm : m' = m
    · subst hm
      refine commit_moves h (fun _ => if_pos rfl) ⟨rfl, rfl, rfl⟩
        (retakeMutex_sound p hword hawake (by rw [hrole, hp]; exact if_pos rfl)) ?_
      exact Outcome.ne_wake_of_acquires (retakeMutex_acquires _ p)
    · exact commit_moves_of_ne h (Ne.symm hm) hasleep (by rw [hp]; exact if_neg hm)
        (fun _ => if_neg hm) ⟨rfl, rfl, rfl⟩
  | signalAdd c =>
    simp only [access, hp, Option.some.injEq] at h
    subst h
    rw [view_goto, view_bump]
    exact Moves.keep_role (by rw [hrole, hp]; rfl)
  | signalWake c =>
    simp only [access, hp, Option.map_eq_some_iff] at h
    obtain ⟨s₁, hwake, rfl⟩ := h
    rw [goto_view (by rw [wake_point hwake, hp]; rfl)]
    exact wake_moves hwake
  | broadcastLoad c =>
    simp only [access, hp] at h
    split at h <;>
    · cases h
      rw [goto_view (by rw [hp]; rfl)]
  | broadcastAdd c m' =>
    simp only [access, hp, Option.some.injEq] at h
    subst h
    rw [view_goto, view_bump]
    exact Moves.keep_role (by rw [hrole, hp]; rfl)
  | broadcastRequeue c m' =>
    simp only [access, hp, Option.map_eq_some_iff] at h
    obtain ⟨s₁, hrequeue, rfl⟩ := h
    rcases requeue_cases hrequeue with ⟨w, hw, rfl⟩ | ⟨-, rfl⟩
    · rw [goto_view (by simp only [hp]; rfl)]
      exact requeue_moves hcoh hw (hcoh.binding t c m' (by rw [hp]; rfl))
    · rw [goto_view (by rw [hp]; rfl)]

end State

end Htll
