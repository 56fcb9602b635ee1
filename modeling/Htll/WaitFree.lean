import Htll.InterposedInvariant
import Htll.WakeUp

/-!
# Calls that wait for nobody

Whatever the other threads do, a thread in `htll_mutex_unlock`, `htll_mutex_trylock`, a signal or a
broadcast is awake, may make its next access, and is back after a fixed number of its own accesses.
A wait reaches its `FUTEX_WAIT` in the same way. The waiting begins there, in `htll_mutex_lock`, and
in the loop that takes the mutex back.
-/

namespace Htll

open ParkingLock Transition

/-- How many accesses are ahead in `htll_mutex_unlock`. -/
def UnlockPoint.ahead : UnlockPoint → ℕ
  | .load => 9
  | .cas => 8
  | .count => 7
  | .store => 6
  | .check => 5
  | .recheck => 4
  | .clear => 3
  | .tally => 2
  | .wake => 1

/-- How many accesses are ahead in the binding. -/
def BindPoint.ahead : BindPoint → ℕ
  | .seq => 5
  | .compare _ => 4
  | .vacant _ => 3
  | .swap _ => 2
  | .confirm _ => 1

/-- How many accesses are between the release and `FUTEX_WAIT`. -/
def After.ahead {C : Type*} : After C → ℕ
  | .wait _ _ (some _) => 1
  | .unlock | .wait _ _ none => 0

/-- How many accesses at most are ahead before the thread waits or is back from its call. -/
def Point.ahead {M C : Type*} : Point M C → ℕ
  | .trylock _ | .clock .. | .signalWake _ | .broadcastRequeue .. => 1
  | .signalAdd _ | .broadcastAdd .. => 2
  | .broadcastLoad _ => 3
  | .unlock _ after p => p.ahead + after.ahead
  | .bind _ _ _ p => p.ahead + 10
  | .outside _ | .lock .. | .wait .. | .reclock .. | .retake .. => 0

/-- In a wait, at its `FUTEX_WAIT` or past it. -/
def Point.waits {M C : Type*} : Point M C → Bool
  | .wait .. | .reclock .. | .retake .. => true
  | _ => false

/-- The action is an access of the thread. -/
def Action.isAccess {T M C : Type*} [DecidableEq T] (t : T) : Action T M C → Bool
  | .access u _ => u = t
  | _ => false

/-- Every access of `htll_mutex_unlock` leaves fewer ahead. -/
theorem htllMutexUnlock_ahead {x : Mutex} {p p' : UnlockPoint}
    (h : (htllMutexUnlock x p).2.next = some p') : p'.ahead < p.ahead := by
  cases p with
  | load | check | recheck =>
    simp only [htllMutexUnlock] at h
    split at h <;> cases h <;> decide
  | cas =>
    simp only [htllMutexUnlock] at h
    split at h <;> cases h
    exact Nat.lt_succ_self _
  | count | store | clear | tally =>
    cases h
    decide
  | wake => cases h

/-- So does every access of the binding. -/
theorem bindCond_ahead {M : Type*} [DecidableEq M] {m : M} {c : Cond M} {p p' : BindPoint}
    (h : (bindCond m c p).2 = .goto p') : p'.ahead < p.ahead := by
  cases p with
  | seq | swap =>
    cases h
    exact Nat.lt_succ_self _
  | compare | vacant | confirm =>
    simp only [bindCond] at h
    split at h <;> cases h <;> exact Nat.lt_succ_self _

/-- A return from the release leaves only what is between it and `FUTEX_WAIT`. -/
theorem After.point_ahead {M C : Type*} {m : M} {after : After C} :
    (after.point m : Point M C).ahead = after.ahead := by
  rcases after with _ | ⟨c, seq, _ | abstime⟩ <;> rfl

namespace State

variable {T M C : Type*} [DecidableEq T] [DecidableEq M] [DecidableEq C] [Fintype T]
  {s s' : State T M C} {t : T} {input : Input T}

/-! ## One access -/

/-- An access leaves fewer ahead of its thread. -/
theorem ahead_access (h : s.access t input = some s') :
    (s'.point t).ahead ≤ (s.point t).ahead - 1 := by
  cases hp : s.point t with
  | outside last => simp [access, hp] at h
  | lock m p =>
    rw [lock_access hp h]
    cases (htllMutexLock (s.tls t).curSegmentId input.ticks (s.mutex m) p).2.next <;> rfl
  | trylock m =>
    obtain ⟨code, hpoint⟩ := trylock_access hp h
    rw [hpoint]
    rfl
  | unlock m after p =>
    rw [unlock_access hp h]
    cases hnext : (htllMutexUnlock (s.mutex m) p).2.next with
    | none =>
      have hpos : 0 < p.ahead := by cases p <;> decide
      rw [Option.elim_none, After.point_ahead]
      simp only [Point.ahead]
      omega
    | some p' =>
      have hlt := htllMutexUnlock_ahead hnext
      simp only [Option.elim_some, Point.ahead]
      omega
  | retake c m abstime code p =>
    rw [retake_access hp h]
    cases (retakeMutex (s.mutex m) p).2.next <;> rfl
  | bind c m abstime p =>
    simp only [access, hp] at h
    split at h <;> cases h <;> simp only [goto_point, Function.update_self, Point.ahead]
    · rename_i p' houtcome
      have hlt := bindCond_ahead houtcome
      omega
    · exact Nat.zero_le _
    · have hpos : 0 < p.ahead := by cases p <;> exact Nat.succ_pos _
      have hafter : ∀ seq, (After.wait c seq abstime).ahead ≤ 1 := by
        intro seq
        cases abstime
        · exact Nat.zero_le _
        · exact Nat.le_refl _
      have := hafter ‹_›
      simp only [UnlockPoint.ahead]
      omega
  | clock c m seq abstime =>
    simp only [access, hp, Option.some.injEq] at h
    subst h
    simp only [goto_point, Function.update_self, afterClock]
    split <;> exact Nat.zero_le _
  | wait c m seq abstime rt =>
    rw [wait_access hp h]
    cases abstime <;> exact Nat.zero_le _
  | reclock | signalAdd | broadcastAdd =>
    simp only [access, hp, Option.some.injEq] at h
    subst h
    simp [Point.ahead]
  | broadcastLoad c =>
    simp only [access, hp] at h
    split at h <;> cases h <;> simp [Point.ahead]
  | signalWake c | broadcastRequeue c m =>
    simp only [access, hp, Option.map_eq_some_iff] at h
    obtain ⟨s₁, -, rfl⟩ := h
    simp [Point.ahead]

/-- No action but a call of the thread leaves more ahead of it. -/
theorem ahead_step (hcoh : s.Coherent) {a : Action T M C} (hcall : ∀ c, a ≠ .call t c)
    (h : s.step a = some s') :
    (s'.point t).ahead ≤ (s.point t).ahead - (a.isAccess t).toNat := by
  rcases step_cases h with ⟨u, c, last, rfl, -, -, -, rfl⟩ | ⟨u, input, rfl, -, haccess⟩ |
    ⟨u, rfl, rfl⟩ | ⟨tls, rfl, u, result, rfl, hsegment⟩
  · have hu : t ≠ u := by
      rintro rfl
      exact hcall c rfl
    simp [Action.isAccess, Function.update_of_ne hu]
  · by_cases hu : u = t
    · subst hu
      simpa [Action.isAccess] using ahead_access haccess
    · rw [(frame_access hcoh haccess).point t (Ne.symm hu)]
      simp [Action.isAccess, hu]
  · simp [Action.isAccess]
  · have hnot : a.isAccess t = false := by
      rcases hsegment with ⟨segmentId, ticks, rfl, -⟩ |
        ⟨segmentId, requiredLatency, ticks, rfl, -⟩ <;> rfl
    simp [hnot]

/-! ## Nothing to wait for -/

omit [DecidableEq T] [DecidableEq C] [Fintype T] in
/-- A thread with accesses ahead sleeps nowhere. -/
theorem Coherent.awake_of_ahead (hcoh : s.Coherent) (hreturn : ∀ m, SleepersReturn (s.view m))
    (hahead : 0 < (s.point t).ahead) : s.asleep t = none := by
  cases hasleep : s.asleep t with
  | none => rfl
  | some w =>
    cases w with
    | seq c =>
      obtain ⟨m, abstime, hp⟩ := hcoh.sleeping t c hasleep
      rw [hp] at hahead
      cases abstime <;> cases hahead
    | word m =>
      have hrole : (s.point t).role m = .taker ∨ (s.point t).role m = .racer :=
        hreturn m t (place_eq_onWord.mpr hasleep)
      cases hp : s.point t with
      | outside | lock | wait | reclock | retake =>
        rw [hp] at hahead
        cases hahead
      | unlock m' after p =>
        by_cases hm : m' = m <;> cases p <;>
          simp [hp, Point.role, UnlockPoint.role, hm] at hrole
      | _ => simp [hp, Point.role] at hrole

/-- `FUTEX_WAKE` can always reach somebody, or nobody sleeps there. -/
theorem exists_wake (s : State T M C) (a : FutexAddr M C) : ∃ pick s', s.wake a pick = some s' := by
  by_cases hasleep : ∃ w, s.asleep w = some a
  · obtain ⟨w, hw⟩ := hasleep
    exact ⟨some w, _, if_pos hw⟩
  · exact ⟨none, s, if_pos fun w hw => hasleep ⟨w, hw⟩⟩

/-- So can `FUTEX_REQUEUE`. -/
theorem exists_requeue (s : State T M C) (c : C) (m : M) :
    ∃ pick s', s.requeue c m pick = some s' := by
  by_cases hasleep : ∃ w, s.asleep w = some (.seq c)
  · obtain ⟨w, hw⟩ := hasleep
    exact ⟨some w, _, if_pos hw⟩
  · exact ⟨none, s, if_pos fun w hw => hasleep ⟨w, hw⟩⟩

/-- An access to a mutex is always possible. -/
theorem exists_commit {P : Type*} (s : State T M C) (t : T) (m : M) (embed : P → Point M C)
    (taken failed ended : Point M C) (result : Mutex × Outcome P) :
    ∃ pick s', s.commit t m pick embed taken failed ended result = some s' := by
  obtain ⟨x, outcome⟩ := result
  cases outcome with
  | wake =>
    obtain ⟨pick, s', hwake⟩ := exists_wake (s.setMutex m x) (.word m)
    exact ⟨pick, s'.goto t ended, by simp only [commit, hwake, Option.map_some]⟩
  | free p => cases p <;> exact ⟨none, _, rfl⟩
  | _ => exact ⟨none, _, rfl⟩

/-- A thread inside a call that is awake can always make its next access. -/
theorem exists_access (hinside : (s.point t).isOutside = false) :
    ∃ input s', s.access t input = some s' := by
  cases hp : s.point t with
  | outside last =>
    rw [hp] at hinside
    cases hinside
  | lock m p =>
    obtain ⟨pick, s', hs⟩ := s.exists_commit t m (.lock m) (.outside (some (.lock m, 0)))
      (.outside (some (.lock m, 0))) (.outside (some (.lock m, 0)))
      (htllMutexLock (s.tls t).curSegmentId 0 (s.mutex m) p)
    exact ⟨⟨0, ⟨0, 0⟩, pick⟩, s', by simpa only [access, hp] using hs⟩
  | trylock m =>
    obtain ⟨pick, s', hs⟩ := s.exists_commit t m (.lock m) (.outside (some (.trylock m, 0)))
      (.outside (some (.trylock m, ebusy))) (.outside (some (.trylock m, 0)))
      (htllMutexTrylock (s.mutex m))
    exact ⟨⟨0, ⟨0, 0⟩, pick⟩, s', by simpa only [access, hp] using hs⟩
  | unlock m after p =>
    obtain ⟨pick, s', hs⟩ := s.exists_commit t m (.unlock m after) (after.point m) (after.point m)
      (after.point m) (htllMutexUnlock (s.mutex m) p)
    exact ⟨⟨0, ⟨0, 0⟩, pick⟩, s', by simpa only [access, hp] using hs⟩
  | retake c m abstime code p =>
    obtain ⟨pick, s', hs⟩ := s.exists_commit t m (.retake c m abstime code)
      (.outside (some (.waiting c m abstime, code))) (.outside (some (.waiting c m abstime, code)))
      (.outside (some (.waiting c m abstime, code))) (retakeMutex (s.mutex m) p)
    exact ⟨⟨0, ⟨0, 0⟩, pick⟩, s', by simpa only [access, hp] using hs⟩
  | bind c m abstime p =>
    refine ⟨⟨0, ⟨0, 0⟩, none⟩, ?_⟩
    simp only [access, hp]
    split <;> exact ⟨_, rfl⟩
  | clock | wait | reclock | signalAdd | broadcastAdd =>
    exact ⟨⟨0, ⟨0, 0⟩, none⟩, by simp only [access, hp]; exact ⟨_, rfl⟩⟩
  | broadcastLoad c =>
    refine ⟨⟨0, ⟨0, 0⟩, none⟩, ?_⟩
    simp only [access, hp]
    split <;> exact ⟨_, rfl⟩
  | signalWake c =>
    obtain ⟨pick, s', hwake⟩ := s.exists_wake (.seq c)
    exact ⟨⟨0, ⟨0, 0⟩, pick⟩, _, by simp only [access, hp, hwake, Option.map_some]; rfl⟩
  | broadcastRequeue c m =>
    obtain ⟨pick, s', hrequeue⟩ := s.exists_requeue c m
    exact ⟨⟨0, ⟨0, 0⟩, pick⟩, _, by simp only [access, hp, hrequeue, Option.map_some]; rfl⟩

/-- In every run those who sleep on a word have another access to it ahead. -/
theorem sleepersReturn_of_path {s₀ : State T M C} (hs : s₀.Initial)
    (hpath : Path step anyStep s₀ s) (m : M) : SleepersReturn (s.view m) :=
  Path.invariant_of Coherent (fun s => SleepersReturn (s.view m))
    (fun _ _ _ _ h hcoh => hcoh.step h)
    (fun _ _ _ _ h hcoh hreturn => hreturn.moves (step_moves hcoh h m)) hpath hs.coherent
    (hs.handOff m).sleepers

omit [DecidableEq T] [DecidableEq M] [DecidableEq C] [Fintype T] in
/-- A call that had accesses ahead and has none left is over or has come to its `FUTEX_WAIT`. -/
theorem outside_or_waits {q q' : Point M C} (hcall : q'.call = q.call) (hahead : 0 < q.ahead)
    (hnone : q'.ahead = 0) : q'.isOutside = true ∨ q'.waits = true := by
  cases q' with
  | outside => exact Or.inl rfl
  | wait | reclock | retake => exact Or.inr rfl
  | lock m p =>
    -- the call of a thread with accesses ahead is no lock
    cases q with
    | outside | lock | wait | reclock | retake => cases hahead
    | unlock m' after p' => rcases after with _ | ⟨c, seq, _ | abstime⟩ <;> cases hcall
    | bind c m' abstime p' => cases abstime <;> cases hcall
    | _ => cases hcall
  | unlock m after p =>
    have hpos : 0 < p.ahead := by cases p <;> decide
    simp only [Point.ahead] at hnone
    omega
  | bind c m abstime p => exact absurd hnone (Nat.succ_ne_zero _)
  | _ => cases hnone

/-- Nothing but a call of the thread takes it out of its call. -/
theorem call_of_step (hcoh : s.Coherent) {a : Action T M C} (hcall : ∀ c, a ≠ .call t c)
    (h : s.step a = some s') : (s'.point t).call = (s.point t).call := by
  rcases step_cases h with ⟨u, c, last, rfl, -, -, -, rfl⟩ | ⟨u, input, rfl, -, haccess⟩ |
    ⟨u, rfl, rfl⟩ | ⟨tls, rfl, u, result, rfl, -⟩
  · have hu : t ≠ u := by
      rintro rfl
      exact hcall c rfl
    simp [Function.update_of_ne hu]
  · by_cases hu : u = t
    · subst hu
      exact call_access haccess
    · rw [(frame_access hcoh haccess).point t (Ne.symm hu)]
  · rfl
  · rfl

omit [DecidableEq T] [DecidableEq M] [DecidableEq C] [Fintype T] in
/-- At most 15 accesses are ahead of any thread. -/
theorem ahead_le (q : Point M C) : q.ahead ≤ 15 := by
  cases q with
  | unlock m after p =>
    have hp : p.ahead ≤ 9 := by cases p <;> decide
    have hafter : after.ahead ≤ 1 := by
      rcases after with _ | ⟨c, seq, _ | abstime⟩ <;> simp [After.ahead]
    simp only [Point.ahead]
    omega
  | bind c m abstime p =>
    have hp : p.ahead ≤ 5 := by cases p <;> simp [BindPoint.ahead]
    simp only [Point.ahead]
    omega
  | _ => simp [Point.ahead]

/-- An unlock, a trylock, a signal and a broadcast, and a wait up to its `FUTEX_WAIT`, are
wait-free. In every reachable state their thread is awake and can make its next access, and
after as many of its accesses as are ahead, at most 15, whatever the other threads have done and
however they were scheduled, it is back from the call or, in a wait, at the `FUTEX_WAIT` or past
it. -/
theorem prompt_calls_are_wait_free {s₀ : State T M C} (hs : s₀.Initial)
    (hpath : Path step anyStep s₀ s) (hahead : 0 < (s.point t).ahead) :
    (s.asleep t = none ∧ ∃ input s', s.step (.access t input) = some s') ∧
    (s.point t).ahead ≤ 15 ∧
    ∀ actions s', execute step anyStep s actions = some s' → (∀ c, .call t c ∉ actions) →
      (s.point t).ahead ≤ actions.countP (·.isAccess t) →
      (s'.point t).call = (s.point t).call ∧
        ((s'.point t).isOutside = true ∨ (s'.point t).waits = true) := by
  have hcoh : s.Coherent :=
    Path.invariant Coherent (fun _ _ _ _ h hcoh => hcoh.step h) hpath hs.coherent
  have hasleep := hcoh.awake_of_ahead (sleepersReturn_of_path hs hpath) hahead
  refine ⟨⟨hasleep, ?_⟩, ahead_le _, fun actions s' h hcall henough => ?_⟩
  · have hinside : (s.point t).isOutside = false := by
      cases hp : s.point t <;> first | rfl | (rw [hp] at hahead; cases hahead)
    obtain ⟨input, s', haccess⟩ := exists_access hinside
    exact ⟨input, s', (if_pos hasleep).trans haccess⟩
  · have hne : ∀ a ∈ actions, ∀ c, a ≠ .call t c := by
      rintro a ha c rfl
      exact hcall c ha
    -- the call stays the same while its accesses go by
    obtain ⟨⟨-, hsame⟩, hrank⟩ := execute_rank
      (fun s₁ => s₁.Coherent ∧ (s₁.point t).call = (s.point t).call)
      (fun s₁ => (s₁.point t).ahead) (·.isAccess t)
      (fun a ha s₁ s₂ _ h₁ h => ⟨⟨h₁.1.step h, (call_of_step h₁.1 (hne a ha) h).trans h₁.2⟩,
        ahead_step h₁.1 (hne a ha) h⟩) ⟨hcoh, rfl⟩ h
    exact ⟨hsame, outside_or_waits hsame hahead (by omega)⟩

/-- Thread 0 has found that the mutex it unlocks is marked; seven accesses later it has woken
thread 1 and is back. -/
theorem prompt_calls_are_wait_free_unlock : ∃ s s' : State (Fin 2) Unit Unit,
    s.asleep 1 = some (.word ()) ∧ (s.point 0).ahead = 7 ∧
      execute step anyStep s (Action.turns 0 6 ++ [.access 0 ⟨0, ⟨0, 0⟩, some 1⟩]) = some s' ∧
      ((s'.point 0).isOutside = true ∨ (s'.point 0).waits = true) := by
  obtain ⟨s, hpath, hasleep, hahead, hruns⟩ := exists_path_of_execute (step (T := Fin 2) (M := Unit)
    (C := Unit)) anyStep
    (.call 0 (.lock ()) :: Action.turns 0 2 ++
      .call 1 (.lock ()) :: Action.turns 1 4 ++ Action.late 1 :: Action.turns 1 3 ++
      .call 0 (.unlock ()) :: Action.turns 0 1)
    (initial fun _ => htllThreadStart Tls.zero)
    (fun s => s.asleep 1 = some (.word ()) ∧ (s.point 0).ahead = 7 ∧ (execute step anyStep s
      (Action.turns 0 6 ++ [.access 0 ⟨0, ⟨0, 0⟩, some 1⟩])).isSome = true) (by decide +kernel)
  obtain ⟨s', hs'⟩ := Option.isSome_iff_exists.mp hruns
  obtain ⟨-, -, hends⟩ :=
    prompt_calls_are_wait_free (t := 0) initial_started hpath (by rw [hahead]; decide)
  refine ⟨s, s', hasleep, hahead, hs', (hends _ s' hs' (by simp [Action.turns]) ?_).2⟩
  rw [hahead]
  decide

end State

end Htll
