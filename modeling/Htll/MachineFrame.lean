import Htll.MachineStep

/-!
# What one action of the machine leaves alone

One access of a thread leaves the other threads' points, holdings and tickets alone, wakes
other threads or moves them from a sequence number to the word of the bound mutex but never
puts them to sleep, and never unbinds a condition variable. An action of any kind is the
beginning of a call, an access, the end of a sleep or a change of thread-local state.
-/

namespace Htll

open ParkingLock Transition

namespace State

variable {T M C : Type*} [DecidableEq T] [DecidableEq M] [DecidableEq C] [Fintype T]
  {s s' s'' : State T M C} {t : T} {input : Input T}

/-- What an access of one thread leaves alone. -/
structure Frame (t : T) (s s' : State T M C) : Prop where
  point : ∀ u, u ≠ t → s'.point u = s.point u
  holds : ∀ u, u ≠ t → s'.holds u = s.holds u
  ticket : ∀ u, u ≠ t → s'.ticket u = s.ticket u
  asleep : ∀ u, u ≠ t → ∀ c, s'.asleep u = some (.seq c) → s.asleep u = some (.seq c)
  bound : ∀ c m, (s.cond c).m = some m → (s'.cond c).m = some m
  requeued : ∀ u, u ≠ t → ∀ m, s'.asleep u = some (.word m) →
    s.asleep u = some (.word m) ∨ ∃ c, s.asleep u = some (.seq c) ∧ (s'.cond c).m = some m
  calls : s'.calls = s.calls
  bumps : ∀ c, s.bumps c ≤ s'.bumps c
  counted : ∀ c, (s.cond c).seq = BitVec.ofNat 32 (s.bumps c) →
    (s'.cond c).seq = BitVec.ofNat 32 (s'.bumps c)
  curSegment : ∀ u, (s'.tls u).curSegmentId = (s.tls u).curSegmentId

omit [DecidableEq T] [DecidableEq M] [DecidableEq C] [Fintype T] in
/-- Nobody else is put to sleep. -/
theorem Frame.awake (h : Frame t s s') {u : T} (hu : u ≠ t) (hawake : s.asleep u = none) :
    s'.asleep u = none := by
  cases hasleep : s'.asleep u with
  | none => rfl
  | some address =>
    cases address with
    | seq c =>
      have hseq := h.asleep u hu c hasleep
      rw [hawake] at hseq
      cases hseq
    | word m =>
      rcases h.requeued u hu m hasleep with hword | ⟨c, hseq, -⟩
      · rw [hawake] at hword
        cases hword
      · rw [hawake] at hseq
        cases hseq

omit [DecidableEq T] [DecidableEq M] [DecidableEq C] [Fintype T] in
/-- Frames of the same thread compose. -/
theorem Frame.trans (h : Frame t s s') (h' : Frame t s' s'') : Frame t s s'' where
  point u hu := (h'.point u hu).trans (h.point u hu)
  holds u hu := (h'.holds u hu).trans (h.holds u hu)
  ticket u hu := (h'.ticket u hu).trans (h.ticket u hu)
  asleep u hu c hc := h.asleep u hu c (h'.asleep u hu c hc)
  bound c m hm := h'.bound c m (h.bound c m hm)
  requeued u hu m hm := by
    rcases h'.requeued u hu m hm with hword | ⟨c, hseq, hbound⟩
    · rcases h.requeued u hu m hword with hword | ⟨c, hseq, hbound⟩
      · exact Or.inl hword
      · exact Or.inr ⟨c, hseq, h'.bound c m hbound⟩
    · exact Or.inr ⟨c, h.asleep u hu c hseq, hbound⟩
  calls := h'.calls.trans h.calls
  bumps c := (h.bumps c).trans (h'.bumps c)
  counted c hc := h'.counted c (h.counted c hc)
  curSegment u := (h'.curSegment u).trans (h.curSegment u)

section Frames

variable (s) (t)

omit [DecidableEq M] [DecidableEq C] [Fintype T] in
theorem frame_goto (p : Point M C) : Frame t s (s.goto t p) := by
  constructor <;> simp +contextual [goto, Function.update_of_ne]

omit [DecidableEq T] [DecidableEq C] [Fintype T] in
theorem frame_setMutex (m : M) (x : Mutex) : Frame t s (s.setMutex m x) := by
  constructor <;> simp +contextual [setMutex]

omit [DecidableEq C] [Fintype T] in
theorem frame_setHolds (m : M) (b : Bool) : Frame t s (s.setHolds t m b) := by
  constructor <;> simp +contextual [setHolds, Function.update_of_ne]

omit [DecidableEq M] [DecidableEq C] [Fintype T] in
theorem frame_setAsleep (a : Option (FutexAddr M C)) : Frame t s (s.setAsleep t a) := by
  constructor <;> simp +contextual [setAsleep, Function.update_of_ne]

omit [DecidableEq M] [DecidableEq C] [Fintype T] in
theorem frame_markWaiter : Frame t s (s.markWaiter t) := by
  refine ⟨fun _ _ => rfl, fun _ _ => rfl, fun _ _ => rfl, fun _ _ _ h => h, fun _ _ h => h,
    fun _ _ _ h => Or.inl h, rfl, fun _ => le_rfl, fun _ h => h, ?_⟩
  intro u
  by_cases hu : u = t
  · subst hu
    simp
  · simp [hu]

omit [DecidableEq M] [DecidableEq C] [Fintype T] in
theorem frame_setTicket (n : ℕ) : Frame t s (s.setTicket t n) := by
  constructor <;> simp +contextual [setTicket, Function.update_of_ne]

omit [DecidableEq T] [DecidableEq M] [Fintype T] in
theorem frame_setCond {c : C} {x : Cond M} (hx : ∀ m, (s.cond c).m = some m → x.m = some m)
    (hseq : x.seq = (s.cond c).seq) : Frame t s (s.setCond c x) := by
  refine ⟨fun _ _ => rfl, fun _ _ => rfl, fun _ _ => rfl, fun _ _ _ h => h, ?_,
    fun _ _ _ h => Or.inl h, rfl, fun _ => le_rfl, ?_, fun _ => rfl⟩
  · intro c' m hm
    simp only [setCond]
    by_cases hc : c' = c
    · subst hc
      simpa using hx m hm
    · simpa [hc] using hm
  · intro c' hcount
    simp only [setCond]
    by_cases hc : c' = c
    · subst hc
      simpa [hseq] using hcount
    · simpa [hc] using hcount

omit [DecidableEq T] [DecidableEq M] [Fintype T] in
theorem frame_bump (c : C) : Frame t s (s.bump c) := by
  refine ⟨fun _ _ => rfl, fun _ _ => rfl, fun _ _ => rfl, fun _ _ _ h => h, ?_,
    fun _ _ _ h => Or.inl h, rfl, ?_, ?_, fun _ => rfl⟩
  · intro c' m hm
    simp only [bump]
    by_cases hc : c' = c
    · subst hc
      simpa using hm
    · simpa [hc] using hm
  · intro c'
    simp only [bump]
    by_cases hc : c' = c
    · subst hc
      simp
    · simp [hc]
  · intro c' hcount
    simp only [bump]
    by_cases hc : c' = c
    · subst hc
      simp [hcount, BitVec.ofNat_add]
    · simpa [hc] using hcount

end Frames

/-- A wake-up only ends sleeps. -/
theorem frame_wake {a : FutexAddr M C} {pick : Option T} (h : s.wake a pick = some s') :
    Frame t s s' := by
  rcases wake_cases h with ⟨w, -, rfl⟩ | ⟨-, rfl⟩
  · refine ⟨fun _ _ => rfl, fun _ _ => rfl, fun _ _ => rfl, ?_, fun _ _ h => h, ?_, rfl,
      fun _ => le_rfl, fun _ h => h, fun _ => rfl⟩
    · intro u _ c hc
      by_cases hu : u = w
      · simp [hu] at hc
      · simpa [hu] using hc
    · intro u _ m hm
      by_cases hu : u = w
      · simp [hu] at hm
      · exact Or.inl (by simpa [hu] using hm)
  · constructor <;> simp +contextual

/-- A wake-up does not put its caller to sleep. -/
theorem wake_asleep {a : FutexAddr M C} {pick : Option T} (h : s.wake a pick = some s')
    (hasleep : s.asleep t = none) : s'.asleep t = none := by
  rcases wake_cases h with ⟨w, hw, rfl⟩ | ⟨-, rfl⟩
  · have hne : t ≠ w := by
      rintro rfl
      simp [hasleep] at hw
    simpa [hne] using hasleep
  · exact hasleep

/-- A requeue does not put its caller to sleep. -/
theorem requeue_asleep {c : C} {m : M} {pick : Option T} (h : s.requeue c m pick = some s')
    (hasleep : s.asleep t = none) : s'.asleep t = none := by
  rcases requeue_cases h with ⟨w, -, rfl⟩ | ⟨-, rfl⟩
  · simp [hasleep]
  · exact hasleep

/-- A requeue only ends sleeps on the sequence number, or moves them to the bound mutex. -/
theorem frame_requeue {c : C} {m : M} {pick : Option T} (h : s.requeue c m pick = some s')
    (hbound : (s.cond c).m = some m) : Frame t s s' := by
  rcases requeue_cases h with ⟨w, -, rfl⟩ | ⟨-, rfl⟩
  · refine ⟨fun _ _ => rfl, fun _ _ => rfl, fun _ _ => rfl, ?_, fun _ _ h => h, ?_, rfl,
      fun _ => le_rfl, fun _ h => h, fun _ => rfl⟩
    · intro u _ c' hc'
      by_cases hu : u = w
      · simp [hu] at hc'
      · by_cases hseq : s.asleep u = some (.seq c)
        · simp [hu, hseq] at hc'
        · simpa [hu, hseq] using hc'
    · intro u _ m' hm'
      by_cases hu : u = w
      · simp [hu] at hm'
      · by_cases hseq : s.asleep u = some (.seq c)
        · simp only [hu, hseq, if_false, if_true, Option.some.injEq, FutexAddr.word.injEq] at hm'
          exact Or.inr ⟨c, hseq, hm' ▸ hbound⟩
        · exact Or.inl (by simpa [hu, hseq] using hm')
  · constructor <;> simp +contextual

/-- An access to a mutex stays within the frame of its thread. -/
theorem frame_commit {P : Type*} {m : M} {pick : Option T} {embed : P → Point M C}
    {taken failed ended : Point M C} {result : Mutex × Outcome P}
    (h : s.commit t m pick embed taken failed ended result = some s') : Frame t s s' := by
  obtain ⟨x, outcome⟩ := result
  have hmutex := frame_setMutex s t m x
  cases outcome with
  | goto p | fail | done =>
    cases h
    exact hmutex.trans (frame_goto _ t _)
  | mark p =>
    cases h
    exact (hmutex.trans (frame_markWaiter _ t)).trans (frame_goto _ t _)
  | sleep p =>
    cases h
    exact (hmutex.trans (frame_setAsleep _ t _)).trans (frame_goto _ t _)
  | take =>
    cases h
    exact (hmutex.trans (frame_setHolds _ t m true)).trans (frame_goto _ t _)
  | free p =>
    cases p <;> cases h <;>
      exact (hmutex.trans (frame_setHolds _ t m false)).trans (frame_goto _ t _)
  | wake =>
    simp only [commit, Option.map_eq_some_iff] at h
    obtain ⟨s₁, hwake, rfl⟩ := h
    exact (hmutex.trans (frame_wake hwake)).trans (frame_goto _ t _)

/-- Every access stays within the frame of its thread. -/
theorem frame_access (hcoh : s.Coherent) (h : s.access t input = some s') : Frame t s s' := by
  cases hp : s.point t with
  | outside last => simp [access, hp] at h
  | lock m p | trylock m | unlock m after p | retake c m abstime code p =>
    simp only [access, hp] at h
    exact frame_commit h
  | bind c m abstime p =>
    simp only [access, hp] at h
    have hcond : Frame t s (s.setCond c (bindCond m (s.cond c) p).1) :=
      frame_setCond s t (fun m' hm' => bindCond_m p m' hm') (bindCond_seq p)
    split at h <;> cases h
    · exact (hcond.trans (frame_setTicket _ t _)).trans (frame_goto _ t _)
    · exact hcond.trans (frame_goto _ t _)
    · exact hcond.trans (frame_goto _ t _)
  | clock c m seq abstime | reclock c m abstime =>
    simp only [access, hp, Option.some.injEq] at h
    exact h ▸ frame_goto s t _
  | wait c m seq abstime rt =>
    simp only [access, hp, Option.some.injEq] at h
    subst h
    split
    · exact (frame_goto s t _).trans (frame_setAsleep _ t _)
    · exact frame_goto s t _
  | signalAdd c | broadcastAdd c m =>
    simp only [access, hp, Option.some.injEq] at h
    exact h ▸ (frame_bump s t c).trans (frame_goto _ t _)
  | signalWake c =>
    simp only [access, hp, Option.map_eq_some_iff] at h
    obtain ⟨s₁, hwake, rfl⟩ := h
    exact (frame_wake hwake).trans (frame_goto _ t _)
  | broadcastLoad c =>
    simp only [access, hp] at h
    split at h <;> cases h <;> exact frame_goto s t _
  | broadcastRequeue c m =>
    simp only [access, hp, Option.map_eq_some_iff] at h
    obtain ⟨s₁, hrequeue, rfl⟩ := h
    have hbound := hcoh.binding t c m (by rw [hp]; rfl)
    exact (frame_requeue hrequeue hbound).trans (frame_goto _ t _)

/-! ## Accesses to a mutex -/

section Commit

variable {P : Type*} {m : M} {pick : Option T} {embed : P → Point M C}
  {taken failed ended : Point M C} {result : Mutex × Outcome P}

/-- An access to a mutex writes the record of that mutex and no condition variable. -/
theorem commit_memory (h : s.commit t m pick embed taken failed ended result = some s') :
    s'.mutex = Function.update s.mutex m result.1 ∧ s'.cond = s.cond := by
  obtain ⟨x, outcome⟩ := result
  cases outcome with
  | free p => cases p <;> cases h <;> exact ⟨rfl, rfl⟩
  | wake =>
    simp only [commit, Option.map_eq_some_iff] at h
    obtain ⟨s₁, hwake, rfl⟩ := h
    rcases wake_cases hwake with ⟨w, -, rfl⟩ | ⟨-, rfl⟩ <;> exact ⟨rfl, rfl⟩
  | _ => cases h; exact ⟨rfl, rfl⟩

/-- An access to a mutex puts its thread to sleep on that mutex at most. -/
theorem commit_asleep (h : s.commit t m pick embed taken failed ended result = some s')
    (hasleep : s.asleep t = none) (c : C) : s'.asleep t ≠ some (.seq c) := by
  obtain ⟨x, outcome⟩ := result
  cases outcome with
  | free p => cases p <;> cases h <;> simp [hasleep]
  | wake =>
    simp only [commit, Option.map_eq_some_iff] at h
    obtain ⟨s₁, hwake, rfl⟩ := h
    simp [wake_asleep hwake hasleep]
  | _ => cases h; simp [hasleep]

/-- An access to a mutex puts its thread to sleep on the word of that mutex only. -/
theorem commit_parked {m' : M} (h : s.commit t m pick embed taken failed ended result = some s')
    (hasleep : s.asleep t = none) (hparked : s'.asleep t = some (.word m')) :
    m' = m ∧ ∃ p, s'.point t = embed p := by
  obtain ⟨x, outcome⟩ := result
  cases outcome with
  | sleep p =>
    cases h
    exact ⟨by simpa using hparked.symm, p, by simp⟩
  | free p => cases p <;> cases h <;> simp [hasleep] at hparked
  | wake =>
    simp only [commit, Option.map_eq_some_iff] at h
    obtain ⟨s₁, hwake, rfl⟩ := h
    simp [wake_asleep hwake hasleep] at hparked
  | _ => cases h; simp [hasleep] at hparked

/-- After an access to a mutex the thread is at an end of the function or at another of its
points, and only a release takes something from what it holds. -/
theorem commit_point (h : s.commit t m pick embed taken failed ended result = some s') :
    (s'.point t = taken ∨ s'.point t = failed ∨ s'.point t = ended) ∨
      ∃ p, s'.point t = embed p ∧ (result.2 = .free (some p) ∨
        s'.holds t = s.holds t ∧
          (result.2 = .goto p ∨ result.2 = .mark p ∨ result.2 = .sleep p)) := by
  obtain ⟨x, outcome⟩ := result
  cases outcome with
  | goto p =>
    cases h
    exact Or.inr ⟨p, by simp, Or.inr ⟨rfl, Or.inl rfl⟩⟩
  | mark p =>
    cases h
    exact Or.inr ⟨p, by simp, Or.inr ⟨rfl, Or.inr (Or.inl rfl)⟩⟩
  | sleep p =>
    cases h
    exact Or.inr ⟨p, by simp, Or.inr ⟨rfl, Or.inr (Or.inr rfl)⟩⟩
  | free p =>
    cases p with
    | some p =>
      cases h
      exact Or.inr ⟨p, by simp, Or.inl rfl⟩
    | none =>
      cases h
      exact Or.inl (by simp)
  | wake =>
    simp only [commit, Option.map_eq_some_iff] at h
    obtain ⟨s₁, hwake, rfl⟩ := h
    exact Or.inl (by simp)
  | take | fail | done =>
    cases h
    exact Or.inl (by simp)

end Commit

/-! ## The memory that an access writes -/

/-- The record that the next access of a thread writes to a mutex. -/
inductive MutexWrite (s : State T M C) (t : T) (ticks : BitVec 64) (m : M) : Mutex → Prop where
  | lock {p : LockPoint} (hp : s.point t = .lock m p) :
      MutexWrite s t ticks m (htllMutexLock (s.tls t).curSegmentId ticks (s.mutex m) p).1
  | trylock (hp : s.point t = .trylock m) :
      MutexWrite s t ticks m (htllMutexTrylock (s.mutex m)).1
  | unlock {after : After C} {p : UnlockPoint} (hp : s.point t = .unlock m after p) :
      MutexWrite s t ticks m (htllMutexUnlock (s.mutex m) p).1
  | retake {c : C} {abstime : Option Timespec} {code : ℤ} {p : RetakePoint}
      (hp : s.point t = .retake c m abstime code p) :
      MutexWrite s t ticks m (retakeMutex (s.mutex m) p).1

/-- What an access writes to the mutexes and condition variables. -/
inductive Writes (s : State T M C) (t : T) (ticks : BitVec 64) (s' : State T M C) : Prop where
  | nothing (hmutex : s'.mutex = s.mutex) (hcond : s'.cond = s.cond)
  | mutex (m : M) (x : Mutex) (hwrite : MutexWrite s t ticks m x)
      (hmutex : s'.mutex = Function.update s.mutex m x) (hcond : s'.cond = s.cond)
  | bind (c : C) (m : M) (abstime : Option Timespec) (p : BindPoint)
      (hp : s.point t = .bind c m abstime p) (hmutex : s'.mutex = s.mutex)
      (hcond : s'.cond = Function.update s.cond c (bindCond m (s.cond c) p).1)
  | bump (c : C) (hmutex : s'.mutex = s.mutex)
      (hcond : s'.cond = Function.update s.cond c { s.cond c with seq := (s.cond c).seq + 1 })

/-- A function of the lock interface writes the record of its mutex. -/
theorem commit_writes {P : Type*} {m : M} {pick : Option T} {embed : P → Point M C}
    {taken failed ended : Point M C} {ticks : BitVec 64} {result : Mutex × Outcome P}
    (h : s.commit t m pick embed taken failed ended result = some s')
    (hwrite : MutexWrite s t ticks m result.1) : Writes s t ticks s' :=
  .mutex m result.1 hwrite (commit_memory h).1 (commit_memory h).2

/-- Every access. -/
theorem writes_access (h : s.access t input = some s') : Writes s t input.ticks s' := by
  cases hp : s.point t with
  | outside last => simp [access, hp] at h
  | lock m p =>
    simp only [access, hp] at h
    exact commit_writes h (.lock hp)
  | trylock m =>
    simp only [access, hp] at h
    exact commit_writes h (.trylock hp)
  | unlock m after p =>
    simp only [access, hp] at h
    exact commit_writes h (.unlock hp)
  | retake c m abstime code p =>
    simp only [access, hp] at h
    exact commit_writes h (.retake hp)
  | bind c m abstime p =>
    simp only [access, hp] at h
    split at h <;> cases h <;> exact .bind c m abstime p hp rfl rfl
  | clock | reclock =>
    simp only [access, hp, Option.some.injEq] at h
    subst h
    exact .nothing rfl rfl
  | wait c m seq abstime rt =>
    simp only [access, hp, Option.some.injEq] at h
    subst h
    split <;> exact .nothing rfl rfl
  | signalAdd c | broadcastAdd c m =>
    simp only [access, hp, Option.some.injEq] at h
    subst h
    exact .bump c rfl rfl
  | broadcastLoad c =>
    simp only [access, hp] at h
    split at h <;> cases h <;> exact .nothing rfl rfl
  | signalWake c =>
    simp only [access, hp, Option.map_eq_some_iff] at h
    obtain ⟨s₁, hwake, rfl⟩ := h
    rcases wake_cases hwake with ⟨w, -, rfl⟩ | ⟨-, rfl⟩ <;> exact .nothing rfl rfl
  | broadcastRequeue c m =>
    simp only [access, hp, Option.map_eq_some_iff] at h
    obtain ⟨s₁, hrequeue, rfl⟩ := h
    rcases requeue_cases hrequeue with ⟨w, -, rfl⟩ | ⟨-, rfl⟩ <;> exact .nothing rfl rfl

/-! ## Every action -/

/-- What an action of a thread can be: the beginning of a call, an access, the end of a sleep, or
a change of thread-local state by the segment interface. -/
theorem step_cases {a : Action T M C} (h : s.step a = some s') :
    (∃ t call last, a = .call t call ∧ s.point t = .outside last ∧ s.asleep t = none ∧
      (∀ m ∈ call.held, s.holds t m = true) ∧
      s' = { s.goto t call.entry with calls := Function.update s.calls t (s.calls t + 1) }) ∨
    (∃ t input, a = .access t input ∧ s.asleep t = none ∧ s.access t input = some s') ∨
    (∃ t, a = .unpark t ∧ s' = s.setAsleep t none) ∨
    ∃ tls, s' = { s with tls } ∧ ∃ t result, tls = Function.update s.tls t result.2 ∧
      ((∃ segmentId ticks, a = .segmentStart t segmentId ticks ∧
          segmentStart (s.tls t) segmentId ticks = some result) ∨
        ∃ segmentId requiredLatency ticks, a = .segmentEnd t segmentId requiredLatency ticks ∧
          segmentEnd (s.tls t) segmentId requiredLatency ticks = some result) := by
  cases a with
  | call t call =>
    simp only [step] at h
    split at h
    · rename_i last hp
      obtain ⟨⟨hasleep, hheld⟩, heq⟩ := Option.ite_none_right_eq_some.mp h
      exact Or.inl ⟨t, call, last, rfl, hp, hasleep, hheld, (Option.some.inj heq).symm⟩
    · cases h
  | access t input =>
    obtain ⟨hasleep, h⟩ := Option.ite_none_right_eq_some.mp h
    exact Or.inr (Or.inl ⟨t, input, rfl, hasleep, h⟩)
  | unpark t =>
    obtain ⟨-, h⟩ := Option.ite_none_left_eq_some.mp h
    exact Or.inr (Or.inr (Or.inl ⟨t, rfl, (Option.some.inj h).symm⟩))
  | segmentStart t segmentId ticks =>
    simp only [step] at h
    split at h
    · obtain ⟨result, hresult, rfl⟩ := Option.map_eq_some_iff.mp h
      exact Or.inr (Or.inr (Or.inr
        ⟨_, rfl, t, result, rfl, Or.inl ⟨segmentId, ticks, rfl, hresult⟩⟩))
    · cases h
  | segmentEnd t segmentId requiredLatency ticks =>
    simp only [step] at h
    split at h
    · obtain ⟨result, hresult, rfl⟩ := Option.map_eq_some_iff.mp h
      exact Or.inr (Or.inr (Or.inr
        ⟨_, rfl, t, result, rfl, Or.inr ⟨segmentId, requiredLatency, ticks, rfl, hresult⟩⟩))
    · cases h

/-- A thread inside a call only moves by its own accesses. -/
theorem access_of_moved (hcoh : s.Coherent) {a : Action T M C} (h : s.step a = some s')
    (hinside : ∀ last, s.point t ≠ .outside last) (hmoved : s'.point t ≠ s.point t) :
    ∃ input, a = .access t input ∧ s.asleep t = none ∧ s.access t input = some s' := by
  rcases step_cases h with ⟨u, call, last, -, hp, -, -, rfl⟩ | ⟨u, input, ha, hasleep, h⟩ |
    ⟨u, -, rfl⟩ | ⟨tls, rfl, -⟩
  · have hne : t ≠ u := by
      rintro rfl
      exact hinside last hp
    exact absurd (by simp [hne]) hmoved
  · by_cases hu : t = u
    · subst hu
      exact ⟨input, ha, hasleep, h⟩
    · exact absurd ((frame_access hcoh h).point t hu) hmoved
  · exact absurd rfl hmoved
  · exact absurd rfl hmoved

end State

end Htll
