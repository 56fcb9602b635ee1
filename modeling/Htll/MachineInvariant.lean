import Htll.MachineFrame

/-!
# Coherence of the machine along every run

By the frame of an access, coherence only has to be checked for the words and for the thread
that moved.
-/

namespace Htll

open ParkingLock Transition

namespace State

variable {T M C : Type*} [DecidableEq T] [DecidableEq M] [DecidableEq C] [Fintype T]
  {s s' : State T M C} {t : T} {input : Input T}

/-! ## The thread that moved -/

/-- What coherence demands of the thread that moved. -/
structure Settled (t : T) (s : State T M C) : Prop where
  holding : ∀ m, (s.point t).holding = some m → s.holds t m = true
  binding : ∀ c m, (s.point t).binding = some (c, m) → (s.cond c).m = some m
  sleeping : ∀ c, s.asleep t = some (.seq c) → ∃ m abstime, s.point t = afterWait c m abstime
  parked : ∀ m, s.asleep t = some (.word m) → (s.point t).mutex = some m

omit [DecidableEq C] [Fintype T] [DecidableEq T] in
/-- Within the frame of a thread, coherence is a matter of the words and of that thread. -/
theorem Coherent.of_frame (hcoh : s.Coherent) (hframe : Frame t s s') (hsettled : Settled t s')
    (hword : ∀ m, ∃ locked contended, (s'.mutex m).u = wordOf locked contended) : s'.Coherent where
  word m := by
    obtain ⟨locked, contended, hu⟩ := hword m
    simp only [view, hu, isLocked_wordOf, isContended_wordOf]
  holding u m hm := by
    by_cases hu : u = t
    · exact hsettled.holding m (hu ▸ hm) |> (hu ▸ ·)
    · rw [hframe.holds u hu]
      exact hcoh.holding u m (by rwa [hframe.point u hu] at hm)
  binding u c m hm := by
    by_cases hu : u = t
    · exact hsettled.binding c m (hu ▸ hm)
    · exact hframe.bound c m (hcoh.binding u c m (by rwa [hframe.point u hu] at hm))
  sleeping u c hc := by
    by_cases hu : u = t
    · rw [hu]
      exact hsettled.sleeping c (hu ▸ hc)
    · rw [hframe.point u hu]
      exact hcoh.sleeping u c (hframe.asleep u hu c hc)
  parked u m hm := by
    by_cases hu : u = t
    · rw [hu]
      exact hsettled.parked m (hu ▸ hm)
    · rw [hframe.point u hu]
      rcases hframe.requeued u hu m hm with hword | ⟨c, hseq, hbound⟩
      · exact hcoh.parked u m hword
      · obtain ⟨m', abstime, hpoint⟩ := hcoh.sleeping u c hseq
        have hsame : (s.cond c).m = some m' :=
          hcoh.binding u c m' (by rw [hpoint]; cases abstime <;> rfl)
        rw [hframe.bound c m' hsame] at hbound
        rw [hpoint, ← hbound]
        cases abstime <;> rfl

section Commit

variable {P : Type*} {m : M} {pick : Option T} {embed : P → Point M C}
  {taken failed ended : Point M C} {result : Mutex × Outcome P}

/-- A thread that gains no claim to the mutex by an access is settled after it. -/
theorem settled_commit (h : s.commit t m pick embed taken failed ended result = some s')
    (hasleep : s.asleep t = none)
    (hends : ∀ q, q = taken ∨ q = failed ∨ q = ended →
      q.holding = none ∧ ∀ c m, q.binding = some (c, m) → (s.cond c).m = some m)
    (hbinding : ∀ p c m, (embed p).binding = some (c, m) → (s.cond c).m = some m)
    (hholding : ∀ p m', (embed p).holding = some m' →
      result.2 ≠ .free (some p) ∧
        (result.2 = .goto p ∨ result.2 = .mark p ∨ result.2 = .sleep p → s.holds t m' = true))
    (hmutex : ∀ p, (embed p).mutex = some m) : Settled t s' := by
  refine ⟨?_, ?_, fun c hc => absurd hc (commit_asleep h hasleep c), ?_⟩
  · intro m' hm'
    rcases commit_point h with hend | ⟨p, hpoint, hhow⟩
    · rw [(hends _ hend).1] at hm'
      cases hm'
    · rw [hpoint] at hm'
      rcases hhow with hfree | ⟨hsame, hgoto⟩
      · exact absurd hfree (hholding p m' hm').1
      · rw [hsame]
        exact (hholding p m' hm').2 hgoto
  · intro c m' hm'
    rw [(commit_memory h).2]
    rcases commit_point h with hend | ⟨p, hpoint, -⟩
    · exact (hends _ hend).2 c m' hm'
    · exact hbinding p c m' (hpoint ▸ hm')
  · intro m' hm'
    obtain ⟨rfl, p, hpoint⟩ := commit_parked h hasleep hm'
    rw [hpoint]
    exact hmutex p

end Commit

omit [DecidableEq T] [DecidableEq M] [DecidableEq C] [Fintype T] in
/-- An awake thread is settled as far as its mutexes are. -/
theorem settled_of_awake (hasleep : s.asleep t = none)
    (hholding : ∀ m, (s.point t).holding = some m → s.holds t m = true)
    (hbinding : ∀ c m, (s.point t).binding = some (c, m) → (s.cond c).m = some m) :
    Settled t s := by
  refine ⟨hholding, hbinding, ?_, ?_⟩ <;> simp [hasleep]

omit [DecidableEq T] [DecidableEq M] [DecidableEq C] [Fintype T] in
/-- A thread outside calls and awake is settled. -/
theorem settled_of_idle (hholding : (s.point t).holding = none)
    (hbinding : (s.point t).binding = none) (hasleep : s.asleep t = none) : Settled t s := by
  constructor <;> simp [hholding, hbinding, hasleep]

omit [DecidableEq T] [DecidableEq M] [DecidableEq C] [Fintype T] in
/-- An awake thread at a point that relies on one binding is settled if that one is there. -/
theorem settled_of_bound {c : C} {m : M} (hasleep : s.asleep t = none)
    (hholding : (s.point t).holding = none) (hbinding : (s.point t).binding = some (c, m))
    (hbound : (s.cond c).m = some m) : Settled t s := by
  refine settled_of_awake hasleep (fun m' hm' => ?_) fun c' m' hb => ?_
  · rw [hholding] at hm'
    cases hm'
  · rw [hbinding] at hb
    cases hb
    exact hbound

/-- The thread is settled after an access of `htll_mutex_unlock`. -/
theorem settled_unlock (hcoh : s.Coherent) (hasleep : s.asleep t = none) {m : M} {after : After C}
    {p : UnlockPoint} (hp : s.point t = .unlock m after p) (h : s.access t input = some s') :
    Settled t s' := by
  simp only [access, hp] at h
  have hbound : ∀ c m', (Point.unlock m after p).binding = some (c, m') →
      (s.cond c).m = some m' := fun c m' hb => hcoh.binding t c m' (by rw [hp]; exact hb)
  have hend : (after.point m : Point M C).holding = none ∧
      ∀ c m', (after.point m : Point M C).binding = some (c, m') → (s.cond c).m = some m' := by
    rcases after with _ | ⟨c, seq, _ | abstime⟩
    · exact ⟨rfl, fun _ _ hb => by cases hb⟩
    · exact ⟨rfl, hbound⟩
    · exact ⟨rfl, hbound⟩
  refine settled_commit h hasleep ?_ ?_ ?_ (fun _ => rfl)
  · rintro q (rfl | rfl | rfl) <;> exact hend
  · intro p' c m' hb
    exact hbound c m' (by cases after <;> exact hb)
  · intro p' m' hh
    have hhold : p'.holding = true ∧ m = m' := by simpa [Point.holding] using hh
    obtain ⟨hhold, rfl⟩ := hhold
    refine ⟨fun hfree => ?_, fun hgoto => ?_⟩
    · rw [htllMutexUnlock_free_holding hfree] at hhold
      cases hhold
    · rcases hgoto with hgoto | hmark | hsleep
      · have hbefore := htllMutexUnlock_goto_holding hgoto hhold
        exact hcoh.holding t m (by rw [hp]; exact if_pos hbefore)
      · exact absurd hmark htllMutexUnlock_awake.2
      · exact absurd hsleep htllMutexUnlock_awake.1

/-- The thread is settled after an access of the binding. -/
theorem settled_bind (hcoh : s.Coherent) (hasleep : s.asleep t = none) {c : C} {m : M}
    {abstime : Option Timespec} {p : BindPoint} (hp : s.point t = .bind c m abstime p)
    (h : s.access t input = some s') : Settled t s' := by
  have hholds := hcoh.holding t m (by rw [hp]; rfl)
  simp only [access, hp] at h
  split at h
  · cases h
    refine settled_of_awake hasleep (fun m' hm' => ?_) fun _ _ hb => ?_
    · have hm : m = m' := by simpa [Point.holding] using hm'
      simpa [← hm] using hholds
    · simp [Point.binding] at hb
  · cases h
    exact settled_of_idle (by simp [Point.holding]) (by simp [Point.binding]) hasleep
  · rename_i seq hbound
    cases h
    refine settled_of_awake hasleep (fun m' hm' => ?_) fun c' m' hb => ?_
    · have hm : m = m' := by simpa [Point.holding, UnlockPoint.holding] using hm'
      simpa [← hm] using hholds
    · have hc : c = c' ∧ m = m' := by simpa [Point.binding] using hb
      obtain ⟨rfl, rfl⟩ := hc
      simpa using bindCond_bound hbound

/-- Asleep or not, the thread goes on behind `FUTEX_WAIT`. -/
theorem wait_access {c : C} {m : M} {seq : BitVec 32} {abstime rt : Option Timespec}
    (hp : s.point t = .wait c m seq abstime rt) (h : s.access t input = some s') :
    s'.point t = afterWait c m abstime := by
  simp only [access, hp, Option.some.injEq] at h
  subst h
  split <;> simp

/-- The thread is settled after `FUTEX_WAIT` on the sequence number. -/
theorem settled_wait (hcoh : s.Coherent) (hasleep : s.asleep t = none) {c : C} {m : M}
    {seq : BitVec 32} {abstime rt : Option Timespec} (hp : s.point t = .wait c m seq abstime rt)
    (h : s.access t input = some s') : Settled t s' := by
  have hbound := hcoh.binding t c m (by rw [hp]; rfl)
  have hpoint := wait_access hp h
  simp only [access, hp, Option.some.injEq] at h
  refine ⟨fun m' hm' => ?_, fun c' m' hb => ?_, fun c' hc' => ?_, fun m' hm' => ?_⟩
  · rw [hpoint] at hm'
    cases abstime <;> cases hm'
  · have hc : c = c' ∧ m = m' := by
      rw [hpoint] at hb
      cases abstime <;> simpa [afterWait, Point.binding] using hb
    obtain ⟨rfl, rfl⟩ := hc
    have hcond : s'.cond = s.cond := by
      subst h
      split <;> simp [funext_iff]
    rw [hcond]
    exact hbound
  · have hc : c' = c := by
      subst h
      split at hc'
      · simpa using hc'.symm
      · simp [hasleep] at hc'
    exact ⟨m, abstime, hc ▸ hpoint⟩
  · subst h
    split at hm'
    · simp at hm'
    · simp [hasleep] at hm'

/-- The thread that made an access is settled. -/
theorem settled_access (hcoh : s.Coherent) (hasleep : s.asleep t = none)
    (h : s.access t input = some s') : Settled t s' := by
  cases hp : s.point t with
  | outside last => simp [access, hp] at h
  | lock m p | trylock m =>
    simp only [access, hp] at h
    refine settled_commit h hasleep ?_ (fun _ _ _ hb => by cases hb) (fun _ _ hh => by cases hh)
      (fun _ => rfl)
    rintro q (rfl | rfl | rfl) <;> exact ⟨rfl, fun _ _ hb => by cases hb⟩
  | retake c m abstime code p =>
    simp only [access, hp] at h
    refine settled_commit h hasleep ?_ ?_ (fun _ _ hh => by cases hh) (fun _ => rfl)
    · rintro q (rfl | rfl | rfl) <;> exact ⟨rfl, fun _ _ hb => by cases hb⟩
    · intro _ c' m' hb
      exact hcoh.binding t c' m' (by rw [hp]; exact hb)
  | unlock m after p => exact settled_unlock hcoh hasleep hp h
  | bind c m abstime p => exact settled_bind hcoh hasleep hp h
  | clock c m seq abstime =>
    have hbound := hcoh.binding t c m (by rw [hp]; rfl)
    simp only [access, hp, Option.some.injEq] at h
    subst h
    refine settled_of_bound hasleep ?_ ?_ hbound
    · simp only [goto, Function.update_self, afterClock]
      split <;> rfl
    · simp only [goto, Function.update_self, afterClock]
      split <;> rfl
  | wait c m seq abstime rt => exact settled_wait hcoh hasleep hp h
  | reclock c m abstime =>
    have hbound := hcoh.binding t c m (by rw [hp]; rfl)
    simp only [access, hp, Option.some.injEq] at h
    subst h
    exact settled_of_bound hasleep (by simp [Point.holding]) (by simp [Point.binding]) hbound
  | signalAdd c =>
    simp only [access, hp, Option.some.injEq] at h
    subst h
    exact settled_of_idle (by simp [Point.holding]) (by simp [Point.binding]) hasleep
  | signalWake c =>
    simp only [access, hp, Option.map_eq_some_iff] at h
    obtain ⟨s₁, hwake, rfl⟩ := h
    have hnone := wake_asleep hwake hasleep
    exact settled_of_idle (by simp [Point.holding]) (by simp [Point.binding]) hnone
  | broadcastLoad c =>
    simp only [access, hp] at h
    split at h
    · cases h
      exact settled_of_idle (by simp [Point.holding]) (by simp [Point.binding]) hasleep
    · rename_i m hm
      cases h
      exact settled_of_bound hasleep (by simp [Point.holding]) (by simp [Point.binding]) hm
  | broadcastAdd c m =>
    have hbound := hcoh.binding t c m (by rw [hp]; rfl)
    simp only [access, hp, Option.some.injEq] at h
    subst h
    have hkept : ((s.bump c).cond c).m = some m := by simpa using hbound
    exact settled_of_bound hasleep (by simp [Point.holding]) (by simp [Point.binding]) hkept
  | broadcastRequeue c m =>
    simp only [access, hp, Option.map_eq_some_iff] at h
    obtain ⟨s₁, hrequeue, rfl⟩ := h
    have hnone := requeue_asleep hrequeue hasleep
    exact settled_of_idle (by simp [Point.holding]) (by simp [Point.binding]) hnone

/-! ## The words -/

/-- A thread alone with the lock, to read off what an access leaves in the word. -/
def solo (locked contended : Bool) (role : Role) : ParkingLock.State Unit :=
  { locked, contended, holds := fun _ => true, role := fun _ => role, place := fun _ => .awake }

/-- The word of a mutex has one of its four values. -/
def WordOk (x : Mutex) : Prop := ∃ locked contended, x.u = wordOf locked contended

theorem htllMutexLock_wordOk {x : Mutex} (hx : WordOk x) (curSegmentId : ℤ) (ticks : BitVec 64)
    (p : LockPoint) : WordOk (htllMutexLock curSegmentId ticks x p).1 := by
  obtain ⟨locked, contended, hu⟩ := hx
  obtain ⟨l, c, hword, -⟩ := htllMutexLock_sound (s := solo locked contended p.role) (t := ())
    curSegmentId ticks p hu rfl rfl
  exact ⟨l, c, hword⟩

theorem htllMutexTrylock_wordOk {x : Mutex} (hx : WordOk x) : WordOk (htllMutexTrylock x).1 := by
  obtain ⟨locked, contended, hu⟩ := hx
  obtain ⟨l, c, hword, -⟩ := htllMutexTrylock_sound (s := solo locked contended .neutral) (t := ())
    hu rfl rfl
  exact ⟨l, c, hword⟩

theorem retakeMutex_wordOk {x : Mutex} (hx : WordOk x) (p : RetakePoint) :
    WordOk (retakeMutex x p).1 := by
  obtain ⟨locked, contended, hu⟩ := hx
  obtain ⟨l, c, hword, -⟩ := retakeMutex_sound (s := solo locked contended p.role) (t := ())
    p hu rfl rfl
  exact ⟨l, c, hword⟩

theorem htllMutexUnlock_wordOk {x : Mutex} (hx : WordOk x) (p : UnlockPoint) :
    WordOk (htllMutexUnlock x p).1 := by
  by_cases hp : p = .wake
  · exact hp ▸ hx
  · obtain ⟨locked, contended, hu⟩ := hx
    obtain ⟨l, c, hword, -⟩ := htllMutexUnlock_sound (s := solo locked contended p.role) (t := ())
      p hu rfl rfl (fun _ => rfl) hp
    exact ⟨l, c, hword⟩

/-- Every access leaves the words with their four values. -/
theorem wordOk_access (hs : ∀ m, WordOk (s.mutex m)) (h : s.access t input = some s') (m : M) :
    WordOk (s'.mutex m) := by
  cases writes_access h with
  | nothing hmutex | bind _ _ _ _ _ hmutex | bump _ hmutex =>
    rw [hmutex]
    exact hs m
  | mutex m' x hwrite hmutex =>
    have hx : WordOk x := by
      cases hwrite with
      | lock => exact htllMutexLock_wordOk (hs m') _ _ _
      | trylock => exact htllMutexTrylock_wordOk (hs m')
      | unlock => exact htllMutexUnlock_wordOk (hs m') _
      | retake => exact retakeMutex_wordOk (hs m') _
    rw [hmutex]
    by_cases hm : m = m'
    · subst hm
      simpa using hx
    · simpa [hm] using hs m

/-! ## Every action -/

/-- Every action keeps the machine coherent. -/
theorem Coherent.step (hcoh : s.Coherent) {a : Action T M C} (h : s.step a = some s') :
    s'.Coherent := by
  have hwords : ∀ m, WordOk (s.mutex m) := fun m => ⟨_, _, hcoh.word m⟩
  rcases step_cases h with ⟨t, call, last, -, hp, hasleep, hheld, rfl⟩ |
    ⟨t, input, -, hasleep, h⟩ | ⟨t, -, rfl⟩ | ⟨tls, rfl, -⟩
  · have hgoto : (s.goto t call.entry).Coherent := by
      refine hcoh.of_frame (frame_goto s t _) (settled_of_awake hasleep ?_ ?_) hwords
      · intro m hm
        refine hheld m ?_
        cases call <;> simp_all [Call.entry, Point.holding, Call.held, UnlockPoint.holding]
      · intro c m hm
        cases call <;> simp [Call.entry, Point.binding] at hm
    exact ⟨hgoto.word, hgoto.holding, hgoto.binding, hgoto.sleeping, hgoto.parked⟩
  · exact hcoh.of_frame (frame_access hcoh h) (settled_access hcoh hasleep h)
      (wordOk_access hwords h)
  · exact hcoh.of_frame (frame_setAsleep s t none)
      (settled_of_awake (by simp) (hcoh.holding t) (hcoh.binding t)) hwords
  · exact ⟨hcoh.word, hcoh.holding, hcoh.binding, hcoh.sleeping, hcoh.parked⟩

/-- Every action is at most one step of each parking lock. -/
theorem step_moves (hcoh : s.Coherent) {a : Action T M C} (h : s.step a = some s') (m : M) :
    Moves (s.view m) (s'.view m) := by
  rcases step_cases h with ⟨t, call, last, -, hp, -, -, rfl⟩ |
    ⟨t, input, -, hasleep, h⟩ | ⟨t, -, rfl⟩ | ⟨tls, rfl, -⟩
  · have hview : (s.goto t call.entry).view m = s.view m := by
      refine goto_view ?_
      rw [hp]
      cases call <;> simp [Call.entry, Point.role, LockPoint.role, UnlockPoint.role]
    exact hview ▸ Relation.ReflGen.refl
  · exact access_moves hcoh hasleep h m
  · rw [view_setAsleep]
    exact .single .unpark
  · exact .refl

omit [DecidableEq T] [DecidableEq C] [Fintype T] in
/-- A process begins coherent. -/
theorem Initial.coherent (h : s.Initial) : s.Coherent := by
  obtain ⟨tls, -, rfl⟩ := h
  constructor
  · intro m
    exact (by decide : (0 : BitVec 32) = wordOf (isLocked 0) (isContended 0))
  · intro t m hm
    cases hm
  · intro t c m hm
    cases hm
  · intro t c hc
    cases hc
  · intro t m hm
    cases hm

/-- Every state of every run is coherent. -/
theorem coherent_of_path {guard : State T M C → Action T M C → Prop} (hs : s.Initial)
    (hpath : Path step guard s s') : s'.Coherent :=
  Path.invariant Coherent (fun _ _ _ _ h hcoh => hcoh.step h) hpath hs.coherent

/-- A run of the machine, seen from one mutex, is a run of its parking lock. -/
theorem view_of_path {guard : State T M C → Action T M C → Prop} (hs : s.Initial)
    (hpath : Path step guard s s') (m : M) :
    Relation.ReflTransGen Step (s.view m) (s'.view m) :=
  Path.simulate Coherent (fun s => s.view m) (fun _ _ _ _ h hcoh => hcoh.step h)
    (fun _ _ _ _ h hcoh => (step_moves hcoh h m).to_reflTransGen) hpath hs.coherent

end State

end Htll
