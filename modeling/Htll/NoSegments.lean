import Htll.MachineFlow
import Htll.WakeUp

/-!
# Programs that never open a segment

Without segments every call of `htll_mutex_lock` falls back to the full swap before it sleeps,
so nobody races for a mutex with sleepers and every wake-up is carried. This includes sleepers
that a broadcast moved to the word without marking it: the broadcast wakes one waiter, and that
waiter comes back through the full swap.
-/

namespace Htll

open ParkingLock Transition

/-- A call outside segments, as far as the point shows. -/
def LockPoint.outsideSegments : LockPoint → Bool
  | .entry | .swap | .wait => true
  | .top flag _ | .start flag _ | .spin flag _ _ | .elapsed flag _ _ | .sleep flag _ => flag
  | .park _ | .mark _ => false

/-- A call that began outside segments never enters the segment branch. -/
theorem htllMutexLock_outsideSegments {ticks : BitVec 64} {x : Mutex} {p p' : LockPoint}
    (hp : p.outsideSegments = true) (h : (htllMutexLock (-1) ticks x p).2.next = some p') :
    p'.outsideSegments = true := by
  cases p with
  | entry =>
    cases h
    rfl
  | start flag =>
    cases h
    exact hp
  | top flag | spin flag | elapsed flag | sleep flag =>
    have hflag : flag = true := hp
    subst hflag
    simp only [htllMutexLock] at h
    split at h <;> cases h <;> rfl
  | park | mark => cases hp
  | swap | wait =>
    simp only [htllMutexLock] at h
    split at h <;> cases h <;> rfl

/-- Such a call never races. -/
theorem LockPoint.not_races {p : LockPoint} (hp : p.outsideSegments = true) : p.races = false := by
  cases p with
  | top flag | spin flag => simpa [races, outsideSegments] using hp
  | _ => rfl

/-- Such a call has the full swap ahead or nothing. -/
theorem LockPoint.role_ne_racer {p : LockPoint} (hp : p.outsideSegments = true) :
    p.role ≠ .racer := by
  cases p with
  | top flag | start flag | spin flag | elapsed flag =>
    have hflag : flag = true := hp
    subst hflag
    simp [role]
  | park | mark => cases hp
  | entry | sleep | swap | wait => simp [role]

/-- The unlocker has freed the lock and has not cleared the contended byte. -/
def UnlockPoint.released : UnlockPoint → Bool
  | .check | .recheck | .clear => true
  | _ => false

/-- The unlocker has cleared the contended byte and has not issued `FUTEX_WAKE`. -/
def UnlockPoint.waking : UnlockPoint → Bool
  | .tally | .wake => true
  | _ => false

section Points

variable {M C : Type*} [DecidableEq M] {m : M}

/-- The next access of the thread to the word of the mutex is the swap of 257. -/
def Point.swapsNext (m : M) : Point M C → Prop
  | .lock m' (.sleep _ _) | .lock m' .swap | .reclock _ m' _ | .retake _ m' _ _ .swap
  | .retake _ m' _ _ .mark => m' = m
  | _ => False

/-- Releasing and waking are roles of unlockers. -/
theorem Point.unlock_of_role {q : Point M C} {r : Role} (hr : r = .releaser ∨ r = .waker)
    (h : q.role m = r) : ∃ after p, q = .unlock m after p ∧ p.role = r := by
  have hneutral : Role.neutral ≠ r := by rcases hr with rfl | rfl <;> decide
  cases q with
  | unlock m' after p =>
    by_cases hm : m' = m
    · subst hm
      exact ⟨after, p, rfl, by simpa [role] using h⟩
    · exact absurd (by simpa [role, hm] using h) hneutral
  | lock m' p =>
    subst h
    by_cases hm : m' = m <;> cases p <;> simp [role, LockPoint.role, hm] at hr <;>
      split at hr <;> simp at hr
  | retake c m' abstime code p =>
    subst h
    by_cases hm : m' = m <;> cases p <;> simp [role, RetakePoint.role, hm] at hr
  | reclock c m' abstime =>
    subst h
    by_cases hm : m' = m <;> simp [role, hm] at hr
  | _ => exact absurd h hneutral

/-- A releaser of the parking lock is an unlocker between its release and its decision. -/
theorem Point.releaser_cases {q : Point M C} (h : q.role m = .releaser) :
    ∃ after p, q = .unlock m after p ∧ p.released = true := by
  obtain ⟨after, p, rfl, hp⟩ := Point.unlock_of_role (Or.inl rfl) h
  refine ⟨after, p, rfl, ?_⟩
  cases p <;> first | rfl | cases hp

/-- A waker of the parking lock is an unlocker that has decided to wake. -/
theorem Point.waker_cases {q : Point M C} (h : q.role m = .waker) :
    ∃ after p, q = .unlock m after p ∧ p.waking = true := by
  obtain ⟨after, p, rfl, hp⟩ := Point.unlock_of_role (Or.inr rfl) h
  refine ⟨after, p, rfl, ?_⟩
  cases p <;> first | rfl | cases hp

/-- A taker of the parking lock swaps 257 next. -/
theorem Point.swapsNext_of_taker {q : Point M C} (h : q.role m = .taker) : q.swapsNext m := by
  cases q with
  | unlock m' after p =>
    by_cases hm : m' = m <;> cases p <;> simp [role, UnlockPoint.role, hm] at h
  | lock m' p =>
    by_cases hm : m' = m <;> cases p <;> simp [role, LockPoint.role, hm] at h <;>
      first | exact hm | (split at h <;> cases h)
  | retake c m' abstime code p =>
    by_cases hm : m' = m <;> cases p <;> simp [role, RetakePoint.role, hm] at h <;> exact hm
  | reclock c m' abstime =>
    by_cases hm : m' = m
    · exact hm
    · simp [role, hm] at h
  | _ => cases h

end Points

namespace State

variable {T M C : Type*} [DecidableEq T] [DecidableEq M] [DecidableEq C] [Fintype T]
  {s s' : State T M C} {t : T} {m : M} {input : Input T}

/-- The program opens no segment. -/
def NoSegments (_ : State T M C) : Action T M C → Prop
  | .segmentStart .. => False
  | _ => True

instance (s : State T M C) : DecidablePred (NoSegments s)
  | .segmentStart .. => .isFalse id
  | .call .. | .access .. | .unpark _ | .segmentEnd .. => .isTrue trivial

/-- No segment is open and none was when the current calls began. -/
structure Plain (s : State T M C) : Prop where
  closed : ∀ t, (s.tls t).curSegmentId = -1
  points : ∀ t m p, s.point t = .lock m p → p.outsideSegments = true

omit [DecidableEq T] [DecidableEq M] [DecidableEq C] [Fintype T] in
/-- A thread outside segments stays on the points of a call outside segments. -/
theorem Flow.outsideSegments (hplain : s.Plain) {m : M} {p : LockPoint} {q : Point M C}
    (hflow : Flow s t q) (hq : q = .lock m p) : p.outsideSegments = true := by
  cases hflow with
  | locking hp ticks h =>
    cases hq
    rw [hplain.closed t] at h
    exact htllMutexLock_outsideSegments (hplain.points t _ _ hp) h
  | @unlocked m' after p' hp => rcases after with _ | ⟨c, seq, _ | abstime⟩ <;> cases hq
  | clocked hp rt =>
    simp only [afterClock] at hq
    split at hq <;> cases hq
  | @waited c m' seq abstime rt hp => cases abstime <;> cases hq
  | _ => cases hq

/-- A program without segments stays plain. -/
theorem Plain.step (hcoh : s.Coherent) (hplain : s.Plain) {a : Action T M C}
    (hguard : NoSegments s a) (h : s.step a = some s') : s'.Plain := by
  rcases step_cases h with ⟨t, call, last, -, hp, hasleep, hheld, rfl⟩ |
    ⟨t, input, -, hasleep, h⟩ | ⟨t, -, rfl⟩ | ⟨tls, rfl, t, result, rfl, hsegment⟩
  · refine ⟨hplain.closed, fun u m p hu => ?_⟩
    by_cases hut : u = t
    · subst hut
      simp only [goto, Function.update_self] at hu
      cases call <;> cases hu
      rfl
    · exact hplain.points u m p (by simpa [hut] using hu)
  · have hframe := frame_access hcoh h
    refine ⟨fun u => (hframe.curSegment u).trans (hplain.closed u), fun u m p hu => ?_⟩
    by_cases hut : u = t
    · exact (flow_access h).outsideSegments hplain (hut ▸ hu)
    · exact hplain.points u m p (by rwa [hframe.point u hut] at hu)
  · exact ⟨hplain.closed, hplain.points⟩
  · rcases hsegment with ⟨segmentId, ticks, rfl, -⟩ | ⟨segmentId, requiredLatency, ticks, -, hend⟩
    · exact hguard.elim
    · -- with no open segment the record of the innermost one does not exist
      simp [segmentEnd, hplain.closed t, arrayIndex] at hend

omit [DecidableEq T] [DecidableEq C] [Fintype T] in
/-- A plain thread is no racer. -/
theorem Plain.role_ne_racer (hplain : s.Plain) (t : T) (m : M) : (s.point t).role m ≠ .racer := by
  intro h
  cases hp : s.point t with
  | lock m' p =>
    rw [hp, Point.role] at h
    split at h
    · exact LockPoint.role_ne_racer (hplain.points t m' p hp) h
    · cases h
  | unlock m' after p =>
    by_cases hm : m' = m <;> cases p <;> simp [hp, Point.role, UnlockPoint.role, hm] at h
  | retake c m' abstime code p =>
    by_cases hm : m' = m <;> cases p <;> simp [hp, Point.role, RetakePoint.role, hm] at h
  | reclock c m' abstime => by_cases hm : m' = m <;> simp [hp, Point.role, hm] at h
  | _ => simp [hp, Point.role] at h

omit [DecidableEq T] [DecidableEq C] [Fintype T] in
/-- In a plain state no byte swap can lose a wake-up. -/
theorem Plain.racesKeepHandOff (hplain : s.Plain) (a : Action T M C) : RacesKeepHandOff s a := by
  cases a with
  | access t input =>
    change RaceKeepsHandOff s t (s.point t)
    cases hp : s.point t with
    | lock m p =>
      intro hraces
      rw [LockPoint.not_races (hplain.points t m p hp)] at hraces
      cases hraces
    | _ => trivial
  | _ => trivial

/-- Without segments every state is plain and every wake-up is carried. -/
theorem handOff_of_noSegments (hs : s.Initial) (hpath : Path step NoSegments s s') (m : M) :
    s'.Coherent ∧ s'.Plain ∧ HandOff s' m := by
  refine Path.invariant (fun s => s.Coherent ∧ s.Plain ∧ HandOff s m)
    (fun s a s' hguard h ⟨hcoh, hplain, hhand⟩ =>
      ⟨hcoh.step h, hplain.step hcoh hguard h, hhand.step hcoh (hplain.racesKeepHandOff a) h⟩)
    hpath ⟨hs.coherent, ?_, hs.handOff m⟩
  obtain ⟨tls, hrest, rfl⟩ := hs
  exact ⟨fun t => (hrest t).curSegmentId, fun _ _ _ hp => by cases hp⟩

/-- Plain clients never lose a wake-up: whenever a thread is parked on the word of a mutex, both
bytes are set, or the contended byte is and an unlocker has yet to decide whether to wake, or
an unlocker has cleared it and not yet issued its wake-up, or an awake thread is about to swap
257 into the word; on a free mutex some other thread is inside an operation. -/
theorem wake_up_carried_without_segments (hs : s.Initial) (hpath : Path step NoSegments s s')
    (t : T) (m : M) (hasleep : s'.asleep t = some (.word m)) :
    ((s'.mutex m).u = lockedAndContended ∨
      (contendedByte (s'.mutex m).u = 1 ∧
        ∃ w after p, s'.point w = .unlock m after p ∧ p.released = true) ∨
      (∃ w after p, s'.point w = .unlock m after p ∧ p.waking = true) ∨
      ∃ w, s'.asleep w = none ∧ (s'.point w).swapsNext m) ∧
    (lockedByte (s'.mutex m).u = 0 → ∃ w, w ≠ t ∧ (s'.point w).mutex = some m) := by
  obtain ⟨hcoh, hplain, hhand⟩ := handOff_of_noSegments hs hpath m
  have hsleeper : Sleeper (s'.view m) t := by
    have hplace := place_eq_onWord.mpr hasleep
    refine ⟨hplace, (hhand.sleepers t hplace).resolve_right ?_⟩
    exact hplain.role_ne_racer t m
  refine ⟨?_, fun hbyte => hhand.busy hsleeper (by simp [view, isLocked, hbyte])⟩
  cases hhand.carried t hsleeper with
  | marked hlocked hcontended =>
    left
    rw [hcoh.word m, hlocked, hcontended]
    exact lockedAndContended_eq.symm
  | releasing hcontended w hrole =>
    right; left
    exact ⟨by simpa [view, isContended] using hcontended, w, Point.releaser_cases hrole⟩
  | waking w hrole =>
    right; right; left
    exact ⟨w, Point.waker_cases hrole⟩
  | bound w hbound =>
    right; right; right
    have htaker := hbound.2.resolve_right (hplain.role_ne_racer w m)
    exact ⟨w, place_eq_awake.mp hbound.1, Point.swapsNext_of_taker htaker⟩

/-- A broadcast moves thread 1 to the word of a mutex that thread 2 took without marking it; the
wake-up of thread 1 is carried by a thread that is about to wake it or to swap 257. -/
theorem wake_up_carried_without_segments_requeued : ∃ s : State (Fin 3) Unit Unit,
    s.asleep 1 = some (.word ()) ∧ (s.mutex ()).u = 1 ∧
      ((∃ w after p, s.point w = .unlock () after p ∧ p.waking = true) ∨
        ∃ w, s.asleep w = none ∧ (s.point w).swapsNext ()) := by
  obtain ⟨s, hpath, hasleep, hu⟩ := exists_path_of_execute (step (T := Fin 3) (M := Unit)
    (C := Unit)) NoSegments
    (.call 0 (.lock ()) :: Action.turns 0 2 ++ .call 0 (.wait () ()) :: Action.turns 0 8 ++
      .call 1 (.lock ()) :: Action.turns 1 2 ++ .call 1 (.wait () ()) :: Action.turns 1 5 ++
      .call 2 (.lock ()) :: Action.turns 2 2 ++ .call 2 (.broadcast ()) :: Action.turns 2 2 ++
      [.access 2 ⟨0, ⟨0, 0⟩, some 0⟩])
    (initial fun _ => htllThreadStart Tls.zero)
    (fun s => s.asleep 1 = some (.word ()) ∧ (s.mutex ()).u = 1) (by decide +kernel)
  refine ⟨s, hasleep, hu, ?_⟩
  have hcarried := (wake_up_carried_without_segments
    initial_started hpath 1 () hasleep).1
  rw [hu] at hcarried
  rcases hcarried with hboth | ⟨hcontended, -⟩ | hwaking | hbound
  · cases hboth
  · cases hcontended
  · exact Or.inl hwaking
  · exact Or.inr hbound

end State

end Htll
