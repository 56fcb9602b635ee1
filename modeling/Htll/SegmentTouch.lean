import Htll.NoSegments

/-!
# Threads outside segments and the segment records

`htll_mutex_lock` and both waits use `segment[cur_segment_id]`, which is `segment[-1]` for a
thread outside segments. In its loop `htll_mutex_lock` tests for this case, but it has read a
`wait_time` before the test, into a local that nothing uses. The waits do not test: they stay away
from the records only as long as the mutex is free when they come back to take it.
-/

namespace Htll

open Transition

section Points

variable {M C : Type*}

/-- The indices of `segment` that the next access of a thread evaluates. -/
def Point.segmentIndices (curSegmentId : ℤ) : Point M C → List ℤ
  -- `sleep_time` is read from the record
  | .lock _ .entry => [curSegmentId]
  -- `wait_time` is the time-out of the park, `has_waiter` is set after it
  | .lock _ (.park _) | .lock _ (.mark _) => [curSegmentId]
  | .retake _ _ _ _ .park | .retake _ _ _ _ .mark => [curSegmentId]
  | _ => []

/-- The thread is in no part of a call that leads to a record without another swap of 257. -/
def Point.away : Point M C → Bool
  | .lock .. | .retake _ _ _ _ .park | .retake _ _ _ _ .mark => false
  | _ => true

/-- From there the next access evaluates no index. -/
theorem Point.segmentIndices_away {q : Point M C} (h : q.away = true) (curSegmentId : ℤ) :
    q.segmentIndices curSegmentId = [] := by
  cases q with
  | lock => cases h
  | retake c m abstime code p =>
    cases p with
    | swap => rfl
    | park | mark => cases h
  | _ => rfl

/-- Every call but the lock begins there. -/
theorem Call.entry_away {call : Call M C} (h : ∀ m, call ≠ .lock m) :
    call.entry.away = true := by
  cases call with
  | lock m => exact absurd rfl (h m)
  | _ => rfl

end Points

/-- The loop that takes the mutex back ends at its swap if the mutex was free, and parks if not. -/
theorem retakeMutex_swap (x : Mutex) :
    (retakeMutex x .swap).2.next = if x.u &&& 1 = 0 then none else some .park := by
  have hswap : (retakeMutex x .swap).2 = if x.u &&& 1 = 0 then .take else .goto .park := rfl
  rw [hswap]
  split <;> rfl

namespace State

variable {T M C : Type*} [DecidableEq T] [DecidableEq M] [DecidableEq C]
  {s s' s₀ : State T M C} {t : T} {input : Input T} {a : Action T M C}

/-- Whatever index of `segment` a thread outside segments evaluates next is in range. -/
def SegmentsUntouched (s : State T M C) : Prop :=
  ∀ t, (s.tls t).curSegmentId = -1 →
    ∀ k ∈ (s.point t).segmentIndices (s.tls t).curSegmentId, 0 ≤ k ∧ k < maxSegment

/-- A thread outside segments calls `htll_mutex_lock`, or comes back to take the mutex of a wait
and finds it locked. -/
def TouchesSegments (s : State T M C) : Action T M C → Prop
  | .call t (.lock _) => (s.tls t).curSegmentId = -1
  | .access t _ => (s.tls t).curSegmentId = -1 ∧ ∃ c m abstime code,
      s.point t = .retake c m abstime code .swap ∧ (s.mutex m).u &&& 1 ≠ 0
  | _ => False

/-- Every thread outside segments is away from the records. -/
def Away (s : State T M C) : Prop :=
  ∀ t, (s.tls t).curSegmentId = -1 → (s.point t).away = true

omit [DecidableEq T] [DecidableEq M] [DecidableEq C] in
/-- Threads away from the records do not touch them. -/
theorem Away.segmentsUntouched (h : Away s) : SegmentsUntouched s := by
  intro t ht k hk
  rw [Point.segmentIndices_away (h t ht)] at hk
  cases hk

variable [Fintype T]

/-- An access leads away from the records if it starts there and does not find a mutex locked. -/
theorem away_access (haway : (s.point t).away = true) (hcur : (s.tls t).curSegmentId = -1)
    (hnot : ¬TouchesSegments s (.access t input)) (h : s.access t input = some s') :
    (s'.point t).away = true := by
  cases hp : s.point t with
  | retake c m abstime code p =>
    cases p with
    | swap =>
      have hfree : (s.mutex m).u &&& 1 = 0 := by
        by_contra hlocked
        exact hnot ⟨hcur, c, m, abstime, code, hp, hlocked⟩
      rw [retake_access hp h, retakeMutex_swap, if_pos hfree]
      rfl
    | park | mark =>
      rw [hp] at haway
      cases haway
  | lock m p =>
    rw [hp] at haway
    cases haway
  | _ =>
    have hflow := flow_access h
    generalize s'.point t = q at hflow
    cases hflow with
    | clocked _ rt =>
      simp only [afterClock]
      split <;> rfl
    | @unlocked m after p _ => rcases after with _ | ⟨c, seq, _ | abstime⟩ <;> rfl
    | @waited c m seq abstime rt _ => cases abstime <;> rfl
    | locking hlock | retaking hlock =>
      rw [hp] at hlock
      cases hlock
    | _ => rfl

/-- The segment interface is called outside of the other calls. -/
theorem outside_of_segment {segmentId : ℤ}
    (ha : (∃ ticks, a = .segmentStart t segmentId ticks) ∨
      ∃ requiredLatency ticks, a = .segmentEnd t segmentId requiredLatency ticks)
    (h : s.step a = some s') : ∃ last, s.point t = .outside last := by
  rcases ha with ⟨ticks, rfl⟩ | ⟨requiredLatency, ticks, rfl⟩ <;> simp only [State.step] at h <;>
    split at h
  all_goals first | exact ⟨_, ‹_›⟩ | cases h

/-- A step that does not touch the records keeps the threads away from them. -/
theorem Away.step (hcoh : s.Coherent) (haway : Away s) (hnot : ¬TouchesSegments s a)
    (h : s.step a = some s') : Away s' := by
  intro u hu
  rcases step_cases h with ⟨t, call, last, rfl, -, -, -, rfl⟩ | ⟨t, input, rfl, -, haccess⟩ |
    ⟨t, rfl, rfl⟩ | ⟨tls, rfl, t, result, rfl, hsegment⟩
  · by_cases hut : u = t
    · subst hut
      simp only [goto, Function.update_self]
      exact Call.entry_away fun m hm => hnot (by rw [hm]; exact hu)
    · simpa [hut] using haway u hu
  · have hframe := frame_access hcoh haccess
    rw [hframe.curSegment u] at hu
    by_cases hut : u = t
    · subst hut
      exact away_access (haway u hu) hu hnot haccess
    · rw [hframe.point u hut]
      exact haway u hu
  · exact haway u hu
  · by_cases hut : u = t
    · subst hut
      have houtside : ∃ last, s.point u = .outside last := by
        rcases hsegment with ⟨segmentId, ticks, ha, -⟩ | ⟨segmentId, latency, ticks, ha, -⟩
        · exact outside_of_segment (Or.inl ⟨ticks, ha⟩) h
        · exact outside_of_segment (Or.inr ⟨latency, ticks, ha⟩) h
      obtain ⟨last, hlast⟩ := houtside
      simp only
      rw [hlast]
      rfl
    · exact haway u (by simpa [hut] using hu)

/-- A step that touches the records leaves a thread about to evaluate the index −1. -/
theorem touched_of_step (hcoh : s.Coherent) (htouches : TouchesSegments s a)
    (h : s.step a = some s') : ¬SegmentsUntouched s' := by
  have hindex : ∀ t, (s'.tls t).curSegmentId = -1 →
      (s'.point t).segmentIndices (-1) = [-1] → ¬SegmentsUntouched s' := by
    intro t hcur hindices huntouched
    have hrange := huntouched t hcur (-1) (by rw [hcur, hindices]; simp)
    omega
  rcases step_cases h with ⟨t, call, last, rfl, -, -, -, rfl⟩ | ⟨t, input, rfl, -, haccess⟩ |
    ⟨t, rfl, -⟩ | ⟨tls, -, t, result, -, ⟨segmentId, ticks, rfl, -⟩ |
      ⟨segmentId, latency, ticks, rfl, -⟩⟩
  · cases call with
    | lock m => exact hindex t htouches (by simp [Call.entry, Point.segmentIndices])
    | _ => exact htouches.elim
  · obtain ⟨hcur, c, m, abstime, code, hp, hlocked⟩ := htouches
    have hpark : s'.point t = .retake c m abstime code .park := by
      rw [retake_access hp haccess, retakeMutex_swap, if_neg hlocked]
      rfl
    exact hindex t (((frame_access hcoh haccess).curSegment t).trans hcur) (by rw [hpark]; rfl)
  · exact htouches.elim
  · exact htouches.elim
  · exact htouches.elim

/-- Along any list of actions no thread outside segments is about to touch a segment record,
exactly if none of them calls `htll_mutex_lock`, or comes back from the sleep of a wait and finds
the mutex locked. -/
theorem segments_untouched_iff (hs : s₀.Initial) (actions : List (Action T M C)) :
    (∀ before s, before <+: actions → execute step anyStep s₀ before = some s →
        SegmentsUntouched s) ↔
      ∀ before a s s', (before ++ [a]) <+: actions → execute step anyStep s₀ before = some s →
        step s a = some s' → ¬TouchesSegments s a := by
  refine always_iff (fun s => s.Coherent ∧ Away s) SegmentsUntouched ⟨hs.coherent, ?_⟩
    (fun _ h => h.2.segmentsUntouched)
    (fun _ _ _ h hnot hstep => ⟨h.1.step hstep, h.2.step h.1 hnot hstep⟩)
    (fun _ _ _ h htouches hstep => touched_of_step h.1 htouches hstep) actions
  obtain ⟨tls, -, rfl⟩ := hs
  exact fun _ _ => rfl

/-- A thread that locks inside segment 3 evaluates that index next. -/
theorem segments_untouched_iff_inside : ∃ s : State Unit Unit Unit,
    execute step anyStep (initial fun _ => htllThreadStart Tls.zero)
      [.segmentStart () 3 5, .call () (.lock ())] = some s ∧
    s.point () = .lock () .entry ∧ SegmentsUntouched s := by
  refine ⟨_, rfl, rfl, ?_⟩
  refine (segments_untouched_iff initial_started
    [.segmentStart () 3 5, .call () (.lock ())]).mpr ?_ _ _
    (List.prefix_refl _) rfl
  rintro before a s s' ⟨after, heq⟩ hs - htouches
  rcases before with _ | ⟨b, _ | ⟨c, before⟩⟩
  · cases heq
    exact htouches
  · cases heq
    cases hs
    have hcurrent : (3 : ℤ) = -1 := htouches
    omega
  · simp at heq

/-- Thread 0 waits with the mutex, thread 1 takes it, and thread 0 comes back without a signal. -/
def contendedWait : List (Action (Fin 2) Unit Unit) :=
  .call 0 (.lock ()) :: Action.turns 0 2 ++ .call 0 (.wait () ()) :: Action.turns 0 8 ++
    .call 1 (.lock ()) :: Action.turns 1 2 ++ .unpark 0 :: Action.turns 0 1

/-- Without any segment in the program thread 0 is about to read `segment[-1]` in
`htll_mutex_lock`, and about to park with the time-out of `segment[-1]` in `upmutex_cond1_wait`. -/
theorem record_before_array_touched : ∃ s s' : State (Fin 2) Unit Unit,
    Path step NoSegments (initial fun _ => htllThreadStart Tls.zero) s ∧ Path step NoSegments s s' ∧
      (s.point 0 = .lock () .entry ∧ -1 ∈ (s.point 0).segmentIndices (s.tls 0).curSegmentId) ∧
      (s'.point 0 = .retake () () none 0 .park ∧
        -1 ∈ (s'.point 0).segmentIndices (s'.tls 0).curSegmentId) := by
  obtain ⟨s, s', hpath, hlater, h, h'⟩ := exists_paths_of_execute (step (T := Fin 2) (M := Unit)
    (C := Unit)) NoSegments (contendedWait.take 1) (contendedWait.drop 1)
    (initial fun _ => htllThreadStart Tls.zero)
    (fun s s' => (s.point 0 = .lock () .entry ∧
        -1 ∈ (s.point 0).segmentIndices (s.tls 0).curSegmentId) ∧
      (s'.point 0 = .retake () () none 0 .park ∧
        -1 ∈ (s'.point 0).segmentIndices (s'.tls 0).curSegmentId)) (by decide +kernel)
  exact ⟨s, s', hpath, hlater, h, h'⟩

end State

end Htll
