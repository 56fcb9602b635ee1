import Htll.SegmentCalls
import Htll.SegmentWindow
import Mathlib.Algebra.Ring.Nat

/-!
# The record of one segment along nested runs

In a well-nested run every write hits the record of the innermost segment, so the record of a
segment depends on the events of that segment alone: its starts and ends, and the lock waits while
it is the innermost one. What is left of a run is a fold over these events. Along it the window
only moves at the ends with a waiter, down at a missed deadline and up at a met one; ninety-nine
met deadlines make up for one missed.
-/

namespace Htll

/-- An event belongs to a segment if it starts or ends it, or waits while it is innermost. -/
def SegmentEvent.belongsTo (s : Fin maxSegment) (ids : List ℤ) : SegmentEvent → Bool
  | .start segmentId _ | .finish segmentId _ _ => segmentId = s
  | .lockWait => ids.head? = some (s : ℤ)

/-- The events of one segment in a nested run that begins with the given segments open. -/
def ownEvents (s : Fin maxSegment) (ids : List ℤ) : List SegmentEvent → List SegmentEvent
  | [] => []
  | e :: events =>
    let rest := (nest ids e).elim [] fun ids => ownEvents s ids events
    if e.belongsTo s ids then e :: rest else rest

/-- What an event of a segment does to its record. -/
def ownRecord (r : SegmentRecord) : SegmentEvent → SegmentRecord
  | .start _ ticks => { r with startTs := ticks }
  | .finish _ requiredLatency ticks => endRecord r requiredLatency ticks
  | .lockWait => { r with hasWaiter := 1 }

section Runs

variable {th th' : Tls} {ids ids' : List ℤ} {e : SegmentEvent} {s : Fin maxSegment}

/-- Segments are told apart by their ids. -/
theorem segmentId_inj {i : Fin maxSegment} : ((i : ℕ) : ℤ) = (s : ℕ) ↔ i = s := by
  rw [Fin.ext_iff]
  omega

/-- The innermost segment waits. -/
theorem Nested.belongsTo_lockWait (h : Nested th ids) :
    SegmentEvent.lockWait.belongsTo s ids = true ↔ th.curSegmentId = (s : ℕ) := by
  rw [h.current, SegmentEvent.belongsTo, decide_eq_true_eq]
  cases ids with
  | nil =>
    simp only [List.head?_nil, List.headD_nil]
    exact iff_of_false (by simp) (by omega)
  | cons current rest => simp

/-- A write of the record of the segment to which the event belongs. -/
theorem record_update {i : Fin maxSegment}
    (hsegment : th'.segment = Function.update th.segment i (ownRecord (th.segment i) e))
    (howner : e.belongsTo s ids = true ↔ i = s) :
    th'.segment s = if e.belongsTo s ids then ownRecord (th.segment s) e else th.segment s := by
  rw [hsegment]
  by_cases hs : i = s
  · rw [if_pos (howner.mpr hs), hs, Function.update_self]
  · rw [if_neg (mt howner.mp hs), Function.update_of_ne (Ne.symm hs)]

/-- A nested event writes the record of its segment and no other. -/
theorem Nested.record_step (h : Nested th ids) (hnest : nest ids e = some ids')
    (hstep : segmentStep th e = some (0, th')) :
    th'.segment s = if e.belongsTo s ids then ownRecord (th.segment s) e else th.segment s := by
  cases e with
  | start segmentId ticks =>
    rcases segmentStart_segment hstep with ⟨hcode, -⟩ | ⟨i, hi, hupdate⟩
    · exact absurd hcode (Int.lt_irrefl 0)
    · obtain ⟨-, -, rfl⟩ := arrayIndex_eq_some hi
      exact record_update hupdate (decide_eq_true_iff.trans segmentId_inj)
  | finish segmentId requiredLatency ticks =>
    cases ids with
    | nil => cases hnest
    | cons current rest =>
      obtain ⟨rfl, -⟩ := Option.ite_none_right_eq_some.mp hnest
      obtain ⟨hcurrent, i, hi⟩ := h.arrayIndex_current
      rw [segmentStep, ← hcurrent, segmentEnd_of_current requiredLatency ticks hi] at hstep
      obtain ⟨-, -, hindex⟩ := arrayIndex_eq_some hi
      refine record_update (segmentOut_segment hstep) ?_
      rw [SegmentEvent.belongsTo, decide_eq_true_eq, ← hcurrent, hindex]
      exact segmentId_inj
  | lockWait =>
    cases hstep
    cases hi : arrayIndex maxSegment th.curSegmentId with
    | none =>
      have hother : ¬SegmentEvent.lockWait.belongsTo s ids = true := by
        rw [h.belongsTo_lockWait]
        intro hcurrent
        have hin := s.isLt
        rw [arrayIndex_of_lt (by omega) (by omega)] at hi
        cases hi
      rw [if_neg hother]
      simp only [markWaiter, hi]
    | some i =>
      obtain ⟨-, -, hindex⟩ := arrayIndex_eq_some hi
      refine record_update (markWaiter_segment hi) ?_
      rw [h.belongsTo_lockWait, hindex, segmentId_inj]

/-- After a nested run the record of a segment is what its own events made of it. -/
theorem Nested.record_run {events : List SegmentEvent} (h : Nested th ids)
    (hnest : nestAll ids events = some ids') (s : Fin maxSegment) :
    ∃ codes th', runSegments th events = some (codes, th') ∧ (∀ code ∈ codes, code = 0) ∧
      Nested th' ids' ∧
      th'.segment s = (ownEvents s ids events).foldl ownRecord (th.segment s) := by
  induction events generalizing th ids with
  | nil =>
    cases hnest
    exact ⟨[], th, rfl, by simp, h, rfl⟩
  | cons e events ih =>
    obtain ⟨ids₁, hfirst, hrest⟩ := Option.bind_eq_some_iff.mp hnest
    obtain ⟨th₁, hstep, hnested⟩ := h.step e hfirst
    obtain ⟨codes, th', hrun, hcodes, hnested', hrecord⟩ := ih hnested hrest
    refine ⟨0 :: codes, th', by simp [runSegments, hstep, hrun], by simpa using hcodes,
      hnested', ?_⟩
    rw [hrecord, h.record_step hfirst hstep]
    simp only [ownEvents, hfirst, Option.elim_some]
    split <;> rfl

end Runs

/-- Segments do not interfere: two nested runs that begin with the same record of a segment and
have the same events of that segment end with the same record of it, whatever else is open and
happens in them. -/
theorem segments_do_not_interfere {th₁ th₂ : Tls} {ids₁ ids₂ ids₁' ids₂' : List ℤ}
    {events₁ events₂ : List SegmentEvent} (s : Fin maxSegment) (hnested₁ : Nested th₁ ids₁)
    (hnested₂ : Nested th₂ ids₂) (hnest₁ : nestAll ids₁ events₁ = some ids₁')
    (hnest₂ : nestAll ids₂ events₂ = some ids₂') (hrecord : th₁.segment s = th₂.segment s)
    (hown : ownEvents s ids₁ events₁ = ownEvents s ids₂ events₂) :
    ∃ codes₁ th₁' codes₂ th₂', runSegments th₁ events₁ = some (codes₁, th₁') ∧
      runSegments th₂ events₂ = some (codes₂, th₂') ∧ th₁'.segment s = th₂'.segment s := by
  obtain ⟨codes₁, th₁', hrun₁, -, -, hfinal₁⟩ := hnested₁.record_run hnest₁ s
  obtain ⟨codes₂, th₂', hrun₂, -, -, hfinal₂⟩ := hnested₂.record_run hnest₂ s
  refine ⟨codes₁, th₁', codes₂, th₂', hrun₁, hrun₂, ?_⟩
  rw [hfinal₁, hfinal₂, hrecord, hown]

/-- Segment 3 ends up the same alone and around a segment 5 that waits and is itself entered. -/
theorem segments_do_not_interfere_around :
    ∃ codes₁ th₁' codes₂ th₂',
      runSegments (htllThreadStart Tls.zero) [.start 3 5, .lockWait, .finish 3 100 9] =
        some (codes₁, th₁') ∧
      runSegments (htllThreadStart Tls.zero) [.start 3 5, .start 5 6, .lockWait, .finish 5 2 7,
        .lockWait, .finish 3 100 9] = some (codes₂, th₂') ∧
      th₁'.segment ⟨3, by decide⟩ = th₂'.segment ⟨3, by decide⟩ :=
  segments_do_not_interfere ⟨3, by decide⟩ atRest_htllThreadStart.nested
    atRest_htllThreadStart.nested (rfl : nestAll [] _ = some []) (rfl : nestAll [] _ = some []) rfl
    rfl

/-! ## Ninety-nine met deadlines for one missed -/

/-- How `segment_end` judges a segment that had a waiter. -/
inductive Verdict where
  /-- The required latency is below `SEGMENT_REQ_THRESHOLD`. -/
  | fast
  /-- The duration exceeds the required latency. -/
  | missed
  | met
  deriving DecidableEq

/-- The verdict of `segment_end` on a record. -/
def verdict (r : SegmentRecord) (requiredLatency ticks : BitVec 64) : Verdict :=
  if requiredLatency < segmentReqThreshold then .fast
  else if ticks - r.startTs > requiredLatency then .missed
  else .met

/-- The verdict of an event, if it ends the segment with a waiter. -/
def eventVerdict (r : SegmentRecord) : SegmentEvent → Option Verdict
  | .finish _ requiredLatency ticks =>
    if r.hasWaiter ≠ 0 then some (verdict r requiredLatency ticks) else none
  | .start .. | .lockWait => none

/-- All verdicts along the events of a segment. -/
def verdicts (r : SegmentRecord) : List SegmentEvent → List Verdict
  | [] => []
  | e :: events => (eventVerdict r e).toList ++ verdicts (ownRecord r e) events

/-- The verdicts of two lists of events follow each other. -/
theorem verdicts_append (r : SegmentRecord) (events events' : List SegmentEvent) :
    verdicts r (events ++ events') =
      verdicts r events ++ verdicts (events.foldl ownRecord r) events' := by
  induction events generalizing r with
  | nil => rfl
  | cons e events ih =>
    simp only [List.cons_append, verdicts, ih, List.foldl_cons, List.append_assoc]

section Windows

variable {r : SegmentRecord} {e : SegmentEvent} {events : List SegmentEvent}

/-- An event without a verdict leaves the window and the unit. -/
theorem ownRecord_of_no_verdict (h : eventVerdict r e = none) :
    (ownRecord r e).waitTime = r.waitTime ∧ (ownRecord r e).unit = r.unit := by
  cases e with
  | start | lockWait => exact ⟨rfl, rfl⟩
  | finish segmentId requiredLatency ticks =>
    have hwaiter : ¬r.hasWaiter ≠ 0 := by
      intro hwaiter
      rw [eventVerdict, if_pos hwaiter] at h
      cases h
    rw [ownRecord, endRecord, if_neg hwaiter]
    exact ⟨rfl, rfl⟩

/-- A met deadline adds the unit to the window. -/
theorem ownRecord_of_met (h : eventVerdict r e = some .met) (hlow : 10000 ≤ r.waitTime.toNat)
    (hfits : r.waitTime.toNat + r.unit.toNat < 2 ^ 64) :
    (ownRecord r e).waitTime.toNat = r.waitTime.toNat + r.unit.toNat ∧
      (ownRecord r e).unit = r.unit := by
  cases e with
  | start | lockWait => cases h
  | finish segmentId requiredLatency ticks =>
    obtain ⟨hwaiter, hverdict⟩ := Option.ite_none_right_eq_some.mp h
    rw [Option.some.injEq, verdict] at hverdict
    split at hverdict
    · cases hverdict
    · rename_i hslow
      split at hverdict
      · cases hverdict
      · rename_i hmet
        exact endRecord_met hwaiter (BitVec.not_lt.mp hslow) (BitVec.not_lt.mp hmet) hlow hfits

/-- A missed deadline halves a large window and leaves a ninety-ninth of it as the unit. -/
theorem ownRecord_of_missed (h : eventVerdict r e = some .missed)
    (hlarge : 198000 ≤ r.waitTime.toNat) :
    (ownRecord r e).waitTime.toNat = r.waitTime.toNat / 2 ∧
      (ownRecord r e).unit.toNat = r.waitTime.toNat / 2 / 99 := by
  cases e with
  | start | lockWait => cases h
  | finish segmentId requiredLatency ticks =>
    obtain ⟨hwaiter, hverdict⟩ := Option.ite_none_right_eq_some.mp h
    rw [Option.some.injEq, verdict] at hverdict
    split at hverdict
    · cases hverdict
    rename_i hslow
    split at hverdict
    · rename_i hmissed
      obtain ⟨hhalf, hunit⟩ := half_toNat r.waitTime
      have hkept : ¬r.waitTime >>> 1 < minReorder := by
        rw [BitVec.lt_def, hhalf, minReorder_toNat]
        omega
      have hstep : ¬r.waitTime >>> 1 / 99 < minAdjustUnit := by
        rw [BitVec.lt_def, hunit, show minAdjustUnit.toNat = 1000 from rfl]
        omega
      rw [ownRecord, endRecord, if_pos hwaiter, if_neg hslow]
      simp only [adjustWindow, if_pos hmissed, if_neg hkept, if_neg hstep]
      exact ⟨hhalf, hunit⟩
    · cases hverdict

/-- Along met deadlines the window grows by as many units. -/
theorem window_of_met {n : ℕ} (h : verdicts r events = List.replicate n .met)
    (hlow : 10000 ≤ r.waitTime.toNat) (hfits : r.waitTime.toNat + n * r.unit.toNat < 2 ^ 64) :
    (events.foldl ownRecord r).waitTime.toNat = r.waitTime.toNat + n * r.unit.toNat := by
  induction events generalizing r n with
  | nil =>
    have hn : n = 0 := by simpa [verdicts] using h
    simp [hn]
  | cons e events ih =>
    rw [verdicts] at h
    cases hverdict : eventVerdict r e with
    | none =>
      obtain ⟨hwindow, hunit⟩ := ownRecord_of_no_verdict hverdict
      rw [hverdict, Option.toList_none, List.nil_append] at h
      have hrest := ih h (by rw [hwindow]; exact hlow) (by rw [hwindow, hunit]; exact hfits)
      rw [List.foldl_cons, hrest, hwindow, hunit]
    | some v =>
      rw [hverdict, Option.toList_some, List.singleton_append] at h
      cases n with
      | zero => cases h
      | succ n =>
        obtain ⟨rfl, hrest⟩ := List.cons_eq_cons.mp h
        rw [Nat.succ_mul] at hfits
        obtain ⟨hwindow, hunit⟩ := ownRecord_of_met hverdict hlow (by omega)
        have hfinal := ih hrest (by omega) (by rw [hwindow, hunit]; omega)
        rw [List.foldl_cons, hfinal, hwindow, hunit, Nat.succ_mul]
        omega

/-- Before any verdict the window is what it was. -/
theorem window_of_no_verdicts (h : verdicts r events = []) :
    (events.foldl ownRecord r).waitTime = r.waitTime := by
  induction events generalizing r with
  | nil => rfl
  | cons e events ih =>
    obtain ⟨hfirst, hrest⟩ := List.append_eq_nil_iff.mp h
    have hverdict : eventVerdict r e = none := Option.toList_eq_nil_iff.mp hfirst
    rw [List.foldl_cons, ih hrest, (ownRecord_of_no_verdict hverdict).1]

/-- After a missed deadline and some met ones the window is half of what it was and as many
ninety-ninths of that. -/
theorem window_of_missed_met {n : ℕ} (h : verdicts r events = .missed :: List.replicate n .met)
    (hlarge : 198000 ≤ r.waitTime.toNat) (hn : n ≤ 99) :
    (events.foldl ownRecord r).waitTime.toNat =
      r.waitTime.toNat / 2 + n * (r.waitTime.toNat / 2 / 99) := by
  induction events generalizing r with
  | nil => cases h
  | cons e events ih =>
    rw [verdicts] at h
    cases hverdict : eventVerdict r e with
    | none =>
      obtain ⟨hwindow, -⟩ := ownRecord_of_no_verdict hverdict
      rw [hverdict, Option.toList_none, List.nil_append] at h
      have hrest := ih h (by rw [hwindow]; exact hlarge)
      rw [List.foldl_cons, hrest, hwindow]
    | some v =>
      rw [hverdict, Option.toList_some, List.singleton_append] at h
      obtain ⟨rfl, hrest⟩ := List.cons_eq_cons.mp h
      obtain ⟨hwindow, hunit⟩ := ownRecord_of_missed hverdict hlarge
      have hgrowth : n * (r.waitTime.toNat / 2 / 99) ≤ 99 * (r.waitTime.toNat / 2 / 99) :=
        Nat.mul_le_mul_right _ hn
      have hbound := r.waitTime.isLt
      have hfinal := window_of_met hrest (by omega) (by rw [hwindow, hunit]; omega)
      rw [List.foldl_cons, hfinal, hwindow, hunit]

end Windows

/-- The own events of two parts of a nested run follow each other. -/
theorem ownEvents_append {ids ids' : List ℤ} {events : List SegmentEvent} (s : Fin maxSegment)
    (hnest : nestAll ids events = some ids') (events' : List SegmentEvent) :
    ownEvents s ids (events ++ events') = ownEvents s ids events ++ ownEvents s ids' events' := by
  induction events generalizing ids with
  | nil =>
    cases hnest
    rfl
  | cons e events ih =>
    obtain ⟨ids₁, hfirst, hrest⟩ := Option.bind_eq_some_iff.mp hnest
    simp only [List.cons_append, ownEvents, hfirst, Option.elim_some, ih hrest]
    split <;> rfl

/-- The reorder window is in balance at a miss rate of one in a hundred: when the ends of a segment
with a waiter in a nested run are one that misses its deadline and then ninety-nine that meet it,
a large window never exceeds its initial value and ends at most 99 below it. -/
theorem window_in_balance {th : Tls} {ids ids' : List ℤ} {events : List SegmentEvent}
    (s : Fin maxSegment) (hnested : Nested th ids) (hnest : nestAll ids events = some ids')
    (hlarge : 198000 ≤ (th.segment s).waitTime.toNat)
    (hverdicts : verdicts (th.segment s) (ownEvents s ids events) =
      .missed :: List.replicate 99 .met) :
    (∀ before codes th', before <+: events → runSegments th before = some (codes, th') →
      (th'.segment s).waitTime.toNat ≤ (th.segment s).waitTime.toNat) ∧
    ∃ codes th', runSegments th events = some (codes, th') ∧
      (th.segment s).waitTime.toNat - 99 ≤ (th'.segment s).waitTime.toNat ∧
      (th'.segment s).waitTime.toNat ≤ (th.segment s).waitTime.toNat := by
  constructor
  · rintro before codes th' ⟨after, rfl⟩ hrun
    rw [nestAll_append] at hnest
    obtain ⟨ids₁, hbefore, -⟩ := Option.bind_eq_some_iff.mp hnest
    obtain ⟨codes₁, th₁, hrun₁, -, -, hrecord⟩ := hnested.record_run hbefore s
    cases hrun.symm.trans hrun₁
    rw [ownEvents_append s hbefore, verdicts_append] at hverdicts
    rcases List.prefix_cons_iff.mp ⟨_, hverdicts⟩ with hnone | ⟨mets, hfirst, hmets⟩
    · rw [hrecord, window_of_no_verdicts hnone]
    · obtain ⟨hlength, heq⟩ := List.prefix_replicate_iff.mp hmets
      rw [heq] at hfirst
      rw [hrecord, window_of_missed_met hfirst hlarge hlength]
      have hgrowth : mets.length * ((th.segment s).waitTime.toNat / 2 / 99) ≤
          99 * ((th.segment s).waitTime.toNat / 2 / 99) := Nat.mul_le_mul_right _ hlength
      omega
  · obtain ⟨codes, th', hrun, -, -, hrecord⟩ := hnested.record_run hnest s
    refine ⟨codes, th', hrun, ?_⟩
    rw [hrecord, window_of_missed_met hverdicts hlarge (Nat.le_refl 99)]
    omega

/-- A thread outside segments whose windows have the given size. -/
def withWindows (waitTime : BitVec 64) : Tls :=
  { htllThreadStart Tls.zero with segment := fun _ => ⟨waitTime, defaultAdjustUnit, 0, 0⟩ }

/-- Segment 0 with a lock wait, from tick 0 to the given tick, with a deadline of 100 ticks. -/
def waitingRound (ticks : BitVec 64) : List SegmentEvent :=
  [.start 0 0, .lockWait, .finish 0 100 ticks]

/-- The smallest window of the statement, one round of 101 ticks and ninety-nine of none. -/
theorem window_in_balance_smallest : ∃ codes th',
    runSegments (withWindows 198000)
      (waitingRound 101 ++ (List.replicate 99 (waitingRound 0)).flatten) = some (codes, th') ∧
    198000 - 99 ≤ (th'.segment firstSegment).waitTime.toNat ∧
    (th'.segment firstSegment).waitTime.toNat ≤ 198000 := by
  have hrest : AtRest (withWindows 198000) := ⟨rfl, rfl⟩
  have hnest : nestAll [] (waitingRound 101 ++ (List.replicate 99 (waitingRound 0)).flatten) =
      some [] := by decide +kernel
  exact (window_in_balance firstSegment hrest.nested hnest (by decide) (by decide +kernel)).2

end Htll
