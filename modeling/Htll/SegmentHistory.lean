import Htll.SegmentRecords

/-!
# What `segment_end` should measure

The events of a thread tell which execution of a segment each `segment_end` closes: when it was
opened and whether the thread parked in it. The code keeps one start time and one waiter flag for
each segment id, not for each execution. An inner execution of the same segment overwrites the
start time, and the fast exit leaves the flag to the next execution. A lock wait sets the flag also
when its `FUTEX_WAIT` returns at once.
-/

namespace Htll

/-- An open execution of a segment and its start. -/
structure Execution where
  segmentId : ℤ
  startTicks : BitVec 64
  deriving DecidableEq

/-- The open executions, innermost first, and for each id the latest start and whether a lock wait
has marked the segment since it was last ended outside the fast exit. -/
structure History where
  opened : List Execution
  latestStart : ℤ → Option (BitVec 64)
  marked : ℤ → Bool

namespace History

/-- Before the first event. -/
def start : History := ⟨[], fun _ => none, fun _ => false⟩

/-- One more event. -/
def record (h : History) : SegmentEvent → History
  | .start segmentId ticks =>
    { h with
      opened := ⟨segmentId, ticks⟩ :: h.opened
      latestStart := Function.update h.latestStart segmentId (some ticks) }
  | .finish segmentId requiredLatency _ =>
    { h with
      opened := h.opened.tail
      marked :=
        if requiredLatency < segmentReqThreshold then h.marked
        else Function.update h.marked segmentId false }
  | .lockWait =>
    match h.opened with
    | [] => h
    | x :: _ => { h with marked := Function.update h.marked x.segmentId true }

/-- The history of a list of events. -/
def of (events : List SegmentEvent) : History := events.foldl record start

/-- The ids of the open executions. -/
def ids (h : History) : List ℤ := h.opened.map Execution.segmentId

end History

/-- The state of a thread that began in the given state and has the given history. -/
structure Follows (th₀ : Tls) (h : History) (th : Tls) : Prop where
  nested : Nested th h.ids
  startTs : ∀ i, (th.segment i).startTs = (h.latestStart (i : ℕ)).getD (th₀.segment i).startTs
  hasWaiter : ∀ i, (th.segment i).hasWaiter ≠ 0 ↔ h.marked (i : ℕ) = true
  started : ∀ x ∈ h.opened, (h.latestStart x.segmentId).isSome

section Steps

variable {th₀ th th' : Tls} {h : History} {e : SegmentEvent} {ids : List ℤ}

/-- The plain stack of ids is that of the open executions. -/
theorem History.ids_record (hnest : nest h.ids e = some ids) : (h.record e).ids = ids := by
  cases e with
  | start segmentId ticks =>
    obtain ⟨-, heq⟩ := Option.ite_none_right_eq_some.mp hnest
    cases heq
    rfl
  | finish segmentId requiredLatency ticks =>
    cases hopened : h.opened with
    | nil =>
      simp only [History.ids, hopened] at hnest
      cases hnest
    | cons x rest =>
      simp only [History.ids, hopened, List.map_cons, nest] at hnest
      obtain ⟨-, heq⟩ := Option.ite_none_right_eq_some.mp hnest
      cases heq
      simp [History.ids, History.record, hopened]
  | lockWait =>
    cases hnest
    cases hopened : h.opened <;> simp [History.ids, History.record, hopened]

/-- The start time of a record after an event of its segment. -/
theorem ownRecord_startTs (r : SegmentRecord) (e : SegmentEvent) :
    (ownRecord r e).startTs = match e with
      | .start _ ticks => ticks
      | .finish .. | .lockWait => r.startTs := by
  cases e with
  | start | lockWait => rfl
  | finish segmentId requiredLatency ticks =>
    simp only [ownRecord, endRecord]
    split
    · split <;> rfl
    · rfl

/-- The waiter flag of a record after an event of its segment: only the fast exit keeps it. -/
theorem ownRecord_hasWaiter (r : SegmentRecord) (e : SegmentEvent) :
    (ownRecord r e).hasWaiter = match e with
      | .start .. => r.hasWaiter
      | .finish _ requiredLatency _ =>
        if requiredLatency < segmentReqThreshold then r.hasWaiter else 0
      | .lockWait => 1 := by
  cases e with
  | start | lockWait => rfl
  | finish segmentId requiredLatency ticks =>
    simp only [ownRecord, endRecord]
    by_cases hwaiter : r.hasWaiter ≠ 0
    · rw [if_pos hwaiter]
      split <;> rfl
    · rw [if_neg hwaiter, not_not.mp hwaiter, ite_self]

/-- Only a start of the segment changes its latest start. -/
theorem History.latestStart_record (i : Fin maxSegment) :
    (h.record e).latestStart (i : ℕ) =
      if e.belongsTo i h.ids then
        match e with
        | .start _ ticks => some ticks
        | .finish .. | .lockWait => h.latestStart (i : ℕ)
      else h.latestStart (i : ℕ) := by
  cases e with
  | start segmentId ticks =>
    simp only [History.record, SegmentEvent.belongsTo, Function.update_apply, decide_eq_true_eq,
      eq_comm (a := segmentId)]
  | finish segmentId requiredLatency ticks => simp [History.record]
  | lockWait => cases hopened : h.opened <;> simp [History.record, hopened]

/-- An end of the segment outside the fast exit and a lock wait in it change its mark. -/
theorem History.marked_record (i : Fin maxSegment) :
    (h.record e).marked (i : ℕ) =
      if e.belongsTo i h.ids then
        match e with
        | .start .. => h.marked (i : ℕ)
        | .finish _ requiredLatency _ =>
          if requiredLatency < segmentReqThreshold then h.marked (i : ℕ) else false
        | .lockWait => true
      else h.marked (i : ℕ) := by
  cases e with
  | start segmentId ticks => simp [History.record]
  | finish segmentId requiredLatency ticks =>
    simp only [History.record, SegmentEvent.belongsTo, decide_eq_true_eq, eq_comm (a := segmentId)]
    by_cases hfast : requiredLatency < segmentReqThreshold
    · simp only [if_pos hfast, ite_self]
    · simp only [if_neg hfast, Function.update_apply]
  | lockWait =>
    cases hopened : h.opened with
    | nil => simp [History.record, SegmentEvent.belongsTo, History.ids, hopened]
    | cons x rest =>
      simp only [History.record, SegmentEvent.belongsTo, History.ids, hopened, List.map_cons,
        List.head?_cons, Option.some.injEq, decide_eq_true_eq, Function.update_apply,
        eq_comm (a := x.segmentId)]

/-- An open execution has a latest start of its segment. -/
theorem History.started_record (h : History)
    (hstarted : ∀ x ∈ h.opened, (h.latestStart x.segmentId).isSome) (e : SegmentEvent) :
    ∀ x ∈ (h.record e).opened, ((h.record e).latestStart x.segmentId).isSome := by
  cases e with
  | start segmentId ticks =>
    intro x hx
    simp only [History.record, List.mem_cons, Function.update_apply] at hx ⊢
    split
    · rfl
    · rename_i hne
      exact hstarted x (hx.resolve_left fun heq => hne (by rw [heq]))
  | finish segmentId requiredLatency ticks => exact fun x hx => hstarted x (List.mem_of_mem_tail hx)
  | lockWait =>
    cases hopened : h.opened with
    | nil => simp [History.record, hopened]
    | cons y rest =>
      rw [hopened] at hstarted
      simp only [History.record, hopened]
      rintro x (_ | ⟨_, hx⟩)
      · exact hstarted y List.mem_cons_self
      · exact hstarted x (List.mem_cons_of_mem y hx)

/-- Every nested event keeps the state in step with the history. -/
theorem Follows.step (hfollows : Follows th₀ h th) (hnest : nest h.ids e = some ids)
    (hstep : segmentStep th e = some (0, th')) : Follows th₀ (h.record e) th' := by
  have hnested : Nested th' (h.record e).ids := by
    obtain ⟨th₁, hstep₁, hnested₁⟩ := hfollows.nested.step e hnest
    cases hstep.symm.trans hstep₁
    rw [History.ids_record hnest]
    exact hnested₁
  refine ⟨hnested, fun i => ?_, fun i => ?_, h.started_record hfollows.started e⟩
  · rw [hfollows.nested.record_step hnest hstep, History.latestStart_record]
    split
    · rw [ownRecord_startTs]
      cases e with
      | start => rfl
      | finish | lockWait => exact hfollows.startTs i
    · exact hfollows.startTs i
  · rw [hfollows.nested.record_step hnest hstep, History.marked_record]
    split
    · rw [ownRecord_hasWaiter]
      cases e with
      | start => exact hfollows.hasWaiter i
      | finish segmentId requiredLatency ticks =>
        dsimp only
        split
        · exact hfollows.hasWaiter i
        · simp
      | lockWait => simp
    · exact hfollows.hasWaiter i

/-- So does every nested run. -/
theorem Follows.run {events : List SegmentEvent} {codes : List ℤ}
    (hfollows : Follows th₀ h th) (hnest : nestAll h.ids events = some ids)
    (hrun : runSegments th events = some (codes, th')) :
    Follows th₀ (events.foldl History.record h) th' := by
  induction events generalizing th h codes with
  | nil =>
    cases hrun
    exact hfollows
  | cons e events ih =>
    obtain ⟨ids₁, hfirst, hrest⟩ := Option.bind_eq_some_iff.mp hnest
    obtain ⟨th₁, hstep, -⟩ := hfollows.nested.step e hfirst
    obtain ⟨⟨code, th₂⟩, hstep₂, hrun⟩ := Option.bind_eq_some_iff.mp hrun
    cases hstep.symm.trans hstep₂
    obtain ⟨⟨codes', th₃⟩, hrun', heq⟩ := Option.map_eq_some_iff.mp hrun
    cases heq
    refine ih (hfollows.step hfirst hstep) ?_ hrun'
    rw [History.ids_record hfirst]
    exact hrest

end Steps

/-- The state in which a thread begins: nothing open and no segment marked. -/
structure Begins (th : Tls) : Prop where
  rest : AtRest th
  unmarked : ∀ i, (th.segment i).hasWaiter = 0

/-- Both the main thread and a started one begin so. -/
theorem begins_zero : Begins Tls.zero ∧ Begins (htllThreadStart Tls.zero) :=
  ⟨⟨⟨rfl, rfl⟩, fun _ => rfl⟩, ⟨atRest_htllThreadStart, fun _ => rfl⟩⟩

/-- The empty history fits the beginning. -/
theorem Begins.follows {th : Tls} (h : Begins th) : Follows th History.start th where
  nested := h.rest.nested
  startTs _ := rfl
  hasWaiter i := by simp [History.start, h.unmarked i]
  started _ hx := by cases hx

/-- A property of every `segment_end` of a list of events: of the state and the history before it
and of the execution that it closes. -/
def AtEveryEnd (th₀ : Tls) (events : List SegmentEvent)
    (P : Tls → History → Execution → BitVec 64 → BitVec 64 → Prop) : Prop :=
  ∀ before segmentId requiredLatency ticks codes th x rest,
    (before ++ [.finish segmentId requiredLatency ticks]) <+: events →
    runSegments th₀ before = some (codes, th) → (History.of before).opened = x :: rest →
    P th (History.of before) x requiredLatency ticks

/-- What is equivalent whenever the state follows the history is equivalent at every end of a
well-nested run. -/
theorem Begins.atEveryEnd_congr {th₀ : Tls} (hbegins : Begins th₀) {events : List SegmentEvent}
    {ids : List ℤ} (hnest : nestAll [] events = some ids)
    {P Q : Tls → History → Execution → BitVec 64 → BitVec 64 → Prop}
    (hPQ : ∀ th h x rest requiredLatency ticks, Follows th₀ h th → h.opened = x :: rest →
      (P th h x requiredLatency ticks ↔ Q th h x requiredLatency ticks)) :
    AtEveryEnd th₀ events P ↔ AtEveryEnd th₀ events Q := by
  have hpoint : ∀ before segmentId requiredLatency ticks codes th x rest,
      (before ++ [.finish segmentId requiredLatency ticks]) <+: events →
      runSegments th₀ before = some (codes, th) → (History.of before).opened = x :: rest →
      (P th (History.of before) x requiredLatency ticks ↔
        Q th (History.of before) x requiredLatency ticks) := by
    rintro before segmentId requiredLatency ticks codes th x rest ⟨after, rfl⟩ hrun hopened
    rw [List.append_assoc, nestAll_append] at hnest
    obtain ⟨ids₁, hbefore, -⟩ := Option.bind_eq_some_iff.mp hnest
    exact hPQ th _ x rest requiredLatency ticks (hbegins.follows.run hbefore hrun) hopened
  constructor
  · intro hP before segmentId requiredLatency ticks codes th x rest hpart hrun hopened
    exact (hpoint _ _ _ _ _ _ _ _ hpart hrun hopened).mp (hP _ _ _ _ _ _ _ _ hpart hrun hopened)
  · intro hQ before segmentId requiredLatency ticks codes th x rest hpart hrun hopened
    exact (hpoint _ _ _ _ _ _ _ _ hpart hrun hopened).mpr (hQ _ _ _ _ _ _ _ _ hpart hrun hopened)

/-- The record of the innermost execution. -/
theorem Follows.current {th₀ th : Tls} {h : History} {x : Execution} {rest : List Execution}
    (hfollows : Follows th₀ h th) (hopened : h.opened = x :: rest) :
    th.curSegmentId = x.segmentId ∧ ∃ i : Fin maxSegment, (i : ℕ) = x.segmentId ∧
      arrayIndex maxSegment th.curSegmentId = some i := by
  have hnested : Nested th (x.segmentId :: rest.map Execution.segmentId) := by
    simpa [History.ids, hopened] using hfollows.nested
  obtain ⟨hcurrent, i, hi⟩ := hnested.arrayIndex_current
  obtain ⟨-, -, hindex⟩ := arrayIndex_eq_some hi
  exact ⟨hcurrent, i, hindex.symm.trans hcurrent, hi⟩

/-! ## The measured latency -/

/-- The local variable `duration` of `segment_end`. -/
def endDuration (th : Tls) (ticks : BitVec 64) : Option (BitVec 64) :=
  (arrayIndex maxSegment th.curSegmentId).map fun i => ticks - (th.segment i).startTs

/-- It is what the adjustment of the window compares with the required latency. -/
theorem segmentEnd_of_duration {th : Tls} {i : Fin maxSegment}
    {requiredLatency ticks duration : BitVec 64}
    (hi : arrayIndex maxSegment th.curSegmentId = some i)
    (hduration : endDuration th ticks = some duration) (hwaiter : (th.segment i).hasWaiter ≠ 0)
    (hslow : ¬requiredLatency < segmentReqThreshold) :
    segmentEnd th th.curSegmentId requiredLatency ticks =
      segmentOut (th.setRecord i { th.segment i with
        waitTime := (adjustWindow (th.segment i) duration requiredLatency).1
        unit := (adjustWindow (th.segment i) duration requiredLatency).2
        hasWaiter := 0 }) := by
  rw [endDuration, hi, Option.map_some, Option.some.injEq] at hduration
  rw [segmentEnd_of_current requiredLatency ticks hi, endRecord, if_pos hwaiter, if_neg hslow,
    hduration]

/-- The duration is that of the execution that is closed. -/
def MeasuresOwn (th : Tls) (_ : History) (x : Execution) (_ ticks : BitVec 64) : Prop :=
  endDuration th ticks = some (ticks - x.startTicks)

/-- The segment was not opened again inside the execution that is closed, or at the same tick. -/
def LatestIsOwn (_ : Tls) (h : History) (x : Execution) (_ _ : BitVec 64) : Prop :=
  h.latestStart x.segmentId = some x.startTicks

/-- In a well-nested run every `segment_end` measures the execution that it closes, exactly if the
latest start of its segment is always the one of that execution or was made at the same tick. -/
theorem measured_latency_iff {th₀ : Tls} {events : List SegmentEvent} {ids : List ℤ}
    (hbegins : Begins th₀) (hnest : nestAll [] events = some ids) :
    AtEveryEnd th₀ events MeasuresOwn ↔ AtEveryEnd th₀ events LatestIsOwn := by
  refine hbegins.atEveryEnd_congr hnest fun th h x rest requiredLatency ticks hfollows hopened => ?_
  obtain ⟨-, i, hid, hi⟩ := hfollows.current hopened
  obtain ⟨latest, hlatest⟩ := Option.isSome_iff_exists.mp
    (hfollows.started x (hopened ▸ List.mem_cons_self))
  rw [MeasuresOwn, LatestIsOwn, endDuration, hi, Option.map_some, Option.some.injEq,
    hfollows.startTs i, hid, hlatest, Option.getD_some, Option.some.injEq]
  exact BitVec.sub_right_inj ticks

/-- Segment 4 inside segment 3 disturbs no measurement. -/
theorem measured_latency_iff_inner : AtEveryEnd (htllThreadStart Tls.zero)
    [.start 3 5, .start 4 7, .finish 4 1000 9, .finish 3 1000 2000] MeasuresOwn := by
  refine (measured_latency_iff begins_zero.2 (rfl : nestAll [] _ = some [])).mpr ?_
  rintro before segmentId requiredLatency ticks codes th x rest ⟨after, heq⟩ - hopened
  rcases before with _ | ⟨a, _ | ⟨b, _ | ⟨c, _ | ⟨d, before⟩⟩⟩⟩
  · cases heq
  · cases heq
  · cases heq
    cases hopened
    rfl
  · cases heq
    cases hopened
    rfl
  · simp at heq

/-- Segment 3 from tick 5 to tick 2000 around another execution of it from tick 7 to tick 9. -/
def recursiveRequest : List SegmentEvent :=
  [.start 3 5, .start 3 7, .lockWait, .finish 3 1000 9, .lockWait, .finish 3 1994 2000]

/-- The outer execution takes 1995 ticks and misses its deadline of 1994, but is measured from the
start of the inner one and widens the window as if it had met it. -/
theorem recursive_request_mismeasured :
    ¬AtEveryEnd (htllThreadStart Tls.zero) recursiveRequest MeasuresOwn ∧
      ∃ codes th, runSegments (htllThreadStart Tls.zero) recursiveRequest = some (codes, th) ∧
        (th.segment ⟨3, by decide⟩).waitTime = 20000 := by
  constructor
  · intro h
    have hrun : ∃ codes th, runSegments (htllThreadStart Tls.zero) (recursiveRequest.take 5) =
        some (codes, th) ∧ endDuration th 2000 = some 1993 := by
      refine ⟨_, _, rfl, ?_⟩
      decide
    obtain ⟨codes, th, hrun, hduration⟩ := hrun
    have hown := h (recursiveRequest.take 5) 3 1994 2000 codes th ⟨3, 5⟩ []
      (List.prefix_refl _) hrun rfl
    rw [MeasuresOwn, hduration] at hown
    exact absurd hown (by decide)
  · refine ⟨_, _, rfl, ?_⟩
    decide

/-! ## The window reacts to waiting -/

/-- What happens to a thread: an event of its segments, or that it parks, on the word of a lock or
on a condition variable. A lock wait whose `FUTEX_WAIT` puts the thread to sleep is a park and then
the event that marks the segment; one whose `FUTEX_WAIT` returns at once is that event alone. -/
inductive ThreadEvent where
  | segment (e : SegmentEvent)
  | park

/-- The events of the segments. -/
def segmentEvents (events : List ThreadEvent) : List SegmentEvent :=
  events.filterMap fun
    | .segment e => some e
    | .park => none

/-- Whether the thread has parked in each open execution while it was the innermost one, innermost
first, after one more event. -/
def recordPark (parks : List Bool) : ThreadEvent → List Bool
  | .segment (.start ..) => false :: parks
  | .segment (.finish ..) => parks.tail
  | .segment .lockWait => parks
  | .park =>
    match parks with
    | [] => []
    | _ :: rest => true :: rest

/-- Whether the thread has parked in the innermost open execution. -/
def parkedInside (events : List ThreadEvent) : Bool := (events.foldl recordPark []).headD false

/-- A property of every `segment_end` of a thread: of the state and the history before it, of the
execution that it closes, and of whether the thread has parked in that execution. -/
def AtEveryParkedEnd (th₀ : Tls) (events : List ThreadEvent)
    (P : Tls → History → Execution → Bool → BitVec 64 → BitVec 64 → Prop) : Prop :=
  ∀ before segmentId requiredLatency ticks codes th x rest,
    (before ++ [.segment (.finish segmentId requiredLatency ticks)]) <+: events →
    runSegments th₀ (segmentEvents before) = some (codes, th) →
    (History.of (segmentEvents before)).opened = x :: rest →
    P th (History.of (segmentEvents before)) x (parkedInside before) requiredLatency ticks

/-- The end changes the window only if the thread has parked in the execution that it closes, and
it clears the waiter flag. -/
def ReactsToParking (th : Tls) (_ : History) (x : Execution) (parked : Bool)
    (requiredLatency ticks : BitVec 64) : Prop :=
  ∀ th' i, segmentEnd th x.segmentId requiredLatency ticks = some (0, th') →
    ((i : Fin maxSegment) : ℕ) = x.segmentId →
    ((th'.segment i).waitTime ≠ (th.segment i).waitTime → parked = true) ∧
      (th'.segment i).hasWaiter = 0

/-- An adjustment leaves the window: it is the least one and the deadline is missed or the sum with
the unit wraps around below it, or the deadline is met and the unit is zero. -/
def Settled (r : SegmentRecord) (duration requiredLatency : BitVec 64) : Prop :=
  if duration > requiredLatency then r.waitTime = minReorder
  else r.waitTime = minReorder ∧ r.waitTime + r.unit < minReorder ∨
    minReorder ≤ r.waitTime ∧ r.unit = 0

/-- If a lock wait has marked the segment and no end has cleared the mark since, the thread has
parked in the execution that is closed, unless the adjustment leaves the window anyway, and the end
is not a fast exit. -/
def MarkIsOwn (th : Tls) (h : History) (x : Execution) (parked : Bool)
    (requiredLatency ticks : BitVec 64) : Prop :=
  h.marked x.segmentId = true → segmentReqThreshold ≤ requiredLatency ∧
    (parked = true ∨ ∀ i : Fin maxSegment, (i : ℕ) = x.segmentId →
      Settled (th.segment i) (ticks - (th.segment i).startTs) requiredLatency)

/-- A clamped value is the given one if that is the minimum and the value is below, or if it is the
value itself. -/
theorem clamp_eq_iff {least x y : BitVec 64} :
    (if x < least then least else x) = y ↔ x < least ∧ y = least ∨ least ≤ x ∧ x = y := by
  split
  · rename_i hlt
    simp [hlt, BitVec.not_le.mpr hlt, eq_comm]
  · rename_i hle
    simp [hle, BitVec.not_lt.mp hle]

/-- The adjustment leaves the window exactly if it is settled. -/
theorem adjustWindow_settled {r : SegmentRecord} {duration requiredLatency : BitVec 64} :
    (adjustWindow r duration requiredLatency).1 = r.waitTime ↔
      Settled r duration requiredLatency := by
  by_cases hmissed : duration > requiredLatency
  · simp only [adjustWindow, Settled, if_pos hmissed, clamp_eq_iff]
    obtain ⟨hhalf, -⟩ := half_toNat r.waitTime
    constructor
    · rintro (⟨-, heq⟩ | ⟨hle, heq⟩)
      · exact heq
      · -- only zero is its own half, and that is below the minimum
        rw [heq] at hhalf
        rw [heq, BitVec.le_def, minReorder_toNat] at hle
        omega
    · intro heq
      refine Or.inl ⟨?_, heq⟩
      rw [BitVec.lt_def, hhalf, heq]
      decide
  · simp only [adjustWindow, Settled, if_neg hmissed, clamp_eq_iff]
    constructor
    · rintro (⟨hlt, heq⟩ | ⟨hle, heq⟩)
      · exact Or.inl ⟨heq, hlt⟩
      · exact Or.inr ⟨heq ▸ hle, by simpa using heq⟩
    · rintro (⟨heq, hlt⟩ | ⟨hle, hunit⟩)
      · exact Or.inl ⟨hlt, heq⟩
      · exact Or.inr ⟨by simpa [hunit] using hle, by simp [hunit]⟩

/-- Without a waiter `segment_end` changes nothing of its record but the flag. -/
theorem endRecord_unmarked {r : SegmentRecord} (hwaiter : r.hasWaiter = 0)
    (requiredLatency ticks : BitVec 64) :
    (endRecord r requiredLatency ticks).waitTime = r.waitTime ∧
      (endRecord r requiredLatency ticks).hasWaiter = 0 := by
  rw [endRecord, if_neg (not_not.mpr hwaiter)]
  exact ⟨rfl, rfl⟩

/-- With a waiter the flag is cleared outside the fast exit, and the window is then kept exactly if
it is settled. -/
theorem endRecord_marked {r : SegmentRecord} (hwaiter : r.hasWaiter ≠ 0)
    (requiredLatency ticks : BitVec 64) (parked : Prop) :
    (((endRecord r requiredLatency ticks).waitTime ≠ r.waitTime → parked) ∧
        (endRecord r requiredLatency ticks).hasWaiter = 0) ↔
      segmentReqThreshold ≤ requiredLatency ∧
        (parked ∨ Settled r (ticks - r.startTs) requiredLatency) := by
  rw [endRecord, if_pos hwaiter]
  by_cases hfast : requiredLatency < segmentReqThreshold
  · rw [if_pos hfast]
    exact iff_of_false (fun h => hwaiter h.2) fun h => BitVec.not_lt.mpr h.1 hfast
  · rw [if_neg hfast, ← adjustWindow_settled]
    simp only [BitVec.not_lt.mp hfast, and_true, true_and, ne_eq]
    exact or_iff_not_imp_right.symm

/-- At one end the window reacts to parking exactly if the mark is that of the execution. -/
theorem Follows.reactsToParking_iff {th₀ th : Tls} {h : History} {x : Execution}
    {rest : List Execution} {requiredLatency ticks : BitVec 64} (hfollows : Follows th₀ h th)
    (hopened : h.opened = x :: rest) (parked : Bool) :
    ReactsToParking th h x parked requiredLatency ticks ↔
      MarkIsOwn th h x parked requiredLatency ticks := by
  obtain ⟨hcurrent, i, hid, hi⟩ := hfollows.current hopened
  have honly : ∀ j : Fin maxSegment, (j : ℕ) = x.segmentId → j = i := fun j hj =>
    segmentId_inj.mp (hj.trans hid.symm)
  have hend : ∀ th', segmentEnd th x.segmentId requiredLatency ticks = some (0, th') →
      th'.segment i = endRecord (th.segment i) requiredLatency ticks := by
    intro th' hend
    rw [← hcurrent, segmentEnd_of_current requiredLatency ticks hi] at hend
    rw [segmentOut_segment hend]
    exact Function.update_self i _ th.segment
  have hnested : Nested th (x.segmentId :: rest.map Execution.segmentId) := by
    simpa [History.ids, hopened] using hfollows.nested
  obtain ⟨th₁, hend₁, -⟩ := hnested.finish requiredLatency ticks
  have hreacts : ReactsToParking th h x parked requiredLatency ticks ↔
      ((endRecord (th.segment i) requiredLatency ticks).waitTime ≠ (th.segment i).waitTime →
        parked = true) ∧ (endRecord (th.segment i) requiredLatency ticks).hasWaiter = 0 := by
    constructor
    · intro hreacts
      have := hreacts th₁ i hend₁ hid
      rwa [hend th₁ hend₁] at this
    · intro hrecord th' j hth' hj
      rw [honly j hj, hend th' hth']
      exact hrecord
  rw [hreacts, MarkIsOwn, ← hid, ← hfollows.hasWaiter i]
  by_cases hwaiter : (th.segment i).hasWaiter = 0
  · obtain ⟨hwindow, hflag⟩ := endRecord_unmarked hwaiter requiredLatency ticks
    exact iff_of_true ⟨fun h => absurd hwindow h, hflag⟩ fun h => absurd hwaiter h
  · rw [endRecord_marked hwaiter]
    constructor
    · intro hown _
      refine ⟨hown.1, hown.2.imp_right fun hsettled j hj => ?_⟩
      rw [segmentId_inj.mp hj]
      exact hsettled
    · intro hown
      exact ⟨(hown hwaiter).1, (hown hwaiter).2.imp_right fun hsettled => hsettled i rfl⟩

/-- Properties that agree at every `segment_end` hold at every one together. -/
theorem AtEveryParkedEnd.congr {th₀ : Tls} {events : List ThreadEvent}
    {P Q : Tls → History → Execution → Bool → BitVec 64 → BitVec 64 → Prop}
    (h : AtEveryParkedEnd th₀ events fun th history x parked requiredLatency ticks =>
      P th history x parked requiredLatency ticks ↔ Q th history x parked requiredLatency ticks) :
    AtEveryParkedEnd th₀ events P ↔ AtEveryParkedEnd th₀ events Q :=
  forall₄_congr fun before segmentId requiredLatency ticks =>
    forall₄_congr fun codes th x rest => forall₃_congr fun hpart hrun hopened =>
      h before segmentId requiredLatency ticks codes th x rest hpart hrun hopened

/-- In a well-nested run every `segment_end` that changes the window closes an execution in which
the thread has parked, and every one clears the waiter flag, exactly if at every end of a marked
segment the thread has parked in the execution that is closed, or the window is settled, and none
of these ends is a fast exit. -/
theorem window_reacts_to_waiting_iff {th₀ : Tls} {events : List ThreadEvent} {ids : List ℤ}
    (hbegins : Begins th₀) (hnest : nestAll [] (segmentEvents events) = some ids) :
    AtEveryParkedEnd th₀ events ReactsToParking ↔ AtEveryParkedEnd th₀ events MarkIsOwn := by
  refine AtEveryParkedEnd.congr ?_
  rintro before segmentId requiredLatency ticks codes th x rest ⟨after, rfl⟩ hrun hopened
  rw [List.append_assoc, segmentEvents, List.filterMap_append, nestAll_append] at hnest
  obtain ⟨ids₁, hbefore, -⟩ := Option.bind_eq_some_iff.mp hnest
  exact (hbegins.follows.run hbefore hrun).reactsToParking_iff hopened (parkedInside before)

/-- A lock wait in which the thread parks. -/
def parkedWait : List ThreadEvent := [.park, .segment .lockWait]

/-- A thread that parks in both of two nested segments and ends them with usual deadlines. -/
theorem window_reacts_to_waiting_iff_nested : AtEveryParkedEnd (htllThreadStart Tls.zero)
    (.segment (.start 3 5) :: parkedWait ++ .segment (.start 4 6) :: parkedWait ++
      [.segment (.finish 4 100 9), .segment (.finish 3 100 2000)]) ReactsToParking := by
  refine (window_reacts_to_waiting_iff begins_zero.2 (rfl : nestAll [] _ = some [])).mpr ?_
  rintro before segmentId requiredLatency ticks codes th x rest ⟨after, heq⟩ - hopened
  rcases before with _ | ⟨a, _ | ⟨b, _ | ⟨c, _ | ⟨d, _ | ⟨e, _ | ⟨f, _ | ⟨g, _ | ⟨k, before⟩⟩⟩⟩⟩⟩⟩⟩
  · cases heq
  · cases heq
  · cases heq
  · cases heq
  · cases heq
  · cases heq
  · cases heq
    cases hopened
    exact fun _ => ⟨by decide, Or.inl rfl⟩
  · cases heq
    cases hopened
    exact fun _ => ⟨by decide, Or.inl rfl⟩
  · simp [parkedWait] at heq

/-- A thread parks in segment 3, ends it with a deadline of 99 ticks, and executes it once more
without parking. -/
def fastExit : List ThreadEvent :=
  .segment (.start 3 5) :: parkedWait ++ [.segment (.finish 3 99 9), .segment (.start 3 20),
    .segment (.finish 3 100 30)]

/-- A thread waits for a lock in segment 3 without parking: the word has changed when it calls
`FUTEX_WAIT`. -/
def returnedWait : List ThreadEvent :=
  [.segment (.start 3 5), .segment .lockWait, .segment (.finish 3 100 30)]

/-- The fast exit leaves the waiter flag, and the second execution, in which the thread does not
park, widens the window. So does an execution with a wait that returns at once. -/
theorem fast_exit_leaves_waiter :
    ¬AtEveryParkedEnd (htllThreadStart Tls.zero) fastExit ReactsToParking ∧
      (∃ codes th codes' th', runSegments (htllThreadStart Tls.zero)
          (segmentEvents (fastExit.take 4)) = some (codes, th) ∧
        (th.segment ⟨3, by decide⟩).hasWaiter = 1 ∧
        runSegments (htllThreadStart Tls.zero) (segmentEvents fastExit) = some (codes', th') ∧
        (th.segment ⟨3, by decide⟩).waitTime = 10000 ∧
        (th'.segment ⟨3, by decide⟩).waitTime = 15000) ∧
      ¬AtEveryParkedEnd (htllThreadStart Tls.zero) returnedWait ReactsToParking := by
  refine ⟨fun h => ?_, ?_, fun h => ?_⟩
  · have hreacts := h (fastExit.take 3) 3 99 9 _ _ ⟨3, 5⟩ [] ⟨fastExit.drop 4, rfl⟩ rfl rfl
    have hflag := (hreacts _ ⟨3, by decide⟩ rfl rfl).2
    exact absurd hflag (by decide)
  · refine ⟨_, _, _, _, rfl, ?_, rfl, ?_, ?_⟩ <;> decide
  · have hreacts := h (returnedWait.take 2) 3 100 30 _ _ ⟨3, 5⟩ [] ⟨[], rfl⟩ rfl rfl
    have hparked := (hreacts _ ⟨3, by decide⟩ rfl rfl).1
    exact absurd (hparked (by decide)) (by decide)

end Htll
