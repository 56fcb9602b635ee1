import Htll.SegmentStack

/-!
# Segment calls with arbitrary arguments

A thread may call `segment_start` and `segment_end` with any ids, in any order. Which segments it
has open is then decided by the answers it got: an accepted start opens one and an accepted end
closes the innermost one. As long as no call leaves the arrays the code follows this stack, but it
does not protect it: `segment_start` compares the id and the depth with the wrong bounds, and
`segment_end` checks the id on one of its three paths only.
-/

namespace Htll

/-- The open segments after a call, by the code that it returned. -/
def openAfter (ids : List ℤ) : SegmentEvent → ℤ → List ℤ
  | .start segmentId _, code => if code = 0 then segmentId :: ids else ids
  | .finish .., code => if code = 0 then ids.tail else ids
  | .lockWait, _ => ids

/-- The open segments, innermost first, after a list of events that returned the given codes. -/
def openSegments (ids : List ℤ) : List SegmentEvent → List ℤ → List ℤ
  | e :: events, code :: codes => openSegments (openAfter ids e code) events codes
  | _, _ => ids

/-- `segment_end` returns before it reaches the label `out`. -/
def endRefused (th : Tls) (segmentId : ℤ) (requiredLatency : BitVec 64) : Bool :=
  match arrayIndex maxSegment th.curSegmentId with
  | some i =>
    (th.segment i).hasWaiter ≠ 0 ∧ ¬requiredLatency < segmentReqThreshold ∧
      (segmentId < 0 ∨ segmentId > maxSegment ∨ segmentId ≠ th.curSegmentId)
  | none => false

/-- `segment_start` returns before it has written anything but `stack_pos`. -/
def startRefused (th : Tls) (segmentId : ℤ) : Bool :=
  segmentId < 0 ∨ segmentId > maxSegment ∨ th.curSegmentId < -1 ∨ th.stackPos + 1 = maxSegment

section Calls

variable {th th' : Tls} {ids : List ℤ} {i : Fin maxSegment} {segmentId code : ℤ}
  {requiredLatency ticks : BitVec 64} {e : SegmentEvent}

/-- `segment_end` of another segment is refused with a waiter outside the fast exit. -/
theorem endRefused_iff (hi : arrayIndex maxSegment th.curSegmentId = some i) :
    endRefused th segmentId requiredLatency = true ↔
      (th.segment i).hasWaiter ≠ 0 ∧ segmentReqThreshold ≤ requiredLatency ∧
        segmentId ≠ th.curSegmentId := by
  obtain ⟨hlow, hhigh, -⟩ := arrayIndex_eq_some hi
  have hids : (segmentId < 0 ∨ segmentId > maxSegment ∨ segmentId ≠ th.curSegmentId) ↔
      segmentId ≠ th.curSegmentId := by omega
  simp only [endRefused, hi, decide_eq_true_eq, hids, BitVec.not_lt]

/-- Otherwise `segment_end` does what it does for the innermost segment, whatever the id. -/
theorem segmentEnd_eq (hi : arrayIndex maxSegment th.curSegmentId = some i) :
    segmentEnd th segmentId requiredLatency ticks =
      if endRefused th segmentId requiredLatency then some (negEinval, th)
      else segmentEnd th th.curSegmentId requiredLatency ticks := by
  have hrefused : endRefused th segmentId requiredLatency = true ↔
      (th.segment i).hasWaiter ≠ 0 ∧ segmentReqThreshold ≤ requiredLatency ∧
        segmentId ≠ th.curSegmentId := endRefused_iff hi
  by_cases hid : segmentId = th.curSegmentId
  · rw [if_neg (by rw [hrefused]; exact fun h => h.2.2 hid), hid]
  simp only [segmentEnd, hi, Option.bind_some]
  by_cases hwaiter : (th.segment i).hasWaiter ≠ 0
  · by_cases hfast : requiredLatency < segmentReqThreshold
    · have hnot : ¬endRefused th segmentId requiredLatency = true := fun h =>
        BitVec.not_le.mpr hfast (hrefused.mp h).2.1
      simp only [if_pos hwaiter, if_pos hfast, if_neg hnot]
    · rw [if_pos (hrefused.mpr ⟨hwaiter, BitVec.not_lt.mp hfast, hid⟩), if_pos hwaiter,
        if_neg hfast, if_pos hid, ite_self]
  · have hnot : ¬endRefused th segmentId requiredLatency = true := fun h =>
      hwaiter (hrefused.mp h).1
    simp only [if_neg hwaiter, if_neg hnot]

/-- A refused `segment_start` returns an error. -/
theorem segmentStart_of_refused (h : startRefused th segmentId = true) (ticks : BitVec 64) :
    ∃ code th', segmentStart th segmentId ticks = some (code, th') ∧ code < 0 := by
  simp only [startRefused, decide_eq_true_eq] at h
  by_cases hguard : segmentId < 0 ∨ segmentId > maxSegment ∨ th.curSegmentId < -1
  · exact ⟨negEinval, th, if_pos hguard, by decide⟩
  · have hfull : th.stackPos + 1 = maxSegment := by omega
    refine ⟨negEnospc, { th with stackPos := th.stackPos + 1 }, ?_, by decide⟩
    rw [segmentStart, if_neg hguard, pushSegment]
    simp only [if_pos hfull, Option.bind_some]
    rfl

/-- A `segment_start` that is not refused writes the next position of the stack and the start time
of the segment. -/
theorem segmentStart_of_accepted (h : startRefused th segmentId = false) :
    segmentStart th segmentId ticks =
      (arrayIndex maxDepth (th.stackPos + 1)).bind fun k =>
        (arrayIndex maxSegment segmentId).map fun i =>
          (0, { th with
            stackPos := th.stackPos + 1
            segmentStack := Function.update th.segmentStack k th.curSegmentId
            curSegmentId := segmentId
            segment := Function.update th.segment i { th.segment i with startTs := ticks } }) := by
  simp only [startRefused, decide_eq_false_iff_not] at h
  have hguard : ¬(segmentId < 0 ∨ segmentId > maxSegment ∨ th.curSegmentId < -1) := by omega
  have hfree : th.stackPos + 1 ≠ maxSegment := by omega
  rw [segmentStart, if_neg hguard, pushSegment]
  simp only [if_neg hfree]
  cases arrayIndex maxDepth (th.stackPos + 1) <;> rfl

/-! ## The stack along arbitrary calls -/

/-- In a nested state the innermost segment is a valid index. -/
theorem Nested.arrayIndex_current {current : ℤ} {rest : List ℤ} (h : Nested th (current :: rest)) :
    th.curSegmentId = current ∧ ∃ i, arrayIndex maxSegment th.curSegmentId = some i := by
  have hcurrent : th.curSegmentId = current := h.current
  obtain ⟨hlow, hhigh⟩ := h.range current (List.mem_cons_self ..)
  rw [hcurrent]
  exact ⟨rfl, _, arrayIndex_of_lt hlow hhigh⟩

/-- In a nested state `segment_start` is refused for its argument only. -/
theorem Nested.startRefused_iff (h : Nested th ids) :
    startRefused th segmentId = true ↔ segmentId < 0 ∨ segmentId > maxSegment := by
  have hcurrent : -1 ≤ th.curSegmentId := by
    cases ids with
    | nil => exact h.current.symm ▸ Int.le_refl (-1)
    | cons current rest =>
      have := (h.range current (List.mem_cons_self ..)).1
      rw [h.arrayIndex_current.1]
      omega
  have hposition := h.position
  have hdepth := h.depth
  simp only [startRefused, decide_eq_true_eq]
  simp only [maxDepth, maxSegment] at hdepth ⊢
  omega

/-- Whatever a thread calls, the code follows the stack of the segments that its calls opened. -/
theorem Nested.answered (h : Nested th ids) (hstep : segmentStep th e = some (code, th')) :
    Nested th' (openAfter ids e code) := by
  cases e with
  | start segmentId ticks =>
    cases hrefused : startRefused th segmentId with
    | true =>
      have hguard : segmentId < 0 ∨ segmentId > maxSegment ∨ th.curSegmentId < -1 :=
        (h.startRefused_iff.mp hrefused).elim Or.inl fun hhigh => Or.inr (Or.inl hhigh)
      rw [segmentStep, segmentStart, if_pos hguard] at hstep
      cases hstep
      exact h
    | false =>
      rw [segmentStep, segmentStart_of_accepted hrefused] at hstep
      obtain ⟨k, hk, hstep⟩ := Option.bind_eq_some_iff.mp hstep
      obtain ⟨i, hi, hstep⟩ := Option.map_eq_some_iff.mp hstep
      obtain ⟨hlow, hhigh, -⟩ := arrayIndex_eq_some hi
      obtain ⟨-, hdepth, -⟩ := arrayIndex_eq_some hk
      have hroom : ids.length < maxDepth := by
        have := h.position
        omega
      obtain ⟨th'', hstart, hnested⟩ := h.start ticks ⟨hlow, hhigh⟩ hroom
      rw [segmentStart_of_accepted hrefused, hk, Option.bind_some, hi, Option.map_some, hstep]
        at hstart
      cases hstart
      exact hnested
  | finish segmentId requiredLatency ticks =>
    cases ids with
    | nil =>
      rw [segmentStep, segmentEnd, h.current] at hstep
      cases hstep
    | cons current rest =>
      obtain ⟨hcurrent, i, hi⟩ := h.arrayIndex_current
      rw [segmentStep, segmentEnd_eq hi] at hstep
      split at hstep
      · cases hstep
        exact h
      · obtain ⟨th'', hend, hnested⟩ := h.finish requiredLatency ticks
        rw [hcurrent, hend] at hstep
        cases hstep
        exact hnested
  | lockWait =>
    cases hstep
    exact h.lockWait

/-- So it does along a list of calls. -/
theorem Nested.answers {events : List SegmentEvent} {codes : List ℤ} (h : Nested th ids)
    (hrun : runSegments th events = some (codes, th')) :
    Nested th' (openSegments ids events codes) := by
  induction events generalizing th ids codes with
  | nil =>
    cases hrun
    exact h
  | cons e events ih =>
    obtain ⟨⟨code, th₁⟩, hstep, hrun⟩ := Option.bind_eq_some_iff.mp hrun
    obtain ⟨⟨rest, th₂⟩, hrest, heq⟩ := Option.map_eq_some_iff.mp hrun
    cases heq
    exact ih (h.answered hstep) hrest

/-! ## Which ends are accepted -/

/-- `segment_end` answers as the stack of open segments demands: 0 for the innermost one, which it
closes, and `-EINVAL` without any effect for all others. -/
def EndsInnermost (th : Tls) (ids : List ℤ) (segmentId : ℤ) (requiredLatency ticks : BitVec 64) :
    Prop :=
  if ids.head? = some segmentId then
    ∃ th', segmentEnd th segmentId requiredLatency ticks = some (0, th') ∧ Nested th' ids.tail
  else segmentEnd th segmentId requiredLatency ticks = some (negEinval, th)

/-- The thread with another record of whether it had to wait in its innermost segment. -/
def withWaiter (th : Tls) (hasWaiter : BitVec 64) : Tls :=
  match arrayIndex maxSegment th.curSegmentId with
  | some i => th.setRecord i { th.segment i with hasWaiter }
  | none => th

/-- The answer of `segment_end` does not depend on whether the thread had to wait. -/
def IgnoresWaiter (th : Tls) (segmentId : ℤ) (requiredLatency ticks : BitVec 64) : Prop :=
  ∀ hasWaiter, (segmentEnd (withWaiter th hasWaiter) segmentId requiredLatency ticks).map Prod.fst =
    (segmentEnd th segmentId requiredLatency ticks).map Prod.fst

/-- The record of a wait opens and closes nothing. -/
theorem Nested.withWaiter (h : Nested th ids) (hasWaiter : BitVec 64) :
    Nested (withWaiter th hasWaiter) ids := by
  unfold Htll.withWaiter
  split <;> exact ⟨h.current, h.position, h.depth, h.range, h.stack⟩

/-- Without a waiter `segment_end` accepts every id. -/
theorem Nested.accepts_without_waiter {current : ℤ} {rest : List ℤ}
    (h : Nested th (current :: rest)) (segmentId : ℤ) (requiredLatency ticks : BitVec 64) :
    (segmentEnd (Htll.withWaiter th 0) segmentId requiredLatency ticks).map Prod.fst = some 0 := by
  obtain ⟨hcurrent, i, hi⟩ := (h.withWaiter 0).arrayIndex_current
  have hnone : ((Htll.withWaiter th 0).segment i).hasWaiter = 0 := by
    obtain ⟨-, j, hj⟩ := h.arrayIndex_current
    simp only [Htll.withWaiter, hj, Tls.setRecord, Option.some.injEq] at hi ⊢
    rw [hi, Function.update_self]
  have haccepted : ¬endRefused (Htll.withWaiter th 0) segmentId requiredLatency = true := by
    intro hrefused
    exact ((endRefused_iff hi).mp hrefused).1 hnone
  obtain ⟨th', hend, -⟩ := (h.withWaiter 0).finish requiredLatency ticks
  rw [segmentEnd_eq hi, if_neg haccepted, hcurrent, hend]
  rfl

/-- The answer is right for the innermost segment, and for the others where the id is checked. -/
theorem Nested.endsInnermost_iff (h : Nested th ids) :
    EndsInnermost th ids segmentId requiredLatency ticks ↔ ids.head? = some segmentId ∨
      ∃ i, arrayIndex maxSegment th.curSegmentId = some i ∧ (th.segment i).hasWaiter ≠ 0 ∧
        segmentReqThreshold ≤ requiredLatency := by
  cases ids with
  | nil =>
    have hnone : arrayIndex maxSegment th.curSegmentId = none := by rw [h.current]; rfl
    simp [EndsInnermost, segmentEnd, hnone]
  | cons current rest =>
    obtain ⟨hcurrent, i, hi⟩ := h.arrayIndex_current
    obtain ⟨th', hend, hnested⟩ := h.finish requiredLatency ticks
    by_cases hid : current = segmentId
    · subst hid
      simp only [EndsInnermost, List.head?_cons, if_true, true_or, iff_true]
      exact ⟨th', hend, hnested⟩
    · have hother : (current :: rest).head? ≠ some segmentId := by simpa using hid
      have hanswer : segmentEnd th segmentId requiredLatency ticks = some (negEinval, th) ↔
          endRefused th segmentId requiredLatency = true := by
        rw [segmentEnd_eq hi]
        by_cases hrefused : endRefused th segmentId requiredLatency = true
        · simp [hrefused]
        · simp [hrefused, hcurrent, hend, negEinval]
      have hne : segmentId ≠ th.curSegmentId := hcurrent ▸ Ne.symm hid
      rw [EndsInnermost, if_neg hother, hanswer, endRefused_iff hi]
      constructor
      · rintro ⟨hwaiter, hslow, -⟩
        exact Or.inr ⟨i, hi, hwaiter, hslow⟩
      · rintro (hinnermost | ⟨j, hj, hwaiter, hslow⟩)
        · exact absurd hinnermost hother
        · cases hi.symm.trans hj
          exact ⟨hwaiter, hslow, hne⟩

end Calls

/-- `segment_end` accepts exactly the innermost open segment, whether the thread had to wait or
not, only when it is called for that segment. Its answer alone is also right for any other id when
the innermost segment has a waiter and the required latency is not below the threshold. -/
theorem end_accepts_innermost_iff {th₀ th : Tls} {events : List SegmentEvent} {codes : List ℤ}
    (hrest : AtRest th₀) (hrun : runSegments th₀ events = some (codes, th)) (segmentId : ℤ)
    (requiredLatency ticks : BitVec 64) :
    (EndsInnermost th (openSegments [] events codes) segmentId requiredLatency ticks ∧
        IgnoresWaiter th segmentId requiredLatency ticks ↔
      (openSegments [] events codes).head? = some segmentId) ∧
    (EndsInnermost th (openSegments [] events codes) segmentId requiredLatency ticks ↔
      (openSegments [] events codes).head? = some segmentId ∨
        ∃ i, arrayIndex maxSegment th.curSegmentId = some i ∧ (th.segment i).hasWaiter ≠ 0 ∧
          segmentReqThreshold ≤ requiredLatency) := by
  have hnested := hrest.nested.answers hrun
  refine ⟨⟨fun hends => ?_, fun hinnermost => ?_⟩, hnested.endsInnermost_iff⟩
  · by_contra hother
    cases hids : openSegments [] events codes with
    | nil =>
      rw [hids] at hnested hends
      have hnone : arrayIndex maxSegment th.curSegmentId = none := by rw [hnested.current]; rfl
      simpa [hnone] using hnested.endsInnermost_iff.mp hends.1
    | cons current rest =>
      rw [hids] at hnested hends hother
      have hrefused := hends.1
      rw [EndsInnermost, if_neg hother] at hrefused
      have haccepted := hnested.accepts_without_waiter segmentId requiredLatency ticks
      rw [hends.2 0, hrefused] at haccepted
      simp [negEinval] at haccepted
  · refine ⟨hnested.endsInnermost_iff.mpr (Or.inl hinnermost), fun hasWaiter => ?_⟩
    cases hids : openSegments [] events codes with
    | nil => simp [hids] at hinnermost
    | cons current rest =>
      rw [hids] at hnested hinnermost
      cases hinnermost
      obtain ⟨th', hend, -⟩ := hnested.finish requiredLatency ticks
      obtain ⟨th'', hend', -⟩ := (hnested.withWaiter hasWaiter).finish requiredLatency ticks
      rw [hend, hend']
      rfl

/-- Segment 3 is ended while segment 5 is open inside it. -/
theorem outer_segment_ended : ∃ codes th,
    runSegments (htllThreadStart Tls.zero) [.start 3 5, .start 5 7] = some (codes, th) ∧
      ¬EndsInnermost th (openSegments [] [.start 3 5, .start 5 7] codes) 3 1000 9 := by
  refine ⟨[0, 0], _, rfl, fun hends => ?_⟩
  have hanswer : some (0 : ℤ) = some negEinval := congrArg (Option.map Prod.fst) hends
  exact absurd hanswer (by decide)

/-- With segment 5 open inside segment 3, ending segment 5 is accepted, also after a wait. -/
theorem end_accepts_innermost_iff_nested : ∃ codes th,
    runSegments (htllThreadStart Tls.zero) [.start 3 5, .start 5 7] = some (codes, th) ∧
      EndsInnermost th [5, 3] 5 1000 9 ∧ IgnoresWaiter th 5 1000 9 := by
  refine ⟨[0, 0], _, rfl, ?_⟩
  exact (end_accepts_innermost_iff atRest_htllThreadStart
    (rfl : runSegments (htllThreadStart Tls.zero) [.start 3 5, .start 5 7] = some ([0, 0], _))
    5 1000 9).1.mpr rfl

end Htll
