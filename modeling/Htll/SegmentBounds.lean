import Htll.SegmentCalls

/-!
# Bounds of the segment arrays

Every access of the segment interface to its two arrays, `segment` and `segment_stack`, for calls
with arbitrary ids in any order. A call has a result in the model exactly when all its accesses are
inside the arrays. The stack is only left by opening a segment while `MAX_DEPTH` are open, and the
records by opening the id `MAX_SEGMENT` or by ending a segment while none is open.

An end without an open segment takes what lies before the records for its record and returns all
the same. For the capacity of the stack such a call has a result here too, whatever it reads there.
-/

namespace Htll

/-- The indices at which a call accesses `segment`. -/
def segmentAccesses (th : Tls) : SegmentEvent → List ℤ
  | .start segmentId _ => if startRefused th segmentId then [] else [segmentId]
  | .finish .. => [th.curSegmentId]
  | .lockWait => []

/-- The indices at which a call accesses `segment_stack`. -/
def stackAccesses (th : Tls) : SegmentEvent → List ℤ
  | .start segmentId _ => if startRefused th segmentId then [] else [th.stackPos + 1]
  | .finish segmentId requiredLatency _ =>
    if endRefused th segmentId requiredLatency || isStackEmpty th then [] else [th.stackPos]
  | .lockWait => []

/-- No more segments are open than events happened. -/
theorem openSegments_length_le (ids : List ℤ) (events : List SegmentEvent) (codes : List ℤ) :
    (openSegments ids events codes).length ≤ ids.length + events.length := by
  induction events generalizing ids codes with
  | nil => simp [openSegments]
  | cons e events ih =>
    cases codes with
    | nil => simp [openSegments]
    | cons code codes =>
      have hafter : (openAfter ids e code).length ≤ ids.length + 1 := by
        cases e with
        | lockWait => simp [openAfter]
        | start =>
          simp only [openAfter]
          split <;> simp
        | finish =>
          simp only [openAfter]
          split
          · rw [List.length_tail]
            omega
          · exact Nat.le_succ _
      have hrest := ih (openAfter ids e code) codes
      simp only [openSegments, List.length_cons]
      omega

section Accesses

variable {th : Tls} {segmentId : ℤ} {requiredLatency ticks : BitVec 64} {e : SegmentEvent}

/-- An index is accepted exactly inside the array. -/
theorem arrayIndex_isSome {size : ℕ} {k : ℤ} : (arrayIndex size k).isSome ↔ 0 ≤ k ∧ k < size := by
  unfold arrayIndex
  split <;> simp_all

/-- The label `out` has a result exactly when it stays inside the stack. -/
theorem segmentOut_isSome : (segmentOut th).isSome ↔
    (isStackEmpty th = false → 0 ≤ th.stackPos ∧ th.stackPos < maxDepth) := by
  cases hempty : isStackEmpty th with
  | true => simp [segmentOut, hempty]
  | false =>
    have hpos : ¬th.stackPos < 0 := by simpa [isStackEmpty] using hempty
    simp [segmentOut, hempty, popSegment, hpos, arrayIndex_isSome]

/-- A call has a result exactly when it stays inside both arrays. -/
theorem segmentStep_isSome : (segmentStep th e).isSome ↔
    (∀ k ∈ segmentAccesses th e, 0 ≤ k ∧ k < maxSegment) ∧
      ∀ k ∈ stackAccesses th e, 0 ≤ k ∧ k < maxDepth := by
  cases e with
  | start segmentId ticks =>
    cases hrefused : startRefused th segmentId with
    | true =>
      obtain ⟨code, th', hstart, -⟩ := segmentStart_of_refused hrefused ticks
      simp [segmentStep, segmentAccesses, stackAccesses, hrefused, hstart]
    | false =>
      rw [segmentStep, segmentStart_of_accepted hrefused]
      simp only [segmentAccesses, stackAccesses, hrefused, Bool.false_eq_true, if_false,
        List.mem_singleton, forall_eq, ← arrayIndex_isSome]
      cases arrayIndex maxDepth (th.stackPos + 1) <;> simp
  | finish segmentId requiredLatency ticks =>
    cases hi : arrayIndex maxSegment th.curSegmentId with
    | none =>
      have hout : ¬(0 ≤ th.curSegmentId ∧ th.curSegmentId < maxSegment) := by
        rw [← arrayIndex_isSome, hi]
        simp
      refine iff_of_false ?_ fun h => hout (h.1 th.curSegmentId (List.mem_singleton_self _))
      simp [segmentStep, segmentEnd, hi]
    | some i =>
      obtain ⟨hlow, hhigh, -⟩ := arrayIndex_eq_some hi
      rw [segmentStep, segmentEnd_eq hi]
      cases hrefused : endRefused th segmentId requiredLatency with
      | true => simp [segmentAccesses, stackAccesses, hrefused, hlow, hhigh]
      | false =>
        have hpos : (th.setRecord i (endRecord (th.segment i) requiredLatency ticks)).stackPos =
            th.stackPos := rfl
        rw [if_neg Bool.false_ne_true, segmentEnd_of_current requiredLatency ticks hi,
          segmentOut_isSome, hpos]
        simp [segmentAccesses, stackAccesses, hrefused, hlow, hhigh, isStackEmpty, hpos]
  | lockWait => simp [segmentStep, segmentAccesses, stackAccesses]

end Accesses

/-! ## Ends without an open segment -/

/-- The memory before the records, `segment[-1]`, as a thread meets it with no segment open: what it
reads there as `has_waiter`, and what its stores there leave of `segment_stack`, of which a part may
lie in that place. No other variable of the thread does. -/
structure Preceding where
  hasWaiter : BitVec 64
  segmentStack : Fin maxDepth → ℤ

/-- `segment_end` with `segment[-1]` as its record. -/
def segmentEndUnmatched (th : Tls) (m : Preceding) (segmentId : ℤ) (requiredLatency : BitVec 64) :
    Option (ℤ × Tls) :=
  let stored := { th with segmentStack := m.segmentStack }
  if m.hasWaiter ≠ 0 then
    if requiredLatency < segmentReqThreshold then segmentOut stored
    else if segmentId < 0 ∨ segmentId > maxSegment then some (negEinval, th)
    else if segmentId ≠ th.curSegmentId then some (negEinval, th)
    else segmentOut stored
  else segmentOut stored

/-- The effect of one event, with a result also where the event uses `segment[-1]`. -/
def segmentCall (th : Tls) : SegmentEvent × Preceding → Option (ℤ × Tls)
  | (.start segmentId ticks, _) => segmentStart th segmentId ticks
  | (.finish segmentId requiredLatency ticks, m) =>
    if th.curSegmentId = -1 then segmentEndUnmatched th m segmentId requiredLatency
    else segmentEnd th segmentId requiredLatency ticks
  | (.lockWait, m) =>
    if th.curSegmentId = -1 then some (0, { th with segmentStack := m.segmentStack })
    else some (0, markWaiter th)

/-- The effect of a list of them, with all returned codes. -/
def runSegmentCalls (th : Tls) : List (SegmentEvent × Preceding) → Option (List ℤ × Tls)
  | [] => some ([], th)
  | call :: calls =>
    (segmentCall th call).bind fun (code, th) =>
      (runSegmentCalls th calls).map fun (codes, th) => (code :: codes, th)

section Unmatched

variable {th th' : Tls} {ids : List ℤ} {m : Preceding} {code segmentId : ℤ}
  {requiredLatency ticks : BitVec 64} {e : SegmentEvent}

/-- With nothing open the contents of the stack do not matter. -/
theorem Nested.stored (h : Nested th []) (m : Preceding) :
    Nested { th with segmentStack := m.segmentStack } [] where
  current := h.current
  position := h.position
  depth := h.depth
  range := h.range
  stack _ hk := by cases hk

/-- `segment_end` with nothing open returns 0 or `-EINVAL`, and still nothing is open. -/
theorem Nested.endUnmatched (h : Nested th []) (m : Preceding) (segmentId : ℤ)
    (requiredLatency : BitVec 64) : ∃ code th', Nested th' [] ∧
      segmentEndUnmatched th m segmentId requiredLatency = some (code, th') := by
  have hempty : isStackEmpty { th with segmentStack := m.segmentStack } = true := by
    have hposition : th.stackPos = -1 := h.position
    simp [isStackEmpty, hposition]
  have hout : segmentOut { th with segmentStack := m.segmentStack } =
      some (0, { th with segmentStack := m.segmentStack, curSegmentId := -1 }) := if_pos hempty
  have hstored := h.stored m
  have hnested : Nested { th with segmentStack := m.segmentStack, curSegmentId := -1 } [] :=
    ⟨rfl, hstored.position, hstored.depth, hstored.range, hstored.stack⟩
  simp only [segmentEndUnmatched, hout]
  split
  · split
    · exact ⟨_, _, hnested, rfl⟩
    · split
      · exact ⟨_, _, h, rfl⟩
      · split
        · exact ⟨_, _, h, rfl⟩
        · exact ⟨_, _, hnested, rfl⟩
  · exact ⟨_, _, hnested, rfl⟩

/-- Something is open exactly if `cur_segment_id` is not −1. -/
theorem Nested.current_eq_iff (h : Nested th ids) : th.curSegmentId = -1 ↔ ids = [] := by
  cases ids with
  | nil => exact iff_of_true h.current rfl
  | cons current rest =>
    have hlow := (h.range current List.mem_cons_self).1
    refine iff_of_false (fun heq => ?_) (List.cons_ne_nil _ _)
    rw [h.arrayIndex_current.1] at heq
    omega

/-- Inside a segment nothing is read before the records. -/
theorem segmentCall_of_open (hopen : th.curSegmentId ≠ -1) :
    segmentCall th (e, m) = segmentStep th e := by
  cases e with
  | start => rfl
  | finish | lockWait => exact if_neg hopen

/-- Whatever a thread calls and meets, the code follows the stack of the segments that its calls
opened. -/
theorem Nested.called (h : Nested th ids) (hcall : segmentCall th (e, m) = some (code, th')) :
    Nested th' (openAfter ids e code) := by
  by_cases hnone : th.curSegmentId = -1
  · obtain rfl := h.current_eq_iff.mp hnone
    cases e with
    | start => exact h.answered hcall
    | finish segmentId requiredLatency ticks =>
      obtain ⟨code', th'', hnested, hend⟩ := h.endUnmatched m segmentId requiredLatency
      rw [segmentCall, if_pos hnone, hend] at hcall
      cases hcall
      simpa [openAfter] using hnested
    | lockWait =>
      rw [segmentCall, if_pos hnone] at hcall
      cases hcall
      exact h.stored m
  · rw [segmentCall_of_open hnone] at hcall
    exact h.answered hcall

/-- So it does along a list of calls. -/
theorem Nested.calls {calls : List (SegmentEvent × Preceding)} {codes : List ℤ} (h : Nested th ids)
    (hrun : runSegmentCalls th calls = some (codes, th')) :
    Nested th' (openSegments ids (calls.map Prod.fst) codes) := by
  induction calls generalizing th ids codes with
  | nil =>
    cases hrun
    exact h
  | cons call calls ih =>
    obtain ⟨⟨code, th₁⟩, hcall, hrun⟩ := Option.bind_eq_some_iff.mp hrun
    obtain ⟨⟨rest, th₂⟩, hrest, heq⟩ := Option.map_eq_some_iff.mp hrun
    cases heq
    exact ih (h.called hcall) hrest

/-- What the plain stack allows has a result. -/
theorem Nested.call {ids' : List ℤ} (h : Nested th ids) (m : Preceding)
    (hnest : nest ids e = some ids') :
    ∃ code th', segmentCall th (e, m) = some (code, th') ∧ Nested th' ids' := by
  by_cases hnone : th.curSegmentId = -1
  · obtain rfl := h.current_eq_iff.mp hnone
    cases e with
    | start segmentId ticks =>
      obtain ⟨th', hstep, hnested⟩ := h.step (.start segmentId ticks) hnest
      exact ⟨0, th', hstep, hnested⟩
    | finish => cases hnest
    | lockWait =>
      cases hnest
      exact ⟨0, _, if_pos hnone, h.stored m⟩
  · obtain ⟨th', hstep, hnested⟩ := h.step e hnest
    exact ⟨0, th', (segmentCall_of_open hnone).trans hstep, hnested⟩

/-- So has every list of such calls. -/
theorem Nested.runCalls {calls : List (SegmentEvent × Preceding)} {ids' : List ℤ}
    (h : Nested th ids) (hnest : nestAll ids (calls.map Prod.fst) = some ids') :
    ∃ codes th', runSegmentCalls th calls = some (codes, th') ∧ Nested th' ids' := by
  induction calls generalizing th ids with
  | nil =>
    cases hnest
    exact ⟨[], th, rfl, h⟩
  | cons call calls ih =>
    obtain ⟨ids₁, hfirst, hrest⟩ := Option.bind_eq_some_iff.mp hnest
    obtain ⟨code, th₁, hcall, hnested⟩ := h.call call.2 hfirst
    obtain ⟨codes, th', hrun, hnested'⟩ := ih hnested hrest
    exact ⟨code :: codes, th', by simp [runSegmentCalls, hcall, hrun], hnested'⟩

end Unmatched

/-- A property of every call of a list, in the state before it and with the segments open then. -/
def AtEveryCall (th₀ : Tls) (events : List SegmentEvent)
    (P : Tls → List ℤ → SegmentEvent → Prop) : Prop :=
  ∀ before e codes th, (before ++ [e]) <+: events → runSegments th₀ before = some (codes, th) →
    P th (openSegments [] before codes) e

/-- The same along calls that also have a result without an open segment. -/
def AtEverySegmentCall (th₀ : Tls) (calls : List (SegmentEvent × Preceding))
    (P : Tls → List ℤ → SegmentEvent × Preceding → Prop) : Prop :=
  ∀ before call codes th, (before ++ [call]) <+: calls →
    runSegmentCalls th₀ before = some (codes, th) →
    P th (openSegments [] (before.map Prod.fst) codes) call

/-- The id of a call is one of the `MAX_SEGMENT` ids. -/
def SegmentEvent.IdInRange : SegmentEvent → Prop
  | .start segmentId _ | .finish segmentId _ _ => 0 ≤ segmentId ∧ segmentId < maxSegment
  | .lockWait => True

/-- A call stays inside `segment_stack`, and `segment_start` succeeds while fewer than `MAX_DEPTH`
segments are open and returns `-ENOSPC` without any effect otherwise. -/
def RespectsCapacity (th : Tls) (ids : List ℤ) (e : SegmentEvent) : Prop :=
  (∀ k ∈ stackAccesses th e, 0 ≤ k ∧ k < maxDepth) ∧
    match e with
    | .start segmentId ticks =>
      (ids.length < maxDepth → ∃ th', segmentStart th segmentId ticks = some (0, th')) ∧
        (maxDepth ≤ ids.length → segmentStart th segmentId ticks = some (negEnospc, th))
    | _ => True

/-- A segment is opened while `MAX_DEPTH` segments are open. -/
def OpensBeyond (ids : List ℤ) : SegmentEvent → Prop
  | .start .. => maxDepth ≤ ids.length
  | .finish .. | .lockWait => False

/-- The innermost segment is none or one of the `MAX_SEGMENT` segments. -/
def CurrentInRange (th : Tls) : Prop :=
  th.curSegmentId = -1 ∨ 0 ≤ th.curSegmentId ∧ th.curSegmentId < maxSegment

/-- A call stays inside `segment`, and the innermost segment is in range before and after it. -/
def StaysInSegment (th : Tls) (e : SegmentEvent) : Prop :=
  (∀ k ∈ segmentAccesses th e, 0 ≤ k ∧ k < maxSegment) ∧ CurrentInRange th ∧
    ∀ code th', segmentStep th e = some (code, th') → CurrentInRange th'

/-- The id `MAX_SEGMENT` is opened, or a segment is ended while none is open. -/
def StraysFromSegment (ids : List ℤ) : SegmentEvent → Prop
  | .start segmentId _ => segmentId = maxSegment
  | .finish .. => ids = []
  | .lockWait => False

/-- What is equivalent in every nested state is equivalent at every call of a thread that begins
at rest. -/
theorem AtRest.atEveryCall_congr {th₀ : Tls} (hrest : AtRest th₀) {events : List SegmentEvent}
    {P Q : Tls → List ℤ → SegmentEvent → Prop}
    (h : ∀ th ids e, e ∈ events → Nested th ids → (P th ids e ↔ Q th ids e)) :
    AtEveryCall th₀ events P ↔ AtEveryCall th₀ events Q := by
  have hpoint : ∀ before e codes th, (before ++ [e]) <+: events →
      runSegments th₀ before = some (codes, th) →
      (P th (openSegments [] before codes) e ↔ Q th (openSegments [] before codes) e) := by
    intro before e codes th hpart hrun
    refine h th _ e (hpart.subset ?_) (hrest.nested.answers hrun)
    exact List.mem_append_right before (List.mem_singleton_self e)
  constructor
  · intro hP before e codes th hpart hrun
    exact (hpoint before e codes th hpart hrun).mp (hP before e codes th hpart hrun)
  · intro hQ before e codes th hpart hrun
    exact (hpoint before e codes th hpart hrun).mpr (hQ before e codes th hpart hrun)

section Bounds

variable {th : Tls} {ids : List ℤ} {e : SegmentEvent}

/-- Nested states keep the innermost segment in range. -/
theorem Nested.currentInRange (h : Nested th ids) : CurrentInRange th := by
  cases ids with
  | nil => exact Or.inl h.current
  | cons current rest =>
    rw [CurrentInRange, h.arrayIndex_current.1]
    exact Or.inr (h.range current (List.mem_cons_self ..))

/-- The stack is left exactly by a start at full depth. -/
theorem Nested.respectsCapacity_iff (h : Nested th ids) (hid : e.IdInRange) :
    RespectsCapacity th ids e ↔ ¬OpensBeyond ids e := by
  have hposition := h.position
  have hdepth := h.depth
  cases e with
  | start segmentId ticks =>
    have haccepted : ¬startRefused th segmentId = true := by
      rw [h.startRefused_iff]
      have hlow := hid.1
      have hhigh := hid.2
      omega
    constructor
    · intro hrespects hbeyond
      have hinside := hrespects.1 (th.stackPos + 1) (by simp [stackAccesses, haccepted])
      simp only [OpensBeyond] at hbeyond
      omega
    · intro hnot
      have hroom : ids.length < maxDepth := Nat.lt_of_not_le hnot
      obtain ⟨th', hstart, -⟩ := h.start ticks hid hroom
      refine ⟨fun k hk => ?_, fun _ => ⟨th', hstart⟩, fun hfull => absurd hfull hnot⟩
      have hk' : k = th.stackPos + 1 := by simpa [stackAccesses, haccepted] using hk
      omega
  | finish segmentId requiredLatency ticks =>
    refine iff_of_true ⟨fun k hk => ?_, trivial⟩ (fun hbeyond => hbeyond)
    have hk' : ¬th.stackPos < 0 ∧ k = th.stackPos := by
      simp only [stackAccesses] at hk
      split at hk
      · cases hk
      · simp_all [isStackEmpty]
    omega
  | lockWait => exact iff_of_true ⟨by simp [stackAccesses], trivial⟩ (fun hbeyond => hbeyond)

/-- The records are left exactly by opening `MAX_SEGMENT` or by ending what is not open. -/
theorem Nested.staysInSegment_iff (h : Nested th ids) :
    StaysInSegment th e ↔ ¬StraysFromSegment ids e := by
  have hafter : ∀ code th', segmentStep th e = some (code, th') → CurrentInRange th' :=
    fun code th' hstep => (h.answered hstep).currentInRange
  have haccesses : StaysInSegment th e ↔ ∀ k ∈ segmentAccesses th e, 0 ≤ k ∧ k < maxSegment :=
    and_iff_left ⟨h.currentInRange, hafter⟩
  rw [haccesses]
  cases e with
  | start segmentId ticks =>
    have hrefused : startRefused th segmentId = true ↔ segmentId < 0 ∨ segmentId > maxSegment :=
      h.startRefused_iff
    by_cases hout : startRefused th segmentId = true
    · rw [hrefused] at hout
      refine iff_of_true ?_ fun hstray => ?_
      · simp [segmentAccesses, hrefused.mpr hout]
      · simp only [StraysFromSegment] at hstray
        omega
    · rw [hrefused] at hout
      have hone : segmentAccesses th (.start segmentId ticks) = [segmentId] :=
        if_neg (fun h => hout (hrefused.mp h))
      simp only [hone, List.mem_singleton, forall_eq, StraysFromSegment]
      omega
  | finish segmentId requiredLatency ticks =>
    simp only [segmentAccesses, List.mem_singleton, forall_eq, StraysFromSegment]
    cases ids with
    | nil =>
      rw [h.current]
      simp
    | cons current rest =>
      rw [h.arrayIndex_current.1]
      simpa using h.range current (List.mem_cons_self ..)
  | lockWait => simp [segmentAccesses, StraysFromSegment]

/-- Called with ids in range, every call returns unless it opens a segment while `MAX_DEPTH` are
open, ends without an open segment included. -/
theorem Nested.returns (h : Nested th ids) (hid : e.IdInRange) (m : Preceding) :
    (segmentCall th (e, m)).isSome = true ∨ OpensBeyond ids e := by
  cases e with
  | start segmentId ticks =>
    rcases Nat.lt_or_ge ids.length maxDepth with hroom | hfull
    · obtain ⟨th', hstart, -⟩ := h.start ticks hid hroom
      exact Or.inl (Option.isSome_iff_exists.mpr ⟨_, hstart⟩)
    · exact Or.inr hfull
  | finish segmentId requiredLatency ticks =>
    refine Or.inl ?_
    cases ids with
    | nil =>
      obtain ⟨code, th', -, hend⟩ := h.endUnmatched m segmentId requiredLatency
      rw [segmentCall, if_pos (h.current_eq_iff.mpr rfl), hend]
      rfl
    | cons current rest =>
      obtain ⟨hcurrent, i, hi⟩ := h.arrayIndex_current
      obtain ⟨th', hend, -⟩ := h.finish requiredLatency ticks
      have hopen : th.curSegmentId ≠ -1 := fun heq => nomatch h.current_eq_iff.mp heq
      rw [segmentCall_of_open hopen, segmentStep, segmentEnd_eq hi, hcurrent, hend]
      split <;> rfl
  | lockWait =>
    refine Or.inl ?_
    rw [segmentCall]
    split <;> rfl

end Bounds

section Calls

variable {th₀ : Tls} {calls : List (SegmentEvent × Preceding)}
  {P Q : Tls → List ℤ → SegmentEvent × Preceding → Prop}

/-- Properties that agree at every call hold at every call together. -/
theorem AtEverySegmentCall.congr
    (h : AtEverySegmentCall th₀ calls fun th ids call => P th ids call ↔ Q th ids call) :
    AtEverySegmentCall th₀ calls P ↔ AtEverySegmentCall th₀ calls Q :=
  forall₄_congr fun before call codes th => forall₂_congr fun hpart hrun =>
    h before call codes th hpart hrun

/-- What is true of a call in every nested state is true at every call of a thread that begins at
rest, also after ends without an open segment. -/
theorem AtRest.atEverySegmentCall (hrest : AtRest th₀)
    (h : ∀ th ids, ∀ call ∈ calls, Nested th ids → P th ids call) :
    AtEverySegmentCall th₀ calls P := by
  intro before call codes th hpart hrun
  have hmem : call ∈ calls :=
    hpart.subset (List.mem_append_right before (List.mem_singleton_self call))
  exact h th _ call hmem (hrest.nested.calls hrun)

end Calls

/-- Called with ids in range, `segment_start` respects the capacity of the stack and every access
stays inside it exactly when no segment is opened while `MAX_DEPTH` are open. All other calls
return, ends without an open segment included. -/
theorem capacity_respected_iff {th₀ : Tls} (hrest : AtRest th₀)
    {calls : List (SegmentEvent × Preceding)} (hids : ∀ call ∈ calls, call.1.IdInRange) :
    (AtEverySegmentCall th₀ calls (fun th ids call => RespectsCapacity th ids call.1) ↔
      AtEverySegmentCall th₀ calls fun _ ids call => ¬OpensBeyond ids call.1) ∧
    AtEverySegmentCall th₀ calls fun th ids call =>
      (segmentCall th call).isSome = true ∨ OpensBeyond ids call.1 := by
  constructor
  · refine AtEverySegmentCall.congr (hrest.atEverySegmentCall fun _ _ call hcall hnested => ?_)
    exact hnested.respectsCapacity_iff (hids call hcall)
  · refine hrest.atEverySegmentCall fun _ _ call hcall hnested => ?_
    exact hnested.returns (hids call hcall) call.2

/-- What `segment[-1]` reads as before any store, with an empty stack. -/
def zeroPreceding : Preceding := ⟨0, fun _ => 0⟩

/-- A thread that opens segment 3 inside itself and ends it three times respects the capacity. -/
theorem capacity_respected_iff_recursive : AtEverySegmentCall (htllThreadStart Tls.zero)
    (List.map (·, zeroPreceding) [.start 3 5, .start 3 7, .finish 3 1000 9, .finish 3 1000 11,
      .finish 3 1000 13]) fun th ids call => RespectsCapacity th ids call.1 := by
  refine (capacity_respected_iff atRest_htllThreadStart ?_).1.mpr ?_
  · simp [SegmentEvent.IdInRange, maxSegment]
  · intro before call codes th hpart hrun hbeyond
    have hlength := hpart.length_le
    have hopen := openSegments_length_le [] (before.map Prod.fst) codes
    obtain ⟨e, m⟩ := call
    cases e with
    | start =>
      simp only [OpensBeyond, maxDepth, List.length_append, List.length_cons, List.length_nil,
        List.length_map] at hbeyond hlength hopen
      omega
    | finish | lockWait => exact hbeyond

/-- Opening segment 0 for the thirty-first time writes `segment_stack[30]`. -/
theorem stack_overrun : ¬AtEverySegmentCall (htllThreadStart Tls.zero)
    (List.replicate 31 (.start 0 0, zeroPreceding))
    fun th ids call => RespectsCapacity th ids call.1 := by
  have hnest : nestAll [] ((List.replicate 30 (.start 0 0, zeroPreceding)).map Prod.fst) =
      some (List.replicate 30 0) := by decide
  obtain ⟨codes, th, hrun, hnested⟩ := atRest_htllThreadStart.nested.runCalls hnest
  intro hevery
  have hrespects := hevery (List.replicate 30 (.start 0 0, zeroPreceding))
    (.start 0 0, zeroPreceding) codes th (List.replicate_succ' ▸ List.prefix_refl _) hrun
  have hposition : th.stackPos = 29 := hnested.position
  have hcurrent : th.curSegmentId = 0 := hnested.current
  have haccess : stackAccesses th (.start 0 0) = [30] := by
    simp [stackAccesses, startRefused, hposition, hcurrent, maxSegment]
  have hinside := hrespects.1 30 (haccess ▸ List.mem_singleton_self _)
  exact absurd hinside.2 (by decide)

/-- Opening `MAX_SEGMENT` once writes `segment[256]`. -/
theorem record_overrun : ¬AtEveryCall (htllThreadStart Tls.zero) [.start 256 0]
    fun th _ e => StaysInSegment th e := by
  intro hevery
  have hstays := hevery [] (.start 256 0) [] (htllThreadStart Tls.zero) (List.prefix_refl _) rfl
  exact absurd (hstays.1 256 (by decide)).2 (by decide)

/-- Every access of the segment interface stays inside `segment`, and `cur_segment_id` is always
−1 or in range, exactly when the id `MAX_SEGMENT` is never opened and no segment is ended while
none is open. -/
theorem segment_accesses_in_range_iff {th₀ : Tls} (hrest : AtRest th₀)
    (events : List SegmentEvent) :
    AtEveryCall th₀ events (fun th _ e => StaysInSegment th e) ↔
      AtEveryCall th₀ events fun _ ids e => ¬StraysFromSegment ids e :=
  hrest.atEveryCall_congr fun _ _ _ _ hnested => hnested.staysInSegment_iff

/-- Ending segment 3 and opening an id below the range leave no access out of range. -/
theorem segment_accesses_in_range_iff_refused : AtEveryCall (htllThreadStart Tls.zero)
    [.start 3 5, .start (-4) 7, .finish 3 1000 9] fun th _ e => StaysInSegment th e := by
  refine (segment_accesses_in_range_iff atRest_htllThreadStart _).mpr ?_
  rintro before e codes th ⟨after, hsplit⟩ hrun hstray
  rcases before with _ | ⟨e₁, _ | ⟨e₂, _ | ⟨e₃, before⟩⟩⟩
  · cases hsplit
    simp [StraysFromSegment, maxSegment] at hstray
  · cases hsplit
    simp [StraysFromSegment, maxSegment] at hstray
  · cases hsplit
    have hcodes : some [0, -22] = some codes := congrArg (Option.map Prod.fst) hrun
    cases hcodes
    simp [StraysFromSegment, openSegments, openAfter] at hstray
  · have hlength := congrArg List.length hsplit
    simp at hlength

end Htll
