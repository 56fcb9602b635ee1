import Htll.Segment

/-!
# Segment nesting is a stack

A thread's history of segment calls, with the lock waits between them, is a list of events. Its
purpose is the plain stack of open segment ids; the code keeps the innermost id in
`cur_segment_id` and the others, over an outermost −1, in `segment_stack`. All three exits of
`segment_end` reach the same pop, so the code follows the plain stack as long as the nesting
stays within `MAX_DEPTH`.
-/

namespace Htll

/-- One event of a thread: a call of the segment interface or a wait for a lock. -/
inductive SegmentEvent where
  | start (segmentId : ℤ) (ticks : BitVec 64)
  | finish (segmentId : ℤ) (requiredLatency ticks : BitVec 64)
  | lockWait

/-- The effect of one event on the thread-local state, with the code that the call returns. -/
def segmentStep (th : Tls) : SegmentEvent → Option (ℤ × Tls)
  | .start segmentId ticks => segmentStart th segmentId ticks
  | .finish segmentId requiredLatency ticks => segmentEnd th segmentId requiredLatency ticks
  | .lockWait => some (0, markWaiter th)

/-- The effect of a list of events, with all returned codes. -/
def runSegments (th : Tls) : List SegmentEvent → Option (List ℤ × Tls)
  | [] => some ([], th)
  | e :: events =>
    (segmentStep th e).bind fun (code, th) =>
      (runSegments th events).map fun (codes, th) => (code :: codes, th)

/-- The plain stack of open ids, innermost first: a segment is opened within the range of ids
and the allowed depth, and only the innermost one is closed. -/
def nest (ids : List ℤ) : SegmentEvent → Option (List ℤ)
  | .start segmentId _ =>
    if 0 ≤ segmentId ∧ segmentId < maxSegment ∧ ids.length < maxDepth then some (segmentId :: ids)
    else none
  | .finish segmentId _ _ =>
    match ids with
    | [] => none
    | current :: rest => if segmentId = current then some rest else none
  | .lockWait => some ids

/-- The plain stack after a list of events. -/
def nestAll (ids : List ℤ) : List SegmentEvent → Option (List ℤ)
  | [] => some ids
  | e :: events => (nest ids e).bind fun ids => nestAll ids events

/-- A balanced list of events that opens at most the given number of segments at once. -/
inductive Balanced : ℕ → List SegmentEvent → Prop where
  | nil {depth : ℕ} : Balanced depth []
  | wait {depth : ℕ} {events : List SegmentEvent} (h : Balanced depth events) :
      Balanced depth (.lockWait :: events)
  | segment {depth : ℕ} {body events : List SegmentEvent} (segmentId : ℤ)
      (startTicks requiredLatency endTicks : BitVec 64)
      (hid : 0 ≤ segmentId ∧ segmentId < maxSegment) (hbody : Balanced depth body)
      (h : Balanced (depth + 1) events) :
      Balanced (depth + 1) (.start segmentId startTicks :: body ++
        .finish segmentId requiredLatency endTicks :: events)

/-- The plain stack reads a concatenation in two parts. -/
theorem nestAll_append (ids : List ℤ) (events events' : List SegmentEvent) :
    nestAll ids (events ++ events') = (nestAll ids events).bind fun ids => nestAll ids events' := by
  induction events generalizing ids with
  | nil => rfl
  | cons e events ih =>
    simp only [List.cons_append, nestAll]
    cases nest ids e with
    | none => rfl
    | some ids' => exact ih ids'

/-- A balanced list of events leaves the plain stack as it was. -/
theorem Balanced.nestAll {depth : ℕ} {events : List SegmentEvent} (h : Balanced depth events)
    (ids : List ℤ) (hdepth : ids.length + depth ≤ maxDepth) : nestAll ids events = some ids := by
  induction h generalizing ids with
  | nil => rfl
  | wait _ ih => exact ih ids hdepth
  | @segment depth body events segmentId _ _ _ hid _ _ ihbody ih =>
    have hstart : 0 ≤ segmentId ∧ segmentId < maxSegment ∧ ids.length < maxDepth :=
      ⟨hid.1, hid.2, by omega⟩
    have hinside := ihbody (segmentId :: ids) (by simp only [List.length_cons]; omega)
    simp only [List.cons_append, Htll.nestAll, nest, if_pos hstart, Option.bind_some]
    rw [nestAll_append, hinside]
    simpa [Htll.nestAll, nest] using ih ids hdepth

/-- The thread-local state represents the plain stack: position `k` of the array holds what was
innermost while `k` segments were open. -/
structure Nested (th : Tls) (ids : List ℤ) : Prop where
  current : th.curSegmentId = ids.headD (-1)
  position : th.stackPos = ids.length - 1
  depth : ids.length ≤ maxDepth
  range : ∀ i ∈ ids, 0 ≤ i ∧ i < maxSegment
  stack : ∀ k : Fin maxDepth, k < ids.length →
    th.segmentStack k = (ids.drop (ids.length - k)).headD (-1)

/-- A thread at rest has no segment open. -/
theorem AtRest.nested {th : Tls} (h : AtRest th) : Nested th [] where
  current := h.curSegmentId
  position := h.stackPos
  depth := Nat.zero_le _
  range := fun _ hi => by cases hi
  stack := fun _ hk => by cases hk

/-- The record of a segment after `segment_end` of that segment. -/
def endRecord (r : SegmentRecord) (requiredLatency ticks : BitVec 64) : SegmentRecord :=
  if r.hasWaiter ≠ 0 then
    if requiredLatency < segmentReqThreshold then { r with waitTime := minReorder }
    else
      let (waitTime, unit) := adjustWindow r (ticks - r.startTs) requiredLatency
      { r with waitTime, unit, hasWaiter := 0 }
  else { r with hasWaiter := 0 }

/-- An accepted index lies in the array. -/
theorem arrayIndex_eq_some {size : ℕ} {k : ℤ} {i : Fin size} (h : arrayIndex size k = some i) :
    0 ≤ k ∧ k < size ∧ k = i := by
  unfold arrayIndex at h
  split at h
  · rename_i hk
    cases h
    exact ⟨hk.1, hk.2, by simp [Int.toNat_of_nonneg hk.1]⟩
  · cases h

/-- `segment_end` of the innermost segment writes its record and reaches `out` in all three of
its exits. -/
theorem segmentEnd_of_current {th : Tls} {i : Fin maxSegment} (requiredLatency ticks : BitVec 64)
    (hi : arrayIndex maxSegment th.curSegmentId = some i) :
    segmentEnd th th.curSegmentId requiredLatency ticks =
      segmentOut (th.setRecord i (endRecord (th.segment i) requiredLatency ticks)) := by
  obtain ⟨hlow, hhigh, -⟩ := arrayIndex_eq_some hi
  have hrange : ¬(th.curSegmentId < 0 ∨ th.curSegmentId > maxSegment) := by omega
  simp only [segmentEnd, hi, Option.bind_some, endRecord]
  by_cases hwaiter : (th.segment i).hasWaiter ≠ 0
  · by_cases hfast : requiredLatency < segmentReqThreshold
    · rw [if_pos hwaiter, if_pos hfast, if_pos hwaiter, if_pos hfast]
    · rw [if_pos hwaiter, if_neg hfast, if_neg hrange, if_neg (by simp), if_pos hwaiter,
        if_neg hfast]
  · rw [if_neg hwaiter, if_neg hwaiter]

section Steps

variable {th : Tls} {ids : List ℤ}

/-- `segment_start` of an id in range opens a segment while the depth allows one more. -/
theorem Nested.start {segmentId : ℤ} (h : Nested th ids) (ticks : BitVec 64)
    (hid : 0 ≤ segmentId ∧ segmentId < maxSegment) (hdepth : ids.length < maxDepth) :
    ∃ th', segmentStart th segmentId ticks = some (0, th') ∧ Nested th' (segmentId :: ids) := by
  have hcurrent : ¬th.curSegmentId < -1 := by
    rw [h.current]
    cases ids with
    | nil => decide
    | cons i rest =>
      have := (h.range i (List.mem_cons_self ..)).1
      simp only [List.headD_cons]
      omega
  have hguard : ¬(segmentId < 0 ∨ segmentId > maxSegment ∨ th.curSegmentId < -1) := by omega
  have hpos : th.stackPos + 1 = ids.length := by
    have := h.position
    omega
  have hnotFull : th.stackPos + 1 ≠ maxSegment := by
    rw [hpos]
    simp only [maxDepth, maxSegment] at hdepth ⊢
    omega
  have hk : arrayIndex maxDepth (th.stackPos + 1) = some ⟨ids.length, hdepth⟩ := by
    rw [hpos, arrayIndex_of_lt (by omega) (by omega)]
    simp
  rw [segmentStart, if_neg hguard, pushSegment]
  simp only [if_neg hnotFull, hk, Option.map_some, Option.bind_some, Int.lt_irrefl, if_false,
    arrayIndex_of_lt hid.1 hid.2]
  refine ⟨_, rfl, rfl, by simp [Tls.setRecord, hpos], hdepth, ?_, ?_⟩
  · intro i hi
    rcases List.mem_cons.mp hi with rfl | hi
    · exact hid
    · exact h.range i hi
  · intro k hk'
    simp only [Tls.setRecord, List.length_cons] at hk' ⊢
    by_cases hlast : k = ⟨ids.length, hdepth⟩
    · subst hlast
      rw [Function.update_self, h.current]
      simp
    · have hne : (k : ℕ) ≠ ids.length := fun heq => hlast (Fin.ext heq)
      rw [Function.update_of_ne hlast, h.stack k (by omega)]
      rw [show ids.length + 1 - k = (ids.length - k) + 1 by omega, List.drop_succ_cons]

/-- `segment_end` of the innermost segment closes it. -/
theorem Nested.finish {segmentId : ℤ} (h : Nested th (segmentId :: ids))
    (requiredLatency ticks : BitVec 64) :
    ∃ th', segmentEnd th segmentId requiredLatency ticks = some (0, th') ∧ Nested th' ids := by
  have hcurrent : segmentId = th.curSegmentId := by rw [h.current]; rfl
  have hid := h.range segmentId (List.mem_cons_self ..)
  have hi : arrayIndex maxSegment th.curSegmentId = some ⟨segmentId.toNat, by omega⟩ :=
    hcurrent ▸ arrayIndex_of_lt hid.1 hid.2
  have hpos : th.stackPos = ids.length := by
    have := h.position
    simp only [List.length_cons] at this
    omega
  have hdepth : ids.length < maxDepth := h.depth
  have hk : arrayIndex maxDepth th.stackPos = some ⟨ids.length, hdepth⟩ := by
    rw [hpos, arrayIndex_of_lt (by omega) (by omega)]
    simp
  have hnonempty : ¬th.stackPos < 0 := by omega
  rw [hcurrent, segmentEnd_of_current requiredLatency ticks hi, segmentOut]
  simp only [isStackEmpty, popSegment, Tls.setRecord, hnonempty, decide_false, if_false, hk,
    Option.map_some, Bool.false_eq_true]
  refine ⟨_, rfl, ?_, by simp [hpos], Nat.le_of_lt hdepth, ?_, ?_⟩
  · have htop := h.stack ⟨ids.length, hdepth⟩ (by simp)
    simpa using htop
  · exact fun i hi => h.range i (List.mem_cons_of_mem _ hi)
  · intro k hk'
    have hbelow := h.stack k (by simp only [List.length_cons]; omega)
    rw [List.length_cons, show ids.length + 1 - k = (ids.length - k) + 1 by omega,
      List.drop_succ_cons] at hbelow
    exact hbelow

/-- A lock wait opens and closes nothing. -/
theorem Nested.lockWait (h : Nested th ids) : Nested (markWaiter th) ids := by
  unfold markWaiter
  split <;> exact ⟨h.current, h.position, h.depth, h.range, h.stack⟩

/-- Every event that the plain stack allows returns 0 and is followed by the code. -/
theorem Nested.step {ids' : List ℤ} (h : Nested th ids) (e : SegmentEvent)
    (hnest : nest ids e = some ids') :
    ∃ th', segmentStep th e = some (0, th') ∧ Nested th' ids' := by
  cases e with
  | start segmentId ticks =>
    obtain ⟨⟨hlow, hhigh, hdepth⟩, heq⟩ := Option.ite_none_right_eq_some.mp hnest
    cases heq
    exact h.start ticks ⟨hlow, hhigh⟩ hdepth
  | finish segmentId requiredLatency ticks =>
    cases ids with
    | nil => cases hnest
    | cons current rest =>
      obtain ⟨rfl, heq⟩ := Option.ite_none_right_eq_some.mp hnest
      cases heq
      exact h.finish requiredLatency ticks
  | lockWait =>
    cases hnest
    exact ⟨_, rfl, h.lockWait⟩

/-- So does every list of events. -/
theorem Nested.run {ids' : List ℤ} (h : Nested th ids) (events : List SegmentEvent)
    (hnest : nestAll ids events = some ids') :
    ∃ codes th', runSegments th events = some (codes, th') ∧ (∀ code ∈ codes, code = 0) ∧
      Nested th' ids' := by
  induction events generalizing th ids with
  | nil =>
    cases hnest
    exact ⟨[], th, rfl, by simp, h⟩
  | cons e events ih =>
    obtain ⟨ids₁, hfirst, hrest⟩ := Option.bind_eq_some_iff.mp hnest
    obtain ⟨th₁, hstep, hnested⟩ := h.step e hfirst
    obtain ⟨codes, th', hrun, hcodes, hnested'⟩ := ih hnested hrest
    refine ⟨0 :: codes, th', by simp [runSegments, hstep, hrun], ?_, hnested'⟩
    intro code hcode
    rcases List.mem_cons.mp hcode with rfl | hcode
    · rfl
    · exact hcodes code hcode

/-- Two states that represent the same plain stack agree on what the code keeps of it. -/
theorem Nested.agree {th' : Tls} (h : Nested th ids) (h' : Nested th' ids) :
    th'.curSegmentId = th.curSegmentId ∧ th'.stackPos = th.stackPos ∧
      ∀ k : Fin maxDepth, (k : ℤ) ≤ th.stackPos → th'.segmentStack k = th.segmentStack k := by
  refine ⟨h'.current.trans h.current.symm, h'.position.trans h.position.symm, fun k hk => ?_⟩
  have hlt : k < ids.length := by
    have := h.position
    omega
  rw [h.stack k hlt, h'.stack k hlt]

end Steps

/-- Segment nesting is a faithful stack: from a thread at rest every well-nested history of
segment calls and lock waits returns 0 throughout and leaves the innermost open id in
`cur_segment_id`, and every balanced continuation within `MAX_DEPTH` returns 0 throughout and
restores `cur_segment_id`, `stack_pos` and the stack up to `stack_pos`. -/
theorem segment_nesting_faithful {th : Tls} {events block : List SegmentEvent} {ids : List ℤ}
    {depth : ℕ} (hrest : AtRest th) (hnest : nestAll [] events = some ids)
    (hblock : Balanced depth block) (hdepth : ids.length + depth ≤ maxDepth) :
    ∃ codes th' codes' th'', runSegments th events = some (codes, th') ∧
      runSegments th' block = some (codes', th'') ∧ (∀ code ∈ codes ++ codes', code = 0) ∧
      th'.curSegmentId = ids.headD (-1) ∧ th''.curSegmentId = th'.curSegmentId ∧
      th''.stackPos = th'.stackPos ∧
      ∀ k : Fin maxDepth, (k : ℤ) ≤ th'.stackPos → th''.segmentStack k = th'.segmentStack k := by
  obtain ⟨codes, th', hrun, hcodes, hnested⟩ := hrest.nested.run events hnest
  obtain ⟨codes', th'', hrun', hcodes', hnested'⟩ :=
    hnested.run block (hblock.nestAll ids hdepth)
  refine ⟨codes, th', codes', th'', hrun, hrun', ?_, hnested.current, hnested.agree hnested'⟩
  intro code hcode
  exact (List.mem_append.mp hcode).elim (hcodes code) (hcodes' code)

/-- Inside segment 3 the same segment is opened again, waits for a lock and ends. -/
theorem segment_nesting_faithful_recursive :
    ∃ codes th' codes' th'',
      runSegments (htllThreadStart Tls.zero) [.start 3 5] = some (codes, th') ∧
      runSegments th' [.start 3 7, .lockWait, .finish 3 1000 9] = some (codes', th'') ∧
      (∀ code ∈ codes ++ codes', code = 0) ∧ th'.curSegmentId = 3 ∧ th''.curSegmentId = 3 := by
  obtain ⟨codes, th', codes', th'', hrun, hrun', hcodes, hcurrent, hrestored, -⟩ :=
    segment_nesting_faithful atRest_htllThreadStart (rfl : nestAll [] [.start 3 5] = some [3])
      (.segment 3 7 1000 9 (by decide) (.wait .nil) .nil : Balanced 1 _) (by decide)
  exact ⟨codes, th', codes', th'', hrun, hrun', hcodes, hcurrent, hrestored.trans hcurrent⟩

end Htll
