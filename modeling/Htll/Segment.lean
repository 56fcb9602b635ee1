import Mathlib.Data.Int.Notation
import Mathlib.Data.Nat.Notation
import Mathlib.Logic.Function.Basic

/-!
# Segments and their reorder windows

The thread-local state behind `segment_start` and `segment_end`: one record per segment id,
the id of the innermost open segment, and a stack of enclosing ids whose outermost entry
is −1. Array accesses are checked: a call that would read or write outside `segment` or
`segment_stack` has no result here, since C gives it no meaning.

The store of `has_waiter` by a waiting thread is the exception: outside segments its index is
−1, and the cell it hits is not part of the modelled state.
-/

namespace Htll

/-- `MAX_SEGMENT`, the number of records. -/
def maxSegment : ℕ := 256

/-- `MAX_DEPTH`, the size of the stack. -/
def maxDepth : ℕ := 30

/-- `DEFAULT_REORDER`. -/
def defaultReorder : BitVec 64 := 10000

/-- `MIN_REORDER`. -/
def minReorder : BitVec 64 := 10000

/-- `DEFAULT_ADJUST_UNIT`. -/
def defaultAdjustUnit : BitVec 64 := 5000

/-- `MIN_ADJUST_UNIT`. -/
def minAdjustUnit : BitVec 64 := 1000

/-- `SEGMENT_REQ_THRESHOLD`. -/
def segmentReqThreshold : BitVec 64 := 100

/-- `-EINVAL`. -/
def negEinval : ℤ := -22

/-- `-ENOSPC`. -/
def negEnospc : ℤ := -28

/-- `segment_t`; its field `quick_start` is used nowhere. -/
structure SegmentRecord where
  waitTime : BitVec 64
  unit : BitVec 64
  hasWaiter : BitVec 64
  startTs : BitVec 64
  deriving DecidableEq

/-- The `__thread` variables of one thread. -/
structure Tls where
  segment : Fin maxSegment → SegmentRecord
  curSegmentId : ℤ
  segmentStack : Fin maxDepth → ℤ
  stackPos : ℤ

/-- An array index, if it is inside the array. -/
def arrayIndex (size : ℕ) (k : ℤ) : Option (Fin size) :=
  if h : 0 ≤ k ∧ k < size then some ⟨k.toNat, by omega⟩ else none

/-- A thread before any code of the library ran in it. -/
def Tls.zero : Tls where
  segment := fun _ => ⟨0, 0, 0, 0⟩
  curSegmentId := -1
  segmentStack := fun _ => 0
  stackPos := -1

/-- `htll_thread_start`, run by every thread that `pthread_create` starts. -/
def htllThreadStart (th : Tls) : Tls :=
  { th with
    segment := fun i =>
      { th.segment i with waitTime := defaultReorder, unit := defaultAdjustUnit }
    curSegmentId := -1 }

/-- Replace the record of one segment. -/
def Tls.setRecord (th : Tls) (i : Fin maxSegment) (r : SegmentRecord) : Tls :=
  { th with segment := Function.update th.segment i r }

/-- `push_segment`: the position is advanced before it is compared with `MAX_SEGMENT`. -/
def pushSegment (th : Tls) (segmentId : ℤ) : Option (ℤ × Tls) :=
  let pos := th.stackPos + 1
  if pos = maxSegment then some (negEnospc, { th with stackPos := pos })
  else
    (arrayIndex maxDepth pos).map fun k =>
      (0, { th with
        stackPos := pos
        segmentStack := Function.update th.segmentStack k segmentId })

/-- `pop_segment`. -/
def popSegment (th : Tls) : Option (ℤ × Tls) :=
  if th.stackPos < 0 then some (negEinval, th)
  else
    (arrayIndex maxDepth th.stackPos).map fun k =>
      (th.segmentStack k, { th with stackPos := th.stackPos - 1 })

/-- `is_stack_empty`. -/
def isStackEmpty (th : Tls) : Bool := th.stackPos < 0

/-- `segment_start` at a given tick count: the returned code and the new state. -/
def segmentStart (th : Tls) (segmentId : ℤ) (ticks : BitVec 64) : Option (ℤ × Tls) :=
  if segmentId < 0 ∨ segmentId > maxSegment ∨ th.curSegmentId < -1 then some (negEinval, th)
  else
    (pushSegment th th.curSegmentId).bind fun (code, th) =>
      if code < 0 then some (negEnospc, th)
      else
        (arrayIndex maxSegment segmentId).map fun i =>
          let th := { th with curSegmentId := segmentId }
          (0, th.setRecord i { th.segment i with startTs := ticks })

/-- The label `out` of `segment_end`. -/
def segmentOut (th : Tls) : Option (ℤ × Tls) :=
  if isStackEmpty th then some (0, { th with curSegmentId := -1 })
  else (popSegment th).map fun (id, th) => (0, { th with curSegmentId := id })

/-- The adjusted window and unit of a segment that had a waiter: halve the window after a
missed deadline, widen it by the unit after a met one. -/
def adjustWindow (r : SegmentRecord) (duration requiredLatency : BitVec 64) :
    BitVec 64 × BitVec 64 :=
  let (waitTime, unit) :=
    if duration > requiredLatency then
      let waitTime := r.waitTime >>> 1
      let unit := waitTime / 99
      (waitTime, if unit < minAdjustUnit then minAdjustUnit else unit)
    else (r.waitTime + r.unit, r.unit)
  (if waitTime < minReorder then minReorder else waitTime, unit)

/-- `segment_end` at a given tick count: the returned code and the new state. -/
def segmentEnd (th : Tls) (segmentId : ℤ) (requiredLatency ticks : BitVec 64) :
    Option (ℤ × Tls) :=
  (arrayIndex maxSegment th.curSegmentId).bind fun i =>
    let r := th.segment i
    let duration := ticks - r.startTs
    if r.hasWaiter ≠ 0 then
      if requiredLatency < segmentReqThreshold then
        -- the fast exit neither checks the id nor clears `has_waiter`
        segmentOut (th.setRecord i { r with waitTime := minReorder })
      else if segmentId < 0 ∨ segmentId > maxSegment then some (negEinval, th)
      else if segmentId ≠ th.curSegmentId then some (negEinval, th)
      else
        let (waitTime, unit) := adjustWindow r duration requiredLatency
        segmentOut (th.setRecord i { r with waitTime, unit, hasWaiter := 0 })
    else segmentOut (th.setRecord i { r with hasWaiter := 0 })

/-- The store `segment[cur_segment_id].has_waiter = 1` of a thread that waited for a lock. -/
def markWaiter (th : Tls) : Tls :=
  match arrayIndex maxSegment th.curSegmentId with
  | some i => th.setRecord i { th.segment i with hasWaiter := 1 }
  | none => th

/-- Nothing is open: the state in which a thread starts. -/
structure AtRest (th : Tls) : Prop where
  curSegmentId : th.curSegmentId = -1
  stackPos : th.stackPos = -1

/-- A thread started by `pthread_create` has no open segment. -/
theorem atRest_htllThreadStart : AtRest (htllThreadStart Tls.zero) := ⟨rfl, rfl⟩

/-- Waiting changes neither the innermost segment nor the stack. -/
@[simp] theorem markWaiter_curSegmentId (th : Tls) :
    (markWaiter th).curSegmentId = th.curSegmentId := by
  unfold markWaiter
  split <;> rfl

/-- An index inside the array is accepted. -/
theorem arrayIndex_of_lt {size : ℕ} {k : ℤ} (hlow : 0 ≤ k) (hhigh : k < size) :
    arrayIndex size k = some ⟨k.toNat, by omega⟩ := dif_pos ⟨hlow, hhigh⟩

end Htll
