import Htll.Condition
import Htll.Protocol.Transition
import Htll.SegmentStack
import Mathlib.Algebra.Ring.Nat

/-!
# The reorder window and the time-out of a parked thread

A thread that waits for a lock inside a segment parks with the time-out {0, wait_time} of that
segment, which the kernel only accepts below 10^9 nanoseconds. `segment_end` raises the window
by its unit after every met deadline and has no upper clamp, so the window leaves this range
after enough of them; the event that does it is the only one that can.
-/

namespace Htll

open Transition

/-- `FUTEX_WAIT` accepts a relative time-out with nanoseconds below 10^9. -/
def futexAccepts (ts : Timespec) : Prop := 0 ≤ ts.tvSec ∧ 0 ≤ ts.tvNsec ∧ ts.tvNsec < 1000000000

/-- The time-out of a thread that parks inside a segment with the given record; `tv_nsec` is a
signed `long`. -/
def parkTimeout (r : SegmentRecord) : Timespec := { tvSec := 0, tvNsec := r.waitTime.toInt }

/-- The largest window that the kernel accepts as nanoseconds. -/
def maxWindow : ℕ := 999999999

/-- Every window is in range and gives a time-out that the kernel accepts. -/
def WindowsInRange (th : Tls) : Prop :=
  ∀ i, (minReorder ≤ (th.segment i).waitTime ∧ (th.segment i).waitTime.toNat ≤ maxWindow) ∧
    futexAccepts (parkTimeout (th.segment i))

/-- The event ends the innermost segment after a met deadline with a waiter, and its window and
unit add up to more than the kernel accepts. -/
def Overshoots (th : Tls) : SegmentEvent → Prop
  | .finish segmentId requiredLatency ticks =>
    ∃ i, arrayIndex maxSegment th.curSegmentId = some i ∧ segmentId = th.curSegmentId ∧
      (th.segment i).hasWaiter ≠ 0 ∧ segmentReqThreshold ≤ requiredLatency ∧
      ticks - (th.segment i).startTs ≤ requiredLatency ∧
      maxWindow < (th.segment i).waitTime.toNat + (th.segment i).unit.toNat
  | _ => False

/-- The thread-local state after one event. -/
def segmentNext (th : Tls) (e : SegmentEvent) : Option Tls := (segmentStep th e).map Prod.snd

/-- The largest unit that a window in range leads to, (10^9 − 1) / 2 / 99. -/
def maxUnit : ℕ := 5050505

/-- A record whose window is in range and whose unit came from such windows. -/
structure Steady (r : SegmentRecord) : Prop where
  low : 10000 ≤ r.waitTime.toNat
  high : r.waitTime.toNat ≤ maxWindow
  unit : r.unit.toNat ≤ maxUnit

/-- The start time and the waiter of a record are free. -/
theorem Steady.of_same {r r' : SegmentRecord} (h : Steady r) (hwindow : r'.waitTime = r.waitTime)
    (hunit : r'.unit = r.unit) : Steady r' :=
  ⟨hwindow ▸ h.low, hwindow ▸ h.high, hunit ▸ h.unit⟩

/-- `MIN_REORDER` as a number. -/
theorem minReorder_toNat : minReorder.toNat = 10000 := rfl

/-- A steady window is a time-out that the kernel accepts. -/
theorem Steady.accepted {r : SegmentRecord} (h : Steady r) : futexAccepts (parkTimeout r) := by
  have hhigh := h.high
  simp only [maxWindow] at hhigh
  have hint : r.waitTime.toInt = r.waitTime.toNat := BitVec.toInt_eq_toNat_of_lt (by omega)
  refine ⟨le_rfl, ?_, ?_⟩
  · simp only [parkTimeout, hint]
    omega
  · simp only [parkTimeout, hint]
    omega

/-- Steady records have windows in range. -/
theorem windowsInRange_of_steady {th : Tls} (h : ∀ i, Steady (th.segment i)) :
    WindowsInRange th :=
  fun i => ⟨⟨(h i).low, (h i).high⟩, (h i).accepted⟩

/-- The window after a met deadline. -/
theorem endRecord_met {r : SegmentRecord} {requiredLatency ticks : BitVec 64}
    (hwaiter : r.hasWaiter ≠ 0) (hslow : segmentReqThreshold ≤ requiredLatency)
    (hmet : ticks - r.startTs ≤ requiredLatency) (hlow : 10000 ≤ r.waitTime.toNat)
    (hfits : r.waitTime.toNat + r.unit.toNat < 2 ^ 64) :
    (endRecord r requiredLatency ticks).waitTime.toNat = r.waitTime.toNat + r.unit.toNat ∧
      (endRecord r requiredLatency ticks).unit = r.unit := by
  have hsum : (r.waitTime + r.unit).toNat = r.waitTime.toNat + r.unit.toNat :=
    BitVec.toNat_add_of_lt hfits
  have hclamp : ¬r.waitTime + r.unit < minReorder := by
    rw [BitVec.lt_def, hsum, minReorder_toNat]
    omega
  have hfast : ¬requiredLatency < segmentReqThreshold := by
    rw [BitVec.lt_def]
    rw [BitVec.le_def] at hslow
    omega
  have hnot : ¬ticks - r.startTs > requiredLatency := by
    rw [gt_iff_lt, BitVec.lt_def]
    rw [BitVec.le_def] at hmet
    omega
  rw [endRecord, if_pos hwaiter, if_neg hfast]
  simp only [adjustWindow, if_neg hnot, if_neg hclamp, and_true]
  exact hsum

/-- Steady windows and units add up without overflow. -/
theorem Steady.fits {r : SegmentRecord} (h : Steady r) :
    r.waitTime.toNat + r.unit.toNat < 2 ^ 64 := by
  obtain ⟨-, hhigh, hunit⟩ := h
  simp only [maxWindow, maxUnit] at hhigh hunit
  omega

/-- Half of a window, and a ninety-ninth of that. -/
theorem half_toNat (x : BitVec 64) :
    (x >>> 1).toNat = x.toNat / 2 ∧ (x >>> 1 / 99).toNat = x.toNat / 2 / 99 := by
  have hhalf : (x >>> 1).toNat = x.toNat / 2 := by
    simp [BitVec.toNat_ushiftRight, Nat.shiftRight_eq_div_pow]
  refine ⟨hhalf, ?_⟩
  rw [BitVec.toNat_udiv, hhalf]
  rfl

/-- The window and the unit after a missed deadline stay in range. -/
theorem adjustWindow_missed {r : SegmentRecord} {duration requiredLatency : BitVec 64}
    (hmissed : duration > requiredLatency) (hr : Steady r) :
    10000 ≤ (adjustWindow r duration requiredLatency).1.toNat ∧
      (adjustWindow r duration requiredLatency).1.toNat ≤ maxWindow ∧
      (adjustWindow r duration requiredLatency).2.toNat ≤ maxUnit := by
  have hhigh := hr.high
  simp only [maxWindow, maxUnit] at hhigh ⊢
  obtain ⟨hhalf, hunit⟩ := half_toNat r.waitTime
  simp only [adjustWindow, if_pos hmissed]
  refine ⟨?_, ?_, ?_⟩
  · split <;> rename_i hclamp
    · exact le_rfl
    · rw [BitVec.lt_def, minReorder_toNat] at hclamp
      omega
  · split
    · simp [minReorder_toNat]
    · omega
  · split
    · exact (by decide : minAdjustUnit.toNat ≤ 5050505)
    · omega

/-- The record after `segment_end` stays steady unless the event overshoots. -/
theorem steady_endRecord {r : SegmentRecord} {requiredLatency ticks : BitVec 64} (hr : Steady r)
    (hkeep : r.hasWaiter ≠ 0 → segmentReqThreshold ≤ requiredLatency →
      ticks - r.startTs ≤ requiredLatency → r.waitTime.toNat + r.unit.toNat ≤ maxWindow) :
    Steady (endRecord r requiredLatency ticks) := by
  by_cases hwaiter : r.hasWaiter ≠ 0
  · by_cases hfast : requiredLatency < segmentReqThreshold
    · rw [endRecord, if_pos hwaiter, if_pos hfast]
      exact ⟨le_rfl, by simp [minReorder_toNat, maxWindow], hr.unit⟩
    have hslow : segmentReqThreshold ≤ requiredLatency := BitVec.not_lt.mp hfast
    by_cases hmissed : ticks - r.startTs > requiredLatency
    · obtain ⟨hlow, hhigh, hunit⟩ := adjustWindow_missed hmissed hr
      rw [endRecord, if_pos hwaiter, if_neg hfast]
      exact ⟨hlow, hhigh, hunit⟩
    · have hmet : ticks - r.startTs ≤ requiredLatency := BitVec.not_lt.mp hmissed
      obtain ⟨hsum, hunit⟩ := endRecord_met hwaiter hslow hmet hr.low hr.fits
      have hlow := hr.low
      exact ⟨by omega, hsum ▸ hkeep hwaiter hslow hmet, by rw [hunit]; exact hr.unit⟩
  · rw [endRecord, if_neg hwaiter]
    exact ⟨hr.low, hr.high, hr.unit⟩

section Steps

variable {th th' : Tls}

/-- Pushing touches no record. -/
theorem pushSegment_segment {segmentId code : ℤ} (h : pushSegment th segmentId = some (code, th')) :
    th'.segment = th.segment := by
  simp only [pushSegment] at h
  split at h
  · cases h
    rfl
  · obtain ⟨k, -, heq⟩ := Option.map_eq_some_iff.mp h
    cases heq
    rfl

/-- The label `out` touches no record. -/
theorem segmentOut_segment {code : ℤ} (h : segmentOut th = some (code, th')) :
    th'.segment = th.segment := by
  simp only [segmentOut, popSegment] at h
  split at h
  · cases h
    rfl
  · split at h
    · cases h
      rfl
    · rw [Option.map_map] at h
      obtain ⟨k, -, heq⟩ := Option.map_eq_some_iff.mp h
      cases heq
      rfl

/-- `segment_start` writes the start time of its record, or fails. -/
theorem segmentStart_segment {segmentId code : ℤ} {ticks : BitVec 64}
    (h : segmentStart th segmentId ticks = some (code, th')) :
    (code < 0 ∧ th'.segment = th.segment) ∨
      ∃ i, arrayIndex maxSegment segmentId = some i ∧ th'.segment =
        Function.update th.segment i { th.segment i with startTs := ticks } := by
  simp only [segmentStart] at h
  split at h
  · cases h
    exact Or.inl ⟨by decide, rfl⟩
  · obtain ⟨⟨code', th₁⟩, hpush, h⟩ := Option.bind_eq_some_iff.mp h
    have hsame := pushSegment_segment hpush
    split at h
    · cases h
      exact Or.inl ⟨by decide, hsame⟩
    · obtain ⟨i, hi, heq⟩ := Option.map_eq_some_iff.mp h
      cases heq
      exact Or.inr ⟨i, hi, by simp [Tls.setRecord, hsame]⟩

/-- A lock wait inside a segment marks its record. -/
theorem markWaiter_segment {i : Fin maxSegment}
    (hi : arrayIndex maxSegment th.curSegmentId = some i) :
    (markWaiter th).segment =
      Function.update th.segment i { th.segment i with hasWaiter := 1 } := by
  simp only [markWaiter, hi]
  rfl

/-- `segment_end` leaves all records, or writes the record of the innermost segment; with another
id only where it does not look at the id. -/
theorem segmentEnd_segment {segmentId code : ℤ} {requiredLatency ticks : BitVec 64}
    (h : segmentEnd th segmentId requiredLatency ticks = some (code, th')) :
    th'.segment = th.segment ∨ ∃ i, arrayIndex maxSegment th.curSegmentId = some i ∧
      th'.segment =
        Function.update th.segment i (endRecord (th.segment i) requiredLatency ticks) ∧
      ((th.segment i).hasWaiter ≠ 0 → segmentReqThreshold ≤ requiredLatency →
        segmentId = th.curSegmentId) := by
  obtain ⟨i, hi, hend⟩ := Option.bind_eq_some_iff.mp h
  by_cases hid : segmentId = th.curSegmentId
  · rw [hid, segmentEnd_of_current requiredLatency ticks hi] at h
    exact Or.inr ⟨i, hi, segmentOut_segment h, fun _ _ => hid⟩
  simp only at hend
  split at hend
  · rename_i hwaiter
    split at hend
    · rename_i hfast
      refine Or.inr ⟨i, hi, ?_, fun _ hslow => absurd hfast (BitVec.not_lt.mpr hslow)⟩
      rw [segmentOut_segment hend, endRecord, if_pos hwaiter, if_pos hfast]
      rfl
    · split at hend
      · cases hend
        exact Or.inl rfl
      · cases hend
        exact Or.inl rfl
  · rename_i hwaiter
    refine Or.inr ⟨i, hi, ?_, fun h _ => absurd h hwaiter⟩
    rw [segmentOut_segment hend, endRecord, if_neg hwaiter]
    rfl

/-- A property of all records is kept when one of them is replaced by one that has it. -/
theorem records_update {P : SegmentRecord → Prop} (h : ∀ i, P (th.segment i))
    {i : Fin maxSegment} {r : SegmentRecord} (hr : P r)
    (hsegment : th'.segment = Function.update th.segment i r) (j : Fin maxSegment) :
    P (th'.segment j) := by
  rw [hsegment]
  by_cases hj : j = i
  · subst hj
    simpa using hr
  · simpa [hj] using h j

/-- A property of all records is kept by an event that keeps it of the record that it writes. -/
theorem records_step {P : SegmentRecord → Prop} (h : ∀ i, P (th.segment i)) {e : SegmentEvent}
    {code : ℤ} (hstart : ∀ r ticks, P r → P { r with startTs := ticks })
    (hmark : ∀ r, P r → P { r with hasWaiter := 1 })
    (hend : ∀ i segmentId requiredLatency ticks, e = .finish segmentId requiredLatency ticks →
      arrayIndex maxSegment th.curSegmentId = some i →
      ((th.segment i).hasWaiter ≠ 0 → segmentReqThreshold ≤ requiredLatency →
        segmentId = th.curSegmentId) → P (endRecord (th.segment i) requiredLatency ticks))
    (hstep : segmentStep th e = some (code, th')) : ∀ i, P (th'.segment i) := by
  cases e with
  | start segmentId ticks =>
    rcases segmentStart_segment hstep with ⟨-, hsame⟩ | ⟨i, -, hupdate⟩
    · rw [hsame]
      exact h
    · exact records_update h (hstart _ ticks (h i)) hupdate
  | finish segmentId requiredLatency ticks =>
    rcases segmentEnd_segment hstep with hsame | ⟨i, hi, hupdate, hid⟩
    · rw [hsame]
      exact h
    · exact records_update h (hend i segmentId requiredLatency ticks rfl hi hid) hupdate
  | lockWait =>
    cases hstep
    cases hi : arrayIndex maxSegment th.curSegmentId with
    | none =>
      simp only [markWaiter, hi]
      exact h
    | some i => exact records_update h (hmark _ (h i)) (markWaiter_segment hi)

/-- An event that does not overshoot keeps all records steady. -/
theorem steady_step (h : ∀ i, Steady (th.segment i)) {e : SegmentEvent} (hkeep : ¬Overshoots th e)
    (hnext : segmentNext th e = some th') : ∀ i, Steady (th'.segment i) := by
  obtain ⟨⟨code, th₁⟩, hstep, rfl⟩ := Option.map_eq_some_iff.mp hnext
  refine records_step h (fun _ _ hr => hr.of_same rfl rfl) (fun _ hr => hr.of_same rfl rfl)
    (fun i segmentId requiredLatency ticks he hi hid => ?_) hstep
  subst he
  refine steady_endRecord (h i) fun hwaiter hslow hmet => ?_
  by_contra hover
  exact hkeep ⟨i, hi, hid hwaiter hslow, hwaiter, hslow, hmet, by omega⟩

/-- An event that overshoots leaves a window out of range. -/
theorem overshoots_step (h : ∀ i, Steady (th.segment i)) {e : SegmentEvent}
    (hover : Overshoots th e) (hnext : segmentNext th e = some th') : ¬WindowsInRange th' := by
  obtain ⟨⟨code, th₁⟩, hstep, rfl⟩ := Option.map_eq_some_iff.mp hnext
  cases e with
  | finish segmentId requiredLatency ticks =>
    obtain ⟨i, hi, rfl, hwaiter, hslow, hmet, hsum⟩ := hover
    rw [segmentStep, segmentEnd_of_current requiredLatency ticks hi] at hstep
    intro hrange
    have hhigh := (hrange i).1.2
    rw [segmentOut_segment hstep] at hhigh
    simp only [Tls.setRecord, Function.update_self,
      (endRecord_met hwaiter hslow hmet (h i).low (h i).fits).1] at hhigh
    omega
  | start | lockWait => exact hover.elim

end Steps

/-- A started thread has steady records. -/
theorem steady_htllThreadStart (i : Fin maxSegment) :
    Steady ((htllThreadStart Tls.zero).segment i) :=
  ⟨le_rfl, (by decide : defaultReorder.toNat ≤ maxWindow),
    (by decide : defaultAdjustUnit.toNat ≤ maxUnit)⟩

/-- The states that a started thread reaches by the prefixes of its events. -/
def SegmentReach (events : List SegmentEvent) (th : Tls) : Prop :=
  execute segmentNext anyStep (htllThreadStart Tls.zero) events = some th

/-- The windows stay in range in every state that a started thread reaches by the prefixes of
its events, exactly when no event overshoots: no `segment_end` after a met deadline with a
waiter finds a window and a unit that add up to 10^9 or more. -/
theorem windows_in_range_iff (events : List SegmentEvent) :
    (∀ before th, before <+: events → SegmentReach before th → WindowsInRange th) ↔
      ∀ before e th th', (before ++ [e]) <+: events → SegmentReach before th →
        segmentNext th e = some th' → ¬Overshoots th e :=
  always_iff (fun th => ∀ i, Steady (th.segment i)) WindowsInRange steady_htllThreadStart
    (fun _ => windowsInRange_of_steady)
    (fun _ _ _ hsteady hkeep hnext => steady_step hsteady hkeep hnext)
    (fun _ _ _ hsteady hover hnext => overshoots_step hsteady hover hnext) events

/-! ## A window that leaves the range -/

/-- One met deadline after a lock wait inside segment 0. -/
def metRound : List SegmentEvent := [.start 0 0, .lockWait, .finish 0 100 0]

/-- A number of such rounds. -/
def metRounds : ℕ → List SegmentEvent
  | 0 => []
  | n + 1 => metRounds n ++ metRound

/-- The segment with id 0. -/
def firstSegment : Fin maxSegment := ⟨0, by decide⟩

/-- The state after a number of rounds. -/
structure Grown (n : ℕ) (th : Tls) : Prop where
  rest : AtRest th
  window : (th.segment firstSegment).waitTime.toNat = 10000 + 5000 * n
  unit : (th.segment firstSegment).unit = 5000

/-- A round within range adds the unit to the window. -/
theorem Grown.round {n : ℕ} {th : Tls} (h : Grown n th) (hn : n < 199998) :
    ∃ th', execute segmentNext anyStep th metRound = some th' ∧ Grown (n + 1) th' := by
  have hid : (0 : ℤ) ≤ 0 ∧ (0 : ℤ) < maxSegment := by decide
  obtain ⟨th₁, hstart, hnested⟩ := h.rest.nested.start 0 hid (by decide)
  obtain ⟨th', hend, hrest⟩ := hnested.lockWait.finish 100 0
  have hrun : execute segmentNext anyStep th metRound = some th' := by
    simp only [metRound, execute, anyStep, if_true, segmentNext, segmentStep, hstart, hend,
      Option.map_some, Option.bind_some]
  refine ⟨th', hrun, ?_⟩
  have hfirst : arrayIndex maxSegment 0 = some firstSegment := rfl
  have hcurrent : arrayIndex maxSegment th₁.curSegmentId = some firstSegment := by
    rw [hnested.current]
    exact hfirst
  have hrecord₁ : th₁.segment firstSegment = { th.segment firstSegment with startTs := 0 } := by
    rcases segmentStart_segment hstart with ⟨hcode, -⟩ | ⟨i, hi, hupdate⟩
    · exact absurd hcode (by decide)
    · rw [hfirst, Option.some.injEq] at hi
      rw [hupdate, ← hi, Function.update_self]
  have hrecord₂ : (markWaiter th₁).segment firstSegment =
      { th.segment firstSegment with startTs := 0, hasWaiter := 1 } := by
    rw [markWaiter_segment hcurrent, Function.update_self, hrecord₁]
  have hsteady : Steady ((markWaiter th₁).segment firstSegment) := by
    have hwindow := h.window
    rw [hrecord₂]
    exact ⟨by simp only; omega, by simp only [maxWindow]; omega, by
      simp only [h.unit]
      decide⟩
  have hslow : segmentReqThreshold ≤ 100 := by decide
  have hintime : 0 - ((markWaiter th₁).segment firstSegment).startTs ≤ 100 := by simp [hrecord₂]
  have hmet := endRecord_met (by simp [hrecord₂]) hslow hintime hsteady.low hsteady.fits
  have hrecord : th'.segment firstSegment =
      endRecord ((markWaiter th₁).segment firstSegment) 100 0 := by
    have hzero : (0 : ℤ) = (markWaiter th₁).curSegmentId := by
      rw [markWaiter_curSegmentId, hnested.current]
      rfl
    rw [hzero, segmentEnd_of_current (i := firstSegment) 100 0
      (by rw [markWaiter_curSegmentId]; exact hcurrent)] at hend
    rw [segmentOut_segment hend]
    simp only [Tls.setRecord, Function.update_self]
  refine ⟨⟨hrest.current, hrest.position⟩, ?_, ?_⟩
  · have hunit : (th.segment firstSegment).unit.toNat = 5000 := by rw [h.unit]; rfl
    rw [hrecord, hmet.1, hrecord₂]
    simp only [h.window, hunit]
    omega
  · rw [hrecord, hmet.2, hrecord₂]
    exact h.unit

/-- The plain stack is empty again after every round. -/
theorem nestAll_metRounds (n : ℕ) : nestAll [] (metRounds n) = some [] := by
  induction n with
  | zero => rfl
  | succ n ih =>
    rw [metRounds, nestAll_append, ih]
    rfl

/-- After up to 199998 rounds the window has grown by as many units. -/
theorem grown_metRounds (n : ℕ) (hn : n ≤ 199998) :
    ∃ th, SegmentReach (metRounds n) th ∧ Grown n th := by
  induction n with
  | zero => exact ⟨_, rfl, atRest_htllThreadStart, rfl, rfl⟩
  | succ n ih =>
    obtain ⟨th, hreach, hgrown⟩ := ih (by omega)
    obtain ⟨th', hround, hgrown'⟩ := hgrown.round (by omega)
    refine ⟨th', ?_, hgrown'⟩
    rw [SegmentReach, metRounds, execute_append, show execute _ _ _ _ = _ from hreach]
    exact hround

/-- A started thread leaves the range by well-nested calls: after 199998 met deadlines with a
waiter the window of segment 0 is 10^9, which the kernel refuses. -/
theorem window_leaves_range : ∃ events th, nestAll [] events = some [] ∧ SegmentReach events th ∧
    ¬WindowsInRange th := by
  obtain ⟨th, hreach, hgrown⟩ := grown_metRounds 199998 le_rfl
  refine ⟨metRounds 199998, th, nestAll_metRounds _, hreach, fun hrange => ?_⟩
  have hhigh := (hrange firstSegment).1.2
  rw [hgrown.window] at hhigh
  exact absurd hhigh (by decide)

end Htll
