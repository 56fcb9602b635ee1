import Htll.Process
import Htll.SegmentWindow

/-!
# Usable windows

`lock_thread_start` gives every segment of a thread a window and a unit, and no exit of
`segment_end` leaves less than the minimum of either. Only `lp_start_routine` calls it: the main
thread, which enters through the constructor, runs with the zeros of its thread-local storage.
-/

namespace Htll

open Transition

/-- The window and the unit are at least their minima. -/
structure Usable (r : SegmentRecord) : Prop where
  window : minReorder ≤ r.waitTime
  unit : minAdjustUnit ≤ r.unit

/-- A clamped value is at least the minimum. -/
theorem le_clamp (least x : BitVec 64) : least ≤ if x < least then least else x := by
  split
  · exact BitVec.le_refl least
  · rename_i h
    exact BitVec.not_lt.mp h

/-- The adjusted window is clamped; the unit is clamped after a missed deadline and kept after a
met one. -/
theorem adjustWindow_usable {r : SegmentRecord} (hunit : minAdjustUnit ≤ r.unit)
    (duration requiredLatency : BitVec 64) :
    minReorder ≤ (adjustWindow r duration requiredLatency).1 ∧
      minAdjustUnit ≤ (adjustWindow r duration requiredLatency).2 := by
  by_cases hmissed : duration > requiredLatency
  · simp only [adjustWindow, if_pos hmissed]
    exact ⟨le_clamp _ _, le_clamp _ _⟩
  · simp only [adjustWindow, if_neg hmissed]
    exact ⟨le_clamp _ _, hunit⟩

/-- A usable record is usable after `segment_end`, whichever exit it takes. -/
theorem Usable.endRecord {r : SegmentRecord} (h : Usable r) (requiredLatency ticks : BitVec 64) :
    Usable (endRecord r requiredLatency ticks) := by
  by_cases hwaiter : r.hasWaiter ≠ 0
  · rw [Htll.endRecord, if_pos hwaiter]
    split
    · exact ⟨BitVec.le_refl _, h.unit⟩
    · obtain ⟨hwindow, hunit⟩ := adjustWindow_usable h.unit (ticks - r.startTs) requiredLatency
      exact ⟨hwindow, hunit⟩
  · rw [Htll.endRecord, if_neg hwaiter]
    exact ⟨h.window, h.unit⟩

/-- Every window of a thread is usable. -/
def UsableWindows (th : Tls) : Prop := ∀ i, Usable (th.segment i)

/-- `lock_thread_start` makes all windows usable. -/
theorem usableWindows_htllThreadStart (th : Tls) : UsableWindows (htllThreadStart th) :=
  fun _ => ⟨(by decide : minReorder ≤ defaultReorder),
    (by decide : minAdjustUnit ≤ defaultAdjustUnit)⟩

/-- Usable windows stay usable. -/
theorem UsableWindows.step {th th' : Tls} {e : SegmentEvent} {code : ℤ} (h : UsableWindows th)
    (hstep : segmentStep th e = some (code, th')) : UsableWindows th' :=
  records_step h (fun _ _ hr => ⟨hr.window, hr.unit⟩) (fun _ hr => ⟨hr.window, hr.unit⟩)
    (fun i _ requiredLatency ticks _ _ _ => (h i).endRecord requiredLatency ticks) hstep

/-- The thread is on the way through `lp_start_routine` or has left it. -/
def ThreadPoint.viaRoutine : ThreadPoint → Bool
  | .fetch .interposeInit | .check .interposeInit => false
  | _ => true

namespace Process

variable {T : Type*} [DecidableEq T] {limit : ℕ} {main t : T} {s s' : Process T}
  {a : ProcessAction T}

/-- A thread other than the main one, with usable windows while it runs. -/
structure Equipped (s : Process T) (t : T) : Prop where
  routine : (s.point t).viaRoutine = true
  windows : s.point t = .running → UsableWindows (s.tls t)

/-- A thread stays equipped when it moves without running its client's code. -/
theorem Equipped.of_goto (h : Equipped s t) {u : T} {p : ThreadPoint}
    (hpoint : s'.point = Function.update s.point u p) (htls : s'.tls = s.tls)
    (hp : (s.point u).viaRoutine = true → p.viaRoutine = true ∧ p ≠ .running) : Equipped s' t := by
  by_cases hu : t = u
  · subst hu
    obtain ⟨hvia, hne⟩ := hp h.routine
    refine ⟨by rw [hpoint, Function.update_self]; exact hvia, fun hrunning => ?_⟩
    rw [hpoint, Function.update_self] at hrunning
    exact absurd hrunning hne
  · refine ⟨by rw [hpoint, Function.update_of_ne hu]; exact h.routine, fun hrunning => ?_⟩
    rw [hpoint, Function.update_of_ne hu] at hrunning
    rw [htls]
    exact h.windows hrunning

/-- Every step keeps a thread equipped. -/
theorem Equipped.step (h : Equipped s t) (hstep : s.step limit a = some s') : Equipped s' t := by
  obtain ⟨-, heffect⟩ := step_effect hstep
  cases heffect with
  | created _ _ _ => exact h.of_goto rfl rfl fun _ => ⟨rfl, by simp⟩
  | @numbered u f hp =>
    refine h.of_goto rfl rfl fun hvia => ?_
    rw [hp] at hvia
    cases f with
    | interposeInit => cases hvia
    | lpStartRoutine => exact ⟨rfl, by simp⟩
  | refused _ _ => exact ⟨h.routine, h.windows⟩
  | @admitted u f hp _ =>
    refine h.of_goto rfl rfl fun hvia => ?_
    rw [hp] at hvia
    cases f with
    | interposeInit => cases hvia
    | lpStartRoutine => exact ⟨rfl, by simp [Entry.passed]⟩
  | @started u hp =>
    by_cases hu : t = u
    · subst hu
      exact ⟨by simp [ThreadPoint.viaRoutine], fun _ => by
        simpa using usableWindows_htllThreadStart (s.tls t)⟩
    · exact ⟨by simpa [hu] using h.routine, by simpa [hu] using h.windows⟩
  | @called u e code th hp hcall =>
    refine ⟨h.routine, fun hrunning => ?_⟩
    by_cases hu : t = u
    · subst hu
      simpa using (h.windows hp).step hcall
    · simpa [hu] using h.windows hrunning
  | exited _ => exact h.of_goto rfl rfl fun _ => ⟨rfl, by simp⟩

/-- The main thread after the constructor has zero windows. -/
theorem main_zero_windows (limit : ℕ) (main : T) : ∃ s, Path (step limit) anyStep (initial main) s ∧
    s.point main = .running ∧ ¬UsableWindows (s.tls main) := by
  have hnumber : Effect limit (initial main) (.access main)
      (((initial main).number main).goto main (.check .interposeInit)) :=
    .numbered (by simp [initial])
  have hpast : Effect limit (((initial main).number main).goto main (.check .interposeInit))
      (.access main) _ := .admitted (f := .interposeInit) (by simp) (by simp [initial, maxThreads])
  have hfirst : Path (step limit) anyStep (initial main) _ :=
    Path.single _ trivial (hnumber.step rfl)
  refine ⟨_, hfirst.extend _ trivial (hpast.step rfl), by simp [Entry.passed], fun h => ?_⟩
  have hwindow := (h firstSegment).window
  simp [initial, Tls.zero] at hwindow
  exact absurd hwindow (by decide)

/-- In every run every window of a running thread is usable, exactly for the threads other than
the main one. -/
theorem usable_windows_iff : (∀ s, Path (step limit) anyStep (initial main) s →
    s.point t = .running → UsableWindows (s.tls t)) ↔ t ≠ main := by
  constructor
  · rintro h rfl
    obtain ⟨s, hpath, hrunning, hunusable⟩ := main_zero_windows limit t
    exact hunusable (h s hpath hrunning)
  · intro hne s hpath
    have hinitial : Equipped (initial main) t :=
      ⟨by simp [initial, hne, ThreadPoint.viaRoutine], fun h => by simp [initial, hne] at h⟩
    exact (Path.invariant (fun s => Equipped s t) (fun _ _ _ _ hstep h => h.step hstep) hpath
      hinitial).windows

/-- The main thread waits in a segment and meets its deadline: the unit is still 0, so that no met
deadline widens the window. -/
theorem main_window_unusable : ∃ s : Process Unit, Path (step 1) anyStep (initial ()) s ∧
    s.point () = .running ∧ ((s.tls ()).segment firstSegment).unit = 0 ∧
    ¬UsableWindows (s.tls ()) := by
  obtain ⟨s, hpath, hrunning, hunit⟩ := exists_path_of_execute (step 1) anyStep
    (.access () :: .access () :: metRound.map (.segment ())) (initial ())
    (fun s => s.point () = .running ∧ ((s.tls ()).segment firstSegment).unit = 0)
    (by decide +kernel)
  refine ⟨s, hpath, hrunning, hunit, fun h => ?_⟩
  have hleast := (h firstSegment).unit
  rw [hunit] at hleast
  exact absurd hleast (by decide)

end Process

end Htll
