import Htll.MachineFlow
import Htll.SegmentWindow
import Mathlib.Tactic.Linarith

/-!
# Timed waits and their deadlines

`htll_cond_timedwait` turns its absolute time-out into a relative one twice: before the sleep, to
give it to `FUTEX_WAIT` or to return at once, and after the sleep, to tell whether it timed out.
Both times it borrows a second for negative nanoseconds and then looks at the sign of the seconds
alone. So it tells a clock reading after the deadline from one before it, and takes a reading of
exactly the deadline for one before it.
-/

namespace Htll

open Transition

/-- A time in nanoseconds. -/
def Timespec.nanos (ts : Timespec) : ℤ := ts.tvSec * 1000000000 + ts.tvNsec

/-- A clock reading in nanoseconds. -/
def Timeval.nanos (tv : Timeval) : ℤ := tv.tvSec * 1000000000 + tv.tvUsec * 1000

/-- An absolute time-out that a client may pass. -/
structure Timespec.Valid (ts : Timespec) : Prop where
  sec : 0 ≤ ts.tvSec
  nonneg : 0 ≤ ts.tvNsec
  lt : ts.tvNsec < 1000000000

/-- What `gettimeofday` returns. -/
structure Timeval.Valid (tv : Timeval) : Prop where
  nonneg : 0 ≤ tv.tvUsec
  lt : tv.tvUsec < 1000000

section Arithmetic

variable {ts : Timespec} {tv : Timeval}

/-- One borrow makes the nanoseconds of the relative time proper. -/
theorem relativeTimeout_nsec (hts : ts.Valid) (htv : tv.Valid) :
    0 ≤ (relativeTimeout ts tv).tvNsec ∧ (relativeTimeout ts tv).tvNsec < 1000000000 := by
  obtain ⟨-, hns, hns'⟩ := hts
  obtain ⟨hus, hus'⟩ := htv
  simp only [relativeTimeout]
  split <;> simp only <;> omega

/-- The relative time is exact. -/
theorem relativeTimeout_nanos (ts : Timespec) (tv : Timeval) :
    (relativeTimeout ts tv).nanos = ts.nanos - tv.nanos := by
  simp only [relativeTimeout, Timespec.nanos, Timeval.nanos]
  split <;> simp only <;> omega

/-- Its seconds are negative exactly if the reading is after the deadline. -/
theorem relativeTimeout_sec_neg_iff (hts : ts.Valid) (htv : tv.Valid) :
    (relativeTimeout ts tv).tvSec < 0 ↔ ts.nanos < tv.nanos := by
  have hexact := relativeTimeout_nanos ts tv
  obtain ⟨hlow, hhigh⟩ := relativeTimeout_nsec hts htv
  simp only [Timespec.nanos] at hexact ⊢
  omega

/-- A relative time that is not negative is one that the kernel accepts. -/
theorem relativeTimeout_accepted (hts : ts.Valid) (htv : tv.Valid)
    (hsec : 0 ≤ (relativeTimeout ts tv).tvSec) : futexAccepts (relativeTimeout ts tv) :=
  ⟨hsec, relativeTimeout_nsec hts htv⟩

end Arithmetic

/-- The code that `htll_cond_timedwait` derives from a clock reading. -/
def timeoutCode (abstime : Timespec) (now : Timeval) : ℤ :=
  if (relativeTimeout abstime now).tvSec < 0 then etimedout else 0

/-- The code tells whether the reading is after the deadline. -/
theorem timeoutCode_eq_iff {abstime : Timespec} {now : Timeval} (hts : abstime.Valid)
    (htv : now.Valid) : timeoutCode abstime now = etimedout ↔ abstime.nanos < now.nanos := by
  rw [timeoutCode, ← relativeTimeout_sec_neg_iff hts htv]
  split
  · rename_i hneg
    exact iff_of_true rfl hneg
  · rename_i hneg
    exact iff_of_false (by decide) hneg

/-- What a thread at a program point has done with the clock readings of its call, the latest
first. -/
def Point.Timed {M C : Type*} (readings : List Timeval) : Point M C → Prop
  | .bind _ _ (some _) _ | .unlock _ (.wait _ _ (some _)) _ | .clock .. => readings = []
  | .wait _ _ _ (some abstime) rt => ∃ first, readings = [first] ∧
      rt = some (relativeTimeout abstime first) ∧ 0 ≤ (relativeTimeout abstime first).tvSec
  | .retake _ _ (some abstime) code _ => ∃ last earlier, readings = last :: earlier ∧
      code = timeoutCode abstime last
  | .outside (some (.timedwait _ _ abstime, code)) => code = einval ∨
      ∃ last earlier, readings = last :: earlier ∧ code = timeoutCode abstime last
  | _ => True

namespace State

variable {T M C : Type*} [DecidableEq T] [DecidableEq M] [DecidableEq C]
  {s s' : State T M C} {t : T} {input : Input T} {r : T → List Timeval}

/-- The clock readings of the current or last call of each thread, the latest first. -/
def noteReading (s : State T M C) (a : Action T M C) (r : T → List Timeval) : T → List Timeval :=
  match a with
  | .call t _ => Function.update r t []
  | .access t input =>
    match s.point t with
    | .clock .. | .reclock .. => Function.update r t (input.now :: r t)
    | _ => r
  | .unpark _ | .segmentStart .. | .segmentEnd .. => r

/-- Every thread has done the right thing with its clock readings. -/
def Timed (p : State T M C × (T → List Timeval)) : Prop := ∀ t, (p.1.point t).Timed (p.2 t)

variable [Fintype T]

/-- An access of a thread keeps up with its clock readings. -/
theorem timed_access (h : s.access t input = some s') (htimed : (s.point t).Timed (r t)) :
    (s'.point t).Timed (s.noteReading (.access t input) r t) := by
  cases hp : s.point t with
  | outside last => simp [access, hp] at h
  | lock m p =>
    rw [lock_access hp h]
    cases (htllMutexLock (s.tls t).curSegmentId input.ticks (s.mutex m) p).2.next <;> trivial
  | trylock m =>
    obtain ⟨code, hpoint⟩ := trylock_access hp h
    exact hpoint ▸ trivial
  | unlock m after p =>
    simp only [hp] at htimed
    simp only [noteReading, hp]
    rw [unlock_access hp h]
    cases (htllMutexUnlock (s.mutex m) p).2.next with
    | none => rcases after with _ | ⟨c, seq, _ | abstime⟩ <;> trivial
    | some p' => rcases after with _ | ⟨c, seq, _ | abstime⟩ <;> trivial
  | bind c m abstime p =>
    simp only [access, hp] at h
    simp only [hp] at htimed
    simp only [noteReading, hp]
    split at h <;> cases h <;> simp only [goto, Function.update_self]
    · cases abstime <;> exact htimed
    · cases abstime with
      | none => trivial
      | some abstime => exact Or.inl rfl
    · cases abstime <;> exact htimed
  | clock c m seq abstime =>
    simp only [access, hp, Option.some.injEq] at h
    simp only [hp, Point.Timed] at htimed
    subst h
    simp only [noteReading, hp, goto, Function.update_self, afterClock, htimed]
    split
    · rename_i hneg
      exact ⟨input.now, [], rfl, by rw [timeoutCode, if_pos hneg]⟩
    · rename_i hneg
      exact ⟨input.now, rfl, rfl, Int.not_lt.mp hneg⟩
  | wait c m seq abstime rt =>
    rw [wait_access hp h]
    cases abstime <;> trivial
  | reclock c m abstime =>
    simp only [access, hp, Option.some.injEq] at h
    subst h
    simp only [noteReading, hp, goto, Function.update_self]
    exact ⟨input.now, r t, rfl, rfl⟩
  | retake c m abstime code p =>
    simp only [hp] at htimed
    simp only [noteReading, hp]
    rw [retake_access hp h]
    cases (retakeMutex (s.mutex m) p).2.next with
    | none =>
      cases abstime with
      | none => trivial
      | some abstime => exact Or.inr htimed
    | some p' => cases abstime <;> exact htimed
  | signalAdd c | broadcastAdd c m =>
    simp only [access, hp, Option.some.injEq] at h
    subst h
    simp only [goto, Function.update_self]
    trivial
  | broadcastLoad c =>
    simp only [access, hp] at h
    split at h <;> cases h <;> simp only [goto, Function.update_self] <;> trivial
  | signalWake c | broadcastRequeue c m =>
    simp only [access, hp, Option.map_eq_some_iff] at h
    obtain ⟨s₁, -, rfl⟩ := h
    simp only [goto, Function.update_self]
    trivial

omit [DecidableEq M] [DecidableEq C] [Fintype T] in
/-- An access notes readings of its own thread only. -/
theorem noteReading_of_ne {u : T} (hu : u ≠ t) (s : State T M C) (r : T → List Timeval) :
    s.noteReading (.access t input) r u = r u := by
  cases hp : s.point t with
  | clock | reclock =>
    simp only [noteReading, hp]
    rw [Function.update_of_ne hu]
  | _ => simp only [noteReading, hp]

/-- Every step keeps up with the clock readings. -/
theorem Timed.step {p p' : State T M C × (T → List Timeval)} {a : Action T M C}
    (hcoh : p.1.Coherent) (htimed : Timed p)
    (h : recording State.step noteReading p a = some p') : Timed p' := by
  obtain ⟨s, r⟩ := p
  obtain ⟨s', r'⟩ := p'
  obtain ⟨hstep, rfl⟩ := recording_eq_some.mp h
  intro u
  rcases step_cases hstep with ⟨t, call, last, rfl, -, -, -, rfl⟩ | ⟨t, input, rfl, -, haccess⟩ |
    ⟨t, rfl, rfl⟩ | ⟨tls, rfl, t, result, -, ⟨segmentId, ticks, rfl, -⟩ |
      ⟨segmentId, latency, ticks, rfl, -⟩⟩
  · by_cases hu : u = t
    · subst hu
      simp only [noteReading, goto, Function.update_self]
      cases call <;> trivial
    · simpa [noteReading, hu] using htimed u
  · by_cases hu : u = t
    · subst hu
      exact timed_access haccess (htimed u)
    · simp only
      rw [(frame_access hcoh haccess).point u hu, noteReading_of_ne hu]
      exact htimed u
  · exact htimed u
  · exact htimed u
  · exact htimed u

/-- In every run the threads have done the right thing with their clock readings. -/
theorem timed_of_path {p : State T M C × (T → List Timeval)} (hs : s.Initial)
    (hpath : Path (recording State.step noteReading) anyStep (s, fun _ => []) p) : Timed p := by
  refine Path.invariant_of (fun p => p.1.Coherent) Timed
    (fun _ _ _ _ h hcoh => hcoh.step (recording_eq_some.mp h).1)
    (fun _ _ _ _ h hcoh htimed => htimed.step hcoh h) hpath hs.coherent ?_
  obtain ⟨tls, -, rfl⟩ := hs
  exact fun _ => trivial

/-- A timed wait agrees with its deadline: it gives `FUTEX_WAIT` a proper relative time that is
exactly the deadline minus its first clock reading, and unless it was refused it returns
`ETIMEDOUT` exactly if its last reading is at or after the deadline, as long as this reading is
not the deadline itself. -/
theorem timed_wait_agrees_iff {p : State T M C × (T → List Timeval)} (hs : s.Initial)
    (hpath : Path (recording State.step noteReading) anyStep (s, fun _ => []) p) {t : T}
    {c : C} {m : M} {abstime : Timespec} (hts : abstime.Valid) (htv : ∀ now ∈ p.2 t, now.Valid) :
    (∀ seq rt, p.1.point t = .wait c m seq (some abstime) rt →
      ∃ first relative, p.2 t = [first] ∧ rt = some relative ∧ futexAccepts relative ∧
        relative.nanos = abstime.nanos - first.nanos) ∧
    ∀ code, p.1.point t = .outside (some (.timedwait c m abstime, code)) → code ≠ einval →
      ∃ last earlier, p.2 t = last :: earlier ∧
        ((code = etimedout ↔ abstime.nanos ≤ last.nanos) ↔ last.nanos ≠ abstime.nanos) := by
  have htimed := timed_of_path hs hpath t
  constructor
  · intro seq rt hp
    rw [hp] at htimed
    obtain ⟨first, hreadings, hrt, hsec⟩ := htimed
    have hfirst : first.Valid := htv first (by simp [hreadings])
    exact ⟨first, _, hreadings, hrt, relativeTimeout_accepted hts hfirst hsec,
      relativeTimeout_nanos abstime first⟩
  · intro code hp haccepted
    rw [hp] at htimed
    obtain ⟨last, earlier, hreadings, rfl⟩ := htimed.resolve_left haccepted
    have hlast : last.Valid := htv last (by simp [hreadings])
    refine ⟨last, earlier, hreadings, ?_⟩
    rw [timeoutCode_eq_iff hts hlast]
    omega

/-- One second after the epoch. -/
def oneSecond : Timespec := ⟨1, 0⟩

/-- The accesses of a thread that locks a free mutex and waits with it until one second, with the
given clock readings before and after the sleep. -/
def timedRun (first last : Timeval) : List (Action Unit Unit Unit) :=
  .call () (.lock ()) :: Action.turns () 2 ++ .call () (.timedwait () () oneSecond) ::
    Action.turns () 7 ++ [.access () ⟨0, first, none⟩, .access () ⟨0, ⟨0, 0⟩, none⟩, .unpark (),
      .access () ⟨0, last, none⟩, .access () ⟨0, ⟨0, 0⟩, none⟩]

/-- A wait whose clock shows one microsecond more than the deadline after the sleep times out. -/
theorem timed_wait_agrees_iff_late : ∃ p : State Unit Unit Unit × (Unit → List Timeval),
    ∃ code last, p.1.point () = .outside (some (.timedwait () () oneSecond, code)) ∧
      (p.2 ()).head? = some last ∧ last.nanos = 1000001000 ∧ code = etimedout := by
  obtain ⟨p, hpath, hpoint, hreadings⟩ := exists_path_of_execute
    (recording (State.step (T := Unit) (M := Unit) (C := Unit)) noteReading) anyStep
    (timedRun ⟨0, 0⟩ ⟨1, 1⟩) (initial fun _ => htllThreadStart Tls.zero, fun _ => [])
    (fun p => p.1.point () = .outside (some (.timedwait () () oneSecond, etimedout)) ∧
      p.2 () = [⟨1, 1⟩, ⟨0, 0⟩]) (by decide +kernel)
  have hvalid : ∀ now ∈ p.2 (), now.Valid := by
    rw [hreadings]
    rintro now (_ | ⟨_, _ | ⟨_, ⟨⟩⟩⟩) <;> exact ⟨by decide, by decide⟩
  obtain ⟨last, earlier, hlast, hagrees⟩ := (timed_wait_agrees_iff initial_started hpath
    (⟨by decide, by decide, by decide⟩ : oneSecond.Valid) hvalid).2 _ hpoint (by decide)
  rw [hreadings] at hlast
  cases hlast
  exact ⟨p, _, _, hpoint, by rw [hreadings]; rfl, by decide,
    (hagrees.mpr (by decide)).mpr (by decide)⟩

/-- A wait whose clock shows exactly the deadline after the sleep returns 0. -/
theorem deadline_reached_unnoticed : ∃ p : State Unit Unit Unit × (Unit → List Timeval),
    Path (recording State.step noteReading) anyStep
      (initial fun _ => htllThreadStart Tls.zero, fun _ => []) p ∧
    p.1.point () = .outside (some (.timedwait () () oneSecond, 0)) ∧
    (p.2 ()).head? = some ⟨1, 0⟩ := by
  refine exists_path_of_execute _ _ (timedRun ⟨0, 0⟩ ⟨1, 0⟩) _ _ ?_
  decide +kernel

end State

end Htll
