import Htll.LockPairOwners

/-!
# The two locks cannot deadlock, and no signal is lost

Whoever waits for `lock` waits for a thread that holds it, and whoever holds it waits for
`posix_lock` at most; unless a thread locks a mutex that it owns, nobody waits in a circle. The
record beside the state says who has taken the mutex since a waiter has released `lock`.
-/

namespace Htll

open Transition

/-- The next step is to take `lock`. -/
def PairPoint.wantsLock {C : Type*} : PairPoint C → Bool
  | .lockOuter | .waitLockOuter _ => true
  | _ => false

/-- The next step is to take `posix_lock`. -/
def PairPoint.wantsPosixLock {C : Type*} : PairPoint C → Bool
  | .lockInner | .tryInner | .reacquire _ | .waitLockInner _ => true
  | _ => false

/-- In a wait, woken. -/
def PairPoint.woken {C : Type*} : PairPoint C → Bool
  | .reacquire _ | .waitUnlock _ | .waitLockOuter _ | .waitLockInner _ => true
  | _ => false

/-- In a wait that has released `lock`. -/
def PairPoint.released {C : Type*} : PairPoint C → Bool
  | .waitEnter .. | .waiting .. => true
  | p => p.woken

/-- How many locks a thread may have to wait for before it has the next one. -/
def PairPoint.rank {C : Type*} (p : PairPoint C) : ℕ :=
  if p.wantsLock then 2 else if p.wantsPosixLock then 1 else 0

namespace LockPair

variable {T C : Type*} {s s' : LockPair T C} {t u : T}

/-- A thread waits for another to release a lock. -/
def WaitsFor (s : LockPair T C) (t u : T) : Prop :=
  ((s.point t).wantsLock = true ∧ s.lock = some u) ∨
    ((s.point t).wantsPosixLock = true ∧ s.posixLock = some u)

/-- A thread has called `mutex_lock` on the mutex that it owns. -/
def Relocks (s : LockPair T C) (t : T) : Prop := s.point t = .lockOuter ∧ s.lock = some t

/-! ## Waiting for a lock -/

/-- Who waits for `lock` with `posix_lock` locks its own mutex. -/
theorem Sound.relocks (h : Sound s) (hwants : (s.point t).wantsLock = true)
    (hinner : s.posixLock = some t) : s.Relocks t := by
  have hholds := h.holds t
  cases hp : s.point t with
  | lockOuter =>
    rw [hp] at hholds
    exact ⟨hp, hholds.mpr hinner⟩
  | waitLockOuter res =>
    rw [hp] at hholds
    exact absurd hinner hholds.2
  | _ =>
    rw [hp] at hwants
    cases hwants

/-- A thread that others wait for has fewer locks to wait for. -/
theorem Sound.rank_lt (h : Sound s) (hno : ∀ t, ¬s.Relocks t) (hwaits : s.WaitsFor t u) :
    (s.point u).rank < (s.point t).rank := by
  have hholds := h.holds u
  have hnot : (s.point u).wantsLock = true → s.lock = some u ∨ s.posixLock = some u → False := by
    rintro hwants (houter | hinner)
    · cases hp : s.point u with
      | lockOuter => exact hno u ⟨hp, houter⟩
      | waitLockOuter res =>
        rw [hp] at hholds
        exact hholds.1 houter
      | _ =>
        rw [hp] at hwants
        cases hwants
    · exact hno u (h.relocks hwants hinner)
  rcases hwaits with ⟨hwants, houter⟩ | ⟨hwants, hinner⟩
  · have hu : (s.point u).wantsLock = false :=
      Bool.eq_false_iff.mpr fun hwants' => hnot hwants' (Or.inl houter)
    rw [PairPoint.rank, PairPoint.rank, if_pos hwants, hu, if_neg Bool.false_ne_true]
    split <;> omega
  · -- who has `posix_lock` wants neither lock
    have hu : (s.point u).wantsLock = false :=
      Bool.eq_false_iff.mpr fun hwants' => hnot hwants' (Or.inr hinner)
    have hu' : (s.point u).wantsPosixLock = false := by
      cases hp : s.point u <;> rw [hp] at hholds <;>
        first
        | rfl
        | exact absurd hinner hholds.2
    have ht : (s.point t).wantsLock = false := by
      cases hp : s.point t <;> rw [hp] at hwants <;>
        first
        | rfl
        | cases hwants
    simp [PairPoint.rank, hwants, ht, hu, hu']

/-- Nobody waits in a circle unless a thread locks its own mutex. -/
theorem Sound.acyclic (h : Sound s) (hno : ∀ t, ¬s.Relocks t) (t : T) :
    ¬Relation.TransGen s.WaitsFor t t :=
  not_transGen_self (fun t => (s.point t).rank) (fun _ _ hwaits => h.rank_lt hno hwaits) t

/-! ## Signals -/

variable [DecidableEq T] [DecidableEq C]

/-- The next step of the thread takes the mutex. -/
def acquires (s : LockPair T C) (t : T) : Bool :=
  match s.point t with
  | .lockInner | .tryInner | .waitLockInner _ => s.posixLock.isNone
  | _ => false

/-- Record who has taken the mutex since each waiter released `lock`. -/
def noteAcquired (s : LockPair T C) (x : PairAction T C) (r : T → T → Bool) : T → T → Bool :=
  match x with
  | .call w (.wait ..) => Function.update r w fun _ => false
  | .access t =>
    if s.acquires t then fun w u => r w u || (decide (u = t) && (s.point w).released) else r
  | _ => r

omit [DecidableEq C] in
/-- A thread that goes to a point that is no beginning of a wait. -/
theorem entering_goto {q : PairPoint C} (hq : q.entering = false)
    (h : ((s.goto u q).point t).entering = true) : (s.point t).entering = true := by
  by_cases ht : t = u
  · subst ht
    simp [hq] at h
  · simpa [ht] using h

/-- A thread is at the beginning of a wait after an action only if it was before, or the action
is the call. -/
theorem Sound.entering (h : Sound s) {x : PairAction T C} (hs : s.step x = some s')
    (hafter : (s'.point t).entering = true) :
    (∃ c ts, x = .call t (.wait c ts)) ∨ (s.point t).entering = true := by
  cases acts_of_step hs with
  | call u call hp =>
    cases call with
    | lock | trylock | unlock => exact Or.inr (entering_goto rfl hafter)
    | wait c ts =>
      by_cases ht : t = u
      · exact Or.inl ⟨c, ts, by rw [ht]⟩
      · simp only [goto_point, Function.update_of_ne ht] at hafter
        exact Or.inr hafter
  | access u hs =>
    refine Or.inr ?_
    cases h.moved hs with
    | stay hs => rwa [hs] at hafter
    | goto r r' q _ _ _ _ _ _ hentering hs =>
      rw [hs] at hafter
      by_cases ht : t = u
      · subst ht
        exact hentering (by simpa using hafter)
      · simpa [ht] using hafter
    | enqueue c ts _ _ hs =>
      rw [hs] at hafter
      exact entering_goto rfl hafter
  | signalNone u c => exact Or.inr (entering_goto rfl hafter)
  | signal u c w => exact Or.inr (entering_goto rfl (entering_goto rfl hafter))
  | broadcast u c =>
    have hwoken : ((s.wakeAll c).point t).entering = true := entering_goto rfl hafter
    simp only [LockPair.wakeAll] at hwoken
    split at hwoken
    · cases hwoken
    · exact Or.inr hwoken
  | timeout u c | wakeUp u c => exact Or.inr (entering_goto rfl hafter)

/-- Nobody has taken the mutex since a waiter released `lock` as long as the waiter is not in the
queue. -/
theorem Sound.noteAcquired (h : Sound s) {x : PairAction T C} (hs : s.step x = some s')
    {r : T → T → Bool} (hr : ∀ w u, r w u = true → (s.point w).entering = false) {w u : T}
    (hw : s.noteAcquired x r w u = true) : (s'.point w).entering = false := by
  refine Bool.eq_false_iff.mpr fun hafter => ?_
  rcases h.entering hs hafter with ⟨c, ts, rfl⟩ | hbefore
  · simp [LockPair.noteAcquired] at hw
  have hnew : ∀ t, s.acquires t = true → (s.point w).released = true → False := by
    intro t hacquires hreleased
    have hfree : s.posixLock = none := by
      unfold acquires at hacquires
      split at hacquires <;> simp_all
    have hholds := h.holds w
    cases hp : s.point w <;> rw [hp] at hbefore hreleased hholds <;> cases hbefore
    · cases hreleased
    · rw [hfree] at hholds
      exact nomatch hholds.2
  have hold : ∀ u, r w u = true → False := by
    intro u hru
    rw [hr w u hru] at hbefore
    cases hbefore
  unfold LockPair.noteAcquired at hw
  split at hw
  · rename_i w' _ _
    by_cases hww : w = w'
    · subst hww
      simp at hw
    · rw [Function.update_of_ne hww] at hw
      exact hold u hw
  · split at hw
    · rename_i t hacquires
      rw [Bool.or_eq_true, Bool.and_eq_true] at hw
      rcases hw with hw | ⟨-, hreleased⟩
      · exact hold u hw
      · exact hnew t hacquires hreleased
    · exact hold u hw
  · exact hold u hw

/-! ## Runs -/

variable {p : LockPair T C × (T → T → Bool)}

/-- What holds in every recorded state. -/
theorem sound_of_recorded
    (hpath : Path (recording step noteAcquired) (fun p => Disciplined p.1)
      (initial, fun _ _ => false) p) :
    Sound p.1 ∧ ∀ w u, p.2 w u = true → (p.1.point w).entering = false := by
  refine ⟨sound_of_path hpath.of_recording, ?_⟩
  refine Path.invariant_of (fun p : LockPair T C × (T → T → Bool) => Sound p.1)
    (fun p => ∀ w u, p.2 w u = true → (p.1.point w).entering = false)
    (fun p x p' hguard hx h => h.step hguard (recording_eq_some.mp hx).1) ?_ hpath sound_initial
    (fun _ _ hw => absurd hw Bool.false_ne_true)
  intro p x p' _ hx h hr w u hw
  obtain ⟨hs, hnote⟩ := recording_eq_some.mp hx
  rw [hnote] at hw
  exact h.noteAcquired hs hr hw

/-- In every run of any number of threads where only the owner unlocks and waits: between calls a
thread holds both locks or neither; a thread waits for `lock` with `posix_lock` only if it locks
a mutex that it owns; unless a thread does so, nobody waits in a circle; no assertion fails; and
if a thread has taken the mutex since a waiter released `lock`, the waiter is in the queue, or was
woken from it. -/
theorem lock_pair_sound
    (hpath : Path (recording step noteAcquired) (fun p => Disciplined p.1)
      (initial, fun _ _ => false) p) :
    (∀ t, p.1.isOutside t = true → (p.1.lock = some t ↔ p.1.posixLock = some t)) ∧
    (∀ t, (p.1.point t).wantsLock = true → p.1.posixLock = some t → p.1.Relocks t) ∧
    ((∀ t, ¬p.1.Relocks t) → ∀ t, ¬Relation.TransGen p.1.WaitsFor t t) ∧
    p.1.failed = false ∧
    ∀ w u, p.2 w u = true → (p.1.point w).released = true →
      (∃ c ts, p.1.point w = .waiting c ts ∧ w ∈ p.1.queue c) ∨ (p.1.point w).woken = true := by
  obtain ⟨h, hr⟩ := sound_of_recorded hpath
  refine ⟨fun t ht => ?_, fun t => h.relocks, h.acyclic, h.unfailed, fun w u hw hreleased => ?_⟩
  · obtain ⟨code, hcode⟩ := isOutside_iff.mp ht
    have hholds := h.holds t
    rwa [hcode] at hholds
  · have hentered := hr w u hw
    cases hp : p.1.point w with
    | waiting c ts => exact Or.inl ⟨c, ts, rfl, (h.queued w c).mpr (by rw [hp]; rfl)⟩
    | waitEnter c ts =>
      rw [hp] at hentered
      cases hentered
    | _ =>
      rw [hp] at hreleased
      exact Or.inr hreleased

/-- A thread takes the mutex and waits; then another takes the mutex. -/
def waitThenLock (ts : Option Timespec) : List (PairAction Bool Unit) :=
  [.call true .lock, .access true, .access true, .call true (.wait () ts), .access true,
    .access true, .call false .lock, .access false, .access false]

/-- The waiter is in the queue when another thread has the mutex. -/
theorem lock_pair_sound_waiter : ∃ p : LockPair Bool Unit × (Bool → Bool → Bool),
    p.1.Owns false ∧ p.2 true false = true ∧ true ∈ p.1.queue () := by
  obtain ⟨p, hpath, howns, hsince, hreleased, hasleep⟩ := exists_path_of_execute
    (recording (step (T := Bool) (C := Unit)) noteAcquired) (fun p => Disciplined p.1)
    (waitThenLock none) (initial, fun _ _ => false)
    (fun p => p.1.Owns false ∧ p.2 true false = true ∧ (p.1.point true).released = true ∧
      (p.1.point true).woken = false) (by decide +kernel)
  rcases (lock_pair_sound hpath).2.2.2.2 true false hsince hreleased with ⟨c, ts, -, hqueued⟩ | hw
  · exact ⟨p, howns, hsince, hqueued⟩
  · rw [hasleep] at hw
    cases hw

/-- A thread that locks a mutex which it owns waits for `lock` with `posix_lock`. And a waiter whose
deadline is over is not in the queue any more for a signal of the thread that has taken the mutex
since it released `lock`. -/
theorem relock_blocks_with_posix_lock :
    (∃ s : LockPair Unit Unit,
      Path step Disciplined initial s ∧ s.point () = .lockOuter ∧ s.access () = none ∧
        s.posixLock = some () ∧ Relation.TransGen s.WaitsFor () ()) ∧
    ∃ p : LockPair Bool Unit × (Bool → Bool → Bool),
      Path (recording step noteAcquired) (fun p => Disciplined p.1) (initial, fun _ _ => false) p ∧
        p.1.Owns false ∧ p.2 true false = true ∧ (p.1.point true).released = true ∧
        true ∉ p.1.queue () := by
  constructor
  · obtain ⟨s, hpath, hp, hlock, hinner⟩ := exists_path_of_execute
      (step (T := Unit) (C := Unit)) Disciplined
      [.call () .lock, .access (), .access (), .call () .lock] initial
      (fun s => s.point () = .lockOuter ∧ s.lock = some () ∧ s.posixLock = some ())
      (by decide +kernel)
    refine ⟨s, hpath, hp, ?_, hinner, .single (Or.inl ⟨by rw [hp]; rfl, hlock⟩)⟩
    simp only [access, hp, hlock, realLock_eq]
    rfl
  · exact exists_path_of_execute (recording (step (T := Bool) (C := Unit)) noteAcquired)
      (fun p => Disciplined p.1) (waitThenLock (some ⟨1, 0⟩) ++ [.timeout true])
      (initial, fun _ _ => false)
      (fun p => p.1.Owns false ∧ p.2 true false = true ∧ (p.1.point true).released = true ∧
        true ∉ p.1.queue ()) (by decide +kernel)

end LockPair

end Htll
