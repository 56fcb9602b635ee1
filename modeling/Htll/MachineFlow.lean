import Htll.MachineInvariant

/-!
# Where an access takes its thread

The control flow of the calls, apart from what an access does to shared memory: from which
program point an access of a thread leads to which others, and which locals go with it. The
later results about waiters follow a thread through its call by these rules alone.
-/

namespace Htll

open ParkingLock Transition

/-- The program point at which the call goes on, if it does. -/
def Outcome.next {P : Type*} : Outcome P → Option P
  | .goto p | .mark p | .sleep p => some p
  | .free p => p
  | .take | .fail | .wake | .done => none

/-- The value of `seq` that the binding has read. -/
def BindPoint.seqRead : BindPoint → Option (BitVec 32)
  | .seq => none
  | .compare value | .vacant value | .swap value | .confirm value => some value

/-- The binding keeps the value of `seq` that it read first. -/
theorem bindCond_seqRead {M : Type*} [DecidableEq M] {m : M} {c : Cond M} {p p' : BindPoint}
    (h : (bindCond m c p).2 = .goto p') :
    p = .seq ∧ p' = .compare c.seq ∨ p ≠ .seq ∧ p'.seqRead = p.seqRead := by
  cases p with
  | seq =>
    cases h
    exact Or.inl ⟨rfl, rfl⟩
  | compare | vacant =>
    simp only [bindCond] at h
    split at h <;> cases h
    exact Or.inr ⟨by simp, rfl⟩
  | swap =>
    cases h
    exact Or.inr ⟨by simp, rfl⟩
  | confirm =>
    simp only [bindCond] at h
    split at h <;> cases h

/-- A binding that succeeds hands on the value of `seq` that it read first. -/
theorem bindCond_bound_seqRead {M : Type*} [DecidableEq M] {m : M} {c : Cond M} {p : BindPoint}
    {seq : BitVec 32} (h : (bindCond m c p).2 = .bound seq) : p.seqRead = some seq := by
  cases p with
  | compare | confirm =>
    simp only [bindCond] at h
    split at h <;> cases h
    rfl
  | vacant =>
    simp only [bindCond] at h
    split at h <;> cases h
  | seq | swap => cases h

namespace State

variable {T M C : Type*} [DecidableEq T] [DecidableEq M] [DecidableEq C]
  {s s' : State T M C} {t : T} {input : Input T}

/-- The program points to which an access of a thread can lead. -/
inductive Flow (s : State T M C) (t : T) : Point M C → Prop where
  | returned {last : Option (Call M C × ℤ)} : Flow s t (.outside last)
  | locking {m : M} {p p' : LockPoint} (hp : s.point t = .lock m p) (ticks : BitVec 64)
      (h : (htllMutexLock (s.tls t).curSegmentId ticks (s.mutex m) p).2.next = some p') :
      Flow s t (.lock m p')
  | unlocking {m : M} {after : After C} {p p' : UnlockPoint} (hp : s.point t = .unlock m after p)
      (h : (htllMutexUnlock (s.mutex m) p).2.next = some p') : Flow s t (.unlock m after p')
  | unlocked {m : M} {after : After C} {p : UnlockPoint} (hp : s.point t = .unlock m after p) :
      Flow s t (after.point m)
  | reading {c : C} {m : M} {abstime : Option Timespec} (hp : s.point t = .bind c m abstime .seq) :
      Flow s t (.bind c m abstime (.compare (s.cond c).seq))
  | binding {c : C} {m : M} {abstime : Option Timespec} {p p' : BindPoint}
      (hp : s.point t = .bind c m abstime p) (hne : p ≠ .seq) (h : p'.seqRead = p.seqRead) :
      Flow s t (.bind c m abstime p')
  | bound {c : C} {m : M} {abstime : Option Timespec} {p : BindPoint} {seq : BitVec 32}
      (hp : s.point t = .bind c m abstime p) (h : p.seqRead = some seq) :
      Flow s t (.unlock m (.wait c seq abstime) .load)
  | clocked {c : C} {m : M} {seq : BitVec 32} {abstime : Timespec}
      (hp : s.point t = .clock c m seq abstime) (rt : Timespec) :
      Flow s t (afterClock c m seq abstime rt)
  | waited {c : C} {m : M} {seq : BitVec 32} {abstime rt : Option Timespec}
      (hp : s.point t = .wait c m seq abstime rt) : Flow s t (afterWait c m abstime)
  | reclocked {c : C} {m : M} {abstime : Timespec} {code : ℤ}
      (hp : s.point t = .reclock c m abstime) : Flow s t (.retake c m (some abstime) code .swap)
  | retaking {c : C} {m : M} {abstime : Option Timespec} {code : ℤ} {p p' : RetakePoint}
      (hp : s.point t = .retake c m abstime code p) : Flow s t (.retake c m abstime code p')
  | signalled {c : C} (hp : s.point t = .signalAdd c) : Flow s t (.signalWake c)
  | loaded {c : C} {m : M} (hp : s.point t = .broadcastLoad c) (hm : (s.cond c).m = some m) :
      Flow s t (.broadcastAdd c m)
  | advanced {c : C} {m : M} (hp : s.point t = .broadcastAdd c m) :
      Flow s t (.broadcastRequeue c m)

variable [Fintype T]

/-- A function that ends in one way goes on where the outcome says or returns. -/
theorem commit_landing {P : Type*} {m : M} {pick : Option T} {embed : P → Point M C}
    {returned : Point M C} {result : Mutex × Outcome P}
    (h : s.commit t m pick embed returned returned returned result = some s') :
    s'.point t = result.2.next.elim returned embed := by
  obtain ⟨x, outcome⟩ := result
  cases outcome with
  | free p => cases p <;> cases h <;> simp [Outcome.next]
  | wake =>
    simp only [commit, Option.map_eq_some_iff] at h
    obtain ⟨s₁, -, rfl⟩ := h
    simp [Outcome.next]
  | _ => cases h; simp [Outcome.next]

/-- An access inside `htll_mutex_lock`. -/
theorem lock_access {m : M} {p : LockPoint} (hp : s.point t = .lock m p)
    (h : s.access t input = some s') : s'.point t =
      (htllMutexLock (s.tls t).curSegmentId input.ticks (s.mutex m) p).2.next.elim
        (.outside (some (.lock m, 0))) (.lock m) := by
  simp only [access, hp] at h
  exact commit_landing h

/-- `htll_mutex_trylock` is one access. -/
theorem trylock_access {m : M} (hp : s.point t = .trylock m) (h : s.access t input = some s') :
    ∃ code, s'.point t = .outside (some (.trylock m, code)) := by
  simp only [access, hp] at h
  rcases htllMutexTrylock_ends (s.mutex m) with htake | ⟨hfail, -⟩
  · simp only [commit, htake, Option.some.injEq] at h
    subst h
    exact ⟨0, by simp⟩
  · simp only [commit, hfail, Option.some.injEq] at h
    subst h
    exact ⟨ebusy, by simp⟩

/-- An access inside `htll_mutex_unlock`. -/
theorem unlock_access {m : M} {after : After C} {p : UnlockPoint}
    (hp : s.point t = .unlock m after p) (h : s.access t input = some s') :
    s'.point t = (htllMutexUnlock (s.mutex m) p).2.next.elim (after.point m) (.unlock m after) := by
  simp only [access, hp] at h
  exact commit_landing h

/-- An access in the loop that takes the mutex back. -/
theorem retake_access {c : C} {m : M} {abstime : Option Timespec} {code : ℤ} {p : RetakePoint}
    (hp : s.point t = .retake c m abstime code p) (h : s.access t input = some s') :
    s'.point t = (retakeMutex (s.mutex m) p).2.next.elim
      (.outside (some (.waiting c m abstime, code))) (.retake c m abstime code) := by
  simp only [access, hp] at h
  exact commit_landing h

/-- Every access follows the control flow. -/
theorem flow_access (h : s.access t input = some s') : Flow s t (s'.point t) := by
  cases hp : s.point t with
  | outside last => simp [access, hp] at h
  | lock m p =>
    rw [lock_access hp h]
    cases hnext : (htllMutexLock (s.tls t).curSegmentId input.ticks (s.mutex m) p).2.next with
    | none => exact .returned
    | some p' => exact .locking hp _ hnext
  | trylock m =>
    obtain ⟨code, hpoint⟩ := trylock_access hp h
    exact hpoint ▸ .returned
  | unlock m after p =>
    rw [unlock_access hp h]
    cases hnext : (htllMutexUnlock (s.mutex m) p).2.next with
    | none => exact .unlocked hp
    | some p' => exact .unlocking hp hnext
  | bind c m abstime p =>
    simp only [access, hp] at h
    split at h
    · rename_i p' hgoto
      cases h
      simp only [goto, Function.update_self]
      rcases bindCond_seqRead hgoto with ⟨rfl, rfl⟩ | ⟨hne, hread⟩
      · exact .reading hp
      · exact .binding hp hne hread
    · cases h
      simp only [goto, Function.update_self]
      exact .returned
    · rename_i seq hbound
      cases h
      simp only [goto, Function.update_self]
      exact .bound hp (bindCond_bound_seqRead hbound)
  | clock c m seq abstime =>
    simp only [access, hp, Option.some.injEq] at h
    subst h
    simp only [goto, Function.update_self]
    exact .clocked hp _
  | wait c m seq abstime rt =>
    rw [wait_access hp h]
    exact .waited hp
  | reclock c m abstime =>
    simp only [access, hp, Option.some.injEq] at h
    subst h
    simp only [goto, Function.update_self]
    exact .reclocked hp
  | retake c m abstime code p =>
    rw [retake_access hp h]
    cases (retakeMutex (s.mutex m) p).2.next with
    | none => exact .returned
    | some p' => exact .retaking hp
  | signalAdd c =>
    simp only [access, hp, Option.some.injEq] at h
    subst h
    simp only [goto, Function.update_self]
    exact .signalled hp
  | broadcastAdd c m =>
    simp only [access, hp, Option.some.injEq] at h
    subst h
    simp only [goto, Function.update_self]
    exact .advanced hp
  | broadcastLoad c =>
    simp only [access, hp] at h
    split at h
    · cases h
      simp only [goto, Function.update_self]
      exact .returned
    · rename_i m hm
      cases h
      simp only [goto, Function.update_self]
      exact .loaded hp hm
  | signalWake c | broadcastRequeue c m =>
    simp only [access, hp, Option.map_eq_some_iff] at h
    obtain ⟨s₁, -, rfl⟩ := h
    simp only [goto, Function.update_self]
    exact .returned

end State

end Htll
