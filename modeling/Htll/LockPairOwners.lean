import Htll.LockPair

/-!
# Who holds the two locks

Every program point says which of the two locks its thread holds; between calls it holds both or
neither. No call of a POSIX function is made without the lock it needs, so no assertion fails. A
thread that waits for `posix_lock` waits for one that waits for neither lock.
-/

namespace Htll

open Posix Transition

/-- Which of the two locks a thread holds at a program point. -/
def PairPoint.Holds {C : Type*} (outer inner : Prop) : PairPoint C → Prop
  | .outside _ | .lockOuter | .tryOuter => outer ↔ inner
  | .lockInner | .tryInner | .unlockOuter | .waitLockInner _ => outer ∧ ¬inner
  | .unlockInner | .waitRelease .. => outer ∧ inner
  | .waitEnter .. | .waitUnlock _ => ¬outer ∧ inner
  | .waiting .. | .reacquire _ | .waitLockOuter _ => ¬outer ∧ ¬inner

/-- What a thread carries at a program point: a deadline that the wait takes, and a code that the
assertion allows. -/
def PairPoint.Proper {C : Type*} : PairPoint C → Prop
  | .waitRelease _ ts | .waitEnter _ ts => ts.all Timespec.proper = true
  | .reacquire res => res = 0 ∨ res = etimedout
  | _ => True

/-- The condition variable in whose queue a thread is. -/
def PairPoint.queuedOn {C : Type*} : PairPoint C → Option C
  | .waiting c _ => some c
  | _ => none

/-- In a wait, not yet in the queue. -/
def PairPoint.entering {C : Type*} : PairPoint C → Bool
  | .waitRelease .. | .waitEnter .. => true
  | _ => false

/-- A lock is kept, taken or released by a thread. -/
inductive Handover {T : Type*} (t : T) : Option T → Option T → Prop
  | keep (r : Option T) : Handover t r r
  | take : Handover t none (some t)
  | drop : Handover t (some t) none

/-- Others hold the lock as before. -/
theorem Handover.other {T : Type*} {t u : T} {r r' : Option T} (h : Handover t r r')
    (hu : u ≠ t) : r' = some u ↔ r = some u := by
  cases h <;> simp [Ne.symm hu]

/-- A free lock is taken. -/
theorem Handover.of_free {T : Type*} {t : T} {r : Option T} (h : r = none) :
    Handover t r (some t) := h ▸ .take

/-- A lock is released by its owner. -/
theorem Handover.of_owned {T : Type*} {t : T} {r : Option T} (h : r = some t) :
    Handover t r none := h ▸ .drop

namespace LockPair

variable {T C : Type*} [DecidableEq T] [DecidableEq C]

/-- What holds in every state. -/
structure Sound (s : LockPair T C) : Prop where
  unfailed : s.failed = false
  holds : ∀ t, (s.point t).Holds (s.lock = some t) (s.posixLock = some t)
  proper : ∀ t, (s.point t).Proper
  queued : ∀ t c, t ∈ s.queue c ↔ (s.point t).queuedOn = some c
  nodup : ∀ c, (s.queue c).Nodup

variable {s s' : LockPair T C} {t u : T} {c : C}

omit [DecidableEq T] [DecidableEq C] in
/-- Nothing is held in the initial state. -/
theorem sound_initial : Sound (initial : LockPair T C) where
  unfailed := rfl
  holds _ := Iff.rfl
  proper _ := trivial
  queued t c := by simp [initial, PairPoint.queuedOn]
  nodup _ := List.nodup_nil

omit [DecidableEq T] [DecidableEq C] in
/-- Between calls a thread has some code. -/
theorem isOutside_iff : s.isOutside t = true ↔ ∃ code, s.point t = .outside code := by
  unfold isOutside
  split
  · exact iff_of_true rfl ⟨_, ‹_›⟩
  · rename_i hne
    exact iff_of_false Bool.false_ne_true fun ⟨code, hcode⟩ => hne code hcode

/-! ## Steps of one thread -/

omit [DecidableEq C] in
/-- A thread moves, outside the queues, and takes or releases locks. -/
theorem Sound.move (h : Sound s) {r r' : Option T} {q : PairPoint C}
    (houter : Handover t s.lock r) (hinner : Handover t s.posixLock r')
    (hp : (s.point t).queuedOn = none) (hq : q.queuedOn = none)
    (hholds : q.Holds (r = some t) (r' = some t)) (hproper : q.Proper) :
    Sound ({ s with lock := r, posixLock := r' }.goto t q) where
  unfailed := h.unfailed
  holds u := by
    by_cases hu : u = t
    · subst hu
      simpa using hholds
    · simpa [hu, houter.other hu, hinner.other hu] using h.holds u
  proper u := by
    by_cases hu : u = t
    · subst hu
      simpa using hproper
    · simpa [hu] using h.proper u
  queued u c := by
    by_cases hu : u = t
    · subst hu
      simp [h.queued u c, hp, hq]
    · simpa [hu] using h.queued u c
  nodup := h.nodup

/-- A thread enters a queue and releases the inner lock. -/
theorem Sound.enqueue (h : Sound s) {ts : Option Timespec} (hp : s.point t = .waitEnter c ts)
    (hinner : s.posixLock = some t) : Sound ({ s with posixLock := none }.enqueue t c ts) where
  unfailed := h.unfailed
  holds u := by
    have hu' := h.holds u
    by_cases hu : u = t
    · subst hu
      rw [hp] at hu'
      simpa [LockPair.enqueue, PairPoint.Holds] using hu'.1
    · simpa [LockPair.enqueue, hu, hinner, Ne.symm hu] using hu'
  proper u := by
    by_cases hu : u = t
    · subst hu
      simp [LockPair.enqueue, PairPoint.Proper]
    · simpa [LockPair.enqueue, hu] using h.proper u
  queued u c' := by
    have hu' := h.queued u c'
    by_cases hu : u = t
    · subst hu
      rw [hp] at hu'
      by_cases hc : c' = c
      · subst hc
        simp [LockPair.enqueue, PairPoint.queuedOn]
      · simpa [LockPair.enqueue, PairPoint.queuedOn, hc, Ne.symm hc] using hu'
    · by_cases hc : c' = c
      · subst hc
        simpa [LockPair.enqueue, hu] using hu'
      · simpa [LockPair.enqueue, hu, hc] using hu'
  nodup c' := by
    by_cases hc : c' = c
    · subst hc
      have hnot : t ∉ s.queue c' := by
        rw [h.queued t c', hp]
        simp [PairPoint.queuedOn]
      simpa [LockPair.enqueue, List.nodup_append] using
        ⟨h.nodup c', fun u hu heq => hnot (heq ▸ hu)⟩
    · simpa [LockPair.enqueue, hc] using h.nodup c'

omit [DecidableEq T] [DecidableEq C] in
/-- Who is in a queue waits and holds neither lock. -/
theorem Sound.waiting (h : Sound s) (hu : u ∈ s.queue c) :
    (∃ ts, s.point u = .waiting c ts) ∧ s.lock ≠ some u ∧ s.posixLock ≠ some u := by
  have hqueued := (h.queued u c).mp hu
  have hholds := h.holds u
  cases hp : s.point u with
  | waiting c' ts =>
    rw [hp] at hqueued hholds
    cases hqueued
    exact ⟨⟨ts, rfl⟩, hholds⟩
  | _ =>
    rw [hp] at hqueued
    cases hqueued

omit [DecidableEq T] [DecidableEq C] in
/-- Who is between calls is in no queue. -/
theorem Sound.not_mem_queue (h : Sound s) (hp : s.isOutside t = true) (c : C) :
    t ∉ s.queue c := by
  intro ht
  obtain ⟨⟨ts, hwaiting⟩, -⟩ := h.waiting ht
  obtain ⟨code, hcode⟩ := isOutside_iff.mp hp
  rw [hwaiting] at hcode
  cases hcode

/-- A thread leaves a queue. -/
theorem Sound.wake (h : Sound s) {res : ℤ} (hu : u ∈ s.queue c)
    (hres : res = 0 ∨ res = etimedout) : Sound (s.wake u c res) where
  unfailed := h.unfailed
  holds w := by
    by_cases hw : w = u
    · subst hw
      simpa [LockPair.wake, PairPoint.Holds] using (h.waiting hu).2
    · simpa [LockPair.wake, hw] using h.holds w
  proper w := by
    by_cases hw : w = u
    · subst hw
      simpa [LockPair.wake, PairPoint.Proper] using hres
    · simpa [LockPair.wake, hw] using h.proper w
  queued w c' := by
    have hw' := h.queued w c'
    by_cases hw : w = u
    · subst hw
      have hqueued := (h.queued w c).mp hu
      by_cases hc : c' = c
      · subst hc
        simpa [LockPair.wake, PairPoint.queuedOn] using (h.nodup c').not_mem_erase
      · rw [hqueued] at hw'
        simpa [LockPair.wake, PairPoint.queuedOn, hc, Ne.symm hc] using hw'
    · by_cases hc : c' = c
      · subst hc
        simpa [LockPair.wake, hw, List.mem_erase_of_ne hw] using hw'
      · simpa [LockPair.wake, hw, hc] using hw'
  nodup c' := by
    by_cases hc : c' = c
    · subst hc
      simpa [LockPair.wake] using (h.nodup c').erase u
    · simpa [LockPair.wake, hc] using h.nodup c'

/-- All threads leave a queue. -/
theorem Sound.wakeAll (h : Sound s) (c : C) : Sound (s.wakeAll c) where
  unfailed := h.unfailed
  holds w := by
    simp only [LockPair.wakeAll]
    split
    · rename_i hw
      exact (h.waiting hw).2
    · exact h.holds w
  proper w := by
    simp only [LockPair.wakeAll]
    split
    · exact Or.inl rfl
    · exact h.proper w
  queued w c' := by
    have hw' := h.queued w c'
    have hqueued := h.queued w c
    simp only [LockPair.wakeAll]
    by_cases hc : c' = c
    · subst hc
      split <;> simp_all [PairPoint.queuedOn]
    · rw [Function.update_of_ne hc]
      split
      · rename_i hw
        rw [hw', hqueued.mp hw]
        simp [PairPoint.queuedOn, Ne.symm hc]
      · exact hw'
  nodup c' := by
    by_cases hc : c' = c
    · subst hc
      simp [LockPair.wakeAll]
    · simpa [LockPair.wakeAll, hc] using h.nodup c'

section Calls

variable {next : Code → LockPair T C → LockPair T C}

omit [DecidableEq C] in
/-- `lock` is taken when it is free. -/
theorem onLock_lock (hs : s.onLock (realLock s.lock t) next = some s') :
    s.lock = none ∧ next .success { s with lock := some t } = s' := by
  rw [realLock_eq] at hs
  split at hs <;> cases hs
  exact ⟨‹_›, rfl⟩

omit [DecidableEq C] in
/-- `posix_lock` is taken when it is free. -/
theorem onPosixLock_lock (hs : s.onPosixLock (realLock s.posixLock t) next = some s') :
    s.posixLock = none ∧ next .success { s with posixLock := some t } = s' := by
  rw [realLock_eq] at hs
  split at hs <;> cases hs
  exact ⟨‹_›, rfl⟩

omit [DecidableEq C] in
/-- `lock` is released by its owner. -/
theorem onLock_unlock (howned : s.lock = some t)
    (hs : s.onLock (realUnlock s.lock t) next = some s') :
    next .success { s with lock := none } = s' := by
  rw [realUnlock_eq, if_pos howned] at hs
  exact Option.some.inj hs

omit [DecidableEq C] in
/-- `posix_lock` is released by its owner. -/
theorem onPosixLock_unlock (howned : s.posixLock = some t)
    (hs : s.onPosixLock (realUnlock s.posixLock t) next = some s') :
    next .success { s with posixLock := none } = s' := by
  rw [realUnlock_eq, if_pos howned] at hs
  exact Option.some.inj hs

end Calls

/-- What a step of a thread in a call does. -/
inductive Moved (t : T) (s s' : LockPair T C) : Prop
  /-- It tries again. -/
  | stay (hs : s' = s)
  /-- It goes on, outside the queues, and takes or releases a lock. -/
  | goto (r r' : Option T) (q : PairPoint C) (houter : Handover t s.lock r)
      (hinner : Handover t s.posixLock r') (hp : (s.point t).queuedOn = none)
      (hq : q.queuedOn = none) (hholds : q.Holds (r = some t) (r' = some t)) (hproper : q.Proper)
      (hentering : q.entering = true → (s.point t).entering = true)
      (hs : s' = { s with lock := r, posixLock := r' }.goto t q)
  /-- It begins to wait for a condition variable. -/
  | enqueue (c : C) (ts : Option Timespec) (hp : s.point t = .waitEnter c ts)
      (hinner : s.posixLock = some t) (hs : s' = { s with posixLock := none }.enqueue t c ts)

/-- A step of a thread in a call. -/
theorem Sound.moved (h : Sound s) (hs : s.access t = some s') : Moved t s s' := by
  have hholds := h.holds t
  have hproper := h.proper t
  unfold LockPair.access at hs
  cases hp : s.point t with
  | outside code | waiting c ts =>
    simp only [hp] at hs
    cases hs
  | lockOuter =>
    simp only [hp] at hs hholds
    obtain ⟨hfree, rfl⟩ := onLock_lock hs
    have hinner : s.posixLock ≠ some t := fun hi => by simp [hholds.mpr hi] at hfree
    exact .goto _ _ .lockInner (.of_free hfree) (.keep _) (by rw [hp]; rfl) rfl ⟨rfl, hinner⟩
      trivial nofun rfl
  | lockInner =>
    simp only [hp] at hs hholds
    obtain ⟨hfree, rfl⟩ := onPosixLock_lock hs
    rw [if_pos rfl]
    exact .goto _ _ (.outside 0) (.keep _) (.of_free hfree) (by rw [hp]; rfl) rfl
      (iff_of_true hholds.1 rfl) trivial nofun rfl
  | tryOuter =>
    simp only [hp] at hs hholds
    rw [realTrylock_eq] at hs
    split at hs <;> cases hs
    · rename_i hfree
      have hinner : s.posixLock ≠ some t := fun hi => by simp [hholds.mpr hi] at hfree
      exact .goto _ _ .tryInner (.of_free hfree) (.keep _) (by rw [hp]; rfl) rfl ⟨rfl, hinner⟩
        trivial nofun rfl
    · exact .goto _ _ (.outside ebusy) (.keep _) (.keep _) (by rw [hp]; rfl) rfl hholds trivial
        nofun rfl
  | tryInner =>
    simp only [hp] at hs hholds
    rw [realTrylock_eq] at hs
    split at hs <;> cases hs
    · rename_i hfree
      exact .goto _ _ (.outside 0) (.keep _) (.of_free hfree) (by rw [hp]; rfl) rfl
        (iff_of_true hholds.1 rfl) trivial nofun rfl
    · exact .stay rfl
  | unlockInner =>
    simp only [hp] at hs hholds
    obtain rfl := onPosixLock_unlock hholds.2 hs
    rw [if_pos rfl]
    exact .goto _ _ .unlockOuter (.keep _) (.of_owned hholds.2) (by rw [hp]; rfl) rfl
      ⟨hholds.1, nofun⟩ trivial nofun rfl
  | unlockOuter =>
    simp only [hp] at hs hholds
    obtain rfl := onLock_unlock hholds.1 hs
    exact .goto _ _ (.outside 0) (.of_owned hholds.1) (.keep _) (by rw [hp]; rfl) rfl
      (iff_of_false nofun hholds.2) trivial nofun rfl
  | waitRelease c ts =>
    simp only [hp] at hs hholds hproper
    obtain rfl := onLock_unlock hholds.1 hs
    exact .goto _ _ (.waitEnter c ts) (.of_owned hholds.1) (.keep _) (by rw [hp]; rfl) rfl
      ⟨nofun, hholds.2⟩ hproper (fun _ => by rw [hp]; rfl) rfl
  | waitEnter c ts =>
    simp only [hp] at hs hholds hproper
    rw [if_pos (show ts.all Timespec.proper = true from hproper)] at hs
    obtain rfl := onPosixLock_unlock hholds.2 hs
    exact .enqueue c ts hp hholds.2 rfl
  | reacquire res =>
    simp only [hp] at hs hholds hproper
    obtain ⟨hfree, rfl⟩ := onPosixLock_lock hs
    have hallowed : ¬(res ≠ 0 ∧ res ≠ etimedout) := by
      rcases hproper with hres | hres <;> simp [hres]
    rw [if_neg hallowed]
    exact .goto _ _ (.waitUnlock res) (.keep _) (.of_free hfree) (by rw [hp]; rfl) rfl
      ⟨hholds.1, rfl⟩ trivial nofun rfl
  | waitUnlock res =>
    simp only [hp] at hs hholds
    obtain rfl := onPosixLock_unlock hholds.2 hs
    rw [if_neg (by simp)]
    exact .goto _ _ (.waitLockOuter res) (.keep _) (.of_owned hholds.2) (by rw [hp]; rfl) rfl
      ⟨hholds.1, nofun⟩ trivial nofun rfl
  | waitLockOuter res =>
    simp only [hp] at hs hholds
    obtain ⟨hfree, rfl⟩ := onLock_lock hs
    exact .goto _ _ (.waitLockInner res) (.of_free hfree) (.keep _) (by rw [hp]; rfl) rfl
      ⟨rfl, hholds.2⟩ trivial nofun rfl
  | waitLockInner res =>
    simp only [hp] at hs hholds
    obtain ⟨hfree, rfl⟩ := onPosixLock_lock hs
    exact .goto _ _ (.outside res) (.keep _) (.of_free hfree) (by rw [hp]; rfl) rfl
      (iff_of_true hholds.1 rfl) trivial nofun rfl

/-- It keeps what holds in every state. -/
theorem Sound.access (h : Sound s) (hs : s.access t = some s') : Sound s' := by
  cases h.moved hs with
  | stay hs => exact hs ▸ h
  | goto r r' q houter hinner hp hq hholds hproper _ hs =>
    exact hs ▸ h.move houter hinner hp hq hholds hproper
  | enqueue c ts hp hinner hs => exact hs ▸ h.enqueue hp hinner

omit [DecidableEq C] in
/-- A call of a disciplined program begins. -/
theorem Sound.begin (h : Sound s) {call : PairCall C} (hp : s.isOutside t = true)
    (hguard : s.Disciplined (.call t call)) : Sound (s.goto t call.start) := by
  obtain ⟨code, hcode⟩ := isOutside_iff.mp hp
  have hholds := h.holds t
  rw [hcode] at hholds
  cases call with
  | lock | trylock => exact h.move (.keep _) (.keep _) (by rw [hcode]; rfl) rfl hholds trivial
  | unlock => exact h.move (.keep _) (.keep _) (by rw [hcode]; rfl) rfl hguard trivial
  | wait c ts =>
    exact h.move (.keep _) (.keep _) (by rw [hcode]; rfl) rfl hguard.1 hguard.2

omit [DecidableEq C] in
/-- A signal or a broadcast returns. -/
theorem Sound.returned (h : Sound s) (hp : s.isOutside t = true) :
    Sound (s.goto t (.outside 0)) := by
  obtain ⟨code, hcode⟩ := isOutside_iff.mp hp
  have hholds := h.holds t
  rw [hcode] at hholds
  exact h.move (.keep _) (.keep _) (by rw [hcode]; rfl) rfl hholds trivial

/-- What an action does. -/
inductive Acts (s : LockPair T C) : PairAction T C → LockPair T C → Prop
  | call (t : T) (call : PairCall C) (hp : s.isOutside t = true) :
      Acts s (.call t call) (s.goto t call.start)
  | access (t : T) {s' : LockPair T C} (hs : s.access t = some s') : Acts s (.access t) s'
  | signalNone (t : T) (c : C) (hp : s.isOutside t = true) (hqueue : s.queue c = []) :
      Acts s (.signal t c none) (s.goto t (.outside 0))
  | signal (t : T) (c : C) (u : T) (hp : s.isOutside t = true) (hu : u ∈ s.queue c) :
      Acts s (.signal t c (some u)) ((s.wake u c 0).goto t (.outside 0))
  | broadcast (t : T) (c : C) (hp : s.isOutside t = true) :
      Acts s (.broadcast t c) ((s.wakeAll c).goto t (.outside 0))
  | timeout (t : T) (c : C) (ts : Timespec) (hp : s.point t = .waiting c (some ts)) :
      Acts s (.timeout t) (s.wake t c etimedout)
  | wakeUp (t : T) (c : C) (ts : Option Timespec) (hp : s.point t = .waiting c ts) :
      Acts s (.wakeUp t) (s.wake t c 0)

/-- A step is one of these. -/
theorem acts_of_step {x : PairAction T C} (hs : s.step x = some s') : Acts s x s' := by
  unfold LockPair.step at hs
  replace hs := (Option.ite_none_left_eq_some.mp hs).2
  split at hs
  case h_1 t call =>
    obtain ⟨hp, heq⟩ := Option.ite_none_right_eq_some.mp hs
    exact Option.some.inj heq ▸ .call t call hp
  case h_2 t => exact .access t hs
  case h_3 t c =>
    obtain ⟨⟨hp, hqueue⟩, heq⟩ := Option.ite_none_right_eq_some.mp hs
    exact Option.some.inj heq ▸ .signalNone t c hp hqueue
  case h_4 t c u =>
    obtain ⟨⟨hp, hu⟩, heq⟩ := Option.ite_none_right_eq_some.mp hs
    exact Option.some.inj heq ▸ .signal t c u hp hu
  case h_5 t c =>
    obtain ⟨hp, heq⟩ := Option.ite_none_right_eq_some.mp hs
    exact Option.some.inj heq ▸ .broadcast t c hp
  case h_6 t =>
    split at hs <;> cases hs
    rename_i c ts hp
    exact .timeout t c ts hp
  case h_7 t =>
    split at hs <;> cases hs
    rename_i c ts hp
    exact .wakeUp t c ts hp

/-- Every action of a disciplined program. -/
theorem Sound.step (h : Sound s) {x : PairAction T C} (hguard : s.Disciplined x)
    (hs : s.step x = some s') : Sound s' := by
  cases acts_of_step hs with
  | call t call hp => exact h.begin hp hguard
  | access t hs => exact h.access hs
  | signalNone t c hp hqueue => exact h.returned hp
  | signal t c u hp hu =>
    have hne : t ≠ u := fun heq => h.not_mem_queue hp c (heq ▸ hu)
    refine (h.wake hu (Or.inl rfl)).returned ?_
    simpa [LockPair.wake, isOutside, hne] using hp
  | broadcast t c hp =>
    refine (h.wakeAll c).returned ?_
    simpa [LockPair.wakeAll, isOutside, h.not_mem_queue hp c] using hp
  | timeout t c ts hp => exact h.wake ((h.queued t c).mpr (by rw [hp]; rfl)) (Or.inr rfl)
  | wakeUp t c ts hp => exact h.wake ((h.queued t c).mpr (by rw [hp]; rfl)) (Or.inl rfl)

/-- Every state of a disciplined program. -/
theorem sound_of_path (hpath : Path LockPair.step Disciplined initial s) : Sound s :=
  Path.invariant Sound (fun _ _ _ hguard hs h => h.step hguard hs) hpath sound_initial

end LockPair

end Htll
