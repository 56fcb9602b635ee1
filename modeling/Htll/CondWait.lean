import Htll.MachineFlow
import Mathlib.Algebra.Ring.Nat

/-!
# Following one wait on a condition variable

A waiter compares the value of `seq` that it read before it released the mutex with the value
at its `FUTEX_WAIT`. Counting how often a sequence number was advanced turns this comparison
into one of natural numbers, as long as fewer than 2^32 advances lie between the two. A wait is
named by its thread and by how many calls the thread has begun; it is followed through three
stages: under way, overtaken by an advance, and done with the queue of `seq` for good.
-/

namespace Htll

open ParkingLock Transition

section Points

variable {M C : Type*} [DecidableEq C]

/-- The sequence number that the thread has read and will compare, and its value. -/
def Point.seqRead : Point M C → Option (C × BitVec 32)
  | .bind c _ _ p => p.seqRead.map fun seq => (c, seq)
  | .unlock _ (.wait c seq _) _ | .clock c _ seq _ | .wait c _ seq _ _ => some (c, seq)
  | _ => none

/-- The thread is past its binding to the condition variable, or back from the wait. -/
def Point.inWait (c : C) : Point M C → Bool
  | .outside _ => true
  | .unlock _ (.wait c' _ _) _ | .clock c' _ _ _ | .wait c' _ _ _ _ | .reclock c' _ _
  | .retake c' _ _ _ _ => c' = c
  | _ => false

/-- The thread has released the mutex in a wait and has not reached the end of `FUTEX_WAIT`. -/
def Point.released (c : C) : Point M C → Bool
  | .unlock _ (.wait c' _ _) p => !p.holding && c' = c
  | .clock c' _ _ _ | .wait c' _ _ _ _ => c' = c
  | _ => false

/-- After `FUTEX_WAIT` on the condition variable the wait goes on. -/
@[simp] theorem inWait_afterWait (c : C) (m : M) (abstime : Option Timespec) :
    (afterWait c m abstime).inWait c = true := by
  cases abstime <;> simp [afterWait, Point.inWait]

omit [DecidableEq C] in
/-- After `FUTEX_WAIT` the value of `seq` is not compared any more. -/
@[simp] theorem seqRead_afterWait (c : C) (m : M) (abstime : Option Timespec) :
    (afterWait c m abstime).seqRead = none := by
  cases abstime <;> rfl

/-- A thread that has released the mutex in a wait is in that wait. -/
theorem Point.inWait_of_released {c : C} {q : Point M C} (h : q.released c = true) :
    q.inWait c = true := by
  cases q with
  | unlock m after p => cases after <;> simp_all [released, inWait]
  | clock | wait => exact h
  | _ => cases h

/-- A thread in a wait on a condition variable relies on its binding. -/
theorem Point.binding_of_inWait {c : C} {m : M} {q : Point M C} (h : q.inWait c = true)
    (hm : q.mutex = some m) : q.binding = some (c, m) := by
  cases q with
  | outside => cases hm
  | unlock m' after p =>
    cases after with
    | unlock => cases h
    | wait c' => simp_all [inWait, mutex, binding]
  | clock | wait | reclock | retake => simp_all [inWait, mutex, binding]
  | _ => cases h

/-- A thread that has released the mutex in a wait relies on a binding. -/
theorem Point.mutex_of_released {c : C} {q : Point M C} (h : q.released c = true) :
    ∃ m, q.mutex = some m := by
  cases q with
  | unlock | clock | wait => exact ⟨_, rfl⟩
  | _ => cases h

end Points

namespace State

variable {T M C : Type*} [DecidableEq T] [DecidableEq M] [DecidableEq C]
  {s s' : State T M C} {t w : T} {c : C} {n : ℕ} {input : Input T}

/-- The value to be compared was read fewer than 2^32 advances ago. -/
def ComparesInTime (s : State T M C) (t : T) : Point M C → Prop
  | .wait c _ _ _ _ => s.bumps c < s.ticket t + 2 ^ 32
  | _ => True

/-- Every comparison of `FUTEX_WAIT` comes fewer than 2^32 signals and broadcasts after the
value was read. -/
def NoWrap (s : State T M C) : Action T M C → Prop
  | .access t _ => ComparesInTime s t (s.point t)
  | _ => True

omit [DecidableEq T] [DecidableEq M] [DecidableEq C] in
instance (s : State T M C) (t : T) : DecidablePred (ComparesInTime s t)
  | .wait c _ _ _ _ => inferInstanceAs (Decidable (s.bumps c < s.ticket t + 2 ^ 32))
  | .outside _ | .lock .. | .trylock _ | .unlock .. | .bind .. | .clock .. | .reclock ..
  | .retake .. | .signalAdd _ | .signalWake _ | .broadcastLoad _ | .broadcastAdd ..
  | .broadcastRequeue .. => .isTrue trivial

omit [DecidableEq T] [DecidableEq M] [DecidableEq C] in
instance (s : State T M C) : DecidablePred (NoWrap s)
  | .access t _ => inferInstanceAs (Decidable (ComparesInTime s t (s.point t)))
  | .call .. | .unpark _ | .segmentStart .. | .segmentEnd .. => .isTrue trivial

/-- The sequence numbers count their advances, and waiters hold values counted before. -/
structure Ticketed (s : State T M C) : Prop where
  counted : ∀ c, (s.cond c).seq = BitVec.ofNat 32 (s.bumps c)
  read : ∀ t c seq, (s.point t).seqRead = some (c, seq) →
    seq = BitVec.ofNat 32 (s.ticket t) ∧ s.ticket t ≤ s.bumps c

omit [DecidableEq T] [DecidableEq M] [DecidableEq C] in
/-- The value of `seq` comes with the thread from where it was read. -/
theorem Flow.seqRead {q : Point M C} (hflow : Flow s t q) {seq : BitVec 32}
    (h : q.seqRead = some (c, seq)) :
    (∃ m abstime, s.point t = .bind c m abstime .seq ∧ seq = (s.cond c).seq) ∨
      (∀ c m abstime, s.point t ≠ .bind c m abstime .seq) ∧
        (s.point t).seqRead = some (c, seq) := by
  cases hflow with
  | reading hp =>
    cases h
    exact Or.inl ⟨_, _, hp, rfl⟩
  | binding hp hne hread =>
    refine Or.inr ⟨fun c' m' abstime' h' => ?_, ?_⟩
    · rw [hp] at h'
      cases h'
      exact hne rfl
    · rw [hp, Point.seqRead, ← hread]
      exact h
  | bound hp hread =>
    refine Or.inr ⟨fun c' m' abstime' h' => ?_, ?_⟩
    · rw [hp] at h'
      cases h'
      cases hread
    · rw [hp, Point.seqRead, hread]
      exact h
  | @unlocking m after p p' hp =>
    cases after with
    | unlock => cases h
    | wait => exact Or.inr ⟨by simp [hp], by rw [hp]; exact h⟩
  | @unlocked m after p hp =>
    rcases after with _ | ⟨c', seq', _ | abstime⟩
    · cases h
    · exact Or.inr ⟨by simp [hp], by rw [hp]; exact h⟩
    · exact Or.inr ⟨by simp [hp], by rw [hp]; exact h⟩
  | clocked hp rt =>
    refine Or.inr ⟨by simp [hp], ?_⟩
    rw [hp]
    simp only [afterClock] at h
    split at h
    · cases h
    · exact h
  | waited => simp at h
  | _ => cases h

omit [DecidableEq T] [DecidableEq M] in
/-- A wait goes on until the thread is back from it. -/
theorem Flow.inWait {q : Point M C} (hflow : Flow s t q) (h : (s.point t).inWait c = true) :
    q.inWait c = true := by
  cases hflow with
  | returned => rfl
  | @unlocked m after p hp =>
    rw [hp] at h
    rcases after with _ | ⟨c', seq', _ | abstime⟩
    · rfl
    · exact h
    · exact h
  | @unlocking m after p p' hp =>
    rw [hp] at h
    cases after <;> exact h
  | reading hp | binding hp | bound hp =>
    rw [hp] at h
    cases h
  | clocked hp rt =>
    rw [hp] at h
    simp only [afterClock]
    split <;> exact h
  | @waited c' m seq abstime rt hp =>
    rw [hp] at h
    cases abstime <;> exact h
  | locking hp | reclocked hp | retaking hp | signalled hp | loaded hp | advanced hp =>
    rw [hp] at h
    exact h

variable [Fintype T]

/-- An access to a mutex changes no ticket and advances no sequence number. -/
theorem commit_ghosts {P : Type*} {m : M} {pick : Option T} {embed : P → Point M C}
    {taken failed ended : Point M C} {result : Mutex × Outcome P}
    (h : s.commit t m pick embed taken failed ended result = some s') :
    s'.ticket = s.ticket ∧ s'.bumps = s.bumps := by
  obtain ⟨x, outcome⟩ := result
  cases outcome with
  | free p => cases p <;> cases h <;> exact ⟨rfl, rfl⟩
  | wake =>
    simp only [commit, Option.map_eq_some_iff] at h
    obtain ⟨s₁, hwake, rfl⟩ := h
    rcases wake_cases hwake with ⟨w, -, rfl⟩ | ⟨-, rfl⟩ <;> exact ⟨rfl, rfl⟩
  | _ =>
    cases h
    exact ⟨rfl, rfl⟩

/-- A thread draws a ticket when it reads the sequence number, and at no other access. -/
theorem ticket_access (h : s.access t input = some s') :
    (∃ c m abstime, s.point t = .bind c m abstime .seq ∧ s'.ticket t = s.bumps c) ∨
      (∀ c m abstime, s.point t ≠ .bind c m abstime .seq) ∧ s'.ticket t = s.ticket t := by
  cases hp : s.point t with
  | outside last => simp [access, hp] at h
  | bind c m abstime p =>
    simp only [access, hp] at h
    by_cases hseq : p = .seq
    · subst hseq
      cases h
      exact Or.inl ⟨c, m, abstime, rfl, by simp⟩
    · refine Or.inr ⟨fun c' m' abstime' heq => by cases heq; exact hseq rfl, ?_⟩
      split at h <;> cases h <;> simp [hseq]
  | lock | trylock | unlock | retake =>
    simp only [access, hp] at h
    exact Or.inr ⟨by simp, congrFun (commit_ghosts h).1 t⟩
  | clock | reclock | signalAdd | broadcastAdd =>
    simp only [access, hp, Option.some.injEq] at h
    subst h
    exact Or.inr ⟨by simp, rfl⟩
  | wait c m seq abstime rt =>
    simp only [access, hp, Option.some.injEq] at h
    subst h
    exact Or.inr ⟨by simp, by split <;> rfl⟩
  | broadcastLoad c =>
    simp only [access, hp] at h
    split at h <;> cases h <;> exact Or.inr ⟨by simp, rfl⟩
  | signalWake c =>
    simp only [access, hp, Option.map_eq_some_iff] at h
    obtain ⟨s₁, hwake, rfl⟩ := h
    rcases wake_cases hwake with ⟨w, -, rfl⟩ | ⟨-, rfl⟩ <;>
      exact Or.inr ⟨by simp, rfl⟩
  | broadcastRequeue c m =>
    simp only [access, hp, Option.map_eq_some_iff] at h
    obtain ⟨s₁, hrequeue, rfl⟩ := h
    rcases requeue_cases hrequeue with ⟨w, -, rfl⟩ | ⟨-, rfl⟩ <;>
      exact Or.inr ⟨by simp, rfl⟩

/-- A thread goes to sleep on a sequence number only when the value it read is still there. -/
theorem parks_of_access (hasleep : s.asleep t = none) (h : s.access t input = some s')
    (hparked : s'.asleep t = some (.seq c)) :
    ∃ m abstime rt, s.point t = .wait c m (s.cond c).seq abstime rt := by
  cases hp : s.point t with
  | outside last => simp [access, hp] at h
  | lock | trylock | unlock | retake =>
    simp only [access, hp] at h
    exact absurd hparked (commit_asleep h hasleep c)
  | wait c' m seq abstime rt =>
    simp only [access, hp, Option.some.injEq] at h
    subst h
    split at hparked
    · rename_i hsame
      have hc : c' = c := by simpa using hparked
      subst hc
      exact ⟨m, abstime, rt, by rw [hsame]⟩
    · simp [hasleep] at hparked
  | bind c' m abstime p =>
    simp only [access, hp] at h
    split at h <;> cases h <;> simp [hasleep] at hparked
  | clock | reclock | signalAdd | broadcastAdd =>
    simp only [access, hp, Option.some.injEq] at h
    subst h
    simp [hasleep] at hparked
  | broadcastLoad c' =>
    simp only [access, hp] at h
    split at h <;> cases h <;> simp [hasleep] at hparked
  | signalWake c' =>
    simp only [access, hp, Option.map_eq_some_iff] at h
    obtain ⟨s₁, hwake, rfl⟩ := h
    simp [wake_asleep hwake hasleep] at hparked
  | broadcastRequeue c' m =>
    simp only [access, hp, Option.map_eq_some_iff] at h
    obtain ⟨s₁, hrequeue, rfl⟩ := h
    simp [requeue_asleep hrequeue hasleep] at hparked

/-- A thread that makes no access and begins no call is where it was, and was not put to sleep
on a sequence number. -/
structure Stays (w : T) (s s' : State T M C) : Prop where
  point : s'.point w = s.point w
  ticket : s'.ticket w = s.ticket w
  calls : s'.calls w = s.calls w
  asleep : ∀ c, s'.asleep w = some (.seq c) → s.asleep w = some (.seq c)
  bumps : ∀ c, s.bumps c ≤ s'.bumps c

/-- What an action means for one thread: it begins a call, makes an access, or stays. -/
theorem step_thread (hcoh : s.Coherent) {a : Action T M C} (h : s.step a = some s') (w : T) :
    (∃ call last, a = .call w call ∧ s.point w = .outside last ∧ s'.point w = call.entry ∧
      s'.calls w = s.calls w + 1) ∨
    (∃ input, a = .access w input ∧ s.asleep w = none ∧ s.access w input = some s' ∧
      s'.calls w = s.calls w) ∨
    Stays w s s' := by
  rcases step_cases h with ⟨t, call, last, ha, hp, -, -, rfl⟩ | ⟨t, input, ha, hasleep, h⟩ |
    ⟨t, -, rfl⟩ | ⟨tls, rfl, -⟩
  · by_cases hw : w = t
    · subst hw
      exact Or.inl ⟨call, last, ha, hp, by simp, by simp⟩
    · exact Or.inr (Or.inr ⟨by simp [hw], rfl, by simp [hw], fun _ h => h, fun _ => le_rfl⟩)
  · have hframe := frame_access hcoh h
    have hcalls : s'.calls w = s.calls w := by rw [hframe.calls]
    by_cases hw : w = t
    · subst hw
      exact Or.inr (Or.inl ⟨input, ha, hasleep, h, hcalls⟩)
    · exact Or.inr (Or.inr ⟨hframe.point w hw, hframe.ticket w hw, hcalls, hframe.asleep w hw,
        hframe.bumps⟩)
  · refine Or.inr (Or.inr ⟨rfl, rfl, rfl, fun c hc => ?_, fun _ => le_rfl⟩)
    by_cases hw : w = t
    · simp [hw] at hc
    · simpa [hw] using hc
  · exact Or.inr (Or.inr ⟨rfl, rfl, rfl, fun _ h => h, fun _ => le_rfl⟩)

/-- No action lets a sequence number and its count drift apart. -/
theorem counted_step (hcoh : s.Coherent) {a : Action T M C} (h : s.step a = some s')
    (hcounted : ∀ c, (s.cond c).seq = BitVec.ofNat 32 (s.bumps c)) (c : C) :
    (s'.cond c).seq = BitVec.ofNat 32 (s'.bumps c) := by
  rcases step_cases h with ⟨t, call, last, -, -, -, -, rfl⟩ | ⟨t, input, -, -, h⟩ |
    ⟨t, -, rfl⟩ | ⟨tls, rfl, -⟩
  · exact hcounted c
  · exact (frame_access hcoh h).counted c (hcounted c)
  · exact hcounted c
  · exact hcounted c

/-- Every action keeps the tickets. -/
theorem Ticketed.step (hcoh : s.Coherent) (hticketed : s.Ticketed) {a : Action T M C}
    (h : s.step a = some s') : s'.Ticketed := by
  refine ⟨counted_step hcoh h hticketed.counted, fun w c seq hread => ?_⟩
  rcases step_thread hcoh h w with ⟨call, last, -, -, hentry, -⟩ |
    ⟨input, -, hasleep, haccess, -⟩ | hstays
  · rw [hentry] at hread
    cases call <;> cases hread
  · have hbumps := (frame_access hcoh haccess).bumps c
    rcases (flow_access haccess).seqRead hread with ⟨m, abstime, hp, rfl⟩ | ⟨hne, hbefore⟩
    · rcases ticket_access haccess with ⟨c', m', abstime', hp', hticket⟩ | ⟨hne, -⟩
      · rw [hp] at hp'
        cases hp'
        exact ⟨by rw [hticket]; exact hticketed.counted c, by rw [hticket]; exact hbumps⟩
      · exact absurd hp (hne _ _ _)
    · obtain ⟨hseq, hle⟩ := hticketed.read w c seq hbefore
      rcases ticket_access haccess with ⟨c', m', abstime', hp', -⟩ | ⟨-, hticket⟩
      · exact absurd hp' (hne _ _ _)
      · rw [hticket]
        exact ⟨hseq, hle.trans hbumps⟩
  · rw [hstays.point] at hread
    obtain ⟨hseq, hle⟩ := hticketed.read w c seq hread
    rw [hstays.ticket]
    exact ⟨hseq, hle.trans (hstays.bumps c)⟩

/-! ## The stages of a wait -/

/-- The wait with the given number on the condition variable is past its binding, or over. -/
def InWait (s : State T M C) (c : C) (w : T) (n : ℕ) : Prop :=
  n < s.calls w ∨ s.calls w = n ∧ (s.point w).inWait c = true

/-- Moreover the sequence number was advanced since the wait read it. -/
structure Overtaken (s : State T M C) (c : C) (w : T) (n : ℕ) : Prop where
  inWait : InWait s c w n
  stale : s.calls w = n → ∀ seq, (s.point w).seqRead = some (c, seq) → s.ticket w < s.bumps c

/-- Moreover the wait is not parked on the sequence number. -/
structure Spent (s : State T M C) (c : C) (w : T) (n : ℕ) : Prop extends
    Overtaken s c w n where
  unparked : s.calls w = n → s.asleep w ≠ some (.seq c)

/-- Every action keeps a wait under way or over. -/
theorem InWait.step (hcoh : s.Coherent) (hwait : InWait s c w n) {a : Action T M C}
    (h : s.step a = some s') : InWait s' c w n := by
  rcases step_thread hcoh h w with ⟨call, last, -, -, -, hcalls⟩ | ⟨input, -, -, haccess, hcalls⟩ |
    hstays
  · rcases hwait with hlt | ⟨heq, -⟩
    · exact Or.inl (by omega)
    · exact Or.inl (by omega)
  · rcases hwait with hlt | ⟨heq, hin⟩
    · exact Or.inl (by omega)
    · exact Or.inr ⟨hcalls.trans heq, (flow_access haccess).inWait hin⟩
  · rcases hwait with hlt | ⟨heq, hin⟩
    · exact Or.inl (hstays.calls ▸ hlt)
    · exact Or.inr ⟨hstays.calls.trans heq, by rw [hstays.point]; exact hin⟩

/-- A wait that goes on was going on before. -/
theorem InWait.before (hcoh : s.Coherent) (hwait : InWait s c w n) {a : Action T M C}
    (h : s.step a = some s') (hcalls' : s'.calls w = n) :
    s.calls w = n ∧ (s.point w).inWait c = true := by
  rcases hwait with hlt | hin
  · rcases step_thread hcoh h w with ⟨_, _, -, -, -, hcalls⟩ | ⟨_, -, -, -, hcalls⟩ | hstays
    · omega
    · omega
    · have := hstays.calls
      omega
  · exact hin

/-- Every action keeps an overtaken wait overtaken. -/
theorem Overtaken.step (hcoh : s.Coherent) (hover : Overtaken s c w n) {a : Action T M C}
    (h : s.step a = some s') : Overtaken s' c w n := by
  refine ⟨hover.inWait.step hcoh h, fun hcalls' seq hread => ?_⟩
  obtain ⟨hcalls, hin⟩ := hover.inWait.before hcoh h hcalls'
  rcases step_thread hcoh h w with ⟨_, _, -, -, -, hnew⟩ | ⟨input, -, -, haccess, -⟩ | hstays
  · omega
  · rcases (flow_access haccess).seqRead hread with ⟨m, abstime, hp, -⟩ | ⟨hne, hbefore⟩
    · rw [hp] at hin
      cases hin
    · rcases ticket_access haccess with ⟨c', m', abstime', hp', -⟩ | ⟨-, hticket⟩
      · exact absurd hp' (hne _ _ _)
      · rw [hticket]
        exact (hover.stale hcalls seq hbefore).trans_le ((frame_access hcoh haccess).bumps c)
  · rw [hstays.point] at hread
    rw [hstays.ticket]
    exact (hover.stale hcalls seq hread).trans_le (hstays.bumps c)

/-- Values that count fewer than 2^32 advances apart differ. -/
theorem ofNat_ne_of_lt {x y : ℕ} (hlt : x < y) (hbound : y < x + 2 ^ 32) :
    BitVec.ofNat 32 y ≠ BitVec.ofNat 32 x := by
  intro h
  have hmod : y % 2 ^ 32 = x % 2 ^ 32 := by simpa using congrArg BitVec.toNat h
  omega

/-- Every action keeps a spent wait off the sequence number: its comparison fails. -/
theorem Spent.step (hcoh : s.Coherent) (hticketed : s.Ticketed) (hspent : Spent s c w n)
    {a : Action T M C} (hguard : NoWrap s a) (h : s.step a = some s') : Spent s' c w n := by
  refine ⟨hspent.toOvertaken.step hcoh h, fun hcalls' hparked => ?_⟩
  obtain ⟨hcalls, hin⟩ := hspent.inWait.before hcoh h hcalls'
  rcases step_thread hcoh h w with ⟨_, _, -, -, -, hnew⟩ | ⟨input, rfl, hasleep, haccess, -⟩ |
    hstays
  · omega
  · obtain ⟨m, abstime, rt, hp⟩ := parks_of_access hasleep haccess hparked
    have hstale := hspent.stale hcalls (s.cond c).seq (by rw [hp]; rfl)
    have hread := (hticketed.read w c (s.cond c).seq (by rw [hp]; rfl)).1
    simp only [NoWrap, hp, ComparesInTime] at hguard
    rw [hticketed.counted c] at hread
    exact ofNat_ne_of_lt hstale hguard hread
  · exact hspent.unparked hcalls (hstays.asleep c hparked)

end State

end Htll
