import Htll.CondWait
import Mathlib.Data.Fintype.Basic

/-!
# No lost signal

`upmutex_cond1_signal` advances the sequence number and then wakes one thread;
`upmutex_cond1_broadcast` reads the bound mutex, advances and requeues. Whoever waited when the
call began either parked before the advance, and is then in the queue that the wake-up or the
requeue looks at, or has been overtaken by the advance and will not park. The early return of
a broadcast is never taken over a waiter, because a waiter has bound the condition variable.
-/

namespace Htll

open ParkingLock Transition

namespace State

variable {T M C : Type*} [DecidableEq T] [DecidableEq M] [DecidableEq C] [Fintype T]
  {s s' s₀ s₁ s₂ : State T M C} {t u w : T} {c : C} {n : ℕ} {visited : List (State T M C)}

/-- From its release of the mutex until it leaves the queue of `seq` a thread waits on the
condition variable. -/
def Waiting (s : State T M C) (c : C) (t : T) : Prop :=
  (s.point t).released c = true ∨ s.asleep t = some (.seq c)

/-- A broadcast moved the thread to the word of a mutex before its `FUTEX_WAIT` ended. -/
def Requeued (s : State T M C) (c : C) (t : T) : Prop :=
  ∃ m abstime, s.point t = afterWait c m abstime ∧ s.asleep t = some (.word m)

/-- In no continuation does the thread park on the sequence number during the given call. -/
def NeverParks (s : State T M C) (c : C) (w : T) (n : ℕ) : Prop :=
  ∀ s', Path step NoWrap s s' → s'.calls w = n → s'.asleep w ≠ some (.seq c)

/-- A whole call of a thread, from the state before it begins to the state in which it has
returned, and the states during the call. -/
def CompleteCall (u : T) (call : Call M C) (s₁ s₂ : State T M C) (visited : List (State T M C)) :
    Prop :=
  ∃ s s' input, s₁.step (.call u call) = some s ∧ Run step NoWrap s visited s' ∧
    s'.calls u = s.calls u ∧ NoWrap s' (.access u input) ∧
    s'.step (.access u input) = some s₂ ∧ ∃ code, s₂.point u = .outside (some (call, code))

/-! ## Stages of the waiters -/

omit [DecidableEq T] [Fintype T] in
/-- A waiting thread is in a wait. -/
theorem Waiting.inWait (hcoh : s.Coherent) (h : Waiting s c t) : InWait s c t (s.calls t) := by
  refine Or.inr ⟨rfl, ?_⟩
  rcases h with hreleased | hparked
  · exact Point.inWait_of_released hreleased
  · obtain ⟨m, abstime, hp⟩ := hcoh.sleeping t c hparked
    rw [hp]
    exact inWait_afterWait c m abstime

omit [DecidableEq T] [Fintype T] in
/-- A waiting thread has bound the condition variable. -/
theorem Waiting.bound (hcoh : s.Coherent) (h : Waiting s c t) : ∃ m, (s.cond c).m = some m := by
  rcases h with hreleased | hparked
  · obtain ⟨m, hm⟩ := Point.mutex_of_released hreleased
    exact ⟨m, hcoh.binding t c m
      (Point.binding_of_inWait (Point.inWait_of_released hreleased) hm)⟩
  · obtain ⟨m, abstime, hp⟩ := hcoh.sleeping t c hparked
    exact ⟨m, hcoh.binding t c m (by rw [hp]; cases abstime <;> rfl)⟩

omit [DecidableEq T] [DecidableEq M] [Fintype T] in
/-- A thread past its comparison and not parked on the sequence number is spent. -/
theorem spent_of_afterWait {m : M} {abstime : Option Timespec}
    (hp : s.point w = afterWait c m abstime) (hparked : s.asleep w ≠ some (.seq c)) :
    Spent s c w (s.calls w) where
  inWait := Or.inr ⟨rfl, by rw [hp]; exact inWait_afterWait c m abstime⟩
  stale := fun _ seq hread => by simp [hp] at hread
  unparked := fun _ => hparked

/-- A condition variable stays bound. -/
theorem bound_step (hcoh : s.Coherent) {a : Action T M C} (h : s.step a = some s') {m : M}
    (hm : (s.cond c).m = some m) : (s'.cond c).m = some m := by
  rcases step_cases h with ⟨t, call, last, -, -, -, -, rfl⟩ | ⟨t, input, -, -, h⟩ |
    ⟨t, -, rfl⟩ | ⟨tls, rfl, -⟩
  · exact hm
  · exact (frame_access hcoh h).bound c m hm
  · exact hm
  · exact hm

/-- The advance of the sequence number overtakes every wait under way. -/
theorem overtaken_of_bump (hcoh : s.Coherent) (hticketed : s.Ticketed) (hwait : InWait s c w n)
    {a : Action T M C} {q : Point M C} (h : s.step a = some s') (hs' : s' = (s.bump c).goto u q)
    (hu : (s.point u).inWait c = false) : Overtaken s' c w n := by
  refine ⟨hwait.step hcoh h, fun hcalls' seq hread => ?_⟩
  obtain ⟨-, hin⟩ := hwait.before hcoh h hcalls'
  have hne : w ≠ u := by
    rintro rfl
    rw [hu] at hin
    cases hin
  have hread' : (s.point w).seqRead = some (c, seq) := by simpa [hs', hne] using hread
  have hle := (hticketed.read w c seq hread').2
  have hbumps : s'.bumps c = s.bumps c + 1 := by simp [hs']
  have hticket : s'.ticket w = s.ticket w := by rw [hs']; rfl
  omega

/-- Coherence and tickets together, along every run. -/
theorem ticketed_of_path {guard : State T M C → Action T M C → Prop} (hs : s.Initial)
    (hpath : Path step guard s s') : s'.Coherent ∧ s'.Ticketed := by
  refine Path.invariant (fun s => s.Coherent ∧ s.Ticketed)
    (fun _ _ _ _ h ⟨hcoh, hticketed⟩ => ⟨hcoh.step h, hticketed.step hcoh h⟩) hpath
    ⟨hs.coherent, ?_⟩
  obtain ⟨tls, -, rfl⟩ := hs
  exact ⟨fun _ => rfl, fun _ _ _ hread => by cases hread⟩

/-- A spent wait never parks on the sequence number again. -/
theorem Spent.neverParks (hcoh : s.Coherent) (hticketed : s.Ticketed) (hspent : Spent s c w n) :
    NeverParks s c w n := by
  intro s' hpath
  have hall : (s'.Coherent ∧ s'.Ticketed) ∧ Spent s' c w n :=
    Path.invariant (fun s => (s.Coherent ∧ s.Ticketed) ∧ Spent s c w n)
      (fun _ _ _ hguard h ⟨⟨hcoh, hticketed⟩, hspent⟩ =>
        ⟨⟨hcoh.step h, hticketed.step hcoh h⟩, hspent.step hcoh hticketed hguard h⟩)
      hpath ⟨⟨hcoh, hticketed⟩, hspent⟩
  exact hall.2.unparked

omit [DecidableEq T] [Fintype T] in
/-- A spent wait that is not over is awake or asleep on the word of the bound mutex. -/
theorem Spent.awake_or_requeued (hcoh : s.Coherent) (hspent : Spent s c w (s.calls w)) :
    s.asleep w = none ∨ ∃ m, (s.cond c).m = some m ∧ s.asleep w = some (.word m) := by
  have hin : (s.point w).inWait c = true :=
    (hspent.inWait.resolve_left (lt_irrefl _)).2
  cases hasleep : s.asleep w with
  | none => exact Or.inl rfl
  | some a =>
    cases a with
    | word m =>
      have hbinding := Point.binding_of_inWait hin (hcoh.parked w m hasleep)
      exact Or.inr ⟨m, hcoh.binding w c m hbinding, rfl⟩
    | seq c' =>
      obtain ⟨m, abstime, hp⟩ := hcoh.sleeping w c' hasleep
      rw [hp] at hin
      have hc : c' = c := by cases abstime <;> simpa [afterWait, Point.inWait] using hin
      exact absurd (hc ▸ hasleep) (hspent.unparked rfl)

/-! ## The stages of a signal and of a broadcast -/

/-- How far a signal has come, seen from a thread that waited when it began. -/
inductive SignalStage (u : T) (c : C) (t : T) (n : ℕ) (visited : List (State T M C))
    (s : State T M C) : Prop where
  | adding (hp : s.point u = .signalAdd c) (hwait : InWait s c t n)
  | waking (hp : s.point u = .signalWake c) (hover : Overtaken s c t n)
  | woken (before : State T M C) (w : T) (hbefore : before ∈ visited)
      (hwaiting : Waiting before c w) (hspent : Spent s c w (before.calls w))

/-- How far a broadcast has come, seen from a thread that waited when it began. -/
inductive BroadcastStage (u : T) (c : C) (t : T) (n : ℕ) (s : State T M C) : Prop where
  | loading {m : M} (hp : s.point u = .broadcastLoad c) (hwait : InWait s c t n)
      (hm : (s.cond c).m = some m)
  | adding {m : M} (hp : s.point u = .broadcastAdd c m) (hwait : InWait s c t n)
  | requeueing {m : M} (hp : s.point u = .broadcastRequeue c m) (hover : Overtaken s c t n)
  | requeued (hspent : Spent s c t n)

/-- A thread inside a call makes its next access or stays where it is. -/
theorem step_inside (hcoh : s.Coherent) {a : Action T M C} (h : s.step a = some s') {w : T}
    (hin : ∀ last, s.point w ≠ .outside last) :
    (∃ input, s.asleep w = none ∧ s.access w input = some s') ∨ Stays w s s' := by
  rcases step_thread hcoh h w with ⟨_, last, -, hout, -⟩ | ⟨input, -, hawake, haccess, -⟩ | hstays
  · exact absurd hout (hin last)
  · exact Or.inl ⟨input, hawake, haccess⟩
  · exact Or.inr hstays

/-- Every action keeps a signal on its way or brings it further. -/
theorem SignalStage.step {first : State T M C} (hcoh : s.Coherent) (hticketed : s.Ticketed)
    (hfirst : first ∈ visited) (hwaiting : Waiting first c t) (hn : n = first.calls t)
    (hvisited : s ∈ visited) {a : Action T M C} (hguard : NoWrap s a) (h : s.step a = some s')
    (hstage : SignalStage u c t n visited s) : SignalStage u c t n visited s' := by
  cases hstage with
  | adding hp hwait =>
    rcases step_inside hcoh h (w := u) (by simp [hp]) with ⟨input, -, haccess⟩ | hstays
    · simp only [access, hp, Option.some.injEq] at haccess
      refine .waking (by simp [← haccess]) ?_
      exact overtaken_of_bump hcoh hticketed hwait h haccess.symm (by rw [hp]; rfl)
    · exact .adding (hstays.point.trans hp) (hwait.step hcoh h)
  | waking hp hover =>
    rcases step_inside hcoh h (w := u) (by simp [hp]) with ⟨input, hawake, haccess⟩ | hstays
    · simp only [access, hp, Option.map_eq_some_iff] at haccess
      obtain ⟨s₁, hwake, rfl⟩ := haccess
      rcases wake_cases hwake with ⟨w, hparked, rfl⟩ | ⟨hnone, rfl⟩
      · -- the woken thread was parked, whether or not it is the one that waited at the start
        have hne : w ≠ u := by
          rintro rfl
          simp [hawake] at hparked
        obtain ⟨m, abstime, hpoint⟩ := hcoh.sleeping w c hparked
        refine .woken s w hvisited (Or.inr hparked) ?_
        refine spent_of_afterWait (?_ : _ = afterWait c m abstime) (by simp)
        simpa [hne] using hpoint
      · have hover' := hover.step hcoh h
        refine .woken first t hfirst hwaiting (hn ▸ ⟨hover', fun _ => ?_⟩)
        exact hnone t
    · exact .waking (hstays.point.trans hp) (hover.step hcoh h)
  | woken before w hbefore hwaiting' hspent =>
    exact .woken before w hbefore hwaiting' (hspent.step hcoh hticketed hguard h)

/-- Every action keeps a broadcast on its way or brings it further. -/
theorem BroadcastStage.step (hcoh : s.Coherent) (hticketed : s.Ticketed) {a : Action T M C}
    (hguard : NoWrap s a) (h : s.step a = some s') (hstage : BroadcastStage u c t n s) :
    BroadcastStage u c t n s' := by
  cases hstage with
  | loading hp hwait hm =>
    rcases step_inside hcoh h (w := u) (by simp [hp]) with ⟨input, -, haccess⟩ | hstays
    · simp only [access, hp, hm, Option.some.injEq] at haccess
      exact .adding (by rw [← haccess]; exact Function.update_self ..) (hwait.step hcoh h)
    · exact .loading (hstays.point.trans hp) (hwait.step hcoh h) (bound_step hcoh h hm)
  | adding hp hwait =>
    rcases step_inside hcoh h (w := u) (by simp [hp]) with ⟨input, -, haccess⟩ | hstays
    · simp only [access, hp, Option.some.injEq] at haccess
      refine .requeueing (by rw [← haccess]; exact Function.update_self ..) ?_
      exact overtaken_of_bump hcoh hticketed hwait h haccess.symm (by rw [hp]; rfl)
    · exact .adding (hstays.point.trans hp) (hwait.step hcoh h)
  | requeueing hp hover =>
    rcases step_inside hcoh h (w := u) (by simp [hp]) with ⟨input, -, haccess⟩ | hstays
    · have hover' := hover.step hcoh h
      simp only [access, hp, Option.map_eq_some_iff] at haccess
      obtain ⟨s₁, hrequeue, rfl⟩ := haccess
      refine .requeued ⟨hover', fun _ => ?_⟩
      rcases requeue_cases hrequeue with ⟨w, -, rfl⟩ | ⟨hnone, rfl⟩
      · -- nobody is left in the queue of the sequence number
        by_cases ht : t = w
        · simp [ht]
        · by_cases hseq : s.asleep t = some (.seq c)
          · simp [ht, hseq]
          · simp [ht, hseq]
      · exact hnone t
    · exact .requeueing (hstays.point.trans hp) (hover.step hcoh h)
  | requeued hspent => exact .requeued (hspent.step hcoh hticketed hguard h)

omit [DecidableEq T] [DecidableEq M] [Fintype T] in
/-- More states during the call leave a signal as far as it has come. -/
theorem SignalStage.mono {visited' : List (State T M C)} (hsub : visited ⊆ visited')
    (hstage : SignalStage u c t n visited s) : SignalStage u c t n visited' s := by
  cases hstage with
  | adding hp hwait => exact .adding hp hwait
  | waking hp hover => exact .waking hp hover
  | woken before w hbefore hwaiting hspent => exact .woken before w (hsub hbefore) hwaiting hspent

/-- A signal during which a thread waited at the start is at one of its stages throughout. -/
theorem signalStage_of_run {first : State T M C} (hrun : Run step NoWrap first visited s')
    (hcoh : first.Coherent) (hticketed : first.Ticketed) (hwaiting : Waiting first c t)
    (hstart : SignalStage u c t (first.calls t) [first] first) :
    (s'.Coherent ∧ s'.Ticketed) ∧ SignalStage u c t (first.calls t) visited s' := by
  induction hrun with
  | start => exact ⟨⟨hcoh, hticketed⟩, hstart⟩
  | extend hrun a hguard ha ih =>
    obtain ⟨⟨hcoh', hticketed'⟩, hstage⟩ := ih
    have hnext := hstage.step hcoh' hticketed' hrun.mem_start hwaiting rfl hrun.mem_end hguard ha
    exact ⟨⟨hcoh'.step ha, hticketed'.step hcoh' ha⟩, hnext.mono (List.subset_cons_self _ _)⟩

/-- Likewise a broadcast. -/
theorem broadcastStage_of_run {first : State T M C} (hrun : Run step NoWrap first visited s')
    (hcoh : first.Coherent) (hticketed : first.Ticketed)
    (hstart : BroadcastStage u c t n first) :
    (s'.Coherent ∧ s'.Ticketed) ∧ BroadcastStage u c t n s' :=
  Path.invariant (fun s => (s.Coherent ∧ s.Ticketed) ∧ BroadcastStage u c t n s)
    (fun _ _ _ hguard h ⟨⟨hcoh, hticketed⟩, hstage⟩ =>
      ⟨⟨hcoh.step h, hticketed.step hcoh h⟩, hstage.step hcoh hticketed hguard h⟩)
    hrun.path ⟨⟨hcoh, hticketed⟩, hstart⟩

/-- The beginning of a call leaves every waiting thread waiting. -/
theorem Waiting.of_call {call : Call M C} (hwaiting : Waiting s₁ c t)
    (h : s₁.step (.call u call) = some s) :
    Waiting s c t ∧ s.calls t = s₁.calls t ∧ s.point u = call.entry ∧ s.cond = s₁.cond := by
  simp only [step] at h
  split at h
  · rename_i last hp
    obtain ⟨⟨hasleep, -⟩, heq⟩ := Option.ite_none_right_eq_some.mp h
    have hne : t ≠ u := by
      rintro rfl
      rcases hwaiting with hreleased | hparked
      · rw [hp] at hreleased
        cases hreleased
      · simp [hasleep] at hparked
    obtain rfl := Option.some.inj heq
    exact ⟨by simpa [Waiting, hne] using hwaiting, by simp [hne], by simp, rfl⟩
  · cases h

/-- When a signal ends whose start found a waiter, some thread that waited during the call never
parks on the sequence number again in that wait. -/
theorem signal_wakes (hcoh : s₁.Coherent) (hticketed : s₁.Ticketed)
    (hcall : CompleteCall u (.signal c) s₁ s₂ visited) (hwaiting : Waiting s₁ c t) :
    ∃ s ∈ visited, ∃ w, Waiting s c w ∧ NeverParks s₂ c w (s.calls w) := by
  obtain ⟨s, s', input, hbegin, hrun, -, hguard, hend, code, hout⟩ := hcall
  obtain ⟨hwaiting', -, hentry, -⟩ := hwaiting.of_call hbegin
  have hcoh' := hcoh.step hbegin
  have hticketed' := hticketed.step hcoh hbegin
  obtain ⟨⟨hcoh'', hticketed''⟩, hstage⟩ := signalStage_of_run hrun hcoh' hticketed' hwaiting'
    (.adding hentry (hwaiting'.inWait hcoh'))
  have hlast := hstage.step hcoh'' hticketed'' hrun.mem_start hwaiting' rfl hrun.mem_end hguard hend
  cases hlast with
  | adding hp | waking hp =>
    rw [hout] at hp
    cases hp
  | woken before w hbefore hwaiting'' hspent =>
    exact ⟨before, hbefore, w, hwaiting'',
      hspent.neverParks (hcoh''.step hend) (hticketed''.step hcoh'' hend)⟩

/-- When a broadcast ends, every thread that waited at its start never parks on the sequence
number again in that wait, and is awake or on the word of the bound mutex. -/
theorem broadcast_wakes_all (hcoh : s₁.Coherent) (hticketed : s₁.Ticketed)
    (hcall : CompleteCall u (.broadcast c) s₁ s₂ visited) (hwaiting : Waiting s₁ c t) :
    NeverParks s₂ c t (s₁.calls t) ∧ (s₂.calls t = s₁.calls t → s₂.asleep t = none ∨
      ∃ m, (s₂.cond c).m = some m ∧ s₂.asleep t = some (.word m)) := by
  obtain ⟨s, s', input, hbegin, hrun, -, hguard, hend, code, hout⟩ := hcall
  obtain ⟨hwaiting', hcalls, hentry, hcond⟩ := hwaiting.of_call hbegin
  obtain ⟨m, hm⟩ := hwaiting.bound hcoh
  have hcoh' := hcoh.step hbegin
  obtain ⟨⟨hcoh'', hticketed''⟩, hstage⟩ := broadcastStage_of_run hrun hcoh'
    (hticketed.step hcoh hbegin)
    (.loading hentry (hcalls ▸ hwaiting'.inWait hcoh') (by rw [hcond]; exact hm))
  have hlast := hstage.step hcoh'' hticketed'' hguard hend
  have hcohEnd := hcoh''.step hend
  cases hlast with
  | loading hp | adding hp | requeueing hp =>
    rw [hout] at hp
    cases hp
  | requeued hspent =>
    exact ⟨hspent.neverParks hcohEnd (hticketed''.step hcoh'' hend),
      fun hsame => (hsame ▸ hspent : Spent s₂ c t (s₂.calls t)).awake_or_requeued hcohEnd⟩

/-- Whether a call completes when its thread makes the given accesses and then a last one. -/
def completes (s₁ : State T M C) (u : T) (call : Call M C) (actions : List (Action T M C))
    (input : Input T) : Bool :=
  (s₁.step (.call u call)).any fun s => (execute step NoWrap s actions).any fun s' =>
    decide (s'.calls u = s.calls u ∧ NoWrap s' (.access u input)) &&
      (s'.step (.access u input)).any fun s₂ => s₂.point u = .outside (some (call, 0))

/-- A computed call is a complete call. -/
theorem completeCall_of_completes {call : Call M C} {actions : List (Action T M C)}
    {input : Input T} (h : s₁.completes u call actions input = true) :
    ∃ s₂ visited, CompleteCall u call s₁ s₂ visited := by
  obtain ⟨s, hbegin, h⟩ := (Option.any_eq_true _ _).mp h
  obtain ⟨s', hrun, h⟩ := (Option.any_eq_true _ _).mp h
  rw [Bool.and_eq_true, decide_eq_true_eq] at h
  obtain ⟨s₂, hend, hout⟩ := (Option.any_eq_true _ _).mp h.2
  obtain ⟨visited, hvisited⟩ := (execute_path _ _ _ _ _ hrun).exists_run
  exact ⟨s₂, visited, s, s', input, hbegin, hvisited, h.1.1, h.1.2, hend, 0,
    of_decide_eq_true hout⟩

/-- No signal is lost while comparisons come in time: a signal that starts with a waiter ends
with a thread that waited during the call and never parks on the sequence number again in that
wait; a broadcast ends with all threads that waited at its start in that condition, awake or
requeued on the mutex; and a thread that was requeued never parks there again in its wait. -/
theorem no_lost_signal (hs : s₀.Initial) (hbefore : Path step NoWrap s₀ s₁) (u : T) (c : C) :
    (CompleteCall u (.signal c) s₁ s₂ visited → (∃ t, Waiting s₁ c t) →
      ∃ s ∈ visited, ∃ w, Waiting s c w ∧ NeverParks s₂ c w (s.calls w)) ∧
    (CompleteCall u (.broadcast c) s₁ s₂ visited → ∀ t, Waiting s₁ c t →
      NeverParks s₂ c t (s₁.calls t) ∧ (s₂.calls t = s₁.calls t → s₂.asleep t = none ∨
        ∃ m, (s₂.cond c).m = some m ∧ s₂.asleep t = some (.word m))) ∧
    ∀ t, Requeued s₁ c t → NeverParks s₁ c t (s₁.calls t) := by
  obtain ⟨hcoh, hticketed⟩ := ticketed_of_path hs hbefore
  refine ⟨?_, ?_, ?_⟩
  · rintro hcall ⟨t, hwaiting⟩
    exact signal_wakes hcoh hticketed hcall hwaiting
  · intro hcall t hwaiting
    exact broadcast_wakes_all hcoh hticketed hcall hwaiting
  · rintro t ⟨m, abstime, hp, hasleep⟩
    have hparked : s₁.asleep t ≠ some (.seq c) := by simp [hasleep]
    exact (spent_of_afterWait hp hparked).neverParks hcoh hticketed

/-- Thread 0 is parked on the sequence number when thread 1 signals, or broadcasts. -/
theorem no_lost_signal_parked : ∃ (s₁ s₂ s₂' : State (Fin 2) Unit Unit)
    (visited visited' : List (State (Fin 2) Unit Unit)),
    Waiting s₁ () 0 ∧ CompleteCall 1 (.signal ()) s₁ s₂ visited ∧
      (∃ s ∈ visited, ∃ w, Waiting s () w ∧ NeverParks s₂ () w (s.calls w)) ∧
      CompleteCall 1 (.broadcast ()) s₁ s₂' visited' ∧ NeverParks s₂' () 0 (s₁.calls 0) := by
  obtain ⟨s₁, hpath, hparked, hsignal, hbroadcast⟩ := exists_path_of_execute
    (step (T := Fin 2) (M := Unit) (C := Unit)) NoWrap
    (.call 0 (.lock ()) :: Action.turns 0 2 ++ .call 0 (.wait () ()) :: Action.turns 0 8)
    (initial fun _ => htllThreadStart Tls.zero)
    (fun s => s.asleep 0 = some (.seq ()) ∧
      s.completes 1 (.signal ()) (Action.turns 1 1) ⟨0, ⟨0, 0⟩, some 0⟩ = true ∧
      s.completes 1 (.broadcast ()) (Action.turns 1 2) ⟨0, ⟨0, 0⟩, some 0⟩ = true)
    (by decide +kernel)
  obtain ⟨s₂, visited, hcall⟩ := completeCall_of_completes hsignal
  obtain ⟨s₂', visited', hcall'⟩ := completeCall_of_completes hbroadcast
  have hs : (initial fun _ => htllThreadStart Tls.zero : State (Fin 2) Unit Unit).Initial :=
    initial_started
  have hwaiting : Waiting s₁ () 0 := Or.inr hparked
  have hwoken := (no_lost_signal hs hpath 1 ()).2.1 hcall' 0 hwaiting
  exact ⟨s₁, s₂, s₂', visited, visited', hwaiting, hcall,
    (no_lost_signal hs hpath 1 ()).1 hcall ⟨0, hwaiting⟩, hcall', hwoken.1⟩

end State

end Htll
