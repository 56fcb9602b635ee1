import Htll.InitOnce
import Htll.InterposedMutex
import Htll.NoSegments

/-!
# Nobody waits for nothing

A thread waits in one of four places: for the value of a slot that another thread has claimed, for
the end of an initialisation, asleep on a lock word, or asleep on a condition variable. In a
program without segments the first three are answered: some thread is about to store the value,
some thread is in the body of the initialisation, and the mutex has an owner or a thread that is
awake is inside an operation on it.
-/

namespace Htll

open ParkingLock Transition
open TableState (staticMutex)

namespace TableState

variable {T : Type*} [DecidableEq T] {s s' : TableState T} {t : T}

/-! ## Claimed slots -/

/-- A claimed slot without a value has a thread that is about to store it. -/
def Awaited (s : TableState T) : Prop :=
  ∀ b i, (s.table b i).key ≠ 0 → (s.table b i).value = none →
    ∃ u, (s.point u).claims = some (b, i)

omit [DecidableEq T] in
/-- A claim of a slot outlives the move of a thread that has claimed nothing. -/
theorem Awaited.other (h : s.Awaited) (hothers : ∀ u, u ≠ t → s'.point u = s.point u)
    (hclaims : (s.point t).claims = none) {b : Fin bucketSize} {i : Fin bucketLength}
    (hkey : (s.table b i).key ≠ 0) (hvalue : (s.table b i).value = none) :
    ∃ u, (s'.point u).claims = some (b, i) := by
  obtain ⟨u, hu⟩ := h b i hkey hvalue
  have hne : u ≠ t := by
    rintro rfl
    rw [hclaims] at hu
    cases hu
  exact ⟨u, by rw [hothers u hne, hu]⟩

/-- An action of a thread that has claimed nothing. -/
theorem Awaited.of_effect (h : s.Awaited) (heffect : Effect t s s')
    (hclaims : (s.point t).claims = none) : s'.Awaited := by
  have hothers := heffect.others
  have hsame : s'.table = s.table → s'.Awaited := by
    intro htable b i hkey hvalue
    rw [htable] at hkey hvalue
    exact h.other hothers hclaims hkey hvalue
  cases heffect with
  | aside haside => exact hsame haside.table
  | put a v w hpoint htable => exact hsame htable
  | take a o p hp hfree hs | release a o p hp hs => exact hsame (by rw [hs]; rfl)
  | store a v w i hp =>
    rw [hp] at hclaims
    cases hclaims
  | claim a v w i hp hkey hs =>
    intro b j hused hvalue
    have htable : s'.table b j =
        s.table.set a.bucket i { s.table a.bucket i with key := a.1 } b j := by rw [hs]; rfl
    rcases s.table.set_cases a.bucket i { s.table a.bucket i with key := a.1 } b j with
      ⟨rfl, rfl, -⟩ | ⟨-, heq⟩
    · exact ⟨t, by rw [hs, goto_point, Function.update_self]; rfl⟩
    · rw [htable, heq] at hused hvalue
      exact h.other hothers hclaims hused hvalue
  | clear table q htable _ _ hs =>
    intro b i hused hvalue
    have hslot : s'.table b i = table b i := by rw [hs]; rfl
    rw [hslot] at hused hvalue
    rcases htable b i with heq | heq
    · rw [heq] at hused hvalue
      exact h.other hothers hclaims hused hvalue
    · rw [heq] at hused
      exact absurd rfl hused

/-- The store of the value ends the claim of its slot. -/
theorem Awaited.store (h : s.Awaited) {a : Addr} {v : LockObject} {w : Creation}
    {i : Fin bucketLength} (hp : s.point t = .store a v w i) (hs : s.access t = some s') :
    s'.Awaited := by
  have hothers := (access_effect hs).others
  have htable : s'.table =
      s.table.set a.bucket i { s.table a.bucket i with value := some v } := by
    simp only [access, hp, Option.some.injEq] at hs
    rw [← hs, (aside_stored _ t a v w).table]
  intro b j hused hvalue
  rw [htable] at hused hvalue
  rcases s.table.set_cases a.bucket i { s.table a.bucket i with value := some v } b j with
    ⟨rfl, rfl, heq⟩ | ⟨hne, heq⟩
  · rw [heq] at hvalue
    cases hvalue
  · rw [heq] at hused hvalue
    obtain ⟨u, hu⟩ := h b j hused hvalue
    have hut : u ≠ t := by
      rintro rfl
      rw [hp, TablePoint.claims, Option.some.injEq, Prod.mk.injEq] at hu
      exact hne.elim (absurd hu.1.symm) (absurd hu.2.symm)
    exact ⟨u, by rw [hothers u hut, hu]⟩

/-- Every action keeps the claims. -/
theorem Awaited.step (h : s.Awaited) {x : TableAction T} (hs : s.step x = some s') :
    s'.Awaited := by
  obtain ⟨-, hs⟩ := Option.ite_none_right_eq_some.mp hs
  cases x with
  | call t c =>
    obtain ⟨hpoint, hs⟩ := Option.ite_none_right_eq_some.mp hs
    exact h.of_effect (begin_effect hpoint hs) (by rw [hpoint]; rfl)
  | access t =>
    cases hclaims : (s.point t).claims with
    | none => exact h.of_effect (access_effect hs) hclaims
    | some c =>
      cases hp : s.point t with
      | store a v w i => exact h.store hp hs
      | _ =>
        rw [hp] at hclaims
        cases hclaims
  | clear t b i =>
    obtain ⟨rwlock, cleared, -, hp, -⟩ := clear_point hs
    exact h.of_effect (clear_effect hs) (by rw [hp]; rfl)

/-- In every run claimed slots are filled by their claimers. -/
theorem awaited_of_path {guard : TableState T → TableAction T → Prop}
    (hpath : Path step guard initial s) : s.Awaited :=
  Path.invariant Awaited (fun _ _ _ _ hs h => h.step hs) hpath
    fun _ _ hkey => absurd rfl hkey

omit [DecidableEq T] in
/-- A thread that spins on the value of a slot waits for another one that is about to store it. -/
theorem Awaited.storer (h : s.Awaited) {a : Addr} (hsound : Sound s a) {p : Purpose}
    {i : Fin bucketLength} (hp : s.point t = .value a p i)
    (hvalue : (s.table a.bucket i).value = none) :
    ∃ u v w, u ≠ t ∧ s.point u = .store a v w i := by
  have hthread := hsound.entry.threads t
  rw [hp] at hthread
  have hkey : (s.table a.bucket i).key = a.1 := by
    by_contra hne
    exact (hthread rfl).1 (LockTable.entry_eq_none_iff.mpr hne)
  obtain ⟨u, hu⟩ := h a.bucket i (hkey ▸ a.2) hvalue
  cases hpu : s.point u with
  | store a' v w j =>
    rw [hpu, TablePoint.claims, Option.some.injEq, Prod.mk.injEq] at hu
    obtain ⟨hbucket, rfl⟩ := hu
    have hslot := LockTable.entry_eq_some (hsound.slots.claimed u a' v w j hpu)
    rw [hbucket] at hslot
    obtain rfl : a' = a := by
      rw [hslot] at hkey
      exact Subtype.ext hkey
    refine ⟨u, v, w, ?_, hpu⟩
    rintro rfl
    rw [hp] at hpu
    cases hpu
  | _ =>
    rw [hpu] at hu
    cases hu

/-- Somebody is in the body of the initialisation while `init_spinlock` is 1. -/
theorem exists_bodyPart (hpath : Path step anyStep (initial : TableState T) s)
    (hspinlock : s.initSpinlock = 1) : ∃ u b, (s.point u).bodyPart = some b := by
  obtain ⟨r, hrecorded⟩ := hpath.exists_recording noteInit {}
  cases initStage_of_path hrecorded with
  | before hzero | after hzero =>
    rw [hspinlock] at hzero
    cases hzero
  | during u b _ _ hbody => exact ⟨u, b, hbody⟩

end TableState

namespace State

variable {T M C : Type*} [DecidableEq T] [DecidableEq M] [DecidableEq C] [Fintype T]
  {s s' : State T M C} {t : T} {m : M}

omit [DecidableEq T] [DecidableEq C] [Fintype T] in
/-- An unlocker that has freed the lock sleeps nowhere. -/
theorem Coherent.awake_of_role (hcoh : s.Coherent) (hreturn : SleepersReturn (s.view m)) {r : Role}
    (hr : r = .releaser ∨ r = .waker) (hrole : (s.point t).role m = r) : s.asleep t = none := by
  obtain ⟨after, p, hp, -⟩ := Point.unlock_of_role hr hrole
  cases hasleep : s.asleep t with
  | none => rfl
  | some w =>
    cases w with
    | word m' =>
      have hmutex := hcoh.parked t m' hasleep
      rw [hp] at hmutex
      obtain rfl : m = m' := Option.some.inj hmutex
      have hsleeper : r = .taker ∨ r = .racer :=
        hrole ▸ hreturn t (place_eq_onWord.mpr hasleep)
      rcases hr with rfl | rfl <;> simp at hsleeper
    | seq c =>
      obtain ⟨m', abstime, hpoint⟩ := hcoh.sleeping t c hasleep
      rw [hp] at hpoint
      cases abstime <;> cases hpoint

omit [DecidableEq T] [DecidableEq C] [Fintype T] in
/-- A thread that sleeps on the word of a mutex in a plain state waits for an owner, or for a
thread that is awake inside an operation on the mutex. -/
theorem HandOff.answered (hhand : HandOff s m) (hcoh : s.Coherent) (hplain : s.Plain)
    (hasleep : s.asleep t = some (.word m)) :
    (∃ u, s.holds u m = true) ∨ ∃ u, s.asleep u = none ∧ (s.point u).mutex = some m := by
  have hplace := place_eq_onWord.mpr hasleep
  have hsleeper : Sleeper (s.view m) t :=
    ⟨hplace, (hhand.sleepers t hplace).resolve_right (hplain.role_ne_racer t m)⟩
  cases hhand.carried t hsleeper with
  | marked hlocked => exact Or.inl (hhand.exclusive.held_of_locked hlocked)
  | releasing _ u hu =>
    have hrole : (s.point u).role m = .releaser := hu
    exact Or.inr ⟨u, hcoh.awake_of_role hhand.sleepers (Or.inl rfl) hrole,
      Point.mutex_of_role (by simp [hrole])⟩
  | waking u hu =>
    have hrole : (s.point u).role m = .waker := hu
    exact Or.inr ⟨u, hcoh.awake_of_role hhand.sleepers (Or.inr rfl) hrole,
      Point.mutex_of_role (by simp [hrole])⟩
  | bound u hbound =>
    refine Or.inr ⟨u, place_eq_awake.mp hbound.1, Point.mutex_of_role ?_⟩
    have hrole : (s.point u).role m = .taker ∨ (s.point u).role m = .racer := hbound.2
    rcases hrole with hrole | hrole <;> simp [hrole]

end State

namespace Interposed

variable {T C : Type*} [DecidableEq T] [DecidableEq C] [Fintype T] {s : Interposed T C} {t : T}
  {a : Addr}

/-- The program opens no segment. -/
def NoSegments (s : Interposed T C) : InterposedAction T C → Prop
  | .lock x => s.locks.NoSegments x
  | _ => True

instance (s : Interposed T C) : DecidablePred s.NoSegments
  | .lock x => inferInstanceAs (Decidable (s.locks.NoSegments x))
  | .manage .. | .call .. | .table _ | .clear .. => .isTrue trivial

/-! ## The runs of the table and of the locks -/

/-- The table of a process makes a run of its own. -/
theorem table_of_path {guard : Interposed T C → InterposedAction T C → Prop}
    (hpath : Path step guard initial s) :
    Path TableState.step anyStep TableState.initial s.table := by
  refine Path.invariant (fun s => Path TableState.step anyStep TableState.initial s.table) ?_ hpath
    Relation.ReflTransGen.refl
  intro s x s' _ hs hbefore
  obtain ⟨hrunning, hacts⟩ := acts_of_step hs
  have hstep : ∀ y : TableAction T, ∀ table, s.table.step y = some table →
      Path TableState.step anyStep TableState.initial table := fun y table hy =>
    hbefore.extend y trivial hy
  cases hacts with
  | @manage t c table hmanages hidle htable =>
    exact hstep (.call t c) table (by simp [TableState.step, hrunning, hidle.1, htable])
  | @lookUp t c a table hidle hheld hmutex htable =>
    exact hstep (.call t (.htLockGet a)) table
      (by simp only [TableState.step, if_pos hrunning, if_pos hidle.1, htable])
  | @table t table hreturns htable | @enter t c o table locks hreturns hcall htable hlocks =>
    exact hstep (.access t) table (by simp [TableState.step, hrunning, htable])
  | @clear t b i table htable =>
    exact hstep (.clear t b i) table (by simp [TableState.step, hrunning, htable])
  | notify | lock => exact hbefore

/-- So do the locks, without segments if the process opens none. -/
theorem locks_of_path (hpath : Path step NoSegments initial s) :
    Path State.step State.NoSegments (State.initial fun _ => htllThreadStart Tls.zero) s.locks := by
  refine Path.invariant (fun s : Interposed T C => Path State.step State.NoSegments
    (State.initial fun _ => htllThreadStart Tls.zero) s.locks) ?_ hpath Relation.ReflTransGen.refl
  intro s x s' hguard hs hbefore
  cases (acts_of_step hs).2 with
  | @notify t c locks hidle hmutex hlocks =>
    exact hbefore.extend (.call t (c.map fun _ => 0)) trivial hlocks
  | @enter t c o table locks hreturns hcall htable hlocks =>
    exact hbefore.extend (.call t (c.map fun _ => o)) trivial hlocks
  | @lock y locks hpermits hlocks => exact hbefore.extend y hguard hlocks
  | manage | lookUp | table | clear => exact hbefore

/-! ## Every wait is answered -/

/-- A call on a mutex by a thread that is awake inside it. -/
def Working (s : Interposed T C) (u : T) (a : Addr) : Prop :=
  s.locks.asleep u = none ∧ (s.locks.point u).isOutside = false ∧
    ∃ c, s.call u = some c ∧ c.mutex = some a

omit [DecidableEq T] [DecidableEq C] [Fintype T] in
/-- Who works on an object is in a call on the mutex that it is stored under. -/
theorem Linked.working_of_mutex (h : s.Linked) {o : LockObject} (ho : s.table.table.Holds a o)
    (hasleep : s.locks.asleep t = none) (hmutex : (s.locks.point t).mutex = some o) :
    s.Working t a := by
  obtain ⟨c, b, hcall, hc, hb⟩ := h.stored_of_mutex hmutex
  obtain ⟨home, hhomed⟩ := h.homed
  obtain rfl : b = a := hhomed.addr_unique hb ho
  refine ⟨hasleep, ?_, c, hcall, hc⟩
  cases houtside : (s.locks.point t).isOutside with
  | false => rfl
  | true =>
    rw [Point.mutex_of_isOutside houtside] at hmutex
    cases hmutex

/-- In a client that opens no segment every wait but that for a signal is answered. A thread that
spins on the value of a claimed slot waits for another thread that is about to store it; one that
spins on `init_spinlock` waits for another one in the body of the initialisation; and one that
sleeps on the word of a lock is in a call on a mutex that has an owner, or that another thread
is working on awake. -/
theorem waits_are_answered (hpath : Path step (fun s x => s.Proper x ∧ s.NoSegments x) initial s) :
    (∀ t a p i, s.table.point t = .value a p i → (s.table.table a.bucket i).value = none →
      ∃ u v w, u ≠ t ∧ s.table.point u = .store a v w i) ∧
    (∀ t rwlock, s.table.point t = .initSpin rwlock → s.table.initSpinlock = 1 →
      ∃ u b, u ≠ t ∧ (s.table.point u).bodyPart = some b) ∧
    (∀ t o, s.locks.asleep t = some (.word o) →
      ∃ c a, s.call t = some c ∧ c.mutex = some a ∧ s.table.table.Holds a o ∧
        ((∃ u, s.Owns u a) ∨ ∃ u, u ≠ t ∧ s.Working u a)) := by
  have h : s.Linked := linked_of_path (hpath.mono fun _ _ hboth => hboth.1)
  have htable := table_of_path hpath
  have hlocks := locks_of_path (hpath.mono fun _ _ hboth => hboth.2)
  refine ⟨fun t a p i hp hvalue => ?_, fun t rwlock hp hspinlock => ?_, fun t o hasleep => ?_⟩
  · exact (TableState.awaited_of_path htable).storer (h.sound a) hp hvalue
  · obtain ⟨u, b, hbody⟩ := TableState.exists_bodyPart htable hspinlock
    refine ⟨u, b, ?_, hbody⟩
    rintro rfl
    rw [hp] at hbody
    cases hbody
  · obtain ⟨hcoh, hplain, hhand⟩ := State.handOff_of_noSegments State.initial_started hlocks o
    obtain ⟨c, a, hcall, hc, ho⟩ := h.stored_of_mutex (hcoh.parked t o hasleep)
    refine ⟨c, a, hcall, hc, ho, ?_⟩
    rcases hhand.answered hcoh hplain hasleep with ⟨u, hu⟩ | ⟨u, hawake, hmutex⟩
    · exact Or.inl ⟨u, o, ho, hu⟩
    · refine Or.inr ⟨u, ?_, h.working_of_mutex ho hawake hmutex⟩
      rintro rfl
      rw [hasleep] at hawake
      cases hawake

/-- Thread 0 owns a mutex for which thread 1 sleeps. -/
theorem waits_are_answered_locked : ∃ s : Interposed (Fin 2) Unit,
    s.locks.asleep 1 = some (.word 0) ∧ ∃ c a, s.call 1 = some c ∧ c.mutex = some a ∧
      ((∃ u, s.Owns u a) ∨ ∃ u, u ≠ 1 ∧ s.Working u a) := by
  have hrun : ∃ s : Interposed (Fin 2) Unit,
      Path step (fun s x => s.Proper x ∧ s.NoSegments x) initial s ∧
        s.locks.asleep 1 = some (.word 0) := by
    refine exists_path_of_execute _ _ (lockedActions 0 staticMutex ++ .call 1 (.lock staticMutex) ::
      tableTurns 1 3 ++ lockTurns 1 4 ++ .lock (.late 1) :: lockTurns 1 3) _ _ ?_
    decide +kernel
  obtain ⟨s, hpath, hasleep⟩ := hrun
  obtain ⟨c, a, hcall, hc, -, hanswered⟩ := (waits_are_answered hpath).2.2 1 0 hasleep
  exact ⟨s, hasleep, c, a, hcall, hc, hanswered⟩

end Interposed

end Htll
