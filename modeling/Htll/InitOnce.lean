import Htll.TableEffect

/-!
# Initialisation happens once

The first thread that finds 0 in `init_spinlock` runs the body of `interpose_init`, all others
wait while it is 1 or return at 2. The record beside the state counts how often the parts of the
body were run.
-/

namespace Htll

open Transition

/-- The parts of the body that lie ahead. -/
inductive BodyPart where
  /-- The table is being cleared. -/
  | clear
  /-- The number of the thread is next. -/
  | threadId
  /-- The loading of the real functions is next. -/
  | load
  /-- The store of 2 to `init_spinlock` is next. -/
  | done
  deriving DecidableEq

/-- Where a thread is in the body. -/
def TablePoint.bodyPart : TablePoint → Option BodyPart
  | .initClear .. => some .clear
  | .initThreadId _ => some .threadId
  | .initLoad _ => some .load
  | .initDone _ => some .done
  | _ => none

/-- The thread is in `interpose_init`, or about to decide in `pthread_rwlock_init` whether to call
it. -/
def TablePoint.initialises : TablePoint → Bool
  | .initCheck _ | .initCas _ | .initSpin _ | .initClear .. | .initThreadId _ | .initLoad _
  | .initDone _ => true
  | _ => false

/-- How often the body was entered and its parts were completed. -/
structure InitRecord where
  entered : ℕ := 0
  cleared : ℕ := 0
  numbered : ℕ := 0
  loaded : ℕ := 0
  deriving DecidableEq

/-- The record when the body has been run up to a part. -/
def BodyPart.record : BodyPart → InitRecord
  | .clear => ⟨1, 0, 0, 0⟩
  | .threadId => ⟨1, 1, 0, 0⟩
  | .load => ⟨1, 1, 1, 0⟩
  | .done => ⟨1, 1, 1, 1⟩

/-- The record when the body has been run once. -/
def InitRecord.once : InitRecord := ⟨1, 1, 1, 1⟩

namespace TableState

variable {T : Type*} [DecidableEq T] {s s' : TableState T} {t : T} {a : Addr} {o v : LockObject}

/-- Count what an action does of the body. -/
def noteInit (s : TableState T) (x : TableAction T) (r : InitRecord) : InitRecord :=
  match x with
  | .access t =>
    match s.point t with
    | .initCas _ => if s.initSpinlock = 0 then { r with entered := r.entered + 1 } else r
    | .initClear .. => { r with cleared := r.cleared + 1 }
    | .initThreadId _ =>
      if s.lastThreadId ≥ maxThreads then r else { r with numbered := r.numbered + 1 }
    | .initLoad _ => { r with loaded := r.loaded + 1 }
    | _ => r
  | .call .. | .clear .. => r

/-! ## What an action does to the initialisation -/

/-- An action of one thread leaves the others where they are. -/
theorem Effect.others (h : Effect t s s') : ∀ u, u ≠ t → s'.point u = s.point u := by
  intro u hu
  cases h with
  | aside haside => exact haside.point u hu
  | put a v w hpoint => rw [hpoint, Function.update_of_ne hu]
  | claim a v w i _ _ hs | take a o p _ _ hs | clear table q _ _ _ hs =>
    rw [hs, goto_point, Function.update_of_ne hu]
  | release a o p _ hs => rw [hs, goto_point, Function.update_of_ne hu, note_point]
  | store a v w i _ hs =>
    rw [hs]
    exact (aside_stored _ t a v w).point u hu

/-- The action has nothing to do with the initialisation. -/
structure Quiet (t : T) (s s' : TableState T) : Prop where
  spinlock : s'.initSpinlock = s.initSpinlock
  loaded : s'.loaded = s.loaded
  outside : (s'.point t).initialises = false

/-- A thread goes to a point outside the initialisation, after a change of other fields. -/
theorem Quiet.goto {s₁ : TableState T} {q : TablePoint}
    (hspinlock : s₁.initSpinlock = s.initSpinlock) (hloaded : s₁.loaded = s.loaded)
    (hq : q.initialises = false) : Quiet t s (s₁.goto t q) where
  spinlock := hspinlock
  loaded := hloaded
  outside := by rwa [goto_point, Function.update_self]

/-- `ht_lock_get` returns an object. -/
theorem Quiet.located {s₁ : TableState T} (hspinlock : s₁.initSpinlock = s.initSpinlock)
    (hloaded : s₁.loaded = s.loaded) (p : Purpose) : Quiet t s (s₁.located t a o p) := by
  unfold TableState.located
  exact .goto hspinlock hloaded (by cases p <;> rfl)

/-- `hash_get` returns an object. -/
theorem Quiet.found (p : Purpose) : Quiet t s (s.found t a o p) := by
  unfold TableState.found
  split
  · exact .goto rfl rfl rfl
  · refine .located ?_ ?_ p <;> rfl

/-- `hash_get` returns `NULL`. -/
theorem Quiet.missing (p : Purpose) : Quiet t s (s.missing t a p) := by
  unfold TableState.missing
  exact .goto rfl rfl (by cases p <;> rfl)

/-- `hash_put` returns 0. -/
theorem Quiet.stored {s₁ : TableState T} (hspinlock : s₁.initSpinlock = s.initSpinlock)
    (hloaded : s₁.loaded = s.loaded) (w : Creation) : Quiet t s (s₁.stored t a v w) := by
  cases w with
  | hashPut | init => exact .goto hspinlock hloaded rfl
  | use p =>
    refine .located ?_ ?_ p
    · exact hspinlock
    · exact hloaded

/-- `hash_put` goes on or fails. -/
theorem Quiet.tryNext (hp : (s.point t).initialises = false) (w : Creation)
    (i : Fin bucketLength) : Quiet t s (s.tryNext t a v w i) := by
  unfold TableState.tryNext
  split
  · exact .goto rfl rfl rfl
  · cases w with
    | hashPut => exact .goto rfl rfl rfl
    | init | use => exact ⟨rfl, rfl, hp⟩

/-- The operation on a lock object. -/
theorem Quiet.operate {p : Purpose} (h : s.operate t a o p = some s') : Quiet t s s' := by
  cases p with
  | hashGet | htLockGet | unlock =>
    cases h
    exact .goto rfl rfl rfl
  | lock =>
    obtain ⟨-, heq⟩ := Option.ite_none_right_eq_some.mp h
    cases heq
    exact .goto rfl rfl rfl
  | trylock =>
    simp only [TableState.operate] at h
    split at h <;> cases h <;> exact .goto rfl rfl rfl

/-- `interpose_init` returns. -/
theorem Quiet.initialised {s₁ : TableState T} (hspinlock : s₁.initSpinlock = s.initSpinlock)
    (hloaded : s₁.loaded = s.loaded) (rwlock : Option Addr) :
    Quiet t s (s₁.initialised t rwlock) := by
  cases rwlock <;> exact .goto hspinlock hloaded rfl

/-- An access outside the initialisation. -/
theorem Quiet.access (hp : (s.point t).initialises = false) (hs : s.access t = some s') :
    Quiet t s s' := by
  cases hpoint : s.point t with
  | outside =>
    simp only [TableState.access, hpoint] at hs
    cases hs
  | get a p i =>
    simp only [TableState.access, hpoint, Option.some.injEq] at hs
    subst hs
    split
    · exact .goto rfl rfl rfl
    · split
      · exact .goto rfl rfl rfl
      · exact .missing p
  | value a p i =>
    simp only [TableState.access, hpoint, Option.some.injEq] at hs
    subst hs
    split
    · exact ⟨rfl, rfl, hp⟩
    · exact .goto rfl rfl rfl
  | result a p i =>
    simp only [TableState.access, hpoint] at hs
    split at hs <;> cases hs
    · exact .missing p
    · exact .found p
  | create a w =>
    simp only [TableState.access, hpoint, Option.some.injEq] at hs
    subst hs
    exact .goto rfl rfl rfl
  | put a v w i | cas a v w i =>
    simp only [TableState.access, hpoint, Option.some.injEq] at hs
    subst hs
    split
    · exact .goto rfl rfl rfl
    · exact .tryNext hp w i
  | store a v w i =>
    simp only [TableState.access, hpoint, Option.some.injEq] at hs
    subst hs
    refine .stored ?_ ?_ w <;> rfl
  | operate a o p =>
    simp only [TableState.access, hpoint] at hs
    exact .operate hs
  | _ =>
    rw [hpoint] at hp
    cases hp

/-- What an action does to the state and the record of the initialisation. -/
inductive InitEffect (t : T) (p p' : TableState T × InitRecord) : Prop
  /-- Nothing is done; a thread that leaves the initialisation did not find 1 in `init_spinlock`,
  and 0 only where it spins. -/
  | aside (hspinlock : p'.1.initSpinlock = p.1.initSpinlock) (hloaded : p'.1.loaded = p.1.loaded)
      (hbody : (p'.1.point t).bodyPart = (p.1.point t).bodyPart)
      (hspin : ∀ r, p'.1.point t = .initSpin r → p.1.point t = .initSpin r ∨ p.1.initSpinlock = 1)
      (hleave : (p.1.point t).initialises = true → (p'.1.point t).initialises = false →
        p.1.initSpinlock ≠ 1 ∧ (p.1.initSpinlock = 0 → ∃ r, p.1.point t = .initSpin r))
      (hrecord : p'.2 = p.2)
  /-- The compare-and-swap succeeds. -/
  | enter (hbefore : (p.1.point t).bodyPart = none) (hfree : p.1.initSpinlock = 0)
      (hspinlock : p'.1.initSpinlock = 1) (hbody : (p'.1.point t).bodyPart = some .clear)
      (hrecord : p'.2 = { p.2 with entered := p.2.entered + 1 })
  /-- A part of the body is completed. -/
  | advance (b b' : BodyPart) (hbefore : (p.1.point t).bodyPart = some b)
      (hbody : (p'.1.point t).bodyPart = some b')
      (hspinlock : p'.1.initSpinlock = p.1.initSpinlock) (hloaded : b' = .done → p'.1.loaded = true)
      (hrecord : p.2 = b.record → p'.2 = b'.record)
  /-- The body is over. -/
  | finish (hbefore : (p.1.point t).bodyPart = some .done) (hspinlock : p'.1.initSpinlock = 2)
      (hloaded : p'.1.loaded = p.1.loaded) (hafter : (p'.1.point t).initialises = false)
      (hrecord : p'.2 = p.2)

/-- A point outside the initialisation is no part of the body and no spinning. -/
theorem initialises_false {q : TablePoint} (h : q.initialises = false) :
    q.bodyPart = none ∧ ∀ r, q ≠ .initSpin r := by
  cases q <;> simp_all [TablePoint.initialises, TablePoint.bodyPart]

omit [DecidableEq T] in
/-- An action that has nothing to do with the initialisation, of a thread that is not in the body
and may leave. -/
theorem Quiet.initEffect {r : InitRecord} (h : Quiet t s s') (hbody : (s.point t).bodyPart = none)
    (hleave : (s.point t).initialises = true →
      s.initSpinlock ≠ 1 ∧ (s.initSpinlock = 0 → ∃ r, s.point t = .initSpin r)) :
    InitEffect t (s, r) (s', r) := by
  obtain ⟨hbody', hspin⟩ := initialises_false h.outside
  exact .aside h.spinlock h.loaded (hbody'.trans hbody.symm) (fun r hr => absurd hr (hspin r))
    (fun hinit _ => hleave hinit) rfl

/-- A thread stays in the initialisation, outside the body. -/
theorem InitEffect.goto {q : TablePoint} {r : InitRecord} (hbody : (s.point t).bodyPart = none)
    (hq : q.bodyPart = none) (hspin : ∀ r, q = .initSpin r → s.initSpinlock = 1)
    (hstay : (s.point t).initialises = true → q.initialises = true) :
    InitEffect t (s, r) (s.goto t q, r) := by
  refine .aside rfl rfl ?_ ?_ ?_ rfl
  · simpa [hbody] using hq
  · intro r hr
    exact Or.inr (hspin r (by simpa using hr))
  · intro hinit hleft
    rw [goto_point, Function.update_self, hstay hinit] at hleft
    cases hleft

/-- The next access of a thread. -/
theorem access_initEffect {r : InitRecord} (hs : s.access t = some s') :
    InitEffect t (s, r) (s', s.noteInit (.access t) r) := by
  cases hp : s.point t with
  | initCheck a =>
    simp only [access, hp, Option.some.injEq] at hs
    subst hs
    have hbody : (s.point t).bodyPart = none := by rw [hp]; rfl
    simp only [noteInit, hp]
    split
    · exact .goto hbody rfl (by simp) fun _ => rfl
    · rename_i hdone
      refine Quiet.initEffect (.goto rfl rfl rfl) hbody fun _ => ?_
      rw [not_not.mp hdone]
      simp
  | initCas rwlock =>
    simp only [access, hp, Option.some.injEq] at hs
    subst hs
    have hbody : (s.point t).bodyPart = none := by rw [hp]; rfl
    simp only [noteInit, hp]
    split
    · rename_i hfree
      exact .enter hbody hfree rfl (by simp [TablePoint.bodyPart]) rfl
    · split
      · rename_i hone
        exact .goto hbody rfl (fun _ _ => hone) fun _ => rfl
      · rename_i hzero hone
        exact Quiet.initEffect (.initialised rfl rfl rwlock) hbody fun _ =>
          ⟨hone, fun h => absurd h hzero⟩
  | initSpin rwlock =>
    simp only [access, hp, Option.some.injEq] at hs
    subst hs
    have hbody : (s.point t).bodyPart = none := by rw [hp]; rfl
    simp only [noteInit, hp]
    split
    · refine .aside rfl rfl rfl (fun _ => Or.inl) (fun hinit hleft => ?_) rfl
      rw [hinit] at hleft
      cases hleft
    · rename_i hone
      exact Quiet.initEffect (.initialised rfl rfl rwlock) hbody fun _ =>
        ⟨hone, fun _ => ⟨rwlock, hp⟩⟩
  | initClear rwlock cleared =>
    simp only [access, hp, Option.some.injEq] at hs
    subst hs
    simp only [noteInit, hp]
    refine .advance .clear .threadId (by rw [hp]; rfl) (by simp [TablePoint.bodyPart]) rfl
      (by simp) ?_
    rintro rfl
    rfl
  | initThreadId rwlock =>
    simp only [access, hp, Option.some.injEq] at hs
    subst hs
    simp only [noteInit, hp]
    split
    · refine .aside rfl rfl rfl (fun _ => Or.inl) (fun hinit hleft => ?_) rfl
      rw [hinit] at hleft
      cases hleft
    · refine .advance .threadId .load (by rw [hp]; rfl) (by simp [TablePoint.bodyPart]) rfl
        (by simp) ?_
      rintro rfl
      rfl
  | initLoad rwlock =>
    simp only [access, hp, Option.some.injEq] at hs
    subst hs
    simp only [noteInit, hp]
    refine .advance .load .done (by rw [hp]; rfl) (by simp [TablePoint.bodyPart]) rfl
      (fun _ => rfl) ?_
    rintro rfl
    rfl
  | initDone rwlock =>
    simp only [access, hp, Option.some.injEq] at hs
    subst hs
    simp only [noteInit, hp]
    have hquiet : Quiet t { s with initSpinlock := 2 }
        ({ s with initSpinlock := 2 }.initialised t rwlock) := .initialised rfl rfl rwlock
    exact .finish (by rw [hp]; rfl) hquiet.spinlock hquiet.loaded hquiet.outside rfl
  | _ =>
    have hout : (s.point t).initialises = false := by rw [hp]; rfl
    have hquiet := Quiet.access hout hs
    simp only [noteInit, hp]
    refine hquiet.initEffect (initialises_false hout).1 fun hinit => ?_
    rw [hout] at hinit
    cases hinit

/-- The beginning of a call. -/
theorem begin_initEffect {r : InitRecord} (hpoint : s.point t = .outside) {c : TableCall}
    (hs : s.begin t c = some s') : InitEffect t (s, r) (s', r) := by
  have hbody : (s.point t).bodyPart = none := by rw [hpoint]; rfl
  have hleave : (s.point t).initialises = true →
      s.initSpinlock ≠ 1 ∧ (s.initSpinlock = 0 → ∃ r, s.point t = .initSpin r) := by
    simp [hpoint, TablePoint.initialises]
  cases c with
  | hashGet | htLockGet | lock | trylock | unlock | init =>
    cases hs
    exact Quiet.initEffect ⟨rfl, rfl, by simp [TablePoint.initialises]⟩ hbody hleave
  | destroy a =>
    cases hs
    exact Quiet.initEffect ⟨rfl, rfl, by simp [hpoint, TablePoint.initialises]⟩ hbody hleave
  | rwlockInit | interposeInit =>
    cases hs
    exact .aside rfl rfl (by simp [hpoint, TablePoint.bodyPart]) (by simp)
      (by simp [hpoint, TablePoint.initialises]) rfl
  | hashPut a v =>
    obtain ⟨-, heq⟩ := Option.ite_none_right_eq_some.mp hs
    cases heq
    exact Quiet.initEffect ⟨rfl, rfl, by simp [TablePoint.initialises]⟩ hbody hleave

/-- Every cleared slot. -/
theorem clear_initEffect {r : InitRecord} {b : Fin bucketSize} {i : Fin bucketLength}
    (hs : s.clear t b i = some s') : InitEffect t (s, r) (s', r) := by
  unfold TableState.clear at hs
  split at hs
  · rename_i rwlock cleared hp
    obtain ⟨-, heq⟩ := Option.ite_none_left_eq_some.mp hs
    cases heq
    exact .aside rfl rfl (by simp [hp, TablePoint.bodyPart]) (by simp)
      (by simp [TablePoint.initialises]) rfl
  · cases hs

/-- Every action is one of a thread that leaves the others where they are. -/
theorem recorded_initEffect {p p' : TableState T × InitRecord} {x : TableAction T}
    (h : recording step noteInit p x = some p') :
    ∃ t, (∀ u, u ≠ t → p'.1.point u = p.1.point u) ∧ InitEffect t p p' := by
  obtain ⟨hstep, hnote⟩ := recording_eq_some.mp h
  obtain ⟨s', r'⟩ := p'
  cases hnote
  obtain ⟨-, hs⟩ := Option.ite_none_right_eq_some.mp hstep
  cases x with
  | call t c =>
    obtain ⟨hpoint, hs⟩ := Option.ite_none_right_eq_some.mp hs
    exact ⟨t, (begin_effect hpoint hs).others, begin_initEffect hpoint hs⟩
  | access t => exact ⟨t, (access_effect hs).others, access_initEffect hs⟩
  | clear t b i => exact ⟨t, (clear_effect hs).others, clear_initEffect hs⟩

/-! ## Runs -/

/-- The three stages of the initialisation. -/
inductive InitStage (p : TableState T × InitRecord) : Prop
  /-- Nobody has begun. -/
  | before (hspinlock : p.1.initSpinlock = 0) (hrecord : p.2 = {})
      (hbody : ∀ t, (p.1.point t).bodyPart = none) (hspin : ∀ t r, p.1.point t ≠ .initSpin r)
  /-- One thread is in the body. -/
  | during (t : T) (b : BodyPart) (hspinlock : p.1.initSpinlock = 1) (hrecord : p.2 = b.record)
      (hbody : (p.1.point t).bodyPart = some b)
      (hothers : ∀ u, u ≠ t → (p.1.point u).bodyPart = none)
      (hloaded : b = .done → p.1.loaded = true)
  /-- The body is over. -/
  | after (hspinlock : p.1.initSpinlock = 2) (hrecord : p.2 = .once)
      (hbody : ∀ t, (p.1.point t).bodyPart = none) (hloaded : p.1.loaded = true)

omit [DecidableEq T] in
/-- Nothing has begun in the initial state. -/
theorem initStage_initial : InitStage ((initial, {}) : TableState T × InitRecord) :=
  .before rfl rfl (fun _ => rfl) (fun _ _ => TablePoint.noConfusion)

section Stages

variable {p p' : TableState T × InitRecord}

omit [DecidableEq T] in
/-- Who is in the body is the only one there, and has come as far as the record says. -/
theorem InitStage.of_bodyPart (h : InitStage p) {b : BodyPart}
    (hbody : (p.1.point t).bodyPart = some b) :
    p.1.initSpinlock = 1 ∧ p.2 = b.record ∧ (∀ u, u ≠ t → (p.1.point u).bodyPart = none) ∧
      (b = .done → p.1.loaded = true) := by
  cases h with
  | before _ _ hnone | after _ _ hnone =>
    rw [hnone t] at hbody
    cases hbody
  | during w b₀ hone hpart hw hrest hdone =>
    obtain rfl : w = t := by
      by_contra hne
      rw [hrest t (Ne.symm hne)] at hbody
      cases hbody
    obtain rfl : b₀ = b := Option.some.inj (hw.symm.trans hbody)
    exact ⟨hone, hpart, hrest, hdone⟩

omit [DecidableEq T] in
/-- An action outside the initialisation keeps the stage. -/
theorem InitStage.aside (h : InitStage p) (hothers : ∀ u, u ≠ t → p'.1.point u = p.1.point u)
    (hspinlock : p'.1.initSpinlock = p.1.initSpinlock) (hloaded : p'.1.loaded = p.1.loaded)
    (hbody : (p'.1.point t).bodyPart = (p.1.point t).bodyPart)
    (hspin : ∀ r, p'.1.point t = .initSpin r →
      p.1.point t = .initSpin r ∨ p.1.initSpinlock = 1)
    (hrecord : p'.2 = p.2) : InitStage p' := by
  have hparts : ∀ u, (p'.1.point u).bodyPart = (p.1.point u).bodyPart := by
    intro u
    by_cases hu : u = t
    · rw [hu, hbody]
    · rw [hothers u hu]
  cases h with
  | before hzero hnew hnone hnospin =>
    refine .before (hspinlock.trans hzero) (hrecord.trans hnew)
      (fun u => (hparts u).trans (hnone u)) fun u r hu => ?_
    by_cases hut : u = t
    · subst hut
      rcases hspin r hu with hspinning | hone
      · exact hnospin u r hspinning
      · rw [hzero] at hone
        cases hone
    · exact hnospin u r ((hothers u hut).symm.trans hu)
  | during w b hone hpart hw hrest hdone =>
    exact .during w b (hspinlock.trans hone) (hrecord.trans hpart) ((hparts w).trans hw)
      (fun u hu => (hparts u).trans (hrest u hu)) fun hb => hloaded.trans (hdone hb)
  | after htwo honce hnone hdone =>
    exact .after (hspinlock.trans htwo) (hrecord.trans honce)
      (fun u => (hparts u).trans (hnone u)) (hloaded.trans hdone)

/-- Every action keeps the stage or begins the next. -/
theorem InitStage.effect (h : InitStage p) (hothers : ∀ u, u ≠ t → p'.1.point u = p.1.point u)
    (heffect : InitEffect t p p') : InitStage p' := by
  cases heffect with
  | aside hspinlock hloaded hbody hspin _ hrecord =>
    exact h.aside hothers hspinlock hloaded hbody hspin hrecord
  | enter hbefore hfree hspinlock hbody hrecord =>
    cases h with
    | before _ hnew hnone _ =>
      refine .during t .clear hspinlock ?_ hbody (fun u hu => ?_) (fun hb => by cases hb)
      · rw [hrecord, hnew]
        rfl
      · rw [hothers u hu, hnone u]
    | during _ _ hone | after hone =>
      rw [hfree] at hone
      cases hone
  | advance b b' hbefore hbody hspinlock hloaded hrecord =>
    obtain ⟨hone, hpart, hrest, -⟩ := h.of_bodyPart hbefore
    exact .during t b' (hspinlock.trans hone) (hrecord hpart) hbody
      (fun u hu => by rw [hothers u hu, hrest u hu]) hloaded
  | finish hbefore hspinlock hloaded hafter hrecord =>
    obtain ⟨-, hpart, hrest, hdone⟩ := h.of_bodyPart hbefore
    refine .after hspinlock (hrecord.trans hpart) (fun u => ?_) (hloaded.trans (hdone rfl))
    by_cases hu : u = t
    · rw [hu, (initialises_false hafter).1]
    · rw [hothers u hu, hrest u hu]

/-- In every run the initialisation is in one of its stages. -/
theorem initStage_of_path (hpath : Path (recording step noteInit) anyStep (initial, {}) p) :
    InitStage p :=
  Path.invariant InitStage (fun _ _ _ _ hx h => by
    obtain ⟨t, hothers, heffect⟩ := recorded_initEffect hx
    exact h.effect hothers heffect) hpath initStage_initial

/-- A thread leaves the initialisation only when it is over. -/
theorem InitStage.left (h : InitStage p) (hothers : ∀ u, u ≠ t → p'.1.point u = p.1.point u)
    (heffect : InitEffect t p p') {u : T} (hin : (p.1.point u).initialises = true)
    (hout : (p'.1.point u).initialises = false) : p'.1.initSpinlock = 2 := by
  obtain rfl : u = t := by
    by_contra hne
    rw [hothers u hne, hin] at hout
    cases hout
  cases heffect with
  | aside hspinlock _ _ _ hleave _ =>
    obtain ⟨hone, hzero⟩ := hleave hin hout
    cases h with
    | before hfree _ _ hnospin =>
      obtain ⟨r, hr⟩ := hzero hfree
      exact absurd hr (hnospin u r)
    | during _ _ hbusy => exact absurd hbusy hone
    | after htwo => exact hspinlock.trans htwo
  | enter _ _ _ hbody | advance _ _ _ hbody =>
    rw [(initialises_false hout).1] at hbody
    cases hbody
  | finish _ hspinlock => exact hspinlock

omit [DecidableEq T] in
/-- `init_spinlock` moves one stage at a time. -/
theorem InitStage.moves (h : InitStage p) (heffect : InitEffect t p p') :
    p'.1.initSpinlock = p.1.initSpinlock ∨
      (p.1.initSpinlock = 0 ∧ p'.1.initSpinlock = 1) ∨
      (p.1.initSpinlock = 1 ∧ p'.1.initSpinlock = 2) := by
  cases heffect with
  | aside hspinlock | advance _ _ _ _ hspinlock => exact Or.inl hspinlock
  | enter _ hfree hspinlock => exact Or.inr (Or.inl ⟨hfree, hspinlock⟩)
  | finish hbefore hspinlock =>
    cases h with
    | before _ _ hnone | after _ _ hnone =>
      rw [hnone t] at hbefore
      cases hbefore
    | during _ _ hone => exact Or.inr (Or.inr ⟨hone, hspinlock⟩)

/-- In every run, with every thread that enters `interpose_init` or comes to it from
`pthread_rwlock_init`: `init_spinlock` moves from 0 to 1 to 2 only; while it is 1, exactly one
thread is in the body, which has been entered once and run up to where that thread is; and a
thread leaves only when it is 2, when the body has been run once and the functions are loaded. -/
theorem initialised_once {x : TableAction T}
    (hpath : Path (recording step noteInit) anyStep (initial, {}) p)
    (hx : recording step noteInit p x = some p') :
    (p'.1.initSpinlock = p.1.initSpinlock ∨
      (p.1.initSpinlock = 0 ∧ p'.1.initSpinlock = 1) ∨
      (p.1.initSpinlock = 1 ∧ p'.1.initSpinlock = 2)) ∧
    ((p'.1.initSpinlock = 0 ∧ p'.2 = {}) ∨
      (p'.1.initSpinlock = 1 ∧ ∃ t b, (p'.1.point t).bodyPart = some b ∧ p'.2 = b.record ∧
        ∀ u, u ≠ t → (p'.1.point u).bodyPart = none) ∨
      (p'.1.initSpinlock = 2 ∧ p'.2 = .once ∧ p'.1.loaded = true ∧
        ∀ t, (p'.1.point t).bodyPart = none)) ∧
    ∀ t, (p.1.point t).initialises = true → (p'.1.point t).initialises = false →
      p'.1.initSpinlock = 2 ∧ p'.2 = .once ∧ p'.1.loaded = true := by
  have hbefore := initStage_of_path hpath
  obtain ⟨t, hothers, heffect⟩ := recorded_initEffect hx
  have hstage := hbefore.effect hothers heffect
  refine ⟨hbefore.moves heffect, ?_, fun u hin hout => ?_⟩
  · cases hstage with
    | before hzero hnew => exact Or.inl ⟨hzero, hnew⟩
    | during w b hone hpart hw hrest => exact Or.inr (Or.inl ⟨hone, w, b, hw, hpart, hrest⟩)
    | after htwo honce hnone hdone => exact Or.inr (Or.inr ⟨htwo, honce, hdone, hnone⟩)
  · have htwo := hbefore.left hothers heffect hin hout
    cases hstage with
    | before hzero | during _ _ hzero =>
      rw [htwo] at hzero
      cases hzero
    | after _ honce _ hdone => exact ⟨htwo, honce, hdone⟩

end Stages

/-- Two threads initialise at the same time, the second from `pthread_rwlock_init`. -/
def racingInits : List (TableAction Bool) :=
  [.call true .interposeInit, .call false (.rwlockInit reusedMutex), .access false, .access true,
    .access false, .access true, .access false, .access true, .access true, .access true]

/-- The second of two racing threads goes on after the first has done the initialisation. -/
theorem initialised_once_race : ∃ p p' : TableState Bool × InitRecord,
    p.1.point false = .initSpin (some reusedMutex) ∧
    (p'.1.point false).initialises = false ∧
    p'.1.initSpinlock = 2 ∧ p'.2 = .once ∧ p'.1.loaded = true := by
  obtain ⟨p, hpath, hspin, hnext⟩ := exists_path_of_execute
    (recording (step (T := Bool)) noteInit) anyStep racingInits (initial, {})
    (fun p => p.1.point false = .initSpin (some reusedMutex) ∧
      ((recording step noteInit p (.access false)).any fun p' =>
        !(p'.1.point false).initialises) = true) (by decide +kernel)
  obtain ⟨p', hx, hout⟩ := (Option.any_eq_true _ _).mp hnext
  have hout : (p'.1.point false).initialises = false := by simpa using hout
  obtain ⟨-, -, hleft⟩ := initialised_once hpath hx
  exact ⟨p, p', hspin, hout, hleft false (by rw [hspin]; rfl) hout⟩

end TableState

end Htll
