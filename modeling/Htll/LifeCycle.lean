import Htll.MutexCalls

/-!
# Life cycles of mutexes

`pthread_mutex_init` creates a lock object and appends it, `pthread_mutex_destroy` removes
nothing, and a lookup finds the oldest entry. So the first call that touches an address decides
for ever which lock object the address has: the object of an initialisation is the one in use if
and only if no earlier call initialised or used the address.
-/

namespace Htll

namespace Library

variable {T : Type*} {l l' l₁ : Library T} {t u : T} {a : Addr} {o : LockObject}
  {calls calls' pre mid post : List (T × MutexCall)} {op : MutexCall}

/-! ## The first call decides -/

/-- What an address has it keeps. -/
theorem Ok.hashGet_call (h : l.Ok) {c : MutexCall} (hc : (l.call t c).after = some l')
    (ho : hashGet l.table a = some o) : hashGet l'.table a = some o := by
  obtain ⟨-, -, hget⟩ := h.call hc
  rw [hget a, ho, Option.some_or]

/-- A sequence of calls leaves the library in order. -/
theorem Ok.runCalls (h : l.Ok) (hrun : l.runCalls calls = some l') : l'.Ok := by
  induction calls generalizing l with
  | nil =>
    cases hrun
    exact h
  | cons c rest ih =>
    rw [runCalls_cons] at hrun
    obtain ⟨l₁, hfirst, hrest⟩ := Option.bind_eq_some_iff.mp hrun
    exact ih (h.call hfirst).1 hrest

/-- What an address has it keeps in a sequence of calls. -/
theorem Ok.hashGet_runCalls (h : l.Ok) (hrun : l.runCalls calls = some l')
    (ho : hashGet l.table a = some o) : hashGet l'.table a = some o := by
  induction calls generalizing l with
  | nil =>
    cases hrun
    exact ho
  | cons c rest ih =>
    rw [runCalls_cons] at hrun
    obtain ⟨l₁, hfirst, hrest⟩ := Option.bind_eq_some_iff.mp hrun
    exact ih (h.call hfirst).1 hrest (h.hashGet_call hfirst ho)

/-- An address without an object gets one in a sequence of calls if and only if it is touched. -/
theorem Ok.hashGet_eq_none_iff (h : l.Ok) (hrun : l.runCalls calls = some l')
    (hnone : hashGet l.table a = none) :
    hashGet l'.table a = none ↔ ∀ c ∈ calls, c.2.touches ≠ some a := by
  induction calls generalizing l with
  | nil =>
    cases hrun
    exact iff_of_true hnone (by simp)
  | cons c rest ih =>
    rw [runCalls_cons] at hrun
    obtain ⟨l₁, hfirst, hrest⟩ := Option.bind_eq_some_iff.mp hrun
    obtain ⟨hok, hacted, hget⟩ := h.call hfirst
    have hafter := hget a
    rw [hnone, Option.none_or] at hafter
    rw [List.forall_mem_cons]
    by_cases htouches : c.2.touches = some a
    · rw [if_pos htouches] at hafter
      obtain ⟨o, ho⟩ := Option.ne_none_iff_exists'.mp (hacted (by simp [htouches]))
      rw [hok.hashGet_runCalls hrest (hafter.trans ho)]
      exact iff_of_false (by simp) fun hall => hall.1 htouches
    · rw [if_neg htouches] at hafter
      rw [ih hok hrest hafter]
      exact (and_iff_right htouches).symm

/-- An operation on an address that has an object acts on it. -/
theorem acted_of_hashGet (hop : op.operates = some a) (ho : hashGet l.table a = some o) :
    (l.call t op).acted = some o := by
  have hlocated : l.htLockGet a = some (l, o) := by rw [htLockGet, ho]
  cases op with
  | init | destroy => cases hop
  | lock | trylock | unlock =>
    cases hop
    simp only [call, pthreadMutexLock, pthreadMutexTrylock, pthreadMutexUnlock, withLock, hlocated]

/-! ## Sequences of calls -/

/-- The lock object that a call creates or acts on after other calls. -/
def actedOn (calls : List (T × MutexCall)) (t : T) (c : MutexCall) : Option LockObject :=
  (initial.runCalls calls).bind fun l => (l.call t c).acted

/-- An operation on an address in a sequence of calls comes after an initialisation of the address
and before the next one and the next destruction. -/
structure Governs (calls pre : List (T × MutexCall)) (t : T) (a : Addr)
    (mid : List (T × MutexCall)) (u : T) (op : MutexCall) (post : List (T × MutexCall)) :
    Prop where
  split : calls = pre ++ (t, .init a) :: (mid ++ (u, op) :: post)
  operates : op.operates = some a
  between : ∀ c ∈ mid, c.2 ≠ .init a ∧ c.2 ≠ .destroy a

/-- Every initialisation creates an unlocked object, on which all operations act up to the next
initialisation or destruction of the address. -/
structure LifeCycle (calls : List (T × MutexCall)) : Prop where
  unlocked : ∀ pre t a post l o, calls = pre ++ (t, .init a) :: post →
    initial.runCalls pre = some l → (l.call t (.init a)).acted = some o →
      ∀ l', (l.call t (.init a)).after = some l' → l'.owner o = none
  acts : ∀ pre t a mid u op post, Governs calls pre t a mid u op post →
    actedOn (pre ++ (t, .init a) :: mid) u op = actedOn pre t (.init a)

/-- An initialisation that an operation relies on is the first call that touches the address. -/
def FreshInits (calls : List (T × MutexCall)) : Prop :=
  ∀ pre t a mid u op post, Governs calls pre t a mid u op post →
    ∀ c ∈ pre, c.2.touches ≠ some a

/-- All calls but the last return, so that the sequence can be made. -/
def Made (calls : List (T × MutexCall)) : Prop := (initial.runCalls calls.dropLast).isSome

instance (calls : List (T × MutexCall)) : Decidable (Made calls) :=
  inferInstanceAs (Decidable (_ = true))

/-- The object of an initialisation that returns. -/
theorem Ok.created (h : l.Ok) (hc : (l.call t (.init a)).after = some l') :
    (l.call t (.init a)).acted = some l.allocated ∧ l'.owner l.allocated = none ∧ l'.Ok ∧
      hashGet l'.table a = (hashGet l.table a).or (some l.allocated) := by
  cases hcreate : l.htLockCreate a with
  | none =>
    simp only [Library.call, Library.pthreadMutexInit, hcreate] at hc
    cases hc
  | some r =>
    obtain ⟨l₁, o⟩ := r
    obtain ⟨hok, rfl, howner, hget⟩ := h.htLockCreate hcreate
    simp only [Library.call, Library.pthreadMutexInit, hcreate, Option.some.injEq] at hc ⊢
    subst hc
    have hself := hget a
    rw [if_pos rfl] at hself
    exact ⟨trivial, howner, hok, hself⟩

/-- An operation acts on the object of the initialisation before it if and only if the address had
no object before that. -/
theorem Ok.acts_iff (h : l.Ok) (hinit : (l.call t (.init a)).after = some l₁)
    (hmid : l₁.runCalls mid = some l') (hop : op.operates = some a) :
    (l'.call u op).acted = (l.call t (.init a)).acted ↔ hashGet l.table a = none := by
  obtain ⟨hcreated, -, hok, hget⟩ := h.created hinit
  cases hbefore : hashGet l.table a with
  | none =>
    rw [hbefore, Option.none_or] at hget
    rw [acted_of_hashGet hop (hok.hashGet_runCalls hmid hget), hcreated]
    exact iff_of_true rfl rfl
  | some o =>
    rw [hbefore, Option.some_or] at hget
    rw [acted_of_hashGet hop (hok.hashGet_runCalls hmid hget), hcreated]
    refine iff_of_false (fun heq => ?_) (by simp)
    exact (h.hashGet_lt hbefore).ne (Option.some.inj heq)

/-- The states around the initialisation and before the operation. -/
theorem Made.states (hmade : Made calls) (hgoverns : Governs calls pre t a mid u op post) :
    ∃ l l₁ l', initial.runCalls pre = some l ∧ (l.call t (.init a)).after = some l₁ ∧
      l₁.runCalls mid = some l' := by
  have hpart : calls.dropLast =
      pre ++ (t, .init a) :: (mid ++ ((u, op) :: post).dropLast) := by
    rw [hgoverns.split, List.dropLast_append_of_ne_nil (by simp),
      List.dropLast_cons_of_ne_nil (by simp), List.dropLast_append_of_ne_nil (by simp)]
  obtain ⟨l₂, hrun⟩ := Option.isSome_iff_exists.mp hmade
  rw [hpart, runCalls_append] at hrun
  obtain ⟨l, hpre, hrun⟩ := Option.bind_eq_some_iff.mp hrun
  rw [runCalls_cons] at hrun
  obtain ⟨l₁, hinit, hrun⟩ := Option.bind_eq_some_iff.mp hrun
  rw [runCalls_append] at hrun
  obtain ⟨l', hmid, -⟩ := Option.bind_eq_some_iff.mp hrun
  exact ⟨l, l₁, l', hpre, hinit, hmid⟩

/-- In one case: the operation acts on the new object if and only if the address is new. -/
theorem Made.acts_iff (hmade : Made calls) (hgoverns : Governs calls pre t a mid u op post) :
    actedOn (pre ++ (t, .init a) :: mid) u op = actedOn pre t (.init a) ↔
      ∀ c ∈ pre, c.2.touches ≠ some a := by
  obtain ⟨l, l₁, l', hpre, hinit, hmid⟩ := hmade.states hgoverns
  have hnone : hashGet (initial : Library T).table a = none := by
    have hmissing : SlotArray.lookup (fun y => decide (y.key = a.1))
        ((initial : Library T).table a.bucket) = none :=
      SlotArray.lookup_eq_none_iff.mpr fun _ => decide_eq_false fun heq => a.2 heq.symm
    rw [hashGet, hmissing, Option.bind_none]
  rw [← ok_initial.hashGet_eq_none_iff hpre hnone,
    ← (ok_initial.runCalls hpre).acts_iff hinit hmid hgoverns.operates, actedOn, actedOn,
    runCalls_append, hpre, Option.bind_some, runCalls_cons, hinit, Option.bind_some, hmid]
  rfl

/-- A mutex in memory that is reused is initialised a second time after its destruction. -/
def reinitialised : List (Unit × MutexCall) :=
  [((), .init reusedMutex), ((), .destroy reusedMutex), ((), .init reusedMutex),
    ((), .lock reusedMutex)]

/-- The lock acts on the object of the first initialisation. -/
theorem stale_lock_object : Made reinitialised ∧ ¬LifeCycle reinitialised := by
  refine ⟨by decide +kernel, fun h => ?_⟩
  have hacts := h.acts (reinitialised.take 2) () reusedMutex [] () (.lock reusedMutex) []
    ⟨rfl, rfl, by simp⟩
  exact absurd hacts (by decide +kernel)

/-- Operations act on the unlocked object of the last initialisation of their address in exactly
those sequences of calls in which every initialisation that an operation relies on is the first
call that touches its address. -/
theorem life_cycle_iff (calls : List (T × MutexCall)) (hmade : Made calls) :
    LifeCycle calls ↔ FreshInits calls := by
  constructor
  · intro h pre t a mid u op post hgoverns
    exact (hmade.acts_iff hgoverns).mp (h.acts pre t a mid u op post hgoverns)
  · intro h
    refine ⟨fun pre t a post l o _ hpre ho l' hinit => ?_,
      fun pre t a mid u op post hgoverns => ?_⟩
    · obtain ⟨hcreated, howner, -, -⟩ := (ok_initial.runCalls hpre).created hinit
      rw [hcreated] at ho
      cases ho
      exact howner
    · exact (hmade.acts_iff hgoverns).mpr (h pre t a mid u op post hgoverns)

/-- One life of a mutex. -/
theorem life_cycle_iff_once :
    LifeCycle (reinitialised.drop 2) ↔ FreshInits (reinitialised.drop 2) :=
  life_cycle_iff _ (by decide +kernel)

end Library

end Htll
