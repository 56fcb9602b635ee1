import Htll.TableMachine

/-!
# What one action does to the table

Most accesses move one thread and the record only. The others are the begin of `hash_put`, its
two writes, the operations that take and release a lock object, and the clearing of slots. Every
invariant of whole runs is proved from this list.
-/

namespace Htll

/-- The lock object that a thread carries. -/
def TablePoint.carries : TablePoint → Option LockObject
  | .put _ v _ _ | .cas _ v _ _ | .store _ v _ _ | .operate _ v _ => some v
  | _ => none

/-- The slot that a thread in `hash_put` is trying to claim. -/
def TablePoint.scans : TablePoint → Option (Addr × Fin bucketLength)
  | .put a _ _ i | .cas a _ _ i => some (a, i)
  | _ => none

/-- The next access is one of the operation on a lock object, or of `interpose_init` but for
`memset`. -/
def TablePoint.idles : TablePoint → Bool
  | .operate .. | .initCheck _ | .initCas _ | .initSpin _ | .initThreadId _ | .initLoad _
  | .initDone _ => true
  | _ => false

/-- A thread at this point has nothing to do with a slot or a lock object. -/
def TablePoint.free : TablePoint → Bool
  | .get .. | .value .. | .result .. | .put .. | .cas .. | .store .. | .operate .. => false
  | _ => true

namespace TableState

variable {T : Type*} {s s' s'' : TableState T} {t : T}

/-- A call for the address failed in `hash_put`. -/
def Failed (s : TableState T) (a : Addr) : Prop := ∃ v, .put a v (-1) ∈ s.log

/-- A move of one thread and of the record only. -/
structure Aside (t : T) (s s' : TableState T) : Prop where
  table : s'.table = s.table
  associated : s'.associated = s.associated
  allocated : s'.allocated = s.allocated
  owner : s'.owner = s.owner
  created : s'.created = s.created
  known : ∀ u, u ≠ t → s'.known u = s.known u
  point : ∀ u, u ≠ t → s'.point u = s.point u
  log : s.log <:+ s'.log

/-- Such moves compose. -/
theorem Aside.trans (h : Aside t s s') (h' : Aside t s' s'') : Aside t s s'' where
  table := h'.table.trans h.table
  associated := h'.associated.trans h.associated
  allocated := h'.allocated.trans h.allocated
  owner := h'.owner.trans h.owner
  created := h'.created.trans h.created
  known u hu := (h'.known u hu).trans (h.known u hu)
  point u hu := (h'.point u hu).trans (h.point u hu)
  log := h.log.trans h'.log

/-- What an action of a thread does. -/
inductive Effect [DecidableEq T] (t : T) (s s' : TableState T) : Prop
  /-- The thread carries an object only from before or from a slot, and goes on in `hash_put`
  only from an occupied slot. -/
  | aside (haside : Aside t s s')
      (hcarries : ∀ o, (s'.point t).carries = some o →
        (s.point t).carries = some o ∨ ∃ b i, (s.table b i).value = some o)
      (hscans : ∀ a i, (s'.point t).scans = some (a, i) → ∃ j,
        (s.point t).scans = some (a, j) ∧
          (j = i ∨ nextSlot j = some i ∧ (s.table a.bucket j).key ≠ 0))
      (hfailed : ∀ a, s'.Failed a → s.Failed a ∨ ∃ i,
        (s.point t).scans = some (a, i) ∧ nextSlot i = none ∧ (s.table a.bucket i).key ≠ 0)
      (hexited : s'.exited = some .tableFull →
        s.exited = some .tableFull ∨ ∃ a, s'.Failed a)
  /-- `hash_put` begins with an object that exists by then. -/
  | put (a : Addr) (v : LockObject) (w : Creation)
      (hpoint : s'.point = Function.update s.point t (.put a v w firstSlot))
      (htable : s'.table = s.table) (hassociated : s'.associated = s.associated)
      (hcreated : s'.created = Function.update s.created a.bucket (s.created a.bucket + 1))
      (hallocated : s.allocated ≤ s'.allocated) (hv : v < s'.allocated)
      (howner : ∀ o, o < s.allocated → s'.owner o = s.owner o)
      (howned : ∀ o u, s'.owner o = some u → s.owner o = some u)
      (hlog : s'.log = s.log) (hexited : s'.exited = s.exited)
  /-- The compare-and-swap on a key succeeds. -/
  | claim (a : Addr) (v : LockObject) (w : Creation) (i : Fin bucketLength)
      (hp : s.point t = .cas a v w i) (hkey : (s.table a.bucket i).key = 0)
      (hs : s' = { s with
        table := s.table.set a.bucket i { s.table a.bucket i with key := a.1 } }.goto t
          (.store a v w i))
  /-- The value is stored and `hash_put` returns. -/
  | store (a : Addr) (v : LockObject) (w : Creation) (i : Fin bucketLength)
      (hp : s.point t = .store a v w i)
      (hs : s' = { s with
        table := s.table.set a.bucket i { s.table a.bucket i with value := some v }
        associated := Function.update s.associated a (v :: s.associated a) }.stored t a v w)
  /-- A free lock object is taken. -/
  | take (a : Addr) (o : LockObject) (p : Purpose) (hp : s.point t = .operate a o p)
      (hfree : s.owner o = none)
      (hs : s' = { s with owner := Function.update s.owner o (some t) }.goto t .outside)
  /-- A lock object is unlocked. -/
  | release (a : Addr) (o : LockObject) (p : Purpose) (hp : s.point t = .operate a o p)
      (hs : s' = ({ s with owner := Function.update s.owner o none }.note (.unlocked a o)).goto t
        .outside)
  /-- Some slots are cleared. -/
  | clear (table : LockTable) (q : TablePoint)
      (htable : ∀ b i, table b i = s.table b i ∨ table b i = Slot.clear)
      (hcarries : q.carries = none) (hscans : q.scans = none)
      (hs : s' = { s with table := table }.goto t q)

variable [DecidableEq T]

/-! ## Moves aside -/

section Moves

variable (s) (t) (a : Addr) (v : LockObject)

theorem aside_goto (q : TablePoint) : Aside t s (s.goto t q) :=
  ⟨rfl, rfl, rfl, rfl, rfl, fun _ _ => rfl, fun _ hu => Function.update_of_ne hu _ _,
    List.suffix_refl _⟩

omit [DecidableEq T] in
theorem aside_note (e : TableEvent) : Aside t s (s.note e) :=
  ⟨rfl, rfl, rfl, rfl, rfl, fun _ _ => rfl, fun _ _ => rfl, List.suffix_cons _ _⟩

theorem aside_located (p : Purpose) : Aside t s (s.located t a v p) :=
  (aside_note s t _).trans (aside_goto _ t _)

theorem aside_found (p : Purpose) : Aside t s (s.found t a v p) := by
  unfold found
  split
  · exact (aside_note s t _).trans (aside_goto _ t _)
  · exact (aside_note s t _).trans (aside_located _ t a v p)

theorem aside_missing (p : Purpose) : Aside t s (s.missing t a p) :=
  (aside_note s t _).trans (aside_goto _ t _)

theorem aside_stored (w : Creation) : Aside t s (s.stored t a v w) := by
  cases w with
  | hashPut | init => exact (aside_note s t _).trans (aside_goto _ t _)
  | use p => exact (aside_note s t _).trans (aside_located _ t a v p)

theorem aside_full (w : Creation) : Aside t s (s.full t a v w) := by
  cases w with
  | hashPut => exact (aside_note s t _).trans (aside_goto _ t _)
  | init | use =>
    exact ⟨rfl, rfl, rfl, rfl, rfl, fun _ _ => rfl, fun _ _ => rfl, List.suffix_cons _ _⟩

theorem aside_lookUp (p : Purpose) : Aside t s (s.lookUp t a p) :=
  ⟨rfl, rfl, rfl, rfl, rfl, fun _ hu => Function.update_of_ne hu _ _,
    fun _ hu => Function.update_of_ne hu _ _, List.suffix_refl _⟩

end Moves

omit [DecidableEq T] in
/-- Records other than of a failed put are not about failures. -/
theorem failed_note {e : TableEvent} (he : ∀ a v, e ≠ .put a v (-1)) (a : Addr) :
    (s.note e).Failed a ↔ s.Failed a := by
  refine exists_congr fun v => ?_
  rw [note_log, List.mem_cons]
  exact or_iff_right fun heq => he a v heq.symm

/-- An object that is located is no failure. -/
theorem failed_located {a : Addr} {o : LockObject} {p : Purpose} (a' : Addr) :
    (s.located t a o p).Failed a' ↔ s.Failed a' :=
  failed_note (e := .located a o) (by simp) a'

/-- A lookup that returns is no failure. -/
theorem failed_found {a : Addr} {o : LockObject} {p : Purpose} (a' : Addr) :
    (s.found t a o p).Failed a' ↔ s.Failed a' := by
  unfold found
  have hnote : (s.note (.got a (s.known t) (some o))).Failed a' ↔ s.Failed a' :=
    failed_note (e := .got a (s.known t) (some o)) (by simp) a'
  split
  · exact hnote
  · exact (failed_located a').trans hnote

/-- A put that returns 0 is no failure. -/
theorem failed_stored {a : Addr} {v : LockObject} {w : Creation} (a' : Addr) :
    (s.stored t a v w).Failed a' ↔ s.Failed a' := by
  have hnote : (s.note (.put a v 0)).Failed a' ↔ s.Failed a' :=
    failed_note (fun _ _ heq => by cases heq) a'
  cases w with
  | hashPut | init => exact hnote
  | use p => exact (failed_located a').trans hnote

/-- A put that returns 0 does not terminate the process. -/
theorem stored_exited {a : Addr} {v : LockObject} {w : Creation} :
    (s.stored t a v w).exited = s.exited := by
  cases w <;> rfl

/-- A move aside to a point outside `hash_put`, without an object, that records no failure. -/
theorem Effect.of_aside (haside : Aside t s s') (hcarries : (s'.point t).carries = none)
    (hscans : (s'.point t).scans = none) (hfailed : ∀ a, s'.Failed a ↔ s.Failed a)
    (hexited : s'.exited = some .tableFull → s.exited = some .tableFull) : Effect t s s' := by
  refine .aside haside (fun o ho => ?_) (fun a i hi => ?_) (fun a ha => Or.inl ((hfailed a).mp ha))
    fun h => Or.inl (hexited h)
  · rw [hcarries] at ho
    cases ho
  · rw [hscans] at hi
    cases hi

/-- The same for a plain change of the program point. -/
theorem Effect.goto {q : TablePoint} (hcarries : q.carries = none) (hscans : q.scans = none) :
    Effect t s (s.goto t q) := by
  refine .of_aside (aside_goto s t q) ?_ ?_ (fun _ => Iff.rfl) id
  · simpa using hcarries
  · simpa using hscans

/-- A thread that reads a value and stays where it is. -/
theorem Effect.idle (hcarries : (s.point t).carries = none) (hscans : (s.point t).scans = none) :
    Effect t s s :=
  .of_aside ⟨rfl, rfl, rfl, rfl, rfl, fun _ _ => rfl, fun _ _ => rfl, List.suffix_refl _⟩ hcarries
    hscans (fun _ => Iff.rfl) id

/-- A step of `interpose_init` that leaves the table alone. -/
theorem Effect.init {q : TablePoint} {spinlock : BitVec 8} {thread : BitVec 32} {loaded : Bool}
    (hcarries : q.carries = none) (hscans : q.scans = none) :
    Effect t s ({ s with
      initSpinlock := spinlock, lastThreadId := thread, loaded := loaded }.goto t q) := by
  refine .of_aside ⟨rfl, rfl, rfl, rfl, rfl, fun _ _ => rfl,
    fun _ hu => Function.update_of_ne hu _ _, List.suffix_refl _⟩ ?_ ?_
    (fun _ => Iff.rfl) id
  · simpa using hcarries
  · simpa using hscans

/-- A lookup that finds nothing. -/
theorem effect_missing (a : Addr) (p : Purpose) : Effect t s (s.missing t a p) := by
  refine .of_aside (aside_missing s t a p) ?_ ?_ (failed_note (by simp)) id
  · simp only [missing, goto_point, Function.update_self]
    split <;> rfl
  · simp only [missing, goto_point, Function.update_self]
    split <;> rfl

/-- A lookup that returns the object of a slot. -/
theorem effect_found {a : Addr} {p : Purpose} {i : Fin bucketLength} {o : LockObject}
    (ho : (s.table a.bucket i).value = some o) : Effect t s (s.found t a o p) := by
  have hpoint : ((s.found t a o p).point t).carries = none ∨
      ((s.found t a o p).point t).carries = some o := by
    cases p <;> simp [found, located, TablePoint.carries]
  refine .aside (aside_found s t a o p) (fun o' ho' => ?_) (fun a' i' hi' => ?_)
    (fun a' ha' => Or.inl ((failed_found a').mp ha')) fun h => Or.inl ?_
  · rcases hpoint with hnone | hsome
    · rw [hnone] at ho'
      cases ho'
    · rw [hsome] at ho'
      exact Or.inr ⟨a.bucket, i, ho.trans ho'⟩
  · cases p <;> simp [found, located, TablePoint.scans] at hi'
  · cases p <;> exact h

/-- `hash_put` passes an occupied slot. -/
theorem effect_tryNext {a : Addr} {v : LockObject} {w : Creation} {i : Fin bucketLength}
    (hcarries : (s.point t).carries = some v) (hscans : (s.point t).scans = some (a, i))
    (hkey : (s.table a.bucket i).key ≠ 0) : Effect t s (s.tryNext t a v w i) := by
  unfold tryNext
  cases hnext : nextSlot i with
  | some j =>
    refine .aside (aside_goto s t _) (fun o ho => ?_) (fun a' i' hi' => ?_)
      (fun _ => Or.inl) Or.inl
    · simp only [goto_point, Function.update_self] at ho
      exact Or.inl (hcarries.trans ho)
    · simp only [goto_point, Function.update_self] at hi'
      cases hi'
      exact ⟨i, hscans, Or.inr ⟨hnext, hkey⟩⟩
  | none =>
    have hlog : (s.full t a v w).log = .put a v (-1) :: s.log := by cases w <;> rfl
    refine .aside (aside_full s t a v w) (fun o ho => ?_) (fun a' i' hi' => ?_)
      (fun a' ⟨v', hv'⟩ => ?_) fun _ => Or.inr ⟨a, v, by rw [hlog]; exact List.mem_cons_self⟩
    · cases w with
      | hashPut => simp [full, TablePoint.carries] at ho
      | init | use => exact Or.inl ho
    · cases w with
      | hashPut => simp [full, TablePoint.scans] at hi'
      | init | use => exact ⟨i', hi', Or.inl rfl⟩
    · rw [hlog] at hv'
      rcases List.mem_cons.mp hv' with heq | hv'
      · cases heq
        exact Or.inr ⟨i, hscans, hnext, hkey⟩
      · exact Or.inl ⟨v', hv'⟩

/-! ## Accesses outside the table -/

/-- A move of one thread that leaves the table and what is known of it alone. -/
structure Idle (t : T) (s s' : TableState T) : Prop where
  table : s'.table = s.table
  associated : s'.associated = s.associated
  known : s'.known = s.known
  point : ∀ u, u ≠ t → s'.point u = s.point u
  free : (s'.point t).free = true
  log : s'.log = s.log ∨ ∃ a o, s'.log = .unlocked a o :: s.log

/-- A thread goes to such a point after a change of other fields. -/
theorem Idle.of_goto {s₁ : TableState T} {q : TablePoint} (htable : s₁.table = s.table)
    (hassociated : s₁.associated = s.associated) (hknown : s₁.known = s.known)
    (hpoint : s₁.point = s.point) (hlog : s₁.log = s.log ∨ ∃ a o, s₁.log = .unlocked a o :: s.log)
    (hfree : q.free = true) : Idle t s (s₁.goto t q) where
  table := htable
  associated := hassociated
  known := hknown
  point u hu := by rw [goto_point, Function.update_of_ne hu, hpoint]
  free := by rwa [goto_point, Function.update_self]
  log := hlog

/-- A thread goes to such a point. -/
theorem Idle.goto {q : TablePoint} (hfree : q.free = true) : Idle t s (s.goto t q) :=
  .of_goto rfl rfl rfl rfl (Or.inl rfl) hfree

/-- `interpose_init` returns, after a change of other fields. -/
theorem Idle.initialised {s₁ : TableState T} (htable : s₁.table = s.table)
    (hassociated : s₁.associated = s.associated) (hknown : s₁.known = s.known)
    (hpoint : s₁.point = s.point) (hlog : s₁.log = s.log) (rwlock : Option Addr) :
    Idle t s (s₁.initialised t rwlock) := by
  cases rwlock <;> exact .of_goto htable hassociated hknown hpoint (Or.inl hlog) rfl

/-- The operation on a lock object. -/
theorem idle_operate {a : Addr} {o : LockObject} {p : Purpose} (hs : s.operate t a o p = some s') :
    Idle t s s' := by
  cases p with
  | hashGet | htLockGet =>
    cases hs
    exact .goto rfl
  | lock =>
    obtain ⟨-, heq⟩ := Option.ite_none_right_eq_some.mp hs
    cases heq
    exact .of_goto rfl rfl rfl rfl (Or.inl rfl) rfl
  | trylock =>
    simp only [TableState.operate] at hs
    split at hs <;> cases hs
    · exact .of_goto rfl rfl rfl rfl (Or.inl rfl) rfl
    · exact .goto rfl
  | unlock =>
    cases hs
    exact .of_goto rfl rfl rfl rfl (Or.inr ⟨a, o, rfl⟩) rfl

/-- Every access outside the table. -/
theorem idle_access (hidles : (s.point t).idles = true) (hs : s.access t = some s') :
    Idle t s s' := by
  have hstays : (s.point t).free = true → Idle t s s :=
    fun hfree => ⟨rfl, rfl, rfl, fun _ _ => rfl, hfree, Or.inl rfl⟩
  cases hp : s.point t with
  | operate a o p =>
    simp only [access, hp] at hs
    exact idle_operate hs
  | initCheck a =>
    simp only [access, hp, Option.some.injEq] at hs
    subst hs
    split <;> exact .goto rfl
  | initCas rwlock =>
    simp only [access, hp, Option.some.injEq] at hs
    subst hs
    split
    · exact .of_goto rfl rfl rfl rfl (Or.inl rfl) rfl
    · split
      · exact .goto rfl
      · exact .initialised rfl rfl rfl rfl rfl rwlock
  | initSpin rwlock =>
    simp only [access, hp, Option.some.injEq] at hs
    subst hs
    split
    · exact hstays (by rw [hp]; rfl)
    · exact .initialised rfl rfl rfl rfl rfl rwlock
  | initThreadId rwlock =>
    simp only [access, hp, Option.some.injEq] at hs
    subst hs
    split
    · exact ⟨rfl, rfl, rfl, fun _ _ => rfl, by rw [hp]; rfl, Or.inl rfl⟩
    · exact .of_goto rfl rfl rfl rfl (Or.inl rfl) rfl
  | initLoad rwlock =>
    simp only [access, hp, Option.some.injEq] at hs
    subst hs
    exact .of_goto rfl rfl rfl rfl (Or.inl rfl) rfl
  | initDone rwlock =>
    simp only [access, hp, Option.some.injEq] at hs
    subst hs
    refine Idle.initialised ?_ ?_ ?_ ?_ ?_ rwlock <;> rfl
  | _ =>
    rw [hp] at hidles
    cases hidles

/-! ## Every action has one of the effects -/

/-- The operation on a lock object. -/
theorem operate_effect {a : Addr} {o : LockObject} {p : Purpose} (hp : s.point t = .operate a o p)
    (hs : s.operate t a o p = some s') : Effect t s s' := by
  cases p with
  | hashGet | htLockGet =>
    cases hs
    exact .goto rfl rfl
  | lock =>
    obtain ⟨hfree, heq⟩ := Option.ite_none_right_eq_some.mp hs
    cases heq
    exact .take a o _ hp hfree rfl
  | trylock =>
    simp only [TableState.operate] at hs
    split at hs <;> cases hs
    · rename_i hfree
      exact .take a o _ hp hfree rfl
    · exact .goto rfl rfl
  | unlock =>
    cases hs
    exact .release a o _ hp rfl

/-- Every access. -/
theorem access_effect (hs : s.access t = some s') :
    Effect t s s' := by
  cases hp : s.point t with
  | outside => simp [access, hp] at hs
  | get a p i =>
    simp only [access, hp, Option.some.injEq] at hs
    subst hs
    split
    · exact .goto rfl rfl
    · split
      · exact .goto rfl rfl
      · exact effect_missing a p
  | value a p i =>
    simp only [access, hp, Option.some.injEq] at hs
    subst hs
    split
    · exact .idle (by rw [hp]; rfl) (by rw [hp]; rfl)
    · exact .goto rfl rfl
  | result a p i =>
    simp only [access, hp] at hs
    split at hs <;> cases hs
    · exact effect_missing a p
    · rename_i o ho
      exact effect_found ho
  | create a w =>
    simp only [access, hp, Option.some.injEq] at hs
    subst hs
    refine .put a s.allocated w rfl rfl rfl rfl (Nat.le_succ _) (Nat.lt_succ_self _) ?_ ?_ rfl rfl
    · exact fun o ho => Function.update_of_ne ho.ne _ _
    · intro o u ho
      by_cases hfresh : o = s.allocated
      · simp [hfresh] at ho
      · simpa [hfresh] using ho
  | put a v w i =>
    simp only [access, hp, Option.some.injEq] at hs
    subst hs
    split
    · refine .aside (aside_goto s t _) (fun o ho => ?_) (fun a' i' hi' => ?_)
        (fun _ => Or.inl) Or.inl
      · simp only [goto_point, Function.update_self] at ho
        exact Or.inl (by rw [hp]; exact ho)
      · simp only [goto_point, Function.update_self] at hi'
        exact ⟨i', by rw [hp]; exact hi', Or.inl rfl⟩
    · rename_i hkey
      exact effect_tryNext (by rw [hp]; rfl) (by rw [hp]; rfl) hkey
  | cas a v w i =>
    simp only [access, hp, Option.some.injEq] at hs
    subst hs
    split
    · rename_i hkey
      exact .claim a v w i hp hkey rfl
    · rename_i hkey
      exact effect_tryNext (by rw [hp]; rfl) (by rw [hp]; rfl) hkey
  | store a v w i =>
    simp only [access, hp, Option.some.injEq] at hs
    exact .store a v w i hp hs.symm
  | operate a o p =>
    simp only [access, hp] at hs
    exact operate_effect hp hs
  | initCheck a =>
    simp only [access, hp, Option.some.injEq] at hs
    subst hs
    split <;> exact .goto rfl rfl
  | initClear rwlock cleared =>
    simp only [access, hp, Option.some.injEq] at hs
    refine .clear _ _ (fun b i => ?_) rfl rfl hs.symm
    split
    · exact Or.inl rfl
    · exact Or.inr rfl
  | initCas rwlock =>
    simp only [access, hp, Option.some.injEq] at hs
    subst hs
    split
    · exact .init rfl rfl
    · split
      · exact .goto rfl rfl
      · cases rwlock <;> exact .goto rfl rfl
  | initSpin rwlock =>
    simp only [access, hp, Option.some.injEq] at hs
    subst hs
    split
    · exact .idle (by rw [hp]; rfl) (by rw [hp]; rfl)
    · cases rwlock <;> exact .goto rfl rfl
  | initThreadId rwlock =>
    simp only [access, hp, Option.some.injEq] at hs
    subst hs
    split
    · refine .of_aside ⟨rfl, rfl, rfl, rfl, rfl, fun _ _ => rfl, fun _ _ => rfl,
        List.suffix_refl _⟩ (by rw [hp]; rfl) (by rw [hp]; rfl) (fun _ => Iff.rfl) (by simp)
    · exact .init rfl rfl
  | initLoad rwlock =>
    simp only [access, hp, Option.some.injEq] at hs
    subst hs
    exact .init rfl rfl
  | initDone rwlock =>
    simp only [access, hp, Option.some.injEq] at hs
    subst hs
    cases rwlock <;> exact .init rfl rfl

/-- The beginning of a lookup. -/
theorem lookUp_effect (a : Addr) (p : Purpose) : Effect t s (s.lookUp t a p) := by
  refine .of_aside (aside_lookUp s t a p) ?_ ?_ (fun _ => Iff.rfl) id
  · simp [TablePoint.carries]
  · simp [TablePoint.scans]

/-- The beginning of every call. -/
theorem begin_effect (hpoint : s.point t = .outside) {c : TableCall} (hs : s.begin t c = some s') :
    Effect t s s' := by
  cases c with
  | hashGet a =>
    cases hs
    exact lookUp_effect a _
  | htLockGet a | lock a | trylock a | unlock a =>
    cases hs
    refine .of_aside ⟨rfl, rfl, rfl, rfl, rfl, fun _ hu => Function.update_of_ne hu _ _,
      fun _ hu => Function.update_of_ne hu _ _, List.suffix_refl _⟩ ?_ ?_
      (fun _ => Iff.rfl) id
    · simp [TablePoint.carries]
    · simp [TablePoint.scans]
  | init a | rwlockInit a =>
    cases hs
    refine .of_aside ⟨rfl, rfl, rfl, rfl, rfl, fun _ _ => rfl,
      fun _ hu => Function.update_of_ne hu _ _, List.suffix_refl _⟩ ?_ ?_
      (fun _ => Iff.rfl) id
    · simp [TablePoint.carries]
    · simp [TablePoint.scans]
  | destroy a =>
    cases hs
    exact .of_aside ⟨rfl, rfl, rfl, rfl, rfl, fun _ _ => rfl, fun _ _ => rfl, List.suffix_refl _⟩
      (by rw [bury_point, hpoint]; rfl) (by rw [bury_point, hpoint]; rfl) (fun _ => Iff.rfl) id
  | interposeInit =>
    cases hs
    exact .goto rfl rfl
  | hashPut a v =>
    obtain ⟨hv, heq⟩ := Option.ite_none_right_eq_some.mp hs
    cases heq
    exact .put a v _ rfl rfl rfl rfl le_rfl hv (fun _ _ => rfl) (fun _ _ => id) rfl rfl

/-- Every cleared slot. -/
theorem clear_effect {b : Fin bucketSize} {i : Fin bucketLength} (hs : s.clear t b i = some s') :
    Effect t s s' := by
  simp only [TableState.clear] at hs
  split at hs
  · split at hs
    · cases hs
    · cases hs
      refine .clear _ _ (fun b' i' => ?_) rfl rfl rfl
      rcases s.table.set_cases b i Slot.clear b' i' with ⟨-, -, heq⟩ | ⟨-, heq⟩
      · exact Or.inr heq
      · exact Or.inl heq
  · cases hs

/-- Every action. -/
theorem step_effect {x : TableAction T} (hs : s.step x = some s') : ∃ t, Effect t s s' := by
  obtain ⟨-, hs⟩ := Option.ite_none_right_eq_some.mp hs
  cases x with
  | call t c =>
    obtain ⟨hpoint, hs⟩ := Option.ite_none_right_eq_some.mp hs
    exact ⟨t, begin_effect hpoint hs⟩
  | access t => exact ⟨t, access_effect hs⟩
  | clear t b i => exact ⟨t, clear_effect hs⟩

end TableState

end Htll
