import Htll.Interposed
import Htll.TableEntries

/-!
# What the intercepted functions do to the table

No intercepted function clears a slot in use, so the table only grows: an object is held under an
address from the store of its value on, and it is stored under the address for which it was
created. An object therefore has one address, its home, and two addresses never share one. A
lookup ends with an object that is held under the address it was made for.
-/

namespace Htll

/-- The address and the object that a thread is putting into the table. -/
def TablePoint.putting : TablePoint → Option (Addr × LockObject)
  | .put a v _ _ | .cas a v _ _ | .store a v _ _ => some (a, v)
  | _ => none

/-- The address that a thread looks up for a call of the lock interface. -/
def TablePoint.seeks : TablePoint → Option Addr
  | .get a .htLockGet _ | .value a .htLockGet _ | .result a .htLockGet _
  | .create a (.use .htLockGet) | .put a _ (.use .htLockGet) _ | .cas a _ (.use .htLockGet) _
  | .store a _ (.use .htLockGet) _ => some a
  | _ => none

/-- A point of the intercepted functions: `hash_get` and `hash_put` are only called by
`ht_lock_get` and `ht_lock_create`, and what is done with a lock object is not the table's
business. -/
def TablePoint.intercepted : TablePoint → Bool
  | .get _ p _ | .value _ p _ | .result _ p _ => p = .htLockGet
  | .create _ w | .put _ _ w _ | .cas _ _ w _ | .store _ _ w _ => w = .init ∨ w = .use .htLockGet
  | .operate .. => false
  | .outside | .initCheck _ | .initCas _ | .initSpin _ | .initClear _ _ | .initThreadId _
  | .initLoad _ | .initDone _ => true

namespace TableState

open TablePoint (putting)

variable {T : Type*} {s s' : TableState T} {t : T}

/-! ## The table grows -/

/-- What an action of a thread files: slots in use stay, only what the thread is putting is new in
the table, and it goes on with what it is putting or with a new object. -/
structure Files (t : T) (s s' : TableState T) : Prop where
  others : ∀ u, u ≠ t → s'.point u = s.point u
  allocated : s.allocated ≤ s'.allocated
  grows : s.table.Grows s'.table
  holds : ∀ a o, s'.table.Holds a o → s.table.Holds a o ∨ (s.point t).putting = some (a, o)
  putting : ∀ a v, (s'.point t).putting = some (a, v) →
    (s.point t).putting = some (a, v) ∨ v = s.allocated ∧ s'.allocated = s.allocated + 1

/-- A move that leaves the table alone. -/
theorem Files.of_same (hothers : ∀ u, u ≠ t → s'.point u = s.point u)
    (hallocated : s'.allocated = s.allocated) (htable : s'.table = s.table)
    (hputting : (s'.point t).putting = none ∨ (s'.point t).putting = (s.point t).putting) :
    Files t s s' where
  others := hothers
  allocated := hallocated.ge
  grows := htable ▸ .refl
  holds a o ho := Or.inl (htable ▸ ho)
  putting a v hv := by
    rcases hputting with hnone | hsame
    · rw [hnone] at hv
      cases hv
    · exact Or.inl (hsame.symm.trans hv)

/-- A move aside. -/
theorem Files.of_aside (haside : Aside t s s')
    (hputting : (s'.point t).putting = none ∨ (s'.point t).putting = (s.point t).putting) :
    Files t s s' :=
  .of_same haside.point haside.allocated haside.table hputting

variable [DecidableEq T]

/-- A thread goes somewhere where it puts nothing, after a change of other fields. -/
theorem Files.goto {s₁ : TableState T} {q : TablePoint} (hpoint : s₁.point = s.point)
    (hallocated : s₁.allocated = s.allocated) (htable : s₁.table = s.table)
    (hputting : q.putting = none) : Files t s (s₁.goto t q) := by
  refine .of_same (fun u hu => ?_) hallocated htable (Or.inl ?_)
  · rw [goto_point, Function.update_of_ne hu, hpoint]
  · rwa [goto_point, Function.update_self]

/-- `interpose_init` returns. -/
theorem Files.initialised {s₁ : TableState T} (hpoint : s₁.point = s.point)
    (hallocated : s₁.allocated = s.allocated) (htable : s₁.table = s.table)
    (rwlock : Option Addr) : Files t s (s₁.initialised t rwlock) := by
  cases rwlock <;> exact .goto hpoint hallocated htable rfl

/-- `hash_put` passes an occupied slot. -/
theorem files_tryNext {a : Addr} {v : LockObject} {w : Creation} {i : Fin bucketLength}
    (hp : (s.point t).putting = some (a, v)) : Files t s (s.tryNext t a v w i) := by
  unfold tryNext
  split
  · refine .of_aside (aside_goto s t _) (Or.inr ?_)
    rw [goto_point, Function.update_self, hp]
    rfl
  · refine .of_aside (aside_full s t a v w) ?_
    cases w with
    | hashPut => exact Or.inl (by simp [full, TablePoint.putting])
    | init | use => exact Or.inr rfl

/-- The claim of an unused slot. -/
theorem files_claim (hslots : SlotsOk s) {a : Addr} {v : LockObject} {w : Creation}
    {i : Fin bucketLength} (hp : s.point t = .cas a v w i) (hkey : (s.table a.bucket i).key = 0) :
    Files t s ({ s with
      table := s.table.set a.bucket i { s.table a.bucket i with key := a.1 } }.goto t
        (.store a v w i)) where
  others u hu := by simp [hu]
  allocated := le_rfl
  grows := .of_set (hslots.clean _ _ hkey) fun hused => absurd hkey hused
  holds a' o := by
    rintro ⟨j, hj⟩
    have hslot := LockTable.entry_eq_some hj
    dsimp only [TableState.goto] at hslot
    rcases s.table.set_cases a.bucket i { s.table a.bucket i with key := a.1 } a'.bucket j with
      ⟨-, -, heq⟩ | ⟨-, heq⟩
    · rw [heq, Slot.mk.injEq, hslots.clean _ _ hkey] at hslot
      cases hslot.2
    · rw [heq] at hslot
      exact Or.inl ⟨j, by rw [LockTable.entry, hslot, if_pos rfl]⟩
  putting a' v' hv := Or.inl (by simpa [hp, TablePoint.putting] using hv)

/-- The store of the value and the return of `hash_put`. -/
theorem files_store (hslots : SlotsOk s) {a : Addr} {v : LockObject} {w : Creation}
    {i : Fin bucketLength} {l : Addr → List LockObject} (hp : s.point t = .store a v w i) :
    Files t s ({ s with
      table := s.table.set a.bucket i { s.table a.bucket i with value := some v }
      associated := l }.stored t a v w) := by
  have hclaimed := LockTable.entry_eq_some (hslots.claimed t a v w i hp)
  have haside := aside_stored { s with
    table := s.table.set a.bucket i { s.table a.bucket i with value := some v }
    associated := l } t a v w
  refine ⟨haside.point, haside.allocated.ge, ?_, ?_, ?_⟩
  · rw [haside.table]
    exact .of_set (by rw [hclaimed]) fun _ => rfl
  · rw [haside.table]
    rintro a' o ⟨j, hj⟩
    have hslot := LockTable.entry_eq_some hj
    dsimp only at hslot
    rcases s.table.set_cases a.bucket i { s.table a.bucket i with value := some v } a'.bucket j with
      ⟨-, -, heq⟩ | ⟨-, heq⟩
    · rw [heq, Slot.mk.injEq, hclaimed] at hslot
      obtain rfl : a = a' := Subtype.ext hslot.1
      cases hslot.2
      exact Or.inr (by rw [hp]; rfl)
    · rw [heq] at hslot
      exact Or.inl ⟨j, by rw [LockTable.entry, hslot, if_pos rfl]⟩
  · intro a' v' hv
    cases w with
    | hashPut | init => simp [stored, TablePoint.putting] at hv
    | use p => cases p <;> simp [stored, located, TablePoint.putting] at hv

/-- The clearing of unused slots. -/
theorem files_clear (hslots : SlotsOk s) {table : LockTable} {q : TablePoint}
    (htable : ∀ b i, table b i = s.table b i ∨ (s.table b i).key = 0 ∧ table b i = Slot.clear)
    (hputting : q.putting = none) : Files t s ({ s with table := table }.goto t q) := by
  -- an unused slot looks like a cleared one to everybody
  have hsame : table = s.table := by
    funext b i
    rcases htable b i with heq | ⟨hkey, heq⟩
    · exact heq
    · rw [heq]
      exact congrArg₂ Slot.mk hkey.symm (hslots.clean b i hkey).symm
  exact .goto rfl rfl hsame hputting

/-- An access of an intercepted function, where `memset` finds the rest of the table unused. -/
theorem files_access (hslots : SlotsOk s) (hintercepted : (s.point t).intercepted = true)
    (hunused : ∀ rwlock cleared, s.point t = .initClear rwlock cleared →
      ∀ b i, (b, i) ∉ cleared → (s.table b i).key = 0)
    (hs : s.access t = some s') : Files t s s' := by
  have hstays : Files t s s := .of_same (fun _ _ => rfl) rfl rfl (Or.inr rfl)
  cases hp : s.point t with
  | outside => simp [access, hp] at hs
  | get a p i =>
    simp only [access, hp, Option.some.injEq] at hs
    subst hs
    split
    · exact .goto rfl rfl rfl rfl
    · split
      · exact .goto rfl rfl rfl rfl
      · exact .of_aside (aside_missing s t a p) (Or.inl (by cases p <;> simp [missing, putting]))
  | value a p i =>
    simp only [access, hp, Option.some.injEq] at hs
    subst hs
    split
    · exact hstays
    · exact .goto rfl rfl rfl rfl
  | result a p i =>
    simp only [access, hp] at hs
    split at hs <;> cases hs
    · exact .of_aside (aside_missing s t a p) (Or.inl (by cases p <;> simp [missing, putting]))
    · exact .of_aside (aside_found s t a _ p)
        (Or.inl (by cases p <;> simp [found, located, putting]))
  | create a w =>
    simp only [access, hp, Option.some.injEq] at hs
    subst hs
    refine ⟨fun u hu => by simp [hu], Nat.le_succ _, .refl, fun _ _ => Or.inl, fun a' v hv => ?_⟩
    simp only [goto_point, Function.update_self, putting, Option.some.injEq, Prod.mk.injEq] at hv
    exact Or.inr ⟨hv.2.symm, rfl⟩
  | put a v w i =>
    simp only [access, hp, Option.some.injEq] at hs
    subst hs
    split
    · refine .of_aside (aside_goto s t _) (Or.inr ?_)
      rw [goto_point, Function.update_self, hp]
      rfl
    · exact files_tryNext (by rw [hp]; rfl)
  | cas a v w i =>
    simp only [access, hp, Option.some.injEq] at hs
    subst hs
    split
    · rename_i hkey
      exact files_claim hslots hp hkey
    · exact files_tryNext (by rw [hp]; rfl)
  | store a v w i =>
    simp only [access, hp, Option.some.injEq] at hs
    subst hs
    exact files_store hslots hp
  | operate a o p =>
    rw [hp] at hintercepted
    cases hintercepted
  | initCheck a =>
    simp only [access, hp, Option.some.injEq] at hs
    subst hs
    split <;> exact .goto rfl rfl rfl rfl
  | initCas rwlock =>
    simp only [access, hp, Option.some.injEq] at hs
    subst hs
    split
    · exact .goto rfl rfl rfl rfl
    · split
      · exact .goto rfl rfl rfl rfl
      · exact .initialised rfl rfl rfl rwlock
  | initSpin rwlock =>
    simp only [access, hp, Option.some.injEq] at hs
    subst hs
    split
    · exact hstays
    · exact .initialised rfl rfl rfl rwlock
  | initClear rwlock cleared =>
    simp only [access, hp, Option.some.injEq] at hs
    subst hs
    refine files_clear hslots (fun b i => ?_) rfl
    split
    · exact Or.inl rfl
    · rename_i hmem
      exact Or.inr ⟨hunused rwlock cleared hp b i hmem, rfl⟩
  | initThreadId rwlock =>
    simp only [access, hp, Option.some.injEq] at hs
    subst hs
    split
    · exact .of_same (fun _ _ => rfl) rfl rfl (Or.inr rfl)
    · exact .goto rfl rfl rfl rfl
  | initLoad rwlock =>
    simp only [access, hp, Option.some.injEq] at hs
    subst hs
    exact .goto rfl rfl rfl rfl
  | initDone rwlock =>
    simp only [access, hp, Option.some.injEq] at hs
    subst hs
    refine Files.initialised ?_ ?_ ?_ rwlock <;> rfl

/-- The beginning of a call, but for a direct `hash_put`. -/
theorem files_begin {c : TableCall} (hput : ∀ a v, c ≠ .hashPut a v) (hs : s.begin t c = some s') :
    Files t s s' := by
  cases c with
  | hashGet a | htLockGet a | lock a | trylock a | unlock a =>
    cases hs
    exact .of_same (fun u hu => by simp [hu]) rfl rfl (Or.inl (by simp [TablePoint.putting]))
  | init a | rwlockInit a | interposeInit =>
    cases hs
    exact .goto rfl rfl rfl rfl
  | destroy a =>
    cases hs
    exact .of_same (fun _ _ => rfl) rfl rfl (Or.inr rfl)
  | hashPut a v => exact absurd rfl (hput a v)

/-- The clearing of an unused slot. -/
theorem files_clearSlot (hslots : SlotsOk s) {b : Fin bucketSize} {i : Fin bucketLength}
    (hunused : (s.table b i).key = 0) (hs : s.clear t b i = some s') : Files t s s' := by
  simp only [TableState.clear] at hs
  split at hs
  · split at hs
    · cases hs
    · cases hs
      refine files_clear hslots (fun b' i' => ?_) rfl
      rcases s.table.set_cases b i Slot.clear b' i' with ⟨rfl, rfl, heq⟩ | ⟨-, heq⟩
      · exact Or.inr ⟨hunused, heq⟩
      · exact Or.inl heq
  · cases hs

/-- Only a thread in `memset` clears slots, and it stays there. -/
theorem clear_point {b : Fin bucketSize} {i : Fin bucketLength} (hs : s.clear t b i = some s') :
    ∃ rwlock cleared cleared', s.point t = .initClear rwlock cleared ∧
      s'.point t = .initClear rwlock cleared' := by
  simp only [TableState.clear] at hs
  split at hs
  · rename_i rwlock cleared hp
    split at hs
    · cases hs
    · cases hs
      exact ⟨rwlock, cleared, (b, i) :: cleared, hp, by simp⟩
  · cases hs

/-! ## Every object has one address -/

/-- Objects exist, and they are put and stored under their homes. -/
structure Homed (home : LockObject → Addr) (s : TableState T) : Prop where
  stored : ∀ a o, s.table.Holds a o → o < s.allocated ∧ home o = a
  putting : ∀ t a v, (s.point t).putting = some (a, v) → v < s.allocated ∧ home v = a

variable {home home' : LockObject → Addr}

omit [DecidableEq T] in
/-- Homes may be chosen for objects that did not exist. -/
theorem Homed.of_files (h : Homed home s) (hfiles : Files t s s')
    (hagree : ∀ o, o < s.allocated → home' o = home o)
    (hnew : ∀ a v, (s'.point t).putting = some (a, v) → v < s'.allocated ∧ home' v = a) :
    Homed home' s' where
  stored a o ho := by
    have hbefore : o < s.allocated ∧ home o = a :=
      (hfiles.holds a o ho).elim (h.stored a o) (h.putting t a o)
    exact ⟨lt_of_lt_of_le hbefore.1 hfiles.allocated, (hagree o hbefore.1).trans hbefore.2⟩
  putting u a v hv := by
    by_cases hu : u = t
    · exact hnew a v (hu ▸ hv)
    · rw [hfiles.others u hu] at hv
      obtain ⟨hlt, hhome⟩ := h.putting u a v hv
      exact ⟨lt_of_lt_of_le hlt hfiles.allocated, (hagree v hlt).trans hhome⟩

omit [DecidableEq T] in
/-- Every action keeps the objects homed; a new object has the address that it is created for. -/
theorem Homed.step (h : Homed home s) (hfiles : Files t s s') : ∃ home, Homed home s' := by
  cases hp : (s'.point t).putting with
  | none =>
    refine ⟨home, h.of_files hfiles (fun _ _ => rfl) fun a v hv => ?_⟩
    rw [hp] at hv
    cases hv
  | some item =>
    obtain ⟨a, v⟩ := item
    rcases hfiles.putting a v hp with hbefore | ⟨rfl, hallocated⟩
    · obtain ⟨hlt, hhome⟩ := h.putting t a v hbefore
      refine ⟨home, h.of_files hfiles (fun _ _ => rfl) fun a' v' hv => ?_⟩
      rw [hp] at hv
      cases hv
      exact ⟨lt_of_lt_of_le hlt hfiles.allocated, hhome⟩
    · refine ⟨Function.update home s.allocated a, h.of_files hfiles
        (fun o ho => Function.update_of_ne ho.ne _ _) fun a' v' hv => ?_⟩
      rw [hp] at hv
      cases hv
      exact ⟨hallocated ▸ Nat.lt_succ_self _, Function.update_self ..⟩

omit [DecidableEq T] in
/-- An object is stored under one address only. -/
theorem Homed.addr_unique (h : Homed home s) {a b : Addr} {o : LockObject}
    (ha : s.table.Holds a o) (hb : s.table.Holds b o) : a = b :=
  (h.stored a o ha).2.symm.trans (h.stored b o hb).2

/-! ## Lookups -/

/-- What an access of an intercepted function does to a lookup: it goes on, or `ht_lock_get`
returns. -/
structure Continues (t : T) (s s' : TableState T) : Prop where
  intercepted : (s'.point t).intercepted = true
  seeks : s.returns t = none → (s'.point t).seeks = (s.point t).seeks
  outside : s.returns t ≠ none → s'.point t = .outside

omit [DecidableEq T] in
/-- A thread that goes on with the same lookup, or with none. -/
theorem Continues.of_point {q : TablePoint} (hpoint : s'.point t = q) (hq : q.intercepted = true)
    (hreturns : s.returns t = none) (hseeks : q.seeks = (s.point t).seeks) : Continues t s s' where
  intercepted := hpoint ▸ hq
  seeks _ := hpoint ▸ hseeks
  outside h := absurd hreturns h

omit [DecidableEq T] in
/-- `ht_lock_get` returns. -/
theorem Continues.of_outside (hpoint : s'.point t = .outside)
    (hreturns : s.returns t = none → (s.point t).seeks = none) : Continues t s s' where
  intercepted := by rw [hpoint]; rfl
  seeks h := by rw [hpoint, hreturns h]; rfl
  outside _ := hpoint

/-- A thread goes to another point of the same lookup, after a change of other fields. -/
theorem Continues.goto {s₁ : TableState T} {q : TablePoint} (hq : q.intercepted = true)
    (hreturns : s.returns t = none) (hseeks : q.seeks = (s.point t).seeks) :
    Continues t s (s₁.goto t q) :=
  .of_point (by rw [goto_point, Function.update_self]) hq hreturns hseeks

/-- `interpose_init` returns. -/
theorem Continues.initialised {s₁ : TableState T} (hreturns : s.returns t = none)
    (hseeks : (s.point t).seeks = none) (rwlock : Option Addr) :
    Continues t s (s₁.initialised t rwlock) := by
  cases rwlock <;> exact .goto rfl hreturns hseeks.symm

/-- `hash_put` passes an occupied slot. -/
theorem continues_tryNext {a : Addr} {v : LockObject} {w : Creation} {i : Fin bucketLength}
    (hw : w = .init ∨ w = .use .htLockGet) (hintercepted : (s.point t).intercepted = true)
    (hreturns : s.returns t = none)
    (hseeks : (TablePoint.put a v w i).seeks = (s.point t).seeks) :
    Continues t s (s.tryNext t a v w i) := by
  unfold tryNext
  split
  · refine .goto (by simpa [TablePoint.intercepted] using hw) hreturns ?_
    rw [← hseeks]
    rcases hw with rfl | rfl <;> rfl
  · rcases hw with rfl | rfl <;> exact .of_point rfl hintercepted hreturns rfl

/-- Every access of an intercepted function. -/
theorem continues_access (hintercepted : (s.point t).intercepted = true)
    (hs : s.access t = some s') : Continues t s s' := by
  have hstays : s.returns t = none → Continues t s s :=
    fun hreturns => .of_point rfl hintercepted hreturns rfl
  cases hp : s.point t with
  | outside => simp [access, hp] at hs
  | get a p i =>
    obtain rfl : p = .htLockGet := by simpa [hp, TablePoint.intercepted] using hintercepted
    have hreturns : s.returns t = none := by simp [returns, hp]
    have hseeks : (s.point t).seeks = some a := by rw [hp]; rfl
    simp only [access, hp, Option.some.injEq] at hs
    subst hs
    split
    · exact .goto rfl hreturns hseeks.symm
    · split
      · exact .goto rfl hreturns hseeks.symm
      · exact .goto rfl hreturns hseeks.symm
  | value a p i =>
    obtain rfl : p = .htLockGet := by simpa [hp, TablePoint.intercepted] using hintercepted
    have hreturns : s.returns t = none := by simp [returns, hp]
    simp only [access, hp, Option.some.injEq] at hs
    subst hs
    split
    · exact hstays hreturns
    · exact .goto rfl hreturns (by rw [hp]; rfl)
  | result a p i =>
    obtain rfl : p = .htLockGet := by simpa [hp, TablePoint.intercepted] using hintercepted
    simp only [access, hp] at hs
    split at hs <;> cases hs
    · rename_i hvalue
      exact .goto rfl (by simp [returns, hp, hvalue]) (by rw [hp]; rfl)
    · rename_i o ho
      exact .of_outside (by simp [found, located]) (by simp [returns, hp, ho])
  | create a w =>
    have hw : w = .init ∨ w = .use .htLockGet := by
      simpa [hp, TablePoint.intercepted] using hintercepted
    simp only [access, hp, Option.some.injEq] at hs
    subst hs
    refine .goto (by simpa [TablePoint.intercepted] using hw) (by simp [returns, hp]) ?_
    rcases hw with rfl | rfl <;> rw [hp] <;> rfl
  | put a v w i =>
    have hw : w = .init ∨ w = .use .htLockGet := by
      simpa [hp, TablePoint.intercepted] using hintercepted
    have hreturns : s.returns t = none := by simp [returns, hp]
    simp only [access, hp, Option.some.injEq] at hs
    subst hs
    split
    · refine .goto (by simpa [TablePoint.intercepted] using hw) hreturns ?_
      rcases hw with rfl | rfl <;> rw [hp] <;> rfl
    · exact continues_tryNext hw hintercepted hreturns (by rw [hp])
  | cas a v w i =>
    have hw : w = .init ∨ w = .use .htLockGet := by
      simpa [hp, TablePoint.intercepted] using hintercepted
    have hreturns : s.returns t = none := by simp [returns, hp]
    simp only [access, hp, Option.some.injEq] at hs
    subst hs
    split
    · refine .goto (by simpa [TablePoint.intercepted] using hw) hreturns ?_
      rcases hw with rfl | rfl <;> rw [hp] <;> rfl
    · refine continues_tryNext hw hintercepted hreturns ?_
      rcases hw with rfl | rfl <;> rw [hp] <;> rfl
  | store a v w i =>
    have hw : w = .init ∨ w = .use .htLockGet := by
      simpa [hp, TablePoint.intercepted] using hintercepted
    simp only [access, hp, Option.some.injEq] at hs
    subst hs
    refine .of_outside ?_ ?_
    · rcases hw with rfl | rfl <;> simp [stored, located]
    · rcases hw with rfl | rfl
      · exact fun _ => by rw [hp]; rfl
      · simp [returns, hp]
  | operate a o p =>
    rw [hp] at hintercepted
    cases hintercepted
  | initCheck a =>
    have hreturns : s.returns t = none := by simp [returns, hp]
    simp only [access, hp, Option.some.injEq] at hs
    subst hs
    split <;> exact .goto rfl hreturns (by rw [hp]; rfl)
  | initCas rwlock =>
    have hreturns : s.returns t = none := by simp [returns, hp]
    simp only [access, hp, Option.some.injEq] at hs
    subst hs
    split
    · exact .goto rfl hreturns (by rw [hp]; rfl)
    · split
      · exact .goto rfl hreturns (by rw [hp]; rfl)
      · exact .initialised hreturns (by rw [hp]; rfl) rwlock
  | initSpin rwlock =>
    have hreturns : s.returns t = none := by simp [returns, hp]
    simp only [access, hp, Option.some.injEq] at hs
    subst hs
    split
    · exact hstays hreturns
    · exact .initialised hreturns (by rw [hp]; rfl) rwlock
  | initThreadId rwlock =>
    have hreturns : s.returns t = none := by simp [returns, hp]
    simp only [access, hp, Option.some.injEq] at hs
    subst hs
    split
    · exact .of_point rfl hintercepted hreturns rfl
    · exact .goto rfl hreturns (by rw [hp]; rfl)
  | initClear rwlock _ | initLoad rwlock =>
    have hreturns : s.returns t = none := by simp [returns, hp]
    simp only [access, hp, Option.some.injEq] at hs
    subst hs
    exact .goto rfl hreturns (by rw [hp]; rfl)
  | initDone rwlock =>
    simp only [access, hp, Option.some.injEq] at hs
    subst hs
    exact .initialised (by simp [returns, hp]) (by rw [hp]; rfl) rwlock

omit [DecidableEq T] in
/-- `ht_lock_get` returns what a slot has, or what it has just stored. -/
theorem returns_cases {o : LockObject} (h : s.returns t = some o) :
    (∃ a i, s.point t = .result a .htLockGet i ∧ (s.table a.bucket i).value = some o) ∨
      ∃ a i, s.point t = .store a o (.use .htLockGet) i := by
  unfold returns at h
  split at h
  · rename_i a i hp
    exact Or.inl ⟨a, i, hp, h⟩
  · rename_i a v i hp
    cases h
    exact Or.inr ⟨a, i, hp⟩
  · cases h

omit [DecidableEq T] in
/-- `ht_lock_get` returns at the end of a lookup. -/
theorem seeks_of_returns {o : LockObject} (h : s.returns t = some o) :
    ∃ a, (s.point t).seeks = some a := by
  rcases returns_cases h with ⟨a, i, hp, -⟩ | ⟨a, i, hp⟩ <;> exact ⟨a, by rw [hp]; rfl⟩

/-- It can always make the access at which it returns. -/
theorem access_of_returns {o : LockObject} (h : s.returns t = some o) :
    ∃ s', s.access t = some s' := by
  rcases returns_cases h with ⟨a, i, hp, hvalue⟩ | ⟨a, i, hp⟩
  · simp [access, hp, hvalue]
  · simp [access, hp]

/-- The object that `ht_lock_get` returns is held under the address of the lookup. -/
theorem holds_returns {a : Addr} {o : LockObject} (h : Sound s a)
    (hseeks : (s.point t).seeks = some a) (ho : s.returns t = some o)
    (hs : s.access t = some s') : s'.table.Holds a o := by
  have hthread := h.entry.threads t
  rcases returns_cases ho with ⟨a', i, hp, hvalue⟩ | ⟨a', i, hp⟩
  · obtain rfl : a' = a := by simpa [hp, TablePoint.seeks] using hseeks
    rw [hp] at hthread
    obtain ⟨⟨o', hi⟩, -⟩ := hthread rfl
    simp only [access, hp, hvalue, Option.some.injEq] at hs
    subst hs
    rw [LockTable.entry_eq_some hi] at hvalue
    cases hvalue
    refine ⟨i, ?_⟩
    rw [(aside_found s t a' o .htLockGet).table]
    exact hi
  · obtain rfl : a' = a := by simpa [hp, TablePoint.seeks] using hseeks
    have hslot := LockTable.entry_eq_some (h.slots.claimed t a' o _ i hp)
    simp only [access, hp, Option.some.injEq] at hs
    subst hs
    refine ⟨i, ?_⟩
    rw [(aside_stored _ t a' o _).table, LockTable.entry_set (by rw [hslot]),
      Function.update_self]

end TableState

end Htll
