import Htll.MutexCalls
import Htll.TableMachine

/-!
# Calls without overlap are runs of the threads

A thread that runs a call to its end while all others rest takes the library where `call` says.
The threads can make every sequence of calls that return in this way, one call after the other.
-/

namespace Htll

open Transition

/-- The call as the machine knows it. -/
def MutexCall.tableCall : MutexCall → TableCall
  | .init a => .init a
  | .destroy a => .destroy a
  | .lock a => .lock a
  | .trylock a => .trylock a
  | .unlock a => .unlock a

namespace TableState

variable {T : Type*} [DecidableEq T] {s s' : TableState T} {t : T} {a : Addr} {o v : LockObject}
  {p : Purpose} {w : Creation}

/-- What sequential calls see of a state. -/
def library (s : TableState T) : Library T := ⟨s.table, s.owner, s.allocated⟩

/-- The thread goes on in its call while the others rest. -/
def Accesses (t : T) (_ : TableState T) (x : TableAction T) : Prop := x = .access t

/-- An access of a running process is a run. -/
theorem path_access (hs : s.access t = some s') (hrunning : s.exited = none) :
    Path step (Accesses t) s s' :=
  Path.single (.access t) rfl (by rw [step, if_pos hrunning]; exact hs)

/-- Only the last move of a thread counts. -/
@[simp] theorem goto_goto (q r : TablePoint) : (s.goto t q).goto t r = s.goto t r := by
  simp [goto]

/-- A loop over the slots of a bucket gets from the first one to any other if every access before
goes on to the next one. -/
theorem scan_path (hrunning : s.exited = none) (q : Fin bucketLength → TablePoint)
    (k : Fin bucketLength)
    (hnext : ∀ i < k, ∀ j, nextSlot i = some j →
      (s.goto t (q i)).access t = some (s.goto t (q j))) :
    Path step (Accesses t) (s.goto t (q firstSlot)) (s.goto t (q k)) := by
  obtain ⟨n, hn⟩ := k
  induction n with
  | zero => exact Relation.ReflTransGen.refl
  | succ n ih =>
    have hlt : n < bucketLength := Nat.lt_of_succ_lt hn
    have hfirst := ih hlt fun i hi j hj => hnext i (hi.trans (Nat.lt_succ_self n)) j hj
    have hlast := hnext ⟨n, hlt⟩ (Nat.lt_succ_self n) ⟨n + 1, hn⟩ (nextSlot_of_lt hn)
    exact hfirst.trans (path_access hlast hrunning)

/-- The last slot of a bucket. -/
def lastSlot : Fin bucketLength := ⟨9, by decide⟩

/-- `hash_get` passes the slots with other keys. -/
theorem get_path (hrunning : s.exited = none) (k : Fin bucketLength)
    (hkeys : ∀ i < k, (s.table a.bucket i).key ≠ a.1) :
    Path step (Accesses t) (s.goto t (.get a p firstSlot)) (s.goto t (.get a p k)) := by
  refine scan_path hrunning (fun i => .get a p i) k fun i hi j hj => ?_
  simp only [access, goto_point, Function.update_self, goto_table, if_neg (hkeys i hi), hj,
    goto_goto]

/-- A lookup that finds an object. -/
theorem found_path (hrunning : s.exited = none) (ho : hashGet s.table a = some o) :
    Path step (Accesses t) (s.goto t (.get a p firstSlot)) (s.found t a o p) := by
  obtain ⟨y, hy, hvalue⟩ := Option.bind_eq_some_iff.mp ho
  obtain ⟨k, hk, rfl⟩ := Option.map_eq_some_iff.mp hy
  obtain ⟨hkey, hbefore⟩ := SlotArray.firstMatch_eq_some_iff.mp hk
  have hscan := get_path (t := t) (p := p) hrunning k fun i hi =>
    of_decide_eq_false (hbefore i hi)
  have hmatch : (s.goto t (.get a p k)).access t = some (s.goto t (.value a p k)) := by
    simp [access, of_decide_eq_true hkey]
  have hwait : (s.goto t (.value a p k)).access t = some (s.goto t (.result a p k)) := by
    simp [access, hvalue]
  have hreturn : (s.goto t (.result a p k)).access t = some (s.found t a o p) := by
    simp only [access, goto_point, Function.update_self, goto_table, hvalue]
    cases p <;> simp [found, located, note, goto]
  exact ((hscan.trans (path_access hmatch hrunning)).trans (path_access hwait hrunning)).trans
    (path_access hreturn hrunning)

/-- A lookup that finds nothing. -/
theorem missing_path (hrunning : s.exited = none) (hok : s.library.Ok)
    (ho : hashGet s.table a = none) :
    Path step (Accesses t) (s.goto t (.get a p firstSlot)) (s.missing t a p) := by
  have hkeys : ∀ i, (s.table a.bucket i).key ≠ a.1 := hok.absent ho
  have hscan := get_path (t := t) (p := p) hrunning lastSlot fun i _ => hkeys i
  refine hscan.trans (path_access (t := t) ?_ hrunning)
  have hlast : nextSlot lastSlot = none := by decide
  simp only [access, goto_point, Function.update_self, goto_table, if_neg (hkeys lastSlot), hlast]
  simp [missing, note, goto]

/-- A put into the first free slot. -/
theorem stored_path {table' : LockTable} (hrunning : s.exited = none)
    (hput : hashPut s.table a v = some table') :
    Path step (Accesses t) (s.goto t (.put a v w firstSlot))
      ({ s with
        table := table'
        associated := Function.update s.associated a (v :: s.associated a) }.stored t a v w) := by
  obtain ⟨slots, hplace, rfl⟩ := Option.map_eq_some_iff.mp hput
  obtain ⟨k, hk, rfl⟩ := Option.map_eq_some_iff.mp hplace
  obtain ⟨hkey, hbefore⟩ := SlotArray.firstMatch_eq_some_iff.mp hk
  have hzero : (s.table a.bucket k).key = 0 := of_decide_eq_true hkey
  have hscan : Path step (Accesses t) (s.goto t (.put a v w firstSlot))
      (s.goto t (.put a v w k)) := by
    refine scan_path hrunning (fun i => .put a v w i) k fun i hi j hj => ?_
    have hused : (s.table a.bucket i).key ≠ 0 := of_decide_eq_false (hbefore i hi)
    simp only [access, goto_point, Function.update_self, goto_table, if_neg hused, tryNext, hj,
      goto_goto]
  have hfree : (s.goto t (.put a v w k)).access t = some (s.goto t (.cas a v w k)) := by
    simp [access, hzero]
  have hclaim : (s.goto t (.cas a v w k)).access t = some ({ s with
      table := s.table.set a.bucket k { s.table a.bucket k with key := a.1 } }.goto t
        (.store a v w k)) := by
    simp [access, hzero, goto]
  have hset : Function.update s.table a.bucket
      (Function.update (s.table a.bucket) k ⟨a.1, some v⟩) =
        s.table.set a.bucket k ⟨a.1, some v⟩ := rfl
  have hstore : ({ s with
      table := s.table.set a.bucket k { s.table a.bucket k with key := a.1 } }.goto t
        (.store a v w k)).access t = some ({ s with
      table := Function.update s.table a.bucket
        (Function.update (s.table a.bucket) k ⟨a.1, some v⟩)
      associated := Function.update s.associated a (v :: s.associated a) }.stored t a v w) := by
    simp only [access, goto_point, Function.update_self, goto_table, LockTable.set_self, hset,
      goto_associated]
    cases w with
    | hashPut | init => simp [stored, note, goto, LockTable.set_set]
    | use p => simp [stored, located, note, goto, LockTable.set_set]
  exact ((hscan.trans (path_access hfree hrunning)).trans (path_access hclaim hrunning)).trans
    (path_access hstore hrunning)

/-- `ht_lock_create` up to the return of its `hash_put`. -/
theorem create_path {l' : Library T} (hrunning : s.exited = none)
    (hcreate : s.library.htLockCreate a = some (l', o)) :
    ∃ s' : TableState T, Path step (Accesses t) (s.goto t (.create a w)) (s'.stored t a o w) ∧
      s'.library = l' ∧ s'.point = (s.goto t (.put a o w firstSlot)).point ∧ s'.exited = none := by
  obtain ⟨table', hput, heq⟩ := Option.map_eq_some_iff.mp hcreate
  cases heq
  have hbegin : (s.goto t (.create a w)).access t = some (({ s with
      allocated := s.allocated + 1
      owner := Function.update s.owner s.allocated none }.countCreation a.bucket).goto t
        (.put a s.allocated w firstSlot)) := by
    simp [access, goto, countCreation]
  have hstored := stored_path (t := t) (w := w) (s := ({ s with
      allocated := s.allocated + 1
      owner := Function.update s.owner s.allocated none }.countCreation a.bucket).goto t
        (.put a s.allocated w firstSlot)) hrunning hput
  rw [goto_goto] at hstored
  refine ⟨_, (path_access hbegin hrunning).trans hstored, ?_, ?_, ?_⟩
  · rfl
  · rfl
  · exact hrunning

/-- `ht_lock_get` up to its return. -/
theorem htLockGet_path {l' : Library T} (hrunning : s.exited = none) (hok : s.library.Ok)
    (hp : p ≠ .hashGet) (hget : s.library.htLockGet a = some (l', o)) :
    ∃ s' : TableState T,
      Path step (Accesses t) (s.goto t (.get a p firstSlot)) (s'.located t a o p) ∧
      s'.library = l' ∧ (∀ u, u ≠ t → s'.point u = s.point u) ∧ s'.exited = none := by
  unfold Library.htLockGet at hget
  split at hget
  · rename_i o' ho'
    cases hget
    have hfound := found_path (t := t) (p := p) hrunning ho'
    rw [found, if_neg hp] at hfound
    exact ⟨_, hfound, rfl, fun _ _ => rfl, hrunning⟩
  · rename_i hnone
    have hmissing := missing_path (t := t) (p := p) hrunning hok hnone
    rw [missing, if_neg hp] at hmissing
    obtain ⟨s', hcreate, hlibrary, hpoint, hexited⟩ := create_path (t := t) (w := .use p)
      (s := s.note (.got a (s.known t) none)) hrunning hget
    refine ⟨s'.note (.put a o 0), hmissing.trans hcreate, hlibrary, fun u hu => ?_, hexited⟩
    rw [note_point, hpoint]
    simp [hu]

/-- A call of a thread outside calls in a running process. -/
theorem step_call {c : TableCall} (hs : s.begin t c = some s') (hrunning : s.exited = none)
    (hout : s.point t = .outside) : s.step (.call t c) = some s' := by
  rw [step, if_pos hrunning, if_pos hout]
  exact hs

/-- A thread has made a call from its beginning to its return while the others rested, and the
library is as the call left it. -/
structure Returned (s : TableState T) (t : T) (c : TableCall) (l' : Library T) (s' : TableState T) :
    Prop where
  made : ∃ s₁, s.step (.call t c) = some s₁ ∧ Path step (Accesses t) s₁ s'
  library : s'.library = l'
  point : s'.point = s.point
  exited : s'.exited = none

/-- The threads make these calls one after the other. -/
inductive MakesCalls : TableState T → List (T × MutexCall) → TableState T → Prop where
  | nil (s : TableState T) : MakesCalls s [] s
  | cons {s s₁ s₂ s' : TableState T} {t : T} {c : MutexCall} {calls : List (T × MutexCall)}
      (hcall : s.step (.call t c.tableCall) = some s₁) (hpath : Path step (Accesses t) s₁ s₂)
      (hrest : MakesCalls s₂ calls s') : MakesCalls s ((t, c) :: calls) s'

/-- An operation on the lock object of an address, from the call to its return. -/
theorem operation_path {c : TableCall} {f : Library T → LockObject → Option (Library T)}
    {l' : Library T} (hrunning : s.exited = none) (hok : s.library.Ok) (hout : s.point t = .outside)
    (hp : p = .lock ∨ p = .trylock ∨ p = .unlock)
    (hbegin : s.begin t c = some ((s.enliven a).lookUp t a p))
    (hoperate : ∀ (s : TableState T) o l', f s.library o = some l' →
      ∃ s', s.operate t a o p = some s' ∧ s'.library = l' ∧
        s'.point = Function.update s.point t .outside ∧ s'.exited = s.exited ∧ s.log ⊆ s'.log)
    (hc : (s.library.withLock a f).after = some l') :
    ∃ s', Returned s t c l' s' ∧ ∀ a' o, some a = some a' →
      (s.library.withLock a f).acted = some o → .located a' o ∈ s'.log := by
  have hget : p ≠ .hashGet := by rcases hp with rfl | rfl | rfl <;> decide
  have hlocated : ∀ (s : TableState T) o,
      s.located t a o p = (s.note (.located a o)).goto t (.operate a o p) := by
    rcases hp with rfl | rfl | rfl <;> exact fun _ _ => rfl
  unfold Library.withLock at hc ⊢
  split at hc
  · rename_i l₁ o hfound
    -- the lookup begins in the state that the call leaves, with the objects it knows
    let s₀ : TableState T := { s.enliven a with
      known := Function.update s.known t (s.associated a) }
    obtain ⟨s₁, hlookup, hlibrary, hothers, hexited⟩ :=
      htLockGet_path (t := t) (s := s₀) hrunning hok hget hfound
    rw [hlocated] at hlookup
    obtain ⟨s', hs', hlibrary', hpoint', hexited', hlog'⟩ :=
      hoperate ((s₁.note (.located a o)).goto t (.operate a o p)) o l' (by
        rw [← hlibrary] at hc
        exact hc)
    have haccess : ((s₁.note (.located a o)).goto t (.operate a o p)).access t = some s' := by
      simpa [access] using hs'
    refine ⟨s', ⟨?_, hlibrary', ?_, hexited'.trans hexited⟩, fun a' o' ha' ho' => ?_⟩
    · exact ⟨_, step_call hbegin hrunning hout, hlookup.trans (path_access haccess hexited)⟩
    · rw [hpoint']
      funext u
      by_cases hu : u = t
      · rw [hu, Function.update_self, hout]
      · simp [hu, hothers u hu, s₀]
    · cases ha'
      cases ho'
      exact hlog' List.mem_cons_self
  · cases hc

/-- A call that returns, run by a thread outside calls while the others rest, takes the library
where `call` says, and an operation locates the object that it acts on. -/
theorem call_path {c : MutexCall} {l' : Library T} (hrunning : s.exited = none)
    (hok : s.library.Ok) (hout : s.point t = .outside)
    (hc : (s.library.call t c).after = some l') :
    ∃ s', Returned s t c.tableCall l' s' ∧ ∀ a o, c.operates = some a →
      (s.library.call t c).acted = some o → .located a o ∈ s'.log := by
  cases c with
  | init a =>
    cases hcreate : s.library.htLockCreate a with
    | none =>
      simp only [Library.call, Library.pthreadMutexInit, hcreate] at hc
      cases hc
    | some r =>
      obtain ⟨l₁, o⟩ := r
      simp only [Library.call, Library.pthreadMutexInit, hcreate, Option.some.injEq] at hc
      subst hc
      obtain ⟨s₁, hpath, hlibrary, hpoint, hexited⟩ :=
        create_path (t := t) (w := .init) (s := s.enliven a) hrunning hcreate
      have hbegin : s.begin t (.init a) = some ((s.enliven a).goto t (.create a .init)) := rfl
      refine ⟨s₁.stored t a o .init, ⟨⟨_, step_call hbegin hrunning hout, hpath⟩, hlibrary, ?_,
        hexited⟩, by simp [MutexCall.operates]⟩
      funext u
      by_cases hu : u = t
      · simp [stored, hu, hout]
      · simp [stored, hu, hpoint]
  | destroy a =>
    cases hc
    have hbegin : s.begin t (.destroy a) = some (s.bury a) := rfl
    exact ⟨s.bury a, ⟨⟨_, step_call hbegin hrunning hout, .refl⟩, rfl, rfl, hrunning⟩,
      by simp [MutexCall.operates]⟩
  | lock a =>
    refine operation_path (c := .lock a) hrunning hok hout (Or.inl rfl) rfl
      (fun s₁ o l' hl' => ?_) hc
    obtain ⟨hfree, heq⟩ := Option.ite_none_right_eq_some.mp hl'
    cases heq
    exact ⟨_, if_pos (Option.isNone_iff_eq_none.mp hfree), rfl, rfl, rfl, List.Subset.refl _⟩
  | trylock a =>
    refine operation_path (c := .trylock a) hrunning hok hout (Or.inr (Or.inl rfl)) rfl
      (fun s₁ o l' hl' => ?_) hc
    cases hl'
    by_cases hfree : s₁.owner o = none
    · have hnone : (s₁.library.owner o).isNone = true := Option.isNone_iff_eq_none.mpr hfree
      rw [if_pos hnone]
      exact ⟨_, if_pos hfree, rfl, rfl, rfl, List.Subset.refl _⟩
    · have hsome : ¬(s₁.library.owner o).isNone = true := mt Option.isNone_iff_eq_none.mp hfree
      rw [if_neg hsome]
      exact ⟨_, if_neg hfree, rfl, rfl, rfl, List.Subset.refl _⟩
  | unlock a =>
    refine operation_path (c := .unlock a) hrunning hok hout (Or.inr (Or.inr rfl)) rfl
      (fun s₁ o l' hl' => ?_) hc
    cases hl'
    exact ⟨_, rfl, rfl, rfl, rfl, List.subset_cons_self _ _⟩

/-- The threads can make every sequence of calls that return, and take the library where it
says. -/
theorem runCalls_path {calls : List (T × MutexCall)} {l' : Library T} (hrunning : s.exited = none)
    (hok : s.library.Ok) (hout : ∀ t, s.point t = .outside)
    (hrun : s.library.runCalls calls = some l') :
    ∃ s', MakesCalls s calls s' ∧ s'.library = l' ∧ s'.point = s.point ∧ s'.exited = none := by
  induction calls generalizing s with
  | nil =>
    cases hrun
    exact ⟨s, .nil s, rfl, rfl, hrunning⟩
  | cons c rest ih =>
    rw [Library.runCalls_cons] at hrun
    obtain ⟨l₁, hfirst, hrest⟩ := Option.bind_eq_some_iff.mp hrun
    obtain ⟨s₂, ⟨⟨s₁, hcall, hpath⟩, rfl, hpoint, hexited⟩, -⟩ :=
      call_path hrunning hok (hout c.1) hfirst
    obtain ⟨s', hmade, hlibrary', hpoint', hexited'⟩ :=
      ih hexited (hok.call hfirst).1 (fun t => by rw [hpoint]; exact hout t) hrest
    exact ⟨s', .cons hcall hpath hmade, hlibrary', hpoint'.trans hpoint, hexited'⟩

/-- In particular from the start of the process. -/
theorem runCalls_path_initial {calls : List (T × MutexCall)} {l' : Library T}
    (hrun : Library.initial.runCalls calls = some l') :
    ∃ s', MakesCalls initial calls s' ∧ s'.library = l' ∧ s'.exited = none := by
  obtain ⟨s', hmade, hlibrary, -, hexited⟩ :=
    runCalls_path (s := initial) rfl Library.ok_initial (fun _ => rfl) hrun
  exact ⟨s', hmade, hlibrary, hexited⟩

end TableState

end Htll
