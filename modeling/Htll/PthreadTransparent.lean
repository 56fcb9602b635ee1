import Htll.PthreadInterpose
import Mathlib.Data.Fintype.Card

/-!
# Where the wrapper is transparent

The program with the library is compared, event by event, with the same program without it. As
long as the codes agree, the mutex that the library finds for an address is the one of the
application, so the calls do the same to it; what the wrapper makes of the code decides whether
the application sees a difference.
-/

namespace Htll

open Posix

variable {T : Type*}

/-- The owner of a mutex of the application. -/
def ownerOf (m : Option (PosixMutex T)) : Option T := m.bind PosixMutex.owner

/-- Ten other mutexes of the bucket of an address are initialised or used. -/
def Mutexes.Crowded (ms : Mutexes T) (a : Addr) : Prop :=
  ∃ others : Finset Addr, others.card = bucketLength ∧
    ∀ a' ∈ others, a'.bucket = a.bucket ∧ ms a' ≠ none

namespace PthreadLibrary

/-- The library has the mutexes of the application, each in a slot of its own. -/
structure Agrees (ms : Mutexes T) (l : PthreadLibrary T) : Prop where
  ok : Library.Ok (⟨l.table, fun _ => none, l.allocated⟩ : Library T)
  keyed : ∀ b i, (l.table b i).key ≠ 0 →
    ∃ a : Addr, a.1 = (l.table b i).key ∧ a.bucket = b ∧ ms a ≠ none
  single : ∀ b i j, (l.table b i).key ≠ 0 → (l.table b i).key = (l.table b j).key → i = j
  found : ∀ a, ms a ≠ none → hashGet l.table a ≠ none
  same : ∀ a o, hashGet l.table a = some o → l.lock o = ms a
  distinct : ∀ a a' o, hashGet l.table a = some o → hashGet l.table a' = some o → a = a'

variable {ms : Mutexes T} {l l' : PthreadLibrary T} {a : Addr} {o : LockObject} {m : PosixMutex T}
  {code initCode : Code}

/-- Nothing is in the empty table. -/
theorem agrees_initial : Agrees (fun _ => none) (initial : PthreadLibrary T) where
  ok := Library.ok_initial
  keyed _ _ hkey := absurd rfl hkey
  single _ _ _ hkey := absurd rfl hkey
  found _ ha := absurd rfl ha
  same a o ho := by
    obtain ⟨i, hi⟩ := Library.hashGet_eq_some ho
    exact absurd (congrArg Slot.key hi).symm a.2
  distinct a _ o ho := by
    obtain ⟨i, hi⟩ := Library.hashGet_eq_some ho
    exact absurd (congrArg Slot.key hi).symm a.2

/-- Only what is initialised is found. -/
theorem Agrees.used (h : Agrees ms l) (ho : hashGet l.table a = some o) : ms a ≠ none := by
  obtain ⟨i, hi⟩ := Library.hashGet_eq_some ho
  obtain ⟨a', ha', -, hused⟩ := h.keyed a.bucket i (by rw [hi]; exact a.2)
  rw [hi] at ha'
  obtain rfl : a' = a := Subtype.ext ha'
  exact hused

/-- Calls on an address act on the mutex of the application. -/
theorem Agrees.mutexAt (h : Agrees ms l) (a : Addr) : l.mutexAt a = ms a := by
  unfold PthreadLibrary.mutexAt
  cases ho : hashGet l.table a with
  | some o => exact h.same a o ho
  | none =>
    by_contra hne
    exact h.found a (fun hnone => hne hnone.symm) ho

/-- What is not initialised is not found. -/
theorem Agrees.hashGet_none (h : Agrees ms l) (ha : ms a = none) : hashGet l.table a = none := by
  cases ho : hashGet l.table a with
  | none => rfl
  | some o => exact absurd ha (h.used ho)

/-- A bucket is full when ten mutexes of it are in use. -/
theorem Agrees.hashPut_none_iff (h : Agrees ms l) (v : LockObject) :
    hashPut l.table a v = none ↔ ms.Crowded a := by
  have hfull : hashPut l.table a v = none ↔ ∀ i, (l.table a.bucket i).key ≠ 0 := by
    simp [hashPut, SlotArray.place, SlotArray.firstMatch_eq_none_iff]
  rw [hfull]
  constructor
  · intro hkeys
    choose addr hkey hbucket hused using fun i => h.keyed a.bucket i (hkeys i)
    have hinj : Function.Injective addr := by
      intro i j hij
      refine h.single a.bucket i j (hkeys i) ?_
      rw [← hkey i, ← hkey j, hij]
    refine ⟨Finset.univ.map ⟨addr, hinj⟩, ?_, fun a' ha' => ?_⟩
    · rw [Finset.card_map, Finset.card_univ, Fintype.card_fin]
    obtain ⟨i, -, rfl⟩ := Finset.mem_map.mp ha'
    exact ⟨hbucket i, hused i⟩
  · rintro ⟨others, hcard, hothers⟩
    have hslot : ∀ a' : others, ∃ i, (l.table a.bucket i).key = a'.1.1 := by
      intro a'
      obtain ⟨hbucket, hused⟩ := hothers a'.1 a'.2
      obtain ⟨o, ho⟩ := Option.ne_none_iff_exists'.mp (h.found a'.1 hused)
      obtain ⟨i, hi⟩ := Library.hashGet_eq_some ho
      exact ⟨i, by rw [← hbucket, hi]⟩
    choose slot hslot using hslot
    have hinj : Function.Injective slot := by
      intro a' a'' heq
      refine Subtype.ext (Subtype.ext ?_)
      rw [← hslot a', ← hslot a'', heq]
    -- ten addresses with a slot each take all slots of the bucket
    have hsurj : Function.Surjective slot :=
      ((Fintype.bijective_iff_injective_and_card slot).mpr
        ⟨hinj, by rw [Fintype.card_coe, hcard, Fintype.card_fin]⟩).2
    intro i
    obtain ⟨a', rfl⟩ := hsurj i
    rw [hslot a']
    exact a'.1.2

/-- A new object is found for its address, and nothing else changes. -/
theorem Agrees.hashGet_put (h : Agrees ms l) {table : LockTable} (ha : ms a = none)
    (hput : hashPut l.table a l.allocated = some table) (a' : Addr) :
    hashGet table a' = if a = a' then some l.allocated else hashGet l.table a' := by
  rw [h.ok.hashGet_hashPut hput]
  split
  · rename_i heq
    rw [← heq, h.hashGet_none ha, Option.none_or]
  · exact Option.or_none

/-- An object that is found is not a new one. -/
theorem Agrees.ne_allocated (h : Agrees ms l) (ho : hashGet l.table a = some o) :
    o ≠ l.allocated := (h.ok.hashGet_lt ho).ne

/-- What is not initialised has no slot. -/
theorem Agrees.fresh (h : Agrees ms l) (ha : ms a = none) (b : Fin bucketSize)
    (i : Fin bucketLength) : (l.table b i).key ≠ a.1 := by
  intro hkey
  obtain ⟨a', ha', -, hused⟩ := h.keyed b i (by rw [hkey]; exact a.2)
  obtain rfl : a' = a := Subtype.ext (ha'.trans hkey)
  exact hused ha

/-- Beside the slot of a new object all used slots are of mutexes in use. -/
theorem Agrees.keyed_put (h : Agrees ms l) {table : LockTable} (ha : ms a = none)
    (hput : hashPut l.table a o = some table) (m : PosixMutex T) {b : Fin bucketSize}
    {i : Fin bucketLength} (hkey : (table b i).key ≠ 0) :
    ∃ a' : Addr, a'.1 = (table b i).key ∧ a'.bucket = b ∧
      Function.update ms a (some m) a' ≠ none := by
  obtain ⟨k, rfl⟩ := Library.hashPut_eq_some hput
  rcases l.table.set_cases a.bucket k ⟨a.1, some o⟩ b i with ⟨rfl, rfl, hnew⟩ | ⟨-, hsame⟩
  · exact ⟨a, (congrArg Slot.key hnew).symm, rfl, by simp⟩
  · rw [hsame] at hkey ⊢
    obtain ⟨a', ha', hbucket, hused⟩ := h.keyed b i hkey
    have hne : a' ≠ a := fun heq => hused (heq ▸ ha)
    exact ⟨a', ha', hbucket, by rwa [Function.update_of_ne hne]⟩

/-- The slot of a new object is the only one with its address. -/
theorem Agrees.single_put (h : Agrees ms l) {table : LockTable} (ha : ms a = none)
    (hput : hashPut l.table a o = some table) {b : Fin bucketSize} {i j : Fin bucketLength}
    (hkey : (table b i).key ≠ 0) (heq : (table b i).key = (table b j).key) : i = j := by
  obtain ⟨k, rfl⟩ := Library.hashPut_eq_some hput
  have hslot := l.table.set_cases a.bucket k ⟨a.1, some o⟩
  rcases hslot b i with ⟨-, hi, hnew⟩ | ⟨-, hsame⟩ <;>
    rcases hslot b j with ⟨-, hj, hnew'⟩ | ⟨-, hsame'⟩
  · rw [hi, hj]
  · rw [hnew, hsame'] at heq
    exact absurd heq.symm (h.fresh ha b j)
  · rw [hsame, hnew'] at heq
    exact absurd heq (h.fresh ha b i)
  · rw [hsame, hsame'] at heq
    rw [hsame] at hkey
    exact h.single b i j hkey heq

/-- The first call on a mutex creates its object. -/
theorem Agrees.create (h : Agrees ms l) {table : LockTable} (ha : ms a = none)
    (hput : hashPut l.table a l.allocated = some table) (m : PosixMutex T) :
    Agrees (Function.update ms a (some m))
      ⟨table, Function.update l.lock l.allocated (some m), l.allocated + 1⟩ where
  ok := h.ok.put hput fun _ => none
  keyed b i hkey := h.keyed_put ha hput m hkey
  single b i j hkey heq := h.single_put ha hput hkey heq
  found a' hused := by
    rw [h.hashGet_put ha hput a']
    split
    · exact Option.some_ne_none _
    · rename_i hne
      rw [Function.update_of_ne (Ne.symm hne)] at hused
      exact h.found a' hused
  same a' o ho := by
    dsimp only at ho ⊢
    rw [h.hashGet_put ha hput a'] at ho
    split at ho
    · rename_i heq
      cases ho
      rw [← heq, Function.update_self, Function.update_self]
    · rename_i hne
      rw [Function.update_of_ne (h.ne_allocated ho), Function.update_of_ne (Ne.symm hne),
        h.same a' o ho]
  distinct a' a'' o ho ho' := by
    rw [h.hashGet_put ha hput] at ho ho'
    split at ho <;> split at ho'
    · rename_i heq heq'
      rw [← heq, ← heq']
    · cases ho
      exact absurd rfl (h.ne_allocated ho')
    · cases ho'
      exact absurd rfl (h.ne_allocated ho)
    · exact h.distinct a' a'' o ho ho'

/-- A call changes the mutex of its address. -/
theorem Agrees.setLock (h : Agrees ms l) (ho : hashGet l.table a = some o) (m : PosixMutex T) :
    Agrees (Function.update ms a (some m)) (l.setLock o (some m)) := by
  have hupdate : ∀ a', ms a' ≠ none ↔ Function.update ms a (some m) a' ≠ none := by
    intro a'
    by_cases ha : a' = a
    · subst ha
      simpa using h.used ho
    · rw [Function.update_of_ne ha]
  refine ⟨⟨h.ok.packed, h.ok.filled⟩, fun b i hkey => ?_, h.single,
    fun a' hused => h.found a' ((hupdate a').mpr hused), fun a' o' ho' => ?_, h.distinct⟩
  · obtain ⟨a', ha', hbucket, hused⟩ := h.keyed b i hkey
    exact ⟨a', ha', hbucket, (hupdate a').mp hused⟩
  · simp only [PthreadLibrary.setLock] at ho' ⊢
    by_cases ha : a' = a
    · subst ha
      rw [ho] at ho'
      cases ho'
      rw [Function.update_self, Function.update_self]
    · have hne : o' ≠ o := by
        rintro rfl
        exact ha (h.distinct a' a o' ho' ho)
      rw [Function.update_of_ne ha, Function.update_of_ne hne, h.same a' o' ho']

/-! ## Calls -/

/-- A mutex that finds room and is initialised becomes the one of the application. -/
theorem Agrees.htLockCreate (h : Agrees ms l) (ha : ms a = none) (hroom : ¬ms.Crowded a)
    (attr : Option Attr) :
    ∃ l' o, l.htLockCreate a attr .success = some (l', o) ∧ hashGet l'.table a = some o ∧
      Agrees (Function.update ms a (some (.new (attr.getD defaultAttr)))) l' := by
  obtain ⟨table, hput⟩ :=
    Option.ne_none_iff_exists'.mp (mt (h.hashPut_none_iff l.allocated).mp hroom)
  refine ⟨⟨table, _, _⟩, l.allocated, ?_, ?_, h.create ha hput _⟩
  · rw [htLockCreate_eq, hput, if_pos rfl]
    rfl
  · rw [h.hashGet_put ha hput, if_pos rfl]

/-- A lookup finds the mutex of the application, or creates it. -/
theorem Agrees.htLockGet (h : Agrees ms l)
    (hfirst : ms a = none → initCode = .success ∧ ¬ms.Crowded a) :
    ∃ l' o, l.htLockGet a initCode = some (l', o) ∧ hashGet l'.table a = some o ∧
      Agrees (Function.update ms a (some (ms.get a))) l' := by
  unfold PthreadLibrary.htLockGet
  cases hm : ms a with
  | none =>
    obtain ⟨rfl, hroom⟩ := hfirst hm
    rw [h.hashGet_none hm, Mutexes.get, hm]
    exact h.htLockCreate hm hroom none
  | some m =>
    obtain ⟨o, ho⟩ := Option.ne_none_iff_exists'.mp (h.found a (by simp [hm]))
    have hsame : Function.update ms a (some (ms.get a)) = ms := by
      rw [Mutexes.get, hm, Option.getD_some, ← hm, Function.update_eq_self]
    rw [ho, hsame]
    exact ⟨l, o, rfl, ho, h⟩

section Fold

variable {f : PosixMutex T → Answer (PosixMutex T)}
  (fold : Code → PthreadLibrary T → Reply (PthreadLibrary T))

/-- A call on the mutex of an address that returns. -/
theorem Agrees.returned (h : Agrees ms l)
    (hfirst : ms a = none → initCode = .success ∧ ¬ms.Crowded a)
    (hf : f (ms.get a) = .returned code m) :
    ∃ l', l.withLock a initCode (fun l' o => l'.withMutex o f fold) = fold code l' ∧
      Agrees (Function.update ms a (some m)) l' := by
  obtain ⟨l', o, hget, ho, h'⟩ := h.htLockGet hfirst
  have hlock : l'.lock o = some (ms.get a) := by
    rw [h'.same a o ho, Function.update_self]
  refine ⟨l'.setLock o (some m), ?_, ?_⟩
  · simp only [PthreadLibrary.withLock, hget, withMutex, hlock, hf]
  · simpa using h'.setLock ho m

/-- A call on the mutex of an address that blocks. -/
theorem Agrees.blocks (h : Agrees ms l)
    (hfirst : ms a = none → initCode = .success ∧ ¬ms.Crowded a)
    (hf : f (ms.get a) = .blocks) :
    l.withLock a initCode (fun l' o => l'.withMutex o f fold) = .blocks := by
  obtain ⟨l', o, hget, ho, h'⟩ := h.htLockGet hfirst
  have hlock : l'.lock o = some (ms.get a) := by
    rw [h'.same a o ho, Function.update_self]
  simp only [PthreadLibrary.withLock, hget, withMutex, hlock, hf]

/-- A first call that finds no room or does not initialise its mutex does not return. -/
theorem Agrees.first_returned (h : Agrees ms l)
    (hreturned : l.withLock a initCode (fun l' o => l'.withMutex o f fold) = .returned code l') :
    ms a = none → initCode = .success ∧ ¬ms.Crowded a := by
  intro ha
  simp only [PthreadLibrary.withLock, PthreadLibrary.htLockGet, h.hashGet_none ha,
    htLockCreate_eq] at hreturned
  cases hput : hashPut l.table a l.allocated with
  | none =>
    rw [hput] at hreturned
    cases hreturned
  | some table =>
    refine ⟨?_, fun hcrowded => ?_⟩
    · by_contra hcode
      simp [hput, withMutex, hcode] at hreturned
    · rw [(h.hashPut_none_iff _).mpr hcrowded] at hput
      cases hput

/-- A call on the mutex of an address that returns without the library, where the wrapper passes
the code on exactly under a condition. -/
theorem Agrees.passes (h : Agrees ms l) {ok : Prop} (hf : f (ms.get a) = .returned code m)
    (hfold : ∀ l₁ l₂, fold code l₁ = .returned code l₂ ↔ ok ∧ l₁ = l₂)
    {r : Reply (PthreadLibrary T)}
    (hr : r = l.withLock a initCode fun l' o => l'.withMutex o f fold) :
    ((ms a = none → initCode = .success ∧ ¬ms.Crowded a) ∧ ok →
      ∃ l', r = .returned code l' ∧ Agrees (Function.update ms a (some m)) l') ∧
    ∀ l', r = .returned code l' → (ms a = none → initCode = .success ∧ ¬ms.Crowded a) ∧ ok := by
  subst hr
  constructor
  · rintro ⟨hfirst, hok⟩
    obtain ⟨l', hreply, h'⟩ := h.returned fold hfirst hf
    exact ⟨l', hreply.trans ((hfold l' l').mpr ⟨hok, rfl⟩), h'⟩
  · intro l' hreturned
    have hfirst := h.first_returned fold hreturned
    obtain ⟨l'', hreply, -⟩ := h.returned fold hfirst hf
    exact ⟨hfirst, ((hfold l'' l').mp (hreply.symm.trans hreturned)).1⟩

end Fold

end PthreadLibrary

/-! ## The condition -/

variable [DecidableEq T]

/-- The condition under which the wrapper does what the mutex does: the first call on a mutex
finds room and initialises it, a lock finds no error, a lock without blocking at most that the
mutex is busy, and an unlock is one of the owner. -/
def Mutexes.Faithful (limit : ℕ) (ms : Mutexes T) : PthreadEvent T → Prop
  | .call t a c initCode =>
    (ms a = none → initCode = .success ∧ ¬ms.Crowded a) ∧
      match c with
      | .init _ => True
      | .lock => (ms.get a).broken = false ∧ (ms.get a).exhausted limit t = false ∧
          ¬((ms.get a).attr.kind = .errorcheck ∧ (ms.get a).owner = some t)
      | .trylock => (ms.get a).broken = false ∧ (ms.get a).exhausted limit t = false
      | .unlock => (ms.get a).owner = some t
  | .terminated _ => True

/-- Every event of a program whose behaviour is specified meets the condition. -/
def AllFaithful (limit : ℕ) : Mutexes T → List (PthreadEvent T) → Prop
  | _, [] => True
  | ms, e :: rest =>
    match real limit ms e with
    | .undefined => True
    | .blocks => AllFaithful limit ms rest
    | .returned _ ms' => ms.Faithful limit e ∧ AllFaithful limit ms' rest

namespace PthreadLibrary

/-- Every event of a program whose behaviour is specified returns the same code and leaves the
same owners with the library as without it, or blocks in both; and a lock without blocking that
returns 0 leaves its caller as the owner. -/
def Transparent (limit : ℕ) : Mutexes T → PthreadLibrary T → List (PthreadEvent T) → Prop
  | _, _, [] => True
  | ms, l, e :: rest =>
    match real limit ms e with
    | .undefined => True
    | .blocks => l.interposed limit e = .blocks ∧ Transparent limit ms l rest
    | .returned code ms' =>
      ∃ l', l.interposed limit e = .returned code l' ∧
        (∀ a, ownerOf (l'.mutexAt a) = ownerOf (ms' a)) ∧
        (∀ t a initCode, e = .call t a .trylock initCode → code = .success →
          ownerOf (l'.mutexAt a) = some t) ∧
        Transparent limit ms' l' rest

variable {limit : ℕ} {ms ms' : Mutexes T} {l l' : PthreadLibrary T} {t : T} {a : Addr}
  {code initCode : Code}

/-- A thread terminates. -/
theorem Agrees.terminate (h : Agrees ms l) (t : T) :
    Agrees (fun a => (ms a).map fun m => m.terminate t)
      { l with lock := fun o => (l.lock o).map fun m => m.terminate t } := by
  have hmap : ∀ a, ms a ≠ none ↔ ((ms a).map fun m => m.terminate t) ≠ none := fun a => by simp
  refine ⟨⟨h.ok.packed, h.ok.filled⟩, fun b i hkey => ?_, h.single,
    fun a hused => h.found a ((hmap a).mpr hused), fun a o ho => ?_, h.distinct⟩
  · obtain ⟨a, ha, hbucket, hused⟩ := h.keyed b i hkey
    exact ⟨a, ha, hbucket, (hmap a).mp hused⟩
  · dsimp only
    rw [h.same a o ho]

/-- A call on a mutex that returns without the library returns the same with it exactly if it
meets the condition, and then leaves the same mutexes. -/
theorem Agrees.call (h : Agrees ms l) {c : PthreadCall}
    (hreal : realCall limit ms t a initCode c = .returned code ms') :
    (ms.Faithful limit (.call t a c initCode) →
      ∃ l', l.interposedCall limit t a initCode c = .returned code l' ∧ Agrees ms' l') ∧
    ∀ l', l.interposedCall limit t a initCode c = .returned code l' →
      ms.Faithful limit (.call t a c initCode) := by
  cases c with
  | init attr =>
    simp only [realCall] at hreal
    split at hreal
    · rename_i ha
      cases hreal
      refine ⟨?_, fun l' hreturned => ⟨fun _ => ?_, trivial⟩⟩
      · rintro ⟨hfirst, -⟩
        obtain ⟨rfl, hroom⟩ := hfirst ha
        obtain ⟨l', o, hcreate, -, h'⟩ := h.htLockCreate ha hroom attr
        refine ⟨l', ?_, ?_⟩
        · simp only [interposedCall, pthreadMutexInit, hcreate]
        · rwa [if_pos rfl]
      · simp only [interposedCall, pthreadMutexInit, htLockCreate_eq] at hreturned
        cases hput : hashPut l.table a l.allocated with
        | none =>
          rw [hput] at hreturned
          cases hreturned
        | some table =>
          rw [hput] at hreturned
          cases hreturned
          refine ⟨rfl, fun hcrowded => ?_⟩
          rw [(h.hashPut_none_iff _).mpr hcrowded] at hput
          cases hput
    · cases hreal
  | lock =>
    obtain ⟨m, hlock, rfl⟩ := Answer.map_eq_returned.mp hreal
    refine h.passes _ hlock (fun l₁ l₂ => ?_) rfl
    rw [← PosixMutex.lock_success_iff hlock]
    split <;> simp_all
  | trylock =>
    obtain ⟨m, htrylock, rfl⟩ := Answer.map_eq_returned.mp hreal
    refine h.passes _ htrylock (fun l₁ l₂ => ?_) rfl
    rw [← PosixMutex.trylock_success_iff htrylock]
    split <;> simp_all [eq_comm]
  | unlock =>
    obtain ⟨m, hunlock, rfl⟩ := Answer.map_eq_returned.mp hreal
    refine h.passes _ hunlock (fun l₁ l₂ => ?_) rfl
    rw [← PosixMutex.unlock_success_iff hunlock, Reply.returned.injEq, eq_comm (a := code)]

/-- A call that blocks without the library blocks with it. -/
theorem Agrees.call_blocks (h : Agrees ms l) {c : PthreadCall}
    (hreal : realCall limit ms t a initCode c = .blocks) :
    l.interposedCall limit t a initCode c = .blocks := by
  cases c with
  | init attr =>
    simp only [realCall] at hreal
    split at hreal <;> cases hreal
  | lock =>
    have hlock := Answer.map_eq_blocks.mp hreal
    refine h.blocks _ (fun ha => ?_) hlock
    rw [Mutexes.get, ha] at hlock
    cases hlock
  | trylock => exact absurd (Answer.map_eq_blocks.mp hreal) PosixMutex.trylock_ne_blocks
  | unlock => exact absurd (Answer.map_eq_blocks.mp hreal) PosixMutex.unlock_ne_blocks

/-- A lock without blocking that returns 0 makes the caller the owner. -/
theorem owner_of_trylock (initCode : Code)
    (hreal : realCall limit ms t a initCode .trylock = .returned .success ms') :
    ownerOf (ms' a) = some t := by
  obtain ⟨m, htrylock, rfl⟩ := Answer.map_eq_returned.mp hreal
  rw [Function.update_self]
  exact PosixMutex.owner_of_trylock htrylock

/-- Along every program the wrapper is transparent exactly if every event meets the condition. -/
theorem Agrees.transparent_iff (h : Agrees ms l) (events : List (PthreadEvent T)) :
    Transparent limit ms l events ↔ AllFaithful limit ms events := by
  induction events generalizing ms l with
  | nil => exact Iff.rfl
  | cons e rest ih =>
    unfold Transparent AllFaithful
    cases hreal : real limit ms e with
    | undefined => exact Iff.rfl
    | blocks =>
      cases e with
      | call t a c initCode =>
        have hblocks : l.interposed limit (.call t a c initCode) = .blocks := h.call_blocks hreal
        simp only [hblocks, true_and]
        exact ih h
      | terminated t => cases hreal
    | returned code ms' =>
      cases e with
      | call t a c initCode =>
        obtain ⟨hdoes, hneeds⟩ := h.call hreal
        constructor
        · rintro ⟨l', hreturned, howners, -, hrest⟩
          have hok := hneeds l' hreturned
          obtain ⟨l'', hreturned', h'⟩ := hdoes hok
          have hsame := hreturned.symm.trans hreturned'
          cases hsame
          exact ⟨hok, (ih h').mp hrest⟩
        · rintro ⟨hok, hrest⟩
          obtain ⟨l', hreturned, h'⟩ := hdoes hok
          refine ⟨l', hreturned, fun a' => by rw [h'.mutexAt], ?_, (ih h').mpr hrest⟩
          rintro u b r heq rfl
          cases heq
          rw [h'.mutexAt]
          exact owner_of_trylock initCode hreal
      | terminated t =>
        cases hreal
        have h' := h.terminate t
        constructor
        · rintro ⟨l', hreturned, -, -, hrest⟩
          cases hreturned
          exact ⟨trivial, (ih h').mp hrest⟩
        · rintro ⟨-, hrest⟩
          exact ⟨_, rfl, fun a => by rw [h'.mutexAt], by simp, (ih h').mpr hrest⟩

/-- For every program, with mutexes of every kind: each call returns the same code and leaves the
same owners with the library as without it, and a lock without blocking returns 0 only to the
owner, if and only if every call up to the first of unspecified behaviour meets the condition. -/
theorem wrapper_transparent_iff (limit : ℕ) (events : List (PthreadEvent T)) :
    Transparent limit (fun _ => none) initial events ↔
      AllFaithful limit (fun _ => none) events :=
  agrees_initial.transparent_iff events

/-- The owner of a robust mutex terminates, and another thread, which is not told so, unlocks it
without having made it consistent. -/
def deadOwner : List (PthreadEvent (Fin 3)) :=
  [.call 0 reusedMutex (.init (some ⟨.normal, true⟩)) .success,
    .call 0 reusedMutex .lock .success, .terminated 0,
    .call 1 reusedMutex .trylock .success, .call 1 reusedMutex .unlock .success]

/-- The wrapper is not transparent where the owner of a robust mutex has terminated; afterwards a
lock without blocking returns 0 although nobody owns the mutex. -/
theorem trylock_returns_without_owner :
    ¬Transparent 1 (fun _ => none) initial deadOwner ∧
    ∃ l l' : PthreadLibrary (Fin 3), initial.runEvents 1 deadOwner = some l ∧
      l.interposed 1 (.call 2 reusedMutex .trylock .success) = .returned .success l' ∧
      ownerOf (l'.mutexAt reusedMutex) = none := by
  constructor
  · rw [agrees_initial.transparent_iff]
    rintro ⟨-, -, -, ⟨-, hbroken, -⟩, -⟩
    revert hbroken
    decide
  · have hrun : ((initial.runEvents 1 deadOwner).any fun l =>
        (l.interposed 1 (.call 2 reusedMutex .trylock .success)).result.any fun r =>
          r.1 = .success ∧ ownerOf (r.2.mutexAt reusedMutex) = none) = true := by decide +kernel
    obtain ⟨l, hl, hlast⟩ := (Option.any_eq_true _ _).mp hrun
    obtain ⟨⟨code, l'⟩, hresult, hr⟩ := (Option.any_eq_true _ _).mp hlast
    obtain ⟨rfl, hnobody⟩ := of_decide_eq_true hr
    exact ⟨l, l', hl, Reply.result_eq_some.mp hresult, hnobody⟩

end PthreadLibrary

end Htll
