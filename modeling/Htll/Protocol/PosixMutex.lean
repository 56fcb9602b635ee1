import Mathlib.Data.Nat.Notation
import Mathlib.Logic.Basic

/-!
# POSIX mutexes

A mutex is of one of four kinds and robust or not. It is free, held by a thread that has locked it
once and then some number of times again, left behind by an owner that has terminated, or not
recoverable. A call returns a code, blocks, or has no specified behaviour.
-/

namespace Posix

/-- The kinds of a mutex. -/
inductive Kind where
  | normal
  | errorcheck
  | recursive
  | default
  deriving DecidableEq

/-- The attributes of a mutex. -/
structure Attr where
  kind : Kind
  robust : Bool
  deriving DecidableEq

/-- The attributes of a mutex that is initialised without any. -/
def defaultAttr : Attr := ⟨.default, false⟩

/-- What a call returns. -/
inductive Code where
  | success
  | eperm
  | eagain
  | enomem
  | ebusy
  | einval
  | edeadlk
  | eownerdead
  | enotrecoverable
  deriving DecidableEq

/-- Who holds a mutex. -/
inductive Holding (T : Type*) where
  | free
  /-- Held by a thread that has locked it `again` times after the first; what the mutex protects
  may be inconsistent since an earlier owner terminated. -/
  | held (t : T) (again : ℕ) (consistent : Bool)
  /-- The owner of a robust mutex has terminated. -/
  | ownerDead
  /-- Unlocked without having been made consistent. -/
  | notRecoverable
  deriving DecidableEq

/-- A mutex. -/
structure PosixMutex (T : Type*) where
  attr : Attr
  holding : Holding T
  deriving DecidableEq

/-- What a call does. -/
inductive Answer (S : Type*) where
  | returned (code : Code) (after : S)
  | blocks
  | undefined

/-- The outcome with another view of the state. -/
def Answer.map {S S' : Type*} (f : S → S') : Answer S → Answer S'
  | .returned code s => .returned code (f s)
  | .blocks => .blocks
  | .undefined => .undefined

/-- A call whose state is viewed in another way returns the view of what it returned. -/
theorem Answer.map_eq_returned {S S' : Type*} {f : S → S'} {x : Answer S} {code : Code}
    {s' : S'} : x.map f = .returned code s' ↔ ∃ s, x = .returned code s ∧ f s = s' := by
  cases x <;> simp [Answer.map, and_assoc]

/-- It blocks if the call blocks. -/
theorem Answer.map_eq_blocks {S S' : Type*} {f : S → S'} {x : Answer S} :
    x.map f = .blocks ↔ x = .blocks := by
  cases x <;> simp [Answer.map]

namespace PosixMutex

variable {T : Type*}

/-- A mutex after its initialisation. -/
def new (attr : Attr) : PosixMutex T := ⟨attr, .free⟩

/-- The owner, if there is one. -/
def owner (m : PosixMutex T) : Option T :=
  match m.holding with
  | .held t .. => some t
  | .free | .ownerDead | .notRecoverable => none

/-- The owner has terminated, at some time or in a way that cannot be made good. -/
def broken (m : PosixMutex T) : Bool :=
  match m.holding with
  | .ownerDead | .notRecoverable => true
  | .free | .held .. => false

variable [DecidableEq T]

/-- The owner of a recursive mutex locks it again, at most `limit` times. -/
def lockAgain (limit : ℕ) (m : PosixMutex T) (t : T) (again : ℕ) (consistent : Bool) :
    Answer (PosixMutex T) :=
  if again < limit then .returned .success { m with holding := .held t (again + 1) consistent }
  else .returned .eagain m

/-- Lock. -/
def lock (limit : ℕ) (m : PosixMutex T) (t : T) : Answer (PosixMutex T) :=
  match m.holding with
  | .free => .returned .success { m with holding := .held t 0 true }
  | .held u again consistent =>
    if u = t then
      match m.attr.kind with
      | .normal => .blocks
      | .errorcheck => .returned .edeadlk m
      | .recursive => m.lockAgain limit t again consistent
      | .default => .undefined
    else .blocks
  | .ownerDead => .returned .eownerdead { m with holding := .held t 0 false }
  | .notRecoverable => .returned .enotrecoverable m

/-- Lock without blocking. -/
def trylock (limit : ℕ) (m : PosixMutex T) (t : T) : Answer (PosixMutex T) :=
  match m.holding with
  | .free => .returned .success { m with holding := .held t 0 true }
  | .held u again consistent =>
    if u = t ∧ m.attr.kind = .recursive then m.lockAgain limit t again consistent
    else .returned .ebusy m
  | .ownerDead => .returned .eownerdead { m with holding := .held t 0 false }
  | .notRecoverable => .returned .enotrecoverable m

/-- A thread unlocks a mutex that it does not own. -/
def unlockOther (m : PosixMutex T) : Answer (PosixMutex T) :=
  if m.attr.robust = true ∨ m.attr.kind = .errorcheck ∨ m.attr.kind = .recursive then
    .returned .eperm m
  else .undefined

/-- Unlock. -/
def unlock (m : PosixMutex T) (t : T) : Answer (PosixMutex T) :=
  match m.holding with
  | .held u again consistent =>
    if u = t then
      match again with
      | 0 =>
        .returned .success { m with holding := if consistent then .free else .notRecoverable }
      | again + 1 => .returned .success { m with holding := .held t again consistent }
    else m.unlockOther
  | .free | .ownerDead | .notRecoverable => m.unlockOther

/-- A thread terminates. -/
def terminate (m : PosixMutex T) (t : T) : PosixMutex T :=
  match m.holding with
  | .held u .. => if u = t ∧ m.attr.robust = true then { m with holding := .ownerDead } else m
  | .free | .ownerDead | .notRecoverable => m

/-- The thread owns the recursive mutex and cannot lock it once more. -/
def exhausted (limit : ℕ) (m : PosixMutex T) (t : T) : Bool :=
  match m.holding with
  | .held u again _ => u = t ∧ m.attr.kind = .recursive ∧ limit ≤ again
  | .free | .ownerDead | .notRecoverable => false

/-! ## Codes -/

variable {limit : ℕ} {m m' : PosixMutex T} {t : T} {code : Code}

omit [DecidableEq T] in
/-- Locking again succeeds below the limit. -/
theorem lockAgain_success_iff {again : ℕ} {consistent : Bool}
    (h : m.lockAgain limit t again consistent = .returned code m') :
    (code = .success ∨ code = .ebusy ↔ again < limit) ∧ (code = .success ↔ again < limit) := by
  unfold lockAgain at h
  split at h <;> cases h <;> simp_all

/-- A lock that returns succeeds unless the mutex is broken or exhausted or checks an error. -/
theorem lock_success_iff (h : m.lock limit t = .returned code m') :
    code = .success ↔ m.broken = false ∧ m.exhausted limit t = false ∧
      ¬(m.attr.kind = .errorcheck ∧ m.owner = some t) := by
  cases hm : m.holding with
  | free =>
    simp only [lock, hm] at h
    cases h
    simp [broken, exhausted, owner, hm]
  | held u again consistent =>
    simp only [lock, hm] at h
    split at h
    · rename_i hu
      subst hu
      cases hkind : m.attr.kind with
      | normal | default =>
        simp only [hkind] at h
        cases h
      | errorcheck =>
        simp only [hkind] at h
        cases h
        simp [owner, hm]
      | recursive =>
        simp only [hkind] at h
        rw [(lockAgain_success_iff h).2]
        simp [broken, exhausted, hm, hkind]
    · cases h
  | ownerDead | notRecoverable =>
    simp only [lock, hm] at h
    cases h
    simp [broken, hm]

/-- A lock without blocking succeeds or finds the mutex busy unless it is broken or exhausted. -/
theorem trylock_success_iff (h : m.trylock limit t = .returned code m') :
    code = .success ∨ code = .ebusy ↔ m.broken = false ∧ m.exhausted limit t = false := by
  cases hm : m.holding with
  | free =>
    simp only [trylock, hm] at h
    cases h
    simp [broken, exhausted, hm]
  | held u again consistent =>
    simp only [trylock, hm] at h
    split at h
    · rename_i hu
      rw [(lockAgain_success_iff h).1]
      simp [broken, exhausted, hm, hu]
    · rename_i hu
      cases h
      simp only [broken, exhausted, hm]
      simpa using fun hut hkind => absurd ⟨hut, hkind⟩ hu
  | ownerDead | notRecoverable =>
    simp only [trylock, hm] at h
    cases h
    simp [broken, hm]

omit [DecidableEq T] in
/-- An unlock by another thread does not succeed. -/
theorem unlockOther_ne_success (h : m.unlockOther = .returned code m') : code ≠ .success := by
  unfold unlockOther at h
  split at h <;> cases h
  simp

/-- An unlock that returns succeeds exactly for the owner. -/
theorem unlock_success_iff (h : m.unlock t = .returned code m') :
    code = .success ↔ m.owner = some t := by
  cases hm : m.holding with
  | held u again consistent =>
    simp only [unlock, hm] at h
    split at h
    · rename_i hu
      cases again <;> cases h <;> simp [owner, hm, hu]
    · rename_i hu
      simp [unlockOther_ne_success h, owner, hm, hu]
  | free | ownerDead | notRecoverable =>
    simp only [unlock, hm] at h
    simp [unlockOther_ne_success h, owner, hm]

/-- A lock without blocking does not block. -/
theorem trylock_ne_blocks : m.trylock limit t ≠ .blocks := by
  unfold trylock lockAgain
  repeat' split
  all_goals simp

/-- An unlock does not block. -/
theorem unlock_ne_blocks : m.unlock t ≠ .blocks := by
  unfold unlock unlockOther
  repeat' split
  all_goals simp

/-- Who locks without blocking and succeeds owns the mutex. -/
theorem owner_of_trylock (h : m.trylock limit t = .returned .success m') : m'.owner = some t := by
  cases hm : m.holding with
  | free =>
    simp only [trylock, hm] at h
    cases h
    rfl
  | held u again consistent =>
    simp only [trylock, hm] at h
    split at h
    · unfold lockAgain at h
      split at h <;> cases h
      rfl
    · cases h
  | ownerDead | notRecoverable =>
    simp only [trylock, hm] at h
    cases h

/-! ## Normal mutexes -/

/-- A normal mutex that is not robust, with its owner. -/
def plain (owner : Option T) : PosixMutex T :=
  ⟨⟨.normal, false⟩, owner.elim .free fun t => .held t 0 true⟩

variable {r : Option T}

omit [DecidableEq T] in
@[simp] theorem plain_owner : (plain r).owner = r := by
  cases r <;> rfl

/-- It can be locked while it is free. -/
@[simp] theorem plain_lock :
    (plain r).lock limit t =
      if r = none then .returned .success (plain (some t)) else .blocks := by
  cases r with
  | none => rfl
  | some u => simp [plain, lock]

/-- Without blocking it is busy unless it is free. -/
@[simp] theorem plain_trylock :
    (plain r).trylock limit t =
      if r = none then .returned .success (plain (some t))
      else .returned .ebusy (plain r) := by
  cases r with
  | none => rfl
  | some u => simp [plain, trylock]

/-- Only its owner can unlock it. -/
@[simp] theorem plain_unlock :
    (plain r).unlock t = if r = some t then .returned .success (plain none) else .undefined := by
  cases r with
  | none => rfl
  | some u => by_cases hu : u = t <;> simp [plain, unlock, unlockOther, hu]

end PosixMutex

end Posix
