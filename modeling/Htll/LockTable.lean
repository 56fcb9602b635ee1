import Mathlib.Data.Fintype.Basic
import Mathlib.Data.Nat.Notation
import Mathlib.Logic.Function.Basic

/-!
# The table from mutex addresses to lock objects

`pthread_lock_table` is an array of buckets of ten slots, each with a key and a value; a zero key
marks an unused slot and a zero value one whose creator has not stored it yet. Lock objects are
named by the number of their allocation. Mutexes and rwlocks share the table and the code.
-/

namespace Htll

/-- `BUCKET_SIZE`, the number of buckets. -/
def bucketSize : ℕ := 40960

/-- `BUCKET_LENGTH`, the number of slots of a bucket. -/
def bucketLength : ℕ := 10

/-- The address of a mutex or an rwlock. -/
abbrev Addr := { a : BitVec 64 // a ≠ 0 }

/-- A mutex in memory that is reused. -/
def reusedMutex : Addr := ⟨0x2000, by decide⟩

/-- A lock object, by the number of its allocation. -/
abbrev LockObject := ℕ

/-- `my_hash`. -/
def myHash (key : BitVec 64) : BitVec 64 :=
  (key >>> 4 + key >>> 24) &&& (BitVec.ofNat 64 bucketSize - 1)

/-- `my_hash` is a bucket index. -/
theorem myHash_lt (key : BitVec 64) : (myHash key).toNat < bucketSize := by
  have hle : (myHash key).toNat ≤ (BitVec.ofNat 64 bucketSize - 1).toNat := by
    rw [myHash, BitVec.toNat_and]
    exact Nat.and_le_right
  exact lt_of_le_of_lt hle (by decide)

/-- The bucket of an address. -/
def Addr.bucket (a : Addr) : Fin bucketSize := ⟨(myHash a.1).toNat, myHash_lt a.1⟩

/-- `struct lock_table`: one slot. -/
structure Slot where
  key : BitVec 64
  value : Option LockObject
  deriving DecidableEq

/-- A slot after `memset`. -/
def Slot.clear : Slot := ⟨0, none⟩

/-- `pthread_lock_table`. -/
abbrev LockTable := Fin bucketSize → Fin bucketLength → Slot

/-- Replace one slot. -/
def LockTable.set (table : LockTable) (b : Fin bucketSize) (i : Fin bucketLength) (x : Slot) :
    LockTable :=
  Function.update table b (Function.update (table b) i x)

/-- What a slot of the bucket of an address holds for it: a value if the address is the key. -/
def LockTable.entry (table : LockTable) (a : Addr) (i : Fin bucketLength) :
    Option (Option LockObject) :=
  if (table a.bucket i).key = a.1 then some (table a.bucket i).value else none

/-- An object is stored under an address. -/
def LockTable.Holds (table : LockTable) (a : Addr) (o : LockObject) : Prop :=
  ∃ i, table.entry a i = some (some o)

/-- The address has at most one slot. -/
def LockTable.Unique (table : LockTable) (a : Addr) : Prop :=
  ∀ i j, table.entry a i ≠ none → table.entry a j ≠ none → i = j

/-- What is claimed or stored for an address stays. -/
structure LockTable.Keeps (table table' : LockTable) (a : Addr) : Prop where
  claimed : ∀ i, table.entry a i ≠ none → table'.entry a i ≠ none
  stored : ∀ i o, table.entry a i = some (some o) → table'.entry a i = some (some o)

/-- The slot after a given one, if there is one. -/
def nextSlot (i : Fin bucketLength) : Option (Fin bucketLength) :=
  if h : (i : ℕ) + 1 < bucketLength then some ⟨i + 1, h⟩ else none

/-- The slot where the loops over a bucket begin. -/
def firstSlot : Fin bucketLength := ⟨0, by decide⟩

section Set

variable (table : LockTable) (b : Fin bucketSize) (i : Fin bucketLength) (x : Slot)

@[simp] theorem LockTable.set_self : table.set b i x b i = x := by
  simp [LockTable.set]

theorem LockTable.set_of_ne {b' : Fin bucketSize} {i' : Fin bucketLength}
    (hne : b' ≠ b ∨ i' ≠ i) : table.set b i x b' i' = table b' i' := by
  by_cases hb : b' = b
  · subst hb
    have hi : i' ≠ i := hne.resolve_left fun h => h rfl
    simp [LockTable.set, hi]
  · simp [LockTable.set, hb]

/-- After a write a slot is the written one or as before. -/
theorem LockTable.set_cases (b' : Fin bucketSize) (i' : Fin bucketLength) :
    (b' = b ∧ i' = i ∧ table.set b i x b' i' = x) ∨
      ((b' ≠ b ∨ i' ≠ i) ∧ table.set b i x b' i' = table b' i') := by
  by_cases hne : b' ≠ b ∨ i' ≠ i
  · exact Or.inr ⟨hne, LockTable.set_of_ne table b i x hne⟩
  · obtain ⟨rfl, rfl⟩ : b' = b ∧ i' = i := by simpa using hne
    exact Or.inl ⟨rfl, rfl, LockTable.set_self table b' i' x⟩

/-- Of two writes of a slot the second counts. -/
theorem LockTable.set_set (y : Slot) : (table.set b i y).set b i x = table.set b i x := by
  simp [LockTable.set]

end Set

section Entry

variable {table : LockTable} {a : Addr} {b : Fin bucketSize} {i : Fin bucketLength} {x : Slot}

/-- A slot holds nothing for an address that is not its key. -/
theorem LockTable.entry_eq_none_iff : table.entry a i = none ↔ (table a.bucket i).key ≠ a.1 := by
  simp [LockTable.entry]

/-- A slot with the address as key holds its value. -/
theorem LockTable.entry_of_key (hkey : (table a.bucket i).key = a.1) :
    table.entry a i = some (table a.bucket i).value := if_pos hkey

/-- A slot that holds something for an address has it as key and that as value. -/
theorem LockTable.entry_eq_some {r : Option LockObject} (h : table.entry a i = some r) :
    table a.bucket i = ⟨a.1, r⟩ := by
  obtain ⟨hkey, hvalue⟩ := Option.ite_none_right_eq_some.mp h
  cases hslot : table a.bucket i with
  | mk key value =>
    rw [hslot] at hkey hvalue
    exact congrArg₂ Slot.mk hkey (Option.some.inj hvalue)

/-- A write with an address as key is its entry there. -/
theorem LockTable.entry_set (hkey : x.key = a.1) :
    (table.set a.bucket i x).entry a = Function.update (table.entry a) i (some x.value) := by
  funext j
  rcases LockTable.set_cases table a.bucket i x a.bucket j with ⟨-, rfl, heq⟩ | ⟨hne, heq⟩
  · rw [LockTable.entry, heq, if_pos hkey, Function.update_self]
  · have hj : j ≠ i := hne.resolve_left fun h => h rfl
    rw [LockTable.entry, heq, Function.update_of_ne hj, LockTable.entry]

/-- Slots that have other keys before and after do not matter to an address. -/
theorem LockTable.entry_eq_of_keys {table' : LockTable}
    (h : ∀ j, table' a.bucket j = table a.bucket j ∨
      (table a.bucket j).key ≠ a.1 ∧ (table' a.bucket j).key ≠ a.1) :
    table'.entry a = table.entry a := by
  funext j
  rcases h j with heq | ⟨hbefore, hafter⟩
  · rw [LockTable.entry, heq, LockTable.entry]
  · rw [LockTable.entry_eq_none_iff.mpr hbefore, LockTable.entry_eq_none_iff.mpr hafter]

/-- A write of a slot that has other keys before and after does not matter to an address. -/
theorem LockTable.entry_set_other (hbefore : (table b i).key ≠ a.1) (hafter : x.key ≠ a.1) :
    (table.set b i x).entry a = table.entry a := by
  refine LockTable.entry_eq_of_keys fun j => ?_
  rcases LockTable.set_cases table b i x a.bucket j with ⟨hb, rfl, heq⟩ | ⟨-, heq⟩
  · rw [heq, hb]
    exact Or.inr ⟨hbefore, hafter⟩
  · exact Or.inl heq

/-- An entry that did not change is kept. -/
theorem LockTable.Keeps.of_eq {table' : LockTable} (h : table'.entry a = table.entry a) :
    table.Keeps table' a where
  claimed i := by
    rw [h]
    exact id
  stored i o := by
    rw [h]
    exact id

/-- A kept table still holds what it held. -/
theorem LockTable.Keeps.holds {table' : LockTable} (h : table.Keeps table' a)
    {o : LockObject} (ho : table.Holds a o) : table'.Holds a o := by
  obtain ⟨i, hi⟩ := ho
  exact ⟨i, h.stored i o hi⟩

/-- Two objects held under an address with one slot are the same. -/
theorem LockTable.Unique.holds (h : table.Unique a) {o o' : LockObject}
    (ho : table.Holds a o) (ho' : table.Holds a o') : o = o' := by
  obtain ⟨i, hi⟩ := ho
  obtain ⟨j, hj⟩ := ho'
  have hij : i = j := h i j (by simp [hi]) (by simp [hj])
  rw [hij, hj] at hi
  cases hi
  rfl

end Entry

/-- The slot after a slot that is not the last. -/
theorem nextSlot_of_lt {i : Fin bucketLength} (h : (i : ℕ) + 1 < bucketLength) :
    nextSlot i = some ⟨i + 1, h⟩ := dif_pos h

/-- The next slot is one further. -/
theorem nextSlot_eq_some {i j : Fin bucketLength} (h : nextSlot i = some j) :
    (j : ℕ) = i + 1 := by
  unfold nextSlot at h
  split at h
  · cases h
    rfl
  · cases h

/-- Only the last slot has no next one. -/
theorem nextSlot_eq_none {i : Fin bucketLength} (h : nextSlot i = none) (j : Fin bucketLength) :
    j ≤ i := by
  unfold nextSlot at h
  split at h
  · cases h
  · have hj := j.isLt
    rw [Fin.le_def]
    omega

end Htll
