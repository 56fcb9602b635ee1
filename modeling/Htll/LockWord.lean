import Mathlib.Tactic.FinCases
import Mathlib.Data.Set.Insert

/-!
# The lock word and its two overlapping byte views

The word `u` shares its storage with the bytes `locked` (bits 0 to 7) and `contended`
(bits 8 to 15). The lock is accessed at both widths: `htll_swap_uint8` and the stores of
`htll_mutex_unlock` touch one byte, `htll_swap_uint32`, the compare-and-swap and the futex
calls touch the whole word. The remaining sixteen bits are never set, so the word only takes
four values; every access is decided on these.
-/

namespace Htll

/-- `htll_mutex_t`: the lock word and the counters that steer the spin budget. -/
structure Mutex where
  u : BitVec 32
  ticksSpin : BitVec 32
  cntUnlock : BitVec 32
  cntWake : BitVec 32
  deriving DecidableEq

/-- `HTLL_SPIN_TRIES_LOCK`. -/
def htllSpinTriesLock : BitVec 32 := 8192

/-- `LOCKED_AND_CONTENDED`, also written as the literal 257 in the source. -/
def lockedAndContended : BitVec 32 := 257

/-- The record that `htll_mutex_create` returns; its `flag` is read by no function. -/
def htllMutexCreate : Mutex :=
  { u := 0, ticksSpin := htllSpinTriesLock, cntUnlock := 0, cntWake := 0 }

/-- The byte `l.b.locked` of a word. -/
def lockedByte (u : BitVec 32) : BitVec 8 := u.extractLsb' 0 8

/-- The byte `l.b.contended` of a word. -/
def contendedByte (u : BitVec 32) : BitVec 8 := u.extractLsb' 8 8

/-- Store to the byte `l.b.locked`. -/
def setLockedByte (u : BitVec 32) (x : BitVec 8) : BitVec 32 :=
  (u &&& 0xFFFFFF00) ||| x.setWidth 32

/-- Store to the byte `l.b.contended`. -/
def setContendedByte (u : BitVec 32) (x : BitVec 8) : BitVec 32 :=
  (u &&& 0xFFFF00FF) ||| (x.setWidth 32 <<< 8)

/-- `htll_swap_uint8` on the locked byte: the old byte and the new word. -/
def htllSwapUint8 (u : BitVec 32) (x : BitVec 8) : BitVec 8 × BitVec 32 :=
  (lockedByte u, setLockedByte u x)

/-- `htll_swap_uint32` on the whole word: the old and the new word. -/
def htllSwapUint32 (u x : BitVec 32) : BitVec 32 × BitVec 32 := (u, x)

/-- `__sync_val_compare_and_swap` on the whole word: the value found and the new word. -/
def syncValCompareAndSwap (u old new : BitVec 32) : BitVec 32 × BitVec 32 :=
  (u, if u = old then new else u)

/-- The values that the lock word takes. -/
def WordValues : Set (BitVec 32) := {0, 1, 256, 257}

/-- The lock is taken: its locked byte is `LOCKED`. -/
def isLocked (u : BitVec 32) : Bool := lockedByte u == 1

/-- Some thread marked the lock: its contended byte is `CONTENDED`. -/
def isContended (u : BitVec 32) : Bool := contendedByte u == 1

/-- The word with the given bytes. -/
def wordOf (locked contended : Bool) : BitVec 32 :=
  (if locked then 1 else 0) + (if contended then 256 else 0)

/-- The word of any two bytes is one of the four values. -/
theorem wordOf_mem (locked contended : Bool) : wordOf locked contended ∈ WordValues := by
  cases locked <;> cases contended <;> simp [wordOf, WordValues]

section Bytes

variable (locked contended : Bool)

@[simp] theorem isLocked_wordOf : isLocked (wordOf locked contended) = locked := by
  cases locked <;> cases contended <;> decide

@[simp] theorem isContended_wordOf : isContended (wordOf locked contended) = contended := by
  cases locked <;> cases contended <;> decide

@[simp] theorem lockedByte_wordOf :
    lockedByte (wordOf locked contended) = if locked then 1#8 else 0#8 := by
  cases locked <;> cases contended <;> decide

@[simp] theorem setLockedByte_one :
    setLockedByte (wordOf locked contended) 1#8 = wordOf true contended := by
  cases locked <;> cases contended <;> decide

@[simp] theorem setLockedByte_zero :
    setLockedByte (wordOf locked contended) 0#8 = wordOf false contended := by
  cases locked <;> cases contended <;> decide

@[simp] theorem setContendedByte_zero :
    setContendedByte (wordOf locked contended) 0#8 = wordOf locked false := by
  cases locked <;> cases contended <;> decide

theorem lockedAndContended_eq : lockedAndContended = wordOf true true := by decide

@[simp] theorem wordOf_eq_lockedAndContended :
    wordOf locked contended = lockedAndContended ↔ locked = true ∧ contended = true := by
  cases locked <;> cases contended <;> decide

@[simp] theorem wordOf_and_one :
    wordOf locked contended &&& 1#32 = if locked then 1#32 else 0#32 := by
  cases locked <;> cases contended <;> decide

@[simp] theorem wordOf_eq_one :
    wordOf locked contended = 1#32 ↔ locked = true ∧ contended = false := by
  cases locked <;> cases contended <;> decide

end Bytes

end Htll
