import Htll.LockTable
import Htll.Protocol.SlotArray

/-!
# Calls on mutexes, one after the other

The table functions and the intercepted mutex calls without overlap: each call runs to its end
before the next one begins. `call` says which lock object a call creates or acts on and in which
state it leaves the library, if it returns: a lock of a locked object blocks, and a call that
finds the bucket full ends the process.
-/

namespace Htll

/-- The intercepted calls on mutexes. -/
inductive MutexCall where
  /-- `pthread_mutex_init`. -/
  | init (a : Addr)
  /-- `pthread_mutex_destroy`. -/
  | destroy (a : Addr)
  /-- `pthread_mutex_lock`. -/
  | lock (a : Addr)
  /-- `pthread_mutex_trylock`. -/
  | trylock (a : Addr)
  /-- `pthread_mutex_unlock`. -/
  | unlock (a : Addr)
  deriving DecidableEq

/-- The address on which a call operates. -/
def MutexCall.operates : MutexCall → Option Addr
  | .lock a | .trylock a | .unlock a => some a
  | .init _ | .destroy _ => none

/-- The address that a call initialises or operates on. -/
def MutexCall.touches : MutexCall → Option Addr
  | .init a | .lock a | .trylock a | .unlock a => some a
  | .destroy _ => none

/-- `hash_put`: the first slot with a zero key gets the key and the value. -/
def hashPut (table : LockTable) (a : Addr) (v : LockObject) : Option LockTable :=
  (SlotArray.place (fun y => y.key = 0) (table a.bucket) ⟨a.1, some v⟩).map
    (Function.update table a.bucket)

/-- `hash_get`: the value of the first slot with the address as key. -/
def hashGet (table : LockTable) (a : Addr) : Option LockObject :=
  (SlotArray.lookup (fun y => y.key = a.1) (table a.bucket)).bind Slot.value

/-- The state of the library between calls. -/
structure Library (T : Type*) where
  table : LockTable
  owner : LockObject → Option T
  allocated : ℕ

/-- The lock object that a call created or acted on, and the state in which it returned. -/
structure CallOutcome (T : Type*) where
  acted : Option LockObject
  after : Option (Library T)

namespace Library

variable {T : Type*}

/-- An empty table and no lock object. -/
def initial : Library T := ⟨fun _ _ => Slot.clear, fun _ => none, 0⟩

/-- Set the owner of a lock object. -/
def setOwner (l : Library T) (o : LockObject) (r : Option T) : Library T :=
  { l with owner := Function.update l.owner o r }

/-- `ht_lock_create`; nothing is returned if the process ends. -/
def htLockCreate (l : Library T) (a : Addr) : Option (Library T × LockObject) :=
  (hashPut l.table a l.allocated).map fun table =>
    (⟨table, Function.update l.owner l.allocated none, l.allocated + 1⟩, l.allocated)

/-- `ht_lock_get`. -/
def htLockGet (l : Library T) (a : Addr) : Option (Library T × LockObject) :=
  match hashGet l.table a with
  | some o => some (l, o)
  | none => l.htLockCreate a

/-- An operation on the lock object of an address. -/
def withLock (l : Library T) (a : Addr) (f : Library T → LockObject → Option (Library T)) :
    CallOutcome T :=
  match l.htLockGet a with
  | some (l', o) => ⟨some o, f l' o⟩
  | none => ⟨none, none⟩

/-- `pthread_mutex_init`. -/
def pthreadMutexInit (l : Library T) (a : Addr) : CallOutcome T :=
  match l.htLockCreate a with
  | some (l', o) => ⟨some o, some l'⟩
  | none => ⟨none, none⟩

/-- `pthread_mutex_destroy`. -/
def pthreadMutexDestroy (l : Library T) : CallOutcome T := ⟨none, some l⟩

/-- `pthread_mutex_lock`. -/
def pthreadMutexLock (l : Library T) (t : T) (a : Addr) : CallOutcome T :=
  l.withLock a fun l' o => if (l'.owner o).isNone then some (l'.setOwner o (some t)) else none

/-- `pthread_mutex_trylock`. -/
def pthreadMutexTrylock (l : Library T) (t : T) (a : Addr) : CallOutcome T :=
  l.withLock a fun l' o => some (if (l'.owner o).isNone then l'.setOwner o (some t) else l')

/-- `pthread_mutex_unlock`. -/
def pthreadMutexUnlock (l : Library T) (a : Addr) : CallOutcome T :=
  l.withLock a fun l' o => some (l'.setOwner o none)

/-- A call of a thread. -/
def call (l : Library T) (t : T) : MutexCall → CallOutcome T
  | .init a => l.pthreadMutexInit a
  | .destroy _ => l.pthreadMutexDestroy
  | .lock a => l.pthreadMutexLock t a
  | .trylock a => l.pthreadMutexTrylock t a
  | .unlock a => l.pthreadMutexUnlock a

/-- A sequence of calls, if all of them return. -/
def runCalls (l : Library T) (calls : List (T × MutexCall)) : Option (Library T) :=
  calls.foldlM (fun l c => (l.call c.1 c.2).after) l

/-- A sequence is run in two parts. -/
theorem runCalls_append (l : Library T) (calls calls' : List (T × MutexCall)) :
    l.runCalls (calls ++ calls') = (l.runCalls calls).bind fun l' => l'.runCalls calls' :=
  List.foldlM_append

/-- A sequence is run call by call. -/
theorem runCalls_cons (l : Library T) (c : T × MutexCall) (calls : List (T × MutexCall)) :
    l.runCalls (c :: calls) = (l.call c.1 c.2).after.bind fun l' => l'.runCalls calls :=
  List.foldlM_cons

/-- What calls leave behind: buckets without holes, and a value that exists for every key. -/
structure Ok (l : Library T) : Prop where
  packed : ∀ b, SlotArray.Packed (fun y => y.key = 0) (l.table b)
  filled : ∀ b i, (l.table b i).key ≠ 0 → ∃ o < l.allocated, (l.table b i).value = some o

variable {l l' : Library T} {t : T} {a a' : Addr} {o v : LockObject} {table' : LockTable}

/-- The empty table is as calls leave it. -/
theorem ok_initial : Ok (initial : Library T) :=
  ⟨fun _ _ _ _ _ => rfl, fun _ _ hkey => absurd rfl hkey⟩

/-- A value that a lookup returns is that of some slot with the address as key. -/
theorem hashGet_eq_some {table : LockTable} (h : hashGet table a = some o) :
    ∃ i, table a.bucket i = ⟨a.1, some o⟩ := by
  obtain ⟨y, hy, hvalue⟩ := Option.bind_eq_some_iff.mp h
  obtain ⟨hkey, i, hi⟩ := SlotArray.lookup_passes hy
  refine ⟨i, hi.trans ?_⟩
  cases y with
  | mk key value => exact congrArg₂ Slot.mk (of_decide_eq_true hkey) hvalue

/-- An object that a lookup returns exists. -/
theorem Ok.hashGet_lt (h : l.Ok) (ho : hashGet l.table a = some o) : o < l.allocated := by
  obtain ⟨i, hi⟩ := hashGet_eq_some ho
  obtain ⟨o', hlt, ho'⟩ := h.filled a.bucket i (by rw [hi]; exact a.2)
  rw [hi] at ho'
  cases ho'
  exact hlt

/-- If a lookup returns nothing, no slot has the address as key. -/
theorem Ok.absent (h : l.Ok) (ho : hashGet l.table a = none) (i : Fin bucketLength) :
    (l.table a.bucket i).key ≠ a.1 := by
  cases hy : SlotArray.lookup (fun y => decide (y.key = a.1)) (l.table a.bucket) with
  | none => exact of_decide_eq_false (SlotArray.lookup_eq_none_iff.mp hy i)
  | some y =>
    obtain ⟨hkey, k, hk⟩ := SlotArray.lookup_passes hy
    obtain ⟨o, -, hvalue⟩ := h.filled a.bucket k (by
      rw [hk, of_decide_eq_true hkey]
      exact a.2)
    rw [hashGet, hy, Option.bind_some] at ho
    rw [hk, ho] at hvalue
    cases hvalue

/-- A put is found by later lookups of the address if nothing was found before. -/
theorem Ok.hashGet_hashPut (h : l.Ok) (hput : hashPut l.table a v = some table') :
    hashGet table' a' = (hashGet l.table a').or (if a = a' then some v else none) := by
  obtain ⟨slots, hplace, rfl⟩ := Option.map_eq_some_iff.mp hput
  by_cases hb : a'.bucket = a.bucket
  · have hfree : ∀ y : Slot, decide (y.key = 0) = true → decide (y.key = a'.1) = false := by
      intro y hy
      rw [of_decide_eq_true hy]
      exact decide_eq_false fun heq => a'.2 heq.symm
    have hlookup := SlotArray.lookup_place (h.packed a.bucket) hfree hplace
    rw [hashGet, hashGet, hb, Function.update_self, hlookup]
    cases hbefore : SlotArray.lookup (fun y => decide (y.key = a'.1)) (l.table a.bucket) with
    | some y =>
      obtain ⟨hkey, i, hi⟩ := SlotArray.lookup_passes hbefore
      obtain ⟨o, -, ho⟩ := h.filled a.bucket i (by
        rw [hi, of_decide_eq_true hkey]
        exact a'.2)
      rw [hi] at ho
      simp [ho]
    | none =>
      by_cases ha : a = a'
      · simp [ha]
      · have hne : a.1 ≠ a'.1 := fun heq => ha (Subtype.ext heq)
        simp [ha, hne]
  · have ha : a ≠ a' := fun heq => hb (congrArg Addr.bucket heq.symm)
    rw [hashGet, hashGet, Function.update_of_ne hb, if_neg ha, Option.or_none]

/-- A put writes one slot. -/
theorem hashPut_eq_some {table table' : LockTable} {v : LockObject}
    (hput : hashPut table a v = some table') :
    ∃ k, table' = table.set a.bucket k ⟨a.1, some v⟩ := by
  obtain ⟨slots, hplace, rfl⟩ := Option.map_eq_some_iff.mp hput
  obtain ⟨k, -, rfl⟩ := Option.map_eq_some_iff.mp hplace
  exact ⟨k, rfl⟩

/-- A put leaves no hole and no key without a value. -/
theorem Ok.put (h : l.Ok) (hput : hashPut l.table a l.allocated = some table')
    (owner : LockObject → Option T) : Ok (⟨table', owner, l.allocated + 1⟩ : Library T) := by
  constructor
  · obtain ⟨slots, hplace, rfl⟩ := Option.map_eq_some_iff.mp hput
    intro b
    by_cases hb : b = a.bucket
    · subst hb
      have hused : decide ((⟨a.1, some l.allocated⟩ : Slot).key = 0) = false := decide_eq_false a.2
      simpa using (h.packed a.bucket).place hused hplace
    · simpa [hb] using h.packed b
  · obtain ⟨k, rfl⟩ := hashPut_eq_some hput
    intro b i hkey
    dsimp only at hkey ⊢
    rcases l.table.set_cases a.bucket k ⟨a.1, some l.allocated⟩ b i with ⟨-, -, heq⟩ | ⟨-, heq⟩
    · exact ⟨l.allocated, Nat.lt_succ_self _, congrArg Slot.value heq⟩
    · rw [heq] at hkey ⊢
      obtain ⟨o, hlt, ho⟩ := h.filled b i hkey
      exact ⟨o, hlt.trans (Nat.lt_succ_self _), ho⟩

/-- A creation leaves the table in order; its object was not there before, has no owner, and is
found from then on if nothing was found before. -/
theorem Ok.htLockCreate (h : l.Ok) (hc : l.htLockCreate a = some (l', o)) :
    l'.Ok ∧ o = l.allocated ∧ l'.owner o = none ∧
      ∀ a', hashGet l'.table a' = (hashGet l.table a').or (if a = a' then some o else none) := by
  obtain ⟨table', hput, heq⟩ := Option.map_eq_some_iff.mp hc
  cases heq
  exact ⟨h.put hput _, rfl, Function.update_self .., fun a' => h.hashGet_hashPut hput⟩

/-- `ht_lock_get` returns what the lookup finds from then on. -/
theorem Ok.htLockGet (h : l.Ok) (hc : l.htLockGet a = some (l', o)) :
    l'.Ok ∧
      ∀ a', hashGet l'.table a' = (hashGet l.table a').or (if a = a' then some o else none) := by
  unfold Library.htLockGet at hc
  split at hc
  · rename_i o' ho'
    cases hc
    refine ⟨h, fun a' => ?_⟩
    by_cases ha : a = a'
    · rw [← ha, ho', Option.some_or]
    · rw [if_neg ha, Option.or_none]
  · obtain ⟨hok, -, -, hget⟩ := h.htLockCreate hc
    exact ⟨hok, hget⟩

/-- An operation that returns acted on an object, which later lookups return if they returned
nothing before. -/
theorem Ok.withLock (h : l.Ok) {f : Library T → LockObject → Option (Library T)}
    (hf : ∀ l o l', f l o = some l' → l'.table = l.table ∧ l'.allocated = l.allocated)
    (hc : (l.withLock a f).after = some l') :
    l'.Ok ∧ ∃ o, (l.withLock a f).acted = some o ∧
      ∀ a', hashGet l'.table a' = (hashGet l.table a').or (if a = a' then some o else none) := by
  unfold Library.withLock at hc ⊢
  split at hc
  · rename_i l₁ o hget
    obtain ⟨hok, hafter⟩ := h.htLockGet hget
    obtain ⟨htable, hallocated⟩ := hf l₁ o l' hc
    refine ⟨⟨?_, ?_⟩, o, rfl, ?_⟩
    · rw [htable]
      exact hok.packed
    · rw [htable, hallocated]
      exact hok.filled
    · rw [htable]
      exact hafter
  · cases hc

/-- An initialisation that returns created an object, which later lookups return if they returned
nothing before. -/
theorem Ok.pthreadMutexInit (h : l.Ok) (hc : (l.pthreadMutexInit a).after = some l') :
    l'.Ok ∧ ∃ o, (l.pthreadMutexInit a).acted = some o ∧
      ∀ a', hashGet l'.table a' = (hashGet l.table a').or (if a = a' then some o else none) := by
  unfold Library.pthreadMutexInit at hc ⊢
  cases hcreate : l.htLockCreate a with
  | none =>
    rw [hcreate] at hc
    cases hc
  | some r =>
    obtain ⟨l₁, o⟩ := r
    rw [hcreate] at hc
    cases hc
    obtain ⟨hok, -, -, hget⟩ := h.htLockCreate hcreate
    exact ⟨hok, o, rfl, hget⟩

/-- A call that returns and touches an address acted on an object, which later lookups of the
address return if they returned nothing before; other addresses keep what they have. -/
theorem Ok.call (h : l.Ok) {c : MutexCall} (hc : (l.call t c).after = some l') :
    l'.Ok ∧ (c.touches ≠ none → (l.call t c).acted ≠ none) ∧
      ∀ a, hashGet l'.table a =
        (hashGet l.table a).or (if c.touches = some a then (l.call t c).acted else none) := by
  have hoperation : ∀ {a : Addr} {f : Library T → LockObject → Option (Library T)},
      (∀ l o l', f l o = some l' → l'.table = l.table ∧ l'.allocated = l.allocated) →
      (l.withLock a f).after = some l' →
      l'.Ok ∧ (some a ≠ none → (l.withLock a f).acted ≠ none) ∧
        ∀ a', hashGet l'.table a' = (hashGet l.table a').or
          (if some a = some a' then (l.withLock a f).acted else none) := by
    intro a f hf hc
    obtain ⟨hok, o, hacted, hget⟩ := h.withLock hf hc
    refine ⟨hok, fun _ => by simp [hacted], fun a' => ?_⟩
    rw [hget a', hacted]
    simp only [Option.some.injEq]
  cases c with
  | init a =>
    obtain ⟨hok, o, hacted, hget⟩ := h.pthreadMutexInit hc
    refine ⟨hok, fun _ => by simp [Library.call, hacted], fun a' => ?_⟩
    rw [hget a', Library.call, hacted]
    simp only [MutexCall.touches, Option.some.injEq]
  | destroy a =>
    cases hc
    exact ⟨h, fun hnone => absurd rfl hnone, fun a' => by simp [MutexCall.touches]⟩
  | lock a =>
    refine hoperation (fun l₁ o l₂ hf => ?_) hc
    obtain ⟨-, heq⟩ := Option.ite_none_right_eq_some.mp hf
    cases heq
    exact ⟨rfl, rfl⟩
  | trylock a =>
    refine hoperation (fun l₁ o l₂ hf => ?_) hc
    cases hf
    split <;> exact ⟨rfl, rfl⟩
  | unlock a =>
    refine hoperation (fun l₁ o l₂ hf => ?_) hc
    cases hf
    exact ⟨rfl, rfl⟩

end Library

end Htll
