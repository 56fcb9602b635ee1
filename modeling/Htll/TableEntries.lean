import Htll.Protocol.SlotArray
import Htll.TableMoves
import Mathlib.Data.List.Count

/-!
# The entries of a table that is not cleared

`hash_put` scans a bucket from its first slot and claims the first one that it finds unused, so
the slots in use are a prefix of the bucket. Each successful put claims one slot of its own, whose
key and value are written once, and a lookup that reaches the end of the bucket has passed all
slots that were filled when it began. An address may have several slots here: what is said about
each of them does not depend on when objects are created.
-/

namespace Htll

open Transition

/-- Keys and values that are in the first table are in the second. -/
structure LockTable.Grows (table table' : LockTable) : Prop where
  key : ∀ b i, (table b i).key ≠ 0 → (table' b i).key = (table b i).key
  value : ∀ b i o, (table b i).value = some o → (table' b i).value = some o

section Growth

variable {table table' table'' : LockTable} {a : Addr} {o : LockObject}

theorem LockTable.Grows.refl : table.Grows table := ⟨fun _ _ _ => rfl, fun _ _ _ h => h⟩

theorem LockTable.Grows.trans (h : table.Grows table') (h' : table'.Grows table'') :
    table.Grows table'' where
  key b i hkey := by
    have hnext := h.key b i hkey
    exact (h'.key b i (hnext ▸ hkey)).trans hnext
  value b i o ho := h'.value b i o (h.value b i o ho)

/-- A slot without a value may be written, if a key that it has stays. -/
theorem LockTable.Grows.of_set {b : Fin bucketSize} {i : Fin bucketLength} {x : Slot}
    (hvalue : (table b i).value = none)
    (hkey : (table b i).key ≠ 0 → x.key = (table b i).key) : table.Grows (table.set b i x) := by
  refine ⟨fun b' j hused => ?_, fun b' j o ho => ?_⟩
  · rcases table.set_cases b i x b' j with ⟨rfl, rfl, heq⟩ | ⟨-, heq⟩
    · rw [heq]
      exact hkey hused
    · rw [heq]
  · rcases table.set_cases b i x b' j with ⟨rfl, rfl, -⟩ | ⟨-, heq⟩
    · rw [hvalue] at ho
      cases ho
    · rw [heq]
      exact ho

/-- Keys stay in the buckets of their addresses. -/
theorem LockTable.home_set {i : Fin bucketLength} {x : Slot}
    (h : ∀ b j (a : Addr), (table b j).key = a.1 → b = a.bucket) (hkey : x.key = a.1)
    (b : Fin bucketSize) (j : Fin bucketLength) (a' : Addr)
    (hb : (table.set a.bucket i x b j).key = a'.1) : b = a'.bucket := by
  rcases table.set_cases a.bucket i x b j with ⟨rfl, -, heq⟩ | ⟨-, heq⟩
  · rw [heq, hkey] at hb
    rw [Subtype.ext hb]
  · rw [heq] at hb
    exact h b j a' hb

/-- A slot that has only used ones before it may be used. -/
theorem LockTable.packed_set {b : Fin bucketSize} {i : Fin bucketLength} {x : Slot}
    (h : ∀ b, SlotArray.Packed (fun x => x.key = 0) (table b)) (hkey : x.key ≠ 0)
    (hbefore : ∀ j, j < i → (table b j).key ≠ 0) (b' : Fin bucketSize) :
    SlotArray.Packed (fun x => x.key = 0) (table.set b i x b') := by
  rw [LockTable.set, Function.update_apply]
  split
  · exact (h b).update (decide_eq_false hkey) fun j hj => decide_eq_false (hbefore j hj)
  · exact h b'

/-- A slot in use stays in use. -/
theorem LockTable.Grows.used (h : table.Grows table') {b : Fin bucketSize} {i : Fin bucketLength}
    (hkey : (table b i).key ≠ 0) : (table' b i).key ≠ 0 :=
  (h.key b i hkey).symm ▸ hkey

/-- A filled slot stays as it is. -/
theorem LockTable.Grows.filled (h : table.Grows table') {b : Fin bucketSize}
    {i : Fin bucketLength} (hslot : table b i = ⟨a.1, some o⟩) : table' b i = ⟨a.1, some o⟩ := by
  have hkey := h.key b i (by rw [hslot]; exact a.2)
  have hvalue := h.value b i o (by rw [hslot])
  rw [hslot] at hkey
  cases hnew : table' b i with
  | mk key value =>
    rw [hnew] at hkey hvalue
    exact congrArg₂ Slot.mk hkey hvalue

end Growth

/-- What a thread at a program point has seen of the table, with the objects that were associated
with the address of its lookup when that began. -/
def TablePoint.Sees (table : LockTable) (known : List LockObject) : TablePoint → Prop
  | .get a _ i => ∀ o ∈ known, ∃ j, i ≤ j ∧ table a.bucket j = ⟨a.1, some o⟩
  | .value a _ i => (table a.bucket i).key = a.1
  | .result a _ i => ∃ o, table a.bucket i = ⟨a.1, some o⟩
  | .put a _ _ i | .cas a _ _ i => ∀ j, j < i → (table a.bucket j).key ≠ 0
  | _ => True

/-- A thread that has nothing to do with a slot has seen nothing. -/
theorem TablePoint.sees_of_free {q : TablePoint} (h : q.free = true) (table : LockTable)
    (known : List LockObject) : q.Sees table known := by
  cases q <;> first | exact trivial | cases h

/-- What was seen stays true. -/
theorem TablePoint.Sees.grow {table table' : LockTable} {known : List LockObject} {q : TablePoint}
    (h : q.Sees table known) (hgrows : table.Grows table') : q.Sees table' known := by
  cases q with
  | get a p i =>
    intro o ho
    obtain ⟨j, hij, hj⟩ := h o ho
    exact ⟨j, hij, hgrows.filled hj⟩
  | value a p i =>
    have hkey : (table a.bucket i).key = a.1 := h
    exact (hgrows.key a.bucket i (hkey ▸ a.2)).trans hkey
  | result a p i =>
    obtain ⟨o, hslot⟩ := h
    exact ⟨o, hgrows.filled hslot⟩
  | put a v w i | cas a v w i => exact fun j hj => hgrows.used (h j hj)
  | _ => trivial

/-- What a call returned is borne out by the table and by what was recorded before: a lookup
returned a value that was put under its address, or `NULL` when it knew of none, and a put failed
over a bucket without an unused slot. -/
def TableEvent.Justified (table : LockTable) (log : List TableEvent) : TableEvent → Prop
  | .got a _ (some o) => .put a o 0 ∈ log
  | .got _ known none => known = []
  | .put a _ code => code = -1 → ∀ i, (table a.bucket i).key ≠ 0
  | .located .. | .unlocked .. => True

/-- What was justified stays so. -/
theorem TableEvent.Justified.grow {table table' : LockTable} {log log' : List TableEvent}
    {e : TableEvent} (h : e.Justified table log) (hgrows : table.Grows table')
    (hlog : log ⊆ log') : e.Justified table' log' := by
  cases e with
  | got a known r =>
    cases r with
    | none => exact h
    | some o => exact hlog h
  | put a v code => exact fun hcode i => hgrows.used (h hcode i)
  | located | unlocked => trivial

/-- The next access of the thread is that of `memset`. -/
def TablePoint.clears : TablePoint → Bool
  | .initClear _ _ => true
  | _ => false

/-- The address that a call looks up. -/
def TableCall.lookup : TableCall → Option Addr
  | .hashGet a | .htLockGet a | .lock a | .trylock a | .unlock a => some a
  | .hashPut _ _ | .init _ | .destroy _ | .rwlockInit _ | .interposeInit => none

namespace TableState

variable {T : Type*} {s s' : TableState T} {t : T} {a : Addr} {base : LockTable}

/-- The action clears slots. -/
def clears (s : TableState T) : TableAction T → Bool
  | .clear _ _ _ => true
  | .access t => (s.point t).clears
  | .call _ _ => false

/-- The table is not cleared. -/
def NotCleared (s : TableState T) (x : TableAction T) : Prop := s.clears x = false

instance (s : TableState T) (x : TableAction T) : Decidable (s.NotCleared x) :=
  inferInstanceAs (Decidable (s.clears x = false))

/-- An empty table, no thread in a call and nothing recorded; any number of objects exist. -/
structure Fresh (s : TableState T) : Prop where
  table : s.table = fun _ _ => Slot.clear
  point : s.point = fun _ => .outside
  associated : s.associated = fun _ => []
  log : s.log = []

/-- The table is in order, has kept what was in an earlier one, and bears out what was recorded. -/
structure Filed (base : LockTable) (s : TableState T) : Prop where
  grown : base.Grows s.table
  slots : SlotsOk s
  home : ∀ b i (a : Addr), (s.table b i).key = a.1 → b = a.bucket
  packed : ∀ b, SlotArray.Packed (fun x => x.key = 0) (s.table b)
  threads : ∀ t, (s.point t).Sees s.table (s.known t)
  counted : ∀ a o, (SlotArray.places s.table ⟨a.1, some o⟩).card = s.log.count (.put a o 0)
  associated : ∀ a o, o ∈ s.associated a ↔ .put a o 0 ∈ s.log
  justified : ∀ e ∈ s.log, e.Justified s.table s.log

/-- A value that was put is in a slot of the bucket. -/
theorem Filed.exists_slot (h : Filed base s) {o : LockObject} (hput : .put a o 0 ∈ s.log) :
    ∃ i, s.table a.bucket i = ⟨a.1, some o⟩ := by
  have hcard : 0 < (SlotArray.places s.table ⟨a.1, some o⟩).card := by
    rw [h.counted a o]
    exact List.count_pos_iff.mpr hput
  obtain ⟨⟨b, i⟩, hc⟩ := Finset.card_pos.mp hcard
  have hslot : s.table b i = ⟨a.1, some o⟩ := SlotArray.mem_places.mp hc
  obtain rfl := h.home b i a (by rw [hslot])
  exact ⟨i, hslot⟩

/-- A value in a slot was put there. -/
theorem Filed.put_of_slot (h : Filed base s) {o : LockObject} {i : Fin bucketLength}
    (hslot : s.table a.bucket i = ⟨a.1, some o⟩) : .put a o 0 ∈ s.log := by
  have hmem : (a.bucket, i) ∈ SlotArray.places s.table ⟨a.1, some o⟩ :=
    SlotArray.mem_places.mpr hslot
  have hcard := Finset.card_pos.mpr ⟨_, hmem⟩
  rw [h.counted a o] at hcard
  exact List.count_pos_iff.mp hcard

/-! ## Moves that leave the table alone -/

/-- A step of one thread that leaves the table and the record alone. -/
theorem Filed.of_same (h : Filed base s) (t : T) (hpoint : ∀ u, u ≠ t → s'.point u = s.point u)
    (hknown : ∀ u, u ≠ t → s'.known u = s.known u) (htable : s'.table = s.table)
    (hassociated : s'.associated = s.associated) (hlog : s'.log = s.log)
    (hclaims : (s'.point t).claims = none) (hsees : (s'.point t).Sees s.table (s'.known t)) :
    Filed base s' where
  grown := htable ▸ h.grown
  slots := by
    refine h.slots.of_step t hpoint ?_ (fun _ _ _ _ => by rw [htable]) ?_
    · rw [htable]
      exact h.slots.clean
    · intro a v w i hp
      rw [hp] at hclaims
      cases hclaims
  home := by
    rw [htable]
    exact h.home
  packed := by
    rw [htable]
    exact h.packed
  threads u := by
    rw [htable]
    by_cases hu : u = t
    · exact hu ▸ hsees
    · rw [hpoint u hu, hknown u hu]
      exact h.threads u
  counted := by
    rw [htable, hlog]
    exact h.counted
  associated := by
    rw [hassociated, hlog]
    exact h.associated
  justified := by
    rw [htable, hlog]
    exact h.justified

/-- A justified event other than a successful put may be recorded. -/
theorem Filed.note (h : Filed base s) {e : TableEvent} (he : e.Justified s.table s.log)
    (hput : ∀ a o, e ≠ .put a o 0) : Filed base (s.note e) where
  grown := h.grown
  slots := ⟨h.slots.clean, h.slots.claimed, h.slots.exclusive⟩
  home := h.home
  packed := h.packed
  threads := h.threads
  counted a o := by
    rw [note_log, List.count_cons_of_ne (hput a o)]
    exact h.counted a o
  associated a o := by
    rw [note_log, List.mem_cons, or_iff_right (hput a o).symm]
    exact h.associated a o
  justified e' he' := by
    have hgrow := List.subset_cons_self e s.log
    rcases List.mem_cons.mp he' with rfl | he'
    · exact he.grow .refl hgrow
    · exact (h.justified e' he').grow .refl hgrow

/-- An access outside the table leaves it in order. -/
theorem Filed.of_idle (h : Filed base s) (hidle : Idle t s s') : Filed base s' := by
  have hclaims := TablePoint.claims_of_free hidle.free
  have hsees := TablePoint.sees_of_free hidle.free s.table (s'.known t)
  have hknown : ∀ u, u ≠ t → s'.known u = s.known u := fun u _ => by rw [hidle.known]
  rcases hidle.log with hlog | ⟨a, o, hlog⟩
  · exact h.of_same t hidle.point hknown hidle.table hidle.associated hlog hclaims hsees
  · have hnoted := h.note (e := .unlocked a o) trivial (by simp)
    exact hnoted.of_same t hidle.point hknown hidle.table hidle.associated hlog hclaims hsees

/-- Fields that nothing here relies on may change. -/
theorem Filed.of_fields (h : Filed base s) (htable : s'.table = s.table)
    (hassociated : s'.associated = s.associated) (hpoint : s'.point = s.point)
    (hknown : s'.known = s.known) (hlog : s'.log = s.log) : Filed base s' where
  grown := htable ▸ h.grown
  slots := by
    constructor
    · rw [htable]
      exact h.slots.clean
    · rw [htable, hpoint]
      exact h.slots.claimed
    · rw [hpoint]
      exact h.slots.exclusive
  home := by
    rw [htable]
    exact h.home
  packed := by
    rw [htable]
    exact h.packed
  threads := by
    rw [htable, hpoint, hknown]
    exact h.threads
  counted := by
    rw [htable, hlog]
    exact h.counted
  associated := by
    rw [hassociated, hlog]
    exact h.associated
  justified := by
    rw [htable, hlog]
    exact h.justified

variable [DecidableEq T] {v : LockObject} {w : Creation} {i : Fin bucketLength}

/-- A thread may move to a point where it claims nothing and has seen what belongs to it. -/
theorem Filed.goto (h : Filed base s) {q : TablePoint} (hclaims : q.claims = none)
    (hsees : q.Sees s.table (s.known t)) : Filed base (s.goto t q) := by
  refine h.of_same t (fun u hu => ?_) (fun _ _ => rfl) rfl rfl rfl ?_ ?_
  · rw [goto_point, Function.update_of_ne hu]
  · rw [goto_point, Function.update_self]
    exact hclaims
  · rw [goto_point, Function.update_self]
    exact hsees

/-- A thread goes on with an object that it located. -/
theorem Filed.located (h : Filed base s) (o : LockObject) (p : Purpose) :
    Filed base (s.located t a o p) := by
  have hnoted := h.note (e := .located a o) trivial (by simp)
  cases p <;> exact hnoted.goto rfl trivial

/-- A lookup returns the object of its slot. -/
theorem Filed.found (h : Filed base s) {o : LockObject} {p : Purpose}
    (hslot : s.table a.bucket i = ⟨a.1, some o⟩) : Filed base (s.found t a o p) := by
  have hnoted := h.note (e := .got a (s.known t) (some o)) (h.put_of_slot hslot) (by simp)
  unfold TableState.found
  split
  · exact hnoted.goto rfl trivial
  · exact hnoted.located o p

/-- A lookup returns `NULL` if it knew of no object. -/
theorem Filed.missing (h : Filed base s) {p : Purpose} (hnone : s.known t = []) :
    Filed base (s.missing t a p) := by
  have hnoted := h.note (e := .got a (s.known t) none) hnone (by simp)
  unfold TableState.missing
  split <;> exact hnoted.goto rfl trivial

/-- A put goes on after a slot in use, or fails at the last one. -/
theorem Filed.tryNext (h : Filed base s) (hbefore : ∀ j, j < i → (s.table a.bucket j).key ≠ 0)
    (hkey : (s.table a.bucket i).key ≠ 0) : Filed base (s.tryNext t a v w i) := by
  have hupto : ∀ j, j ≤ i → (s.table a.bucket j).key ≠ 0 := by
    intro j hj
    rcases hj.lt_or_eq with hlt | rfl
    · exact hbefore j hlt
    · exact hkey
  unfold TableState.tryNext
  cases hnext : nextSlot i with
  | some k =>
    refine h.goto rfl fun j hj => hupto j ?_
    have hk := nextSlot_eq_some hnext
    rw [Fin.lt_def] at hj
    rw [Fin.le_def]
    omega
  | none =>
    have hnoted := h.note (e := .put a v (-1))
      (fun _ j => hupto j (nextSlot_eq_none hnext j)) (by simp)
    cases w with
    | hashPut => exact hnoted.goto rfl trivial
    | init | use => exact hnoted.of_fields rfl rfl rfl rfl rfl

/-- A thread that begins a lookup knows the values that were put. -/
theorem Filed.lookUp (h : Filed base s) (a : Addr) (p : Purpose) :
    Filed base (s.lookUp t a p) := by
  refine h.of_same t (fun u hu => ?_) (fun u hu => ?_) rfl rfl rfl ?_ ?_
  · rw [lookUp_point, Function.update_of_ne hu]
  · rw [lookUp_known, Function.update_of_ne hu]
  · rw [lookUp_point, Function.update_self]
    rfl
  · rw [lookUp_point, lookUp_known, Function.update_self, Function.update_self]
    intro o ho
    obtain ⟨j, hj⟩ := h.exists_slot ((h.associated a o).mp ho)
    exact ⟨j, Nat.zero_le _, hj⟩

/-! ## The two writes of a put -/

/-- The claim of an unused slot. -/
theorem Filed.claim (h : Filed base s) (hp : s.point t = .cas a v w i)
    (hkey : (s.table a.bucket i).key = 0) :
    Filed base ({ s with
      table := s.table.set a.bucket i { s.table a.bucket i with key := a.1 } }.goto t
        (.store a v w i)) := by
  have hempty := h.slots.clean a.bucket i hkey
  have hgrows : s.table.Grows (s.table.set a.bucket i { s.table a.bucket i with key := a.1 }) :=
    .of_set hempty fun hused => absurd hkey hused
  have hbefore : ∀ j, j < i → (s.table a.bucket j).key ≠ 0 := by
    have hthread := h.threads t
    rw [hp] at hthread
    exact hthread
  refine ⟨h.grown.trans hgrows, h.slots.claim hkey, LockTable.home_set h.home rfl,
    LockTable.packed_set h.packed a.2 hbefore, fun u => ?_, fun a' o => ?_, h.associated,
    fun e he => (h.justified e he).grow hgrows fun _ => id⟩
  · by_cases hu : u = t
    · subst hu
      rw [goto_point, Function.update_self]
      trivial
    · rw [goto_point, Function.update_of_ne hu]
      exact (h.threads u).grow hgrows
  · have hfilled : ∀ x : Slot, x.value = none → x ≠ ⟨a'.1, some o⟩ := by
      rintro x hx rfl
      cases hx
    have hplaces := SlotArray.places_of_write_other
      (fun b j hne => LockTable.set_of_ne s.table a.bucket i _ hne) (hfilled _ hempty)
      (hfilled (s.table.set a.bucket i { s.table a.bucket i with key := a.1 } a.bucket i)
        (by rw [LockTable.set_self, hempty]))
    exact (congrArg Finset.card hplaces).trans (h.counted a' o)

/-- The store of the value and the return of `hash_put`, with the thread taken outside. -/
theorem Filed.store_outside (h : Filed base s) (hp : s.point t = .store a v w i) :
    Filed base (({ s with
      table := s.table.set a.bucket i { s.table a.bucket i with value := some v }
      associated := Function.update s.associated a (v :: s.associated a) }.note (.put a v 0)).goto t
        .outside) := by
  have hslot := LockTable.entry_eq_some (h.slots.claimed t a v w i hp)
  have hstored : ({ s.table a.bucket i with value := some v } : Slot) = ⟨a.1, some v⟩ := by
    rw [hslot]
  have hslots := h.slots.store (l := Function.update s.associated a (v :: s.associated a)) hp
  rw [hstored] at hslots ⊢
  have hgrows : s.table.Grows (s.table.set a.bucket i ⟨a.1, some v⟩) :=
    .of_set (by rw [hslot]) fun _ => by rw [hslot]
  have hbefore : ∀ j, j < i → (s.table a.bucket j).key ≠ 0 := by
    intro j hj hfree
    have hlater := h.packed a.bucket j i hj (decide_eq_true hfree)
    rw [hslot] at hlater
    exact a.2 (of_decide_eq_true hlater)
  refine ⟨h.grown.trans hgrows, ⟨hslots.clean, hslots.claimed, hslots.exclusive⟩,
    LockTable.home_set h.home rfl, LockTable.packed_set h.packed a.2 hbefore, fun u => ?_,
    fun a' o => ?_, fun a' o => ?_, fun e he => ?_⟩
  · by_cases hu : u = t
    · subst hu
      rw [goto_point, Function.update_self]
      trivial
    · rw [goto_point, Function.update_of_ne hu]
      exact (h.threads u).grow hgrows
  · have hwaiting : s.table a.bucket i ≠ ⟨a'.1, some o⟩ := by
      rw [hslot]
      simp
    have hsame : ∀ b j, b ≠ a.bucket ∨ j ≠ i →
        s.table.set a.bucket i ⟨a.1, some v⟩ b j = s.table b j :=
      fun b j hne => LockTable.set_of_ne _ _ _ _ hne
    change (SlotArray.places (s.table.set a.bucket i ⟨a.1, some v⟩) ⟨a'.1, some o⟩).card = _
    rw [goto_log, note_log]
    by_cases heq : a = a' ∧ v = o
    · obtain ⟨rfl, rfl⟩ := heq
      rw [List.count_cons_self, ← h.counted a v]
      exact SlotArray.card_places_of_write hsame hwaiting (LockTable.set_self ..)
    · rw [List.count_cons_of_ne, ← h.counted a' o]
      · refine congrArg Finset.card (SlotArray.places_of_write_other hsame hwaiting ?_)
        rw [LockTable.set_self]
        intro hboth
        obtain ⟨ha, ho⟩ := Slot.mk.inj hboth
        exact heq ⟨Subtype.ext ha, Option.some.inj ho⟩
      · intro hboth
        obtain ⟨ha, ho, -⟩ := TableEvent.put.inj hboth
        exact heq ⟨ha, ho⟩
  · rw [goto_log, note_log, goto_associated, note_associated]
    by_cases ha : a' = a
    · subst ha
      simp [h.associated]
    · simp [ha, h.associated]
  · rcases List.mem_cons.mp he with rfl | he
    · intro hcode
      cases hcode
    · exact (h.justified e he).grow hgrows (List.subset_cons_self _ _)

/-- The store of the value and the return of `hash_put`. -/
theorem Filed.store (h : Filed base s) (hp : s.point t = .store a v w i) :
    Filed base ({ s with
      table := s.table.set a.bucket i { s.table a.bucket i with value := some v }
      associated := Function.update s.associated a (v :: s.associated a) }.stored t a v w) := by
  have hbase := h.store_outside hp
  cases w with
  | hashPut | init => exact hbase
  | use p =>
    have hlocated : Filed base (TableState.located _ t a v p) := hbase.located v p
    have hsame : ∀ q : TablePoint, Function.update (Function.update s.point t .outside) t q =
        Function.update s.point t q := fun q => Function.update_idem ..
    simpa [TableState.located, TableState.stored, TableState.goto, TableState.note, hsame]
      using hlocated

/-! ## Every action -/

/-- The next access of a lookup. -/
theorem Filed.get (h : Filed base s) {p : Purpose} (hp : s.point t = .get a p i)
    (hs : s.access t = some s') : Filed base s' := by
  have hthread := h.threads t
  rw [hp] at hthread
  simp only [TableState.access, hp, Option.some.injEq] at hs
  subst hs
  split
  · rename_i hkey
    exact h.goto rfl hkey
  · rename_i hkey
    have hpassed : ∀ o ∈ s.known t, ∃ j, i < j ∧ s.table a.bucket j = ⟨a.1, some o⟩ := by
      intro o ho
      obtain ⟨j, hij, hj⟩ := hthread o ho
      refine ⟨j, lt_of_le_of_ne hij ?_, hj⟩
      rintro rfl
      exact hkey (by rw [hj])
    cases hnext : nextSlot i with
    | none =>
      refine h.missing (List.eq_nil_iff_forall_not_mem.mpr fun o ho => ?_)
      obtain ⟨j, hij, -⟩ := hpassed o ho
      exact absurd (nextSlot_eq_none hnext j) (not_le.mpr hij)
    | some k =>
      refine h.goto rfl fun o ho => ?_
      obtain ⟨j, hij, hj⟩ := hpassed o ho
      refine ⟨j, ?_, hj⟩
      have hk := nextSlot_eq_some hnext
      rw [Fin.lt_def] at hij
      rw [Fin.le_def]
      omega

/-- Every access that is not of `memset`. -/
theorem Filed.access (h : Filed base s)
    (hclear : (s.point t).clears = false) (hs : s.access t = some s') : Filed base s' := by
  have hthread := h.threads t
  cases hp : s.point t with
  | outside => simp [TableState.access, hp] at hs
  | get => exact h.get hp hs
  | value a p i =>
    rw [hp] at hthread
    simp only [TableState.access, hp, Option.some.injEq] at hs
    subst hs
    split
    · exact h
    · rename_i hvalue
      obtain ⟨o, ho⟩ := Option.ne_none_iff_exists'.mp hvalue
      refine h.goto rfl ⟨o, ?_⟩
      have hkey : (s.table a.bucket i).key = a.1 := hthread
      rw [← hkey, ← ho]
  | result a p i =>
    rw [hp] at hthread
    obtain ⟨o, hslot⟩ := hthread
    simp only [TableState.access, hp, hslot, Option.some.injEq] at hs
    subst hs
    exact h.found hslot
  | create a w =>
    simp only [TableState.access, hp, Option.some.injEq] at hs
    subst hs
    refine Filed.goto ?_ rfl fun j hj => absurd hj (Nat.not_lt_zero _)
    exact h.of_fields rfl rfl rfl rfl rfl
  | put a v w i =>
    rw [hp] at hthread
    simp only [TableState.access, hp, Option.some.injEq] at hs
    subst hs
    split
    · exact h.goto rfl hthread
    · rename_i hkey
      exact h.tryNext hthread hkey
  | cas a v w i =>
    rw [hp] at hthread
    simp only [TableState.access, hp, Option.some.injEq] at hs
    subst hs
    split
    · rename_i hkey
      exact h.claim hp hkey
    · rename_i hkey
      exact h.tryNext hthread hkey
  | store a v w i =>
    simp only [TableState.access, hp, Option.some.injEq] at hs
    subst hs
    exact h.store hp
  | operate | initCheck | initCas | initSpin | initThreadId | initLoad | initDone =>
    exact h.of_idle (idle_access (by rw [hp]; rfl) hs)
  | initClear rwlock cleared =>
    rw [hp] at hclear
    cases hclear

/-- The beginning of every call. -/
theorem Filed.begin (h : Filed base s) {c : TableCall} (hs : s.begin t c = some s') :
    Filed base s' := by
  have hlive : ∀ a, Filed base (s.enliven a) := fun a => h.of_fields rfl rfl rfl rfl rfl
  cases c with
  | hashGet a =>
    cases hs
    exact h.lookUp a _
  | htLockGet a | lock a | trylock a | unlock a =>
    cases hs
    exact (hlive a).lookUp a _
  | init a | rwlockInit a =>
    cases hs
    exact (hlive a).goto rfl trivial
  | destroy a =>
    cases hs
    exact h.of_fields rfl rfl rfl rfl rfl
  | interposeInit =>
    cases hs
    exact h.goto rfl trivial
  | hashPut a v =>
    obtain ⟨-, heq⟩ := Option.ite_none_right_eq_some.mp hs
    cases heq
    refine Filed.goto ?_ rfl fun j hj => absurd hj (Nat.not_lt_zero _)
    exact h.of_fields rfl rfl rfl rfl rfl

/-- Every action that clears no slot. -/
theorem Filed.step (h : Filed base s) {x : TableAction T} (hclear : s.NotCleared x)
    (hs : s.step x = some s') : Filed base s' := by
  obtain ⟨-, hs⟩ := Option.ite_none_right_eq_some.mp hs
  cases x with
  | call t c =>
    obtain ⟨-, hs⟩ := Option.ite_none_right_eq_some.mp hs
    exact h.begin hs
  | access t => exact h.access hclear hs
  | clear t b i => cases hclear

/-- Every run that clears no slot. -/
theorem Filed.path (h : Filed base s) (hpath : Path TableState.step NotCleared s s') :
    Filed base s' :=
  Path.invariant (Filed base) (fun _ _ _ hclear hs h => h.step hclear hs) hpath h

/-! ## What a lookup knows -/

/-- What an access of a thread may record of a lookup: nothing is learnt after its beginning. -/
structure Recorded (t : T) (s s' : TableState T) : Prop where
  known : s'.known = s.known
  got : ∀ a known r, s'.log = .got a known r :: s.log → known = s.known t

omit [DecidableEq T] in
/-- An access that records nothing. -/
theorem Recorded.of_same (hknown : s'.known = s.known) (hlog : s'.log = s.log) :
    Recorded t s s' where
  known := hknown
  got a known r hgot := by
    rw [hlog] at hgot
    exact absurd hgot.symm (List.cons_ne_self _ _)

omit [DecidableEq T] in
/-- An access that records something else last, or a lookup with what the thread knows. -/
theorem Recorded.of_cons (hknown : s'.known = s.known) {e : TableEvent} {log : List TableEvent}
    (hlog : s'.log = e :: log) (he : ∀ a known r, e = .got a known r → known = s.known t) :
    Recorded t s s' where
  known := hknown
  got a known r hgot := by
    rw [hlog] at hgot
    exact he a known r (List.cons.inj hgot).1

/-- A put that goes on or fails. -/
theorem recorded_tryNext : Recorded t s (s.tryNext t a v w i) := by
  unfold tryNext
  split
  · exact .of_same rfl rfl
  · cases w <;> exact .of_cons (e := .put a v (-1)) rfl rfl (by simp)

omit [DecidableEq T] in
/-- An access outside the table records no lookup. -/
theorem Idle.recorded (hidle : Idle t s s') : Recorded t s s' := by
  rcases hidle.log with hlog | ⟨a, o, hlog⟩
  · exact .of_same hidle.known hlog
  · exact .of_cons hidle.known hlog (by simp)

/-- Every access. -/
theorem recorded_access (hs : s.access t = some s') : Recorded t s s' := by
  cases hp : s.point t with
  | outside => simp [TableState.access, hp] at hs
  | get a p i =>
    simp only [TableState.access, hp, Option.some.injEq] at hs
    subst hs
    split
    · exact .of_same rfl rfl
    · split
      · exact .of_same rfl rfl
      · refine .of_cons rfl rfl ?_
        rintro _ _ _ ⟨⟩
        rfl
  | value a p i =>
    simp only [TableState.access, hp, Option.some.injEq] at hs
    subst hs
    split <;> exact .of_same rfl rfl
  | result a p i =>
    simp only [TableState.access, hp] at hs
    split at hs <;> cases hs
    · refine .of_cons rfl rfl ?_
      rintro _ _ _ ⟨⟩
      rfl
    · cases p with
      | hashGet =>
        refine .of_cons rfl rfl ?_
        rintro _ _ _ ⟨⟩
        rfl
      | htLockGet | lock | trylock | unlock => exact .of_cons rfl rfl (by simp)
  | create a w =>
    simp only [TableState.access, hp, Option.some.injEq] at hs
    subst hs
    exact .of_same rfl rfl
  | put a v w i | cas a v w i =>
    simp only [TableState.access, hp, Option.some.injEq] at hs
    subst hs
    split
    · exact .of_same rfl rfl
    · exact recorded_tryNext
  | store a v w i =>
    simp only [TableState.access, hp, Option.some.injEq] at hs
    subst hs
    cases w with
    | hashPut | init => exact .of_cons rfl rfl (by simp)
    | use p => exact .of_cons rfl rfl (by simp)
  | operate | initCheck | initCas | initSpin | initThreadId | initLoad | initDone =>
    exact (idle_access (by rw [hp]; rfl) hs).recorded
  | initClear =>
    simp only [TableState.access, hp, Option.some.injEq] at hs
    subst hs
    exact .of_same rfl rfl

/-- `memset` records nothing. -/
theorem clears_log (hclears : (s.point t).clears = true) (hs : s.access t = some s') :
    s'.log = s.log := by
  cases hp : s.point t with
  | initClear rwlock cleared =>
    simp only [TableState.access, hp, Option.some.injEq] at hs
    subst hs
    rfl
  | _ =>
    rw [hp] at hclears
    cases hclears

/-- A thread that begins no call knows what it knew. -/
theorem known_step {x : TableAction T} (hclear : s.NotCleared x) (hsame : ∀ c, x ≠ .call t c)
    (hs : s.step x = some s') : s'.known t = s.known t := by
  obtain ⟨-, hs⟩ := Option.ite_none_right_eq_some.mp hs
  cases x with
  | call u c =>
    obtain ⟨-, hs⟩ := Option.ite_none_right_eq_some.mp hs
    have hu : t ≠ u := by
      rintro rfl
      exact hsame c rfl
    cases c with
    | hashGet | htLockGet | lock | trylock | unlock =>
      cases hs
      exact Function.update_of_ne hu _ _
    | init | destroy | rwlockInit | interposeInit =>
      cases hs
      rfl
    | hashPut a v =>
      obtain ⟨-, heq⟩ := Option.ite_none_right_eq_some.mp hs
      cases heq
      rfl
  | access u => rw [(recorded_access hs).known]
  | clear u b i => cases hclear

/-- A lookup begins with the objects that are associated with its address. -/
theorem known_lookup {c : TableCall} (hlookup : c.lookup = some a)
    (hs : s.step (.call t c) = some s') : s'.known t = s.associated a := by
  obtain ⟨-, hs⟩ := Option.ite_none_right_eq_some.mp hs
  obtain ⟨-, hs⟩ := Option.ite_none_right_eq_some.mp hs
  cases c with
  | hashGet | htLockGet | lock | trylock | unlock =>
    cases hlookup
    cases hs
    exact Function.update_self ..
  | hashPut | init | destroy | rwlockInit | interposeInit => cases hlookup

omit [DecidableEq T] in
/-- A fresh table is in order. -/
theorem Fresh.filed (hs : s.Fresh) : Filed s.table s where
  grown := .refl
  slots := by
    refine ⟨?_, ?_, ?_⟩
    · simp [hs.table, Slot.clear]
    · simp [hs.point]
    · simp [hs.point, TablePoint.claims]
  home b i a hkey := by
    rw [hs.table] at hkey
    exact absurd hkey.symm a.2
  packed b i j _ _ := by simp [hs.table, Slot.clear]
  threads t := by
    rw [hs.point]
    trivial
  counted a o := by
    rw [hs.log, List.count_nil, Finset.card_eq_zero]
    refine Finset.eq_empty_iff_forall_notMem.mpr fun ⟨b, i⟩ hmem => ?_
    rw [SlotArray.mem_places, hs.table] at hmem
    cases congrArg Slot.value hmem
  associated a o := by simp [hs.associated, hs.log]
  justified := by simp [hs.log]

/-- A table that is not cleared loses and mixes up no entry. The slots in use are a prefix of each
bucket; the slots with a key and a value are as many as the puts of that value under that key which
returned 0, a slot whose value is still missing belongs to one put, and keys and values stay; a put
failed only over a bucket that is in use throughout; a lookup returned only values that were put
under its key; and one that returned `NULL` began when no put under its key had returned 0. -/
theorem table_keeps_entries (hs : s.Fresh) (hpath : Path TableState.step NotCleared s s') :
    (∀ b i j, i < j → (s'.table b j).key ≠ 0 → (s'.table b i).key ≠ 0) ∧
    (∀ a o, (SlotArray.places s'.table ⟨a.1, some o⟩).card = s'.log.count (.put a o 0)) ∧
    (∀ t a v w i, s'.point t = .store a v w i → s'.table a.bucket i = ⟨a.1, none⟩ ∧
      ∀ u, (s'.point u).claims = some (a.bucket, i) → u = t) ∧
    (∀ s'', Path TableState.step NotCleared s' s'' → s'.table.Grows s''.table) ∧
    (∀ a v, .put a v (-1) ∈ s'.log → ∀ i, (s'.table a.bucket i).key ≠ 0) ∧
    (∀ a known o, .got a known (some o) ∈ s'.log → .put a o 0 ∈ s'.log) ∧
    ∀ t c a s₁ s₂ s₃ known, s'.step (.call t c) = some s₁ → c.lookup = some a →
      Path TableState.step (fun s x => s.NotCleared x ∧ ∀ c, x ≠ .call t c) s₁ s₂ →
      s₂.step (.access t) = some s₃ → s₃.log = .got a known none :: s₂.log →
      ∀ o, .put a o 0 ∉ s'.log := by
  have h := hs.filed.path hpath
  refine ⟨fun b i j hij hj hi => ?_, h.counted, fun t a v w i hp => ?_, fun s'' hlater => ?_,
    fun a v hput => h.justified _ hput rfl, fun a known o hgot => h.justified _ hgot, ?_⟩
  · exact hj (of_decide_eq_true (h.packed b i j hij (decide_eq_true hi)))
  · refine ⟨LockTable.entry_eq_some (h.slots.claimed t a v w i hp), fun u hu => ?_⟩
    exact h.slots.exclusive u t _ hu (by rw [hp]; rfl)
  · have hrebased : Filed s'.table s' := { h with grown := .refl }
    exact (hrebased.path hlater).grown
  · intro t c a s₁ s₂ s₃ known hcall hlookup hduring hlast hlog o hput
    have h₁ := h.step (x := .call t c) rfl hcall
    have h₂ := h₁.path (hduring.mono fun _ _ hguard => hguard.1)
    have hknown : s₂.known t = s'.associated a := by
      refine Path.invariant (fun s => s.known t = s'.associated a) ?_ hduring
        (known_lookup hlookup hcall)
      intro s x s' hguard hstep hbefore
      exact (known_step hguard.1 hguard.2 hstep).trans hbefore
    obtain ⟨-, haccess⟩ := Option.ite_none_right_eq_some.mp hlast
    have hclear : s₂.NotCleared (.access t) := by
      refine Bool.eq_false_iff.mpr fun hclears => ?_
      rw [clears_log hclears haccess] at hlog
      exact List.cons_ne_self _ _ hlog.symm
    have hnone : known = [] := by
      refine (h₂.step hclear hlast).justified (.got a known none) ?_
      rw [hlog]
      exact List.mem_cons_self
    rw [(recorded_access haccess).got a known none hlog, hknown] at hnone
    have hmem := (h.associated a o).mpr hput
    rw [hnone] at hmem
    cases hmem

/-- Two threads put a value each under one key at the same time, and one looks the key up. -/
def racingPuts : List (TableAction Bool) :=
  [.call true (.hashPut reusedMutex 0), .call false (.hashPut reusedMutex 1), .access true,
    .access false, .access true, .access false, .access true, .access false, .access false,
    .access false, .call true (.hashGet reusedMutex), .access true, .access true, .access true]

/-- Each of two racing puts has a slot of its own. -/
theorem table_keeps_entries_race : ∃ s : TableState Bool,
    s.log = [.got reusedMutex [1, 0] (some 0), .put reusedMutex 1 0, .put reusedMutex 0 0] ∧
    (SlotArray.places s.table ⟨reusedMutex.1, some 0⟩).card = 1 ∧
    (SlotArray.places s.table ⟨reusedMutex.1, some 1⟩).card = 1 := by
  obtain ⟨s, hpath, hlog⟩ := exists_path_of_execute (step (T := Bool)) NotCleared racingPuts
    { initial with allocated := 2 }
    (fun s => s.log =
      [.got reusedMutex [1, 0] (some 0), .put reusedMutex 1 0, .put reusedMutex 0 0])
    (by decide +kernel)
  have hfresh : ({ initial with allocated := 2 } : TableState Bool).Fresh := ⟨rfl, rfl, rfl, rfl⟩
  obtain ⟨-, hcounted, -⟩ := table_keeps_entries hfresh hpath
  refine ⟨s, hlog, ?_, ?_⟩
  · rw [hcounted reusedMutex 0, hlog]
    decide
  · rw [hcounted reusedMutex 1, hlog]
    decide

end TableState

end Htll
