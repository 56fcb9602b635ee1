import Htll.TableEffect

/-!
# The entry of one address

Nothing in `hash_put` looks for a present key, and `memset` does not look at all. As long as an
object for an address is created only while the address is neither in the table nor being put
there, and `memset` clears no slot of it, the address has at most one slot, which keeps its key
and value, and a `hash_get` that began after a value was stored under the address finds it. What
happens to other addresses does not matter, except that `memset` must not clear a slot between
the claim of its key and the store of its value.
-/

namespace Htll

/-- The address for which a thread is about to create an object. -/
def TablePoint.creates : TablePoint → Option Addr
  | .create a _ => some a
  | _ => none

/-- The address that a thread is putting into the table. -/
def TablePoint.puts : TablePoint → Option Addr
  | .put a _ _ _ | .cas a _ _ _ | .store a _ _ _ => some a
  | _ => none

/-- The slot that a thread has claimed and not filled yet. -/
def TablePoint.claims : TablePoint → Option (Fin bucketSize × Fin bucketLength)
  | .store a _ _ i => some (a.bucket, i)
  | _ => none

/-- What a thread at a program point relies on concerning an address, with the objects that were
associated with the address of its lookup when that began. -/
def TablePoint.Relies (table : LockTable) (a : Addr) (known : List LockObject) :
    TablePoint → Prop
  | .get a' _ i => a' = a → ∀ o ∈ known, ∃ j, i ≤ j ∧ table.entry a j = some (some o)
  | .value a' _ i => a' = a → table.entry a i ≠ none ∧ ∀ o ∈ known, table.Holds a o
  | .result a' _ i =>
    a' = a → (∃ o, table.entry a i = some (some o)) ∧ ∀ o ∈ known, table.Holds a o
  | .put a' _ _ _ | .cas a' _ _ _ => a' = a → ∀ j, table.entry a j = none
  | .operate a' o _ => a' = a → table.Holds a o
  | _ => True

variable {a : Addr}

/-- A thread that has nothing to do with a slot claims none. -/
theorem TablePoint.claims_of_free {q : TablePoint} (h : q.free = true) : q.claims = none := by
  cases q <;> first | rfl | cases h

/-- It puts nothing either. -/
theorem TablePoint.puts_of_free {q : TablePoint} (h : q.free = true) : q.puts = none := by
  cases q <;> first | rfl | cases h

/-- It relies on nothing. -/
theorem TablePoint.relies_of_free {q : TablePoint} (h : q.free = true) (table : LockTable)
    (known : List LockObject) : q.Relies table a known := by
  cases q <;> first | exact trivial | cases h

/-- What a thread relies on survives if the entry is kept, and is unchanged while the thread puts
the address. -/
theorem TablePoint.Relies.keep {table table' : LockTable} {known : List LockObject}
    {q : TablePoint} (h : q.Relies table a known) (hkeeps : table.Keeps table' a)
    (hputs : q.puts = some a → table'.entry a = table.entry a) : q.Relies table' a known := by
  cases q with
  | get a' p i =>
    intro ha o ho
    obtain ⟨j, hij, hj⟩ := h ha o ho
    exact ⟨j, hij, hkeeps.stored j o hj⟩
  | value a' p i =>
    intro ha
    obtain ⟨hi, hknown⟩ := h ha
    exact ⟨hkeeps.claimed i hi, fun o ho => hkeeps.holds (hknown o ho)⟩
  | result a' p i =>
    intro ha
    obtain ⟨⟨o, hi⟩, hknown⟩ := h ha
    exact ⟨⟨o, hkeeps.stored i o hi⟩, fun o ho => hkeeps.holds (hknown o ho)⟩
  | put a' | cas a' =>
    intro ha
    rw [hputs (congrArg some ha)]
    exact h ha
  | operate a' o p =>
    intro ha
    exact hkeeps.holds (h ha)
  | _ => trivial

namespace TableState

variable {T : Type*} {s s' s'' : TableState T} {t : T}

/-! ## The condition -/

/-- The address is neither in the table nor being put there. -/
def Uncreated (s : TableState T) (a : Addr) : Prop :=
  (∀ i, s.table.entry a i = none) ∧ ∀ u, (s.point u).puts ≠ some a

/-- The address for which an action creates an object or begins to put one. -/
def creates (s : TableState T) : TableAction T → Option Addr
  | .access t => (s.point t).creates
  | .call _ (.hashPut a _) => some a
  | _ => none

/-- Objects for the address are only created while it is uncreated. -/
def CreatesOnce (s : TableState T) (a : Addr) (x : TableAction T) : Prop :=
  s.creates x = some a → s.Uncreated a

/-- A slot is not that of the address, and it is not waiting for its value. -/
def Disposable (s : TableState T) (a : Addr) (b : Fin bucketSize) (i : Fin bucketLength) : Prop :=
  (s.table b i).key ≠ a.1 ∧ ((s.table b i).value = none → (s.table b i).key = 0)

/-- The slots that `memset` has left to clear are disposable. -/
def SparesRestAt (s : TableState T) (a : Addr) : TablePoint → Prop
  | .initClear _ cleared => ∀ b i, (b, i) ∉ cleared → s.Disposable a b i
  | _ => True

/-- `memset` only clears disposable slots. -/
def SparesEntry (s : TableState T) (a : Addr) : TableAction T → Prop
  | .clear _ b i => s.Disposable a b i
  | .access t => s.SparesRestAt a (s.point t)
  | _ => True

/-- Both conditions. -/
def Orderly (a : Addr) (s : TableState T) (x : TableAction T) : Prop :=
  s.CreatesOnce a x ∧ s.SparesEntry a x

/-! ## The invariant -/

/-- An unused slot has no value, and a claimed one is waiting for the value of one thread. -/
structure SlotsOk (s : TableState T) : Prop where
  clean : ∀ b i, (s.table b i).key = 0 → (s.table b i).value = none
  claimed : ∀ t a v w i, s.point t = .store a v w i → s.table.entry a i = some none
  exclusive : ∀ t u c, (s.point t).claims = some c → (s.point u).claims = some c → t = u

/-- What is recorded of the calls agrees with the entry of the address. -/
structure LogOk (s : TableState T) (a : Addr) : Prop where
  got : ∀ known r, .got a known r ∈ s.log → ∀ o ∈ known, r = some o
  located : ∀ o, .located a o ∈ s.log → s.table.Holds a o

/-- The entry of the address, and what the threads and the record have of it. -/
structure EntryOk (s : TableState T) (a : Addr) : Prop where
  unique : s.table.Unique a
  stored : ∀ o ∈ s.associated a, s.table.Holds a o
  single : ∀ t u, (s.point t).puts = some a → (s.point u).puts = some a → t = u
  threads : ∀ t, (s.point t).Relies s.table a (s.known t)
  log : LogOk s a

/-- The invariant of runs that are orderly for an address. -/
structure Sound (s : TableState T) (a : Addr) : Prop where
  slots : SlotsOk s
  entry : EntryOk s a

/-- A record that did not grow stays true while the entry is kept. -/
theorem LogOk.keep (h : LogOk s a) (hlog : s'.log = s.log) (hkeeps : s.table.Keeps s'.table a) :
    LogOk s' a where
  got := by
    rw [hlog]
    exact h.got
  located o ho := by
    rw [hlog] at ho
    exact hkeeps.holds (h.located o ho)

/-- A lookup may be recorded that returned every object known when it began. -/
theorem LogOk.note_got (h : LogOk s a) {a' : Addr} {known : List LockObject}
    {r : Option LockObject} (hr : a' = a → ∀ o ∈ known, r = some o) :
    LogOk (s.note (.got a' known r)) a where
  got known' r' hmem := by
    rcases List.mem_cons.mp hmem with heq | hmem
    · cases heq
      exact hr rfl
    · exact h.got known' r' hmem
  located o hmem := by
    rcases List.mem_cons.mp hmem with heq | hmem
    · cases heq
    · exact h.located o hmem

/-- An object may be recorded as located that the table holds. -/
theorem LogOk.note_located (h : LogOk s a) {a' : Addr} {o : LockObject}
    (ho : a' = a → s.table.Holds a o) : LogOk (s.note (.located a' o)) a where
  got known r hmem := by
    rcases List.mem_cons.mp hmem with heq | hmem
    · cases heq
    · exact h.got known r hmem
  located o' hmem := by
    rcases List.mem_cons.mp hmem with heq | hmem
    · cases heq
      exact ho rfl
    · exact h.located o' hmem

/-- What a put or an unlock returned may always be recorded. -/
theorem LogOk.note_other (h : LogOk s a) {e : TableEvent}
    (he : (∃ a v code, e = .put a v code) ∨ ∃ a o, e = .unlocked a o) : LogOk (s.note e) a where
  got known r hmem := by
    rcases List.mem_cons.mp hmem with rfl | hmem
    · simp at he
    · exact h.got known r hmem
  located o hmem := by
    rcases List.mem_cons.mp hmem with rfl | hmem
    · simp at he
    · exact h.located o hmem

/-! ## Steps of one thread -/

/-- The slots stay in order if the unused ones stay clean, those claimed by other threads are
not touched, and the thread claims none that was in use. -/
theorem SlotsOk.of_step (h : SlotsOk s) (t : T)
    (hpoint : ∀ u, u ≠ t → s'.point u = s.point u)
    (hclean : ∀ b i, (s'.table b i).key = 0 → (s'.table b i).value = none)
    (hothers : ∀ u c, u ≠ t → (s.point u).claims = some c → s'.table c.1 c.2 = s.table c.1 c.2)
    (hthread : ∀ a v w i, s'.point t = .store a v w i →
      s'.table.entry a i = some none ∧ ∀ u, u ≠ t → (s.point u).claims ≠ some (a.bucket, i)) :
    SlotsOk s' where
  clean := hclean
  claimed u a v w i hu := by
    by_cases hut : u = t
    · exact (hthread a v w i (hut ▸ hu)).1
    · rw [hpoint u hut] at hu
      have hsame := hothers u (a.bucket, i) hut (by rw [hu]; rfl)
      have hbefore := h.claimed u a v w i hu
      rw [LockTable.entry] at hbefore ⊢
      rw [hsame]
      exact hbefore
  exclusive := by
    have hother : ∀ u c, u ≠ t → (s'.point t).claims = some c → (s'.point u).claims ≠ some c := by
      intro u c hu hc hc'
      rw [hpoint u hu] at hc'
      cases hp : s'.point t with
      | store a v w i =>
        rw [hp] at hc
        cases hc
        exact (hthread a v w i hp).2 u hu hc'
      | _ =>
        rw [hp] at hc
        cases hc
    intro u w c hu hw
    by_cases hut : u = t
    · by_cases hwt : w = t
      · exact hut.trans hwt.symm
      · exact absurd hw (hother w c hwt (hut ▸ hu))
    · by_cases hwt : w = t
      · exact absurd hu (hother u c hut (hwt ▸ hw))
      · rw [hpoint u hut] at hu
        rw [hpoint w hwt] at hw
        exact h.exclusive u w c hu hw

/-- The entry of the address stays in order if it is kept, if only a thread that puts the address
changes it, and if the thread itself and the record are in order. -/
theorem EntryOk.of_step (h : EntryOk s a) (t : T)
    (hpoint : ∀ u, u ≠ t → s'.point u = s.point u) (hknown : ∀ u, u ≠ t → s'.known u = s.known u)
    (hkeeps : s.table.Keeps s'.table a)
    (hwriter : s'.table.entry a = s.table.entry a ∨ (s.point t).puts = some a)
    (hunique : s'.table.Unique a) (hstored : ∀ o ∈ s'.associated a, s'.table.Holds a o)
    (hthread : (s'.point t).Relies s'.table a (s'.known t))
    (hputs : (s'.point t).puts = some a →
      (s.point t).puts = some a ∨ ∀ u, (s.point u).puts ≠ some a)
    (hlog : LogOk s' a) : EntryOk s' a where
  unique := hunique
  stored := hstored
  single := by
    have hother : ∀ u, u ≠ t → (s'.point t).puts = some a → (s'.point u).puts ≠ some a := by
      intro u hu ha ha'
      rw [hpoint u hu] at ha'
      rcases hputs ha with hbefore | hnobody
      · exact hu (h.single u t ha' hbefore)
      · exact hnobody u ha'
    intro u w hu hw
    by_cases hut : u = t
    · by_cases hwt : w = t
      · exact hut.trans hwt.symm
      · exact absurd hw (hother w hwt (hut ▸ hu))
    · by_cases hwt : w = t
      · exact absurd hu (hother u hut (hwt ▸ hw))
      · rw [hpoint u hut] at hu
        rw [hpoint w hwt] at hw
        exact h.single u w hu hw
  threads u := by
    by_cases hu : u = t
    · exact hu ▸ hthread
    · rw [hpoint u hu, hknown u hu]
      refine (h.threads u).keep hkeeps fun hua => ?_
      exact hwriter.resolve_right fun hta => hu (h.single u t hua hta)
  log := hlog

/-- The same for steps that do not change the entry. -/
theorem EntryOk.of_same (h : EntryOk s a) (t : T)
    (hpoint : ∀ u, u ≠ t → s'.point u = s.point u) (hknown : ∀ u, u ≠ t → s'.known u = s.known u)
    (hentry : s'.table.entry a = s.table.entry a) (hassociated : s'.associated a = s.associated a)
    (hthread : (s'.point t).Relies s.table a (s'.known t))
    (hputs : (s'.point t).puts = some a →
      (s.point t).puts = some a ∨ ∀ u, (s.point u).puts ≠ some a)
    (hlog : LogOk s' a) : EntryOk s' a := by
  have hkeeps : s.table.Keeps s'.table a := LockTable.Keeps.of_eq hentry
  refine h.of_step t hpoint hknown hkeeps (Or.inl hentry) ?_ ?_
    (hthread.keep hkeeps fun _ => hentry) hputs hlog
  · rw [LockTable.Unique, hentry]
    exact h.unique
  · rw [hassociated]
    exact fun o ho => hkeeps.holds (h.stored o ho)

/-- A step of one thread that leaves the table alone keeps the invariant if the thread claims
nothing, may be where it is, and what it recorded is true. -/
theorem Sound.of_same (h : Sound s a) (t : T) (hpoint : ∀ u, u ≠ t → s'.point u = s.point u)
    (hknown : ∀ u, u ≠ t → s'.known u = s.known u) (htable : s'.table = s.table)
    (hassociated : s'.associated = s.associated) (hclaims : (s'.point t).claims = none)
    (hthread : (s'.point t).Relies s.table a (s'.known t))
    (hputs : (s'.point t).puts = some a → (s.point t).puts = some a) (hlog : LogOk s' a) :
    Sound s' a where
  slots := by
    refine h.slots.of_step t hpoint ?_ (fun _ _ _ _ => by rw [htable]) ?_
    · rw [htable]
      exact h.slots.clean
    · intro a' v w i hp
      rw [hp] at hclaims
      cases hclaims
  entry := by
    exact h.entry.of_same t hpoint hknown (by rw [htable]) (by rw [hassociated]) hthread
      (fun ha => Or.inl (hputs ha)) hlog

/-- An access outside the table keeps the invariant. -/
theorem Sound.of_idle (h : Sound s a) (hidle : Idle t s s') : Sound s' a := by
  refine h.of_same t hidle.point (fun u _ => by rw [hidle.known]) hidle.table hidle.associated
    (TablePoint.claims_of_free hidle.free) (TablePoint.relies_of_free hidle.free _ _) ?_ ?_
  · rw [TablePoint.puts_of_free hidle.free]
    intro hnone
    cases hnone
  · rcases hidle.log with hlog | ⟨a', o, hlog⟩
    · exact h.entry.log.keep hlog (.of_eq (by rw [hidle.table]))
    · exact (h.entry.log.note_other (Or.inr ⟨a', o, rfl⟩)).keep hlog
        (.of_eq (by rw [hidle.table]; rfl))

end TableState

end Htll
