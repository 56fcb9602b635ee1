import Htll.TableInvariant

/-!
# Moves that keep the entry of an address

The returns of the calls, the creation of an object, the two writes of `hash_put` and the clearing
of slots, each with the condition under which it keeps the invariant.
-/

namespace Htll

namespace TableState

variable {T : Type*} [DecidableEq T] {s s' : TableState T} {t : T} {a a' : Addr}

/-! ## Returns -/

/-- A thread may move to a point it may be at, if it claims nothing there. -/
theorem Sound.goto (h : Sound s a) {q : TablePoint} (hclaims : q.claims = none)
    (hq : q.Relies s.table a (s.known t))
    (hputs : q.puts = some a → (s.point t).puts = some a) : Sound (s.goto t q) a := by
  refine h.of_same t (fun u hu => ?_) (fun _ _ => rfl) rfl rfl ?_ ?_ ?_
    (h.entry.log.keep rfl (.of_eq rfl))
  · rw [goto_point, Function.update_of_ne hu]
  · simpa using hclaims
  · simpa using hq
  · simpa using hputs

/-- The same for a point where the thread puts nothing. -/
theorem Sound.goto_free (h : Sound s a) {q : TablePoint} (hclaims : q.claims = none)
    (hputs : q.puts = none) (hq : q.Relies s.table a (s.known t)) : Sound (s.goto t q) a :=
  h.goto hclaims hq fun ha => by
    rw [hputs] at ha
    cases ha

/-- A thread outside calls relies on nothing. -/
theorem Sound.goto_outside (h : Sound s a) : Sound (s.goto t .outside) a :=
  h.goto_free rfl rfl trivial

omit [DecidableEq T] in
/-- A true record changes nothing else. -/
theorem Sound.note (h : Sound s a) {e : TableEvent} (hlog : LogOk (s.note e) a) :
    Sound (s.note e) a where
  slots := ⟨h.slots.clean, h.slots.claimed, h.slots.exclusive⟩
  entry := ⟨h.entry.unique, h.entry.stored, h.entry.single, h.entry.threads, hlog⟩

/-- A thread that located an object which the table holds may go on with it. -/
theorem Sound.located (h : Sound s a) {o : LockObject} (p : Purpose)
    (ho : a' = a → s.table.Holds a o) : Sound (s.located t a' o p) a := by
  have hnoted := h.note (h.entry.log.note_located ho)
  cases p with
  | hashGet | htLockGet => exact hnoted.goto_outside
  | lock | trylock | unlock => exact hnoted.goto_free rfl rfl ho

/-- A lookup that returns the object of its slot keeps the invariant. -/
theorem Sound.found (h : Sound s a) {p : Purpose} {i : Fin bucketLength} {o : LockObject}
    (hp : s.point t = .result a' p i) (ho : (s.table a'.bucket i).value = some o) :
    Sound (s.found t a' o p) a := by
  have hthread := h.entry.threads t
  rw [hp] at hthread
  have hholds : a' = a → s.table.Holds a o := by
    rintro rfl
    obtain ⟨⟨o', hi⟩, -⟩ := hthread rfl
    have hslot := LockTable.entry_eq_some hi
    rw [hslot] at ho
    cases ho
    exact ⟨i, hi⟩
  have hsame : a' = a → ∀ o' ∈ s.known t, some o = some o' := by
    intro ha o' ho'
    exact congrArg some (h.entry.unique.holds (hholds ha) ((hthread ha).2 o' ho'))
  have hnoted := h.note (h.entry.log.note_got hsame)
  unfold TableState.found
  split
  · exact hnoted.goto_outside
  · exact hnoted.located p hholds

/-- A lookup that returns `NULL` keeps the invariant if it knew of no object. -/
theorem Sound.missing (h : Sound s a) (p : Purpose) (hnone : a' = a → s.known t = []) :
    Sound (s.missing t a' p) a := by
  have hnoted := h.note (e := .got a' (s.known t) none) (h.entry.log.note_got (by
    intro ha o ho
    rw [hnone ha] at ho
    cases ho))
  unfold TableState.missing
  split
  · exact hnoted.goto_outside
  · exact hnoted.goto_free rfl rfl trivial

omit [DecidableEq T] in
/-- A lookup that has reached the end of the bucket knew of no object. -/
theorem EntryOk.known_eq_nil (h : EntryOk s a) {p : Purpose} {i : Fin bucketLength}
    (hp : s.point t = .get a p i) (hkey : (s.table a.bucket i).key ≠ a.1)
    (hlast : nextSlot i = none) : s.known t = [] := by
  have hthread := h.threads t
  rw [hp] at hthread
  refine List.eq_nil_iff_forall_not_mem.mpr fun o ho => ?_
  obtain ⟨j, hij, hj⟩ := hthread rfl o ho
  have hji : j = i := Fin.le_antisymm (nextSlot_eq_none hlast j) hij
  rw [hji, LockTable.entry_eq_none_iff.mpr hkey] at hj
  cases hj

omit [DecidableEq T] in
/-- The process may be terminated. -/
theorem Sound.exit (h : Sound s a) (e : Option Exit) : Sound { s with exited := e } a where
  slots := ⟨h.slots.clean, h.slots.claimed, h.slots.exclusive⟩
  entry := ⟨h.entry.unique, h.entry.stored, h.entry.single, h.entry.threads,
    h.entry.log.got, h.entry.log.located⟩

/-- A put that goes on after an occupied slot keeps the invariant, also when it fails. -/
theorem Sound.tryNext (h : Sound s a) {v : LockObject} {w : Creation} {i : Fin bucketLength}
    (hputs : (s.point t).puts = some a') (habsent : a' = a → ∀ j, s.table.entry a j = none) :
    Sound (s.tryNext t a' v w i) a := by
  unfold TableState.tryNext
  split
  · exact h.goto rfl habsent fun ha => hputs.trans ha
  · have hnoted := h.note (h.entry.log.note_other (Or.inl ⟨a', v, -1, rfl⟩))
    cases w with
    | hashPut => exact hnoted.goto_outside
    | init | use => exact hnoted.exit _

/-! ## Lookups and creations -/

/-- A thread that begins a lookup knows what the table holds. -/
theorem Sound.lookUp (h : Sound s a) (a' : Addr) (p : Purpose) : Sound (s.lookUp t a' p) a where
  slots := by
    refine h.slots.of_step t (fun u hu => by simp [hu]) h.slots.clean (fun _ _ _ _ => rfl) ?_
    intro a'' v w i hp
    simp at hp
  entry := by
    refine h.entry.of_same t (fun u hu => by simp [hu]) (fun u hu => by simp [hu]) rfl rfl ?_ ?_
      (h.entry.log.keep rfl (.of_eq rfl))
    · simp only [TableState.lookUp, Function.update_self]
      rintro rfl o ho
      obtain ⟨j, hj⟩ := h.entry.stored o ho
      exact ⟨j, Nat.zero_le _, hj⟩
    · simp [TablePoint.puts]

/-- A put of the address begins while the address is uncreated; nothing else changes but fields
that the invariant does not mention. -/
theorem Sound.beginPut (h : Sound s a) {v : LockObject} {w : Creation}
    (hputs : a' = a → s.Uncreated a)
    (hpoint : s'.point = Function.update s.point t (.put a' v w firstSlot))
    (htable : s'.table = s.table) (hassociated : s'.associated = s.associated)
    (hknown : s'.known = s.known) (hlog : s'.log = s.log) : Sound s' a where
  slots := by
    refine h.slots.of_step t (fun u hu => by simp [hpoint, hu]) ?_
      (fun _ _ _ _ => by rw [htable]) ?_
    · rw [htable]
      exact h.slots.clean
    · intro a'' v' w' i hp
      simp [hpoint] at hp
  entry := by
    refine h.entry.of_same t (fun u hu => by simp [hpoint, hu]) (fun u _ => congrFun hknown u)
      (by rw [htable]) (by rw [hassociated]) ?_ ?_
      (h.entry.log.keep hlog (.of_eq (by rw [htable])))
    · rw [hpoint, Function.update_self]
      exact fun ha => (hputs ha).1
    · rw [hpoint, Function.update_self]
      exact fun ha => Or.inr (hputs (Option.some.inj ha)).2

/-! ## Writes of slots -/

variable {v : LockObject} {w : Creation} {i : Fin bucketLength}

omit [DecidableEq T] in
/-- A claimed slot has the address of its thread as key and no value. -/
theorem SlotsOk.slot_of_claims (h : SlotsOk s) {c : Fin bucketSize × Fin bucketLength}
    (hc : (s.point t).claims = some c) :
    (s.table c.1 c.2).key ≠ 0 ∧ (s.table c.1 c.2).value = none := by
  cases hp : s.point t with
  | store a v w i =>
    rw [hp] at hc
    cases hc
    have hslot := LockTable.entry_eq_some (h.claimed t a v w i hp)
    rw [hslot]
    exact ⟨a.2, rfl⟩
  | _ =>
    rw [hp] at hc
    cases hc

/-- The claim of an unused slot keeps the slots in order. -/
theorem SlotsOk.claim (h : SlotsOk s) (hkey : (s.table a.bucket i).key = 0) :
    SlotsOk ({ s with
      table := s.table.set a.bucket i { s.table a.bucket i with key := a.1 } }.goto t
        (.store a v w i)) := by
  have hnobody : ∀ u, (s.point u).claims ≠ some (a.bucket, i) :=
    fun u hu => (h.slot_of_claims hu).1 hkey
  refine h.of_step t (fun u hu => by simp [hu]) ?_ ?_ ?_
  · intro b j
    dsimp only [TableState.goto]
    rcases s.table.set_cases a.bucket i { s.table a.bucket i with key := a.1 } b j with
      ⟨-, -, heq⟩ | ⟨-, heq⟩
    · rw [heq]
      exact fun _ => h.clean a.bucket i hkey
    · rw [heq]
      exact h.clean b j
  · intro u c _ hc
    dsimp only [TableState.goto]
    rcases s.table.set_cases a.bucket i { s.table a.bucket i with key := a.1 } c.1 c.2 with
      ⟨hb, hi, -⟩ | ⟨-, heq⟩
    · exact absurd (hc.trans (congrArg some (Prod.ext hb hi))) (hnobody u)
    · exact heq
  · intro a'' v' w' j hp
    simp only [TableState.goto, Function.update_self] at hp ⊢
    cases hp
    refine ⟨?_, fun u _ => hnobody u⟩
    rw [LockTable.entry_set rfl, Function.update_self, h.clean a.bucket i hkey]

/-- The claim of a slot for an address that is absent keeps its entry in order. -/
theorem EntryOk.claim (h : EntryOk s a) (hp : s.point t = .cas a' v w i)
    (hkey : (s.table a'.bucket i).key = 0) :
    EntryOk ({ s with
      table := s.table.set a'.bucket i { s.table a'.bucket i with key := a'.1 } }.goto t
        (.store a' v w i)) a := by
  by_cases ha : a' = a
  · subst ha
    have habsent : ∀ j, s.table.entry a' j = none := by
      have hthread := h.threads t
      rw [hp] at hthread
      exact hthread rfl
    have hnone : ∀ o, ¬ s.table.Holds a' o := by
      rintro o ⟨j, hj⟩
      rw [habsent j] at hj
      cases hj
    have hkeeps : s.table.Keeps
        (s.table.set a'.bucket i { s.table a'.bucket i with key := a'.1 }) a' :=
      ⟨fun j hj => absurd (habsent j) hj, fun j o hj => absurd ⟨j, hj⟩ (hnone o)⟩
    refine h.of_step t (fun u hu => by simp [hu]) (fun _ _ => rfl) hkeeps ?_ ?_ ?_ ?_ ?_
      (h.log.keep rfl hkeeps)
    · rw [hp]
      exact Or.inr rfl
    · intro j k hj hk
      simp only [TableState.goto, LockTable.entry_set] at hj hk
      have hji : j = i := by
        by_contra hne
        rw [Function.update_of_ne hne] at hj
        exact hj (habsent j)
      have hki : k = i := by
        by_contra hne
        rw [Function.update_of_ne hne] at hk
        exact hk (habsent k)
      exact hji.trans hki.symm
    · exact fun o ho => absurd (h.stored o ho) (hnone o)
    · simp [TablePoint.Relies]
    · rw [hp]
      exact fun _ => Or.inl rfl
  · have hne : a'.1 ≠ a.1 := fun heq => ha (Subtype.ext heq)
    have hentry : (s.table.set a'.bucket i { s.table a'.bucket i with key := a'.1 }).entry a =
        s.table.entry a := by
      refine LockTable.entry_set_other ?_ hne
      rw [hkey]
      exact fun heq => a.2 heq.symm
    refine h.of_same t (fun u hu => by simp [hu]) (fun _ _ => rfl) hentry rfl ?_ ?_
      (h.log.keep rfl (.of_eq hentry))
    · simp [TablePoint.Relies]
    · simp [TablePoint.puts, ha]

/-- The store of the value keeps the slots in order. -/
theorem SlotsOk.store (h : SlotsOk s) (hp : s.point t = .store a v w i)
    {l : Addr → List LockObject} :
    SlotsOk ({ s with
      table := s.table.set a.bucket i { s.table a.bucket i with value := some v }
      associated := l }.goto t .outside) := by
  have hslot := LockTable.entry_eq_some (h.claimed t a v w i hp)
  refine h.of_step t (fun u hu => by simp [hu]) ?_ ?_ ?_
  · intro b j
    dsimp only [TableState.goto]
    rcases s.table.set_cases a.bucket i { s.table a.bucket i with value := some v } b j with
      ⟨-, -, heq⟩ | ⟨-, heq⟩
    · rw [heq, hslot]
      exact fun hkey => absurd hkey a.2
    · rw [heq]
      exact h.clean b j
  · intro u c hu hc
    dsimp only [TableState.goto]
    rcases s.table.set_cases a.bucket i { s.table a.bucket i with value := some v } c.1 c.2 with
      ⟨hb, hi, -⟩ | ⟨-, heq⟩
    · have htc : (s.point t).claims = some c := by
        rw [hp]
        exact congrArg some (Prod.ext hb.symm hi.symm)
      exact absurd (h.exclusive u t c hc htc) hu
    · exact heq
  · intro a'' v' w' j hstore
    simp at hstore

/-- The store of the value keeps the entry in order. -/
theorem EntryOk.store (h : EntryOk s a) (hslots : SlotsOk s) (hp : s.point t = .store a' v w i) :
    EntryOk ({ s with
      table := s.table.set a'.bucket i { s.table a'.bucket i with value := some v }
      associated := Function.update s.associated a' (v :: s.associated a')
        }.goto t .outside) a := by
  have hclaimed := hslots.claimed t a' v w i hp
  have hslot := LockTable.entry_eq_some hclaimed
  by_cases ha : a' = a
  · subst ha
    have hentry : (s.table.set a'.bucket i { s.table a'.bucket i with value := some v }).entry a' =
        Function.update (s.table.entry a') i (some (some v)) :=
      LockTable.entry_set (by rw [hslot])
    have hkeeps : s.table.Keeps
        (s.table.set a'.bucket i { s.table a'.bucket i with value := some v }) a' := by
      refine ⟨fun j hj => ?_, fun j o hj => ?_⟩
      · rw [hentry, Function.update_apply]
        split
        · simp
        · exact hj
      · have hne : j ≠ i := by
          rintro rfl
          rw [hclaimed] at hj
          cases hj
        rw [hentry, Function.update_of_ne hne]
        exact hj
    refine h.of_step t (fun u hu => by simp [hu]) (fun _ _ => rfl) hkeeps ?_ ?_ ?_ ?_ ?_
      (h.log.keep rfl hkeeps)
    · rw [hp]
      exact Or.inr rfl
    · have hbefore : ∀ j, s.table.entry a' j = none →
          (s.table.set a'.bucket i { s.table a'.bucket i with value := some v }).entry a' j =
            none := by
        intro j hj
        have hne : j ≠ i := by
          rintro rfl
          rw [hclaimed] at hj
          cases hj
        rw [hentry, Function.update_of_ne hne]
        exact hj
      exact fun j k hj hk => h.unique j k (mt (hbefore j) hj) (mt (hbefore k) hk)
    · intro o ho
      dsimp only [TableState.goto] at ho
      rw [Function.update_self] at ho
      rcases List.mem_cons.mp ho with rfl | ho
      · refine ⟨i, ?_⟩
        dsimp only [TableState.goto]
        rw [hentry, Function.update_self]
      · exact hkeeps.holds (h.stored o ho)
    · simp [TablePoint.Relies]
    · simp [TablePoint.puts]
  · have hne : a'.1 ≠ a.1 := fun heq => ha (Subtype.ext heq)
    have hentry : (s.table.set a'.bucket i { s.table a'.bucket i with value := some v }).entry a =
        s.table.entry a := by
      refine LockTable.entry_set_other ?_ ?_ <;> rw [hslot] <;> exact hne
    refine h.of_same t (fun u hu => by simp [hu]) (fun _ _ => rfl) hentry ?_ ?_ ?_
      (h.log.keep rfl (.of_eq hentry))
    · exact Function.update_of_ne (fun heq => ha heq.symm) _ _
    · simp [TablePoint.Relies]
    · simp [TablePoint.puts]

/-- The claim of a slot keeps the invariant. -/
theorem Sound.claim (h : Sound s a) (hp : s.point t = .cas a' v w i)
    (hkey : (s.table a'.bucket i).key = 0) :
    Sound ({ s with
      table := s.table.set a'.bucket i { s.table a'.bucket i with key := a'.1 } }.goto t
        (.store a' v w i)) a :=
  ⟨h.slots.claim hkey, h.entry.claim hp hkey⟩

/-- The store of the value and the return of `hash_put` keep the invariant. -/
theorem Sound.store (h : Sound s a) (hp : s.point t = .store a' v w i) :
    Sound ({ s with
      table := s.table.set a'.bucket i { s.table a'.bucket i with value := some v }
      associated := Function.update s.associated a' (v :: s.associated a')
        }.stored t a' v w) a := by
  -- the thread is taken outside first, and then to where the return leads it
  have hbase := Sound.mk (h.slots.store hp) (h.entry.store h.slots hp)
  have hnoted := hbase.note (hbase.entry.log.note_other (Or.inl ⟨a', v, 0, rfl⟩))
  cases w with
  | hashPut | init => exact hnoted
  | use p =>
    have hslot := LockTable.entry_eq_some (h.slots.claimed t a' v (.use p) i hp)
    have hlocated : Sound (TableState.located _ t a' v p) a := hnoted.located p (by
      rintro rfl
      refine ⟨i, ?_⟩
      dsimp only [TableState.goto, TableState.note]
      rw [LockTable.entry_set (by rw [hslot]), Function.update_self])
    have hsame : ∀ q : TablePoint, Function.update (Function.update s.point t .outside) t q =
        Function.update s.point t q := fun q => Function.update_idem ..
    simpa [TableState.located, TableState.stored, TableState.goto, TableState.note, hsame]
      using hlocated

/-- The clearing of disposable slots keeps the invariant. -/
theorem Sound.cleared (h : Sound s a) {table : LockTable} {q : TablePoint}
    (htable : ∀ b i, table b i = s.table b i ∨ s.Disposable a b i ∧ table b i = Slot.clear)
    (hclaims : q.claims = none) (hputs : q.puts = none)
    (hq : ∀ known, q.Relies s.table a known) : Sound ({ s with table := table }.goto t q) a := by
  have hentry : table.entry a = s.table.entry a := by
    refine LockTable.entry_eq_of_keys fun j => (htable a.bucket j).imp_right ?_
    rintro ⟨⟨hkey, -⟩, hclear⟩
    rw [hclear]
    exact ⟨hkey, fun heq => a.2 heq.symm⟩
  constructor
  · refine h.slots.of_step t (fun u hu => by simp [hu]) ?_ ?_ ?_
    · intro b j
      dsimp only [TableState.goto]
      rcases htable b j with heq | ⟨-, heq⟩
      · rw [heq]
        exact h.slots.clean b j
      · rw [heq]
        exact fun _ => rfl
    · intro u c _ hc
      obtain ⟨hkey, hvalue⟩ := h.slots.slot_of_claims hc
      rcases htable c.1 c.2 with heq | ⟨⟨-, hwaiting⟩, -⟩
      · exact heq
      · exact absurd (hwaiting hvalue) hkey
    · intro a'' v' w' j hp
      simp only [TableState.goto, Function.update_self] at hp
      rw [hp] at hclaims
      cases hclaims
  · refine h.entry.of_same t (fun u hu => by simp [hu]) (fun _ _ => rfl) hentry rfl ?_ ?_
      (h.entry.log.keep rfl (.of_eq hentry))
    · simpa using hq _
    · simp [hputs]

end TableState

end Htll
