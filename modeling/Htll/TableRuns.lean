import Htll.TableMoves

/-!
# Runs that are orderly for an address

Every access, call and cleared slot keeps the invariant of an address as long as the run is
orderly for it. Under this condition two lookups of the address cannot disagree, and its entry
cannot get lost.
-/

namespace Htll

open Transition

namespace TableState

variable {T : Type*} [DecidableEq T] {s s' : TableState T} {t : T} {a a' : Addr}

omit [DecidableEq T] in
/-- Fields that nothing relies on may change. -/
theorem Sound.of_fields (h : Sound s a) (htable : s'.table = s.table)
    (hassociated : s'.associated = s.associated) (hpoint : s'.point = s.point)
    (hknown : s'.known = s.known) (hlog : s'.log = s.log) : Sound s' a where
  slots := by
    constructor
    · rw [htable]
      exact h.slots.clean
    · rw [htable, hpoint]
      exact h.slots.claimed
    · rw [hpoint]
      exact h.slots.exclusive
  entry := by
    constructor
    · rw [htable]
      exact h.entry.unique
    · rw [htable, hassociated]
      exact h.entry.stored
    · rw [hpoint]
      exact h.entry.single
    · rw [htable, hpoint, hknown]
      exact h.entry.threads
    · exact h.entry.log.keep hlog (.of_eq (by rw [htable]))

/-- The next access of a lookup keeps the invariant. -/
theorem Sound.get (h : Sound s a) {p : Purpose} {i : Fin bucketLength}
    (hp : s.point t = .get a' p i) (hs : s.access t = some s') : Sound s' a := by
  have hthread := h.entry.threads t
  rw [hp] at hthread
  simp only [TableState.access, hp, Option.some.injEq] at hs
  subst hs
  split
  · rename_i hkey
    refine h.goto_free rfl rfl ?_
    rintro rfl
    refine ⟨?_, fun o ho => ?_⟩
    · rw [LockTable.entry_of_key hkey]
      simp
    · obtain ⟨j, -, hj⟩ := hthread rfl o ho
      exact ⟨j, hj⟩
  · rename_i hkey
    cases hnext : nextSlot i with
    | none => exact h.missing p fun ha => h.entry.known_eq_nil (ha ▸ hp) (ha ▸ hkey) hnext
    | some j =>
      refine h.goto_free rfl rfl ?_
      rintro rfl o ho
      obtain ⟨k, hik, hk⟩ := hthread rfl o ho
      refine ⟨k, ?_, hk⟩
      have hne : (k : ℕ) ≠ i := by
        intro heq
        rw [Fin.ext heq, LockTable.entry_eq_none_iff.mpr hkey] at hk
        cases hk
      have hj := nextSlot_eq_some hnext
      rw [Fin.le_def] at hik ⊢
      omega

/-- The return of a lookup keeps the invariant. -/
theorem Sound.result (h : Sound s a) {p : Purpose} {i : Fin bucketLength}
    (hp : s.point t = .result a' p i) (hs : s.access t = some s') : Sound s' a := by
  have hthread := h.entry.threads t
  rw [hp] at hthread
  simp only [TableState.access, hp] at hs
  split at hs <;> cases hs
  · rename_i hvalue
    refine h.missing p ?_
    rintro rfl
    obtain ⟨⟨o, hi⟩, -⟩ := hthread rfl
    rw [LockTable.entry_eq_some hi] at hvalue
    cases hvalue
  · rename_i o ho
    exact h.found hp ho

/-- Every orderly access keeps the invariant. -/
theorem Sound.access (h : Sound s a) (hcreates : (s.point t).creates = some a → s.Uncreated a)
    (hspares : s.SparesRestAt a (s.point t)) (hs : s.access t = some s') : Sound s' a := by
  have hthread := h.entry.threads t
  cases hp : s.point t with
  | outside => simp [TableState.access, hp] at hs
  | get => exact h.get hp hs
  | value a' p i =>
    rw [hp] at hthread
    simp only [TableState.access, hp, Option.some.injEq] at hs
    subst hs
    split
    · exact h
    · rename_i hvalue
      refine h.goto_free rfl rfl ?_
      rintro rfl
      obtain ⟨hi, hknown⟩ := hthread rfl
      obtain ⟨r, hr⟩ := Option.ne_none_iff_exists'.mp hi
      rw [LockTable.entry_eq_some hr] at hvalue
      obtain ⟨o, rfl⟩ := Option.ne_none_iff_exists'.mp hvalue
      exact ⟨⟨o, hr⟩, hknown⟩
  | result => exact h.result hp hs
  | create a' w =>
    rw [hp] at hcreates
    simp only [TableState.access, hp, Option.some.injEq] at hs
    subst hs
    exact h.beginPut (fun ha => hcreates (congrArg some ha)) rfl rfl rfl rfl rfl
  | put a' v w i =>
    rw [hp] at hthread
    simp only [TableState.access, hp, Option.some.injEq] at hs
    subst hs
    split
    · exact h.goto rfl hthread fun ha => by rw [hp]; exact ha
    · exact h.tryNext (by rw [hp]; rfl) hthread
  | cas a' v w i =>
    rw [hp] at hthread
    simp only [TableState.access, hp, Option.some.injEq] at hs
    subst hs
    split
    · rename_i hkey
      exact h.claim hp hkey
    · exact h.tryNext (by rw [hp]; rfl) hthread
  | store a' v w i =>
    simp only [TableState.access, hp, Option.some.injEq] at hs
    subst hs
    exact h.store hp
  | operate | initCheck | initCas | initSpin | initThreadId | initLoad | initDone =>
    exact h.of_idle (idle_access (by rw [hp]; rfl) hs)
  | initClear rwlock cleared =>
    rw [hp] at hspares
    simp only [TableState.access, hp, Option.some.injEq] at hs
    subst hs
    refine h.cleared (fun b i => ?_) rfl rfl fun _ => trivial
    split
    · exact Or.inl rfl
    · rename_i hmem
      exact Or.inr ⟨hspares b i hmem, rfl⟩

/-- Every call may begin; a direct `hash_put` only of an uncreated address. -/
theorem Sound.begin (h : Sound s a) {c : TableCall}
    (hcreates : ∀ a' v, c = .hashPut a' v → a' = a → s.Uncreated a) (hs : s.begin t c = some s') :
    Sound s' a := by
  have hlive : ∀ a', Sound (s.enliven a') a := fun a' => h.of_fields rfl rfl rfl rfl rfl
  cases c with
  | hashGet a' =>
    cases hs
    exact h.lookUp a' _
  | htLockGet a' | lock a' | trylock a' | unlock a' =>
    cases hs
    exact (hlive a').lookUp a' _
  | init a' | rwlockInit a' =>
    cases hs
    exact (hlive a').goto_free rfl rfl trivial
  | destroy a' =>
    cases hs
    exact h.of_fields rfl rfl rfl rfl rfl
  | interposeInit =>
    cases hs
    exact h.goto_free rfl rfl trivial
  | hashPut a' v =>
    obtain ⟨-, heq⟩ := Option.ite_none_right_eq_some.mp hs
    cases heq
    exact h.beginPut (hcreates a' v rfl) rfl rfl rfl rfl rfl

/-- Clearing a disposable slot keeps the invariant. -/
theorem Sound.clear (h : Sound s a) {b : Fin bucketSize} {i : Fin bucketLength}
    (hspares : s.Disposable a b i) (hs : s.clear t b i = some s') : Sound s' a := by
  simp only [TableState.clear] at hs
  split at hs
  · split at hs
    · cases hs
    · cases hs
      refine h.cleared (fun b' i' => ?_) rfl rfl fun _ => trivial
      rcases s.table.set_cases b i Slot.clear b' i' with ⟨rfl, rfl, heq⟩ | ⟨-, heq⟩
      · exact Or.inr ⟨hspares, heq⟩
      · exact Or.inl heq
  · cases hs

/-- Every orderly action keeps the invariant. -/
theorem Sound.step (h : Sound s a) {x : TableAction T} (horderly : s.Orderly a x)
    (hs : s.step x = some s') : Sound s' a := by
  obtain ⟨-, hs⟩ := Option.ite_none_right_eq_some.mp hs
  obtain ⟨hcreates, hspares⟩ := horderly
  cases x with
  | call t c =>
    obtain ⟨-, hs⟩ := Option.ite_none_right_eq_some.mp hs
    refine h.begin (fun a' v hc ha => hcreates ?_) hs
    rw [hc, ha]
    rfl
  | access t => exact h.access hcreates hspares hs
  | clear t b i => exact h.clear hspares hs

omit [DecidableEq T] in
/-- A process begins with an empty table. -/
theorem sound_initial : Sound (initial : TableState T) a where
  slots := ⟨fun _ _ _ => rfl, by simp [initial], by simp [initial, TablePoint.claims]⟩
  entry := by
    have hnone : ∀ i, (initial : TableState T).table.entry a i = none :=
      fun i => LockTable.entry_eq_none_iff.mpr fun heq => a.2 heq.symm
    refine ⟨fun i j hi => absurd (hnone i) hi, by simp [initial],
      by simp [initial, TablePoint.puts], fun _ => trivial, ⟨by simp [initial], by simp [initial]⟩⟩

/-- Every run that is orderly for an address keeps its invariant. -/
theorem sound_of_path (hpath : Path step (Orderly a) initial s) : Sound s a :=
  Path.invariant (fun s => Sound s a) (fun _ _ _ horderly hs h => h.step horderly hs) hpath
    sound_initial

end TableState

end Htll
