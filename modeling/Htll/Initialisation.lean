import Htll.FirstUse

/-!
# Locks and the initialisation of the library

`interpose_init` clears the whole table. `pthread_rwlock_init` does not touch the table before
`init_spinlock` says that this is done, but the other functions do not look: a mutex that was
used before the constructor ran loses its lock object, and with it its owner. It keeps both in a
run in which `memset` clears no slot of the mutex and no object is created for it twice.
-/

namespace Htll

open Transition

namespace TableState

variable {T : Type*} [DecidableEq T] {s s' s'' : TableState T} {t : T} {a : Addr}

/-! ## Lock objects exist -/

/-- The objects in slots, on the way there and with an owner exist. -/
structure Allocated (s : TableState T) : Prop where
  values : ∀ b i o, (s.table b i).value = some o → o < s.allocated
  carried : ∀ t o, (s.point t).carries = some o → o < s.allocated
  owned : ∀ o t, s.owner o = some t → o < s.allocated

omit [DecidableEq T] in
/-- After a move of one thread only its own object is new. -/
theorem Allocated.of_thread (h : Allocated s) (hle : s.allocated ≤ s'.allocated)
    (hvalues : ∀ b i o, (s'.table b i).value = some o → o < s'.allocated)
    (hpoint : ∀ u, u ≠ t → s'.point u = s.point u)
    (hcarries : ∀ o, (s'.point t).carries = some o → o < s'.allocated)
    (howned : ∀ o u, s'.owner o = some u → o < s'.allocated) : Allocated s' where
  values := hvalues
  carried u o ho := by
    by_cases hu : u = t
    · exact hcarries o (hu ▸ ho)
    · rw [hpoint u hu] at ho
      exact lt_of_lt_of_le (h.carried u o ho) hle
  owned := howned

/-- A put that returns carries at most the object that was put. -/
theorem carries_stored {a : Addr} {v o : LockObject} {w : Creation}
    (ho : ((s.stored t a v w).point t).carries = some o) : o = v := by
  cases w with
  | hashPut | init => simp [stored, TablePoint.carries] at ho
  | use p => cases p <;> simp_all [stored, located, TablePoint.carries]

/-- Every action keeps the objects in use allocated. -/
theorem Allocated.of_effect (h : Allocated s) (heffect : Effect t s s') : Allocated s' := by
  cases heffect with
  | aside haside hcarries =>
    refine h.of_thread haside.allocated.ge ?_ haside.point (fun o ho => ?_) ?_
    · rw [haside.table, haside.allocated]
      exact h.values
    · rw [haside.allocated]
      rcases hcarries o ho with hbefore | ⟨b, i, hslot⟩
      · exact h.carried t o hbefore
      · exact h.values b i o hslot
    · rw [haside.owner, haside.allocated]
      exact h.owned
  | put a v w hpoint htable _ _ hle hv _ howned =>
    refine h.of_thread (t := t) hle (fun b i o ho => ?_) (fun u hu => by simp [hpoint, hu])
      (fun o ho => ?_) fun o u hu => lt_of_lt_of_le (h.owned o u (howned o u hu)) hle
    · rw [htable] at ho
      exact lt_of_lt_of_le (h.values b i o ho) hle
    · simp only [hpoint, Function.update_self] at ho
      cases ho
      exact hv
  | claim a v w i hp _ hs =>
    subst hs
    refine h.of_thread (t := t) le_rfl (fun b j o ho => ?_) (fun u hu => by simp [hu])
      (fun o ho => ?_) h.owned
    · rcases s.table.set_cases a.bucket i { s.table a.bucket i with key := a.1 } b j with
        ⟨-, -, heq⟩ | ⟨-, heq⟩
      · simp only [goto_table, heq] at ho
        exact h.values a.bucket i o ho
      · simp only [goto_table, heq] at ho
        exact h.values b j o ho
    · simp only [goto_point, Function.update_self] at ho
      cases ho
      exact h.carried t v (by rw [hp]; rfl)
  | store a v w i hp hs =>
    have hv : v < s.allocated := h.carried t v (by rw [hp]; rfl)
    subst hs
    have haside := aside_stored { s with
      table := s.table.set a.bucket i { s.table a.bucket i with value := some v }
      associated := Function.update s.associated a (v :: s.associated a) } t a v w
    refine h.of_thread (t := t) haside.allocated.ge (fun b j o ho => ?_) haside.point
      (fun o ho => ?_) ?_
    · rw [haside.allocated]
      rw [haside.table] at ho
      rcases s.table.set_cases a.bucket i { s.table a.bucket i with value := some v } b j with
        ⟨-, -, heq⟩ | ⟨-, heq⟩
      · simp only [heq] at ho
        cases ho
        exact hv
      · simp only [heq] at ho
        exact h.values b j o ho
    · rw [haside.allocated, carries_stored ho]
      exact hv
    · rw [haside.owner, haside.allocated]
      exact h.owned
  | take a o p hp _ hs =>
    have ho : o < s.allocated := h.carried t o (by rw [hp]; rfl)
    subst hs
    refine h.of_thread (t := t) le_rfl h.values (fun u hu => by simp [hu]) ?_ fun o' u hu => ?_
    · simp [TablePoint.carries]
    · simp only [goto_owner, Function.update_apply] at hu
      split at hu
      · rename_i heq
        exact heq ▸ ho
      · exact h.owned o' u hu
  | release a o p hp hs =>
    subst hs
    refine h.of_thread (t := t) le_rfl h.values (fun u hu => by simp [hu]) ?_ fun o' u hu => ?_
    · simp [TablePoint.carries]
    · simp only [goto_owner, note_owner, Function.update_apply] at hu
      split at hu
      · cases hu
      · exact h.owned o' u hu
  | clear table q htable hcarries _ hs =>
    subst hs
    refine h.of_thread (t := t) le_rfl (fun b i o ho => ?_) (fun u hu => by simp [hu]) ?_ h.owned
    · rcases htable b i with heq | heq
      · simp only [goto_table, heq] at ho
        exact h.values b i o ho
      · simp only [goto_table, heq] at ho
        cases ho
    · simp [hcarries]

/-- In every run the objects in use are allocated. -/
theorem allocated_of_path {guard : TableState T → TableAction T → Prop}
    (hpath : Path step guard initial s) : Allocated s := by
  refine Path.invariant Allocated (fun _ _ _ _ hs h => ?_) hpath ⟨by simp [initial, Slot.clear],
    by simp [initial, TablePoint.carries], by simp [initial]⟩
  obtain ⟨t, heffect⟩ := step_effect hs
  exact h.of_effect heffect

/-! ## What stays -/

/-- A later state: associations and records stay, and an owner stays until an unlock. -/
structure Later (s s' : TableState T) : Prop where
  associated : ∀ a, s.associated a ⊆ s'.associated a
  log : s.log <:+ s'.log
  owner : ∀ o u, s.owner o = some u →
    s'.owner o = some u ∨ ∃ events a, events ++ s.log = s'.log ∧ .unlocked a o ∈ events

omit [DecidableEq T] in
/-- Later than later is later. -/
theorem Later.trans (h : Later s s') (h' : Later s' s'') : Later s s'' where
  associated a := List.Subset.trans (h.associated a) (h'.associated a)
  log := h.log.trans h'.log
  owner o u hu := by
    obtain ⟨before, hbefore⟩ := h.log
    obtain ⟨after, hafter⟩ := h'.log
    rcases h.owner o u hu with hu' | ⟨events, a, hevents, hmem⟩
    · rcases h'.owner o u hu' with hu'' | ⟨events, a, hevents, hmem⟩
      · exact Or.inl hu''
      · refine Or.inr ⟨events ++ before, a, ?_, List.mem_append_left _ hmem⟩
        rw [List.append_assoc, hbefore, hevents]
    · refine Or.inr ⟨after ++ events, a, ?_, List.mem_append_right _ hmem⟩
      rw [List.append_assoc, hevents, hafter]

/-- Every action leads to a later state. -/
theorem Later.of_effect (h : Allocated s) (heffect : Effect t s s') : Later s s' := by
  cases heffect with
  | aside haside =>
    refine ⟨fun a => by rw [haside.associated]; exact List.Subset.refl _, haside.log, ?_⟩
    rw [haside.owner]
    exact fun _ _ => Or.inl
  | put a v w _ _ hassociated _ _ _ howner _ hlog =>
    refine ⟨fun a => by rw [hassociated]; exact List.Subset.refl _, by rw [hlog], ?_⟩
    intro o u hu
    rw [howner o (h.owned o u hu)]
    exact Or.inl hu
  | claim a v w i _ _ hs =>
    subst hs
    exact ⟨fun _ => List.Subset.refl _, List.suffix_refl _, fun _ _ => Or.inl⟩
  | store a v w i _ hs =>
    subst hs
    have haside := aside_stored { s with
      table := s.table.set a.bucket i { s.table a.bucket i with value := some v }
      associated := Function.update s.associated a (v :: s.associated a) } t a v w
    refine ⟨fun a' => ?_, haside.log, ?_⟩
    · rw [haside.associated]
      by_cases ha : a' = a
      · subst ha
        dsimp only
        rw [Function.update_self]
        exact List.subset_cons_self _ _
      · dsimp only
        rw [Function.update_of_ne ha]
        exact List.Subset.refl _
    · rw [haside.owner]
      exact fun _ _ => Or.inl
  | take a o p _ hfree hs =>
    subst hs
    refine ⟨fun _ => List.Subset.refl _, List.suffix_refl _, fun o' u hu => Or.inl ?_⟩
    have hne : o' ≠ o := by
      rintro rfl
      rw [hfree] at hu
      cases hu
    simpa [hne] using hu
  | release a o p _ hs =>
    subst hs
    refine ⟨fun _ => List.Subset.refl _, List.suffix_cons _ _, fun o' u hu => ?_⟩
    by_cases ho : o' = o
    · exact Or.inr ⟨[.unlocked a o], a, rfl, by simp [ho]⟩
    · refine Or.inl ?_
      simpa [ho] using hu
  | clear table q _ _ _ hs =>
    subst hs
    exact ⟨fun _ => List.Subset.refl _, List.suffix_refl _, fun _ _ => Or.inl⟩

/-- A run leads to a later state. -/
theorem later_of_path {guard : TableState T → TableAction T → Prop} (h : Allocated s)
    (hpath : Path step guard s s') : Later s s' := by
  refine Path.invariant_of Allocated (Later s) (fun _ _ _ _ hs h => ?_)
    (fun _ _ _ _ hs h hlater => ?_) hpath h
    ⟨fun _ => List.Subset.refl _, List.suffix_refl _, fun _ _ => Or.inl⟩
  · obtain ⟨t, heffect⟩ := step_effect hs
    exact h.of_effect heffect
  · obtain ⟨t, heffect⟩ := step_effect hs
    exact hlater.trans (.of_effect h heffect)

/-! ## Locks survive orderly runs only -/

/-- Runs of calls on mutexes and of the constructor. -/
def mutexCalls (_ : TableState T) : TableAction T → Bool
  | .call _ (.init _) | .call _ (.lock _) | .call _ (.trylock _) | .call _ (.unlock _)
  | .call _ .interposeInit | .access _ | .clear _ _ _ => true
  | .call _ _ => false

/-- A thread that locks a mutex in a constructor of another library and tries to lock it again
after the constructor of this one gets it a second time. -/
theorem lock_lost_in_initialisation : ∃ s : TableState Unit,
    Path step (fun s x => mutexCalls s x = true) initial s ∧
      .got staticMutex [0] none ∈ s.log ∧ s.owner 0 = some () ∧ s.owner 1 = some () := by
  refine exists_path_of_execute _ _
    (.call () (.lock staticMutex) :: fullLookUp () ++ List.replicate 5 (.access ()) ++
      .call () .interposeInit :: List.replicate 5 (.access ()) ++
      .call () (.trylock staticMutex) :: fullLookUp () ++ List.replicate 5 (.access ())) _ _ ?_
  decide +kernel

/-- In a run in which `memset` clears no slot of a mutex and objects for it are only created while
it is neither in the table nor being put there, every lookup returns the object that was
associated with the mutex before it began. An object stays associated, in the table and locked
until it is unlocked. -/
theorem lock_survives_initialisation (hpath : Path step (Orderly a) initial s)
    (hlater : Path step (Orderly a) s s') :
    (∀ known r, .got a known r ∈ s'.log → ∀ o ∈ known, r = some o) ∧
      ∀ o ∈ s.associated a, o ∈ s'.associated a ∧ s'.table.Holds a o ∧
        ∀ t, s.owner o = some t → s'.owner o = some t ∨
          ∃ events a', events ++ s.log = s'.log ∧ .unlocked a' o ∈ events := by
  have hentry : EntryOk s' a := (sound_of_path (hpath.trans hlater)).entry
  have hstays : Later s s' := later_of_path (allocated_of_path hpath) hlater
  refine ⟨hentry.log.got, fun o ho => ?_⟩
  have ho' : o ∈ s'.associated a := hstays.associated a ho
  exact ⟨ho', hentry.stored o ho', hstays.owner o⟩

/-- The constructor has cleared the slot of the mutex when the mutex is locked, and clears another
one before the mutex is looked up again. -/
theorem lock_survives_initialisation_cleared : ∃ s s' : TableState (Fin 2),
    s.owner 0 = some 0 ∧ .got staticMutex [0] (some 0) ∈ s'.log ∧
      (∀ known r, .got staticMutex known r ∈ s'.log → ∀ o ∈ known, r = some o) ∧
      s'.table.Holds staticMutex 0 := by
  obtain ⟨s, s', hpath, hlater, howner, hassociated, hgot⟩ := exists_paths_of_execute
    (step (T := Fin 2)) (Orderly staticMutex)
    (.call 1 .interposeInit :: .access 1 :: .clear 1 staticMutex.bucket firstSlot ::
      .call 0 (.lock staticMutex) :: fullLookUp 0 ++ List.replicate 5 (.access 0))
    (.clear 1 staticMutex.bucket ⟨1, by decide⟩ :: .call 0 (.hashGet staticMutex) ::
      List.replicate 3 (.access 0))
    initial
    (fun s s' => s.owner 0 = some 0 ∧ 0 ∈ s.associated staticMutex ∧
      .got staticMutex [0] (some 0) ∈ s'.log)
    (by decide +kernel)
  obtain ⟨hfirst, hsecond⟩ := lock_survives_initialisation hpath hlater
  exact ⟨s, s', howner, hgot, hfirst, (hsecond 0 hassociated).2.1⟩

end TableState

end Htll
