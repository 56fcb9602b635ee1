import Htll.Protocol.ParkingLock

/-!
# The atomic mutex and what implements it

The specification of a mutex is its owner: somebody takes it while it is free, and the owner
lets it go. The parking lock implements it: whoever holds the lock is the owner, and each of
its steps takes the mutex, lets it go, or does neither.
-/

namespace AtomicMutex

variable {T : Type*}

/-- One step of the atomic mutex. -/
inductive Step : Option T → Option T → Prop
  | acquire (t : T) : Step none (some t)
  | release (t : T) : Step (some t) none

/-- The owner of a lock is the only thread that holds it. -/
def Owns (s : ParkingLock.State T) (owner : Option T) : Prop :=
  ∀ t, s.holds t = true ↔ owner = some t

/-- A lock has at most one owner. -/
theorem Owns.unique {s : ParkingLock.State T} {owner owner' : Option T} (h : Owns s owner)
    (h' : Owns s owner') : owner = owner' := by
  ext t
  exact (h t).symm.trans (h' t)

/-- A lock with mutual exclusion has an owner exactly while its locked byte is set. -/
theorem exists_owner {s : ParkingLock.State T} (h : ParkingLock.Exclusive s) :
    ∃ owner, Owns s owner ∧ owner.isSome = s.locked := by
  cases hlocked : s.locked with
  | true =>
    obtain ⟨t, ht⟩ := h.held_of_locked hlocked
    refine ⟨some t, fun u => ⟨fun hu => ?_, fun hu => ?_⟩, rfl⟩
    · rw [h.unique t u ht hu]
    · rwa [← Option.some.inj hu]
  | false =>
    refine ⟨none, fun u => ?_, rfl⟩
    simp [h.not_holds hlocked u]

variable [DecidableEq T]

/-- A step of the parking lock is a step of the atomic mutex or leaves the owner alone. -/
theorem refines {s s' : ParkingLock.State T} {owner owner' : Option T}
    (hexcl : ParkingLock.Exclusive s) (hstep : ParkingLock.Step s s') (h : Owns s owner)
    (h' : Owns s' owner') : Relation.ReflGen Step owner owner' := by
  -- a step that takes the lock, one that frees it, and one that does neither
  have htake : ∀ t, s.locked = false → s'.holds = Function.update s.holds t true →
      Relation.ReflGen Step owner owner' := by
    intro t hfree hholds
    have hnone : owner = none := by
      rw [Option.eq_none_iff_forall_not_mem]
      intro u hu
      have := (h u).mpr hu
      simp [hexcl.not_holds hfree u] at this
    have hsome : owner' = some t := (h' t).mp (by rw [hholds, Function.update_self])
    rw [hnone, hsome]
    exact .single (.acquire t)
  have hrelease : ∀ t, s.holds t = true → s'.holds = Function.update s.holds t false →
      Relation.ReflGen Step owner owner' := by
    intro t ht hholds
    have hsome : owner = some t := (h t).mp ht
    have hnone : owner' = none := by
      rw [Option.eq_none_iff_forall_not_mem]
      intro u hu
      have hu' := (h' u).mpr hu
      rw [hholds] at hu'
      by_cases hut : u = t
      · simp [hut] at hu'
      · rw [Function.update_of_ne hut] at hu'
        exact hut (hexcl.unique u t hu' ht)
    rw [hsome, hnone]
    exact .single (.release t)
  have hkeep : s'.holds = s.holds → Relation.ReflGen Step owner owner' := by
    intro hholds
    have hsame : Owns s owner' := fun t => by rw [← hholds]; exact h' t
    rw [h.unique hsame]
  cases hstep with
  | byteTake _ _ hfree => exact htake _ hfree rfl
  | fullTake _ _ hfree => exact htake _ hfree rfl
  | releaseFast hholds => exact hrelease _ hholds rfl
  | releaseSlow _ _ hholds => exact hrelease _ hholds rfl
  | _ => exact hkeep rfl

/-- So is an access that the lock may not notice. -/
theorem refines_moves {s s' : ParkingLock.State T} {owner owner' : Option T}
    (hexcl : ParkingLock.Exclusive s) (hmoves : ParkingLock.Moves s s') (h : Owns s owner)
    (h' : Owns s' owner') : Relation.ReflGen Step owner owner' := by
  cases hmoves with
  | refl => rw [h.unique h']
  | single hstep => exact refines hexcl hstep h h'

end AtomicMutex
