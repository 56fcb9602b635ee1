import Mathlib.Data.Fintype.Pi
import Htll.TableRuns

/-!
# The first use of a mutex

A statically initialised mutex gets its lock object when it is first used. `ht_lock_get` looks the
address up, creates an object if there is none, and appends it without another look at the
bucket. The comment in `ht_lock_create` counts on the second of two such puts to fail, and on a
lookup afterwards; neither is there. Two threads that use the mutex for the first time at once
can each be given an object of its own. They cannot if none of them creates an object for the
address while another one is putting it into the table or has put it there.
-/

namespace Htll

open Transition

namespace TableState

variable {T : Type*} [DecidableEq T] {s : TableState T} {a : Addr}

/-- Runs of uses of one mutex only. -/
def onlyUses (a : Addr) (_ : TableState T) : TableAction T → Bool
  | .call _ c => c = .htLockGet a ∨ c = .lock a ∨ c = .trylock a ∨ c = .unlock a
  | .access _ => true
  | .clear _ _ _ => false

section Decidable

variable [Fintype T]

instance (s : TableState T) : Decidable (s.Uncreated a) :=
  inferInstanceAs (Decidable (_ ∧ _))

instance (s : TableState T) (x : TableAction T) : Decidable (s.CreatesOnce a x) :=
  inferInstanceAs (Decidable (_ → _))

instance (s : TableState T) (b : Fin bucketSize) (i : Fin bucketLength) :
    Decidable (s.Disposable a b i) :=
  inferInstanceAs (Decidable (_ ∧ _))

instance (s : TableState T) (q : TablePoint) : Decidable (s.SparesRestAt a q) :=
  match q with
  | .initClear _ cleared =>
    inferInstanceAs (Decidable (∀ b i, (b, i) ∉ cleared → s.Disposable a b i))
  | .outside | .get _ _ _ | .value _ _ _ | .result _ _ _ | .create _ _ | .put _ _ _ _
  | .cas _ _ _ _ | .store _ _ _ _ | .operate _ _ _ | .initCheck _ | .initCas _ | .initSpin _
  | .initThreadId _ | .initLoad _ | .initDone _ => .isTrue trivial

instance (s : TableState T) (x : TableAction T) : Decidable (s.SparesEntry a x) :=
  match x with
  | .access t => inferInstanceAs (Decidable (s.SparesRestAt a (s.point t)))
  | .clear _ b i => inferInstanceAs (Decidable (s.Disposable a b i))
  | .call _ _ => .isTrue trivial

instance (s : TableState T) (x : TableAction T) : Decidable (Orderly a s x) :=
  inferInstanceAs (Decidable (_ ∧ _))

end Decidable

/-- A mutex. -/
def staticMutex : Addr := ⟨0x1000, by decide⟩

/-- The lookup of an address that is in no slot of its bucket. -/
def fullLookUp {T : Type*} (t : T) : List (TableAction T) := List.replicate bucketLength (.access t)

/-- Two threads that lock a mutex for the first time at once both get it: each finds no object,
creates one and returns its own. -/
theorem first_use_disagrees : ∃ s : TableState (Fin 2),
    Path step (fun s x => onlyUses staticMutex s x = true) initial s ∧
      (.located staticMutex 0 ∈ s.log ∧ .located staticMutex 1 ∈ s.log) ∧
      s.owner 0 = some 0 ∧ s.owner 1 = some 1 := by
  refine exists_path_of_execute _ _
    (.call 0 (.lock staticMutex) :: fullLookUp 0 ++
      .call 1 (.lock staticMutex) :: fullLookUp 1 ++
      List.replicate 5 (.access 0) ++ List.replicate 6 (.access 1)) _ _ ?_
  decide +kernel

/-- In a run in which objects for an address are only created while it is neither in the table nor
being put there, and `memset` spares its slot, all calls for the address locate the same object,
and all threads operate on it. -/
theorem first_use_agrees (hpath : Path step (Orderly a) initial s) :
    (∀ o o', .located a o ∈ s.log → .located a o' ∈ s.log → o = o') ∧
      (∀ t o p o', s.point t = .operate a o p → .located a o' ∈ s.log → o = o') ∧
      ∀ t u o o' p p', s.point t = .operate a o p → s.point u = .operate a o' p' → o = o' := by
  have hentry : EntryOk s a := (sound_of_path hpath).entry
  have hoperate : ∀ t o p, s.point t = .operate a o p → s.table.Holds a o := by
    intro t o p hp
    have hthread := hentry.threads t
    rw [hp] at hthread
    exact hthread rfl
  refine ⟨fun o o' ho ho' => ?_, fun t o p o' hp ho' => ?_, fun t u o o' p p' hp hp' => ?_⟩
  · exact hentry.unique.holds (hentry.log.located o ho) (hentry.log.located o' ho')
  · exact hentry.unique.holds (hoperate t o p hp) (hentry.log.located o' ho')
  · exact hentry.unique.holds (hoperate t o p hp) (hoperate u o' p' hp')

/-- The second thread looks the mutex up while the first one is about to store the value, and
waits for it. -/
theorem first_use_agrees_waiting : ∃ s : TableState (Fin 2),
    .located staticMutex 0 ∈ s.log ∧ s.point 1 = .operate staticMutex 0 .trylock ∧
      ∀ o o', .located staticMutex o ∈ s.log → .located staticMutex o' ∈ s.log → o = o' := by
  obtain ⟨s, hpath, hlocated, hpoint⟩ := exists_path_of_execute (step (T := Fin 2))
    (Orderly staticMutex)
    (.call 0 (.lock staticMutex) :: fullLookUp 0 ++ List.replicate 3 (.access 0) ++
      .call 1 (.trylock staticMutex) :: List.replicate 3 (.access 1) ++
      List.replicate 2 (.access 0) ++ List.replicate 2 (.access 1))
    initial
    (fun s => .located staticMutex 0 ∈ s.log ∧ s.point 1 = .operate staticMutex 0 .trylock)
    (by decide +kernel)
  exact ⟨s, hlocated, hpoint, (first_use_agrees hpath).1⟩

end TableState

end Htll
