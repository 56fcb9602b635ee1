import Mathlib.Logic.Function.Basic
import Mathlib.Logic.Relation

/-!
# Gates

A gate is open or closed. Threads arrive at a gate and pass it while it is open; a gate of the
turnstile kind closes behind the thread that passes. Whoever waits at a gate leaves it only through
the open gate, and nobody opens it but an opener.
-/

namespace Gate

variable {T V : Type*} [DecidableEq T] [DecidableEq V]

/-- Which gates are open, and where each thread waits. -/
structure State (T V : Type*) where
  isOpen : V → Bool
  waits : T → Option V

/-- One step at the gates; passing closes a gate of the turnstile kind. -/
inductive Step (turnstile : Bool) : State T V → State T V → Prop
  | arrive {s : State T V} {t : T} {v : V} (hidle : s.waits t = none) :
    Step turnstile s { s with waits := Function.update s.waits t (some v) }
  | opens {s : State T V} {v : V} :
    Step turnstile s { s with isOpen := Function.update s.isOpen v true }
  | closes {s : State T V} {v : V} :
    Step turnstile s { s with isOpen := Function.update s.isOpen v false }
  | pass {s : State T V} {t : T} {v : V} (hwaits : s.waits t = some v)
      (hopen : s.isOpen v = true) :
    Step turnstile s
      { isOpen := if turnstile then Function.update s.isOpen v false else s.isOpen
        waits := Function.update s.waits t none }

variable {turnstile : Bool} {s s' : State T V} {t : T} {v : V}

/-- Nobody leaves a gate but through the open gate. -/
theorem Step.open_of_left (h : Step turnstile s s') (hbefore : s.waits t = some v)
    (hafter : s'.waits t ≠ some v) : s.isOpen v = true ∧ s'.waits t = none := by
  cases h with
  | @arrive u w hidle =>
    by_cases hut : t = u
    · subst hut
      rw [hbefore] at hidle
      cases hidle
    · refine absurd ?_ hafter
      simpa only [Function.update_of_ne hut] using hbefore
  | opens => exact absurd hbefore hafter
  | closes => exact absurd hbefore hafter
  | @pass u w hwaits hopen =>
    by_cases hut : t = u
    · subst hut
      obtain rfl : v = w := Option.some.inj (hbefore.symm.trans hwaits)
      exact ⟨hopen, Function.update_self ..⟩
    · refine absurd ?_ hafter
      simpa only [Function.update_of_ne hut] using hbefore

end Gate
