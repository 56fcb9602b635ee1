import Htll.MachineFlow
import Mathlib.Algebra.Ring.Nat

/-!
# The spin budget of a mutex

`ticks_spin` is only changed by `adjust_spin_ticks`, which every 2048th contended unlock calls. It
goes down by 256 after few wake-ups and up by 512 after many, without a bound on either side. A
call of `htll_mutex_lock` reads it as an int and compares that with a 64-bit difference, so the
budget is only meaningful as long as it stays below 2^31.
-/

namespace Htll

open Transition

/-- `INT_MAX`. -/
def intMax : ℕ := 2147483647

/-- The spin budget is in the range of int, and the bound that the spin loop compares with is its
value. -/
def BudgetOk (x : Mutex) : Prop :=
  x.ticksSpin.toNat ≤ intMax ∧ (x.ticksSpin.signExtend 64).toNat = x.ticksSpin.toNat

/-- The next contended unlock adjusts the budget and takes it below zero or above `INT_MAX`. -/
def WrapsBudget (x : Mutex) : Prop :=
  (x.cntUnlock + 1) &&& 2047 = 0 ∧
    (x.cntWake < 16 ∧ x.ticksSpin.toNat < 256 ∨ x.cntWake > 32 ∧ intMax < x.ticksSpin.toNat + 512)

instance : DecidablePred WrapsBudget := fun x =>
  inferInstanceAs (Decidable ((x.cntUnlock + 1) &&& 2047 = 0 ∧ _))

section Counters

variable {x : Mutex}

/-- A budget in the range of int is sign-extended without a change. -/
theorem budgetOk_iff : BudgetOk x ↔ x.ticksSpin.toNat ≤ intMax := by
  refine and_iff_left_of_imp fun hrange => ?_
  have hmsb : x.ticksSpin.msb = false := by
    rw [BitVec.msb_eq_false_iff_two_mul_lt]
    simp only [intMax] at hrange
    omega
  rw [BitVec.signExtend_eq_setWidth_of_msb_false hmsb, BitVec.toNat_setWidth]
  have hlt := x.ticksSpin.isLt
  omega

/-- Every 2048th contended unlock adjusts the budget by the number of wake-ups. -/
theorem count_ticksSpin : (htllMutexUnlock x .count).1.ticksSpin =
    if (x.cntUnlock + 1) &&& 2047 = 0 then
      if x.cntWake > 32 then x.ticksSpin + 512
      else if x.cntWake < 16 then x.ticksSpin - 256
      else x.ticksSpin
    else x.ticksSpin := by
  simp only [htllMutexUnlock, adjustSpinTicks]
  split <;> rfl

/-- One contended unlock keeps the budget exactly if it does not wrap it. -/
theorem budgetOk_count (hx : BudgetOk x) :
    BudgetOk (htllMutexUnlock x .count).1 ↔ ¬WrapsBudget x := by
  rw [budgetOk_iff] at hx ⊢
  rw [count_ticksSpin, WrapsBudget]
  simp only [intMax] at hx ⊢
  by_cases hadjust : (x.cntUnlock + 1) &&& 2047 = 0
  · rw [if_pos hadjust]
    by_cases hmany : x.cntWake > 32
    · have hup : (x.ticksSpin + 512).toNat = x.ticksSpin.toNat + 512 :=
        BitVec.toNat_add_of_lt (by
          rw [show (512 : BitVec 32).toNat = 512 from rfl]
          omega)
      have hnotFew : ¬x.cntWake < 16 := by
        rw [gt_iff_lt, BitVec.lt_def] at hmany
        rw [BitVec.lt_def]
        simp at hmany ⊢
        omega
      rw [if_pos hmany, hup]
      simp only [hadjust, hmany, hnotFew, true_and, false_and, false_or]
      omega
    · rw [if_neg hmany]
      by_cases hfew : x.cntWake < 16
      · rw [if_pos hfew, BitVec.toNat_sub]
        simp only [hadjust, hmany, hfew, true_and, false_and, or_false]
        rw [show (256 : BitVec 32).toNat = 256 from rfl]
        omega
      · rw [if_neg hfew]
        simp only [hmany, hfew, false_and, or_false, and_false, not_false_eq_true, iff_true]
        exact hx
  · rw [if_neg hadjust]
    simp only [hadjust, false_and, not_false_eq_true, iff_true]
    exact hx

/-- Taking the lock leaves the budget alone. -/
theorem htllMutexLock_ticksSpin (curSegmentId : ℤ) (ticks : BitVec 64) (p : LockPoint) :
    (htllMutexLock curSegmentId ticks x p).1.ticksSpin = x.ticksSpin := by
  cases p <;> rfl

/-- So does taking it back after a wait. -/
theorem retakeMutex_ticksSpin (p : RetakePoint) : (retakeMutex x p).1.ticksSpin = x.ticksSpin := by
  cases p <;> rfl

/-- Releasing the lock changes the budget only where the contended unlocks are counted. -/
theorem htllMutexUnlock_ticksSpin {p : UnlockPoint} (hp : p ≠ .count) :
    (htllMutexUnlock x p).1.ticksSpin = x.ticksSpin := by
  cases p with
  | count => exact absurd rfl hp
  | _ => rfl

end Counters

namespace State

variable {T M C : Type*} [DecidableEq T] [DecidableEq M] [DecidableEq C] [Fintype T]
  {s s' : State T M C} {t : T} {input : Input T}

/-- An access keeps the budget of a mutex unless it counts a contended unlock of it. -/
theorem ticksSpin_access (h : s.access t input = some s') (m : M) :
    (s'.mutex m).ticksSpin = (s.mutex m).ticksSpin ∨
      ∃ after, s.point t = .unlock m after .count := by
  cases writes_access h with
  | nothing hmutex | bind _ _ _ _ _ hmutex | bump _ hmutex => exact Or.inl (by rw [hmutex])
  | mutex m' x hwrite hmutex =>
    rw [hmutex]
    by_cases hm : m = m'
    · subst hm
      rw [Function.update_self]
      cases hwrite with
      | lock => exact Or.inl (htllMutexLock_ticksSpin _ _ _)
      | trylock => exact Or.inl rfl
      | @unlock after p hp =>
        by_cases hcount : p = .count
        · exact Or.inr ⟨after, hcount ▸ hp⟩
        · exact Or.inl (htllMutexUnlock_ticksSpin hcount)
      | retake => exact Or.inl (retakeMutex_ticksSpin _)
    · rw [Function.update_of_ne hm]
      exact Or.inl rfl

/-- The access that counts a contended unlock. -/
theorem count_access {m : M} {after : After C} (hp : s.point t = .unlock m after .count)
    (h : s.access t input = some s') : s'.mutex m = (htllMutexUnlock (s.mutex m) .count).1 := by
  simp only [access, hp] at h
  rw [(commit_memory h).1, Function.update_self]

/-- The action counts a contended unlock of the mutex and wraps its budget. -/
def LeavesBudget (m : M) (s : State T M C) (a : Action T M C) : Prop :=
  ∃ t input after, a = .access t input ∧ s.point t = .unlock m after .count ∧
    WrapsBudget (s.mutex m)

/-- Every action keeps a budget exactly if it does not wrap it. -/
theorem budgetOk_step {m : M} (hs : BudgetOk (s.mutex m)) {a : Action T M C}
    (h : s.step a = some s') : BudgetOk (s'.mutex m) ↔ ¬LeavesBudget m s a := by
  have hsame : (s'.mutex m).ticksSpin = (s.mutex m).ticksSpin → BudgetOk (s'.mutex m) := by
    intro heq
    rw [budgetOk_iff, heq]
    exact budgetOk_iff.mp hs
  rcases step_cases h with ⟨t, call, last, rfl, -, -, -, rfl⟩ | ⟨t, input, rfl, -, h⟩ |
    ⟨t, rfl, rfl⟩ | ⟨tls, rfl, t, result, -, hcall⟩
  · refine iff_of_true hs ?_
    rintro ⟨_, _, _, heq, -⟩
    cases heq
  · by_cases hcount : ∃ after, s.point t = .unlock m after .count
    · obtain ⟨after, hp⟩ := hcount
      rw [count_access hp h, budgetOk_count hs]
      refine not_congr ⟨fun hwraps => ⟨t, input, after, rfl, hp, hwraps⟩, ?_⟩
      rintro ⟨_, _, _, -, -, hwraps⟩
      exact hwraps
    · refine iff_of_true (hsame ((ticksSpin_access h m).resolve_right hcount)) ?_
      rintro ⟨u, _, after, heq, hp, -⟩
      cases heq
      exact hcount ⟨after, hp⟩
  · refine iff_of_true hs ?_
    rintro ⟨_, _, _, heq, -⟩
    cases heq
  · refine iff_of_true hs ?_
    rintro ⟨_, _, _, rfl, -⟩
    rcases hcall with ⟨_, _, heq, -⟩ | ⟨_, _, _, heq, -⟩ <;> cases heq

/-- The spin budget of a mutex stays meaningful in every state along a run exactly when no
contended unlock wraps it: no adjustment finds fewer than 16 wake-ups with a budget below 256, or
more than 32 with a budget above `INT_MAX` − 512. -/
theorem spin_budget_meaningful_iff (hs : s.Initial) (m : M) (actions : List (Action T M C)) :
    (∀ before s', before <+: actions → execute State.step anyStep s before = some s' →
      BudgetOk (s'.mutex m)) ↔
    ∀ before a s' s'', (before ++ [a]) <+: actions →
      execute State.step anyStep s before = some s' → s'.step a = some s'' →
      ¬LeavesBudget m s' a := by
  have hinit : BudgetOk (s.mutex m) := by
    obtain ⟨tls, -, rfl⟩ := hs
    exact budgetOk_iff.mpr (by decide : htllSpinTriesLock.toNat ≤ intMax)
  have hbreak : ∀ (s₁ : State T M C) a s₂, BudgetOk (s₁.mutex m) → LeavesBudget m s₁ a →
      s₁.step a = some s₂ → ¬BudgetOk (s₂.mutex m) := by
    intro s₁ a s₂ hbudget hleaves h hafter
    exact (budgetOk_step hbudget h).mp hafter hleaves
  exact always_iff (fun s => BudgetOk (s.mutex m)) (fun s => BudgetOk (s.mutex m)) hinit
    (fun _ h => h) (fun _ _ _ hbudget hkeep h => (budgetOk_step hbudget h).mpr hkeep) hbreak actions

end State

/-- The first call of a process keeps the budget of its mutex. -/
theorem State.spin_budget_meaningful_iff_first : ∃ s s' : State Bool Unit Unit, s.Initial ∧
    execute State.step anyStep s [.call true (.lock ())] = some s' ∧ BudgetOk (s'.mutex ()) := by
  refine ⟨_, _, State.initial_started, rfl, ?_⟩
  refine (State.spin_budget_meaningful_iff State.initial_started () [.call true (.lock ())]).mpr ?_
    [.call true (.lock ())] _ (List.prefix_refl _) rfl
  rintro before a s' s'' hpart - - ⟨t, input, after, rfl, -⟩
  have hmem : Action.access t input ∈ [Action.call true (.lock ())] :=
    (part_snoc hpart).2
  simp at hmem

/-! ## A budget that wraps -/

/-- One contended unlock, as it counts in the mutex. -/
def counted (x : Mutex) : Mutex := (htllMutexUnlock x .count).1

/-- Counting changes no word. -/
theorem counted_u (x : Mutex) : (counted x).u = x.u := by
  simp only [counted, htllMutexUnlock]
  split <;> rfl

/-- Two threads that are awake at the given program points, on one mutex. -/
structure Duo (x : Mutex) (t : Bool) (p q : Point Unit Unit) (s : State Bool Unit Unit) : Prop where
  mutex : s.mutex () = x
  point : s.point t = p
  other : s.point (!t) = q
  awake : ∀ u, s.asleep u = none

section Rounds

variable {x : Mutex} {t : Bool} {p q : Point Unit Unit} {s : State Bool Unit Unit}
  {input : Input Bool}

/-- The same two threads in the other order. -/
theorem Duo.swap (h : Duo x t p q s) : Duo x (!t) q p s :=
  ⟨h.mutex, h.other, by rw [Bool.not_not]; exact h.point, h.awake⟩

/-- A thread outside calls begins one. -/
theorem Duo.call {last : Option (Call Unit Unit × ℤ)} (h : Duo x t (.outside last) q s)
    (c : Call Unit Unit) (hheld : ∀ m ∈ c.held, s.holds t m = true) :
    ∃ s', s.step (.call t c) = some s' ∧ Duo x t c.entry q s' := by
  have hne : (!t) ≠ t := by cases t <;> decide
  have hbegins : s.step (.call t c) =
      some { s.goto t c.entry with calls := Function.update s.calls t (s.calls t + 1) } := by
    simp only [State.step, h.point]
    exact if_pos ⟨h.awake t, hheld⟩
  refine ⟨_, hbegins, h.mutex, by simp, ?_, h.awake⟩
  simpa [hne] using h.other

/-- A thread makes an access that neither sleeps nor wakes anybody. -/
theorem Duo.commit {P : Type} (h : Duo x t p q s) (pick : Option Bool)
    (embed : P → Point Unit Unit) (returned : Point Unit Unit) (result : Mutex × Outcome P)
    (hquiet : (∀ p', result.2 ≠ .sleep p') ∧ result.2 ≠ .wake) :
    ∃ s', s.commit t () pick embed returned returned returned result = some s' ∧
      Duo result.1 t (result.2.next.elim returned embed) q s' ∧ s'.holds (!t) () = s.holds (!t) () ∧
      (result.2 = .take → s'.holds t () = true) := by
  obtain ⟨x', outcome⟩ := result
  have hne : (!t) ≠ t := by cases t <;> decide
  cases outcome with
  | sleep p' => exact absurd rfl (hquiet.1 p')
  | wake => exact absurd rfl hquiet.2
  | free p' =>
    cases p' <;> refine ⟨_, rfl, ⟨?_, ?_, ?_, h.awake⟩, ?_, by simp⟩ <;>
      simp [Outcome.next, hne, h.other]
  | goto | mark | take | fail | done =>
    refine ⟨_, rfl, ⟨?_, ?_, ?_, h.awake⟩, ?_, by simp⟩ <;> simp [Outcome.next, hne, h.other]

/-- An access inside `htll_mutex_unlock`. -/
theorem Duo.unlock {p : UnlockPoint} (h : Duo x t (.unlock () .unlock p) q s)
    (hquiet : p ≠ .wake) (input : Input Bool) :
    ∃ s', s.step (.access t input) = some s' ∧ s'.holds (!t) () = s.holds (!t) () ∧
      Duo (htllMutexUnlock x p).1 t
        ((htllMutexUnlock x p).2.next.elim (.outside (some (.unlock (), 0))) (.unlock () .unlock)) q
        s' := by
  obtain ⟨s', hcommit, hduo, hholds, -⟩ := h.commit input.pick (.unlock () .unlock)
    (.outside (some (.unlock (), 0))) (htllMutexUnlock x p)
    ⟨fun _ => htllMutexUnlock_awake.1, htllMutexUnlock_ne_wake x hquiet⟩
  refine ⟨s', ?_, hholds, hduo⟩
  simp only [State.step, State.access, h.awake t, h.point, h.mutex, if_true]
  exact hcommit

/-- The first access inside `htll_mutex_lock`. -/
theorem Duo.enter (h : Duo x t (.lock () .entry) q s) (input : Input Bool) :
    ∃ s' flag, s.step (.access t input) = some s' ∧
      Duo x t (.lock () (.top flag x.ticksSpin)) q s' := by
  obtain ⟨s', hcommit, hduo, -⟩ := h.commit input.pick (.lock ()) (.outside (some (.lock (), 0)))
    (htllMutexLock (s.tls t).curSegmentId input.ticks x .entry) (by simp [htllMutexLock])
  refine ⟨s', _, ?_, hduo⟩
  simp only [State.step, State.access, h.awake t, h.point, h.mutex, if_true]
  exact hcommit

/-- A free lock is taken at the top of the loop. -/
theorem Duo.take {flag : Bool} {spinTicks : BitVec 32}
    (h : Duo x t (.lock () (.top flag spinTicks)) q s) (hfree : x.u = 256) (input : Input Bool) :
    ∃ s', s.step (.access t input) = some s' ∧ s'.holds t () = true ∧
      Duo { x with u := 257 } t (.outside (some (.lock (), 0))) q s' := by
  have htake : htllMutexLock (s.tls t).curSegmentId input.ticks x (.top flag spinTicks) =
      ({ x with u := 257 }, .take) := by
    simp only [htllMutexLock, hfree]
    rfl
  obtain ⟨s', hcommit, hduo, -, hholds⟩ := h.commit input.pick (.lock ())
    (.outside (some (.lock (), 0))) ({ x with u := 257 }, .take) (by simp)
  refine ⟨s', ?_, hholds rfl, hduo⟩
  simp only [State.step, State.access, h.awake t, h.point, h.mutex, if_true, htake]
  exact hcommit

/-- A thread holds the contended mutex and both threads are outside calls. -/
structure Holding (x : Mutex) (t : Bool) (s : State Bool Unit Unit) : Prop where
  word : x.u = 257
  outside : ∃ last last', Duo x t (.outside last) (.outside last') s
  holds : s.holds t () = true

/-- The holder releases the mutex, and before it looks at it again the other thread takes it. -/
theorem Holding.handOver (h : Holding x t s) :
    ∃ s', Path State.step anyStep s s' ∧ Holding (counted x) (!t) s' := by
  have hload : htllMutexUnlock x .load = (x, .goto .count) := by
    simp [htllMutexUnlock, h.word]
  have hstore : htllMutexUnlock (counted x) .store =
      ({ counted x with u := 256 }, .free (some .check)) := by
    simp only [htllMutexUnlock, counted_u, h.word]
    rfl
  have hcheck : htllMutexUnlock (counted x) .check = (counted x, .done) := by
    simp [htllMutexUnlock, counted_u, h.word, lockedByte]
  have htaken : ({ counted x with u := 257 } : Mutex) = counted x := by
    rw [← h.word, ← counted_u x]
  obtain ⟨last, last', h₀⟩ := h.outside
  obtain ⟨s₁, step₁, h₁⟩ := h₀.call (.unlock ()) (fun _ _ => h.holds)
  obtain ⟨s₂, step₂, -, h₂⟩ := h₁.unlock (by decide) ⟨0, ⟨0, 0⟩, none⟩
  rw [hload] at h₂
  obtain ⟨s₃, step₃, -, h₃⟩ := h₂.unlock (by decide) ⟨0, ⟨0, 0⟩, none⟩
  obtain ⟨s₄, step₄, -, h₄⟩ := Duo.unlock (x := counted x) h₃ (by decide) ⟨0, ⟨0, 0⟩, none⟩
  rw [hstore] at h₄
  obtain ⟨s₅, step₅, h₅⟩ := h₄.swap.call (.lock ()) (by simp [Call.held])
  obtain ⟨s₆, flag, step₆, h₆⟩ := h₅.enter ⟨0, ⟨0, 0⟩, none⟩
  obtain ⟨s₇, step₇, hholds, h₇⟩ := h₆.take rfl ⟨0, ⟨0, 0⟩, none⟩
  have h₈ := h₇.swap
  rw [htaken] at h₈
  obtain ⟨s₈, step₈, hkept, h₉⟩ := h₈.unlock (by decide) ⟨0, ⟨0, 0⟩, none⟩
  rw [hcheck] at h₉
  have hpath : Path State.step anyStep s s₈ :=
    Path.single _ trivial step₁ |>.extend _ trivial step₂ |>.extend _ trivial step₃
      |>.extend _ trivial step₄ |>.extend _ trivial step₅ |>.extend _ trivial step₆
      |>.extend _ trivial step₇ |>.extend _ trivial step₈
  rw [Bool.not_not] at hkept
  have h₁₀ := h₉.swap
  rw [Bool.not_not] at h₁₀
  exact ⟨s₈, hpath, (counted_u x).trans h.word, ⟨_, _, h₁₀⟩, hkept.trans hholds⟩

/-- So it goes on for any number of contended unlocks. -/
theorem Holding.rounds (h : Holding x t s) (n : ℕ) :
    ∃ s' u, Path State.step anyStep s s' ∧ Holding (counted^[n] x) u s' := by
  induction n with
  | zero => exact ⟨s, t, .refl, h⟩
  | succ n ih =>
    obtain ⟨s₁, u, hpath, h₁⟩ := ih
    obtain ⟨s₂, hround, h₂⟩ := h₁.handOver
    rw [Function.iterate_succ_apply']
    exact ⟨s₂, _, hpath.trans hround, h₂⟩

end Rounds

/-- The contended unlocks are counted modulo 2048. -/
theorem ofNat_and_2047 {n : ℕ} (hn : n < 2 ^ 32) :
    BitVec.ofNat 32 n &&& 2047 = 0 ↔ n % 2048 = 0 := by
  rw [← BitVec.toNat_inj, BitVec.toNat_and, BitVec.toNat_ofNat, Nat.mod_eq_of_lt hn]
  have hmask : n &&& 2047 = n % 2048 := Nat.and_two_pow_sub_one_eq_mod n 11
  rw [show (2047 : BitVec 32).toNat = 2047 from rfl, hmask]
  rfl

/-- The counters after a number of contended unlocks without a wake-up. -/
theorem counted_iterate {n : ℕ} (hn : n ≤ 67583) :
    counted^[n] { htllMutexCreate with u := 257 } =
      { u := 257
        ticksSpin := BitVec.ofNat 32 (8192 - 256 * (n / 2048))
        cntUnlock := BitVec.ofNat 32 n
        cntWake := 0 } := by
  induction n with
  | zero => rfl
  | succ n ih =>
    have hnext : BitVec.ofNat 32 n + 1 = BitVec.ofNat 32 (n + 1) := (BitVec.ofNat_add n 1).symm
    rw [Function.iterate_succ_apply', ih (by omega)]
    simp only [counted, htllMutexUnlock, hnext]
    by_cases hadjust : (n + 1) % 2048 = 0
    · rw [if_pos ((ofNat_and_2047 (by omega)).mpr hadjust)]
      have hdown : BitVec.ofNat 32 (8192 - 256 * (n / 2048)) - 256 =
          BitVec.ofNat 32 (8192 - 256 * ((n + 1) / 2048)) := by
        rw [show 8192 - 256 * (n / 2048) = 8192 - 256 * ((n + 1) / 2048) + 256 by omega,
          BitVec.ofNat_add]
        exact BitVec.add_sub_cancel _ _
      have hfew : ¬(0 : BitVec 32) > 32 ∧ (0 : BitVec 32) < 16 := by decide
      simp only [adjustSpinTicks, if_neg hfew.1, if_pos hfew.2, hdown]
    · rw [if_neg (by rw [ofNat_and_2047 (by omega)]; exact hadjust)]
      rw [show (n + 1) / 2048 = n / 2048 by omega]

/-- A thread takes the mutex, waits on a condition variable until the sleep ends by itself, and
takes the mutex back, which leaves it marked as contended. -/
def markedActions : List (Action Bool Unit Unit) :=
  .call true (.lock ()) :: Action.turns true 2 ++ .call true (.wait () ()) :: Action.turns true 8 ++
    .unpark true :: Action.turns true 1

/-- Two threads that hand the mutex to each other 67584 times without a wake-up wrap its budget. -/
theorem spin_budget_wraps : ∃ s s' : State Bool Unit Unit, s.Initial ∧
    Path State.step anyStep s s' ∧ ¬BudgetOk (s'.mutex ()) := by
  obtain ⟨s, hmarked, hmutex, hpoint, hother, hawake, hholds⟩ :=
    exists_path_of_execute State.step anyStep markedActions
      (State.initial fun _ => htllThreadStart Tls.zero : State Bool Unit Unit)
      (fun s => s.mutex () = { htllMutexCreate with u := 257 } ∧
        s.point true = .outside (some (.wait () (), 0)) ∧ s.point false = .outside none ∧
        (∀ u, s.asleep u = none) ∧ s.holds true () = true)
      (by decide +kernel)
  have hholding : Holding { htllMutexCreate with u := 257 } true s :=
    ⟨rfl, ⟨_, _, hmutex, hpoint, hother, hawake⟩, hholds⟩
  obtain ⟨s', u, hrounds, -, ⟨_, _, hduo⟩, -⟩ := hholding.rounds 67584
  refine ⟨_, s', State.initial_started, hmarked.trans hrounds, ?_⟩
  rw [hduo.mutex, Function.iterate_succ_apply', counted_iterate (Nat.le_refl _), counted]
  have hlow : BudgetOk ⟨257, 0, 67583, 0⟩ := budgetOk_iff.mpr (by decide)
  rw [show 8192 - 256 * (67583 / 2048) = 0 from rfl]
  exact (budgetOk_count hlow).not.mpr (not_not.mpr (by decide))

end Htll
