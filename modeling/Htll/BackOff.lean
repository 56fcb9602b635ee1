import Htll.SpinBudget

/-!
# The back-off of one lock call

Inside a segment a call of `htll_mutex_lock` that does not get the lock parks with a time-out,
doubles the signed `spin_ticks` and spins again. The value after any number of timed parks is the
budget that was read, times a power of two, modulo 2^32: it stays in the range of int as long as
the product does, and the first park that leaves this range makes it negative.
-/

namespace Htll

open Transition

/-- `spin_ticks` in a call of `htll_mutex_lock` inside a segment, once it has been read. -/
def LockPoint.spinTicks : LockPoint → Option (BitVec 32)
  | .top false spinTicks | .start false spinTicks | .spin false spinTicks _
  | .elapsed false spinTicks _ | .sleep false spinTicks | .park spinTicks | .mark spinTicks =>
    some spinTicks
  | _ => none

/-- The thread is back from a timed park of `htll_mutex_lock`. -/
def Point.backFromPark {M C : Type*} : Point M C → Bool
  | .lock _ (.mark _) => true
  | _ => false

section Arithmetic

/-- Doubling is modulo 2^32. -/
theorem ofNat_doubled (n : ℕ) : BitVec.ofNat 32 n * 2 = BitVec.ofNat 32 (n * 2) :=
  (BitVec.ofNat_mul n 2).symm

/-- A number of the range of int is its own value as an int. -/
theorem toInt_ofNat_of_le {n : ℕ} (hn : n ≤ intMax) : (BitVec.ofNat 32 n).toInt = n := by
  simp only [intMax] at hn
  rw [BitVec.toInt_eq_toNat_cond, BitVec.toNat_ofNat]
  rw [if_pos (by omega)]
  omega

/-- A number of 32 bits is not negative as an int exactly if it is in the range of int. -/
theorem toInt_ofNat_nonneg {n : ℕ} (hn : n < 2 ^ 32) :
    0 ≤ (BitVec.ofNat 32 n).toInt ↔ n ≤ intMax := by
  constructor
  · intro h
    simp only [intMax]
    rw [BitVec.toInt_eq_toNat_cond, BitVec.toNat_ofNat, Nat.mod_eq_of_lt hn] at h
    split at h <;> omega
  · intro h
    rw [toInt_ofNat_of_le h]
    exact Int.natCast_nonneg n

/-- A number of the range of int is sign-extended without a change. -/
theorem signExtend_ofNat_of_le {n : ℕ} (hn : n ≤ intMax) :
    ((BitVec.ofNat 32 n).signExtend 64).toNat = n := by
  have hsmall : (BitVec.ofNat 32 n).toNat = n := by
    simp only [intMax] at hn
    rw [BitVec.toNat_ofNat]
    omega
  have hbudget : BudgetOk ⟨0, BitVec.ofNat 32 n, 0, 0⟩ :=
    budgetOk_iff.mpr (hsmall.symm ▸ hn)
  exact hbudget.2.trans hsmall

end Arithmetic

/-- Each access of the call keeps `spin_ticks`, but the end of a park doubles it. -/
theorem htllMutexLock_spinTicks {curSegmentId : ℤ} {ticks : BitVec 64} {x : Mutex}
    {p p' : LockPoint} {v : BitVec 32} (hp : p.spinTicks = some v)
    (h : (htllMutexLock curSegmentId ticks x p).2.next = some p') :
    p'.spinTicks = some (if ∃ w, p = .mark w then v * 2 else v) := by
  cases p with
  | entry | swap | wait => cases hp
  | top flag w | start flag w | spin flag w | sleep flag w =>
    cases flag <;> cases hp
    simp only [htllMutexLock] at h
    try split at h
    all_goals cases h
    all_goals simp [LockPoint.spinTicks]
  | elapsed flag w since =>
    cases flag <;> cases hp
    simp only [htllMutexLock] at h
    split at h <;> cases h <;> simp [LockPoint.spinTicks]
  | park w =>
    cases hp
    simp only [htllMutexLock] at h
    split at h <;> cases h <;> simp [LockPoint.spinTicks]
  | mark w =>
    cases hp
    cases h
    simp [LockPoint.spinTicks]

namespace State

variable {T M C : Type*} [DecidableEq T] [DecidableEq M] [DecidableEq C]
  {s s' : State T M C} {t : T} {m : M} {v : BitVec 32} {input : Input T}

/-- The action ends a timed park of the thread in `htll_mutex_lock`. -/
def endsPark (t : T) (s : State T M C) : Action T M C → Bool
  | .access u _ => decide (u = t) && (s.point t).backFromPark
  | _ => false

/-- The thread is in its call of `htll_mutex_lock` with the given `spin_ticks`, or back from it. -/
def BacksOff (t : T) (m : M) (v : BitVec 32) (s : State T M C) : Prop :=
  (∃ last, s.point t = .outside last) ∨ ∃ p, s.point t = .lock m p ∧ p.spinTicks = some v

variable [Fintype T]

omit [DecidableEq M] [DecidableEq C] [Fintype T] in
/-- The end of a park is an access of the thread in `htll_mutex_lock`. -/
theorem exists_of_endsPark {a : Action T M C} (h : endsPark t s a = true) :
    ∃ input m v, a = .access t input ∧ s.point t = .lock m (.mark v) := by
  cases a with
  | access u input =>
    simp only [endsPark, Bool.and_eq_true, decide_eq_true_eq] at h
    obtain ⟨rfl, hback⟩ := h
    unfold Point.backFromPark at hback
    split at hback
    · rename_i m v hp
      exact ⟨input, m, v, rfl, hp⟩
    · cases hback
  | _ => cases h

omit [DecidableEq T] [DecidableEq M] [DecidableEq C] [Fintype T] in
/-- There is one value of `spin_ticks` in a call. -/
theorem BacksOff.eq (hs : BacksOff t m v s) {m' : M} {p : LockPoint} {w : BitVec 32}
    (hp : s.point t = .lock m' p) (hw : p.spinTicks = some w) : m' = m ∧ w = v := by
  rcases hs with ⟨last, hp'⟩ | ⟨p', hp', hv⟩
  · rw [hp] at hp'
    cases hp'
  · rw [hp] at hp'
    cases hp'
    exact ⟨rfl, Option.some.inj (hw.symm.trans hv)⟩

omit [DecidableEq M] [DecidableEq C] [Fintype T] in
/-- Only an access of the thread itself ends its park. -/
theorem endsPark_eq_false {a : Action T M C} (ha : ∀ input, a ≠ .access t input) :
    endsPark t s a = false := by
  cases a with
  | access u input =>
    have hu : u ≠ t := by
      rintro rfl
      exact ha input rfl
    simp [endsPark, hu]
  | _ => rfl

/-- Every action but a new call of the thread keeps its `spin_ticks`, and the end of a park
doubles it. -/
theorem BacksOff.step (hcoh : s.Coherent) (hs : BacksOff t m v s) {a : Action T M C}
    (hsame : ∀ call, a ≠ .call t call) (h : s.step a = some s') :
    BacksOff t m (if endsPark t s a then v * 2 else v) s' := by
  have hothers : (∀ input, a ≠ .access t input) → s'.point t = s.point t →
      BacksOff t m (if endsPark t s a then v * 2 else v) s' := by
    intro ha hpoint
    rw [endsPark_eq_false ha, if_neg (by decide), BacksOff, hpoint]
    exact hs
  rcases step_cases h with ⟨u, call, last, rfl, -, -, -, rfl⟩ | ⟨u, input, rfl, -, haccess⟩ |
    ⟨u, rfl, rfl⟩ | ⟨tls, rfl, u, result, -, hcall⟩
  · have hu : t ≠ u := by
      rintro rfl
      exact hsame call rfl
    exact hothers (by simp) (by simp [hu])
  · by_cases hu : t = u
    · subst hu
      rcases hs with ⟨last, hp⟩ | ⟨p, hp, hticks⟩
      · simp [access, hp] at haccess
      · have hland := lock_access hp haccess
        cases hnext : (htllMutexLock (s.tls t).curSegmentId input.ticks (s.mutex m) p).2.next with
        | none => exact Or.inl ⟨_, by rw [hland, hnext]; rfl⟩
        | some p' =>
          refine Or.inr ⟨p', by rw [hland, hnext]; rfl, ?_⟩
          rw [htllMutexLock_spinTicks hticks hnext]
          cases p <;> simp [endsPark, hp, Point.backFromPark]
    · exact hothers (by simpa using Ne.symm hu) ((frame_access hcoh haccess).point t hu)
  · exact hothers (by simp) rfl
  · refine hothers ?_ rfl
    rintro input rfl
    rcases hcall with ⟨_, _, heq, -⟩ | ⟨_, _, _, heq, -⟩ <;> cases heq

/-- What the back-off of a call of `htll_mutex_lock` promises of one access: after a timed park
`spin_ticks` is not negative and no smaller than before, a spin of more than `INT_MAX` cycles is
over, and the call then has the lock or parks. -/
structure Bounded (t : T) (m : M) (input : Input T) (s s' : State T M C) : Prop where
  park : ∀ v, s.point t = .lock m (.mark v) →
    ∃ v', s'.point t = .lock m (.top false v') ∧ 0 ≤ v'.toInt ∧ v.toInt ≤ v'.toInt
  spin : ∀ v since, s.point t = .lock m (.elapsed false v since) →
    intMax < (input.ticks - since).toNat → s'.point t = .lock m (.sleep false v)
  sleep : ∀ v, s.point t = .lock m (.sleep false v) →
    s'.point t = .outside (some (.lock m, 0)) ∨ s'.point t = .lock m (.park v)

/-- The end of a timed park. -/
theorem mark_access (hp : s.point t = .lock m (.mark v)) (h : s.access t input = some s') :
    s'.point t = .lock m (.top false (v * 2)) :=
  lock_access hp h

/-- As long as `spin_ticks` is in the range of int after every park, an access keeps its promise. -/
theorem bounded_access {n : ℕ} (hs : BacksOff t m (BitVec.ofNat 32 n) s)
    (h : s.access t input = some s') (hn : n ≤ intMax)
    (hpark : (s.point t).backFromPark = true → n * 2 ≤ intMax) : Bounded t m input s s' := by
  refine ⟨fun v hp => ?_, fun v since hp hlong => ?_, fun v hp => ?_⟩
  · obtain ⟨-, rfl⟩ := hs.eq hp rfl
    have hdouble := hpark (by rw [hp]; rfl)
    refine ⟨_, mark_access hp h, ?_⟩
    rw [ofNat_doubled, toInt_ofNat_of_le hn, toInt_ofNat_of_le hdouble]
    omega
  · obtain ⟨-, rfl⟩ := hs.eq hp rfl
    have hover : input.ticks - since > (BitVec.ofNat 32 n).signExtend 64 := by
      rw [gt_iff_lt, BitVec.lt_def, signExtend_ofNat_of_le hn]
      omega
    rw [lock_access hp h]
    simp only [htllMutexLock, if_pos hover]
    rfl
  · rw [lock_access hp h]
    simp only [htllMutexLock]
    split
    · exact Or.inl rfl
    · exact Or.inr rfl

/-- The first access of a call inside a segment reads the budget of the mutex. -/
theorem BacksOff.start (hentry : s.point t = .lock m .entry)
    (hsegment : (s.tls t).curSegmentId ≠ -1) (hfirst : s.access t input = some s') :
    BacksOff t m (s.mutex m).ticksSpin s' := by
  have hflag : ((s.tls t).curSegmentId == -1) = false := beq_eq_false_iff_ne.mpr hsegment
  refine Or.inr ⟨.top false (s.mutex m).ticksSpin, ?_, rfl⟩
  rw [lock_access hentry hfirst]
  simp only [htllMutexLock, hflag]
  rfl

section Call

variable {x : ℕ} {actions : List (Action T M C)}

/-- Along the call `spin_ticks` is the budget, doubled once for every timed park so far. -/
theorem BacksOff.run (hcoh : s.Coherent) (hs : BacksOff t m (BitVec.ofNat 32 x) s)
    (hcall : ∀ call, Action.call t call ∉ actions) {before : List (Action T M C)}
    (hpart : before <+: actions) (h : execute State.step anyStep s before = some s') :
    s'.Coherent ∧
      BacksOff t m (BitVec.ofNat 32 (x * 2 ^ occurrences State.step (endsPark t) s before)) s' := by
  refine occurrences_invariant State.step (endsPark t)
    (fun n s' => s'.Coherent ∧ BacksOff t m (BitVec.ofNat 32 (x * 2 ^ n)) s') ?_ ?_ hpart h
  · rw [Nat.pow_zero, Nat.mul_one]
    exact ⟨hcoh, hs⟩
  · rintro before a s₁ s₂ hpart - hstep ⟨hcoh, hticks⟩
    have hsame : ∀ call, a ≠ .call t call := by
      rintro call rfl
      exact hcall call (part_snoc hpart).2
    refine ⟨hcoh.step hstep, ?_⟩
    have hnext := hticks.step hcoh hsame hstep
    cases hend : endsPark t s₁ a with
    | false =>
      rw [hend, if_neg (by decide)] at hnext
      exact hnext
    | true =>
      rw [hend, if_pos rfl, ofNat_doubled, Nat.mul_assoc, ← Nat.pow_succ] at hnext
      exact hnext

/-- If the call keeps its promise then `spin_ticks` stays in the range of int. -/
theorem range_of_bounded (hcoh : s.Coherent) (hs : BacksOff t m (BitVec.ofNat 32 x) s)
    (hx : x ≤ intMax) (hcall : ∀ call, Action.call t call ∉ actions)
    (hrun : execute State.step anyStep s actions = some s')
    (hbounded : ∀ before input s₁ s₂, (before ++ [.access t input]) <+: actions →
      execute State.step anyStep s before = some s₁ → s₁.step (.access t input) = some s₂ →
      Bounded t m input s₁ s₂) :
    x * 2 ^ occurrences State.step (endsPark t) s actions ≤ intMax := by
  refine occurrences_invariant State.step (endsPark t) (fun n _ => x * 2 ^ n ≤ intMax) ?_
    ?_ (List.prefix_refl actions) hrun
  · rwa [Nat.pow_zero, Nat.mul_one]
  · intro before a s₁ s₂ hpart hs₁ hstep hrange
    cases hend : endsPark t s₁ a with
    | false => exact hrange
    | true =>
      -- the value after this park is below 2^32, so it is not negative only in the range of int
      obtain ⟨-, hbacksOff⟩ := hs.run hcoh hcall (part_snoc hpart).1 hs₁
      obtain ⟨input, m', v, rfl, hp⟩ := exists_of_endsPark hend
      obtain ⟨rfl, rfl⟩ := hbacksOff.eq hp rfl
      obtain ⟨-, haccess⟩ := Option.ite_none_right_eq_some.mp hstep
      obtain ⟨v', hp', hnonneg, -⟩ := (hbounded before input s₁ s₂ hpart hs₁ hstep).park _ hp
      rw [mark_access hp haccess] at hp'
      cases hp'
      rw [ofNat_doubled] at hnonneg
      rw [Bool.toNat_true, Nat.pow_succ, ← Nat.mul_assoc]
      refine (toInt_ofNat_nonneg ?_).mp hnonneg
      simp only [intMax] at hrange
      omega

/-- If `spin_ticks` is in the range of int in the end then the call keeps its promise. -/
theorem bounded_of_range (hcoh : s.Coherent) (hs : BacksOff t m (BitVec.ofNat 32 x) s)
    (hcall : ∀ call, Action.call t call ∉ actions)
    (hrun : execute State.step anyStep s actions = some s')
    (hrange : x * 2 ^ occurrences State.step (endsPark t) s actions ≤ intMax)
    {before : List (Action T M C)} {s₁ s₂ : State T M C}
    (hpart : (before ++ [.access t input]) <+: actions)
    (hs₁ : execute State.step anyStep s before = some s₁)
    (hstep : s₁.step (.access t input) = some s₂) : Bounded t m input s₁ s₂ := by
  have hle := occurrences_le State.step (endsPark t) hpart hrun
  rw [occurrences_snoc State.step (endsPark t) hs₁] at hle
  have hmono : ∀ k, k ≤ occurrences State.step (endsPark t) s actions → x * 2 ^ k ≤ intMax :=
    fun k hk => (Nat.mul_le_mul_left x (Nat.pow_le_pow_right (by decide) hk)).trans hrange
  obtain ⟨-, haccess⟩ := Option.ite_none_right_eq_some.mp hstep
  refine bounded_access (hs.run hcoh hcall (part_snoc hpart).1 hs₁).2 haccess ?_ ?_
  · exact hmono _ ((Nat.le_add_right _ _).trans hle)
  · intro hback
    have hend : endsPark t s₁ (.access t input) = true := by simp [endsPark, hback]
    rw [hend] at hle
    rw [Nat.mul_assoc, ← Nat.pow_succ]
    exact hmono _ hle

end Call

/-- The back-off of a call of `htll_mutex_lock` inside a segment keeps its promise at every access
exactly if the budget that the call read, doubled once for every timed park of the call, stays in
the range of int. -/
theorem back_off_bounded_iff {guard : State T M C → Action T M C → Prop} {s₀ s₁ s₂ : State T M C}
    (hs : s.Initial) (hpath : Path State.step guard s s₀) (hentry : s₀.point t = .lock m .entry)
    (hsegment : (s₀.tls t).curSegmentId ≠ -1)
    (hbudget : (s₀.mutex m).ticksSpin ≤ htllSpinTriesLock)
    (hfirst : s₀.step (.access t input) = some s₁) {actions : List (Action T M C)}
    (hcall : ∀ call, Action.call t call ∉ actions)
    (hrun : execute State.step anyStep s₁ actions = some s₂) :
    (∀ before input s' s'', (before ++ [.access t input]) <+: actions →
      execute State.step anyStep s₁ before = some s' → s'.step (.access t input) = some s'' →
      Bounded t m input s' s'') ↔
    (s₀.mutex m).ticksSpin.toNat * 2 ^ occurrences State.step (endsPark t) s₁ actions ≤ intMax := by
  have hsmall : (s₀.mutex m).ticksSpin.toNat ≤ intMax := by
    rw [BitVec.le_def] at hbudget
    exact hbudget.trans (by decide)
  obtain ⟨-, haccess⟩ := Option.ite_none_right_eq_some.mp hfirst
  have hcoh : s₁.Coherent := (coherent_of_path hs hpath).step hfirst
  have hticks : BacksOff t m (BitVec.ofNat 32 (s₀.mutex m).ticksSpin.toNat) s₁ := by
    rw [BitVec.ofNat_toNat, BitVec.setWidth_eq]
    exact .start hentry hsegment haccess
  constructor
  · exact range_of_bounded hcoh hticks hsmall hcall hrun
  · intro hrange before input s' s'' hpart hs' hstep
    exact bounded_of_range hcoh hticks hcall hrun hrange hpart hs' hstep

end State

/-! ## Timed parks in a row -/

/-- A thread takes the mutex; another one opens a segment and begins to lock it too. -/
def contendedActions : List (Action Bool Unit Unit) :=
  .call false (.lock ()) :: Action.turns false 2 ++ [.segmentStart true 0 0, .call true (.lock ())]

/-- A spin of 2^33 cycles, and a park that ends by its time-out. -/
def timedParkActions : List (Action Bool Unit Unit) :=
  Action.turns true 3 ++ .access true ⟨0x200000000, ⟨0, 0⟩, none⟩ :: Action.turns true 2 ++
    .unpark true :: Action.turns true 1

/-- The states that an executed test of timed parks passes through: the contended start, the one
after the first access and the last one. -/
theorem exists_timedParks (actions : List (Action Bool Unit Unit)) (n : ℕ) (v : BitVec 32)
    (h : ((execute State.step anyStep (State.initial fun _ => htllThreadStart Tls.zero)
      contendedActions).any fun s₀ : State Bool Unit Unit =>
      s₀.point true = .lock () .entry ∧ (s₀.tls true).curSegmentId ≠ -1 ∧
      (s₀.mutex ()).ticksSpin = htllSpinTriesLock ∧
      ((s₀.step (.access true ⟨0, ⟨0, 0⟩, none⟩)).any fun s₁ =>
        occurrences State.step (State.endsPark true) s₁ actions = n ∧
        ((execute State.step anyStep s₁ actions).any fun s₂ =>
          s₂.point true = .lock () (.top false v)) = true) = true) = true) :
    ∃ s₀ s₁ s₂ : State Bool Unit Unit,
      Path State.step anyStep (State.initial fun _ => htllThreadStart Tls.zero) s₀ ∧
      s₀.point true = .lock () .entry ∧ (s₀.tls true).curSegmentId ≠ -1 ∧
      (s₀.mutex ()).ticksSpin = htllSpinTriesLock ∧
      s₀.step (.access true ⟨0, ⟨0, 0⟩, none⟩) = some s₁ ∧
      occurrences State.step (State.endsPark true) s₁ actions = n ∧
      execute State.step anyStep s₁ actions = some s₂ ∧
      s₂.point true = .lock () (.top false v) := by
  simp only [Option.any_eq_true, decide_eq_true_eq] at h
  obtain ⟨s₀, hsetup, hentry, hsegment, hticks, s₁, hfirst, hparks, s₂, hrun, hpoint⟩ := h
  exact ⟨s₀, s₁, s₂, execute_path State.step anyStep contendedActions _ s₀ hsetup, hentry, hsegment,
    hticks, hfirst, hparks, hrun, hpoint⟩

/-- One timed park doubles the budget to 16384. -/
theorem State.back_off_bounded_iff_once : ∃ s₁ s₂ : State Bool Unit Unit,
    execute State.step anyStep s₁ timedParkActions = some s₂ ∧
    s₂.point true = .lock () (.top false 16384) ∧
    ∀ before input s' s'', (before ++ [.access true input]) <+: timedParkActions →
      execute State.step anyStep s₁ before = some s' → s'.step (.access true input) = some s'' →
      State.Bounded true () input s' s'' := by
  obtain ⟨s₀, s₁, s₂, hpath, hentry, hsegment, hticks, hfirst, hparks, hrun, hpoint⟩ :=
    exists_timedParks timedParkActions 1 16384 (by decide +kernel)
  refine ⟨s₁, s₂, hrun, hpoint, ?_⟩
  refine (State.back_off_bounded_iff State.initial_started hpath hentry hsegment
    (hticks ▸ BitVec.le_refl _) hfirst ?_ hrun).mpr ?_
  · simp [timedParkActions, Action.turns]
  · rw [hparks, hticks]
    decide

/-- Eighteen timed parks in one call make `spin_ticks` negative. -/
theorem spin_ticks_overflow : ∃ s s₀ s₁ s₂ : State Bool Unit Unit, s.Initial ∧
    Path State.step anyStep s s₀ ∧ s₀.point true = .lock () .entry ∧
    (s₀.tls true).curSegmentId ≠ -1 ∧ (s₀.mutex ()).ticksSpin = htllSpinTriesLock ∧
    s₀.step (.access true ⟨0, ⟨0, 0⟩, none⟩) = some s₁ ∧
    execute State.step anyStep s₁ (List.replicate 18 timedParkActions).flatten = some s₂ ∧
    occurrences State.step (State.endsPark true) s₁ (List.replicate 18 timedParkActions).flatten =
      18 ∧
    ∃ v, s₂.point true = .lock () (.top false v) ∧ v.toInt < 0 := by
  obtain ⟨s₀, s₁, s₂, hpath, hentry, hsegment, hticks, hfirst, hparks, hrun, hpoint⟩ :=
    exists_timedParks (List.replicate 18 timedParkActions).flatten 18 0x80000000 (by decide +kernel)
  exact ⟨_, s₀, s₁, s₂, State.initial_started, hpath, hentry, hsegment, hticks,
    hfirst, hrun, hparks, _, hpoint, by decide⟩

end Htll
