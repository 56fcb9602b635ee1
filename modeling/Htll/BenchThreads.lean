import Htll.BenchMoves

/-!
# A thread of the benchmark

Whoever holds the lock is its owner, a count is the number of recorded latencies, or one more
between the count and the record, and what a thread has loaded while it holds the lock is still
there. A move keeps this of the thread that moves and of every other one.
-/

namespace Htll

namespace BenchState

variable {n : ℕ} {o : BenchOptions} {s s' : BenchState n} {t u : Fin n}

/-- The requests of a thread that have touched variable `k` of its area. -/
def touchedBy (s : BenchState n) (k : ℕ) (t : Fin n) : ℕ :=
  (s.globalCnt t).toNat - ((s.role t).behind k).toNat

/-- What is true of a thread. -/
structure ThreadSound (o : BenchOptions) (s : BenchState n) (t : Fin n) : Prop where
  held : (s.role t).holds = true ↔ s.owner = some t
  counted : (s.globalCnt t).toNat = (s.thread t).recordCnt + (s.role t).hasCounted.toNat
  recorded : (s.thread t).recordCnt ≤ latencyRecord
  unrecorded : ∀ j, (s.thread t).recordCnt ≤ j → (s.thread t).recordLatency j = 0
  current : s.Current o t (s.thread t).point
  published : (s.role t).hasPublished = true → s.recordAll t = true

@[simp] theorem role_setThread_self (x : BenchThread) :
    (s.setThread t x).role t = x.point.role := by
  simp [role]

/-- The role of a thread at its new program point. -/
theorem role_goto (p : BenchPoint) : (s.goto t p).role t = p.role := role_setThread_self _

/-! ## The thread that moves -/

/-- A count fits into its word. -/
theorem ThreadSound.toNat_add_one (h : s.ThreadSound o t) :
    (s.globalCnt t + 1).toNat = (s.globalCnt t).toNat + 1 := by
  have hcounted := h.counted
  have hrecorded := h.recorded
  have hle := Bool.toNat_le (s.role t).hasCounted
  unfold latencyRecord at hrecorded
  rw [BitVec.toNat_add, show (1 : BitVec 64).toNat = 1 from rfl, Nat.mod_eq_of_lt (by omega)]

/-- A count is what `cur` becomes. -/
theorem ThreadSound.toInt_cur (h : s.ThreadSound o t) :
    ((s.globalCnt t).setWidth 32).toInt = (s.globalCnt t).toNat := by
  have hcounted := h.counted
  have hrecorded := h.recorded
  have hle := Bool.toNat_le (s.role t).hasCounted
  unfold latencyRecord at hrecorded
  rw [BitVec.toInt_eq_toNat_cond, BitVec.toNat_setWidth, Nat.mod_eq_of_lt (by omega),
    if_pos (by omega)]

/-- A count is printed as it is. -/
theorem ThreadSound.toInt_globalCnt (h : s.ThreadSound o t) :
    (s.globalCnt t).toInt = (s.globalCnt t).toNat := by
  have hcounted := h.counted
  have hrecorded := h.recorded
  have hle := Bool.toNat_le (s.role t).hasCounted
  unfold latencyRecord at hrecorded
  rw [BitVec.toInt_eq_toNat_cond, if_pos (by omega)]

/-- The count that is written is the next one. -/
theorem ThreadSound.toNat_update (h : s.ThreadSound o t) {cnt : BitVec 64}
    (hpoint : (s.thread t).point = .writeCnt cnt) :
    (Function.update s.globalCnt t (cnt + 1) t).toNat = (s.globalCnt t).toNat + 1 := by
  have hcurrent := h.current
  rw [hpoint] at hcurrent
  have hread : cnt = s.globalCnt t := hcurrent
  rw [Function.update_self, hread, h.toNat_add_one]

/-- The role behind a round. -/
theorem role_round (o : BenchOptions) (a : Area) (i : ℕ) : (o.round a i).role = .touching i ∨
    o.numberOfSharedVariables a ≤ i ∧ (o.round a i).role = .leaving := by
  unfold BenchOptions.round
  split
  · exact Or.inl rfl
  · exact Or.inr ⟨Nat.le_of_not_lt ‹_›, rfl⟩

/-- A thread that goes elsewhere keeps its records. -/
theorem ThreadSound.goto (h : s.ThreadSound o t) {p : BenchPoint}
    (hthread : s'.thread t = { s.thread t with point := p })
    (held : p.role.holds = true ↔ s'.owner = some t)
    (counted : (s'.globalCnt t).toNat = (s.thread t).recordCnt + p.role.hasCounted.toNat)
    (current : s'.Current o t p) (published : p.role.hasPublished = true → s'.recordAll t = true) :
    s'.ThreadSound o t := by
  have hrole : s'.role t = p.role := by rw [role, hthread]
  refine ⟨?_, ?_, ?_, ?_, ?_, ?_⟩
  · rwa [hrole]
  · rwa [hrole, hthread]
  · rw [hthread]
    exact h.recorded
  · rw [hthread]
    exact h.unrecorded
  · rwa [hthread]
  · rwa [hrole]

/-- What is true of a thread is true after it has moved. -/
theorem ThreadSound.self (h : s.ThreadSound o t) (hmove : Move o s t s') : s'.ThreadSound o t := by
  have hheld := h.held
  have hcounted := h.counted
  have hpublished := h.published
  cases hmove with
  | goes x hrole hcurrent hcnt hlatency =>
    refine ⟨?_, ?_, ?_, ?_, ?_, ?_⟩
    · simpa [hrole] using hheld
    · simpa [hrole, hcnt] using hcounted
    · simpa [hcnt] using h.recorded
    · simpa [hcnt, hlatency] using h.unrecorded
    · simp only [setThread_thread, Function.update_self]
      exact hcurrent
    · simpa [hrole] using hpublished
  | publishes hrole =>
    rw [hrole] at hheld hcounted
    exact h.goto (Function.update_self ..) hheld hcounted trivial fun _ => Function.update_self ..
  | arrives hrole | passes hrole | begins hrole =>
    rw [hrole] at hheld hcounted hpublished
    exact h.goto (Function.update_self ..) hheld hcounted trivial hpublished
  | acquires hrole =>
    rw [hrole] at hcounted hpublished
    exact h.goto (Function.update_self ..) (iff_of_true rfl rfl) hcounted trivial hpublished
  | counts cnt hpoint =>
    have hrole : s.role t = .holding := by rw [role, hpoint]; rfl
    rw [hrole] at hheld hcounted hpublished
    have hsucc : (Function.update s.globalCnt t (cnt + 1) t).toNat =
        (s.thread t).recordCnt + 1 := by
      rw [h.toNat_update hpoint, hcounted]
      rfl
    refine h.goto (Function.update_self ..) ?_ ?_ (current_round 0) ?_
    · rcases role_round o (o.area t) 0 with hround | ⟨-, hround⟩ <;> rw [hround] <;> exact hheld
    · rcases role_round o (o.area t) 0 with hround | ⟨-, hround⟩ <;> rw [hround] <;> exact hsucc
    · exact fun _ => hpublished rfl
  | storesTwo i v hpoint =>
    have hrole : s.role t = .touching i := by rw [role, hpoint]; rfl
    have hcurrent : s.Current o t (.touch i (.storeTwo v)) := by simpa only [hpoint] using h.current
    rw [hrole] at hheld hcounted hpublished
    refine h.goto (Function.update_self ..) hheld hcounted ⟨hcurrent.1, ?_⟩ hpublished
    have hloaded : v = s.memoryArea (o.area t) (8 * i + 7) := hcurrent.2
    simp [Touch.Fits, write, BenchState.goto, hloaded]
  | storesSeven i v hpoint =>
    have hrole : s.role t = .touching i := by rw [role, hpoint]; rfl
    rw [hrole] at hheld hcounted hpublished
    refine h.goto (Function.update_self ..) ?_ ?_ (current_round (i + 1)) ?_
    · rcases role_round o (o.area t) (i + 1) with hround | ⟨-, hround⟩ <;> rw [hround] <;>
        exact hheld
    · rcases role_round o (o.area t) (i + 1) with hround | ⟨-, hround⟩ <;> rw [hround] <;>
        exact hcounted
    · exact fun _ => hpublished rfl
  | releases hrole =>
    rw [hrole] at hcounted hpublished
    refine h.goto (Function.update_self ..) (iff_of_false ?_ ?_) hcounted trivial hpublished
    · exact Bool.false_ne_true
    · exact Option.some_ne_none t ∘ Eq.symm
  | records latency hrole hlt =>
    rw [hrole] at hheld hcounted hpublished
    refine ⟨?_, ?_, ?_, fun j hj => ?_, ?_, ?_⟩
    · simpa [BenchPoint.role, BenchRole.holds] using hheld
    · simpa [BenchPoint.role, BenchRole.hasCounted] using hcounted
    · simpa using Nat.succ_le_of_lt hlt
    · simp only [setThread_thread, Function.update_self] at hj ⊢
      rw [Function.update_of_ne (by omega), h.unrecorded j (by omega)]
    · simp only [setThread_thread, Function.update_self]
      trivial
    · simpa [BenchPoint.role, BenchRole.hasPublished] using hpublished
  | overruns => exact ⟨hheld, hcounted, h.recorded, h.unrecorded, h.current, hpublished⟩

/-! ## The other threads -/

/-- A move leaves the other threads where they are. -/
theorem Move.other (hmove : Move o s t s') (hu : u ≠ t) :
    s'.thread u = s.thread u ∧ s'.globalCnt u = s.globalCnt u ∧ s'.recordAll u = s.recordAll u := by
  cases hmove <;>
    simp [BenchState.goto, write, Function.update_of_ne hu]

/-- A move leaves `main` where it is. -/
theorem Move.main (hmove : Move o s t s') :
    s'.main = s.main ∧ s'.globalStop = s.globalStop ∧ s'.output = s.output := by
  cases hmove <;> exact ⟨rfl, rfl, rfl⟩

/-- A move of a thread that does not hold the lock leaves the memory alone. -/
theorem Move.memoryArea (hmove : Move o s t s') (hholds : (s.role t).holds = false) :
    s'.memoryArea = s.memoryArea := by
  cases hmove with
  | storesTwo i v hpoint | storesSeven i v hpoint =>
    rw [role, hpoint] at hholds
    cases hholds
  | _ => rfl

/-- Who else owns the lock does not change. -/
theorem Move.owner (h : s.ThreadSound o t) (hmove : Move o s t s') (hu : u ≠ t) :
    s'.owner = some u ↔ s.owner = some u := by
  cases hmove with
  | acquires hrole hfree =>
    rw [hfree]
    exact iff_of_false (fun heq => hu (Option.some.inj heq).symm) nofun
  | releases hrole =>
    have hheld : s.owner = some t := h.held.mp (by rw [hrole]; rfl)
    rw [hheld]
    exact iff_of_false nofun fun heq => hu (Option.some.inj heq).symm
  | _ => exact Iff.rfl

/-- What is true of a thread is true after another one has moved. -/
theorem ThreadSound.other (h : s.ThreadSound o t) (hother : s.ThreadSound o u)
    (hmove : Move o s t s') (hu : u ≠ t) : s'.ThreadSound o u := by
  obtain ⟨hthread, hcnt, hall⟩ := hmove.other hu
  have hrole : s'.role u = s.role u := by rw [role, role, hthread]
  have howner := hmove.owner h hu
  refine ⟨?_, ?_, ?_, ?_, ?_, ?_⟩
  · rw [hrole, howner]
    exact hother.held
  · rw [hrole, hcnt, hthread]
    exact hother.counted
  · rw [hthread]
    exact hother.recorded
  · rw [hthread]
    exact hother.unrecorded
  · rw [hthread]
    have hcurrent := hother.current
    cases hp : (s.thread u).point with
    | writeCnt cnt =>
      rw [hp] at hcurrent
      exact (show cnt = _ from hcurrent).trans hcnt.symm
    | touch i x =>
      -- the other one holds the lock, so this one does not
      have hholds : (s.role u).holds = true := by rw [role, hp]; rfl
      have hnot : (s.role t).holds = false := by
        refine Bool.eq_false_of_not_eq_true fun ht => hu ?_
        exact Option.some.inj ((hother.held.mp hholds).symm.trans (h.held.mp ht))
      rw [hp] at hcurrent
      refine ⟨hcurrent.1, ?_⟩
      rw [hmove.memoryArea hnot]
      exact hcurrent.2
    | _ => trivial
  · rw [hrole, hall]
    exact hother.published

/-! ## Shared variables and counts -/

/-- A count does not fall. -/
theorem Move.globalCnt_le (h : s.ThreadSound o t) (hmove : Move o s t s') (u : Fin n) :
    (s.globalCnt u).toNat ≤ (s'.globalCnt u).toNat := by
  by_cases hu : u = t
  · subst hu
    cases hmove with
    | counts cnt hpoint => exact (Nat.le_succ _).trans_eq (h.toNat_update hpoint).symm
    | _ => exact Nat.le_refl _
  · rw [(hmove.other hu).2.1]

/-- Others have touched what they had. -/
theorem Move.touchedBy_other (hmove : Move o s t s') (hu : u ≠ t) (k : ℕ) :
    s'.touchedBy k u = s.touchedBy k u := by
  obtain ⟨hthread, hcnt, -⟩ := hmove.other hu
  rw [touchedBy, touchedBy, role, role, hthread, hcnt]

/-- The last store to a variable is when the request has touched it. -/
theorem Move.touchedBy_self (h : s.ThreadSound o t) (hmove : Move o s t s') {k : ℕ}
    (hk : k < o.numberOfSharedVariables (o.area t)) :
    s'.memoryArea (o.area t) (8 * k + 7) = s.memoryArea (o.area t) (8 * k + 7) ∧
        s'.touchedBy k t = s.touchedBy k t ∨
      s'.memoryArea (o.area t) (8 * k + 7) = s.memoryArea (o.area t) (8 * k + 7) + 2 ∧
        s'.touchedBy k t = s.touchedBy k t + 1 := by
  have hcounted := h.counted
  -- the role says which variables are behind
  have hkeep : ∀ p : BenchPoint, (∀ k, p.role.behind k = (s.role t).behind k) →
      (s.goto t p).touchedBy k t = s.touchedBy k t := by
    intro p hp
    rw [touchedBy, touchedBy, BenchState.goto, role_setThread_self, hp]
    rfl
  cases hmove with
  | goes x hrole =>
    refine Or.inl ⟨rfl, ?_⟩
    rw [touchedBy, touchedBy, role_setThread_self, hrole]
    rfl
  | publishes hrole | arrives hrole | passes hrole | begins hrole | acquires hrole
  | releases hrole => exact Or.inl ⟨rfl, hkeep _ (by rw [hrole]; exact fun _ => rfl)⟩
  | records latency hrole hlt =>
    refine Or.inl ⟨rfl, ?_⟩
    rw [touchedBy, touchedBy, role_setThread_self, hrole]
    rfl
  | overruns => exact Or.inl ⟨rfl, rfl⟩
  | counts cnt hpoint =>
    have hrole : s.role t = .holding := by rw [role, hpoint]; rfl
    refine Or.inl ⟨rfl, ?_⟩
    have hround : o.round (o.area t) 0 = .touch 0 .loadSeven := if_pos (by omega)
    have hnew : ({ s.goto t (o.round (o.area t) 0) with
        globalCnt := Function.update s.globalCnt t (cnt + 1) } : BenchState n).role t =
          .touching 0 := by
      rw [hround]
      exact role_setThread_self _
    have hcnt : (({ s.goto t (o.round (o.area t) 0) with
        globalCnt := Function.update s.globalCnt t (cnt + 1) } : BenchState n).globalCnt t).toNat =
          (s.globalCnt t).toNat + 1 := h.toNat_update hpoint
    rw [touchedBy, touchedBy, hnew, hrole, hcnt]
    rfl
  | storesTwo i v hpoint =>
    have hrole : s.role t = .touching i := by rw [role, hpoint]; rfl
    have hne : 8 * k + 7 ≠ 8 * i + 2 := by omega
    refine Or.inl ⟨?_, hkeep _ (by rw [hrole]; exact fun _ => rfl)⟩
    simp [write, BenchState.goto, hne]
  | storesSeven i v hpoint =>
    have hrole : s.role t = .touching i := by rw [role, hpoint]; rfl
    have hcurrent := h.current
    rw [hpoint] at hcurrent
    have hloaded : v = s.memoryArea (o.area t) (8 * i + 7) + 1 := hcurrent.2
    have hcounted : (s.globalCnt t).toNat = (s.thread t).recordCnt + 1 := by
      rw [hcounted, hrole]
      rfl
    have hnew : ((s.write (o.area t) (8 * i + 7) (v + 1)).goto t
        (o.round (o.area t) (i + 1))).role t = (o.round (o.area t) (i + 1)).role :=
      role_setThread_self _
    by_cases hki : k = i
    · subst hki
      refine Or.inr ⟨?_, ?_⟩
      · simp [write, BenchState.goto, hloaded, BitVec.add_assoc]
      · have hbehind : (o.round (o.area t) (k + 1)).role.behind k = false := by
          rcases role_round o (o.area t) (k + 1) with hround | ⟨-, hround⟩ <;>
            simp [hround, BenchRole.behind]
        have hbefore : (s.role t).behind k = true := by simp [hrole, BenchRole.behind]
        rw [touchedBy, touchedBy, hnew, hbehind, hbefore]
        simp only [BenchState.goto, write, setThread_globalCnt, hcounted, Bool.toNat_false,
          Bool.toNat_true]
        omega
    · have hne : 8 * k + 7 ≠ 8 * i + 7 := by omega
      refine Or.inl ⟨by simp [write, BenchState.goto, Function.update_of_ne hne], ?_⟩
      have hbehind : (o.round (o.area t) (i + 1)).role.behind k = (s.role t).behind k := by
        rcases role_round o (o.area t) (i + 1) with hround | ⟨hle, hround⟩
        · simp only [hround, hrole, BenchRole.behind, decide_eq_decide]
          omega
        · simp only [hround, hrole, BenchRole.behind]
          exact (decide_eq_false (by omega)).symm
      rw [touchedBy, touchedBy, hnew, hbehind]
      rfl

/-- Words of the other area do not change. -/
theorem Move.memoryArea_other (hmove : Move o s t s') {a : Area} (ha : a ≠ o.area t) :
    s'.memoryArea a = s.memoryArea a := by
  cases hmove with
  | storesTwo | storesSeven => exact Function.update_of_ne ha _ _
  | _ => rfl

/-! ## The barrier -/

/-- Whoever holds the lock is behind the barrier. -/
theorem hasPassed_of_holds {r : BenchRole} (h : r.holds = true) : r.hasPassed = true := by
  cases r <;> first | rfl | cases h

/-- Whoever is behind the barrier has come to it. -/
theorem hasArrived_of_hasPassed {r : BenchRole} (h : r.hasPassed = true) : r.hasArrived = true := by
  cases r <;> first | rfl | cases h

/-- Whoever has come to the barrier has set `record_all[tid]`. -/
theorem hasPublished_of_hasArrived {r : BenchRole} (h : r.hasArrived = true) :
    r.hasPublished = true := by
  cases r <;> first | rfl | cases h

/-- The lock is held during the rounds. -/
theorem holds_round (a : Area) (i : ℕ) : (o.round a i).role.holds = true := by
  rcases role_round o a i with hround | ⟨-, hround⟩ <;> rw [hround] <;> rfl

/-- The request is counted before the rounds. -/
theorem spare_round (a : Area) (i : ℕ) : (o.round a i).role.spare = false := by
  rcases role_round o a i with hround | ⟨-, hround⟩ <;> rw [hround] <;> rfl

/-- A move to the barrier is counted. -/
theorem Move.arrivals (hmove : Move o s t s') :
    s'.arrivals + (s.role t).hasArrived.toNat = s.arrivals + (s'.role t).hasArrived.toNat := by
  -- a thread that holds the lock before and after has come to the barrier
  have hholds : s'.arrivals = s.arrivals → (s.role t).holds = true → (s'.role t).holds = true →
      s'.arrivals + (s.role t).hasArrived.toNat = s.arrivals + (s'.role t).hasArrived.toNat := by
    intro harrivals hbefore hafter
    rw [harrivals, hasArrived_of_hasPassed (hasPassed_of_holds hbefore),
      hasArrived_of_hasPassed (hasPassed_of_holds hafter)]
  cases hmove with
  | goes x hrole =>
    rw [role_setThread_self, hrole]
    rfl
  | publishes hrole | arrives hrole | passes hrole | begins hrole | acquires hrole
  | releases hrole =>
    rw [hrole, role, BenchState.goto, setThread_thread, Function.update_self]
    rfl
  | counts cnt hpoint =>
    exact hholds rfl (by rw [role, hpoint]; rfl)
      ((congrArg _ (role_goto _)).trans (holds_round _ 0))
  | storesTwo i v hpoint =>
    exact hholds rfl (by rw [role, hpoint]; rfl) (congrArg _ (role_goto _))
  | storesSeven i v hpoint =>
    exact hholds rfl (by rw [role, hpoint]; rfl)
      ((congrArg _ (role_goto _)).trans (holds_round _ (i + 1)))
  | records latency hrole =>
    rw [hrole, role_setThread_self]
    rfl
  | overruns => rfl

/-- Nobody leaves the barrier's count. -/
theorem Move.arrivals_le (hmove : Move o s t s') : s.arrivals ≤ s'.arrivals := by
  cases hmove with
  | arrives => exact Nat.le_succ _
  | _ => exact Nat.le_refl _

/-- Nobody gets behind the barrier but through it. -/
theorem Move.passed (hmove : Move o s t s') (hpassed : (s'.role t).hasPassed = true) :
    (s.role t).hasPassed = true ∨ s.arrivals = n + 1 := by
  cases hmove with
  | goes x hrole =>
    rw [role_setThread_self, hrole] at hpassed
    exact Or.inl hpassed
  | publishes | arrives =>
    rw [role, BenchState.goto, setThread_thread, Function.update_self] at hpassed
    cases hpassed
  | passes hrole hopen => exact Or.inr hopen
  | begins hrole | acquires hrole | releases hrole | records latency hrole | overruns hrole =>
    exact Or.inl (by rw [hrole]; rfl)
  | counts cnt hpoint | storesTwo i v hpoint | storesSeven i v hpoint =>
    exact Or.inl (by rw [role, hpoint]; rfl)

end BenchState

end Htll
