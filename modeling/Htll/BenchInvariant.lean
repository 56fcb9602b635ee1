import Htll.BenchThreads

/-!
# Invariants of the benchmark

Nobody is behind the barrier before everybody has come to it, and a word of a shared variable has
been increased by two for every request that has touched it.
-/

namespace Htll

open Text Transition

/-- `main` has come to the barrier. -/
def MainPoint.hasArrived : MainPoint → Bool
  | .create _ | .arrive => false
  | .barrier | .stop | .destroy | .sum .. | .throughput _ | .cur _ | .header .. | .latency ..
  | .returned => true

/-- `main` is behind the barrier. -/
def MainPoint.hasPassed : MainPoint → Bool
  | .create _ | .arrive | .barrier => false
  | .stop | .destroy | .sum .. | .throughput _ | .cur _ | .header .. | .latency ..
  | .returned => true

/-- `main` has set `global_stop`. -/
def MainPoint.hasStopped : MainPoint → Bool
  | .create _ | .arrive | .barrier | .stop => false
  | .destroy | .sum .. | .throughput _ | .cur _ | .header .. | .latency .. | .returned => true

/-- The thread whose latencies `main` prints, and how many. -/
def MainPoint.prints : MainPoint → Option (ℕ × ℤ)
  | .header i count | .latency i count _ => some (i, count)
  | .create _ | .arrive | .barrier | .stop | .destroy | .sum .. | .throughput _ | .cur _
  | .returned => none

namespace BenchState

variable {n : ℕ} {o : BenchOptions} {s s' : BenchState n} {t : Fin n}
  {memory : Area → ℕ → BitVec 64}

/-- The requests that have touched variable `k` of an area. -/
def touched (o : BenchOptions) (s : BenchState n) (a : Area) (k : ℕ) : ℕ :=
  ∑ t with o.area t = a, s.touchedBy k t

/-- What is true in every state that is reached. -/
structure Sound (o : BenchOptions) (memory : Area → ℕ → BitVec 64) (s : BenchState n) : Prop where
  thread : ∀ t, s.ThreadSound o t
  arrivals : s.arrivals = ∑ t, (s.role t).hasArrived.toNat + s.main.hasArrived.toNat
  passed : ∀ t, (s.role t).hasPassed = true → s.arrivals = n + 1
  mainPassed : s.main.hasPassed = true → s.arrivals = n + 1
  absent : ∀ i, s.main = .create i → ∀ t : Fin n, i ≤ t → (s.thread t).point = .absent
  stopped : s.globalStop = s.main.hasStopped
  prints : ∀ i count, s.main.prints = some (i, count) → ∀ hi : i < n,
    count ≤ (s.globalCnt ⟨i, hi⟩).toNat
  lines : ∀ a k, k < o.numberOfSharedVariables a →
    s.memoryArea a (8 * k + 7) = memory a (8 * k + 7) + BitVec.ofNat 64 (2 * s.touched o a k)
  fault : s.fault = true → ∃ t, latencyRecord < (s.globalCnt t).toNat

/-! ## Moves of the threads -/

/-- The shared variables count the requests that have touched them. -/
theorem Sound.lines_move (h : s.Sound o memory) (hmove : Move o s t s') (a : Area) (k : ℕ)
    (hk : k < o.numberOfSharedVariables a) :
    s'.memoryArea a (8 * k + 7) =
      memory a (8 * k + 7) + BitVec.ofNat 64 (2 * s'.touched o a k) := by
  have hlines := h.lines a k hk
  by_cases ha : a = o.area t
  · subst ha
    have hsum : s'.touched o (o.area t) k + s.touchedBy k t =
        s.touched o (o.area t) k + s'.touchedBy k t :=
      Tally.sum_add_of_agree (by simp) fun u hu => hmove.touchedBy_other hu k
    rcases hmove.touchedBy_self (h.thread t) hk with ⟨hword, hby⟩ | ⟨hword, hby⟩
    · have hsame : s'.touched o (o.area t) k = s.touched o (o.area t) k := by omega
      rw [hword, hsame, hlines]
    · have hsucc : s'.touched o (o.area t) k = s.touched o (o.area t) k + 1 := by omega
      rw [hword, hsucc, hlines, Nat.mul_add, BitVec.ofNat_add, BitVec.add_assoc]
      rfl
  · have hsame : s'.touched o a k = s.touched o a k :=
      Tally.sum_of_notMem (by simpa using fun heq => ha heq.symm)
        fun u hu => hmove.touchedBy_other hu k
    rw [hmove.memoryArea_other ha, hsame, hlines]

/-- As long as somebody has not come to the barrier there are too few. -/
theorem Sound.arrivals_lt (h : s.Sound o memory)
    (hnot : s.main.hasArrived = false ∨ ∃ t, (s.role t).hasArrived = false) :
    s.arrivals < n + 1 := by
  have hmain := Bool.toNat_le s.main.hasArrived
  have hall : ∑ t, (s.role t).hasArrived.toNat ≤ n :=
    Tally.sum_toNat_le.trans (Fintype.card_fin n).le
  rw [h.arrivals]
  rcases hnot with hnot | ⟨t, ht⟩
  · rw [hnot, Bool.toNat_false]
    omega
  · have hlt : ∑ t, (s.role t).hasArrived.toNat < n :=
      (Tally.sum_toNat_lt (p := fun t => (s.role t).hasArrived) ht).trans_eq (Fintype.card_fin n)
    omega

/-- Behind the barrier everybody has come to it. -/
theorem Sound.hasArrived (h : s.Sound o memory) (hopen : s.arrivals = n + 1) (t : Fin n) :
    (s.role t).hasArrived = true := by
  by_contra hnot
  have hlt := h.arrivals_lt (Or.inr ⟨t, Bool.eq_false_of_not_eq_true hnot⟩)
  omega

/-- What is true stays true when a thread that has been created moves. -/
theorem Sound.move (h : s.Sound o memory) (hrunning : s.fault = false)
    (hcreated : ∀ i, s.main = .create i → ¬i ≤ t) (hmove : Move o s t s') : s'.Sound o memory := by
  obtain ⟨hmain, hstop, -⟩ := hmove.main
  have hrole : ∀ u, u ≠ t → s'.role u = s.role u := fun u hu => by
    rw [role, role, (hmove.other hu).1]
  have harrivals := hmove.arrivals
  -- nobody comes to the barrier when everybody is there
  have hopen : s.arrivals = n + 1 → s'.arrivals = n + 1 := by
    intro hall
    have hthere := h.hasArrived hall t
    have hle := Bool.toNat_le (s'.role t).hasArrived
    have hgrows := hmove.arrivals_le
    rw [hthere, Bool.toNat_true] at harrivals
    omega
  refine ⟨fun u => ?_, ?_, fun u hu => ?_, fun hpassed => ?_, fun i hi u hle => ?_, ?_,
    fun i count hprints hi => ?_, fun a k hk => h.lines_move hmove a k hk, fun hfault => ?_⟩
  · by_cases hu : u = t
    · subst hu
      exact (h.thread u).self hmove
    · exact (h.thread t).other (h.thread u) hmove hu
  · have hsum : ∑ u, (s'.role u).hasArrived.toNat + (s.role t).hasArrived.toNat =
        ∑ u, (s.role u).hasArrived.toNat + (s'.role t).hasArrived.toNat :=
      Tally.sum_add_of_agree (f := fun u => (s'.role u).hasArrived.toNat)
        (g := fun u => (s.role u).hasArrived.toNat) (Finset.mem_univ t)
        fun u hu => congrArg (fun r => (BenchRole.hasArrived r).toNat) (hrole u hu)
    have hbefore := h.arrivals
    rw [hmain]
    omega
  · by_cases hut : u = t
    · subst hut
      exact hopen ((hmove.passed hu).elim (h.passed u) id)
    · rw [hrole u hut] at hu
      exact hopen (h.passed u hu)
  · rw [hmain] at hpassed
    exact hopen (h.mainPassed hpassed)
  · rw [hmain] at hi
    have hut : u ≠ t := by
      rintro rfl
      exact hcreated i hi hle
    rw [(hmove.other hut).1]
    exact h.absent i hi u hle
  · rw [hstop, hmain]
    exact h.stopped
  · rw [hmain] at hprints
    have hle := h.prints i count hprints hi
    have hgrows := hmove.globalCnt_le (h.thread t) ⟨i, hi⟩
    omega
  · cases hmove with
    | overruns hroleT hge =>
      refine ⟨t, ?_⟩
      have hcounted := (h.thread t).counted
      rw [hroleT, BenchRole.hasCounted, Bool.toNat_true] at hcounted
      exact Nat.lt_of_lt_of_eq (Nat.lt_succ_of_le hge) hcounted.symm
    | _ =>
      refine absurd hfault (ne_true_of_eq_false ?_)
      exact hrunning

/-! ## Moves of `main` -/

/-- What is true stays true when `main` goes on and leaves the threads alone. -/
theorem Sound.goes (h : s.Sound o memory) {m m' : MainPoint} (hmain : s.main = m)
    (out : List Line) (hsame : m'.hasArrived = m.hasArrived ∧ m'.hasPassed = m.hasPassed ∧
      m'.hasStopped = m.hasStopped)
    (habsent : ∀ i, m' = .create i → ∀ t : Fin n, i ≤ t → (s.thread t).point = .absent)
    (hprints : ∀ i count, m'.prints = some (i, count) → ∀ hi : i < n,
      count ≤ (s.globalCnt ⟨i, hi⟩).toNat) :
    ({ s with main := m', output := out } : BenchState n).Sound o memory where
  thread t :=
    have ht := h.thread t
    ⟨ht.held, ht.counted, ht.recorded, ht.unrecorded, ht.current, ht.published⟩
  arrivals := by
    rw [hsame.1, ← hmain]
    exact h.arrivals
  passed := h.passed
  mainPassed := by
    rw [hsame.2.1, ← hmain]
    exact h.mainPassed
  absent := habsent
  stopped := by
    rw [hsame.2.2, ← hmain]
    exact h.stopped
  prints := hprints
  lines := h.lines
  fault := h.fault

/-- `main` creates a thread. -/
theorem Sound.creates (h : s.Sound o memory) (hrunning : s.fault = false) {i : ℕ}
    (hmain : s.main = .create i) (hi : i < n) :
    ({ s.goto ⟨i, hi⟩ .publish with main := .create (i + 1) } : BenchState n).Sound o memory := by
  have habsent := h.absent i hmain ⟨i, hi⟩ (Nat.le_refl i)
  have hnext : ({ s with main := .create (i + 1), output := s.output } : BenchState n).Sound o
      memory := by
    refine h.goes hmain s.output ⟨rfl, rfl, rfl⟩ (fun j hj u hle => ?_) nofun
    cases hj
    exact h.absent i hmain u (by omega)
  have hrole : BenchRole.unpublished =
      ({ s with main := .create (i + 1), output := s.output } : BenchState n).role ⟨i, hi⟩ := by
    rw [role, habsent]
    rfl
  refine hnext.move hrunning (fun j hj => ?_) (Move.goto (p := .publish) hrole trivial)
  cases hj
  exact Nat.not_succ_le_self i

/-- `main` comes to the barrier. -/
theorem Sound.arrives (h : s.Sound o memory) (hmain : s.main = .arrive) :
    ({ s with main := .barrier, arrivals := s.arrivals + 1 } : BenchState n).Sound o memory := by
  have hlt := h.arrivals_lt (Or.inl (by rw [hmain]; rfl))
  refine ⟨fun t => ?_, ?_, fun t ht => ?_, nofun, nofun, ?_, nofun, h.lines, h.fault⟩
  · have ht := h.thread t
    exact ⟨ht.held, ht.counted, ht.recorded, ht.unrecorded, ht.current, ht.published⟩
  · have hbefore := h.arrivals
    rw [hmain] at hbefore
    exact congrArg (· + 1) hbefore
  · have hpassed := h.passed t ht
    omega
  · have hstopped := h.stopped
    rw [hmain] at hstopped
    exact hstopped

/-- `main` sets `global_stop`. -/
theorem Sound.stops (h : s.Sound o memory) (hmain : s.main = .stop) :
    ({ s with main := .destroy, globalStop := true } : BenchState n).Sound o memory := by
  have hopen := h.mainPassed (by rw [hmain]; rfl)
  refine ⟨fun t => ?_, ?_, h.passed, fun _ => hopen, nofun, rfl, nofun, h.lines, h.fault⟩
  · have ht := h.thread t
    exact ⟨ht.held, ht.counted, ht.recorded, ht.unrecorded, ht.current, ht.published⟩
  · have hbefore := h.arrivals
    rw [hmain] at hbefore
    exact hbefore

/-- `main` goes through the barrier. -/
theorem Sound.passes (h : s.Sound o memory) (hmain : s.main = .barrier)
    (hopen : s.arrivals = n + 1) : ({ s with main := .stop } : BenchState n).Sound o memory := by
  refine ⟨fun t => ?_, ?_, h.passed, fun _ => hopen, nofun, ?_, nofun, h.lines, h.fault⟩
  · have ht := h.thread t
    exact ⟨ht.held, ht.counted, ht.recorded, ht.unrecorded, ht.current, ht.published⟩
  · have hbefore := h.arrivals
    rw [hmain] at hbefore
    exact hbefore
  · have hstopped := h.stopped
    rw [hmain] at hstopped
    exact hstopped

/-- `main` leaves an array. -/
theorem Sound.overruns (h : s.Sound o memory) (hlong : latencyRecord < (s.globalCnt t).toNat) :
    ({ s with fault := true } : BenchState n).Sound o memory where
  thread u :=
    have hu := h.thread u
    ⟨hu.held, hu.counted, hu.recorded, hu.unrecorded, hu.current, hu.published⟩
  arrivals := h.arrivals
  passed := h.passed
  mainPassed := h.mainPassed
  absent := h.absent
  stopped := h.stopped
  prints := h.prints
  lines := h.lines
  fault _ := ⟨t, hlong⟩

/-- What is true stays true when `main` moves. -/
theorem Sound.main (h : s.Sound o memory) (hrunning : s.fault = false)
    (hs : s.mainStep o = some s') : s'.Sound o memory := by
  unfold mainStep at hs
  split at hs
  case h_1 i hmain =>
    split at hs <;> cases hs
    · exact h.creates hrunning hmain ‹_›
    · exact h.goes hmain s.output ⟨rfl, rfl, rfl⟩ nofun nofun
  case h_2 hmain =>
    cases hs
    exact h.arrives hmain
  case h_3 hmain =>
    obtain ⟨hopen, hs⟩ := Option.ite_none_right_eq_some.mp hs
    cases hs
    exact h.passes hmain hopen
  case h_4 hmain =>
    cases hs
    exact h.stops hmain
  case h_5 hmain =>
    cases hs
    exact h.goes hmain _ ⟨rfl, rfl, rfl⟩ nofun nofun
  case h_6 hmain =>
    split at hs <;> cases hs <;>
      exact h.goes hmain s.output ⟨rfl, rfl, rfl⟩ nofun nofun
  case h_7 hmain =>
    cases hs
    exact h.goes hmain _ ⟨rfl, rfl, rfl⟩ nofun nofun
  case h_8 i hmain =>
    split at hs <;> cases hs
    · refine h.goes hmain s.output ⟨rfl, rfl, rfl⟩ nofun ?_
      intro j count hj hlt
      cases hj
      exact (h.thread ⟨i, hlt⟩).toInt_cur.le
    · exact h.goes hmain s.output ⟨rfl, rfl, rfl⟩ nofun nofun
  case h_9 i count hmain =>
    have hprints := h.prints i count (by rw [hmain]; rfl)
    split at hs <;> cases hs
    refine h.goes hmain _ ⟨rfl, rfl, rfl⟩ nofun ?_
    intro j count' hj hlt
    cases hj
    exact hprints hlt
  case h_10 i count j hmain =>
    have hprints := h.prints i count (by rw [hmain]; rfl)
    split at hs
    · rename_i hi
      split at hs
      · rename_i hj
        split at hs <;> cases hs
        · refine h.goes hmain _ ⟨rfl, rfl, rfl⟩ nofun ?_
          intro i' count' hcount hlt
          cases hcount
          exact hprints hlt
        · rename_i hout
          have harrived := h.hasArrived (h.mainPassed (by rw [hmain]; rfl)) ⟨i, hi⟩
          have hset := (h.thread ⟨i, hi⟩).published (hasPublished_of_hasArrived harrived)
          have hge : latencyRecord ≤ j := Nat.le_of_not_lt fun hlt => hout ⟨hset, hlt⟩
          have hcur := hprints hi
          exact h.overruns (t := ⟨i, hi⟩) (by omega)
      · cases hs
        exact h.goes hmain s.output ⟨rfl, rfl, rfl⟩ nofun nofun
    · cases hs
  case h_11 => cases hs

/-! ## Whole runs -/

/-- The mover has been created. -/
theorem Sound.created (h : s.Sound o memory) {clock : BitVec 64}
    (hs : s.threadStep o t clock = some s') (i : ℕ) (hi : s.main = .create i) : ¬i ≤ t := by
  intro hle
  rw [threadStep, h.absent i hi t hle] at hs
  cases hs

/-- What is true stays true. -/
theorem Sound.step (h : s.Sound o memory) {x : BenchAction n} (hs : s.step o x = some s') :
    s'.Sound o memory := by
  obtain ⟨hends, hs⟩ := Option.ite_none_left_eq_some.mp hs
  have hrunning : s.fault = false :=
    Bool.eq_false_of_not_eq_true fun hfault => hends (Or.inl hfault)
  cases x with
  | main => exact h.main hrunning hs
  | thread t clock => exact h.move hrunning (h.created hs) (move_of_step (h.thread t).current hs)

/-- It is true in the beginning. -/
theorem sound_initial : (initial memory : BenchState n).Sound o memory where
  thread _ := ⟨iff_of_false nofun nofun, rfl, Nat.zero_le _, fun _ _ => rfl, trivial, nofun⟩
  arrivals := by
    have hnobody : ∑ t, ((initial memory : BenchState n).role t).hasArrived.toNat = 0 :=
      Finset.sum_eq_zero fun _ _ => rfl
    rw [hnobody]
    rfl
  passed _ := nofun
  mainPassed := nofun
  absent _ _ _ _ := rfl
  stopped := rfl
  prints _ _ := nofun
  lines a k _ := by
    have hnobody : (initial memory : BenchState n).touched o a k = 0 :=
      Finset.sum_eq_zero fun _ _ => rfl
    rw [hnobody]
    exact (BitVec.add_zero _).symm
  fault := nofun

/-- It is always true. -/
theorem sound_of_path (hpath : Path (step o) anyStep (initial memory) s) : s.Sound o memory :=
  Path.invariant (Sound o memory) (fun _ _ _ _ hs h => h.step hs) hpath sound_initial

/-- In every interleaving at most one thread is between its calls of the lock, and while nobody of
an area is, each of its shared variables has been touched once for every request that is counted
for the area: the non-atomic accesses lose no update. No array is left before some thread has made
more than `LATENCY_RECORD` requests. -/
theorem shared_variables_count_requests (hpath : Path (step o) anyStep (initial memory) s) :
    (∀ t u, (s.role t).holds = true → (s.role u).holds = true → t = u) ∧
    (∀ a, (∀ t, s.owner = some t → o.area t ≠ a) → ∀ k < o.numberOfSharedVariables a,
      s.memoryArea a (8 * k + 7) = memory a (8 * k + 7) +
        BitVec.ofNat 64 (2 * ∑ t with o.area t = a, (s.globalCnt t).toNat)) ∧
    (s.fault = true → ∃ t, latencyRecord < (s.globalCnt t).toNat) := by
  have h : s.Sound o memory := sound_of_path hpath
  refine ⟨fun t u ht hu => ?_, fun a hfree k hk => ?_, h.fault⟩
  · exact Option.some.inj (((h.thread t).held.mp ht).symm.trans ((h.thread u).held.mp hu))
  · -- nobody is on its way to a variable of the area
    have htouched : s.touched o a k = ∑ t with o.area t = a, (s.globalCnt t).toNat := by
      refine Finset.sum_congr rfl fun t ht => ?_
      have hbehind : (s.role t).behind k = false := by
        cases hrole : s.role t with
        | touching i =>
          have howner := (h.thread t).held.mp (by rw [hrole]; rfl)
          exact absurd (Finset.mem_filter.mp ht).2 (hfree t howner)
        | _ => rfl
      rw [touchedBy, hbehind]
      rfl
    rw [h.lines a k hk, htouched]

/-- One thread, which touches one shared variable. -/
def oneVariable : BenchOptions where
  shortThreadNumber := 1
  numberOfSharedVariables := fun _ => 1
  spinCnt := 0
  parkCnt := 0
  wakeCnt := 0
  throughput := fun _ => []

/-- A request of a thread that runs alone, up to the unlocking. -/
def oneRequest {n : ℕ} (t : Fin n) : List (BenchAction n) :=
  List.replicate 3 .main ++ List.replicate 2 (.thread t 5) ++ [.main] ++
    List.replicate 12 (.thread t 5)

/-- After the request the variable is at 2. -/
theorem shared_variables_count_requests_one : ∃ s : BenchState 1,
    Path (step oneVariable) anyStep (initial fun _ _ => 0) s ∧ s.globalCnt 0 = 1 ∧
      s.memoryArea .short 7 = 2 := by
  obtain ⟨s, hpath, howner, hcnt⟩ := exists_path_of_execute
    (step (n := 1) oneVariable) anyStep (oneRequest 0) (initial fun _ _ => 0)
    (fun s => s.owner = none ∧ s.globalCnt 0 = 1) (by decide +kernel)
  refine ⟨s, hpath, hcnt, ?_⟩
  have hword := (shared_variables_count_requests hpath).2.1 .short
    (by rw [howner]; nofun) 0 Nat.zero_lt_one
  rw [hword]
  have hsum : ∑ t with oneVariable.area t = .short, (s.globalCnt t).toNat = 1 := by
    have hone : (Finset.univ.filter fun t : Fin 1 => oneVariable.area t = .short) = {0} := by decide
    rw [hone, Finset.sum_singleton, hcnt]
    rfl
  rw [hsum]
  rfl

end BenchState

end Htll
