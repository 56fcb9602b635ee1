import Htll.BenchInvariant

/-!
# The benchmark comes to an end

Whoever waits in the benchmark waits for somebody that can go on: at the barrier for `main` or for
a thread that has been created, for the lock for its owner. And the actions are numbered. What
`main` has ahead falls with each of its actions, since a count is at most one above the number of
the recorded latencies when it is read; what a thread has ahead falls with each of its own once
`global_stop` is set.
-/

namespace Htll

open Transition

/-! ## What is ahead -/

/-- `main` makes at most so many actions to print the latencies of a thread. -/
def linesBound : ℕ := latencyRecord + 4

/-- `main` makes at most so many actions from a program point on. -/
def MainPoint.ahead (n : ℕ) : MainPoint → ℕ
  | .create i => n * linesBound + n + 8 + (n - i)
  | .arrive => n * linesBound + n + 7
  | .barrier => n * linesBound + n + 6
  | .stop => n * linesBound + n + 5
  | .destroy => n * linesBound + n + 4
  | .sum i _ => n * linesBound + 3 + (n - i)
  | .throughput _ => n * linesBound + 2
  | .cur i => (n - i) * linesBound + 1
  | .header i count => (n - (i + 1)) * linesBound + 1 + (count.toNat + 2)
  | .latency i count j => (n - (i + 1)) * linesBound + 1 + (count.toNat - j + 1)
  | .returned => 0

/-- The accesses to a shared variable from the next one on. -/
def Touch.ahead : Touch → ℕ
  | .loadSeven => 4
  | .storeTwo _ => 3
  | .loadTwo => 2
  | .storeSeven _ => 1

/-- With `global_stop` set, a thread with so many shared variables makes at most so many actions
from a program point on. -/
def BenchPoint.ahead (v : ℕ) : BenchPoint → ℕ
  | .absent => 5
  | .publish => 4
  | .arrive => 3
  | .barrier => 2
  | .check => 1
  | .start => 4 * v + 8
  | .lock => 4 * v + 7
  | .locked => 4 * v + 6
  | .readCnt => 4 * v + 5
  | .writeCnt _ => 4 * v + 4
  | .touch i x => 4 * (v - (i + 1)) + x.ahead + 3
  | .unlock => 3
  | .record => 2
  | .returned => 0

/-- The actions of a thread before it is at the barrier, with its creation. -/
def BenchPoint.toBarrier : BenchPoint → ℕ
  | .absent => 3
  | .publish => 2
  | .arrive => 1
  | .barrier | .check | .start | .lock | .locked | .readCnt | .writeCnt _ | .touch .. | .unlock
  | .record | .returned => 0

/-- The lines of one more thread. -/
theorem linesBound_succ {n i : ℕ} (hi : i < n) :
    (n - i) * linesBound = (n - (i + 1)) * linesBound + linesBound := by
  rw [← Nat.succ_mul]
  congr 1
  omega

/-- Before the return something is ahead. -/
theorem MainPoint.ahead_pos {n : ℕ} {m : MainPoint} (h : m ≠ .returned) : 0 < m.ahead n := by
  cases m with
  | returned => exact absurd rfl h
  | _ =>
    simp only [MainPoint.ahead]
    omega

theorem BenchPoint.ahead_pos {v : ℕ} {p : BenchPoint} (h : p ≠ .returned) : 0 < p.ahead v := by
  cases p with
  | returned => exact absurd rfl h
  | _ =>
    simp only [BenchPoint.ahead]
    omega

/-- A round has at most the accesses to the variables ahead, and the end of the request. -/
theorem BenchOptions.ahead_round (o : BenchOptions) (a : Area) (i : ℕ) :
    (o.round a i).ahead (o.numberOfSharedVariables a) ≤
      4 * (o.numberOfSharedVariables a - i) + 3 := by
  unfold BenchOptions.round
  split
  · simp only [BenchPoint.ahead, Touch.ahead]
    omega
  · exact Nat.le_add_left 3 _

/-- A thread has at most one request ahead. -/
theorem BenchPoint.ahead_le (v : ℕ) (p : BenchPoint) : p.ahead v ≤ 4 * v + 8 := by
  cases p with
  | touch i x =>
    cases x <;> simp only [BenchPoint.ahead, Touch.ahead] <;> omega
  | _ =>
    simp only [BenchPoint.ahead]
    omega

/-- An action of `main`. -/
def BenchAction.isMain {n : ℕ} : BenchAction n → Bool
  | .main => true
  | .thread .. => false

/-- An action of this thread. -/
def BenchAction.isThread {n : ℕ} (t : Fin n) : BenchAction n → Bool
  | .main => false
  | .thread u _ => u = t

namespace BenchState

variable {n : ℕ} {o : BenchOptions} {s s' : BenchState n} {t : Fin n} {clock : BitVec 64}
  {memory : Area → ℕ → BitVec 64}

/-- A count is at most one above the recorded latencies. -/
theorem ThreadSound.globalCnt_le (h : s.ThreadSound o t) :
    (s.globalCnt t).toNat ≤ latencyRecord + 1 := by
  have hcounted := h.counted
  have hrecorded := h.recorded
  have hle := Bool.toNat_le (s.role t).hasCounted
  omega

/-! ## Everybody that is needed has been created -/

/-- `main` prints the latencies of one of the threads, and who is absent has yet to be created. -/
structure Placed (s : BenchState n) : Prop where
  prints : ∀ i count, s.main.prints = some (i, count) → i < n
  absent : ∀ t, (s.thread t).point = .absent → ∃ i, s.main = .create i ∧ i ≤ t

/-- An action of a thread that has been created does not make it absent. -/
theorem threadStep_created (hs : s.threadStep o t clock = some s') :
    (s'.thread t).point ≠ .absent := by
  unfold threadStep at hs
  dsimp only at hs
  split at hs
  case h_5 | h_8 =>
    obtain ⟨-, hs⟩ := Option.ite_none_right_eq_some.mp hs
    cases hs
    simp [BenchState.goto]
  case h_11 | h_15 =>
    cases hs
    simp only [BenchState.goto, write, BenchOptions.round, setThread_thread, Function.update_self]
    split <;> simp
  case h_17 hp =>
    split at hs <;> cases hs <;> simp [hp]
  all_goals
    cases hs <;> simp [BenchState.goto, write]
    try split <;> simp

/-- Threads move where they have been created. -/
theorem Placed.move (h : s.Placed) (hmove : Move o s t s')
    (hcreated : (s'.thread t).point ≠ .absent) : s'.Placed where
  prints := by
    rw [hmove.main.1]
    exact h.prints
  absent u hu := by
    rw [hmove.main.1]
    by_cases hut : u = t
    · subst hut
      exact absurd hu hcreated
    · rw [(hmove.other hut).1] at hu
      exact h.absent u hu

/-- `main` goes on when all threads have been created. -/
theorem Placed.goes (h : s.Placed) (hcreated : ∀ i, s.main ≠ .create i)
    (hthread : s'.thread = s.thread)
    (hprints : ∀ i count, s'.main.prints = some (i, count) → i < n) : s'.Placed where
  prints := hprints
  absent t ht := by
    rw [hthread] at ht
    obtain ⟨i, hi, -⟩ := h.absent t ht
    exact absurd hi (hcreated i)

/-- `main` creates each thread in its turn. -/
theorem Placed.main (h : s.Placed) (hs : s.mainStep o = some s') : s'.Placed := by
  unfold mainStep at hs
  split at hs
  case h_1 i hmain =>
    split at hs <;> cases hs
    · rename_i hi
      refine ⟨by simp [MainPoint.prints], fun t ht => ⟨i + 1, rfl, ?_⟩⟩
      by_cases hti : t = ⟨i, hi⟩
      · subst hti
        simp [BenchState.goto] at ht
      · simp only [BenchState.goto, setThread_thread, Function.update_of_ne hti] at ht
        obtain ⟨j, hj, hle⟩ := h.absent t ht
        rw [hmain] at hj
        cases hj
        have hne : (t : ℕ) ≠ i := fun heq => hti (Fin.ext heq)
        omega
    · rename_i hi
      refine ⟨by simp [MainPoint.prints], fun t ht => ?_⟩
      obtain ⟨j, hj, hle⟩ := h.absent t ht
      rw [hmain] at hj
      cases hj
      exact absurd (hle.trans_lt t.isLt) hi
  case h_3 hmain =>
    obtain ⟨-, hs⟩ := Option.ite_none_right_eq_some.mp hs
    cases hs
    exact h.goes (by simp [hmain]) rfl (by simp [MainPoint.prints])
  case h_8 i hmain =>
    split at hs <;> cases hs
    · refine h.goes (by simp [hmain]) rfl ?_
      rintro j count hprints
      cases hprints
      assumption
    · exact h.goes (by simp [hmain]) rfl (by simp [MainPoint.prints])
  case h_9 i count hmain =>
    have hi := h.prints i count (by rw [hmain]; rfl)
    rw [dif_pos hi] at hs
    cases hs
    refine h.goes (by simp [hmain]) rfl ?_
    rintro i' count' hprints
    cases hprints
    exact hi
  case h_10 i count j hmain =>
    have hi := h.prints i count (by rw [hmain]; rfl)
    rw [dif_pos hi] at hs
    split at hs
    · split at hs <;> cases hs <;> refine h.goes (by simp [hmain]) rfl ?_
      · rintro i' count' hprints
        cases hprints
        exact hi
      · exact h.prints
    · cases hs
      exact h.goes (by simp [hmain]) rfl (by simp [MainPoint.prints])
  case h_11 => cases hs
  case h_6 i total hmain =>
    split at hs <;> cases hs <;> exact h.goes (by simp [hmain]) rfl (by simp [MainPoint.prints])
  case h_2 hmain | h_4 hmain | h_5 hmain | h_7 hmain =>
    cases hs
    exact h.goes (by simp [hmain]) rfl (by simp [MainPoint.prints])

/-- What is in place stays in place. -/
theorem Placed.step (h : s.Placed) (hsound : s.Sound o memory) {x : BenchAction n}
    (hs : s.step o x = some s') : s'.Placed := by
  obtain ⟨-, hs⟩ := Option.ite_none_left_eq_some.mp hs
  cases x with
  | main => exact h.main hs
  | thread t clock =>
    exact h.move (move_of_step (hsound.thread t).current hs) (threadStep_created hs)

/-- It is always in place. -/
theorem placed_of_path (hpath : Path (BenchState.step o) anyStep (initial memory) s) : s.Placed :=
  Path.invariant_of (Sound o memory) Placed (fun _ _ _ _ hs h => h.step hs)
    (fun _ _ _ _ hs hsound h => h.step hsound hs) hpath sound_initial
    ⟨by simp [initial, MainPoint.prints], fun _ _ => ⟨0, rfl, Nat.zero_le _⟩⟩

/-! ## Nobody waits for nothing -/

/-- `main` can go on. -/
def MainCanMove (o : BenchOptions) (s : BenchState n) : Prop := (s.step o .main).isSome = true

/-- A thread can go on, whatever the clock shows. -/
def CanMove (o : BenchOptions) (s : BenchState n) (t : Fin n) : Prop :=
  ∀ clock, (s.step o (.thread t clock)).isSome = true

/-- While the process runs, a thread that has been created and has not returned can go on, or it
waits: at the barrier, or for the lock. -/
theorem canMove (hends : ¬(s.fault = true ∨ s.main = .returned))
    (habsent : (s.thread t).point ≠ .absent) (hreturned : (s.thread t).point ≠ .returned) :
    s.CanMove o t ∨ (s.thread t).point = .barrier ∧ s.arrivals ≠ n + 1 ∨
      (s.thread t).point = .lock ∧ s.owner ≠ none := by
  have hstep : s.CanMove o t ↔ ∀ clock, (s.threadStep o t clock).isSome = true :=
    forall_congr' fun clock => by rw [step, if_neg hends]
  rw [hstep]
  cases hp : (s.thread t).point with
  | absent => exact absurd hp habsent
  | returned => exact absurd hp hreturned
  | barrier =>
    by_cases hopen : s.arrivals = n + 1
    · exact Or.inl fun clock => by simp [threadStep, hp, hopen]
    · exact Or.inr (Or.inl ⟨rfl, hopen⟩)
  | lock =>
    by_cases hfree : s.owner = none
    · exact Or.inl fun clock => by simp [threadStep, hp, hfree]
    · exact Or.inr (Or.inr ⟨rfl, hfree⟩)
  | touch i x =>
    refine Or.inl fun clock => ?_
    cases x <;> simp [threadStep, hp]
  | record =>
    refine Or.inl fun clock => ?_
    simp only [threadStep, hp]
    split <;> rfl
  | _ => exact Or.inl fun clock => by simp [threadStep, hp]

/-- The owner of the lock can go on. -/
theorem Sound.canMove_owner (h : s.Sound o memory) (hends : ¬(s.fault = true ∨ s.main = .returned))
    (howner : s.owner = some t) : s.CanMove o t := by
  have hholds := (h.thread t).held.mpr howner
  have hpoint : ∀ p, (s.thread t).point = p → p.role.holds = true := fun p hp => hp ▸ hholds
  rcases canMove (o := o) (t := t) hends (fun hp => nomatch hpoint _ hp)
    (fun hp => nomatch hpoint _ hp) with hmove | ⟨hp, -⟩ | ⟨hp, -⟩
  · exact hmove
  · exact nomatch hpoint _ hp
  · exact nomatch hpoint _ hp

/-- A thread that has been created and has not come to the barrier can go on. -/
theorem canMove_of_not_arrived (hends : ¬(s.fault = true ∨ s.main = .returned))
    (habsent : (s.thread t).point ≠ .absent) (hnot : (s.role t).hasArrived = false) :
    s.CanMove o t := by
  have hpoint : ∀ p, (s.thread t).point = p → p.role.hasArrived = false := fun p hp => hp ▸ hnot
  rcases canMove (o := o) hends habsent (fun hp => nomatch hpoint _ hp) with
    hmove | ⟨hp, -⟩ | ⟨hp, -⟩
  · exact hmove
  · exact nomatch hpoint _ hp
  · exact nomatch hpoint _ hp

/-- While the process runs `main` can go on, or it waits at the barrier. -/
theorem Placed.mainCanMove (h : s.Placed) (hends : ¬(s.fault = true ∨ s.main = .returned)) :
    s.MainCanMove o ∨ s.main = .barrier ∧ s.arrivals ≠ n + 1 := by
  have hstep : s.MainCanMove o ↔ (s.mainStep o).isSome = true := by
    rw [MainCanMove, BenchState.step, if_neg hends]
  rw [hstep]
  cases hmain : s.main with
  | returned => exact absurd (Or.inr hmain) hends
  | barrier =>
    by_cases hopen : s.arrivals = n + 1
    · exact Or.inl (by simp [mainStep, hmain, hopen])
    · exact Or.inr ⟨rfl, hopen⟩
  | create i | sum i total | cur i =>
    refine Or.inl ?_
    simp only [mainStep, hmain]
    split <;> rfl
  | header i count =>
    have hi := h.prints i count (by rw [hmain]; rfl)
    exact Or.inl (by simp [mainStep, hmain, hi])
  | latency i count j =>
    have hi := h.prints i count (by rw [hmain]; rfl)
    refine Or.inl ?_
    simp only [mainStep, hmain, hi, dite_true]
    split
    · split <;> rfl
    · rfl
  | _ => exact Or.inl (by simp [mainStep, hmain])

/-- A closed barrier waits for somebody that can go on. -/
theorem Sound.barrier_answered (h : s.Sound o memory) (hplaced : s.Placed)
    (hends : ¬(s.fault = true ∨ s.main = .returned)) (hclosed : s.arrivals ≠ n + 1) :
    s.main.hasArrived = false ∧ s.MainCanMove o ∨
      s.main.hasArrived = true ∧ ∃ t, (s.role t).hasArrived = false ∧ s.CanMove o t := by
  cases hmain : s.main.hasArrived with
  | false =>
    refine Or.inl ⟨rfl, (hplaced.mainCanMove hends).resolve_right fun hbarrier => ?_⟩
    rw [hbarrier.1] at hmain
    cases hmain
  | true =>
    obtain ⟨t, ht⟩ : ∃ t, (s.role t).hasArrived = false := by
      by_contra hall
      refine hclosed ?_
      have hsum : ∑ t, (s.role t).hasArrived.toNat = n := by
        simp [Bool.eq_true_of_not_eq_false (not_exists.mp hall _)]
      rw [h.arrivals, hsum, hmain]
      rfl
    refine Or.inr ⟨rfl, t, ht, canMove_of_not_arrived hends (fun habsent => ?_) ht⟩
    -- `main` has created everybody
    obtain ⟨i, hi, -⟩ := hplaced.absent t habsent
    rw [hi] at hmain
    cases hmain

/-- While the process runs, everybody that waits is answered. `main` can go on, or it is at the
barrier and a thread that has not come to it can. A thread that has been created and has not
returned can go on as well, or it is at the barrier and somebody that has not come to it can, or it
wants the lock and another thread has it and can. -/
theorem benchmark_waits_are_answered (hpath : Path (step o) anyStep (initial memory) s)
    (hends : ¬(s.fault = true ∨ s.main = .returned)) :
    (s.MainCanMove o ∨ s.main = .barrier ∧ ∃ t, (s.role t).hasArrived = false ∧ s.CanMove o t) ∧
    ∀ t, (s.thread t).point ≠ .returned →
      (∃ i, s.main = .create i ∧ i ≤ t ∧ s.MainCanMove o) ∨ s.CanMove o t ∨
      (s.thread t).point = .barrier ∧ (s.main.hasArrived = false ∧ s.MainCanMove o ∨
        ∃ u, (s.role u).hasArrived = false ∧ s.CanMove o u) ∨
      (s.thread t).point = .lock ∧ ∃ u, u ≠ t ∧ s.owner = some u ∧ s.CanMove o u := by
  have h : s.Sound o memory := sound_of_path hpath
  have hplaced : s.Placed := placed_of_path hpath
  refine ⟨?_, fun t hreturned => ?_⟩
  · rcases hplaced.mainCanMove (o := o) hends with hmoves | ⟨hmain, hclosed⟩
    · exact Or.inl hmoves
    · rcases h.barrier_answered hplaced hends hclosed with ⟨hnot, -⟩ | ⟨-, hanswer⟩
      · rw [hmain] at hnot
        cases hnot
      · exact Or.inr ⟨hmain, hanswer⟩
  · by_cases habsent : (s.thread t).point = .absent
    · obtain ⟨i, hi, hle⟩ := hplaced.absent t habsent
      refine Or.inl ⟨i, hi, hle, (hplaced.mainCanMove hends).resolve_right fun hbarrier => ?_⟩
      rw [hbarrier.1] at hi
      cases hi
    · refine Or.inr ?_
      rcases canMove hends habsent hreturned with hmoves | ⟨hp, hclosed⟩ | ⟨hp, htaken⟩
      · exact Or.inl hmoves
      · exact Or.inr (Or.inl ⟨hp, (h.barrier_answered hplaced hends hclosed).imp_right And.right⟩)
      · obtain ⟨u, hu⟩ := Option.ne_none_iff_exists'.mp htaken
        refine Or.inr (Or.inr ⟨hp, u, ?_, hu, h.canMove_owner hends hu⟩)
        rintro rfl
        have hholds := (h.thread u).held.mpr hu
        rw [role, hp] at hholds
        cases hholds

/-- Two threads, of which one waits for the lock. -/
theorem benchmark_waits_are_answered_lock : ∃ s : BenchState 2, (s.thread 1).point = .lock ∧
    ∃ u, u ≠ 1 ∧ s.owner = some u ∧ s.CanMove oneVariable u := by
  obtain ⟨s, hpath, hp, howner, hfault, hmain⟩ := exists_path_of_execute
    (step (n := 2) oneVariable) anyStep (List.replicate 4 .main ++
      List.replicate 2 (.thread 1 5) ++ List.replicate 6 (.thread 0 5) ++
        List.replicate 3 (.thread 1 5)) (initial fun _ _ => 0)
    (fun s => (s.thread 1).point = .lock ∧ s.owner = some 0 ∧ s.fault = false ∧
      s.main = .barrier) (by decide +kernel)
  have hends : ¬(s.fault = true ∨ s.main = .returned) := by simp [hfault, hmain]
  refine ⟨s, hp, ?_⟩
  rcases (benchmark_waits_are_answered hpath hends).2 1 (by rw [hp]; nofun) with
    ⟨i, hi, -⟩ | hmoves | ⟨hbarrier, -⟩ | ⟨-, hanswer⟩
  · rw [hmain] at hi
    cases hi
  · have hstep := hmoves 0
    simp [step, hfault, hmain, threadStep, hp, howner] at hstep
  · rw [hp] at hbarrier
    cases hbarrier
  · exact hanswer

/-! ## The end -/

/-- Every action of `main` has one less ahead, if it does not leave an array. -/
theorem Sound.ahead_main (h : s.Sound o memory) (hs : s.mainStep o = some s') :
    s'.fault = true ∨ s'.main.ahead n < s.main.ahead n := by
  unfold mainStep at hs
  split at hs
  case h_1 i hmain =>
    split at hs <;> cases hs <;> rw [hmain] <;> refine Or.inr ?_ <;>
      simp only [MainPoint.ahead] <;> omega
  case h_2 hmain | h_4 hmain | h_5 hmain | h_7 hmain =>
    cases hs
    rw [hmain]
    refine Or.inr ?_
    simp only [MainPoint.ahead, Nat.sub_zero]
    omega
  case h_3 hmain =>
    obtain ⟨-, hs⟩ := Option.ite_none_right_eq_some.mp hs
    cases hs
    rw [hmain]
    refine Or.inr ?_
    simp only [MainPoint.ahead]
    omega
  case h_6 i total hmain =>
    split at hs <;> cases hs <;> rw [hmain] <;> refine Or.inr ?_ <;>
      simp only [MainPoint.ahead] <;> omega
  case h_8 i hmain =>
    split at hs <;> cases hs
    · rename_i hi
      have hcur := (h.thread ⟨i, hi⟩).toInt_cur
      have hle := (h.thread ⟨i, hi⟩).globalCnt_le
      have hsplit := linesBound_succ hi
      rw [hmain]
      refine Or.inr ?_
      simp only [MainPoint.ahead, hcur, Int.toNat_natCast]
      unfold linesBound at hsplit ⊢
      omega
    · rw [hmain]
      exact Or.inr (Nat.succ_pos _)
  case h_9 i count hmain =>
    split at hs <;> cases hs
    rw [hmain]
    refine Or.inr ?_
    simp only [MainPoint.ahead]
    omega
  case h_10 i count j hmain =>
    split at hs
    · split at hs
      · split at hs <;> cases hs
        · rw [hmain]
          refine Or.inr ?_
          simp only [MainPoint.ahead]
          omega
        · exact Or.inl rfl
      · cases hs
        rw [hmain]
        refine Or.inr ?_
        simp only [MainPoint.ahead]
        omega
    · cases hs
  case h_11 => cases hs

/-- With `global_stop` set every action of a thread has one less ahead, if it does not leave an
array. -/
theorem ahead_threadStep (hstop : s.globalStop = true) (hs : s.threadStep o t clock = some s') :
    s'.fault = true ∨ (s'.thread t).point.ahead (o.numberOfSharedVariables (o.area t)) <
      (s.thread t).point.ahead (o.numberOfSharedVariables (o.area t)) := by
  have hround := o.ahead_round (o.area t)
  unfold threadStep at hs
  dsimp only at hs
  split at hs
  case h_1 | h_2 => cases hs
  case h_3 hp | h_4 hp | h_7 hp | h_9 hp | h_10 hp | h_12 hp | h_14 hp | h_16 hp =>
    cases hs
    simp [hp, BenchState.goto, BenchPoint.ahead, Touch.ahead]
  case h_13 i v hp =>
    cases hs
    simp [hp, BenchState.goto, write, BenchPoint.ahead, Touch.ahead]
  case h_5 hp | h_8 hp =>
    obtain ⟨-, hs⟩ := Option.ite_none_right_eq_some.mp hs
    cases hs
    simp [hp, BenchState.goto, BenchPoint.ahead]
  case h_6 hp =>
    cases hs
    simp [hp, hstop, BenchState.goto, BenchPoint.ahead]
  case h_11 cnt hp =>
    cases hs
    refine Or.inr ?_
    simp only [hp, BenchState.goto, setThread_thread, Function.update_self]
    exact (hround 0).trans_lt (Nat.lt_succ_self _)
  case h_15 i v hp =>
    cases hs
    refine Or.inr ?_
    simp only [hp, BenchState.goto, write, setThread_thread, Function.update_self]
    exact (hround (i + 1)).trans_lt (Nat.lt_succ_self _)
  case h_17 hp =>
    split at hs <;> cases hs <;> simp [hp, BenchPoint.ahead]

/-- A bound for the actions of `main` from any state. -/
theorem Sound.ahead_main_le (h : s.Sound o memory) (hplaced : s.Placed) :
    s.main.ahead n ≤ n * (latencyRecord + 6) + 8 := by
  have hwhole : n * (latencyRecord + 6) = n * linesBound + 2 * n := by
    unfold linesBound
    rw [Nat.mul_add, Nat.mul_add]
    omega
  have hpart : ∀ i : ℕ, (n - i) * linesBound ≤ n * linesBound :=
    fun i => Nat.mul_le_mul_right _ (Nat.sub_le n i)
  -- a count that has been read fits into the lines of its thread
  have hcount : ∀ i count, s.main.prints = some (i, count) →
      (n - (i + 1)) * linesBound + (count.toNat + 3) ≤ n * linesBound := by
    intro i count hprints
    have hi := hplaced.prints i count hprints
    have hread := h.prints i count hprints hi
    have hle := (h.thread ⟨i, hi⟩).globalCnt_le
    have hsplit := linesBound_succ hi
    have hwithin := hpart i
    unfold linesBound at hsplit hwithin ⊢
    omega
  rw [hwhole]
  cases hmain : s.main with
  | header i count | latency i count j =>
    have hle := hcount i count (by rw [hmain]; rfl)
    simp only [MainPoint.ahead]
    omega
  | cur i =>
    have hle := hpart i
    simp only [MainPoint.ahead]
    omega
  | _ =>
    simp only [MainPoint.ahead]
    omega

/-- After the stop `main` leaves the threads alone. -/
theorem mainStep_stopped (hs : s.mainStep o = some s') (hstop : s.globalStop = true)
    (hcreated : ∀ i, s.main ≠ .create i) : s'.thread = s.thread ∧ s'.globalStop = true := by
  unfold mainStep at hs
  split at hs
  case h_1 i hmain => exact absurd hmain (hcreated i)
  case h_3 =>
    obtain ⟨-, hs⟩ := Option.ite_none_right_eq_some.mp hs
    cases hs
    exact ⟨rfl, hstop⟩
  case h_6 | h_8 =>
    split at hs <;> cases hs <;> exact ⟨rfl, hstop⟩
  case h_9 =>
    split at hs <;> cases hs
    exact ⟨rfl, hstop⟩
  case h_10 =>
    split at hs
    · split at hs
      · split at hs <;> cases hs <;> exact ⟨rfl, hstop⟩
      · cases hs
        exact ⟨rfl, hstop⟩
    · cases hs
  case h_11 => cases hs
  all_goals
    cases hs
    exact ⟨rfl, by first | rfl | exact hstop⟩

/-- What is ahead of somebody, or nothing after an array has been left. -/
def remaining (s : BenchState n) (ahead : ℕ) : ℕ := if s.fault then 0 else ahead

theorem remaining_le (ahead : ℕ) : s.remaining ahead ≤ ahead := by
  unfold remaining
  split <;> omega

/-- What is ahead of `main` falls with its actions. -/
theorem Sound.main_step (h : s.Sound o memory) {x : BenchAction n} (hs : s.step o x = some s') :
    s'.remaining (s'.main.ahead n) + x.isMain.toNat ≤ s.remaining (s.main.ahead n) := by
  obtain ⟨hends, hs⟩ := Option.ite_none_left_eq_some.mp hs
  obtain ⟨hrunning, hreturned⟩ := not_or.mp hends
  have hpos := MainPoint.ahead_pos (n := n) hreturned
  have hle := s'.remaining_le (s'.main.ahead n)
  rw [show s.remaining (s.main.ahead n) = s.main.ahead n from if_neg hrunning]
  cases x with
  | main =>
    rcases h.ahead_main hs with hfault | hlt
    · rw [remaining, if_pos hfault]
      exact (Nat.zero_add _).trans_le hpos
    · exact (Nat.add_le_add_right hle 1).trans hlt
  | thread t clock =>
    rw [(move_of_step (h.thread t).current hs).main.1] at hle ⊢
    exact hle

/-- After the stop what is ahead of a thread falls with its actions. -/
theorem Sound.thread_step (h : s.Sound o memory) (hstop : s.globalStop = true) {x : BenchAction n}
    (hs : s.step o x = some s') (t : Fin n) :
    s'.globalStop = true ∧
    s'.remaining ((s'.thread t).point.ahead (o.numberOfSharedVariables (o.area t))) +
      (x.isThread t).toNat ≤
        s.remaining ((s.thread t).point.ahead (o.numberOfSharedVariables (o.area t))) := by
  obtain ⟨hends, hs⟩ := Option.ite_none_left_eq_some.mp hs
  have hrunning := (not_or.mp hends).1
  have hall : ∀ ahead, s.remaining ahead = ahead := fun _ => if_neg hrunning
  rw [hall]
  cases x with
  | main =>
    have hcreated : ∀ i, s.main ≠ .create i := by
      intro i hi
      have hstopped := h.stopped
      rw [hstop, hi] at hstopped
      cases hstopped
    obtain ⟨hthread, hstill⟩ := mainStep_stopped hs hstop hcreated
    rw [hthread]
    exact ⟨hstill, s'.remaining_le _⟩
  | thread u clock =>
    have hmove := move_of_step (h.thread u).current hs
    refine ⟨hmove.main.2.1.trans hstop, ?_⟩
    by_cases hut : u = t
    · subst hut
      have hreturned : (s.thread u).point ≠ .returned := by
        intro hp
        simp [threadStep, hp] at hs
      rw [show (BenchAction.thread u clock).isThread u = true from decide_eq_true rfl]
      rcases ahead_threadStep hstop hs with hfault | hlt
      · rw [remaining, if_pos hfault]
        exact (Nat.zero_add _).trans_le (BenchPoint.ahead_pos hreturned)
      · exact (Nat.add_le_add_right (s'.remaining_le _) 1).trans hlt
    · rw [show (BenchAction.thread u clock).isThread t = false from decide_eq_false hut,
        (hmove.other (Ne.symm hut)).1]
      exact s'.remaining_le _

/-- A thread on its way to the barrier comes nearer to it. -/
theorem toBarrier_lt (hnot : (s.role t).hasArrived = false)
    (hs : s.threadStep o t clock = some s') :
    (s'.thread t).point.toBarrier < (s.thread t).point.toBarrier := by
  cases hp : (s.thread t).point with
  | absent => simp [threadStep, hp] at hs
  | publish | arrive =>
    simp only [threadStep, hp, Option.some.injEq] at hs
    rw [← hs]
    simp [BenchState.goto, BenchPoint.toBarrier]
  | _ =>
    rw [role, hp] at hnot
    cases hnot

/-- What goes on in one action goes on to the end. -/
theorem exists_end_of_step {x : BenchAction n} (hs : s.step o x = some s')
    (h : ∃ actions s'', execute (step o) anyStep s' actions = some s'' ∧
      (s''.fault = true ∨ s''.main = .returned)) :
    ∃ actions s'', execute (step o) anyStep s actions = some s'' ∧
      (s''.fault = true ∨ s''.main = .returned) := by
  obtain ⟨actions, s'', hrest, hend⟩ := h
  exact ⟨x :: actions, s'', by simp [execute, anyStep, hs, hrest], hend⟩

/-- Every run goes on to the end, by induction on what is ahead of `main` and, while it waits, on
the way of the others to the barrier. -/
theorem Sound.exists_end (h : s.Sound o memory) (hplaced : s.Placed) :
    ∃ actions s', execute (BenchState.step o) anyStep s actions = some s' ∧
      (s'.fault = true ∨ s'.main = .returned) := by
  induction hahead : s.remaining (s.main.ahead n) using Nat.strong_induction_on generalizing s with
  | _ k ihmain =>
    induction hway : ∑ t, (s.thread t).point.toBarrier using Nat.strong_induction_on
      generalizing s with
    | _ m ihway =>
      by_cases hends : s.fault = true ∨ s.main = .returned
      · exact ⟨[], s, rfl, hends⟩
      rcases hplaced.mainCanMove (o := o) hends with hmoves | ⟨hmain, hclosed⟩
      · obtain ⟨s₁, hs⟩ := Option.isSome_iff_exists.mp hmoves
        have hfalls : s₁.remaining (s₁.main.ahead n) + 1 ≤ s.remaining (s.main.ahead n) :=
          h.main_step hs
        exact exists_end_of_step hs
          (ihmain _ (by omega) (h.step hs) (hplaced.step h hs) rfl)
      · rcases h.barrier_answered (o := o) hplaced hends hclosed with ⟨hnot, -⟩ | ⟨-, t, ht, hmoves⟩
        · rw [hmain] at hnot
          cases hnot
        · obtain ⟨s₁, hs⟩ := Option.isSome_iff_exists.mp (hmoves 0)
          have hkeeps : s₁.remaining (s₁.main.ahead n) ≤ s.remaining (s.main.ahead n) :=
            h.main_step hs
          refine exists_end_of_step hs ?_
          rcases Nat.lt_or_eq_of_le hkeeps with hlt | heq
          · exact ihmain _ (by omega) (h.step hs) (hplaced.step h hs) rfl
          · refine ihway _ ?_ (h.step hs) (hplaced.step h hs) (heq.trans hahead) rfl
            have hthread := (Option.ite_none_left_eq_some.mp hs).2
            have hmove := move_of_step (h.thread t).current hthread
            have hnearer := toBarrier_lt ht hthread
            have hsum := Tally.sum_add_of_agree (f := fun u => (s₁.thread u).point.toBarrier)
              (g := fun u => (s.thread u).point.toBarrier) (Finset.mem_univ t)
              fun u hu => by rw [(hmove.other hu).1]
            omega

/-- The benchmark comes to an end. Every run can be continued until `main` returns or an array is
left. In whatever way the actions interleave, `main` makes at most so many of them, and after it
has set `global_stop` a thread that has so many shared variables makes at most one request more. -/
theorem stopped_benchmark_ends (hpath : Path (step o) anyStep (initial memory) s) :
    (∃ actions s', execute (step o) anyStep s actions = some s' ∧
      (s'.fault = true ∨ s'.main = .returned)) ∧
    ∀ actions s', execute (step o) anyStep s actions = some s' →
      actions.countP (·.isMain) ≤ n * (latencyRecord + 6) + 8 ∧
      (s.globalStop = true → ∀ t, actions.countP (·.isThread t) ≤
        4 * o.numberOfSharedVariables (o.area t) + 8) := by
  have h : s.Sound o memory := sound_of_path hpath
  refine ⟨h.exists_end (placed_of_path hpath), fun actions s' hrest => ⟨?_, fun hstop t => ?_⟩⟩
  · have hcount := (execute_countP (Sound o memory) (fun s₁ => s₁.remaining (s₁.main.ahead n))
      (·.isMain) (fun _ _ _ _ _ h hs => ⟨h.step hs, h.main_step hs⟩) h hrest).2
    have hle := s.remaining_le (s.main.ahead n)
    have hbound := h.ahead_main_le (placed_of_path hpath)
    omega
  · have hcount := (execute_countP (fun s₁ => s₁.Sound o memory ∧ s₁.globalStop = true)
      (fun s₁ => s₁.remaining
        ((s₁.thread t).point.ahead (o.numberOfSharedVariables (o.area t))))
      (·.isThread t) (fun _ _ _ _ _ h hs => ⟨⟨h.1.step hs, (h.1.thread_step h.2 hs t).1⟩,
        (h.1.thread_step h.2 hs t).2⟩) ⟨h, hstop⟩ hrest).2
    have hle := s.remaining_le ((s.thread t).point.ahead (o.numberOfSharedVariables (o.area t)))
    have hbound := (s.thread t).point.ahead_le (o.numberOfSharedVariables (o.area t))
    omega

/-- After the stop a thread with one shared variable makes at most twelve actions. -/
theorem stopped_benchmark_ends_one : ∃ s : BenchState 1, s.globalStop = true ∧
    ∀ actions s', execute (step oneVariable) anyStep s actions = some s' →
      actions.countP (·.isThread 0) ≤ 12 := by
  obtain ⟨s, hpath, hstop⟩ := exists_path_of_execute (step (n := 1) oneVariable) anyStep
    (oneRequest 0 ++ List.replicate 2 .main) (initial fun _ _ => 0)
    (fun s => s.globalStop = true) (by decide +kernel)
  exact ⟨s, hstop, fun actions s' hrest =>
    ((stopped_benchmark_ends hpath).2 actions s' hrest).2 hstop 0⟩

end BenchState

end Htll
