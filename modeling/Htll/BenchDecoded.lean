import Htll.BenchPrinted
import Htll.Measure

/-!
# From the threads to the script

If every thread has returned before `main` prints its latencies, as a `pthread_join` would make
sure of, then the benchmark prints what the threads have recorded, and `measure.sh` collects it.
-/

namespace Htll

open Text Transition

namespace BenchState

variable {n : ℕ} {o : BenchOptions} {s s' : BenchState n} {t : Fin n} {clock : BitVec 64}
  {memory : Area → ℕ → BitVec 64}

/-- A count is read into `cur` when the thread has returned. -/
def Joined (s : BenchState n) : BenchAction n → Prop
  | .main => ∀ t : Fin n, s.main = .cur t → (s.thread t).point = .returned
  | .thread .. => True

instance (s : BenchState n) : DecidablePred s.Joined
  | .main => inferInstanceAs (Decidable (∀ t : Fin n, s.main = .cur t → _))
  | .thread .. => .isTrue trivial

/-- How many threads `main` has turned to since the throughput. -/
def turnedTo (n : ℕ) : MainPoint → ℕ
  | .cur i => i
  | .header i _ | .latency i _ _ => i + 1
  | .returned => n
  | .create _ | .arrive | .barrier | .stop | .destroy | .sum .. | .throughput _ => 0

/-- The threads whose lines are printed have returned. -/
def Waited (s : BenchState n) : Prop :=
  ∀ t : Fin n, t < turnedTo n s.main → (s.thread t).point = .returned

/-- `main` turns to the next thread when it has read its count. -/
theorem turnedTo_mainStep (hs : s.mainStep o = some s') :
    turnedTo n s'.main = 0 ∨ s'.thread = s.thread ∧
      (turnedTo n s'.main ≤ turnedTo n s.main ∨
        ∃ i, s.main = .cur i ∧ turnedTo n s'.main = i + 1) := by
  unfold mainStep at hs
  split at hs
  case h_1 | h_6 => split at hs <;> cases hs <;> exact Or.inl rfl
  case h_2 | h_4 | h_5 | h_7 =>
    cases hs
    exact Or.inl rfl
  case h_3 =>
    obtain ⟨-, hs⟩ := Option.ite_none_right_eq_some.mp hs
    cases hs
    exact Or.inl rfl
  case h_8 i hmain =>
    split at hs <;> cases hs
    · exact Or.inr ⟨rfl, Or.inr ⟨i, hmain, rfl⟩⟩
    · rename_i hi
      rw [hmain]
      exact Or.inr ⟨rfl, Or.inl (Nat.le_of_not_lt hi)⟩
  case h_9 i c hmain =>
    split at hs <;> cases hs
    rw [hmain]
    exact Or.inr ⟨rfl, Or.inl (Nat.le_refl _)⟩
  case h_10 i c j hmain =>
    split at hs
    · split at hs
      · split at hs <;> cases hs
        · rw [hmain]
          exact Or.inr ⟨rfl, Or.inl (Nat.le_refl _)⟩
        · exact Or.inr ⟨rfl, Or.inl (Nat.le_refl _)⟩
      · cases hs
        rw [hmain]
        exact Or.inr ⟨rfl, Or.inl (Nat.le_refl _)⟩
    · cases hs
  case h_11 => cases hs

/-- Threads that have returned stay where they are. -/
theorem Waited.step (h : s.Waited) (hsound : s.Sound o memory) {x : BenchAction n}
    (hguard : s.Joined x) (hs : s.step o x = some s') : s'.Waited := by
  obtain ⟨-, hs⟩ := Option.ite_none_left_eq_some.mp hs
  intro t ht
  cases x with
  | main =>
    rcases turnedTo_mainStep hs with hzero | ⟨hthread, hle | ⟨i, hmain, hnext⟩⟩
    · rw [hzero] at ht
      cases ht
    · rw [hthread]
      exact h t (ht.trans_le hle)
    · rw [hthread]
      rw [hnext] at ht
      rcases Nat.lt_succ_iff_lt_or_eq.mp ht with hlt | heq
      · exact h t (by rwa [hmain])
      · exact hguard t (by rw [hmain, heq])
  | thread u clock =>
    have hmove := move_of_step (hsound.thread u).current hs
    rw [hmove.main.1] at ht
    have hu : t ≠ u := by
      rintro rfl
      change s.threadStep o t clock = some s' at hs
      rw [threadStep, h t ht] at hs
      cases hs
    rw [(hmove.other hu).1]
    exact h t ht

/-- Nothing is ahead of a thread that has returned. -/
theorem settled_of_returned (hpoint : (s.thread t).point = .returned) : s.Settled 0 t := by
  have hrole : s.role t = .resting := by rw [role, hpoint]; rfl
  rw [Settled, hrole]
  exact ⟨Nat.le_refl _, Nat.le_refl _⟩

/-- `main` reads of threads that have returned. -/
theorem settled_of_joined (hguard : s.Joined .main) (h : s.Waited) (i : ℕ)
    (hreads : s.main.reads = some i) (hi : i < n) : s.Settled 0 ⟨i, hi⟩ := by
  refine settled_of_returned ?_
  cases hmain : s.main with
  | cur j =>
    rw [hmain] at hreads
    cases hreads
    exact hguard ⟨i, hi⟩ hmain
  | header j c | latency j c k =>
    rw [hmain] at hreads
    cases hreads
    exact h ⟨i, hi⟩ (by rw [hmain]; exact Nat.lt_succ_self i)
  | _ =>
    rw [hmain] at hreads
    cases hreads

/-- What the threads have recorded. -/
def latencies (s : BenchState n) : List (List (BitVec 64)) :=
  List.ofFn fun t => (List.range (s.thread t).recordCnt).map (s.thread t).recordLatency

/-- The lines of a thread that are read when it has returned. -/
theorem part_eq {r : Readings} (h : s.ThreadSound o t) (hreturned : (s.thread t).point = .returned)
    (hcur : s.Reading 0 t (r.cur t)) (hheader : s.Reading 0 t (r.header t))
    (hshown : ∀ j < r.cur t, s.Shown 0 t (r.cur t) j (r.printed t j)) :
    r.part t = threadLines t
      ((List.range (s.thread t).recordCnt).map (s.thread t).recordLatency) := by
  have hcounted := h.counted
  have hrole : s.role t = .resting := by rw [role, hreturned]; rfl
  rw [hrole] at hcounted
  have hcnt : (s.globalCnt t).toNat = (s.thread t).recordCnt := hcounted
  have hcur' : r.cur t = (s.thread t).recordCnt := by
    have h := hcur.1
    have h' := hcur.2
    omega
  have hheader' : r.header t = (s.thread t).recordCnt := by
    have h := hheader.1
    have h' := hheader.2
    omega
  have hprinted : (List.range (r.cur t)).map (fun j => latencyLine (r.printed t j)) =
      ((List.range (s.thread t).recordCnt).map (s.thread t).recordLatency).map latencyLine := by
    rw [hcur', List.map_map]
    refine List.map_congr_left fun j hj => ?_
    have hj' : j < r.cur t := hcur' ▸ List.mem_range.mp hj
    rcases hshown j hj' with ⟨-, heq⟩ | ⟨hlate, -⟩
    · exact congrArg latencyLine heq
    · cases hlate
  rw [Readings.part, hprinted, hheader', threadLines, List.length_map, List.length_range]

/-- The lines of all threads in the format. -/
theorem flatMap_part_eq {r : Readings} (f : Fin n → List (BitVec 64))
    (h : ∀ t : Fin n, r.part t = threadLines t (f t)) :
    (List.range n).flatMap r.part = threadsLines 0 (List.ofFn f) := by
  -- the threads by their numbers
  let g : ℕ → List (BitVec 64) := fun i => if hi : i < n then f ⟨i, hi⟩ else []
  have hg : (List.range' 0 n).map g = List.ofFn f := by
    refine List.ext_getElem (by simp) fun i hi hi' => ?_
    have hlt : i < n := by simpa using hi'
    simp [g, hlt]
  rw [← hg, ← flatMap_range_eq, ← List.range_eq_range']
  refine List.flatMap_congr fun i hi => ?_
  have hlt : i < n := List.mem_range.mp hi
  have hgi : g i = f ⟨i, hlt⟩ := dif_pos hlt
  rw [hgi]
  exact h ⟨i, hlt⟩

/-- If the counts are read when their threads have returned, the benchmark prints what the threads
have recorded. -/
theorem output_of_joined (hpath : Path (step o) Joined (initial memory) s)
    (hmain : s.main = .returned) : ∃ total, s.output =
      benchOutput o.spinCnt o.parkCnt o.wakeCnt (o.throughput total) s.latencies := by
  have hsound : s.Sound o memory := sound_of_path (hpath.mono fun _ _ _ => trivial)
  have hwaited : s.Waited := Path.invariant_of (Sound o memory) Waited
    (fun _ _ _ _ hs h => h.step hs) (fun _ _ _ hguard hs hsound h => h.step hsound hguard hs)
    hpath sound_initial nofun
  have hprogress : s.fault = true ∧ s.main ≠ .returned ∨ ∃ r, s.Progress o 0 r s.main :=
    progress_of_path Waited (fun _ _ _ hguard hs h => h.2.step h.1 hguard hs)
      (fun _ hguard h => settled_of_joined hguard h) nofun hpath
  obtain ⟨r, hr⟩ := hprogress.resolve_left fun h => h.2 hmain
  rw [hmain] at hr
  obtain ⟨hout, hfollows⟩ := hr
  refine ⟨BitVec.ofNat 64 (∑ k ∈ Finset.range n, r.seen k), hout.trans ?_⟩
  rw [Readings.lines, benchOutput, latencies]
  have hparts := flatMap_part_eq (r := r)
    (fun t => (List.range (s.thread t).recordCnt).map (s.thread t).recordLatency) fun t => by
      have hreturned := hwaited t (by rw [hmain]; exact t.isLt)
      exact part_eq (hsound.thread t) hreturned (hfollows.cur t t.isLt).1
        (hfollows.header t t.isLt).1 (hfollows.shown t t.isLt)
  rw [hparts]

/-- The latencies of a thread. -/
theorem latencies_getElem? (t : Fin n) : s.latencies[(t : ℕ)]? =
    some ((List.range (s.thread t).recordCnt).map (s.thread t).recordLatency) := by
  simp [latencies]

/-- No thread has recorded more than `RECORDLEN` latencies. -/
theorem length_le_of_mem_latencies (h : s.Sound o memory) {l : List (BitVec 64)}
    (hl : l ∈ s.latencies) : l.length ≤ recordLen := by
  obtain ⟨t, rfl⟩ := (List.mem_ofFn' _ _).mp hl
  have hrecorded := (h.thread t).recorded
  rw [List.length_map, List.length_range]
  unfold latencyRecord at hrecorded
  unfold recordLen
  omega

/-- The script reads this output as it should if every one of the first threads has recorded a
latency, the last thread of all aside. -/
theorem Sound.decoded_iff (h : s.Sound o memory) {total : BitVec 64} (hout : s.output =
      benchOutput o.spinCnt o.parkCnt o.wakeCnt (o.throughput total) s.latencies)
    {uxNum : ℕ} (hux : uxNum ≤ n) :
    Decoded s.latencies uxNum (lastState (measure s.output n uxNum)) ↔
      ∀ t : Fin n, t < uxNum → t + 1 < n → (s.thread t).recordCnt ≠ 0 := by
  have hlength : s.latencies.length = n := List.length_ofFn
  have hux' : uxNum ≤ s.latencies.length := by rwa [hlength]
  have hdecodes := measure_decodes_iff o.spinCnt o.parkCnt o.wakeCnt (o.throughput total) hux'
  rw [hlength, ← hout] at hdecodes
  rw [hdecodes, and_iff_right fun l hl => length_le_of_mem_latencies h (List.mem_of_mem_take hl)]
  constructor
  · intro hne t hux hlast hzero
    refine hne t hux hlast ?_
    rw [latencies_getElem?, hzero]
    rfl
  · intro hne k hk hlast hnil
    have hkn : k < n := by omega
    rw [latencies_getElem? ⟨k, hkn⟩, Option.some.injEq, List.map_eq_nil_iff,
      List.range_eq_nil] at hnil
    exact hne ⟨k, hkn⟩ hk hlast hnil

/-- If the counts are read when their threads have returned then `measure.sh` collects what the
first threads have recorded, exactly if each of them has recorded a latency, the last thread of all
aside. -/
theorem joined_output_decodes (hpath : Path (step o) Joined (initial memory) s)
    (hmain : s.main = .returned) {uxNum : ℕ} (hux : uxNum ≤ n) :
    Decoded s.latencies uxNum (lastState (measure s.output n uxNum)) ↔
      ∀ t : Fin n, t < uxNum → t + 1 < n → (s.thread t).recordCnt ≠ 0 := by
  obtain ⟨total, hout⟩ := output_of_joined hpath hmain
  have hsound : s.Sound o memory := sound_of_path (hpath.mono fun _ _ _ => trivial)
  exact hsound.decoded_iff hout hux

/-- The only thread returns after one request, and its latency is collected. -/
theorem joined_output_decodes_one : ∃ s : BenchState 1, s.main = .returned ∧
    s.latencies = [[0]] ∧ Decoded [[0]] 1 (lastState (measure s.output 1 1)) := by
  obtain ⟨s, hpath, hmain, hlatencies⟩ := exists_path_of_execute
    (step (n := 1) oneVariable) Joined
    (oneRequest 0 ++ [.main] ++ List.replicate 2 (.thread 0 9) ++ List.replicate 9 .main)
    (initial fun _ _ => 0) (fun s => s.main = .returned ∧ s.latencies = [[0]]) (by decide +kernel)
  refine ⟨s, hmain, hlatencies, ?_⟩
  have hdecodes := (joined_output_decodes hpath hmain (Nat.le_refl 1)).mpr
    (fun t _ hlast => absurd hlast (by omega))
  rwa [hlatencies] at hdecodes

end BenchState

end Htll
