import Htll.BenchDecoded
import Htll.Text.Sort

/-!
# The report of the script

`measure.sh` sorts the collected latencies and prints some of them by their line numbers: the
median, the 99th and the 99.9th percentile, all rounded down, and the last but one, with the
average in between and the throughput at the end. `sed` prints nothing for a line number that is
not positive.

The average is a floating-point number; its text is a parameter.
-/

namespace Htll

open Text Transition

/-- `tr '\n' '\t'`. -/
def tabbed (lines : List Line) : List Char := lines.flatMap fun l => l ++ ['\t']

/-- The last part of the script. -/
def Measure.report (average : List Line → List Char) (file : List Line) (s : Measure) : List Char :=
  let uxtailSorted := sortGeneral s.uxtailTot
  let p99Line := s.uxTotLine * 99 / 100
  let p999Line := s.uxTotLine * 999 / 1000
  let p50Line := s.uxTotLine * 50 / 100
  let tailLine : ℤ := s.uxTotLine * 100 / 100 - 1
  tabbed (sedLine p50Line uxtailSorted) ++ (average s.uxtailTot ++
    (tabbed (sedLine p99Line uxtailSorted) ++ (tabbed (sedLine p999Line uxtailSorted) ++
      (tabbed (sedLine tailLine.toNat uxtailSorted) ++
        (sedLine 2 file).flatMap fun l => l ++ ['\n']))))

/-- `measure.sh`. -/
def measureScript (average : List Line → List Char) (file : List Line) (coreNum uxNum : ℕ) :
    Except Measure (List Char) :=
  (measure file coreNum uxNum).map fun s => s.report average file

/-- The latencies of the first threads as numbers. -/
def uxValues (threads : List (List (BitVec 64))) (uxNum : ℕ) : List ℕ :=
  (threads.take uxNum).flatMap fun latencies => latencies.map BitVec.toNat

/-- Their lines are their numerals. -/
theorem uxLatencies_eq (threads : List (List (BitVec 64))) (uxNum : ℕ) :
    uxLatencies threads uxNum = (uxValues threads uxNum).map decimal := by
  rw [uxLatencies, uxValues, List.map_flatMap]
  refine List.flatMap_congr fun latencies _ => ?_
  rw [List.map_map]
  rfl

section Decoded

variable {threads : List (List (BitVec 64))} {uxNum : ℕ} {s : Measure}

/-- A printed line is the latency of that rank. -/
theorem exists_ranked (threads : List (List (BitVec 64))) (uxNum : ℕ) {k : ℕ} (hk : 0 < k)
    (hle : k ≤ (uxValues threads uxNum).length) : ∃ x, IsRanked (uxValues threads uxNum) k x ∧
      tabbed (sedLine k (sortGeneral (uxLatencies threads uxNum))) = decimal x ++ ['\t'] := by
  obtain ⟨x, hranked, hline⟩ := sedLine_sortGeneral hk hle
  refine ⟨x, hranked, ?_⟩
  rw [uxLatencies_eq, hline]
  exact List.append_nil _

/-- The collected lines are counted. -/
theorem Decoded.uxTotLine_eq (h : Decoded threads uxNum s) :
    s.uxTotLine = (uxValues threads uxNum).length := by
  rw [h.uxTotLine, uxLatencies_eq, List.length_map]

/-- At least two latencies are reported by their ranks. -/
theorem Decoded.report_of_two_le (h : Decoded threads uxNum s) (average : List Line → List Char)
    (file : List Line) {N : ℕ} (hN : N = (uxValues threads uxNum).length) (htwo : 2 ≤ N) :
    ∃ p50 p99 p999 tail : ℕ,
      IsRanked (uxValues threads uxNum) (N * 50 / 100) p50 ∧
      IsRanked (uxValues threads uxNum) (N * 99 / 100) p99 ∧
      IsRanked (uxValues threads uxNum) (N * 999 / 1000) p999 ∧
      IsRanked (uxValues threads uxNum) (N - 1) tail ∧
      s.report average file =
        (decimal p50 ++ ['\t']) ++ (average (uxLatencies threads uxNum) ++
          ((decimal p99 ++ ['\t']) ++ ((decimal p999 ++ ['\t']) ++
            ((decimal tail ++ ['\t']) ++ (sedLine 2 file).flatMap fun l => l ++ ['\n'])))) := by
  obtain ⟨p50, h50, hline50⟩ := exists_ranked threads uxNum (k := N * 50 / 100) (by omega)
    (by omega)
  obtain ⟨p99, h99, hline99⟩ := exists_ranked threads uxNum (k := N * 99 / 100) (by omega)
    (by omega)
  obtain ⟨p999, h999, hline999⟩ := exists_ranked threads uxNum (k := N * 999 / 1000) (by omega)
    (by omega)
  obtain ⟨tail, htail, hlinetail⟩ := exists_ranked threads uxNum (k := N - 1) (by omega)
    (by omega)
  refine ⟨p50, p99, p999, tail, h50, h99, h999, htail, ?_⟩
  have htot : s.uxTotLine = N := h.uxTotLine_eq.trans hN.symm
  have hlast : ((N : ℤ) * 100 / 100 - 1).toNat = N - 1 := by omega
  simp only [Measure.report, htot, hlast, hline50, hline99, hline999, hlinetail, h.uxtailTot]

/-- Fewer are not reported. -/
theorem Decoded.report_of_lt_two (h : Decoded threads uxNum s) (average : List Line → List Char)
    (file : List Line) (hlt : (uxValues threads uxNum).length < 2) :
    s.report average file =
      average (uxLatencies threads uxNum) ++ (sedLine 2 file).flatMap fun l => l ++ ['\n'] := by
  have hline : ∀ k : ℕ, k = 0 → tabbed (sedLine k (sortGeneral s.uxtailTot)) = [] := by
    rintro k rfl
    rw [sedLine_zero]
    rfl
  have htot := h.uxTotLine_eq
  rw [Measure.report, hline _ (by omega), hline _ (by omega), hline _ (by omega),
    hline _ (by omega), h.uxtailTot]
  rfl

end Decoded

namespace BenchState

variable {n : ℕ} {o : BenchOptions} {s : BenchState n} {memory : Area → ℕ → BitVec 64} {uxNum : ℕ}

/-- From the threads to the report: if every thread has returned before `main` prints its latencies
and each of the first threads has recorded one, the last thread of all aside, then the script comes
to its end, and of `N` recorded latencies of the first threads it prints those with the ranks
`N * 50 / 100`, `N * 99 / 100`, `N * 999 / 1000` and `N - 1`, or none of them if `N` is below 2. -/
theorem joined_run_is_reported (hpath : Path (step o) Joined (initial memory) s)
    (hmain : s.main = .returned) (hux : uxNum ≤ n)
    (hrecorded : ∀ t : Fin n, t < uxNum → t + 1 < n → (s.thread t).recordCnt ≠ 0)
    (average : List Line → List Char) :
    ∃ (total : BitVec 64) (N : ℕ) (report : List Char),
      N = (uxValues s.latencies uxNum).length ∧
      measureScript average s.output n uxNum = .ok report ∧
      (N < 2 → report =
        average (uxLatencies s.latencies uxNum) ++ (o.throughput total ++ ['\n'])) ∧
      (2 ≤ N → ∃ p50 p99 p999 tail : ℕ,
        IsRanked (uxValues s.latencies uxNum) (N * 50 / 100) p50 ∧
        IsRanked (uxValues s.latencies uxNum) (N * 99 / 100) p99 ∧
        IsRanked (uxValues s.latencies uxNum) (N * 999 / 1000) p999 ∧
        IsRanked (uxValues s.latencies uxNum) (N - 1) tail ∧
        report = (decimal p50 ++ ['\t']) ++ (average (uxLatencies s.latencies uxNum) ++
          ((decimal p99 ++ ['\t']) ++ ((decimal p999 ++ ['\t']) ++
            ((decimal tail ++ ['\t']) ++ (o.throughput total ++ ['\n'])))))) := by
  obtain ⟨total, hout⟩ := output_of_joined hpath hmain
  have hsound : s.Sound o memory := sound_of_path (hpath.mono fun _ _ _ => trivial)
  have hdecoded := (hsound.decoded_iff hout hux).mpr hrecorded
  -- no count is too large, so the script does not exit
  obtain ⟨m, hm⟩ : ∃ m, measure s.output n uxNum = .ok m := by
    have hlength : s.latencies.length = n := List.length_ofFn
    have hux' : uxNum ≤ s.latencies.length := by rwa [hlength]
    have hends := (measure_isOk_iff o.spinCnt o.parkCnt o.wakeCnt (o.throughput total) hux').mpr
      fun l hl => length_le_of_mem_latencies hsound hl
    rwa [hlength, ← hout] at hends
  rw [hm] at hdecoded
  have hline : sedLine 2 s.output = [o.throughput total] := by
    rw [hout]
    change sedLine 2 ([spinLine o.spinCnt o.parkCnt o.wakeCnt] ++
      o.throughput total :: threadsLines 0 s.latencies) = _
    exact sedLine_append_cons _ rfl
  have hlast : (sedLine 2 s.output).flatMap (fun l => l ++ ['\n']) =
      o.throughput total ++ ['\n'] := by
    rw [hline]
    exact List.append_nil _
  refine ⟨total, _, m.report average s.output, rfl, ?_, fun hlt => ?_, fun htwo => ?_⟩
  · rw [measureScript, hm]
    rfl
  · rw [← hlast]
    exact Decoded.report_of_lt_two hdecoded average s.output hlt
  · rw [← hlast]
    exact Decoded.report_of_two_le hdecoded average s.output rfl htwo

/-- Two requests of a thread that runs alone and returns. -/
def twoRequests {n : ℕ} (t : Fin n) : List (BenchAction n) :=
  oneRequest t ++ List.replicate 4 (.thread t 5) ++ List.replicate 9 (.thread t 9) ++ [.main] ++
    [.thread t 9] ++ List.replicate 10 .main

/-- The last but one of two latencies is the smaller one. -/
theorem joined_run_is_reported_two : ∃ (s : BenchState 1) (report : List Char) (tail : ℕ),
    s.latencies = [[0, 4]] ∧ measureScript (fun _ => []) s.output 1 1 = .ok report ∧
      IsRanked [0, 4] 1 tail := by
  obtain ⟨s, hpath, hmain, hlatencies⟩ := exists_path_of_execute
    (step (n := 1) oneVariable) Joined (twoRequests 0) (initial fun _ _ => 0)
    (fun s => s.main = .returned ∧ s.latencies = [[0, 4]]) (by decide +kernel)
  obtain ⟨_, N, report, hN, hreport, -, htwo⟩ := joined_run_is_reported hpath hmain (Nat.le_refl 1)
    (fun t _ hlast => absurd hlast (by omega)) fun _ => []
  have hvalues : uxValues s.latencies 1 = [0, 4] := by
    rw [hlatencies]
    decide
  rw [hvalues] at hN htwo
  obtain ⟨_, _, _, tail, -, -, -, htail, -⟩ := htwo hN.ge
  rw [hN] at htail
  exact ⟨s, report, tail, hlatencies, hreport, htail⟩

end BenchState

end Htll
