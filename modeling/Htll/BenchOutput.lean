import Htll.Text.Lines
import Mathlib.Algebra.Ring.Nat

/-!
# What the benchmark prints

`bench_block.c` under an interposed lock: the call of `pthread_mutex_destroy` prints one line, then
`main` prints the throughput and, for each thread, a line with its number and its count and one
line for each latency that it has recorded. The throughput is a floating-point number; its line is
a parameter.
-/

namespace Htll

open Text

/-- The line that `pthread_mutex_destroy` prints. -/
def spinLine (spinCnt parkCnt wakeCnt : BitVec 32) : Line :=
  "spin ".toList ++ signedDecimal spinCnt.toInt ++ " park ".toList ++
    signedDecimal parkCnt.toInt ++ " wake ".toList ++ signedDecimal wakeCnt.toInt

/-- The line before the latencies of a thread. -/
def coreLine (i cnt : ℤ) : Line :=
  "core ".toList ++ signedDecimal i ++ " cnt ".toList ++ signedDecimal cnt

/-- The line of a latency. -/
def latencyLine (latency : BitVec 64) : Line := decimal latency.toNat

/-- What the loop of `main` prints for a thread; `cur` has the type `int`. -/
def printThread (globalCnt : ℕ → BitVec 64) (recordAll : ℕ → ℕ → BitVec 64) (i : ℕ) : List Line :=
  let cur := ((globalCnt i).setWidth 32).toInt
  coreLine i (globalCnt i).toInt :: (List.range cur.toNat).map fun j => latencyLine (recordAll i j)

/-- What `main` prints from the call of `pthread_mutex_destroy` on. -/
def benchMain (spinCnt parkCnt wakeCnt : BitVec 32) (throughput : Line) (nbThread : ℕ)
    (globalCnt : ℕ → BitVec 64) (recordAll : ℕ → ℕ → BitVec 64) : List Line :=
  spinLine spinCnt parkCnt wakeCnt :: throughput ::
    (List.range nbThread).flatMap (printThread globalCnt recordAll)

/-! ## The format -/

/-- The part of a thread: its count, then as many latencies. -/
def threadLines (i : ℕ) (latencies : List (BitVec 64)) : List Line :=
  coreLine i latencies.length :: latencies.map latencyLine

/-- The parts of the threads from a given number on. -/
def threadsLines : ℕ → List (List (BitVec 64)) → List Line
  | _, [] => []
  | i, latencies :: threads => threadLines i latencies ++ threadsLines (i + 1) threads

/-- The output for the latencies of all threads. -/
def benchOutput (spinCnt parkCnt wakeCnt : BitVec 32) (throughput : Line)
    (threads : List (List (BitVec 64))) : List Line :=
  spinLine spinCnt parkCnt wakeCnt :: throughput :: threadsLines 0 threads

/-- A count that `int` and `%ld` do not change is that of the printed latencies. -/
theorem printThread_eq {globalCnt : ℕ → BitVec 64} {i : ℕ} (hcnt : (globalCnt i).toNat < 2 ^ 31)
    (recordAll : ℕ → ℕ → BitVec 64) :
    printThread globalCnt recordAll i =
      threadLines i ((List.range (globalCnt i).toNat).map (recordAll i)) := by
  have hcur : ((globalCnt i).setWidth 32).toInt = (globalCnt i).toNat := by
    rw [BitVec.toInt_eq_toNat_cond, BitVec.toNat_setWidth]
    have hmod : (globalCnt i).toNat % 2 ^ 32 = (globalCnt i).toNat := Nat.mod_eq_of_lt (by omega)
    rw [hmod, if_pos (by omega)]
  have hlong : (globalCnt i).toInt = (globalCnt i).toNat := by
    rw [BitVec.toInt_eq_toNat_cond, if_pos (by omega)]
  simp only [printThread, hcur, hlong, Int.toNat_natCast, threadLines, List.length_map,
    List.length_range, List.map_map]
  rfl

/-- The parts of numbered threads one after the other. -/
theorem flatMap_range_eq (latencies : ℕ → List (BitVec 64)) (i n : ℕ) :
    (List.range' i n).flatMap (fun i => threadLines i (latencies i)) =
      threadsLines i ((List.range' i n).map latencies) := by
  induction n generalizing i with
  | zero => rfl
  | succ n ih =>
    rw [List.range'_succ, List.flatMap_cons, List.map_cons, threadsLines, ih]

/-- `main` prints this format if no count is too large for an `int`. -/
theorem benchMain_eq (spinCnt parkCnt wakeCnt : BitVec 32) (throughput : Line) {nbThread : ℕ}
    {globalCnt : ℕ → BitVec 64} (hcnt : ∀ i < nbThread, (globalCnt i).toNat < 2 ^ 31)
    (recordAll : ℕ → ℕ → BitVec 64) :
    benchMain spinCnt parkCnt wakeCnt throughput nbThread globalCnt recordAll =
      benchOutput spinCnt parkCnt wakeCnt throughput
        ((List.range nbThread).map fun i =>
          (List.range (globalCnt i).toNat).map (recordAll i)) := by
  have hthreads : (List.range nbThread).flatMap (printThread globalCnt recordAll) =
      (List.range nbThread).flatMap fun i =>
        threadLines i ((List.range (globalCnt i).toNat).map (recordAll i)) :=
    List.flatMap_congr fun i hi => printThread_eq (hcnt i (List.mem_range.mp hi)) recordAll
  rw [benchMain, hthreads, List.range_eq_range', flatMap_range_eq, benchOutput]

/-! ## What is read back -/

/-- The line of a thread has four words. -/
theorem coreLine_eq_words (i cnt : ℕ) : coreLine i cnt =
    "core".toList ++ ' ' :: (decimal i ++ ' ' :: ("cnt".toList ++ ' ' :: decimal cnt)) := by
  change "core ".toList ++ decimal i ++ " cnt ".toList ++ decimal cnt = _
  simp

/-- The count is the fourth field of its line. -/
theorem field_coreLine (i cnt : ℕ) : field 4 (coreLine i cnt) = decimal cnt := by
  have hcore : fields "core".toList = ["core".toList] := by decide
  have hcnt : fields "cnt".toList = ["cnt".toList] := by decide
  rw [coreLine_eq_words]
  exact field_four_of_words hcore (fields_decimal i) hcnt (fields_decimal cnt)

/-- The line of a thread is none of a latency. -/
theorem coreLine_ne_latencyLine (i cnt : ℕ) (latency : BitVec 64) :
    coreLine i cnt ≠ latencyLine latency := by
  intro heq
  have hdigit : 'c'.isDigit = true := by
    refine isDigit_of_mem_decimal (?_ : 'c' ∈ latencyLine latency)
    rw [← heq, coreLine_eq_words]
    simp
  cases hdigit

end Htll
