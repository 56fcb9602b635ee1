import Htll.BenchOutput
import Mathlib.Logic.Function.Basic

/-!
# The script that reads the output of the benchmark

`measure.sh` goes through the parts of the threads with a running line number: it copies the line
of a thread to `tail_cnt`, takes the count from it, and cuts as many lines out of the file. Those
of the first `UXNUM` threads are collected in `uxtail_tot`.

An empty part is cut out as the lines from some number to the number before. As `sed` understands
such a range, this is the line with the first number: the line of the next thread, if there is
one.

Line numbers are natural numbers: no file has so many lines that the 64 bits of the arithmetic of
bash would not suffice.
-/

namespace Htll

open Text

/-- `RECORDLEN`. -/
def recordLen : ℕ := 100000000

/-- The variables and files of the script. -/
structure Measure where
  /-- `tail_cnt`. -/
  tailCnt : List Line := []
  /-- `tail_$i`. -/
  tail : ℕ → List Line := fun _ => []
  /-- `uxtail_tot`. -/
  uxtailTot : List Line := []
  curLen : ℕ := 4
  endLen : ℕ := 4 + recordLen - 1
  uxTotLine : ℕ := 0
  totLine : ℕ := 0

/-- The variables and files when the script is through, or when it has exited. -/
def lastState : Except Measure Measure → Measure
  | .ok s | .error s => s

/-- The beginning of a round: the line of the thread goes to `tail_cnt`, and `line` is its count.
A field that is no numeral is an error of the arithmetic, and the run is not followed beyond it; the
benchmark prints none. -/
def readCount (file : List Line) (s : Measure) (i : ℕ) : Except Measure (ℕ × Measure) :=
  let s := { s with tailCnt := s.tailCnt ++ sedLine (s.curLen - 1) file }
  match readDecimal (lastField 4 (sedLine i s.tailCnt)) with
  | some line => .ok (line, s)
  | none => .error s

/-- The test of `line`, and `tail_$i`; the script exits with `Not precise` if the test fails. -/
def cutTail (file : List Line) (s : Measure) (i line : ℕ) : Except Measure Measure :=
  if line ≤ recordLen then
    let endLen := s.curLen + line - 1
    .ok { s with
      endLen := endLen
      tail := Function.update s.tail i (sedRange s.curLen endLen file) }
  else .error s

/-- A round of the first loop. -/
def uxRound (file : List Line) (s : Measure) (i : ℕ) : Except Measure Measure := do
  let (line, s) ← readCount file s i
  let s ← cutTail file
    { s with uxTotLine := s.uxTotLine + line, totLine := s.totLine + line } i line
  .ok { s with uxtailTot := s.uxtailTot ++ s.tail i, curLen := s.endLen + 2 }

/-- A round of the second loop. -/
def coreRound (file : List Line) (s : Measure) (i : ℕ) : Except Measure Measure := do
  let (line, s) ← readCount file s i
  let s ← cutTail file { s with totLine := s.totLine + line } i line
  .ok { s with curLen := s.endLen + 2 }

/-- `measure.sh`, up to the end of the second loop. -/
def measure (file : List Line) (coreNum uxNum : ℕ) : Except Measure Measure := do
  let s ← (List.range' 1 uxNum).foldlM (uxRound file) {}
  (List.range' (uxNum + 1) (coreNum - uxNum)).foldlM (coreRound file) s

/-- The latency lines of the first threads in order. -/
def uxLatencies (threads : List (List (BitVec 64))) (uxNum : ℕ) : List Line :=
  (threads.take uxNum).flatMap fun latencies => latencies.map latencyLine

/-- Those of the first thread come first. -/
theorem uxLatencies_cons (latencies : List (BitVec 64)) (threads : List (List (BitVec 64)))
    (n : ℕ) : uxLatencies (latencies :: threads) (n + 1) =
      latencies.map latencyLine ++ uxLatencies threads n := by
  rw [uxLatencies, List.take_succ_cons, List.flatMap_cons, uxLatencies]

/-- What the script should have collected. -/
structure Decoded (threads : List (List (BitVec 64))) (uxNum : ℕ) (s : Measure) : Prop where
  uxtailTot : s.uxtailTot = uxLatencies threads uxNum
  uxTotLine : s.uxTotLine = (uxLatencies threads uxNum).length

/-! ## One round -/

/-- The script has read some lines of the file, the parts of the first threads among them. -/
structure Aligned (before : List Line) (i : ℕ) (s : Measure) : Prop where
  curLen : s.curLen = before.length + 2
  tailCnt : s.tailCnt.length = i

section Round

variable {before after : List Line} {i : ℕ} {s : Measure} {latencies : List (BitVec 64)}

/-- What the script cuts out for a thread, with what follows its part. -/
def copied (latencies : List (BitVec 64)) (after : List Line) : List Line :=
  if latencies = [] then after.take 1 else latencies.map latencyLine

/-- The count is read. -/
theorem readCount_eq (h : Aligned before i s) :
    readCount (before ++ (threadLines i latencies ++ after)) s (i + 1) =
      .ok (latencies.length, { s with tailCnt := s.tailCnt ++ [coreLine i latencies.length] }) := by
  have hline : sedLine (s.curLen - 1) (before ++ (threadLines i latencies ++ after)) =
      [coreLine i latencies.length] := sedLine_append_cons _ (by rw [h.curLen]; omega)
  have hcnt : sedLine (i + 1) (s.tailCnt ++ [coreLine i latencies.length]) =
      [coreLine i latencies.length] := sedLine_append_cons _ (by rw [h.tailCnt])
  simp only [readCount, hline, hcnt, lastField_singleton, field_coreLine, readDecimal_decimal]

/-- The latencies are cut out, or one line behind them if there are none. -/
theorem sedRange_threadLines {m : ℕ} (hm : m = before.length + 2) :
    sedRange m (m + latencies.length - 1) (before ++ (threadLines i latencies ++ after)) =
      copied latencies after := by
  have hlength : m = (before ++ [coreLine i latencies.length]).length + 1 := by simp [hm]
  have hfile : before ++ (threadLines i latencies ++ after) =
      (before ++ [coreLine i latencies.length]) ++ (latencies.map latencyLine ++ after) := by
    simp [threadLines]
  rw [hfile, copied]
  split
  · rename_i hnil
    subst hnil
    exact sedRange_of_lt hlength (by rw [hm, List.length_nil]; omega)
  · rename_i hne
    have hpos := List.length_pos_iff.mpr hne
    exact sedRange_of_ne_nil hlength (by simpa using hne) (by rw [List.length_map]; omega)

/-- A count that is not too large is followed by the cut. -/
theorem cutTail_of_le (h : s.curLen = before.length + 2) (hle : latencies.length ≤ recordLen)
    (n : ℕ) :
    cutTail (before ++ (threadLines i latencies ++ after)) s n latencies.length =
      .ok { s with
        endLen := before.length + latencies.length + 1
        tail := Function.update s.tail n (copied latencies after) } := by
  have hend : s.curLen + latencies.length - 1 = before.length + latencies.length + 1 := by omega
  have hcopied : sedRange s.curLen (before.length + latencies.length + 1)
      (before ++ (threadLines i latencies ++ after)) = copied latencies after := by
    rw [← hend]
    exact sedRange_threadLines h
  simp only [cutTail, if_pos hle, hend, hcopied]

/-- The next part begins behind the one that was cut out. -/
theorem Aligned.next (h : Aligned before i s) {s' : Measure}
    (hcur : s'.curLen = before.length + latencies.length + 3)
    (hcnt : s'.tailCnt = s.tailCnt ++ [coreLine i latencies.length]) :
    Aligned (before ++ threadLines i latencies) (i + 1) s' where
  curLen := by
    rw [hcur, List.length_append, threadLines, List.length_cons, List.length_map]
    omega
  tailCnt := by rw [hcnt, List.length_append, h.tailCnt, List.length_singleton]

/-- A round of the first loop for a count that is not too large. -/
theorem uxRound_of_le (h : Aligned before i s) (hle : latencies.length ≤ recordLen) :
    ∃ s', uxRound (before ++ (threadLines i latencies ++ after)) s (i + 1) = .ok s' ∧
      Aligned (before ++ threadLines i latencies) (i + 1) s' ∧
      s'.uxtailTot = s.uxtailTot ++ copied latencies after ∧
      s'.uxTotLine = s.uxTotLine + latencies.length := by
  refine ⟨{
    tailCnt := s.tailCnt ++ [coreLine i latencies.length]
    tail := Function.update s.tail (i + 1) (copied latencies after)
    uxtailTot := s.uxtailTot ++ copied latencies after
    curLen := before.length + latencies.length + 3
    endLen := before.length + latencies.length + 1
    uxTotLine := s.uxTotLine + latencies.length
    totLine := s.totLine + latencies.length }, ?_, h.next rfl rfl, rfl, rfl⟩
  simp only [uxRound, readCount_eq h, bind, Except.bind]
  rw [cutTail_of_le (by exact h.curLen) hle]
  simp

/-- A round of the second loop for a count that is not too large. -/
theorem coreRound_of_le (h : Aligned before i s) (hle : latencies.length ≤ recordLen) :
    ∃ s', coreRound (before ++ (threadLines i latencies ++ after)) s (i + 1) = .ok s' ∧
      Aligned (before ++ threadLines i latencies) (i + 1) s' := by
  refine ⟨{ s with
    tailCnt := s.tailCnt ++ [coreLine i latencies.length]
    tail := Function.update s.tail (i + 1) (copied latencies after)
    curLen := before.length + latencies.length + 3
    endLen := before.length + latencies.length + 1
    totLine := s.totLine + latencies.length }, ?_, h.next rfl rfl⟩
  simp only [coreRound, readCount_eq h, bind, Except.bind]
  rw [cutTail_of_le (by exact h.curLen) hle]

/-- The script exits for a count that is too large. -/
theorem uxRound_of_lt (h : Aligned before i s) (hlt : recordLen < latencies.length) :
    ∃ s', uxRound (before ++ (threadLines i latencies ++ after)) s (i + 1) = .error s' ∧
      s'.uxtailTot = s.uxtailTot := by
  refine ⟨{ s with
    tailCnt := s.tailCnt ++ [coreLine i latencies.length]
    uxTotLine := s.uxTotLine + latencies.length
    totLine := s.totLine + latencies.length }, ?_, rfl⟩
  simp only [uxRound, readCount_eq h, bind, Except.bind, cutTail, if_neg (Nat.not_le.mpr hlt)]

/-- So it does in the second loop. -/
theorem coreRound_of_lt (h : Aligned before i s) (hlt : recordLen < latencies.length) :
    ∃ s', coreRound (before ++ (threadLines i latencies ++ after)) s (i + 1) = .error s' := by
  refine ⟨{ s with
    tailCnt := s.tailCnt ++ [coreLine i latencies.length]
    totLine := s.totLine + latencies.length }, ?_⟩
  simp only [coreRound, readCount_eq h, bind, Except.bind, cutTail, if_neg (Nat.not_le.mpr hlt)]

end Round

/-! ## The loops -/

/-- What the first loop copies for some threads, the first of which has a given number. -/
def copiedAll : ℕ → List (List (BitVec 64)) → ℕ → List Line
  | _, _, 0 => []
  | _, [], _ + 1 => []
  | i, latencies :: threads, n + 1 =>
    copied latencies (threadsLines (i + 1) threads) ++ copiedAll (i + 1) threads n

section Loops

variable {before : List Line} {i n : ℕ} {s : Measure} {threads : List (List (BitVec 64))}

/-- The first loop as long as no count is too large. -/
theorem uxLoop_of_le (h : Aligned before i s) (hn : n ≤ threads.length)
    (hle : ∀ latencies ∈ threads.take n, latencies.length ≤ recordLen) :
    ∃ before' s', (List.range' (i + 1) n).foldlM (uxRound (before ++ threadsLines i threads)) s =
        .ok s' ∧
      before ++ threadsLines i threads = before' ++ threadsLines (i + n) (threads.drop n) ∧
      Aligned before' (i + n) s' ∧ s'.uxtailTot = s.uxtailTot ++ copiedAll i threads n ∧
      s'.uxTotLine = s.uxTotLine + (uxLatencies threads n).length := by
  induction n generalizing before i s threads with
  | zero => exact ⟨before, s, rfl, rfl, h, by simp [copiedAll], rfl⟩
  | succ n ih =>
    cases threads with
    | nil => cases hn
    | cons latencies threads =>
      rw [List.take_succ_cons, List.forall_mem_cons] at hle
      obtain ⟨s₁, hround, h₁, htot₁, hcnt₁⟩ := uxRound_of_le h hle.1
      obtain ⟨before', s₂, hloop, hfile, h₂, htot₂, hcnt₂⟩ :=
        ih h₁ (Nat.le_of_succ_le_succ hn) hle.2
      rw [List.append_assoc] at hloop hfile
      rw [Nat.add_assoc, Nat.add_comm 1 n] at hfile h₂
      refine ⟨before', s₂, ?_, hfile, h₂, ?_, ?_⟩
      · rw [List.range'_succ, List.foldlM_cons, threadsLines, hround]
        exact hloop
      · rw [htot₂, htot₁, copiedAll, List.append_assoc]
      · rw [hcnt₂, hcnt₁, uxLatencies_cons, List.length_append, List.length_map, Nat.add_assoc]

/-- The first loop up to a count that is too large. -/
theorem uxLoop_of_lt (h : Aligned before i s) (hn : n ≤ threads.length)
    (hlt : ¬∀ latencies ∈ threads.take n, latencies.length ≤ recordLen) :
    ∃ k latencies s', k < n ∧ threads[k]? = some latencies ∧ recordLen < latencies.length ∧
      (List.range' (i + 1) n).foldlM (uxRound (before ++ threadsLines i threads)) s = .error s' ∧
      s'.uxtailTot = s.uxtailTot ++ copiedAll i threads k := by
  induction n generalizing before i s threads with
  | zero => exact absurd (List.forall_mem_nil _) hlt
  | succ n ih =>
    cases threads with
    | nil => cases hn
    | cons latencies threads =>
      rw [List.range'_succ, List.foldlM_cons, threadsLines]
      by_cases hle : latencies.length ≤ recordLen
      · obtain ⟨s₁, hround, h₁, htot₁, -⟩ := uxRound_of_le h hle
        have hrest : ¬∀ latencies ∈ threads.take n, latencies.length ≤ recordLen := by
          rw [List.take_succ_cons, List.forall_mem_cons] at hlt
          exact fun hall => hlt ⟨hle, hall⟩
        obtain ⟨k, latencies', s₂, hk, hget, hlarge, hloop, htot₂⟩ :=
          ih h₁ (Nat.le_of_succ_le_succ hn) hrest
        refine ⟨k + 1, latencies', s₂, Nat.succ_lt_succ hk, hget, hlarge, ?_, ?_⟩
        · rw [hround]
          rw [List.append_assoc] at hloop
          exact hloop
        · rw [htot₂, htot₁, copiedAll, List.append_assoc]
      · obtain ⟨s₁, hround, htot₁⟩ := uxRound_of_lt h (Nat.lt_of_not_le hle)
        refine ⟨0, latencies, s₁, Nat.succ_pos n, rfl, Nat.lt_of_not_le hle, ?_, ?_⟩
        · rw [hround]
          rfl
        · rw [htot₁, copiedAll, List.append_nil]

/-- The second loop comes to its end if no count is too large. -/
theorem coreLoop_isOk_iff (h : Aligned before i s) :
    (∃ s', (List.range' (i + 1) threads.length).foldlM
      (coreRound (before ++ threadsLines i threads)) s = .ok s') ↔
      ∀ latencies ∈ threads, latencies.length ≤ recordLen := by
  induction threads generalizing before i s with
  | nil => exact iff_of_true ⟨s, rfl⟩ (List.forall_mem_nil _)
  | cons latencies threads ih =>
    rw [List.length_cons, List.range'_succ, List.foldlM_cons, threadsLines, List.forall_mem_cons]
    by_cases hle : latencies.length ≤ recordLen
    · obtain ⟨s₁, hround, h₁⟩ := coreRound_of_le h hle
      rw [hround, and_iff_right hle, ← ih h₁, List.append_assoc]
      rfl
    · obtain ⟨s₁, hround⟩ := coreRound_of_lt h (Nat.lt_of_not_le hle)
      rw [hround]
      refine iff_of_false ?_ fun hall => hle hall.1
      rintro ⟨s', hs'⟩
      cases hs'

/-- A round of the second loop collects nothing. -/
theorem coreRound_keeps (file : List Line) (s : Measure) (j : ℕ) :
    (lastState (coreRound file s j)).uxtailTot = s.uxtailTot ∧
      (lastState (coreRound file s j)).uxTotLine = s.uxTotLine := by
  simp only [coreRound, readCount, bind, Except.bind]
  cases readDecimal (lastField 4 (sedLine j (s.tailCnt ++ sedLine (s.curLen - 1) file))) with
  | none => exact ⟨rfl, rfl⟩
  | some line =>
    simp only [cutTail]
    by_cases hle : line ≤ recordLen
    · rw [if_pos hle]
      exact ⟨rfl, rfl⟩
    · rw [if_neg hle]
      exact ⟨rfl, rfl⟩

/-- So does the whole loop. -/
theorem coreLoop_keeps (file : List Line) (is : List ℕ) (s : Measure) :
    (lastState (is.foldlM (coreRound file) s)).uxtailTot = s.uxtailTot ∧
      (lastState (is.foldlM (coreRound file) s)).uxTotLine = s.uxTotLine := by
  induction is generalizing s with
  | nil => exact ⟨rfl, rfl⟩
  | cons j is ih =>
    have hround := coreRound_keeps file s j
    rw [List.foldlM_cons]
    cases hs : coreRound file s j with
    | error s' =>
      rw [hs] at hround
      exact hround
    | ok s' =>
      rw [hs] at hround
      exact ⟨(ih s').1.trans hround.1, (ih s').2.trans hround.2⟩

end Loops

/-! ## What is collected -/

section Collected

variable {i k n : ℕ} {threads : List (List (BitVec 64))} {latencies : List (BitVec 64)}

/-- The latencies are copied if no part is empty, the last one of all aside. -/
theorem copiedAll_eq (hn : n ≤ threads.length)
    (hne : ∀ k < n, k + 1 < threads.length → threads[k]? ≠ some []) :
    copiedAll i threads n = uxLatencies threads n := by
  induction n generalizing i threads with
  | zero => rfl
  | succ n ih =>
    cases threads with
    | nil => cases hn
    | cons latencies threads =>
      have hrest : copiedAll (i + 1) threads n = uxLatencies threads n := by
        refine ih (Nat.le_of_succ_le_succ hn) fun k hk hlast => ?_
        exact hne (k + 1) (Nat.succ_lt_succ hk) (Nat.succ_lt_succ hlast)
      have hfirst :
          copied latencies (threadsLines (i + 1) threads) = latencies.map latencyLine := by
        unfold copied
        split
        · rename_i hnil
          subst hnil
          cases threads with
          | nil => rfl
          | cons latencies' threads =>
            exact absurd rfl (hne 0 (Nat.succ_pos n) (Nat.succ_lt_succ (Nat.succ_pos _)))
        · rfl
      rw [copiedAll, hrest, hfirst, uxLatencies_cons]

/-- An empty part that is not the last of all leaves the line of the next thread. -/
theorem exists_coreLine_mem (hk : k < n) (hlast : k + 1 < threads.length)
    (hnil : threads[k]? = some []) : ∃ j cnt : ℕ, coreLine j cnt ∈ copiedAll i threads n := by
  obtain ⟨n, rfl⟩ : ∃ m, n = m + 1 := ⟨n - 1, by omega⟩
  induction k generalizing i n threads with
  | zero =>
    obtain _ | ⟨latencies, _ | ⟨latencies', threads⟩⟩ := threads
    · cases hnil
    · exact absurd hlast (Nat.lt_irrefl 1)
    · cases hnil
      exact ⟨i + 1, latencies'.length, List.mem_append_left _ (List.mem_singleton_self _)⟩
  | succ k ih =>
    cases threads with
    | nil => cases hnil
    | cons latencies threads =>
      obtain ⟨m, rfl⟩ : ∃ m, n = m + 1 := ⟨n - 1, by omega⟩
      obtain ⟨j, cnt, hmem⟩ := ih (Nat.lt_of_succ_lt_succ hlast) hnil m (Nat.lt_of_succ_lt_succ hk)
      exact ⟨j, cnt, List.mem_append_right _ hmem⟩

/-- The line of a thread is not among the latencies. -/
theorem coreLine_notMem (j cnt : ℕ) : coreLine j cnt ∉ uxLatencies threads n := by
  intro hmem
  obtain ⟨latencies, -, hline⟩ := List.mem_flatMap.mp hmem
  obtain ⟨latency, -, heq⟩ := List.mem_map.mp hline
  exact coreLine_ne_latencyLine j cnt latency heq.symm

/-- A thread behind the first ones has the next latencies. -/
theorem length_uxLatencies_le (hk : k < n) (hget : threads[k]? = some latencies) :
    (uxLatencies threads k).length + latencies.length ≤ (uxLatencies threads n).length := by
  obtain ⟨n, rfl⟩ : ∃ m, n = m + 1 := ⟨n - 1, by omega⟩
  induction k generalizing n threads with
  | zero =>
    cases threads with
    | nil => cases hget
    | cons latencies' threads =>
      cases hget
      rw [uxLatencies_cons, List.length_append, List.length_map]
      simp [uxLatencies]
  | succ k ih =>
    cases threads with
    | nil => cases hget
    | cons latencies' threads =>
      obtain ⟨m, rfl⟩ : ∃ m, n = m + 1 := ⟨n - 1, by omega⟩
      have hrest := ih hget m (Nat.lt_of_succ_lt_succ hk)
      rw [uxLatencies_cons, uxLatencies_cons, List.length_append, List.length_append]
      omega

/-- If the latencies are what is copied then no part is empty, the last one of all aside. -/
theorem ne_nil_of_copiedAll_eq {m : ℕ} (h : copiedAll i threads n = uxLatencies threads m) :
    ∀ k < n, k + 1 < threads.length → threads[k]? ≠ some [] := by
  intro k hk hlast hnil
  obtain ⟨j, cnt, hmem⟩ := exists_coreLine_mem hk hlast hnil
  rw [h] at hmem
  exact coreLine_notMem j cnt hmem

end Collected

/-! ## The whole script -/

section Script

variable (spinCnt parkCnt wakeCnt : BitVec 32) (throughput : Line)
  {threads : List (List (BitVec 64))} {uxNum : ℕ}

/-- Behind the first two lines the script has read the part of no thread. -/
theorem aligned_start : Aligned [spinLine spinCnt parkCnt wakeCnt, throughput] 0 {} :=
  ⟨rfl, rfl⟩

/-- The first loop comes to its end if no count of the first threads is too large, and the second
begins at the part of the next thread. -/
theorem measure_of_le (hux : uxNum ≤ threads.length)
    (hle : ∀ latencies ∈ threads.take uxNum, latencies.length ≤ recordLen) :
    ∃ before s, Aligned before uxNum s ∧
      measure (benchOutput spinCnt parkCnt wakeCnt throughput threads) threads.length uxNum =
        (List.range' (uxNum + 1) (threads.drop uxNum).length).foldlM
          (coreRound (before ++ threadsLines uxNum (threads.drop uxNum))) s ∧
      s.uxtailTot = copiedAll 0 threads uxNum ∧
      s.uxTotLine = (uxLatencies threads uxNum).length := by
  obtain ⟨before, s, hloop, hfile, haligned, htot, hcnt⟩ :=
    uxLoop_of_le (aligned_start spinCnt parkCnt wakeCnt throughput) hux hle
  rw [Nat.zero_add] at hloop hfile haligned
  refine ⟨before, s, haligned, ?_, htot, hcnt.trans (Nat.zero_add _)⟩
  rw [← hfile, List.length_drop]
  unfold measure
  rw [show (List.range' 1 uxNum).foldlM
    (uxRound (benchOutput spinCnt parkCnt wakeCnt throughput threads)) {} = .ok s from hloop]
  rfl

/-- The script exits in the first loop if a count of the first threads is too large. -/
theorem measure_of_lt (hux : uxNum ≤ threads.length)
    (hlt : ¬∀ latencies ∈ threads.take uxNum, latencies.length ≤ recordLen) :
    ∃ k latencies s, k < uxNum ∧ threads[k]? = some latencies ∧ recordLen < latencies.length ∧
      measure (benchOutput spinCnt parkCnt wakeCnt throughput threads) threads.length uxNum =
        .error s ∧ s.uxtailTot = copiedAll 0 threads k := by
  obtain ⟨k, latencies, s, hk, hget, hlarge, hloop, htot⟩ :=
    uxLoop_of_lt (aligned_start spinCnt parkCnt wakeCnt throughput) hux hlt
  refine ⟨k, latencies, s, hk, hget, hlarge, ?_, htot⟩
  unfold measure
  rw [show (List.range' 1 uxNum).foldlM
    (uxRound (benchOutput spinCnt parkCnt wakeCnt throughput threads)) {} = .error s from hloop]
  rfl

/-- The script comes to its end exactly if no count is larger than `RECORDLEN`. -/
theorem measure_isOk_iff (hux : uxNum ≤ threads.length) :
    (∃ s, measure (benchOutput spinCnt parkCnt wakeCnt throughput threads) threads.length uxNum =
        .ok s) ↔ ∀ latencies ∈ threads, latencies.length ≤ recordLen := by
  have hsplit : (∀ latencies ∈ threads, latencies.length ≤ recordLen) ↔
      (∀ latencies ∈ threads.take uxNum, latencies.length ≤ recordLen) ∧
        ∀ latencies ∈ threads.drop uxNum, latencies.length ≤ recordLen := by
    rw [← List.forall_mem_append, List.take_append_drop]
  rw [hsplit]
  by_cases hle : ∀ latencies ∈ threads.take uxNum, latencies.length ≤ recordLen
  · obtain ⟨before, s, haligned, hrun, -, -⟩ :=
      measure_of_le spinCnt parkCnt wakeCnt throughput hux hle
    rw [hrun, coreLoop_isOk_iff haligned, and_iff_right hle]
  · obtain ⟨k, latencies, s, -, -, -, hrun, -⟩ :=
      measure_of_lt spinCnt parkCnt wakeCnt throughput hux hle
    rw [hrun]
    refine iff_of_false ?_ fun hall => hle hall.1
    rintro ⟨s', hs'⟩
    cases hs'

/-- Counts and latencies are what the script should collect from the output of the benchmark
exactly if no count of the first threads is larger than `RECORDLEN` and none of them is zero, that
of the last thread of all aside. -/
theorem measure_decodes_iff (hux : uxNum ≤ threads.length) :
    Decoded threads uxNum (lastState (measure
      (benchOutput spinCnt parkCnt wakeCnt throughput threads) threads.length uxNum)) ↔
      (∀ latencies ∈ threads.take uxNum, latencies.length ≤ recordLen) ∧
        ∀ k < uxNum, k + 1 < threads.length → threads[k]? ≠ some [] := by
  by_cases hle : ∀ latencies ∈ threads.take uxNum, latencies.length ≤ recordLen
  · obtain ⟨before, s, -, hrun, htot, hcnt⟩ :=
      measure_of_le spinCnt parkCnt wakeCnt throughput hux hle
    obtain ⟨htot', hcnt'⟩ := coreLoop_keeps
      (before ++ threadsLines uxNum (threads.drop uxNum))
      (List.range' (uxNum + 1) (threads.drop uxNum).length) s
    rw [hrun, and_iff_right hle]
    constructor
    · intro hdecoded
      exact ne_nil_of_copiedAll_eq (htot.symm.trans (htot'.symm.trans hdecoded.uxtailTot))
    · intro hne
      exact ⟨htot'.trans (htot.trans (copiedAll_eq hux hne)), hcnt'.trans hcnt⟩
  · obtain ⟨k, latencies, s, hk, hget, hlarge, hrun, htot⟩ :=
      measure_of_lt spinCnt parkCnt wakeCnt throughput hux hle
    refine iff_of_false (fun hdecoded => ?_) fun hall => hle hall.1
    -- what was copied up to the exit is shorter than the latencies, or has the line of a thread
    rw [hrun] at hdecoded
    have hcopied : copiedAll 0 threads k = uxLatencies threads uxNum :=
      htot.symm.trans hdecoded.uxtailTot
    have hshort : copiedAll 0 threads k = uxLatencies threads k :=
      copiedAll_eq (Nat.le_trans (Nat.le_of_lt hk) hux) (ne_nil_of_copiedAll_eq hcopied)
    have hlength := length_uxLatencies_le hk hget
    rw [← hcopied, hshort] at hlength
    omega

end Script

/-- The last thread of two has no latencies, and both are collected. -/
theorem measure_decodes_iff_last_empty :
    Decoded [[7, 9], []] 2 (lastState (measure
      (benchOutput 1 0 0 "1.000000".toList [[7, 9], []]) 2 2)) :=
  (measure_decodes_iff 1 0 0 "1.000000".toList (by decide)).mpr ⟨by decide, by decide⟩

/-- The first thread of two has no latencies, and the line of the second is collected in their
place; it is not counted. -/
theorem empty_part_copies_next_line :
    (lastState (measure (benchOutput 1 0 0 "1.000000".toList [[], [7]]) 2 2)).uxtailTot =
        ["core 1 cnt 1".toList, "7".toList] ∧
      (lastState (measure (benchOutput 1 0 0 "1.000000".toList [[], [7]]) 2 2)).uxTotLine = 1 ∧
      uxLatencies [[], [7]] 2 = ["7".toList] := by
  decide +kernel

end Htll
