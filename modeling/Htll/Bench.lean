import Htll.BenchOutput
import Htll.Protocol.Transition
import Mathlib.Data.BitVec
import Mathlib.Data.Fintype.Basic
import Mathlib.Tactic.Simps.Basic

/-!
# The benchmark

`bench_block.c`: `main` starts some threads and meets them at a barrier. Each thread then takes
`global_lock` again and again, counts the request and touches the shared variables of its area
while it holds the lock, and records how long it has waited. `main` sets `global_stop` and prints
the counts and the latencies; it joins nobody, so the threads may still be running, and what they
have recorded stays where it is when they return.

One action is one access to memory that others read or write, to the clock, the barrier or the
lock. `global_lock` is a mutex and has an owner, or none. An index outside an array and a null
pointer end the run. The options `-t`, `-g`, `-s`, `-S` are such that every thread has its place
in the arrays and that `malloc` has the areas; the segments of the variant with
`LIBHTLL_INTERFACE` belong to one thread each and are left out here.
-/

namespace Htll

open Text

/-- `LATENCY_RECORD`. -/
def latencyRecord : ℕ := 5000000

/-- The two memory areas. -/
inductive Area where
  | short
  | long
  deriving DecidableEq

/-- The accesses to one shared variable, with the value that was loaded. -/
inductive Touch where
  | loadSeven
  | storeTwo (x : BitVec 64)
  | loadTwo
  | storeSeven (x : BitVec 64)
  deriving DecidableEq

/-- The program point of a thread. -/
inductive BenchPoint where
  /-- Before `pthread_create`. -/
  | absent
  /-- Before `record_all[tid]` is set. -/
  | publish
  /-- Before `pthread_barrier_wait`. -/
  | arrive
  /-- In `pthread_barrier_wait`. -/
  | barrier
  /-- Before `global_stop` is read. -/
  | check
  /-- Before the clock is read for `tt_startp`. -/
  | start
  /-- In `pthread_mutex_lock`. -/
  | lock
  /-- Before the clock is read for `tt_endp`. -/
  | locked
  /-- Before `global_cnt[tid]` is read. -/
  | readCnt
  /-- Before `global_cnt[tid]` is written, with the value that was read. -/
  | writeCnt (cnt : BitVec 64)
  /-- In round `i` of `access_variables`. -/
  | touch (i : ℕ) (next : Touch)
  /-- Before `pthread_mutex_unlock`. -/
  | unlock
  /-- Before the latency is recorded. -/
  | record
  | returned
  deriving DecidableEq

/-- The program point of `main`. -/
inductive MainPoint where
  /-- Before thread `i` is created. -/
  | create (i : ℕ)
  | arrive
  | barrier
  /-- Before `global_stop` is set. -/
  | stop
  | destroy
  /-- Before `global_cnt[i]` is added to `total_cnt`. -/
  | sum (i : ℕ) (total : BitVec 64)
  /-- Before the throughput is printed. -/
  | throughput (total : BitVec 64)
  /-- Before `global_cnt[i]` is read into `cur`. -/
  | cur (i : ℕ)
  /-- Before it is read again, to be printed. -/
  | header (i : ℕ) (cur : ℤ)
  /-- Before `record_all[i][j]` is printed. -/
  | latency (i : ℕ) (cur : ℤ) (j : ℕ)
  | returned
  deriving DecidableEq

/-- A thread and its thread-local variables. -/
structure BenchThread where
  point : BenchPoint := .absent
  ttStartp : BitVec 64 := 0
  ttEndp : BitVec 64 := 0
  recordCnt : ℕ := 0
  recordLatency : ℕ → BitVec 64 := fun _ => 0

/-- What a run is given: the options, the counters of the interposed library and how a throughput
is printed. -/
structure BenchOptions where
  shortThreadNumber : ℤ
  numberOfSharedVariables : Area → ℕ
  spinCnt : BitVec 32
  parkCnt : BitVec 32
  wakeCnt : BitVec 32
  throughput : BitVec 64 → Line

/-- The global variables, `main` and the threads. -/
structure BenchState (n : ℕ) where
  main : MainPoint
  thread : Fin n → BenchThread
  globalCnt : Fin n → BitVec 64
  globalStop : Bool
  /-- `record_all[i]` is set. -/
  recordAll : Fin n → Bool
  /-- How many have come to the barrier. -/
  arrivals : ℕ
  /-- Who holds `global_lock`. -/
  owner : Option (Fin n)
  memoryArea : Area → ℕ → BitVec 64
  output : List Line
  fault : Bool

/-- One action, with what the clock shows. -/
inductive BenchAction (n : ℕ) where
  | main
  | thread (t : Fin n) (clock : BitVec 64)
  deriving DecidableEq

/-- The area of a thread. -/
def BenchOptions.area (o : BenchOptions) {n : ℕ} (t : Fin n) : Area :=
  if (t : ℤ) < o.shortThreadNumber then .short else .long

/-- The test of the loop of `access_variables`. -/
def BenchOptions.round (o : BenchOptions) (a : Area) (i : ℕ) : BenchPoint :=
  if i < o.numberOfSharedVariables a then .touch i .loadSeven else .unlock

namespace BenchState

variable {n : ℕ}

/-- The start of `main`, with whatever `malloc` has found in the areas. -/
def initial (memoryArea : Area → ℕ → BitVec 64) : BenchState n where
  main := .create 0
  thread := fun _ => {}
  globalCnt := fun _ => 0
  globalStop := false
  recordAll := fun _ => false
  arrivals := 0
  owner := none
  memoryArea
  output := []
  fault := false

/-- Change a thread. -/
@[simps] def setThread (s : BenchState n) (t : Fin n) (x : BenchThread) : BenchState n :=
  { s with thread := Function.update s.thread t x }

/-- Move a thread to a program point. -/
def goto (s : BenchState n) (t : Fin n) (p : BenchPoint) : BenchState n :=
  s.setThread t { s.thread t with point := p }

/-- Write a word of an area. -/
def write (s : BenchState n) (a : Area) (i : ℕ) (x : BitVec 64) : BenchState n :=
  { s with memoryArea := Function.update s.memoryArea a (Function.update (s.memoryArea a) i x) }

/-- The next action of a thread. -/
def threadStep (o : BenchOptions) (s : BenchState n) (t : Fin n) (clock : BitVec 64) :
    Option (BenchState n) :=
  let x := s.thread t
  let a := o.area t
  match x.point with
  | .absent | .returned => none
  | .publish => some { s.goto t .arrive with recordAll := Function.update s.recordAll t true }
  | .arrive => some { s.goto t .barrier with arrivals := s.arrivals + 1 }
  | .barrier => if s.arrivals = n + 1 then some (s.goto t .check) else none
  | .check => some (s.goto t (if s.globalStop then .returned else .start))
  | .start => some (s.setThread t { x with point := .lock, ttStartp := clock })
  | .lock => if s.owner = none then some { s.goto t .locked with owner := some t } else none
  | .locked => some (s.setThread t { x with point := .readCnt, ttEndp := clock })
  | .readCnt => some (s.goto t (.writeCnt (s.globalCnt t)))
  | .writeCnt cnt =>
    some { s.goto t (o.round a 0) with globalCnt := Function.update s.globalCnt t (cnt + 1) }
  | .touch i .loadSeven => some (s.goto t (.touch i (.storeTwo (s.memoryArea a (8 * i + 7)))))
  | .touch i (.storeTwo v) => some ((s.write a (8 * i + 2) (v + 1)).goto t (.touch i .loadTwo))
  | .touch i .loadTwo => some (s.goto t (.touch i (.storeSeven (s.memoryArea a (8 * i + 2)))))
  | .touch i (.storeSeven v) =>
    some ((s.write a (8 * i + 7) (v + 1)).goto t (o.round a (i + 1)))
  | .unlock => some { s.goto t .record with owner := none }
  | .record =>
    if x.recordCnt < latencyRecord then
      some (s.setThread t { x with
        point := .check
        recordCnt := x.recordCnt + 1
        recordLatency := Function.update x.recordLatency x.recordCnt (x.ttEndp - x.ttStartp) })
    else some { s with fault := true }

/-- The next action of `main`. -/
def mainStep (o : BenchOptions) (s : BenchState n) : Option (BenchState n) :=
  match s.main with
  | .create i =>
    if h : i < n then some { s.goto ⟨i, h⟩ .publish with main := .create (i + 1) }
    else some { s with main := .arrive }
  | .arrive => some { s with main := .barrier, arrivals := s.arrivals + 1 }
  | .barrier => if s.arrivals = n + 1 then some { s with main := .stop } else none
  | .stop => some { s with main := .destroy, globalStop := true }
  | .destroy =>
    some { s with
      main := .sum 0 0
      output := s.output ++ [spinLine o.spinCnt o.parkCnt o.wakeCnt] }
  | .sum i total =>
    if h : i < n then some { s with main := .sum (i + 1) (total + s.globalCnt ⟨i, h⟩) }
    else some { s with main := .throughput total }
  | .throughput total => some { s with main := .cur 0, output := s.output ++ [o.throughput total] }
  | .cur i =>
    if h : i < n then
      some { s with main := .header i ((s.globalCnt ⟨i, h⟩).setWidth 32).toInt }
    else some { s with main := .returned }
  | .header i cur =>
    if h : i < n then
      some { s with
        main := .latency i cur 0
        output := s.output ++ [coreLine i (s.globalCnt ⟨i, h⟩).toInt] }
    else none
  | .latency i cur j =>
    if h : i < n then
      if (j : ℤ) < cur then
        if s.recordAll ⟨i, h⟩ ∧ j < latencyRecord then
          some { s with
            main := .latency i cur (j + 1)
            output := s.output ++ [latencyLine ((s.thread ⟨i, h⟩).recordLatency j)] }
        else some { s with fault := true }
      else some { s with main := .cur (i + 1) }
    else none
  | .returned => none

/-- One action, if it is possible in this state; the process ends when `main` returns. -/
def step (o : BenchOptions) (s : BenchState n) (x : BenchAction n) : Option (BenchState n) :=
  if s.fault ∨ s.main = .returned then none
  else
    match x with
    | .main => s.mainStep o
    | .thread t clock => s.threadStep o t clock

end BenchState

end Htll
