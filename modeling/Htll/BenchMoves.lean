import Htll.Bench
import Htll.Protocol.Tally

/-!
# What a thread of the benchmark does

The role of a thread says what it has done for the others: whether it has come to the barrier,
holds the lock, has counted its request, and which shared variables it has yet to touch. An action
of a thread keeps its role or is one of a few moves.
-/

namespace Htll

/-- What a thread has done so far. -/
inductive BenchRole where
  | unpublished
  | published
  | arrived
  /-- Between two requests, before `global_stop` is read. -/
  | resting
  /-- About to take the lock. -/
  | asking
  /-- With the lock, before the request is counted. -/
  | holding
  /-- With the lock, the variables from `i` on ahead. -/
  | touching (i : ℕ)
  /-- With the lock, all variables touched. -/
  | leaving
  /-- Before the latency is recorded. -/
  | counted
  deriving DecidableEq

namespace BenchRole

/-- The thread has the lock. -/
def holds : BenchRole → Bool
  | .holding | .touching _ | .leaving => true
  | .unpublished | .published | .arrived | .resting | .asking | .counted => false

/-- The request is counted and not recorded. -/
def hasCounted : BenchRole → Bool
  | .touching _ | .leaving | .counted => true
  | .unpublished | .published | .arrived | .resting | .asking | .holding => false

/-- `record_all[tid]` is set. -/
def hasPublished : BenchRole → Bool
  | .unpublished => false
  | .published | .arrived | .resting | .asking | .holding | .touching _ | .leaving
  | .counted => true

/-- The thread has come to the barrier. -/
def hasArrived : BenchRole → Bool
  | .unpublished | .published => false
  | .arrived | .resting | .asking | .holding | .touching _ | .leaving | .counted => true

/-- The thread is behind the barrier. -/
def hasPassed : BenchRole → Bool
  | .unpublished | .published | .arrived => false
  | .resting | .asking | .holding | .touching _ | .leaving | .counted => true

/-- The request is counted, and variable `k` has yet to be touched. -/
def behind (k : ℕ) : BenchRole → Bool
  | .touching i => i ≤ k
  | .unpublished | .published | .arrived | .resting | .asking | .holding | .leaving
  | .counted => false

/-- A request will be counted whether or not `global_stop` is set. -/
def spare : BenchRole → Bool
  | .asking | .holding => true
  | .unpublished | .published | .arrived | .resting | .touching _ | .leaving
  | .counted => false

end BenchRole

/-- The role at a program point. -/
def BenchPoint.role : BenchPoint → BenchRole
  | .absent | .publish => .unpublished
  | .arrive => .published
  | .barrier => .arrived
  | .check | .returned => .resting
  | .start | .lock => .asking
  | .locked | .readCnt | .writeCnt _ => .holding
  | .touch i _ => .touching i
  | .unlock => .leaving
  | .record => .counted

/-- What has been loaded is there. -/
def Touch.Fits (memory : ℕ → BitVec 64) (i : ℕ) : Touch → Prop
  | .loadSeven => True
  | .storeTwo x => x = memory (8 * i + 7)
  | .loadTwo => memory (8 * i + 2) = memory (8 * i + 7) + 1
  | .storeSeven x => x = memory (8 * i + 7) + 1

namespace BenchState

variable {n : ℕ} {o : BenchOptions} {s s' : BenchState n} {t : Fin n} {clock : BitVec 64}

/-- The role of a thread. -/
def role (s : BenchState n) (t : Fin n) : BenchRole := (s.thread t).point.role

/-- What a thread has loaded while it holds the lock is there: its count, and a word of the
variable that it touches, which is one of its area. -/
def Current (o : BenchOptions) (s : BenchState n) (t : Fin n) : BenchPoint → Prop
  | .writeCnt cnt => cnt = s.globalCnt t
  | .touch i x => i < o.numberOfSharedVariables (o.area t) ∧ x.Fits (s.memoryArea (o.area t)) i
  | _ => True

/-- The next variable is one of the area. -/
theorem current_round (i : ℕ) : s.Current o t (o.round (o.area t) i) := by
  unfold BenchOptions.round
  split
  · exact ⟨‹_›, trivial⟩
  · trivial

/-- What an action of a thread does for the others. -/
inductive Move (o : BenchOptions) (s : BenchState n) (t : Fin n) : BenchState n → Prop
  /-- The thread goes on in its role. -/
  | goes (x : BenchThread) (hrole : x.point.role = s.role t) (hcurrent : s.Current o t x.point)
      (hcnt : x.recordCnt = (s.thread t).recordCnt)
      (hlatency : x.recordLatency = (s.thread t).recordLatency) : Move o s t (s.setThread t x)
  | publishes (hrole : s.role t = .unpublished) :
      Move o s t { s.goto t .arrive with recordAll := Function.update s.recordAll t true }
  | arrives (hrole : s.role t = .published) :
      Move o s t { s.goto t .barrier with arrivals := s.arrivals + 1 }
  | passes (hrole : s.role t = .arrived) (hopen : s.arrivals = n + 1) : Move o s t (s.goto t .check)
  | begins (hrole : s.role t = .resting) (hgo : s.globalStop = false) : Move o s t (s.goto t .start)
  | acquires (hrole : s.role t = .asking) (hfree : s.owner = none) :
      Move o s t { s.goto t .locked with owner := some t }
  | counts (cnt : BitVec 64) (hpoint : (s.thread t).point = .writeCnt cnt) :
      Move o s t { s.goto t (o.round (o.area t) 0) with
        globalCnt := Function.update s.globalCnt t (cnt + 1) }
  | storesTwo (i : ℕ) (v : BitVec 64) (hpoint : (s.thread t).point = .touch i (.storeTwo v)) :
      Move o s t ((s.write (o.area t) (8 * i + 2) (v + 1)).goto t (.touch i .loadTwo))
  | storesSeven (i : ℕ) (v : BitVec 64) (hpoint : (s.thread t).point = .touch i (.storeSeven v)) :
      Move o s t ((s.write (o.area t) (8 * i + 7) (v + 1)).goto t (o.round (o.area t) (i + 1)))
  | releases (hrole : s.role t = .leaving) : Move o s t { s.goto t .record with owner := none }
  | records (latency : BitVec 64) (hrole : s.role t = .counted)
      (hlt : (s.thread t).recordCnt < latencyRecord) :
      Move o s t (s.setThread t { s.thread t with
        point := .check
        recordCnt := (s.thread t).recordCnt + 1
        recordLatency :=
          Function.update (s.thread t).recordLatency (s.thread t).recordCnt latency })
  | overruns (hrole : s.role t = .counted) (hge : latencyRecord ≤ (s.thread t).recordCnt) :
      Move o s t { s with fault := true }

/-- A thread that goes to another program point in its role. -/
theorem Move.goto {p : BenchPoint} (hrole : p.role = s.role t) (hcurrent : s.Current o t p) :
    Move o s t (s.goto t p) :=
  .goes { s.thread t with point := p } hrole hcurrent rfl rfl

/-- Every action of a thread is such a move. -/
theorem move_of_step (hcurrent : s.Current o t (s.thread t).point)
    (h : s.threadStep o t clock = some s') : Move o s t s' := by
  unfold threadStep at h
  dsimp only at h
  split at h
  case h_1 | h_2 => cases h
  case h_3 hp =>
    cases h
    exact .publishes (by rw [role, hp]; rfl)
  case h_4 hp =>
    cases h
    exact .arrives (by rw [role, hp]; rfl)
  case h_5 hp =>
    obtain ⟨hopen, h⟩ := Option.ite_none_right_eq_some.mp h
    cases h
    exact .passes (by rw [role, hp]; rfl) hopen
  case h_6 hp =>
    cases h
    split
    · exact .goto (by rw [role, hp]; rfl) trivial
    · rename_i hgo
      exact .begins (by rw [role, hp]; rfl) (Bool.eq_false_of_not_eq_true hgo)
  case h_7 hp | h_9 hp =>
    cases h
    exact .goes _ (by rw [role, hp]; rfl) trivial rfl rfl
  case h_8 hp =>
    obtain ⟨hfree, h⟩ := Option.ite_none_right_eq_some.mp h
    cases h
    exact .acquires (by rw [role, hp]; rfl) hfree
  case h_10 hp =>
    cases h
    exact .goto (by rw [role, hp]; rfl) rfl
  case h_11 cnt hp =>
    cases h
    exact .counts cnt hp
  case h_12 i hp =>
    cases h
    rw [hp] at hcurrent
    exact .goto (by rw [role, hp]; rfl) ⟨hcurrent.1, rfl⟩
  case h_13 i v hp =>
    cases h
    exact .storesTwo i v hp
  case h_14 i hp =>
    cases h
    rw [hp] at hcurrent
    exact .goto (by rw [role, hp]; rfl) hcurrent
  case h_15 i v hp =>
    cases h
    exact .storesSeven i v hp
  case h_16 hp =>
    cases h
    exact .releases (by rw [role, hp]; rfl)
  case h_17 hp =>
    split at h <;> cases h
    · rename_i hlt
      exact .records _ (by rw [role, hp]; rfl) hlt
    · rename_i hge
      exact .overruns (by rw [role, hp]; rfl) (Nat.le_of_not_lt hge)

end BenchState

end Htll
