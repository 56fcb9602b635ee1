import Mathlib.Data.Int.Notation
import Mathlib.Data.List.Induction
import Mathlib.Data.Nat.Notation
import Mathlib.Order.Basic

/-!
# The cached core type

`is_big_core` keeps the last answer of `judge_big_core` in the thread-local `core_type` and counts
in `lazy_cnt` how often it has served it; −1 stands for no answer yet. `update_core_type` is the
second function that writes the cache, and it stores the CPU number modulo 4 in place of the answer.
`sched_getcpu` is the number of the CPU that the thread is on, an argument of each call.
-/

namespace Htll

section Answers

variable {X Y : Type*} (answer : X → Y)

/-- A value answers the observation made `age` observations ago; the newest comes first. -/
def AnswersAt (age : ℕ) (seen : List X) (v : Y) : Prop := ∃ x, seen[age]? = some x ∧ v = answer x

/-- A value answers one of the last observations, the newest one and `window` before it. -/
def AnswersRecent (window : ℕ) (seen : List X) (v : Y) : Prop :=
  ∃ x ∈ seen.take (window + 1), v = answer x

/-- The newest observation is answered at age 0. -/
theorem answersAt_zero (x : X) (seen : List X) : AnswersAt answer 0 (x :: seen) (answer x) :=
  ⟨x, rfl, rfl⟩

variable {answer}

/-- A kept answer ages by one with each observation. -/
theorem AnswersAt.succ {age : ℕ} {seen : List X} {v : Y} (h : AnswersAt answer age seen v) (x : X) :
    AnswersAt answer (age + 1) (x :: seen) v := h

/-- An answer within the window is recent. -/
theorem AnswersAt.recent {age window : ℕ} {seen : List X} {v : Y} (h : AnswersAt answer age seen v)
    (hage : age ≤ window) : AnswersRecent answer window seen v := by
  obtain ⟨x, hx, hv⟩ := h
  have htake : (seen.take (window + 1))[age]? = some x := by
    rw [List.getElem?_take_of_lt (by omega), hx]
  exact ⟨x, List.mem_of_getElem? htake, hv⟩

end Answers

/-- `LAZY_CHECK_THRESHOLD`. -/
def lazyCheckThreshold : ℕ := 10

/-- `judge_big_core`. -/
def judgeBigCore (coreId : ℤ) : ℤ := if coreId < 16 then 1 else 0

/-- The `__thread` variables of the cache. -/
structure CoreCache where
  coreType : ℤ := -1
  lazyCnt : ℤ := 0
  deriving DecidableEq

/-- `is_big_core` on a given CPU: the returned value and the new cache. -/
def isBigCore (cache : CoreCache) (cpu : ℤ) : ℤ × CoreCache :=
  let cache : CoreCache :=
    if cache.coreType = -1 then { cache with coreType := judgeBigCore cpu }
    else if cache.lazyCnt ≥ lazyCheckThreshold then
      { lazyCnt := 0, coreType := judgeBigCore cpu }
    else { cache with lazyCnt := cache.lazyCnt + 1 }
  (cache.coreType, cache)

/-- `update_core_type` on a given CPU; the remainder of C rounds towards zero. -/
def updateCoreType (_cache : CoreCache) (cpu : ℤ) : ℤ × CoreCache :=
  let cache : CoreCache := { lazyCnt := 0, coreType := cpu.tmod 4 }
  (cache.coreType, cache)

/-- A call of a thread, with the number of the CPU that it is on. -/
inductive CoreCall where
  | isBigCore (cpu : ℕ)
  | updateCoreType (cpu : ℕ)
  deriving DecidableEq

namespace CoreCall

/-- The CPU at the call. -/
def cpu : CoreCall → ℕ
  | isBigCore cpu => cpu
  | updateCoreType cpu => cpu

/-- The effect of a call. -/
def run (cache : CoreCache) : CoreCall → ℤ × CoreCache
  | isBigCore cpu => Htll.isBigCore cache cpu
  | updateCoreType cpu => Htll.updateCoreType cache cpu

/-- The call asks for the current CPU and does not serve the cached value. -/
def Refreshes (cache : CoreCache) : CoreCall → Prop
  | isBigCore _ => cache.coreType = -1 ∨ cache.lazyCnt ≥ lazyCheckThreshold
  | updateCoreType _ => True

/-- The call does not store a wrong answer: the CPU number modulo 4 is the answer for that CPU. -/
def Accurate : CoreCall → Prop
  | isBigCore _ => True
  | updateCoreType cpu => cpu < 16 ∧ cpu % 4 = 1 ∨ 16 ≤ cpu ∧ cpu % 4 = 0

end CoreCall

/-- The cache after the calls of a thread. -/
def coreCacheAfter (calls : List CoreCall) : CoreCache :=
  calls.foldl (fun cache call => (call.run cache).2) {}

/-- The CPUs at the calls of a thread, the newest first. -/
def cpusSeen (calls : List CoreCall) : List ℤ := calls.reverse.map fun call => (call.cpu : ℤ)

/-- What the value returned by a call should be: the answer for the CPU at that call or at one of
the preceding ones within the threshold, and for the current CPU if the call refreshes. -/
structure RecentTrueAnswer (before : List CoreCall) (call : CoreCall) : Prop where
  recent : AnswersRecent judgeBigCore lazyCheckThreshold (cpusSeen (before ++ [call]))
    (call.run (coreCacheAfter before)).1
  refreshed : call.Refreshes (coreCacheAfter before) →
    (call.run (coreCacheAfter before)).1 = judgeBigCore call.cpu

/-- The cache holds nothing yet, or an answer whose age is the count. -/
def CachesAnswer (cache : CoreCache) (seen : List ℤ) : Prop :=
  cache = {} ∨ ∃ age : ℕ, cache.lazyCnt = age ∧ age ≤ lazyCheckThreshold ∧
    AnswersAt judgeBigCore age seen cache.coreType

/-- The answer is never the sentinel. -/
theorem judgeBigCore_ne (coreId : ℤ) : judgeBigCore coreId ≠ -1 := by
  unfold judgeBigCore
  split <;> decide

/-- A kept answer is not the sentinel. -/
theorem AnswersAt.ne {age : ℕ} {seen : List ℤ} {v : ℤ} (h : AnswersAt judgeBigCore age seen v) :
    v ≠ -1 := by
  obtain ⟨coreId, -, rfl⟩ := h
  exact judgeBigCore_ne coreId

/-- One more call is made in the cache left by the earlier ones. -/
theorem coreCacheAfter_snoc (before : List CoreCall) (call : CoreCall) :
    coreCacheAfter (before ++ [call]) = (call.run (coreCacheAfter before)).2 := by
  simp [coreCacheAfter]

/-- The CPU of the last call is the newest one. -/
theorem cpusSeen_snoc (before : List CoreCall) (call : CoreCall) :
    cpusSeen (before ++ [call]) = (call.cpu : ℤ) :: cpusSeen before := by
  simp [cpusSeen]

/-- The value stored by `update_core_type` is the answer exactly on the CPUs of `Accurate`. -/
theorem updateCoreType_eq_iff (cache : CoreCache) (cpu : ℕ) :
    (updateCoreType cache cpu).1 = judgeBigCore cpu ↔ (CoreCall.updateCoreType cpu).Accurate := by
  have hmod : (cpu : ℤ).tmod 4 = ((cpu % 4 : ℕ) : ℤ) := (Int.ofNat_tmod cpu 4).symm
  simp only [updateCoreType, judgeBigCore, CoreCall.Accurate, hmod]
  split <;> omega

/-- The returned value is the one that the call leaves in the cache. -/
theorem CoreCall.run_fst (call : CoreCall) (cache : CoreCache) :
    (call.run cache).1 = (call.run cache).2.coreType := by
  cases call <;> rfl

/-- An accurate call that refreshes caches the answer for the current CPU, at age 0. -/
theorem CoreCall.run_refreshes {call : CoreCall} {cache : CoreCache} {seen : List ℤ}
    (hcache : CachesAnswer cache seen) (hacc : call.Accurate) (href : call.Refreshes cache) :
    (call.run cache).2 = { lazyCnt := 0, coreType := judgeBigCore call.cpu } := by
  cases call with
  | isBigCore cpu =>
    simp only [CoreCall.run, Htll.isBigCore, CoreCall.cpu]
    rcases hcache with rfl | ⟨age, hcnt, -, hans⟩
    · rfl
    · have hfull : cache.lazyCnt ≥ lazyCheckThreshold := href.resolve_left hans.ne
      rw [if_neg hans.ne, if_pos hfull]
  | updateCoreType cpu =>
    have hans := (updateCoreType_eq_iff cache cpu).mpr hacc
    simp only [Htll.updateCoreType] at hans
    simp only [CoreCall.run, Htll.updateCoreType, CoreCall.cpu, hans]

/-- A call that does not refresh serves the cached value once more. -/
theorem CoreCall.run_serves {call : CoreCall} {cache : CoreCache} (href : ¬call.Refreshes cache) :
    (call.run cache).2 = { cache with lazyCnt := cache.lazyCnt + 1 } ∧ cache ≠ {} ∧
      cache.lazyCnt < lazyCheckThreshold := by
  cases call with
  | isBigCore cpu =>
    obtain ⟨hne, hlt⟩ := not_or.mp href
    refine ⟨?_, fun h => hne (h ▸ rfl), Int.not_le.mp hlt⟩
    simp only [CoreCall.run, Htll.isBigCore]
    rw [if_neg hne, if_neg hlt]
  | updateCoreType cpu => exact absurd trivial href

/-- An accurate call keeps the cache an answer of the age that it counts. -/
theorem CachesAnswer.call {cache : CoreCache} {seen : List ℤ} (h : CachesAnswer cache seen)
    (call : CoreCall) (hacc : call.Accurate) :
    ∃ age : ℕ, (call.run cache).2.lazyCnt = age ∧ age ≤ lazyCheckThreshold ∧
      AnswersAt judgeBigCore age ((call.cpu : ℤ) :: seen) (call.run cache).2.coreType := by
  by_cases href : call.Refreshes cache
  · rw [CoreCall.run_refreshes h hacc href]
    exact ⟨0, rfl, Nat.zero_le _, answersAt_zero judgeBigCore _ seen⟩
  · obtain ⟨hrun, hne, hlt⟩ := CoreCall.run_serves href
    obtain ⟨age, hcnt, -, hans⟩ := h.resolve_left hne
    rw [hrun]
    refine ⟨age + 1, by simp [hcnt], by omega, hans.succ _⟩

/-- So after accurate calls only. -/
theorem cachesAnswer_after {calls : List CoreCall} (hacc : ∀ call ∈ calls, call.Accurate) :
    CachesAnswer (coreCacheAfter calls) (cpusSeen calls) := by
  induction calls using List.reverseRecOn with
  | nil => exact Or.inl rfl
  | append_singleton before call ih =>
    have hbefore := ih fun c hc => hacc c (List.mem_append_left [call] hc)
    rw [coreCacheAfter_snoc, cpusSeen_snoc]
    exact Or.inr (hbefore.call call (hacc call (by simp)))

/-- After accurate calls an accurate call returns a recent true answer. -/
theorem recentTrueAnswer_of_accurate {before : List CoreCall} {call : CoreCall}
    (hbefore : ∀ c ∈ before, c.Accurate) (hacc : call.Accurate) : RecentTrueAnswer before call := by
  have hcache := cachesAnswer_after hbefore
  refine ⟨?_, fun href => ?_⟩
  · obtain ⟨age, -, hage, hans⟩ := hcache.call call hacc
    rw [cpusSeen_snoc, call.run_fst]
    exact hans.recent hage
  · rw [call.run_fst, CoreCall.run_refreshes hcache hacc href]

/-- A recent true answer comes from an accurate call. -/
theorem RecentTrueAnswer.accurate {before : List CoreCall} {call : CoreCall}
    (h : RecentTrueAnswer before call) : call.Accurate := by
  cases call with
  | isBigCore cpu => trivial
  | updateCoreType cpu =>
    exact (updateCoreType_eq_iff (coreCacheAfter before) cpu).mp (h.refreshed trivial)

/-- Every value that a thread gets is a recent true answer exactly if all its calls of
`update_core_type` are made on CPUs whose number modulo 4 is their core type. -/
theorem core_type_recent_iff (calls : List CoreCall) :
    (∀ before call, (before ++ [call]) <+: calls → RecentTrueAnswer before call) ↔
      ∀ cpu, CoreCall.updateCoreType cpu ∈ calls →
        cpu < 16 ∧ cpu % 4 = 1 ∨ 16 ≤ cpu ∧ cpu % 4 = 0 := by
  constructor
  · intro h cpu hmem
    obtain ⟨before, after, rfl⟩ := List.append_of_mem hmem
    have hpart : (before ++ [CoreCall.updateCoreType cpu]) <+:
        before ++ CoreCall.updateCoreType cpu :: after := ⟨after, by simp⟩
    exact (h before _ hpart).accurate
  · intro h before call hpart
    have hacc : ∀ c ∈ before ++ [call], c.Accurate := by
      intro c hc
      cases c with
      | isBigCore cpu => trivial
      | updateCoreType cpu => exact h cpu (hpart.subset hc)
    exact recentTrueAnswer_of_accurate (fun c hc => hacc c (List.mem_append_left [call] hc))
      (hacc call (by simp))

/-- On CPU 0 `update_core_type` stores 0, and the next call of `is_big_core` serves it, while the
core is a big one. -/
theorem core_type_recent_counterexample :
    ¬RecentTrueAnswer [] (.updateCoreType 0) ∧
      ¬RecentTrueAnswer [.updateCoreType 0] (.isBigCore 0) := by
  refine ⟨fun h => absurd (h.refreshed trivial) (by decide), fun h => ?_⟩
  obtain ⟨coreId, hmem, hv⟩ := h.recent
  have hzero : coreId = 0 := by
    simpa [cpusSeen, lazyCheckThreshold, CoreCall.cpu] using hmem
  subst hzero
  exact absurd hv (by decide)

end Htll
