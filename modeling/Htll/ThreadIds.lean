import Htll.Process
import Mathlib.Algebra.Ring.Nat

/-!
# Thread ids

The number of a thread is its position in the order in which the threads came to the counter.
The numbers of admitted threads are therefore distinct and below `MAX_THREADS`; since none is
given back, the limit is one on all the threads that a process ever starts, not on those alive.
-/

namespace Htll

open Transition

/-- A numbered thread that is not admitted yet is alive. -/
theorem ThreadPoint.isAlive_of_numbered {p : ThreadPoint} (h : p.numbered = true)
    (hadmitted : ¬p.admitted = true) : p.isAlive = true := by
  cases p with
  | unborn | fetch => cases h
  | check => rfl
  | start | running | gone => exact absurd rfl hadmitted

/-- Every function that numbers a thread lets it go on alive. -/
theorem Entry.passed_admitted (f : Entry) :
    f.passed.admitted = true ∧ f.passed.numbered = true ∧ f.passed.isAlive = true := by
  cases f <;> exact ⟨rfl, rfl, rfl⟩

namespace Process

variable {T : Type*} [DecidableEq T] {limit : ℕ} {main : T} {s s' : Process T}
  {a : ProcessAction T}

/-- Numbers in the order of issue; those from `MAX_THREADS` on pass no comparison. -/
structure Numbered (limit : ℕ) (s : Process T) : Prop where
  nodup : s.issued.Nodup
  last : s.lastThreadId = BitVec.ofNat 32 s.issued.length
  mem : ∀ t, t ∈ s.issued ↔ (s.point t).numbered = true
  id : ∀ (k : ℕ) t, s.issued[k]? = some t → s.curThreadId t = BitVec.ofNat 32 k
  admitted : ∀ (k : ℕ) t, s.issued[k]? = some t → (s.point t).admitted = true → k < 2048
  alive : ∀ t, t ∈ s.alive ↔ (s.point t).isAlive = true
  room : s.alive.card ≤ max limit 1

/-- The main thread has no number before the constructor. -/
theorem numbered_initial : Numbered limit (initial main) where
  nodup := List.nodup_nil
  last := rfl
  mem t := by
    by_cases ht : t = main <;> simp [initial, ht, ThreadPoint.numbered]
  id _ _ hk := by simp [initial] at hk
  admitted _ _ hk := by simp [initial] at hk
  alive t := by
    by_cases ht : t = main <;> simp [initial, ht, ThreadPoint.isAlive]
  room := by simp [initial]

omit [DecidableEq T] in
/-- The threads with numbers from `MAX_THREADS` on are alive. -/
theorem Numbered.late_alive (h : Numbered limit s) {t : T} (ht : t ∈ s.issued.drop 2048) :
    t ∈ s.alive := by
  obtain ⟨k, hk⟩ := List.mem_iff_getElem?.mp ht
  rw [List.getElem?_drop] at hk
  have hnumbered := (h.mem t).mp (List.mem_of_getElem? hk)
  refine (h.alive t).mpr (ThreadPoint.isAlive_of_numbered hnumbered fun hadmitted => ?_)
  have hlate := h.admitted _ t hk hadmitted
  omega

omit [DecidableEq T] in
/-- Who is about to take its number has none. -/
theorem Numbered.not_issued (h : Numbered limit s) {t : T} {f : Entry}
    (ht : s.point t = .fetch f) : t ∉ s.issued := by
  intro hmem
  have hnumbered := (h.mem t).mp hmem
  rw [ht] at hnumbered
  cases hnumbered

/-- There are at most `MAX_THREADS` numbers more than threads alive. -/
theorem Numbered.issued_le (h : Numbered limit s) : s.issued.length ≤ 2048 + s.alive.card := by
  have hnodup : (s.issued.drop 2048).Nodup := h.nodup.sublist (List.drop_sublist _ _)
  have hsub : (s.issued.drop 2048).toFinset ⊆ s.alive := fun t ht =>
    h.late_alive (List.mem_toFinset.mp ht)
  have hcard := Finset.card_le_card hsub
  rw [List.toFinset_card_of_nodup hnodup, List.length_drop] at hcard
  omega

/-- The threads alive stay so when one of them goes on. -/
theorem Numbered.alive_goto (h : Numbered limit s) {t : T} {p : ThreadPoint}
    (hp : p.isAlive = (s.point t).isAlive) (u : T) :
    u ∈ s.alive ↔ (Function.update s.point t p u).isAlive = true := by
  by_cases hu : u = t
  · rw [hu, Function.update_self, hp, h.alive t]
  · rw [Function.update_of_ne hu, h.alive u]

/-- A move of one thread that gives it no number. -/
theorem Numbered.of_goto (h : Numbered limit s) {t : T} {p : ThreadPoint}
    (hissued : s'.issued = s.issued) (hlast : s'.lastThreadId = s.lastThreadId)
    (hid : s'.curThreadId = s.curThreadId) (hpoint : s'.point = Function.update s.point t p)
    (hnumbered : p.numbered = (s.point t).numbered)
    (hadmitted : p.admitted = true → (s.point t).admitted = true ∨ s.curThreadId t < maxThreads)
    (hbound : s.issued.length ≤ 2 ^ 32)
    (halive : ∀ u, u ∈ s'.alive ↔ (s'.point u).isAlive = true)
    (hroom : s'.alive.card ≤ max limit 1) : Numbered limit s' where
  nodup := hissued ▸ h.nodup
  last := by rw [hlast, hissued, h.last]
  mem u := by
    rw [hissued, h.mem u, hpoint]
    by_cases hu : u = t
    · subst hu
      rw [Function.update_self, hnumbered]
    · rw [Function.update_of_ne hu]
  id k u hk := by
    rw [hid]
    exact h.id k u (hissued ▸ hk)
  admitted k u hk hu := by
    rw [hissued] at hk
    rw [hpoint] at hu
    by_cases hut : u = t
    · subst hut
      rw [Function.update_self] at hu
      rcases hadmitted hu with hbefore | hlt
      · exact h.admitted k u hk hbefore
      · obtain ⟨hlength, -⟩ := List.getElem?_eq_some_iff.mp hk
        rw [h.id k u hk, BitVec.lt_def, BitVec.toNat_ofNat,
          Nat.mod_eq_of_lt (lt_of_lt_of_le hlength hbound)] at hlt
        exact hlt
    · rw [Function.update_of_ne hut] at hu
      exact h.admitted k u hk hu
  alive := halive
  room := hroom

omit [DecidableEq T] in
/-- The next number comes after the others. -/
theorem issued_snoc {t u : T} {k : ℕ} (hk : (s.issued ++ [t])[k]? = some u) :
    s.issued[k]? = some u ∨ k = s.issued.length ∧ u = t := by
  rw [List.getElem?_append] at hk
  split at hk
  · exact Or.inl hk
  · obtain ⟨hlength, heq⟩ := List.getElem?_eq_some_iff.mp hk
    rw [List.length_singleton] at hlength
    rw [List.getElem_singleton] at heq
    exact Or.inr ⟨by omega, heq.symm⟩

/-- A thread takes the next number. -/
theorem Numbered.number (h : Numbered limit s) {t : T} {f : Entry} (hp : s.point t = .fetch f) :
    Numbered limit ((s.number t).goto t (.check f)) where
  nodup := by
    simp only [goto_issued, number_issued, List.nodup_append, h.nodup, List.nodup_singleton,
      true_and]
    intro u hu v hv heq
    rw [List.mem_singleton.mp hv] at heq
    exact h.not_issued hp (heq ▸ hu)
  last := by simp [h.last, BitVec.ofNat_add]
  mem u := by
    by_cases hu : u = t
    · simp [hu, ThreadPoint.numbered]
    · simp [hu, h.mem u]
  id k u hk := by
    rw [goto_issued, number_issued] at hk
    rw [goto_curThreadId, number_curThreadId]
    rcases issued_snoc hk with hk | ⟨rfl, rfl⟩
    · have hu : u ≠ t := fun heq => h.not_issued hp (heq ▸ List.mem_of_getElem? hk)
      rw [Function.update_of_ne hu]
      exact h.id k u hk
    · rw [Function.update_self, h.last]
  admitted k u hk hu := by
    rw [goto_issued, number_issued] at hk
    rw [goto_point] at hu
    by_cases hut : u = t
    · rw [hut, Function.update_self] at hu
      cases hu
    · rw [Function.update_of_ne hut, number_point] at hu
      rcases issued_snoc hk with hk | ⟨-, heq⟩
      · exact h.admitted k u hk hu
      · exact absurd heq hut
  alive := h.alive_goto (by rw [hp]; rfl)
  room := h.room

/-- Every step keeps the numbers in order while they do not wrap around. -/
theorem Numbered.step (hlimit : limit + 2048 ≤ 2 ^ 32) (h : Numbered limit s)
    (hstep : s.step limit a = some s') : Numbered limit s' := by
  have hroom := h.room
  have hbound : s.issued.length ≤ 2 ^ 32 := by
    have := h.issued_le
    omega
  obtain ⟨-, heffect⟩ := step_effect hstep
  cases heffect with
  | @created t u ht hu hlt =>
    refine h.of_goto rfl rfl rfl rfl (by rw [hu]; rfl) (fun hu => by cases hu) hbound
      (fun v => ?_) ?_
    · by_cases hv : v = u
      · simp [hv, ThreadPoint.isAlive]
      · simp [hv, h.alive v]
    · have := Finset.card_insert_le u s.alive
      simp only
      omega
  | numbered hp => exact h.number hp
  | refused hp hid => exact ⟨h.nodup, h.last, h.mem, h.id, h.admitted, h.alive, hroom⟩
  | @admitted t f hp hid =>
    obtain ⟨-, hnumbered, halive⟩ := f.passed_admitted
    exact h.of_goto rfl rfl rfl rfl (by rw [hp, hnumbered]; rfl) (fun _ => Or.inr hid) hbound
      (h.alive_goto (by rw [hp, halive]; rfl)) hroom
  | @started t hp =>
    exact h.of_goto rfl rfl rfl rfl (by rw [hp]; rfl) (fun hadmitted => Or.inl (hp ▸ hadmitted))
      hbound (h.alive_goto (by rw [hp]; rfl)) hroom
  | called hp _ => exact ⟨h.nodup, h.last, h.mem, h.id, h.admitted, h.alive, hroom⟩
  | @exited t hp =>
    refine h.of_goto rfl rfl rfl rfl (by rw [hp]; rfl) (fun _ => Or.inl (by rw [hp]; rfl)) hbound
      (fun u => ?_) ?_
    · by_cases hu : u = t
      · simp [hu, ThreadPoint.isAlive]
      · simp [hu, h.alive u]
    · have := Finset.card_erase_le (s := s.alive) (a := t)
      simp only
      omega

/-- In every run the numbers are in order. -/
theorem numbered_of_path {guard : Process T → ProcessAction T → Prop}
    (hlimit : limit + 2048 ≤ 2 ^ 32) (hpath : Path (step limit) guard (initial main) s) :
    Numbered limit s :=
  Path.invariant (Numbered limit) (fun _ _ _ _ hstep h => h.step hlimit hstep) hpath
    numbered_initial

/-- A process is only terminated by a thread with a number from `MAX_THREADS` on. -/
theorem Numbered.terminated (h : Numbered limit s)
    (hbefore : s.terminated = true → maxThreads.toNat < s.issued.length)
    (hstep : s.step limit a = some s') :
    s'.terminated = true → maxThreads.toNat < s'.issued.length := by
  obtain ⟨hrunning, heffect⟩ := step_effect hstep
  intro hterminated
  cases heffect with
  | @refused t f hp hid =>
    have hmem : t ∈ s.issued := (h.mem t).mpr (by rw [hp]; rfl)
    obtain ⟨k, hk⟩ := List.mem_iff_getElem?.mp hmem
    obtain ⟨hlength, -⟩ := List.getElem?_eq_some_iff.mp hk
    have hle : maxThreads.toNat ≤ k := by
      have hge : maxThreads.toNat ≤ (s.curThreadId t).toNat := BitVec.le_def.mp hid
      rw [h.id k t hk, BitVec.toNat_ofNat] at hge
      exact le_trans hge (Nat.mod_le _ _)
    exact lt_of_le_of_lt hle hlength
  | numbered =>
    simp only [goto_terminated, number_terminated, hrunning] at hterminated
    cases hterminated
  | _ => exact hbefore hterminated

/-- The numbers of all threads are distinct and those of threads past the comparison are below
`MAX_THREADS`; the process is terminated for its threads only if more than `MAX_THREADS` of them
have taken a number since it began. -/
theorem thread_ids_distinct (hlimit : limit + 2048 ≤ 2 ^ 32)
    (hpath : Path (step limit) anyStep (initial main) s) :
    (∀ t u, (s.point t).numbered = true → (s.point u).numbered = true →
        s.curThreadId t = s.curThreadId u → t = u) ∧
      (∀ t, (s.point t).admitted = true → s.curThreadId t < maxThreads) ∧
      (s.terminated = true → s.issued.Nodup ∧ (∀ t ∈ s.issued, (s.point t).numbered = true) ∧
        maxThreads.toNat < s.issued.length) := by
  have hnumbers := numbered_of_path hlimit hpath
  have hbound : s.issued.length ≤ 2 ^ 32 := by
    have hroom := hnumbers.room
    have hissued := hnumbers.issued_le
    omega
  refine ⟨fun t u ht hu heq => ?_, fun t ht => ?_, fun hterminated => ?_⟩
  · obtain ⟨k, hk⟩ := List.mem_iff_getElem?.mp ((hnumbers.mem t).mpr ht)
    obtain ⟨l, hl⟩ := List.mem_iff_getElem?.mp ((hnumbers.mem u).mpr hu)
    obtain ⟨hklt, -⟩ := List.getElem?_eq_some_iff.mp hk
    obtain ⟨hllt, -⟩ := List.getElem?_eq_some_iff.mp hl
    have hkl : k = l := by
      rw [hnumbers.id k t hk, hnumbers.id l u hl] at heq
      have := congrArg BitVec.toNat heq
      rwa [BitVec.toNat_ofNat, BitVec.toNat_ofNat, Nat.mod_eq_of_lt (by omega),
        Nat.mod_eq_of_lt (by omega)] at this
    rw [hkl, hl] at hk
    exact (Option.some.inj hk).symm
  · have hmem : t ∈ s.issued := (hnumbers.mem t).mpr (by
      cases hp : s.point t <;> simp_all [ThreadPoint.admitted, ThreadPoint.numbered])
    obtain ⟨k, hk⟩ := List.mem_iff_getElem?.mp hmem
    have hlt := hnumbers.admitted k t hk ht
    rw [hnumbers.id k t hk, BitVec.lt_def, BitVec.toNat_ofNat, Nat.mod_eq_of_lt (by omega)]
    exact hlt
  · refine ⟨hnumbers.nodup, fun t => (hnumbers.mem t).mp, ?_⟩
    exact Path.invariant_of (Numbered limit)
      (fun s => s.terminated = true → maxThreads.toNat < s.issued.length)
      (fun _ _ _ _ hstep h => h.step hlimit hstep)
      (fun _ _ _ _ hstep h hbefore => h.terminated hbefore hstep)
      hpath numbered_initial (fun h => by cases h) hterminated

/-! ## A thread for every request -/

/-- At most two threads are alive. -/
def atMostTwo (s : Process T) (_ : ProcessAction T) : Prop := s.alive.card ≤ 2

/-- The main thread is alone after a number of others came and went. -/
structure Served (n : ℕ) (s : Process ℕ) : Prop where
  point : s.point 0 = .running
  alive : s.alive = {0}
  last : s.lastThreadId = BitVec.ofNat 32 (n + 1)
  running : s.terminated = false
  unborn : ∀ u, n < u → s.point u = .unborn

/-- The main thread creates one more thread, which takes the next number. -/
theorem Served.create {n : ℕ} {s : Process ℕ} (h : Served n s) (hlimit : 2 ≤ limit) :
    ∃ s', Path (step limit) atMostTwo s s' ∧ s'.point 0 = .running ∧ s'.alive = {n + 1, 0} ∧
      s'.lastThreadId = BitVec.ofNat 32 (n + 2) ∧ s'.terminated = false ∧
      (∀ u, n + 1 < u → s'.point u = .unborn) ∧ s'.point (n + 1) = .check .lpStartRoutine ∧
      s'.curThreadId (n + 1) = BitVec.ofNat 32 (n + 1) := by
  have hcard : s.alive.card = 1 := by rw [h.alive]; rfl
  have hcreate : Effect limit s (.create 0 (n + 1)) _ :=
    .created h.point (h.unborn (n + 1) (by omega)) (by omega)
  have hnumber : Effect limit
      { s.goto (n + 1) (.fetch .lpStartRoutine) with alive := insert (n + 1) s.alive }
      (.access (n + 1)) _ := .numbered (f := .lpStartRoutine) (by simp)
  refine ⟨_, (Path.single _ ?_ (hcreate.step h.running)).extend _ ?_
    (hnumber.step (by simpa using h.running)), ?_⟩
  · simp [atMostTwo, hcard]
  · simp only [atMostTwo, h.alive]
    exact Finset.card_le_two
  · refine ⟨by simpa using h.point, by simp [h.alive], ?_, by simpa using h.running, ?_,
      by simp, ?_⟩
    · simp [h.last, ← BitVec.ofNat_add]
    · intro u hu
      simpa [show u ≠ n + 1 by omega] using h.unborn u (by omega)
    · simp [h.last]

/-- The thread passes the comparison, runs and is gone. -/
theorem Served.round {n : ℕ} {s : Process ℕ} (h : Served n s) (hlimit : 2 ≤ limit)
    (hn : n + 1 < 2048) : ∃ s', Path (step limit) atMostTwo s s' ∧ Served (n + 1) s' := by
  obtain ⟨s₁, hpath, hmain, halive, hlast, hrunning, hunborn, hcheck, hid⟩ := h.create hlimit
  have hfew : s₁.alive.card ≤ 2 := halive ▸ Finset.card_le_two
  have hlt : s₁.curThreadId (n + 1) < maxThreads := by
    rw [hid, BitVec.lt_def, BitVec.toNat_ofNat, Nat.mod_eq_of_lt (by omega)]
    exact hn
  have hpast : Effect limit s₁ (.access (n + 1)) (s₁.goto (n + 1) .start) :=
    .admitted hcheck hlt
  have hstart : Effect limit (s₁.goto (n + 1) .start) (.access (n + 1)) _ := .started (by simp)
  have hexit : Effect limit (((s₁.goto (n + 1) .start).setTls (n + 1)
      (htllThreadStart ((s₁.goto (n + 1) .start).tls (n + 1)))).goto (n + 1) .running)
      (.exit (n + 1)) _ := .exited (by simp)
  refine ⟨_, ((hpath.extend _ hfew (hpast.step hrunning)).extend _ hfew
    (hstart.step hrunning)).extend _ hfew (hexit.step hrunning), ?_⟩
  refine ⟨by simpa using hmain, ?_, by simpa using hlast, by simpa using hrunning, ?_⟩
  · simp [halive]
  · intro u hu
    simpa [show u ≠ n + 1 by omega] using hunborn u (by omega)

/-- The main thread serves up to 2047 requests one after the other. -/
theorem served (hlimit : 2 ≤ limit) (n : ℕ) (hn : n < 2048) :
    ∃ s : Process ℕ, Path (step limit) atMostTwo (initial 0) s ∧ Served n s := by
  induction n with
  | zero =>
    have hnumber : Effect limit (initial 0) (.access 0)
        (((initial (0 : ℕ)).number 0).goto 0 (.check .interposeInit)) := .numbered rfl
    have hpast : Effect limit (((initial (0 : ℕ)).number 0).goto 0 (.check .interposeInit))
        (.access 0) _ := .admitted (f := .interposeInit) (by simp) (by simp [initial, maxThreads])
    have hfew : (initial (0 : ℕ)).alive.card ≤ 2 := by decide
    have hfirst : Path (step limit) atMostTwo (initial (0 : ℕ)) _ :=
      Path.single _ hfew (hnumber.step rfl)
    refine ⟨_, hfirst.extend _ hfew (hpast.step rfl), ?_⟩
    refine ⟨by simp [Entry.passed], rfl, rfl, rfl, fun u hu => ?_⟩
    simp [initial, Nat.pos_iff_ne_zero.mp hu]
  | succ n ih =>
    obtain ⟨s, hpath, hserved⟩ := ih (by omega)
    obtain ⟨s', hround, hserved'⟩ := hserved.round hlimit hn
    exact ⟨s', hpath.trans hround, hserved'⟩

/-- The 2048th request ends the process. -/
theorem served_last : ∃ s : Process ℕ,
    Path (step 4194304) atMostTwo (initial 0) s ∧ s.alive.card ≤ 2 ∧ s.terminated = true := by
  have hlimit : 2 ≤ 4194304 := by decide
  obtain ⟨s, hpath, hserved⟩ := served hlimit 2047 (by decide)
  obtain ⟨s', hcreate, -, halive, -, hrunning, -, hcheck, hid⟩ := hserved.create hlimit
  have hfew : s'.alive.card ≤ 2 := halive ▸ Finset.card_le_two
  have hrefuse : Effect 4194304 s' (.access 2048) { s' with terminated := true } :=
    .refused hcheck (by rw [hid]; decide)
  have hbefore : Path (step 4194304) atMostTwo (initial 0) s' := hpath.trans hcreate
  exact ⟨_, hbefore.extend _ hfew (hrefuse.step hrunning), hfew, rfl⟩

/-- More than `MAX_THREADS` threads have taken a number by then. -/
theorem thread_ids_distinct_served : ∃ s : Process ℕ, s.terminated = true ∧ s.alive.card ≤ 2 ∧
    s.issued.Nodup ∧ 2048 < s.issued.length := by
  obtain ⟨s, hpath, hfew, hterminated⟩ := served_last
  obtain ⟨-, -, hlimit⟩ := thread_ids_distinct (by decide) (hpath.mono fun _ _ _ => trivial)
  obtain ⟨hnodup, -, hlength⟩ := hlimit hterminated
  exact ⟨s, hterminated, hfew, hnodup, hlength⟩

/-- A main thread that starts one short-lived thread after the other loses the whole process,
although never more than two threads are alive. -/
theorem limit_counts_past_threads :
    ¬∀ visited (s : Process ℕ), Run (step 4194304) anyStep (initial 0) visited s →
      s.terminated = true → ∃ s' ∈ visited, maxThreads.toNat < s'.alive.card := by
  intro hclaim
  obtain ⟨s, hpath, hfew, hterminated⟩ := served_last
  obtain ⟨visited, hrun⟩ := hpath.exists_run
  have hall : ∀ s ∈ visited, s.alive.card ≤ 2 := hrun.of_guard (fun _ _ h => h) hfew
  obtain ⟨s', hs', hmany⟩ := hclaim visited s (hrun.mono fun _ _ _ => trivial) hterminated
  exact absurd (lt_of_lt_of_le hmany (hall s' hs')) (by decide)

end Process

end Htll
