import Htll.BenchInvariant

/-!
# What the benchmark prints while its threads run

`main` reads every count three times after `global_stop` is set: for `total_cnt`, into `cur`, and
to print it. A thread may still count one more request, and it records a latency after it has
counted the request. So the readings of a count grow by at most one, and the last latency that is
printed for a thread may not be recorded yet. What follows has the number of requests that may come
too late as a parameter: it is 0 for threads that have returned.
-/

namespace Htll

open Text Transition

/-- What `main` has read: the counts of the threads each of the three times, and the latencies. -/
structure Readings where
  seen : ℕ → ℕ := fun _ => 0
  cur : ℕ → ℕ := fun _ => 0
  header : ℕ → ℕ := fun _ => 0
  printed : ℕ → ℕ → BitVec 64 := fun _ _ => 0

/-- The thread whose count or latency `main` reads next, after the sum. -/
def MainPoint.reads : MainPoint → Option ℕ
  | .cur i | .header i _ | .latency i _ _ => some i
  | .create _ | .arrive | .barrier | .stop | .destroy | .sum .. | .throughput _ | .returned => none

namespace Readings

variable {o : BenchOptions} {n i : ℕ} {r r' : Readings}

/-- A count is read for the sum. -/
@[simps] def readSeen (r : Readings) (i c : ℕ) : Readings :=
  { r with seen := Function.update r.seen i c }

/-- A count is read into `cur`. -/
@[simps] def readCur (r : Readings) (i c : ℕ) : Readings :=
  { r with cur := Function.update r.cur i c }

/-- A count is read to be printed. -/
@[simps] def readHeader (r : Readings) (i c : ℕ) : Readings :=
  { r with header := Function.update r.header i c }

/-- A latency is read. -/
@[simps] def readLatency (r : Readings) (i j : ℕ) (x : BitVec 64) : Readings :=
  { r with printed := Function.update r.printed i (Function.update (r.printed i) j x) }

/-- The lines of a thread. -/
def part (r : Readings) (i : ℕ) : List Line :=
  coreLine i (r.header i) :: (List.range (r.cur i)).map fun j => latencyLine (r.printed i j)

/-- The output up to the lines of the first threads. -/
def lines (r : Readings) (o : BenchOptions) (n i : ℕ) : List Line :=
  spinLine o.spinCnt o.parkCnt o.wakeCnt ::
    o.throughput (BitVec.ofNat 64 (∑ k ∈ Finset.range n, r.seen k)) :: (List.range i).flatMap r.part

/-- The lines of one more thread. -/
theorem lines_succ : r.lines o n (i + 1) = r.lines o n i ++ r.part i := by
  simp [lines, List.range_succ]

/-- Readings of later threads do not show yet. -/
theorem lines_congr (hseen : r'.seen = r.seen) (h : ∀ k < i, r'.part k = r.part k) :
    r'.lines o n i = r.lines o n i := by
  have hparts : (List.range i).flatMap r'.part = (List.range i).flatMap r.part :=
    List.flatMap_congr fun k hk => h k (List.mem_range.mp hk)
  rw [lines, lines, hparts, hseen]

/-- One more count in the sum. -/
theorem sum_readSeen (c : ℕ) : ∑ k ∈ Finset.range (i + 1), (r.readSeen i c).seen k =
    ∑ k ∈ Finset.range i, r.seen k + c := by
  have hbefore : ∑ k ∈ Finset.range i, (r.readSeen i c).seen k = ∑ k ∈ Finset.range i, r.seen k :=
    Finset.sum_congr rfl fun k hk => Function.update_of_ne (Finset.mem_range.mp hk).ne _ _
  rw [Finset.sum_range_succ, hbefore, readSeen_seen, Function.update_self]

theorem lines_readCur (c : ℕ) : (r.readCur i c).lines o n i = r.lines o n i :=
  lines_congr rfl fun k hk => by simp only [part, readCur, Function.update_of_ne hk.ne]

theorem lines_readHeader (c : ℕ) : (r.readHeader i c).lines o n i = r.lines o n i :=
  lines_congr rfl fun k hk => by simp only [part, readHeader, Function.update_of_ne hk.ne]

theorem lines_readLatency (j : ℕ) (x : BitVec 64) :
    (r.readLatency i j x).lines o n i = r.lines o n i :=
  lines_congr rfl fun k hk => by simp only [part, readLatency, Function.update_of_ne hk.ne]

/-- The latencies that have been read, and one more. -/
theorem latencies_readLatency (j : ℕ) (x : BitVec 64) :
    (List.range (j + 1)).map (fun k => latencyLine ((r.readLatency i j x).printed i k)) =
      (List.range j).map (fun k => latencyLine (r.printed i k)) ++ [latencyLine x] := by
  have hbefore : (List.range j).map (fun k => latencyLine ((r.readLatency i j x).printed i k)) =
      (List.range j).map (fun k => latencyLine (r.printed i k)) :=
    List.map_congr_left fun k hk => by simp [(List.mem_range.mp hk).ne]
  rw [List.range_succ, List.map_append, hbefore]
  simp

end Readings

namespace BenchState

variable {n : ℕ} {o : BenchOptions} {s s' : BenchState n} {t u : Fin n} {clock : BitVec 64}
  {memory : Area → ℕ → BitVec 64} {r : Readings} {late c j : ℕ} {x : BitVec 64}

/-- A count of the thread that was read after `global_stop` was set. -/
def Reading (s : BenchState n) (late : ℕ) (t : Fin n) (c : ℕ) : Prop :=
  c ≤ (s.globalCnt t).toNat ∧ (s.globalCnt t).toNat + (s.role t).spare.toNat ≤ c + late

/-- A latency that was read: a recorded one, or the last of `c` before it was recorded. -/
def Shown (s : BenchState n) (late : ℕ) (t : Fin n) (c j : ℕ) (x : BitVec 64) : Prop :=
  j < (s.thread t).recordCnt ∧ x = (s.thread t).recordLatency j ∨ 0 < late ∧ j + 1 = c ∧ x = 0

/-- No more requests than that are between the reading of `global_stop` and the record. -/
def Settled (s : BenchState n) (late : ℕ) (t : Fin n) : Prop :=
  (s.role t).spare.toNat ≤ late ∧ (s.role t).hasCounted.toNat ≤ late

/-! ## The threads go on -/

/-- A thread has at most one request ahead once `global_stop` is set. -/
theorem Move.spare (h : s.ThreadSound o t) (hmove : Move o s t s') (hstop : s.globalStop = true) :
    (s'.globalCnt t).toNat + (s'.role t).spare.toNat ≤
      (s.globalCnt t).toNat + (s.role t).spare.toNat := by
  cases hmove with
  | goes x hrole =>
    rw [role_setThread_self, hrole]
    exact Nat.le_refl _
  | publishes hrole | arrives hrole | passes hrole | acquires hrole | releases hrole =>
    rw [hrole, role, BenchState.goto, setThread_thread, Function.update_self]
    exact Nat.le_refl _
  | begins hrole hgo =>
    rw [hstop] at hgo
    cases hgo
  | counts cnt hpoint =>
    have hbefore : (s.role t).spare = true := by rw [role, hpoint]; rfl
    have hafter : ({ s.goto t (o.round (o.area t) 0) with
        globalCnt := Function.update s.globalCnt t (cnt + 1) } : BenchState n).role t =
          (o.round (o.area t) 0).role := role_goto _
    rw [hbefore, hafter, spare_round]
    exact (h.toNat_update hpoint).le
  | storesTwo i v hpoint =>
    have hafter : ((s.write (o.area t) (8 * i + 2) (v + 1)).goto t (.touch i .loadTwo)).role t =
        .touching i := role_goto _
    rw [hafter]
    exact Nat.le_add_right _ _
  | storesSeven i v hpoint =>
    have hafter : ((s.write (o.area t) (8 * i + 7) (v + 1)).goto t
        (o.round (o.area t) (i + 1))).role t = (o.round (o.area t) (i + 1)).role := role_goto _
    rw [hafter, spare_round]
    exact Nat.le_add_right _ _
  | records latency hrole hlt =>
    rw [hrole, role_setThread_self]
    exact Nat.le_refl _
  | overruns => exact Nat.le_refl _

/-- A reading is still one after a move. -/
theorem Reading.move (h : s.Reading late u c) (ht : s.ThreadSound o t) (hstop : s.globalStop = true)
    (hmove : Move o s t s') : s'.Reading late u c := by
  refine ⟨h.1.trans (hmove.globalCnt_le ht u), ?_⟩
  by_cases hu : u = t
  · subst hu
    exact (hmove.spare ht hstop).trans h.2
  · obtain ⟨hthread, hcnt, -⟩ := hmove.other hu
    rw [role, hthread, hcnt]
    exact h.2

/-- Recorded latencies stay. -/
theorem Move.records_keep (hmove : Move o s t s') (u : Fin n) :
    (s.thread u).recordCnt ≤ (s'.thread u).recordCnt ∧ ∀ j < (s.thread u).recordCnt,
      (s'.thread u).recordLatency j = (s.thread u).recordLatency j := by
  by_cases hu : u = t
  · subst hu
    cases hmove with
    | goes x hrole hcurrent hcnt hlatency =>
      rw [setThread_thread, Function.update_self, hcnt, hlatency]
      exact ⟨Nat.le_refl _, fun _ _ => rfl⟩
    | records latency hrole hlt =>
      rw [setThread_thread, Function.update_self]
      exact ⟨Nat.le_succ _, fun j hj => Function.update_of_ne hj.ne _ _⟩
    | overruns => exact ⟨Nat.le_refl _, fun _ _ => rfl⟩
    | _ => simp [BenchState.goto, write]
  · rw [(hmove.other hu).1]
    exact ⟨Nat.le_refl _, fun _ _ => rfl⟩

/-- What was shown still is. -/
theorem Shown.move (h : s.Shown late u c j x) (hmove : Move o s t s') : s'.Shown late u c j x := by
  obtain ⟨hle, hkeep⟩ := hmove.records_keep u
  rcases h with ⟨hj, hx⟩ | hlast
  · exact Or.inl ⟨hj.trans_le hle, hx.trans (hkeep j hj).symm⟩
  · exact Or.inr hlast

/-- The readings are what they should be: of the first threads in the sum, of the first threads in
`cur`, and of those whose line is printed, with so many latencies of each. -/
structure Follows (s : BenchState n) (late : ℕ) (r : Readings) (sums curs headers : ℕ)
    (shown : ℕ → ℕ) : Prop where
  seen : ∀ t : Fin n, t < sums → s.Reading 1 t (r.seen t)
  cur : ∀ t : Fin n, t < curs → s.Reading late t (r.cur t) ∧ r.seen t ≤ r.cur t
  header : ∀ t : Fin n, t < headers → s.Reading late t (r.header t) ∧ r.cur t ≤ r.header t
  shown : ∀ t : Fin n, t < headers → ∀ j < shown t, s.Shown late t (r.cur t) j (r.printed t j)

/-- They still are after a move of a thread. -/
theorem Follows.move {sums curs headers : ℕ} {shown : ℕ → ℕ}
    (h : s.Follows late r sums curs headers shown) (ht : s.ThreadSound o t)
    (hstop : s.globalStop = true) (hmove : Move o s t s') :
    s'.Follows late r sums curs headers shown where
  seen u hu := (h.seen u hu).move ht hstop hmove
  cur u hu := ⟨(h.cur u hu).1.move ht hstop hmove, (h.cur u hu).2⟩
  header u hu := ⟨(h.header u hu).1.move ht hstop hmove, (h.header u hu).2⟩
  shown u hu j hj := (h.shown u hu j hj).move hmove

/-- They still are when `main` goes on. -/
theorem Follows.goes {sums curs headers : ℕ} {shown : ℕ → ℕ}
    (h : s.Follows late r sums curs headers shown) (m : MainPoint) (out : List Line) :
    ({ s with main := m, output := out } : BenchState n).Follows late r sums curs headers shown :=
  ⟨h.seen, h.cur, h.header, h.shown⟩

/-- What `main` has read and printed at its program point. -/
def Progress (o : BenchOptions) (s : BenchState n) (late : ℕ) (r : Readings) : MainPoint → Prop
  | .create _ | .arrive | .barrier | .stop | .destroy => s.output = []
  | .sum i total =>
    i ≤ n ∧ total = BitVec.ofNat 64 (∑ k ∈ Finset.range i, r.seen k) ∧
      s.output = [spinLine o.spinCnt o.parkCnt o.wakeCnt] ∧ s.Follows late r i 0 0 r.cur
  | .throughput total =>
    total = BitVec.ofNat 64 (∑ k ∈ Finset.range n, r.seen k) ∧
      s.output = [spinLine o.spinCnt o.parkCnt o.wakeCnt] ∧ s.Follows late r n 0 0 r.cur
  | .cur i => i ≤ n ∧ s.output = r.lines o n i ∧ s.Follows late r n i i r.cur
  | .header i c =>
    i < n ∧ c = r.cur i ∧ s.output = r.lines o n i ∧ s.Follows late r n (i + 1) i r.cur
  | .latency i c j =>
    i < n ∧ c = r.cur i ∧ j ≤ r.cur i ∧
      s.output = r.lines o n i ++ coreLine i (r.header i) ::
        (List.range j).map (fun k => latencyLine (r.printed i k)) ∧
      s.Follows late r n (i + 1) (i + 1) (Function.update r.cur i j)
  | .returned => s.output = r.lines o n n ∧ s.Follows late r n n n r.cur

/-- A move of a thread leaves that as it is. -/
theorem Progress.move (h : s.Progress o late r s.main) (hsound : s.Sound o memory)
    (hmove : Move o s t s') : s'.Progress o late r s'.main := by
  obtain ⟨hmain, -, hout⟩ := hmove.main
  have ht := hsound.thread t
  have hstopped := hsound.stopped
  rw [hmain]
  cases hp : s.main with
  | create | arrive | barrier | stop | destroy =>
    rw [hp] at h
    exact hout.trans h
  | sum i total =>
    rw [hp] at h hstopped
    exact ⟨h.1, h.2.1, hout.trans h.2.2.1, h.2.2.2.move ht hstopped hmove⟩
  | throughput total =>
    rw [hp] at h hstopped
    exact ⟨h.1, hout.trans h.2.1, h.2.2.move ht hstopped hmove⟩
  | cur i =>
    rw [hp] at h hstopped
    exact ⟨h.1, hout.trans h.2.1, h.2.2.move ht hstopped hmove⟩
  | header i c =>
    rw [hp] at h hstopped
    exact ⟨h.1, h.2.1, hout.trans h.2.2.1, h.2.2.2.move ht hstopped hmove⟩
  | latency i c j =>
    rw [hp] at h hstopped
    exact ⟨h.1, h.2.1, h.2.2.1, hout.trans h.2.2.2.1, h.2.2.2.2.move ht hstopped hmove⟩
  | returned =>
    rw [hp] at h hstopped
    exact ⟨hout.trans h.1, h.2.move ht hstopped hmove⟩

/-! ## `main` goes on -/

/-- A count that is read is a reading. -/
theorem reading_self (h : (s.role t).spare.toNat ≤ late) :
    s.Reading late t (s.globalCnt t).toNat :=
  ⟨Nat.le_refl _, Nat.add_le_add_left h _⟩

/-- One of the first threads is the last of them or one of those before. -/
theorem lt_succ_cases {i : ℕ} (hi : i < n) {t : Fin n} (ht : (t : ℕ) < i + 1) :
    (t : ℕ) < i ∨ t = ⟨i, hi⟩ := by
  rcases Nat.lt_succ_iff_lt_or_eq.mp ht with hlt | heq
  · exact Or.inl hlt
  · exact Or.inr (Fin.ext heq)

/-- A latency is printed after it is recorded, but for the last one. -/
theorem shown_self (h : s.ThreadSound o t) (hsettled : (s.role t).hasCounted.toNat ≤ late)
    (hc : s.Reading late t c) (hj : j < c) : s.Shown late t c j ((s.thread t).recordLatency j) := by
  have hcounted := h.counted
  have hle := Bool.toNat_le (s.role t).hasCounted
  have hcnt := hc.1
  by_cases hrecorded : j < (s.thread t).recordCnt
  · exact Or.inl ⟨hrecorded, rfl⟩
  · exact Or.inr ⟨by omega, by omega, h.unrecorded j (Nat.le_of_not_lt hrecorded)⟩

/-- `main` adds a count to the sum. -/
theorem Follows.sum {i : ℕ} (h : s.Follows late r i 0 0 r.cur) (hi : i < n) :
    s.Follows late (r.readSeen i (s.globalCnt ⟨i, hi⟩).toNat) (i + 1) 0 0 r.cur where
  seen t ht := by
    rcases lt_succ_cases hi ht with hlt | rfl
    · simpa [hlt.ne] using h.seen t hlt
    · simpa using reading_self (s := s) (t := ⟨i, hi⟩) (Bool.toNat_le _)
  cur _ := nofun
  header _ := nofun
  shown _ := nofun

/-- `main` reads a count into `cur`. -/
theorem Follows.readsCur {i : ℕ} (h : s.Follows late r n i i r.cur) (hi : i < n)
    (hsettled : s.Settled late ⟨i, hi⟩) {c : ℕ} (hc : c = (s.globalCnt ⟨i, hi⟩).toNat) :
    s.Follows late (r.readCur i c) n (i + 1) i (r.readCur i c).cur where
  seen := h.seen
  cur t ht := by
    rcases lt_succ_cases hi ht with hlt | rfl
    · simpa [hlt.ne] using h.cur t hlt
    · have hseen := (h.seen ⟨i, hi⟩ hi).1
      subst hc
      simpa using ⟨reading_self hsettled.1, hseen⟩
  header t ht := by simpa [ht.ne] using h.header t ht
  shown t ht j hj := by
    simp only [Readings.readCur_cur, Function.update_of_ne ht.ne] at hj ⊢
    exact h.shown t ht j hj

/-- `main` reads a count to print it. -/
theorem Follows.readsHeader {i : ℕ} (h : s.Follows late r n (i + 1) i r.cur) (hi : i < n)
    (hsettled : s.Settled late ⟨i, hi⟩) {c : ℕ} (hc : c = (s.globalCnt ⟨i, hi⟩).toNat) :
    s.Follows late (r.readHeader i c) n (i + 1) (i + 1) (Function.update r.cur i 0) where
  seen := h.seen
  cur := h.cur
  header t ht := by
    rcases lt_succ_cases hi ht with hlt | rfl
    · simpa [hlt.ne] using h.header t hlt
    · have hcur := (h.cur ⟨i, hi⟩ (Nat.lt_succ_self i)).1.1
      subst hc
      simpa using ⟨reading_self hsettled.1, hcur⟩
  shown t ht j hj := by
    rcases lt_succ_cases hi ht with hlt | rfl
    · rw [Function.update_of_ne hlt.ne] at hj
      exact h.shown t hlt j hj
    · simp at hj

/-- `main` prints a latency. -/
theorem Follows.prints {i j : ℕ}
    (h : s.Follows late r n (i + 1) (i + 1) (Function.update r.cur i j)) (hi : i < n)
    (ht : s.ThreadSound o ⟨i, hi⟩) (hsettled : s.Settled late ⟨i, hi⟩)
    (hj : j < r.cur i) {x : BitVec 64}
    (hx : x = (s.thread ⟨i, hi⟩).recordLatency j) :
    s.Follows late (r.readLatency i j x) n (i + 1) (i + 1) (Function.update r.cur i (j + 1)) where
  seen := h.seen
  cur := h.cur
  header := h.header
  shown t hlt k hk := by
    rcases lt_succ_cases hi hlt with hlt' | rfl
    · rw [Function.update_of_ne hlt'.ne] at hk
      have hshown := h.shown t hlt k (by rwa [Function.update_of_ne hlt'.ne])
      simpa [hlt'.ne] using hshown
    · simp only [Readings.readLatency_printed, Readings.readLatency_cur,
        Function.update_self] at hk ⊢
      rcases Nat.lt_succ_iff_lt_or_eq.mp hk with hkj | rfl
      · rw [Function.update_of_ne hkj.ne]
        exact h.shown ⟨i, hi⟩ hlt k (by rwa [Function.update_self])
      · rw [Function.update_self, hx]
        exact shown_self ht hsettled.2 (h.cur ⟨i, hi⟩ hlt).1 hj

/-- `main` keeps to what it has read. -/
theorem Progress.main (h : s.Progress o late r s.main) (hsound : s.Sound o memory)
    (hsettled : ∀ i, s.main.reads = some i → ∀ hi : i < n, s.Settled late ⟨i, hi⟩)
    (hs : s.mainStep o = some s') (hrunning : s'.fault = false) :
    ∃ r', s'.Progress o late r' s'.main := by
  have hthread := hsound.thread
  unfold mainStep at hs
  split at hs
  case h_1 i hmain =>
    rw [hmain] at h
    split at hs <;> cases hs <;> exact ⟨r, h⟩
  case h_2 hmain | h_4 hmain =>
    rw [hmain] at h
    cases hs
    exact ⟨r, h⟩
  case h_3 hmain =>
    rw [hmain] at h
    obtain ⟨-, hs⟩ := Option.ite_none_right_eq_some.mp hs
    cases hs
    exact ⟨r, h⟩
  case h_5 hmain =>
    rw [hmain] at h
    cases hs
    have hout : s.output = [] := h
    exact ⟨r, Nat.zero_le n, rfl, by rw [hout]; rfl, nofun, nofun, nofun, nofun⟩
  case h_6 i total hmain =>
    rw [hmain] at h
    obtain ⟨hle, rfl, hout, hfollows⟩ := h
    split at hs <;> cases hs
    · rename_i hi
      refine ⟨r.readSeen i (s.globalCnt ⟨i, hi⟩).toNat, hi, ?_, hout,
        (hfollows.sum hi).goes _ _⟩
      rw [Readings.sum_readSeen, BitVec.ofNat_add, BitVec.ofNat_toNat, BitVec.setWidth_eq]
    · obtain rfl : i = n := by omega
      exact ⟨r, rfl, hout, hfollows.goes _ _⟩
  case h_7 total hmain =>
    rw [hmain] at h
    obtain ⟨rfl, hout, hfollows⟩ := h
    cases hs
    exact ⟨r, Nat.zero_le n, by rw [hout]; rfl, hfollows.seen, nofun, nofun, nofun⟩
  case h_8 i hmain =>
    rw [hmain] at h
    have hread := hmain ▸ hsettled
    obtain ⟨hle, hout, hfollows⟩ := h
    split at hs <;> cases hs
    · rename_i hi
      refine ⟨r.readCur i (s.globalCnt ⟨i, hi⟩).toNat, hi, ?_,
        hout.trans (Readings.lines_readCur _).symm,
        (hfollows.readsCur hi (hread i rfl hi) rfl).goes _ _⟩
      rw [Readings.readCur_cur, Function.update_self, (hthread ⟨i, hi⟩).toInt_cur]
    · obtain rfl : i = n := by omega
      exact ⟨r, hout, hfollows.goes _ _⟩
  case h_9 i count hmain =>
    rw [hmain] at h
    have hread := hmain ▸ hsettled
    obtain ⟨hi, hcount, hout, hfollows⟩ := h
    rw [dif_pos hi] at hs
    cases hs
    refine ⟨r.readHeader i (s.globalCnt ⟨i, hi⟩).toNat, hi, hcount, Nat.zero_le _, ?_,
      (hfollows.readsHeader hi (hread i rfl hi) rfl).goes _ _⟩
    rw [Readings.lines_readHeader, Readings.readHeader_header, Function.update_self, hout,
      (hthread ⟨i, hi⟩).toInt_globalCnt]
    rfl
  case h_10 i count j hmain =>
    rw [hmain] at h
    have hread := hmain ▸ hsettled
    obtain ⟨hi, hcount, hle, hout, hfollows⟩ := h
    rw [dif_pos hi] at hs
    split at hs
    · rename_i hlt
      have hj : j < r.cur i := by omega
      split at hs <;> cases hs
      · refine ⟨r.readLatency i j ((s.thread ⟨i, hi⟩).recordLatency j), hi, hcount, hj, ?_,
          (hfollows.prints hi (hthread _) (hread i rfl hi) hj rfl).goes _ _⟩
        rw [Readings.lines_readLatency, Readings.latencies_readLatency, hout]
        simp
      · cases hrunning
    · cases hs
      obtain rfl : j = r.cur i := by omega
      refine ⟨r, hi, ?_, ?_⟩
      · rw [hout, Readings.lines_succ]
        rfl
      · rw [Function.update_eq_self] at hfollows
        exact hfollows.goes _ _
  case h_11 => cases hs

/-! ## Whole runs -/

/-- `main` does not go on when it leaves an array. -/
theorem mainStep_fault (hs : s.mainStep o = some s') (hrunning : s.fault = false)
    (hfault : s'.fault = true) : s'.main = s.main := by
  -- every other branch leaves `fault` as it is
  have hkeeps : ∀ f : Bool, f = s.fault → f = true → s'.main = s.main := by
    intro f hf hset
    rw [hf, hrunning] at hset
    cases hset
  unfold mainStep at hs
  split at hs
  case h_10 =>
    split at hs
    · split at hs
      · split at hs <;> cases hs
        · exact hkeeps _ rfl hfault
        · rfl
      · cases hs
        exact hkeeps _ rfl hfault
    · cases hs
  case h_1 | h_6 | h_8 => split at hs <;> cases hs <;> exact hkeeps _ rfl hfault
  case h_3 =>
    obtain ⟨-, hs⟩ := Option.ite_none_right_eq_some.mp hs
    cases hs
    exact hkeeps _ rfl hfault
  case h_9 =>
    split at hs <;> cases hs
    exact hkeeps _ rfl hfault
  case h_11 => cases hs
  all_goals
    cases hs
    exact hkeeps _ rfl hfault

/-- In every run in which `main` reads of settled threads, it keeps to what it has read, or the
process has left an array. -/
theorem progress_of_path {guard : BenchState n → BenchAction n → Prop} (known : BenchState n → Prop)
    (hknown : ∀ s x s', guard s x → s.step o x = some s' → s.Sound o memory ∧ known s → known s')
    (hsettled : ∀ s : BenchState n, guard s .main → known s →
      ∀ i, s.main.reads = some i → ∀ hi : i < n, s.Settled late ⟨i, hi⟩)
    (hinit : known (initial memory)) (hpath : Path (step o) guard (initial memory) s) :
    s.fault = true ∧ s.main ≠ .returned ∨ ∃ r, s.Progress o late r s.main := by
  refine Path.invariant_of (fun s => s.Sound o memory ∧ known s)
    (fun s => s.fault = true ∧ s.main ≠ .returned ∨ ∃ r, s.Progress o late r s.main)
    (fun s x s' hguard hs h => ⟨h.1.step hs, hknown s x s' hguard hs h⟩)
    (fun s₁ x s₂ hguard hs hboth h => ?_) hpath ⟨sound_initial, hinit⟩ (Or.inr ⟨{}, rfl⟩)
  obtain ⟨hsound, hk⟩ := hboth
  obtain ⟨hends, hstep⟩ := Option.ite_none_left_eq_some.mp hs
  obtain ⟨hnofault, hrunning⟩ := not_or.mp hends
  have hbefore : s₁.fault = false := Bool.eq_false_of_not_eq_true hnofault
  obtain ⟨r, hr⟩ := h.resolve_left fun h => hnofault h.1
  cases x with
  | main =>
    cases hfault : s₂.fault with
    | false => exact Or.inr (hr.main hsound (hsettled s₁ hguard hk) hstep hfault)
    | true =>
      refine Or.inl ⟨rfl, ?_⟩
      rwa [mainStep_fault hstep hbefore hfault]
  | thread t clock =>
    have hmove := move_of_step (hsound.thread t).current hstep
    exact Or.inr ⟨r, hr.move hsound hmove⟩

/-- Whatever the threads do while `main` prints, the output has the format: the throughput of some
counts, and for every thread a count and as many latencies as an earlier reading of the count says.
The readings of a count are in order and at most one apart, and what is printed are the recorded
latencies, but the last one of a thread may be 0 when it is not recorded yet. -/
theorem printed_counts_and_latencies (hpath : Path (step o) anyStep (initial memory) s)
    (hmain : s.main = .returned) : ∃ r : Readings,
    s.output = spinLine o.spinCnt o.parkCnt o.wakeCnt ::
      o.throughput (BitVec.ofNat 64 (∑ i ∈ Finset.range n, r.seen i)) ::
      ((List.range n).flatMap fun i : ℕ => coreLine i (r.header i) ::
        (List.range (r.cur i)).map fun j => latencyLine (r.printed i j)) ∧
    ∀ t : Fin n, r.seen t ≤ r.cur t ∧ r.cur t ≤ r.header t ∧
      r.header t ≤ (s.globalCnt t).toNat ∧ (s.globalCnt t).toNat ≤ r.seen t + 1 ∧
      ∀ j < r.cur t,
        j < (s.thread t).recordCnt ∧ r.printed t j = (s.thread t).recordLatency j ∨
          j + 1 = r.cur t ∧ r.printed t j = 0 := by
  have hprogress : s.fault = true ∧ s.main ≠ .returned ∨ ∃ r, s.Progress o 1 r s.main :=
    progress_of_path (fun _ => True) (fun _ _ _ _ _ _ => trivial)
      (fun _ _ _ _ _ _ => ⟨Bool.toNat_le _, Bool.toNat_le _⟩) trivial hpath
  obtain ⟨r, hr⟩ := hprogress.resolve_left fun h => h.2 hmain
  rw [hmain] at hr
  obtain ⟨hout, hfollows⟩ := hr
  refine ⟨r, hout, fun t => ?_⟩
  have hseen := (hfollows.seen t t.isLt).2
  obtain ⟨-, hcur⟩ := hfollows.cur t t.isLt
  obtain ⟨hheader, hle⟩ := hfollows.header t t.isLt
  refine ⟨hcur, hle, hheader.1, by omega, fun j hj => ?_⟩
  exact (hfollows.shown t t.isLt j hj).imp_right And.right

/-- `main` prints the latency of the only request before it is recorded. -/
theorem printed_counts_and_latencies_early : ∃ (s : BenchState 1) (r : Readings),
    s.main = .returned ∧ (s.thread 0).recordCnt = 0 ∧
      s.output = [spinLine 0 0 0, [], coreLine 0 1, latencyLine 0] ∧
      r.cur 0 ≤ r.header 0 ∧ r.header 0 ≤ (s.globalCnt 0).toNat := by
  obtain ⟨s, hpath, hmain, hcnt, hout⟩ := exists_path_of_execute
    (step (n := 1) oneVariable) anyStep (oneRequest 0 ++ List.replicate 10 .main)
    (initial fun _ _ => 0)
    (fun s => s.main = .returned ∧ (s.thread 0).recordCnt = 0 ∧
      s.output = [spinLine 0 0 0, [], coreLine 0 1, latencyLine 0]) (by decide +kernel)
  obtain ⟨r, -, hr⟩ := printed_counts_and_latencies hpath hmain
  obtain ⟨-, hcur, hheader, -⟩ := hr 0
  exact ⟨s, r, hmain, hcnt, hout, hcur, hheader⟩

end BenchState

end Htll
