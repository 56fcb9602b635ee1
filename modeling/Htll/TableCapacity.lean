import Mathlib.Data.Fintype.Card
import Htll.TableEffect

/-!
# When the table is full

`pthread_mutex_destroy` and `pthread_rwlock_destroy` remove nothing from the table, and an
initialisation takes a slot of its own also for an address that has one. What uses up a bucket is
therefore not the live locks but all the objects that were ever created for it. A call can fail in
`hash_put` only after more objects were created for its bucket than the bucket has slots, whatever
the threads do and wherever `memset` runs.
-/

namespace Htll

open Transition

namespace TableState

variable {T : Type*} [DecidableEq T] {s s' : TableState T} {t : T}

/-- A thread is trying to claim a slot of a bucket. -/
def ScansBucket (s : TableState T) (b : Fin bucketSize) (t : T) : Prop :=
  ∃ a i, (s.point t).scans = some (a, i) ∧ a.bucket = b

/-- Every object that was created for a bucket has claimed at most one slot of it, or is on the
way to the first one; `used` are the slots that were ever claimed. -/
structure Within (s : TableState T) (used : Fin bucketSize → Finset (Fin bucketLength)) : Prop where
  occupied : ∀ b i, (s.table b i).key ≠ 0 → i ∈ used b
  passed : ∀ t a i, (s.point t).scans = some (a, i) → ∀ j < i, j ∈ used a.bucket
  counted : ∀ b (threads : Finset T), (∀ t ∈ threads, s.ScansBucket b t) →
    (used b).card + threads.card ≤ s.created b
  failed : ∀ a, s.Failed a → bucketLength < s.created a.bucket
  exited : s.exited = some .tableFull → ∃ a, s.Failed a

variable {used : Fin bucketSize → Finset (Fin bucketLength)}

omit [DecidableEq T] in
/-- A thread that leaves `hash_put` or was not there does not matter. -/
theorem Within.of_leave (h : Within s used)
    (hkey : ∀ b i, (s'.table b i).key ≠ 0 → (s.table b i).key ≠ 0)
    (hpoint : ∀ u, u ≠ t → s'.point u = s.point u) (hscans : (s'.point t).scans = none)
    (hcreated : s'.created = s.created) (hfailed : ∀ a, s'.Failed a ↔ s.Failed a)
    (hexited : s'.exited = s.exited) : Within s' used := by
  have hother : ∀ u a i, (s'.point u).scans = some (a, i) → (s.point u).scans = some (a, i) := by
    intro u a i hu
    have hut : u ≠ t := by
      rintro rfl
      rw [hscans] at hu
      cases hu
    rwa [hpoint u hut] at hu
  refine ⟨fun b i hi => h.occupied b i (hkey b i hi), fun u a i hu => ?_, fun b threads hb => ?_,
    fun a ha => ?_, fun hfull => ?_⟩
  · exact h.passed u a i (hother u a i hu)
  · rw [hcreated]
    refine h.counted b threads fun u hu => ?_
    obtain ⟨a, i, hi, ha⟩ := hb u hu
    exact ⟨a, i, hother u a i hi, ha⟩
  · rw [hcreated]
    exact h.failed a ((hfailed a).mp ha)
  · rw [hexited] at hfull
    obtain ⟨a, ha⟩ := h.exited hfull
    exact ⟨a, (hfailed a).mpr ha⟩

omit [DecidableEq T] in
/-- A thread that finds the last slot of the bucket occupied has passed all of them, which takes
one creation each and its own. -/
theorem Within.full (h : Within s used) {a : Addr} {i : Fin bucketLength}
    (hscans : (s.point t).scans = some (a, i)) (hlast : nextSlot i = none)
    (hkey : (s.table a.bucket i).key ≠ 0) : bucketLength < s.created a.bucket := by
  have hall : used a.bucket = Finset.univ := by
    refine Finset.eq_univ_iff_forall.mpr fun j => ?_
    rcases (nextSlot_eq_none hlast j).lt_or_eq with hlt | heq
    · exact h.passed t a i hscans j hlt
    · exact h.occupied a.bucket j (heq ▸ hkey)
  have hcounted := h.counted a.bucket {t} fun u hu => by
    rw [Finset.mem_singleton.mp hu]
    exact ⟨a, i, hscans, rfl⟩
  rw [hall, Finset.card_univ, Fintype.card_fin, Finset.card_singleton] at hcounted
  exact hcounted

/-- A move aside claims nothing, and passes occupied slots only. -/
theorem Within.aside (h : Within s used) (haside : Aside t s s')
    (hscans : ∀ a i, (s'.point t).scans = some (a, i) → ∃ j,
      (s.point t).scans = some (a, j) ∧
        (j = i ∨ nextSlot j = some i ∧ (s.table a.bucket j).key ≠ 0))
    (hfailed : ∀ a, s'.Failed a → s.Failed a ∨ ∃ i,
      (s.point t).scans = some (a, i) ∧ nextSlot i = none ∧ (s.table a.bucket i).key ≠ 0)
    (hexited : s'.exited = some .tableFull →
      s.exited = some .tableFull ∨ ∃ a, s'.Failed a) : Within s' used where
  occupied := by
    rw [haside.table]
    exact h.occupied
  passed u a i hu k hk := by
    by_cases hut : u = t
    · subst hut
      obtain ⟨j, hj, heq | ⟨hnext, hkey⟩⟩ := hscans a i hu
      · exact h.passed u a j hj k (heq ▸ hk)
      · have hij := nextSlot_eq_some hnext
        rcases lt_or_eq_of_le (Nat.lt_succ_iff.mp (hij ▸ hk : (k : ℕ) < j + 1)) with hlt | heq
        · exact h.passed u a j hj k hlt
        · rw [Fin.ext heq]
          exact h.occupied a.bucket j hkey
    · rw [haside.point u hut] at hu
      exact h.passed u a i hu k hk
  counted b threads hb := by
    rw [haside.created]
    refine h.counted b threads fun u hu => ?_
    obtain ⟨a, i, hi, ha⟩ := hb u hu
    by_cases hut : u = t
    · subst hut
      obtain ⟨j, hj, -⟩ := hscans a i hi
      exact ⟨a, j, hj, ha⟩
    · rw [haside.point u hut] at hi
      exact ⟨a, i, hi, ha⟩
  failed a ha := by
    rw [haside.created]
    rcases hfailed a ha with hbefore | ⟨i, hi, hlast, hkey⟩
    · exact h.failed a hbefore
    · exact h.full hi hlast hkey
  exited hfull := by
    rcases hexited hfull with hbefore | hafter
    · obtain ⟨a, v, hv⟩ := h.exited hbefore
      exact ⟨a, v, haside.log.subset hv⟩
    · exact hafter

/-- A creation is counted when its put begins. -/
theorem Within.put (h : Within s used) {a : Addr} {v : LockObject} {w : Creation}
    (hpoint : s'.point = Function.update s.point t (.put a v w firstSlot))
    (htable : s'.table = s.table)
    (hcreated : s'.created = Function.update s.created a.bucket (s.created a.bucket + 1))
    (hlog : s'.log = s.log) (hexited : s'.exited = s.exited) : Within s' used := by
  have hother : ∀ u, u ≠ t → s'.point u = s.point u := fun u hu => by simp [hpoint, hu]
  have hself : (s'.point t).scans = some (a, firstSlot) := by
    rw [hpoint, Function.update_self]
    rfl
  have hmore : ∀ b, s.created b ≤ s'.created b := by
    intro b
    rw [hcreated, Function.update_apply]
    split
    · rename_i hb
      rw [hb]
      exact Nat.le_succ _
    · exact le_rfl
  refine ⟨by rw [htable]; exact h.occupied, fun u a' i hu k hk => ?_, fun b threads hb => ?_,
    fun a' ha' => ?_, fun hfull => ?_⟩
  · by_cases hut : u = t
    · rw [hut, hself] at hu
      cases hu
      exact absurd hk (Nat.not_lt_zero _)
    · rw [hother u hut] at hu
      exact h.passed u a' i hu k hk
  · have hrest := h.counted b (threads.erase t) fun u hu => by
      obtain ⟨hut, hmem⟩ := Finset.mem_erase.mp hu
      obtain ⟨a', i, hi, ha'⟩ := hb u hmem
      rw [hother u hut] at hi
      exact ⟨a', i, hi, ha'⟩
    by_cases hmem : t ∈ threads
    · obtain ⟨a', i, hi, ha'⟩ := hb t hmem
      rw [hself] at hi
      cases hi
      rw [← ha'] at hrest ⊢
      rw [hcreated, Function.update_self, ← Finset.card_erase_add_one hmem]
      omega
    · rw [Finset.erase_eq_of_notMem hmem] at hrest
      exact hrest.trans (hmore b)
  · obtain ⟨v', hv'⟩ := ha'
    rw [hlog] at hv'
    exact lt_of_lt_of_le (h.failed a' ⟨v', hv'⟩) (hmore _)
  · rw [hexited] at hfull
    obtain ⟨a', v', hv'⟩ := h.exited hfull
    exact ⟨a', v', by rwa [hlog]⟩

/-- A claimed slot is used from now on, by a thread that no longer looks for one. -/
theorem Within.claim (h : Within s used) {a : Addr} {v : LockObject} {w : Creation}
    {i : Fin bucketLength} (hp : s.point t = .cas a v w i) :
    Within ({ s with
      table := s.table.set a.bucket i { s.table a.bucket i with key := a.1 } }.goto t
        (.store a v w i)) (Function.update used a.bucket (insert i (used a.bucket))) := by
  have hgrow : ∀ b, used b ⊆ Function.update used a.bucket (insert i (used a.bucket)) b := by
    intro b
    rw [Function.update_apply]
    split
    · rename_i hb
      rw [hb]
      exact Finset.subset_insert _ _
    · exact Finset.Subset.refl _
  have hscans : ∀ u a' j, ((Function.update s.point t (.store a v w i)) u).scans = some (a', j) →
      u ≠ t ∧ (s.point u).scans = some (a', j) := by
    intro u a' j hu
    have hut : u ≠ t := by
      rintro rfl
      rw [Function.update_self] at hu
      cases hu
    rw [Function.update_of_ne hut] at hu
    exact ⟨hut, hu⟩
  refine ⟨fun b j hj => ?_, fun u a' j hu k hk => ?_, fun b threads hb => ?_, h.failed, h.exited⟩
  · rcases s.table.set_cases a.bucket i { s.table a.bucket i with key := a.1 } b j with
      ⟨rfl, rfl, -⟩ | ⟨-, heq⟩
    · rw [Function.update_self]
      exact Finset.mem_insert_self _ _
    · simp only [goto_table, heq] at hj
      exact hgrow b (h.occupied b j hj)
  · exact hgrow _ (h.passed u a' j (hscans u a' j hu).2 k hk)
  · have hfree : t ∉ threads := by
      intro hmem
      obtain ⟨a', j, hj, -⟩ := hb t hmem
      exact (hscans t a' j hj).1 rfl
    have hbefore : ∀ u ∈ threads, s.ScansBucket b u := by
      intro u hu
      obtain ⟨a', j, hj, ha'⟩ := hb u hu
      exact ⟨a', j, (hscans u a' j hj).2, ha'⟩
    by_cases hbucket : b = a.bucket
    · subst hbucket
      have hcounted := h.counted a.bucket (insert t threads) fun u hu => by
        rcases Finset.mem_insert.mp hu with rfl | hu
        · exact ⟨a, i, by rw [hp]; rfl, rfl⟩
        · exact hbefore u hu
      rw [Finset.card_insert_of_notMem hfree] at hcounted
      have hcard := Finset.card_insert_le i (used a.bucket)
      simp only [Function.update_self, goto_created]
      omega
    · rw [Function.update_of_ne hbucket]
      exact h.counted b threads hbefore

/-- Every action keeps the count. -/
theorem Within.of_effect (h : Within s used) (heffect : Effect t s s') :
    ∃ used', Within s' used' := by
  cases heffect with
  | aside haside _ hscans hfailed hexited => exact ⟨used, h.aside haside hscans hfailed hexited⟩
  | put a v w hpoint htable _ hcreated _ _ _ _ hlog hexited =>
    exact ⟨used, h.put hpoint htable hcreated hlog hexited⟩
  | claim a v w i hp _ hs =>
    subst hs
    exact ⟨_, h.claim hp⟩
  | store a v w i _ hs =>
    subst hs
    have haside := aside_stored { s with
      table := s.table.set a.bucket i { s.table a.bucket i with value := some v }
      associated := Function.update s.associated a (v :: s.associated a) } t a v w
    refine ⟨used, h.of_leave (fun b j hj => ?_) haside.point ?_ haside.created failed_stored
      stored_exited⟩
    · rw [haside.table] at hj
      rcases s.table.set_cases a.bucket i { s.table a.bucket i with value := some v } b j with
        ⟨rfl, rfl, heq⟩ | ⟨-, heq⟩
      · simpa only [heq] using hj
      · simpa only [heq] using hj
    · cases w with
      | hashPut | init => simp [stored, TablePoint.scans]
      | use p => cases p <;> simp [stored, located, TablePoint.scans]
  | take a o p _ _ hs =>
    subst hs
    exact ⟨used, h.of_leave (fun _ _ => id) (aside_goto _ t _).point (by simp [TablePoint.scans])
      rfl (fun _ => Iff.rfl) rfl⟩
  | release a o p _ hs =>
    subst hs
    exact ⟨used, h.of_leave (fun _ _ => id) (aside_goto _ t _).point (by simp [TablePoint.scans])
      rfl (fun a' => failed_note (e := .unlocked a o) (by simp) a') rfl⟩
  | clear table q htable _ hscans hs =>
    subst hs
    refine ⟨used, h.of_leave (fun b i hi => ?_) (aside_goto _ t _).point (by simpa using hscans)
      rfl (fun _ => Iff.rfl) rfl⟩
    rcases htable b i with heq | heq
    · simpa only [goto_table, heq] using hi
    · simp only [goto_table, heq] at hi
      exact absurd rfl hi

/-- In every run the count is kept. -/
theorem within_of_path {guard : TableState T → TableAction T → Prop}
    (hpath : Path step guard initial s) : ∃ used, Within s used := by
  refine Path.invariant (fun s => ∃ used, Within s used) (fun _ _ _ _ hs h => ?_) hpath ?_
  · obtain ⟨used, h⟩ := h
    obtain ⟨t, heffect⟩ := step_effect hs
    exact h.of_effect heffect
  · refine ⟨fun _ => ∅, fun _ _ hi => absurd rfl hi, by simp [initial, TablePoint.scans],
      fun b threads hb => ?_, by simp [initial, Failed], by simp [initial]⟩
    have hnobody : threads = ∅ := by
      refine Finset.eq_empty_iff_forall_notMem.mpr fun u hu => ?_
      obtain ⟨a, i, hi, -⟩ := hb u hu
      cases hi
    rw [hnobody]
    exact le_rfl

/-! ## Live locks -/

/-- Runs of calls that initialise, destroy, lock and unlock. -/
def lockCalls (_ : TableState T) : TableAction T → Bool
  | .call _ (.init _) | .call _ (.rwlockInit _) | .call _ (.destroy _) | .call _ (.lock _)
  | .call _ (.unlock _) | .access _ | .clear _ _ _ => true
  | .call _ _ => false

/-- A bucket has at most as many live addresses as slots. -/
def FewLive (s : TableState T) : Prop :=
  ∀ b, (s.live.filter fun a => a.bucket = b).length ≤ bucketLength

omit [DecidableEq T] in
/-- One live address is few. -/
theorem FewLive.of_one (h : s.live.length ≤ 1) : s.FewLive := fun _ =>
  (List.length_filter_le _ _).trans (h.trans (by decide))

/-- An address with bit 13 set is not `NULL`. -/
theorem setBit_ne_zero (x : BitVec 64) : 0x2000 ||| x ≠ 0 := by
  intro h
  have hbit := congrArg (·.getLsbD 13) h
  simp at hbit

/-- Mutexes `0x10000000000` bytes apart, which have one bucket. -/
def distantMutex (k : ℕ) : Addr :=
  ⟨0x2000 ||| BitVec.ofNat 64 (0x10000000000 * k), setBit_ne_zero _⟩

/-- Mutexes are initialised and destroyed one after the other. -/
def lifeCycles (n : ℕ) : List (TableAction Unit) :=
  (List.range n).flatMap fun k =>
    .call () (.init (distantMutex k)) :: List.replicate (k + 4) (.access ()) ++
      [.call () (.destroy (distantMutex k))]

/-- Different mutexes of one bucket, each destroyed before the next one is initialised, fill it; the
eleventh initialisation terminates the process. -/
theorem table_full_with_one_live_mutex : ∃ s : TableState Unit,
    Path step (fun s x => lockCalls s x = true ∧ s.FewLive) initial s ∧ s.FewLive ∧
      s.exited = some .tableFull := by
  obtain ⟨s, hpath, hlive, hexited⟩ := exists_path_of_execute (step (T := Unit))
    (fun s x => lockCalls s x = true ∧ s.live.length ≤ 1)
    (lifeCycles bucketLength ++
      .call () (.init (distantMutex bucketLength)) ::
        List.replicate (bucketLength + 1) (.access ()))
    initial (fun s => s.live.length ≤ 1 ∧ s.exited = some .tableFull) (by decide +kernel)
  exact ⟨s, hpath.mono fun _ _ h => ⟨h.1, .of_one h.2⟩, .of_one hlive, hexited⟩

/-- A `hash_put` fails, and the process is terminated with `Hash Table FULL`, only after more
objects were created for the addresses of one bucket than it has slots, destroyed or not. -/
theorem table_full_only_after_creations (hpath : Path step anyStep initial s) :
    (∀ a v, .put a v (-1) ∈ s.log → bucketLength < s.created a.bucket) ∧
      (s.exited = some .tableFull → ∃ a : Addr, bucketLength < s.created a.bucket) := by
  obtain ⟨used, h⟩ := within_of_path hpath
  refine ⟨fun a v hv => h.failed a ⟨v, hv⟩, fun hexited => ?_⟩
  obtain ⟨a, ha⟩ := h.exited hexited
  exact ⟨a, h.failed a ha⟩

/-- Ten life cycles in one bucket are served. -/
theorem table_full_only_after_creations_ten : ∃ s : TableState Unit,
    s.created (distantMutex 0).bucket = bucketLength ∧
      ∀ v, .put (distantMutex 0) v (-1) ∉ s.log := by
  obtain ⟨s, hpath, hcreated⟩ := exists_path_of_execute (step (T := Unit)) anyStep
    (lifeCycles bucketLength) initial
    (fun s => s.created (distantMutex 0).bucket = bucketLength) (by decide +kernel)
  refine ⟨s, hcreated, fun v hv => ?_⟩
  have hmore := (table_full_only_after_creations hpath).1 (distantMutex 0) v hv
  exact absurd hcreated hmore.ne'

end TableState

end Htll
