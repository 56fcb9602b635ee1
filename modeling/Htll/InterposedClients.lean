import Htll.InterposedProgress

/-!
# Clients that initialise before they share

A client that begins after the constructor, that initialises an address which nobody has touched,
and that uses an address only once it has its lock object or while nobody else touches it, never
makes two objects for one mutex. Every address of such a client is untouched, in the hands of the
one thread that is about to make its object, or complete.
-/

namespace Htll

open Transition
open TableState (staticMutex)

/-- The address that a thread has in hand. -/
def TablePoint.target : TablePoint → Option Addr
  | .get a _ _ | .value a _ _ | .result a _ _ | .create a _ | .put a _ _ _ | .cas a _ _ _
  | .store a _ _ _ | .operate a _ _ | .initCheck a => some a
  | .initCas rwlock | .initSpin rwlock | .initClear rwlock _ | .initThreadId rwlock
  | .initLoad rwlock | .initDone rwlock => rwlock
  | .outside => none

/-- The thread is in `hash_get`. -/
def TablePoint.searches : TablePoint → Bool
  | .get .. | .value .. | .result .. => true
  | _ => false

/-- What a thread puts is in its hand. -/
theorem TablePoint.target_of_puts {q : TablePoint} {a : Addr} (h : q.puts = some a) :
    q.target = some a := by
  cases q <;> first | exact h | cases h

namespace TableState

variable {T : Type*} {s s' : TableState T} {t : T} {a a' : Addr}

/-- The address has no slot and nobody has it in hand. -/
def Untouched (s : TableState T) (a : Addr) : Prop :=
  (∀ i, s.table.entry a i = none) ∧ ∀ u, (s.point u).target ≠ some a

instance [Fintype T] (s : TableState T) (a : Addr) : Decidable (s.Untouched a) :=
  inferInstanceAs (Decidable (_ ∧ _))

/-- What becomes of an address: untouched, in one hand before its slot is claimed, in one hand
until its value is stored, and then found by everybody. -/
inductive Tended (s : TableState T) (a : Addr) : Prop
  | untouched (h : s.Untouched a)
  | first (t : T) (hentry : ∀ i, s.table.entry a i = none)
      (htarget : (s.point t).target = some a)
      (hothers : ∀ u, u ≠ t → (s.point u).target ≠ some a)
  | storing (t : T) (v : LockObject) (w : Creation) (i : Fin bucketLength)
      (hpoint : s.point t = .store a v w i)
      (hothers : ∀ u, u ≠ t → (s.point u).target ≠ some a)
  | created (hassociated : s.associated a ≠ [])
      (hsearch : ∀ u, (s.point u).target = some a →
        (s.point u).searches = true ∧ s.known u ≠ [])

/-- A thread that is not in `hash_get` is the only one with its address in hand. -/
theorem Tended.alone (h : s.Tended a) (htarget : (s.point t).target = some a)
    (hsearches : (s.point t).searches = false) : ∀ u, u ≠ t → (s.point u).target ≠ some a := by
  cases h with
  | untouched h => exact absurd htarget (h.2 t)
  | first u _ _ hothers | storing u _ _ _ _ hothers =>
    obtain rfl : t = u := by
      by_contra hne
      exact hothers t hne htarget
    exact hothers
  | created _ hsearch =>
    rw [(hsearch t htarget).1] at hsearches
    cases hsearches

/-- A thread that is about to make an object for a tended address is the first. -/
theorem Tended.uncreated (h : s.Tended a) {w : Creation} (hp : s.point t = .create a w) :
    s.Uncreated a := by
  have htarget : (s.point t).target = some a := by rw [hp]; rfl
  have hothers := h.alone htarget (by rw [hp]; rfl)
  have hputs : ∀ u, (s.point u).puts ≠ some a := by
    intro u hu
    by_cases hut : u = t
    · rw [hut, hp] at hu
      cases hu
    · exact hothers u hut (TablePoint.target_of_puts hu)
  cases h with
  | untouched h => exact ⟨h.1, hputs⟩
  | first u hentry => exact ⟨hentry, hputs⟩
  | storing u v w i hpoint =>
    have hut : u ≠ t := by
      rintro rfl
      rw [hp] at hpoint
      cases hpoint
    exact absurd (by rw [hpoint]; rfl) (hothers u hut)
  | created _ hsearch =>
    have := (hsearch t htarget).1
    rw [hp] at this
    cases this

/-- A tended address that holds an object is complete. -/
theorem Tended.created_of_holds (h : s.Tended a) (hsound : Sound s a) {o : LockObject}
    (ho : s.table.Holds a o) : s.associated a ≠ [] ∧
      ∀ u, (s.point u).target = some a → (s.point u).searches = true ∧ s.known u ≠ [] := by
  obtain ⟨i, hi⟩ := ho
  cases h with
  | untouched h =>
    rw [h.1 i] at hi
    cases hi
  | first t hentry =>
    rw [hentry i] at hi
    cases hi
  | storing t v w j hpoint =>
    have hclaimed := hsound.slots.claimed t a v w j hpoint
    obtain rfl : i = j := hsound.entry.unique i j (by simp [hi]) (by simp [hclaimed])
    rw [hi] at hclaimed
    cases hclaimed
  | created hassociated hsearch => exact ⟨hassociated, hsearch⟩

/-- A move after which the thread has the same address in hand as before, of a thread that has not
claimed its slot. -/
theorem Tended.stay (h : s.Tended a) (hothers : ∀ u, u ≠ t → s'.point u = s.point u)
    (hknown : ∀ u, (s.point u).target = some a → s'.known u = s.known u)
    (hentry : s'.table.entry a = s.table.entry a)
    (hassociated : s'.associated a = s.associated a)
    (htarget : (s'.point t).target = some a ↔ (s.point t).target = some a)
    (hclaims : (s.point t).target = some a → (s.point t).claims = none)
    (hsearches : (s.point t).target = some a → s.known t ≠ [] → (s.point t).searches = true →
      (s'.point t).searches = true) : s'.Tended a := by
  have hsame : ∀ u, (s'.point u).target = some a ↔ (s.point u).target = some a := by
    intro u
    by_cases hu : u = t
    · exact hu ▸ htarget
    · rw [hothers u hu]
  cases h with
  | untouched h =>
    refine .untouched ⟨fun i => (congrFun hentry i).trans (h.1 i), fun u hu => ?_⟩
    exact h.2 u ((hsame u).mp hu)
  | first u hnone hu hrest =>
    exact .first u (fun i => (congrFun hentry i).trans (hnone i)) ((hsame u).mpr hu)
      fun w hw hwa => hrest w hw ((hsame w).mp hwa)
  | storing u v w i hpoint hrest =>
    refine .storing u v w i ?_ fun w hw hwa => hrest w hw ((hsame w).mp hwa)
    have hut : u ≠ t := by
      rintro rfl
      have hnone := hclaims (by rw [hpoint]; rfl)
      rw [hpoint] at hnone
      cases hnone
    rw [hothers u hut, hpoint]
  | created hne hsearch =>
    refine .created (by rwa [hassociated]) fun u hu => ?_
    obtain ⟨hsearching, hknows⟩ := hsearch u ((hsame u).mp hu)
    rw [hknown u ((hsame u).mp hu)]
    refine ⟨?_, hknows⟩
    by_cases hut : u = t
    · subst hut
      exact hsearches ((hsame u).mp hu) hknows hsearching
    · rwa [hothers u hut]

/-- A move of a thread that has other addresses in hand before and after. -/
theorem Tended.elsewhere (h : s.Tended a) (hothers : ∀ u, u ≠ t → s'.point u = s.point u)
    (hknown : ∀ u, u ≠ t → s'.known u = s.known u) (hentry : s'.table.entry a = s.table.entry a)
    (hassociated : s'.associated a = s.associated a) (hbefore : (s.point t).target ≠ some a)
    (hafter : (s'.point t).target ≠ some a) : s'.Tended a := by
  refine h.stay hothers (fun u hu => hknown u ?_) hentry hassociated (iff_of_false hafter hbefore)
    (fun htarget => absurd htarget hbefore) fun htarget => absurd htarget hbefore
  rintro rfl
  exact hbefore hu

/-- A thread that found the object lets go of a complete address. -/
theorem Tended.leave (h : s.Tended a) (hothers : ∀ u, u ≠ t → s'.point u = s.point u)
    (hknown : s'.known = s.known) (hassociated : s'.associated = s.associated)
    (htarget : (s.point t).target = some a) (hclaims : (s.point t).claims = none)
    {i : Fin bucketLength} (hentry : s.table.entry a i ≠ none)
    (hleft : (s'.point t).target = none) : s'.Tended a := by
  cases h with
  | untouched h => exact absurd (h.1 i) hentry
  | first u hnone => exact absurd (hnone i) hentry
  | storing u v w j hpoint hrest =>
    by_cases hut : u = t
    · rw [← hut, hpoint] at hclaims
      cases hclaims
    · exact absurd htarget (hrest t (Ne.symm hut))
  | created hne hsearch =>
    refine .created (by rwa [hassociated]) fun u hu => ?_
    have hut : u ≠ t := by
      rintro rfl
      rw [hleft] at hu
      cases hu
    rw [hothers u hut] at hu ⊢
    rw [hknown]
    exact hsearch u hu

variable [DecidableEq T]

/-- A thread goes to a point with the same address in hand, after a change of other fields. -/
theorem Tended.goto (h : s.Tended a) {s₁ : TableState T} {q : TablePoint}
    (hpoint : s₁.point = s.point) (hknown : s₁.known = s.known)
    (hentry : s₁.table.entry a = s.table.entry a) (hassociated : s₁.associated = s.associated)
    (htarget : q.target = (s.point t).target) (hclaims : (s.point t).claims = none)
    (hsearches : (s.point t).target = some a → s.known t ≠ [] → (s.point t).searches = true →
      q.searches = true) : (s₁.goto t q).Tended a := by
  refine h.stay (t := t) (fun u hu => ?_) (fun u _ => congrFun hknown u) hentry
    (congrFun hassociated a) ?_ (fun _ => hclaims) ?_
  · rw [goto_point, Function.update_of_ne hu, hpoint]
  · rw [goto_point, Function.update_self, htarget]
  · rwa [goto_point, Function.update_self]

/-- The same for a thread that is not in `hash_get`. -/
theorem Tended.advance (h : s.Tended a) {s₁ : TableState T} {q : TablePoint}
    (hsearches : (s.point t).searches = false) (hpoint : s₁.point = s.point)
    (hknown : s₁.known = s.known) (hentry : s₁.table.entry a = s.table.entry a)
    (hassociated : s₁.associated = s.associated) (htarget : q.target = (s.point t).target)
    (hclaims : (s.point t).claims = none) : (s₁.goto t q).Tended a := by
  refine h.goto hpoint hknown hentry hassociated htarget hclaims fun _ _ hsearching => ?_
  rw [hsearches] at hsearching
  cases hsearching

/-- `hash_get` found no matching key or value. -/
theorem Tended.missing (h : s.Tended a) {a' : Addr} (htarget : (s.point t).target = some a')
    (hclaims : (s.point t).claims = none) (hnone : a' = a → s.known t = []) :
    (s.missing t a' .htLockGet).Tended a :=
  h.goto rfl rfl rfl rfl htarget.symm hclaims fun ha hknown =>
    absurd (hnone (Option.some.inj (htarget.symm.trans ha))) hknown

/-- `hash_put` passes an occupied slot. -/
theorem Tended.tryNext (h : s.Tended a) {a' : Addr} {v : LockObject} {w : Creation}
    {i : Fin bucketLength} (hw : w = .init ∨ w = .use .htLockGet)
    (htarget : (s.point t).target = some a') (hclaims : (s.point t).claims = none)
    (hsearches : (s.point t).searches = false) : (s.tryNext t a' v w i).Tended a := by
  unfold TableState.tryNext
  split
  · exact h.advance hsearches rfl rfl rfl rfl htarget.symm hclaims
  · rcases hw with rfl | rfl <;>
      exact h.stay (t := t) (fun _ _ => rfl) (fun _ _ => rfl) rfl rfl Iff.rfl (fun _ => hclaims)
        fun _ _ => id

/-- `interpose_init` returns. -/
theorem Tended.initialised (h : s.Tended a) {s₁ : TableState T} {rwlock : Option Addr}
    (hsearches : (s.point t).searches = false) (hpoint : s₁.point = s.point)
    (hknown : s₁.known = s.known) (hentry : s₁.table.entry a = s.table.entry a)
    (hassociated : s₁.associated = s.associated) (htarget : (s.point t).target = rwlock)
    (hclaims : (s.point t).claims = none) : (s₁.initialised t rwlock).Tended a := by
  cases rwlock <;>
    exact h.advance hsearches hpoint hknown hentry hassociated htarget.symm hclaims

/-- The claim of a slot. -/
theorem Tended.claim (h : s.Tended a) {a' : Addr} {v : LockObject} {w : Creation}
    {i : Fin bucketLength} (hp : s.point t = .cas a' v w i) (hkey : (s.table a'.bucket i).key = 0) :
    ({ s with
      table := s.table.set a'.bucket i { s.table a'.bucket i with key := a'.1 } }.goto t
        (.store a' v w i)).Tended a := by
  by_cases ha : a' = a
  · subst ha
    have htarget : (s.point t).target = some a' := by rw [hp]; rfl
    refine .storing t v w i (Function.update_self ..) fun u hu => ?_
    rw [goto_point, Function.update_of_ne hu]
    exact h.alone htarget (by rw [hp]; rfl) u hu
  · refine h.elsewhere (t := t) (fun u hu => Function.update_of_ne hu _ _) (fun _ _ => rfl)
      (LockTable.entry_set_other ?_ ?_) rfl ?_ ?_
    · exact fun hzero => a.2 (hzero.symm.trans hkey)
    · exact fun hsame => ha (Subtype.ext hsame)
    · rw [hp]
      exact fun hsame => ha (Option.some.inj hsame)
    · rw [goto_point, Function.update_self]
      exact fun hsame => ha (Option.some.inj hsame)

/-- The store of the value. -/
theorem Tended.store (h : s.Tended a) (hsound : Sound s a') {v : LockObject} {w : Creation}
    {i : Fin bucketLength} (hw : w = .init ∨ w = .use .htLockGet)
    (hp : s.point t = .store a' v w i) (hs : s.access t = some s') : s'.Tended a := by
  have hclaimed := LockTable.entry_eq_some (hsound.slots.claimed t a' v w i hp)
  simp only [access, hp, Option.some.injEq] at hs
  have haside := aside_stored { s with
    table := s.table.set a'.bucket i { s.table a'.bucket i with value := some v }
    associated := Function.update s.associated a' (v :: s.associated a') } t a' v w
  have hleft : (s'.point t).target = none := by
    subst hs
    rcases hw with rfl | rfl <;> simp [stored, located, TablePoint.target]
  rw [hs] at haside
  by_cases ha : a' = a
  · subst ha
    have htarget : (s.point t).target = some a' := by rw [hp]; rfl
    have hothers := h.alone htarget (by rw [hp]; rfl)
    refine .created ?_ fun u hu => ?_
    · rw [haside.associated]
      simp
    · have hut : u ≠ t := by
        rintro rfl
        rw [hleft] at hu
        cases hu
      rw [haside.point u hut] at hu
      exact absurd hu (hothers u hut)
  · refine h.elsewhere haside.point haside.known ?_ ?_ ?_ ?_
    · rw [haside.table]
      refine LockTable.entry_set_other ?_ ?_ <;>
        rw [hclaimed] <;> exact fun hsame => ha (Subtype.ext hsame)
    · rw [haside.associated]
      exact Function.update_of_ne (Ne.symm ha) _ _
    · rw [hp]
      exact fun hsame => ha (Option.some.inj hsame)
    · rw [hleft]
      simp

/-- Every access of an intercepted function tends every address, where `memset` finds the rest of
the table unused. -/
theorem Tended.access (h : s.Tended a) (hsound : ∀ a, Sound s a)
    (hintercepted : (s.point t).intercepted = true)
    (hunused : ∀ rwlock cleared, s.point t = .initClear rwlock cleared →
      ∀ b i, (b, i) ∉ cleared → (s.table b i).key = 0)
    (hs : s.access t = some s') : s'.Tended a := by
  have hthread := (hsound a).entry.threads t
  cases hp : s.point t with
  | outside => simp [TableState.access, hp] at hs
  | operate =>
    rw [hp] at hintercepted
    cases hintercepted
  | get a' p i =>
    rw [hp] at hintercepted
    obtain rfl : p = .htLockGet := by simpa [TablePoint.intercepted] using hintercepted
    simp only [TableState.access, hp, Option.some.injEq] at hs
    subst hs
    split
    · exact h.goto rfl rfl rfl rfl (by rw [hp]; rfl) (by rw [hp]; rfl) fun _ _ _ => rfl
    · rename_i hkey
      cases hnext : nextSlot i with
      | none =>
        refine h.missing (by rw [hp]; rfl) (by rw [hp]; rfl) ?_
        rintro rfl
        exact (hsound a').entry.known_eq_nil hp hkey hnext
      | some j => exact h.goto rfl rfl rfl rfl (by rw [hp]; rfl) (by rw [hp]; rfl) fun _ _ _ => rfl
  | value a' p i =>
    simp only [TableState.access, hp, Option.some.injEq] at hs
    subst hs
    split
    · exact h
    · exact h.goto rfl rfl rfl rfl (by rw [hp]; rfl) (by rw [hp]; rfl) fun _ _ _ => rfl
  | result a' p i =>
    rw [hp] at hintercepted hthread
    obtain rfl : p = .htLockGet := by simpa [TablePoint.intercepted] using hintercepted
    simp only [TableState.access, hp] at hs
    split at hs <;> cases hs
    · rename_i hvalue
      refine h.missing (by rw [hp]; rfl) (by rw [hp]; rfl) ?_
      rintro rfl
      obtain ⟨⟨o, hi⟩, -⟩ := hthread rfl
      rw [LockTable.entry_eq_some hi] at hvalue
      cases hvalue
    · rename_i o ho
      have haside := aside_found s t a' o .htLockGet
      by_cases ha : a' = a
      · subst ha
        obtain ⟨⟨o', hi⟩, -⟩ := hthread rfl
        refine h.leave haside.point rfl rfl (by rw [hp]; rfl) (by rw [hp]; rfl) (i := i)
          (by simp [hi]) ?_
        simp [found, located, TablePoint.target]
      · refine h.elsewhere haside.point haside.known rfl rfl ?_ ?_
        · rw [hp]
          exact fun hsame => ha (Option.some.inj hsame)
        · simp [found, located, TablePoint.target]
  | create a' w =>
    simp only [TableState.access, hp, Option.some.injEq] at hs
    subst hs
    exact h.advance (by rw [hp]; rfl) rfl rfl rfl rfl (by rw [hp]; rfl) (by rw [hp]; rfl)
  | put a' v w i =>
    rw [hp] at hintercepted
    have hw : w = .init ∨ w = .use .htLockGet := by
      simpa [TablePoint.intercepted] using hintercepted
    simp only [TableState.access, hp, Option.some.injEq] at hs
    subst hs
    split
    · exact h.advance (by rw [hp]; rfl) rfl rfl rfl rfl (by rw [hp]; rfl) (by rw [hp]; rfl)
    · exact h.tryNext hw (by rw [hp]; rfl) (by rw [hp]; rfl) (by rw [hp]; rfl)
  | cas a' v w i =>
    rw [hp] at hintercepted
    have hw : w = .init ∨ w = .use .htLockGet := by
      simpa [TablePoint.intercepted] using hintercepted
    simp only [TableState.access, hp, Option.some.injEq] at hs
    subst hs
    split
    · rename_i hkey
      exact h.claim hp hkey
    · exact h.tryNext hw (by rw [hp]; rfl) (by rw [hp]; rfl) (by rw [hp]; rfl)
  | store a' v w i =>
    rw [hp] at hintercepted
    have hw : w = .init ∨ w = .use .htLockGet := by
      simpa [TablePoint.intercepted] using hintercepted
    exact h.store (hsound a') hw hp hs
  | initClear rwlock cleared =>
    simp only [TableState.access, hp, Option.some.injEq] at hs
    subst hs
    refine h.advance (by rw [hp]; rfl) rfl rfl ?_ rfl (by rw [hp]; rfl) (by rw [hp]; rfl)
    refine LockTable.entry_eq_of_keys fun j => ?_
    by_cases hmem : (a.bucket, j) ∈ cleared
    · exact Or.inl (if_pos hmem)
    · refine Or.inr ⟨fun hkey => a.2 ?_, ?_⟩
      · rw [← hkey, hunused rwlock cleared hp _ _ hmem]
      · simp only [if_neg hmem]
        exact fun hkey => a.2 hkey.symm
  | initCheck a' =>
    simp only [TableState.access, hp, Option.some.injEq] at hs
    subst hs
    refine h.advance (by rw [hp]; rfl) rfl rfl rfl rfl ?_ (by rw [hp]; rfl)
    rw [hp]
    split <;> rfl
  | initCas rwlock =>
    simp only [TableState.access, hp, Option.some.injEq] at hs
    subst hs
    split
    · exact h.advance (by rw [hp]; rfl) rfl rfl rfl rfl (by rw [hp]; rfl) (by rw [hp]; rfl)
    · split
      · exact h.advance (by rw [hp]; rfl) rfl rfl rfl rfl (by rw [hp]; rfl) (by rw [hp]; rfl)
      · exact h.initialised (by rw [hp]; rfl) rfl rfl rfl rfl (by rw [hp]; rfl) (by rw [hp]; rfl)
  | initSpin rwlock =>
    simp only [TableState.access, hp, Option.some.injEq] at hs
    subst hs
    split
    · exact h
    · exact h.initialised (by rw [hp]; rfl) rfl rfl rfl rfl (by rw [hp]; rfl) (by rw [hp]; rfl)
  | initThreadId rwlock =>
    simp only [TableState.access, hp, Option.some.injEq] at hs
    subst hs
    split
    · exact h.stay (t := t) (fun _ _ => rfl) (fun _ _ => rfl) rfl rfl Iff.rfl
        (fun _ => by rw [hp]; rfl) fun _ _ => id
    · exact h.advance (by rw [hp]; rfl) rfl rfl rfl rfl (by rw [hp]; rfl) (by rw [hp]; rfl)
  | initLoad rwlock =>
    simp only [TableState.access, hp, Option.some.injEq] at hs
    subst hs
    exact h.advance (by rw [hp]; rfl) rfl rfl rfl rfl (by rw [hp]; rfl) (by rw [hp]; rfl)
  | initDone rwlock =>
    simp only [TableState.access, hp, Option.some.injEq] at hs
    subst hs
    exact h.initialised (by rw [hp]; rfl) rfl rfl rfl rfl (by rw [hp]; rfl) (by rw [hp]; rfl)

/-- The calls of the client tend every address: an initialised one was untouched, and a used one
was untouched or complete. -/
theorem Tended.begin (h : s.Tended a) (hsound : Sound s a) (hpoint : s.point t = .outside)
    {c : TableCall} (hcall : c.manages = true ∨ ∃ a', c = .htLockGet a')
    (hinit : c = .init a ∨ c = .rwlockInit a → s.Untouched a)
    (huse : c = .htLockGet a → s.Untouched a ∨ ∃ o, s.table.Holds a o)
    (hs : s.begin t c = some s') : s'.Tended a := by
  have hnone : (s.point t).target = none := by rw [hpoint]; rfl
  have hothers : ∀ (s₁ : TableState T) q, s₁.point = Function.update s.point t q →
      ∀ u, u ≠ t → s₁.point u = s.point u := fun s₁ q hq u hu => by
    rw [hq, Function.update_of_ne hu]
  -- the thread gets an untouched address in hand, or another one
  have hgets : ∀ (s₁ : TableState T) q a', s₁.point = Function.update s.point t q →
      (∀ u, u ≠ t → s₁.known u = s.known u) → s₁.table = s.table →
      s₁.associated = s.associated → q.target = some a' → (a' = a → s.Untouched a) →
      s₁.Tended a := by
    intro s₁ q a' hq hknown htable hassociated htarget huntouched
    by_cases ha : a' = a
    · obtain ⟨hentry, hnobody⟩ := huntouched ha
      refine .first t (by rwa [htable]) ?_ fun u hu => ?_
      · rw [hq, Function.update_self, htarget, ha]
      · rw [hothers s₁ q hq u hu]
        exact hnobody u
    · refine h.elsewhere (hothers s₁ q hq) hknown (by rw [htable]) (by rw [hassociated])
        (by simp [hnone]) ?_
      rw [hq, Function.update_self, htarget]
      exact fun hsame => ha (Option.some.inj hsame)
  cases c with
  | init a' | rwlockInit a' =>
    cases hs
    exact hgets _ _ a' rfl (fun _ _ => rfl) rfl rfl rfl fun ha => hinit (by simp [ha])
  | htLockGet a' =>
    cases hs
    by_cases hcreated : a' = a ∧ ∃ o, s.table.Holds a o
    · obtain ⟨rfl, o, ho⟩ := hcreated
      obtain ⟨hne, hsearch⟩ := h.created_of_holds hsound ho
      refine .created hne fun u hu => ?_
      by_cases hut : u = t
      · subst hut
        simp [lookUp, TablePoint.searches, hne]
      · simp only [lookUp_point, enliven_point, lookUp_known, enliven_known,
          Function.update_of_ne hut] at hu ⊢
        exact hsearch u hu
    · refine hgets _ _ a' rfl (fun u hu => Function.update_of_ne hu _ _) rfl rfl rfl fun ha => ?_
      exact (huse (congrArg _ ha)).resolve_right fun ho => hcreated ⟨ha, ho⟩
  | destroy a' =>
    cases hs
    exact h.stay (t := t) (fun _ _ => rfl) (fun _ _ => rfl) rfl rfl Iff.rfl
      (fun _ => by rw [hpoint]; rfl) fun _ _ => id
  | interposeInit =>
    cases hs
    exact h.advance (by rw [hpoint]; rfl) rfl rfl rfl rfl (by rw [hpoint]; rfl)
      (by rw [hpoint]; rfl)
  | hashGet | hashPut | lock | trylock | unlock => simp [TableCall.manages] at hcall

/-- Clearing an unused slot tends every address. -/
theorem Tended.clear (h : s.Tended a) {b : Fin bucketSize} {i : Fin bucketLength}
    (hunused : (s.table b i).key = 0) (hs : s.clear t b i = some s') : s'.Tended a := by
  simp only [TableState.clear] at hs
  split at hs
  · rename_i rwlock cleared hp
    obtain ⟨-, hs⟩ := Option.ite_none_left_eq_some.mp hs
    cases hs
    refine h.advance (by rw [hp]; rfl) rfl rfl (LockTable.entry_set_other ?_ ?_) rfl
      (by rw [hp]; rfl) (by rw [hp]; rfl)
    · exact fun hkey => a.2 (hkey.symm.trans hunused)
    · exact fun hkey => a.2 hkey.symm
  · cases hs

/-! ## Before the constructor is done -/

/-- Nothing is in the table and nobody has an address in hand. -/
structure Blank (s : TableState T) : Prop where
  unused : ∀ b i, (s.table b i).key = 0
  idle : ∀ u, (s.point u).target = none

omit [DecidableEq T] in
/-- A move that leaves the table blank. -/
theorem Blank.move (h : s.Blank) (hothers : ∀ u, u ≠ t → s'.point u = s.point u)
    (hunused : ∀ b i, s'.table b i = s.table b i ∨ s'.table b i = Slot.clear)
    (htarget : (s'.point t).target = none) : s'.Blank where
  unused b i := by
    rcases hunused b i with heq | heq
    · rw [heq]
      exact h.unused b i
    · rw [heq]
      rfl
  idle u := by
    by_cases hu : u = t
    · rw [hu, htarget]
    · rw [hothers u hu]
      exact h.idle u

/-- Only the initialisation goes on in a blank table. -/
theorem Blank.access (h : s.Blank) (hs : s.access t = some s') : s'.Blank := by
  have hothers := (access_effect hs).others
  have hidle := h.idle t
  cases hp : s.point t with
  | outside => simp [TableState.access, hp] at hs
  | get | value | result | create | put | cas | store | operate | initCheck =>
    rw [hp] at hidle
    cases hidle
  | initClear rwlock cleared =>
    rw [hp] at hidle
    obtain rfl : rwlock = none := hidle
    simp only [TableState.access, hp, Option.some.injEq] at hs
    subst hs
    refine h.move hothers (fun b i => ?_) (by simp [TablePoint.target])
    by_cases hmem : (b, i) ∈ cleared <;> simp [hmem]
  | initThreadId rwlock | initCas rwlock | initSpin rwlock | initLoad rwlock | initDone rwlock =>
    rw [hp] at hidle
    obtain rfl : rwlock = none := hidle
    have hgoes := idle_access (by rw [hp]; rfl) hs
    refine h.move hothers (fun b i => Or.inl (by rw [hgoes.table])) ?_
    simp only [TableState.access, hp, initialised, Option.some.injEq] at hs
    subst hs
    repeat' split
    all_goals simp [hp, TablePoint.target]

/-- `memset` goes on in a blank table. -/
theorem Blank.clear (h : s.Blank) {b : Fin bucketSize} {i : Fin bucketLength}
    (hs : s.clear t b i = some s') : s'.Blank := by
  have hothers := (clear_effect hs).others
  have hidle := h.idle t
  simp only [TableState.clear] at hs
  split at hs
  · rename_i rwlock cleared hp
    obtain ⟨-, hs⟩ := Option.ite_none_left_eq_some.mp hs
    cases hs
    rw [hp] at hidle
    refine h.move hothers (fun b' i' => ?_) (by simpa [TablePoint.target] using hidle)
    rcases s.table.set_cases b i Slot.clear b' i' with ⟨rfl, rfl, heq⟩ | ⟨-, heq⟩
    · exact Or.inr heq
    · exact Or.inl heq
  · cases hs

/-- While `memset` runs `init_spinlock` is 1. -/
theorem initSpinlock_of_bodyPart (hpath : Path step anyStep (initial : TableState T) s)
    {b : BodyPart} (hbody : (s.point t).bodyPart = some b) : s.initSpinlock = 1 := by
  obtain ⟨r, hrecorded⟩ := hpath.exists_recording noteInit {}
  exact ((initStage_of_path hrecorded).of_bodyPart hbody).1

/-- `init_spinlock` stays 2. -/
theorem initSpinlock_stays (hpath : Path step anyStep (initial : TableState T) s)
    {x : TableAction T} (hs : s.step x = some s') (hdone : s.initSpinlock = 2) :
    s'.initSpinlock = 2 := by
  obtain ⟨r, hrecorded⟩ := hpath.exists_recording noteInit {}
  have hnext : recording step noteInit (s, r) x = some (s', noteInit s x r) :=
    recording_eq_some.mpr ⟨hs, rfl⟩
  obtain ⟨t, -, heffect⟩ := recorded_initEffect hnext
  rcases (initStage_of_path hrecorded).moves heffect with hsame | ⟨hzero, -⟩ | ⟨hone, -⟩
  · exact hsame.trans hdone
  · exact absurd (hdone.symm.trans hzero) (by decide)
  · exact absurd (hdone.symm.trans hone) (by decide)

end TableState

namespace Interposed

variable {T C : Type*} [DecidableEq T] [DecidableEq C] [Fintype T] {s s' : Interposed T C} {t : T}
  {x : InterposedAction T C}

/-- The address has its lock object. -/
def Complete (s : Interposed T C) (a : Addr) : Prop := ∃ o, s.table.table.Holds a o

instance (s : Interposed T C) (a : Addr) : Decidable (s.Complete a) :=
  decidable_of_iff (∃ i, (s.table.table.entry a i).join.isSome = true) <| by
    simp only [Option.isSome_iff_exists, Option.join_eq_some_iff, Complete, LockTable.Holds]
    exact exists_comm

/-- The calls of a client that begins after the constructor, initialises untouched addresses, and
uses untouched or complete ones. -/
def Disciplined (s : Interposed T C) : InterposedAction T C → Prop
  | .manage _ (.init a) | .manage _ (.rwlockInit a) =>
    s.table.initSpinlock = 2 ∧ s.table.Untouched a
  | .call _ c => ∀ a ∈ c.mutex, s.table.initSpinlock = 2 ∧ (s.table.Untouched a ∨ s.Complete a)
  | _ => True

instance (s : Interposed T C) : DecidablePred s.Disciplined
  | .manage _ (.init a) | .manage _ (.rwlockInit a) =>
    inferInstanceAs (Decidable (s.table.initSpinlock = 2 ∧ s.table.Untouched a))
  | .call _ c =>
    decidable_of_iff (c.mutex.all fun a => s.table.initSpinlock = 2 ∧
      (s.table.Untouched a ∨ s.Complete a)) (by simp [Disciplined, Option.all_eq_true])
  | .manage _ (.destroy _) | .manage _ .interposeInit | .manage _ (.hashGet _)
  | .manage _ (.hashPut _ _) | .manage _ (.htLockGet _) | .manage _ (.lock _)
  | .manage _ (.trylock _) | .manage _ (.unlock _) | .table _ | .clear .. | .lock _ =>
    .isTrue trivial

/-- Every address is tended, and the table is blank until the constructor is done. -/
structure Tidy (s : Interposed T C) : Prop where
  tended : ∀ a, s.table.Tended a
  blank : s.table.initSpinlock ≠ 2 → s.table.Blank

omit [DecidableEq C] [Fintype T] in
/-- In a tidy process objects are made for untouched addresses and `memset` finds unused slots. -/
theorem Tidy.proper (h : s.Tidy)
    (hpath : Path TableState.step anyStep TableState.initial s.table)
    (hclears : ∀ u b i, x = .clear u b i → (s.table.clear u b i).isSome = true) : s.Proper x := by
  have hblank : ∀ u rwlock cleared, s.table.point u = .initClear rwlock cleared →
      s.table.Blank := by
    intro u rwlock cleared hp
    refine h.blank ?_
    rw [TableState.initSpinlock_of_bodyPart hpath (t := u) (b := .clear) (by rw [hp]; rfl)]
    decide
  cases x with
  | manage | call | lock => trivial
  | clear u b i =>
    obtain ⟨table, hs⟩ := Option.isSome_iff_exists.mp (hclears u b i rfl)
    obtain ⟨rwlock, cleared, -, hp, -⟩ := TableState.clear_point hs
    exact (hblank u rwlock cleared hp).unused b i
  | table u =>
    change s.ProperAt (s.table.point u)
    cases hp : s.table.point u with
    | create a w => exact (h.tended a).uncreated hp
    | initClear rwlock cleared => exact fun b i _ => (hblank u rwlock cleared hp).unused b i
    | _ => trivial

omit [DecidableEq C] [Fintype T] in
/-- Calls that only reach the table keep it blank until the constructor is done. -/
theorem Tidy.blank_begin (h : s.Tidy) {c : TableCall} (hidle : s.table.point t = .outside)
    (hmanages : c.manages = true) (hdisciplined : s.Disciplined (.manage t c))
    {table : TableState T} (hs : s.table.begin t c = some table)
    (hbusy : table.initSpinlock ≠ 2) : table.Blank := by
  cases c with
  | init a | rwlockInit a =>
    cases hs
    exact absurd hdisciplined.1 hbusy
  | destroy a =>
    cases hs
    exact (h.blank hbusy).move (t := t) (fun _ _ => rfl) (fun _ _ => Or.inl rfl) (by simp [hidle,
      TablePoint.target])
  | interposeInit =>
    cases hs
    exact (h.blank hbusy).move (t := t) (fun u hu => Function.update_of_ne hu _ _)
      (fun _ _ => Or.inl rfl) (by simp [TablePoint.target])
  | hashGet | hashPut | htLockGet | lock | trylock | unlock => cases hmanages

/-- Every action of a disciplined client keeps its process tidy. -/
theorem Tidy.step (h : s.Tidy) (hlinked : s.Linked)
    (hpath : Path TableState.step anyStep TableState.initial s.table)
    (hdisciplined : s.Disciplined x) (hproper : s.Proper x) (hs : s.step x = some s') :
    s'.Tidy := by
  obtain ⟨hrunning, hacts⟩ := acts_of_step hs
  have hblank : ∀ y : TableAction T, ∀ table, s.table.step y = some table →
      (s.table.Blank → table.Blank) → table.initSpinlock ≠ 2 → table.Blank :=
    fun y table hy hkeeps hbusy => hkeeps <| h.blank fun hdone =>
      hbusy (TableState.initSpinlock_stays hpath hy hdone)
  cases hacts with
  | @manage t c table hmanages hidle htable =>
    refine ⟨fun a => (h.tended a).begin (hlinked.sound a) hidle.1 (Or.inl hmanages) ?_ ?_ htable,
      h.blank_begin hidle.1 hmanages hdisciplined htable⟩
    · rintro (rfl | rfl)
      · exact hdisciplined.2
      · exact hdisciplined.2
    · rintro rfl
      cases hmanages
  | @lookUp t c a table hidle hheld hmutex htable =>
    obtain ⟨hdone, huse⟩ := hdisciplined a hmutex
    refine ⟨fun a' => (h.tended a').begin (hlinked.sound a') hidle.1 (Or.inr ⟨a, rfl⟩) ?_ ?_ htable,
      ?_⟩
    · rintro (hc | hc) <;> cases hc
    · intro hc
      cases hc
      exact huse
    · cases htable
      exact fun hbusy => absurd hdone hbusy
  | @table t table hreturns htable | @enter t c o table locks hreturns hcall htable hlocks =>
    refine ⟨fun a => (h.tended a).access hlinked.sound (hlinked.intercepted t) ?_ htable,
      hblank (.access t) table (by simp [TableState.step, hrunning, htable])
        fun hbefore => hbefore.access htable⟩
    intro rwlock cleared hp
    have hat : s.ProperAt (s.table.point t) := hproper
    rwa [hp] at hat
  | @clear t b i table htable =>
    exact ⟨fun a => (h.tended a).clear hproper htable,
      hblank (.clear t b i) table (by simp [TableState.step, hrunning, htable])
        fun hbefore => hbefore.clear htable⟩
  | notify | lock => exact ⟨h.tended, h.blank⟩

omit [DecidableEq T] [DecidableEq C] [Fintype T] in
/-- A process begins tidy. -/
theorem tidy_initial : (initial : Interposed T C).Tidy where
  tended a := .untouched
    ⟨fun _ => LockTable.entry_eq_none_iff.mpr fun hkey => a.2 hkey.symm, fun _ hu => by cases hu⟩
  blank _ := ⟨fun _ _ => rfl, fun _ => rfl⟩

/-- A disciplined client is proper: every address is untouched, in one hand or complete, so that
no object is made for a mutex that has one, and `memset` clears nothing. -/
theorem disciplined_clients_are_proper (hpath : Path step Disciplined initial s) :
    Path step Proper initial s ∧ ∀ a, s.table.Tended a := by
  have htidy : Path step Proper initial s ∧ s.Tidy := by
    induction hpath with
    | refl => exact ⟨Relation.ReflTransGen.refl, tidy_initial⟩
    | @tail s₁ s₂ hbefore hlast ih =>
      obtain ⟨x, hdisciplined, hs⟩ := hlast
      obtain ⟨hpath, htidy⟩ := ih
      have htable := table_of_path hpath
      have hproper : s₁.Proper x := by
        refine htidy.proper htable ?_
        rintro u b i rfl
        cases (acts_of_step hs).2 with
        | clear hclear => rw [hclear, Option.isSome_some]
      exact ⟨hpath.extend x hproper hs,
        htidy.step (linked_of_path hpath) htable hdisciplined hproper hs⟩
  exact ⟨htidy.1, htidy.2.tended⟩

/-- The constructor runs, and the mutex is initialised and locked. -/
theorem disciplined_clients_are_proper_locked : ∃ s : Interposed (Fin 2) Unit,
    s.Owns 0 staticMutex ∧ Path step Proper initial s ∧ ∀ a, s.table.Tended a := by
  have hrun : ∃ s : Interposed (Fin 2) Unit,
      Path step Disciplined initial s ∧ s.Owns 0 staticMutex := by
    refine exists_path_of_execute _ _
      (.manage 1 .interposeInit :: tableTurns 1 5 ++ lockedActions 0 staticMutex) _ _ ?_
    decide +kernel
  obtain ⟨s, hpath, howns⟩ := hrun
  exact ⟨s, howns, disciplined_clients_are_proper hpath⟩

end Interposed

end Htll
