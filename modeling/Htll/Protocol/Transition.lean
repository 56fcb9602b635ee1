import Mathlib.Data.List.Induction
import Mathlib.Logic.Relation

/-!
# Guarded runs of a computed step function

A machine is a partial step function on a state type; an action carries every choice
that the step itself does not make. A guard restricts the runs under consideration to
those whose every step meets a condition on the state before it. Invariants are proved
once for a step and lifted to whole runs by the rules of this file.
-/

namespace Transition

variable {S A X : Type*}

/-- Some action allowed by the guard leads from the first state to the second. -/
def GuardedStep (step : S → A → Option S) (guard : S → A → Prop) (s s' : S) : Prop :=
  ∃ a, guard s a ∧ step s a = some s'

/-- A run of any length, every step of which meets the guard. -/
abbrev Path (step : S → A → Option S) (guard : S → A → Prop) : S → S → Prop :=
  Relation.ReflTransGen (GuardedStep step guard)

/-- The trivial guard, for statements about all runs. -/
def anyStep : S → A → Prop := fun _ _ => True

/-- A property kept by every allowed step holds at the end of a run if it holds at the start. -/
theorem Path.invariant {step : S → A → Option S} {guard : S → A → Prop} (inv : S → Prop)
    (hstep : ∀ s a s', guard s a → step s a = some s' → inv s → inv s') {s s' : S}
    (hpath : Path step guard s s') (hs : inv s) : inv s' := by
  induction hpath with
  | refl => exact hs
  | tail _ hlast ih =>
    obtain ⟨a, hguard, ha⟩ := hlast
    exact hstep _ a _ hguard ha ih

/-- An invariant may use another one that is already known along the run. -/
theorem Path.invariant_of {step : S → A → Option S} {guard : S → A → Prop} (known inv : S → Prop)
    (hknown : ∀ s a s', guard s a → step s a = some s' → known s → known s')
    (hstep : ∀ s a s', guard s a → step s a = some s' → known s → inv s → inv s') {s s' : S}
    (hpath : Path step guard s s') (hs : known s) (hi : inv s) : inv s' := by
  have hboth : known s' ∧ inv s' :=
    Path.invariant (fun s => known s ∧ inv s)
      (fun s a s' hguard ha h => ⟨hknown s a s' hguard ha h.1, hstep s a s' hguard ha h.1 h.2⟩)
      hpath ⟨hs, hi⟩
  exact hboth.2

/-- Every allowed step is matched by abstract steps between the views of its two states, so every
run is matched by an abstract run. -/
theorem Path.simulate {step : S → A → Option S} {guard : S → A → Prop} (known : S → Prop)
    (view : S → X) {next : X → X → Prop}
    (hknown : ∀ s a s', guard s a → step s a = some s' → known s → known s')
    (hsim : ∀ s a s', guard s a → step s a = some s' → known s →
      Relation.ReflTransGen next (view s) (view s')) {s s' : S}
    (hpath : Path step guard s s') (hs : known s) :
    Relation.ReflTransGen next (view s) (view s') :=
  Path.invariant_of known (fun s' => Relation.ReflTransGen next (view s) (view s')) hknown
    (fun s₁ a s₂ hguard ha hk hreach => hreach.trans (hsim s₁ a s₂ hguard ha hk))
    hpath hs Relation.ReflTransGen.refl

/-- A relation along which a rank falls has no circles. -/
theorem not_transGen_self {r : S → S → Prop} (rank : S → ℕ) (h : ∀ s s', r s s' → rank s' < rank s)
    (s : S) : ¬Relation.TransGen r s s := by
  have hfalls : ∀ s', Relation.TransGen r s s' → rank s' < rank s := by
    intro s' hpath
    induction hpath with
    | single hfirst => exact h _ _ hfirst
    | tail _ hlast ih => exact Nat.lt_trans (h _ _ hlast) ih
  exact fun hcircle => Nat.lt_irrefl _ (hfalls s hcircle)

/-- Weakening the guard keeps a run. -/
theorem Path.mono {step : S → A → Option S} {guard guard' : S → A → Prop}
    (himp : ∀ s a, guard s a → guard' s a) {s s' : S} (hpath : Path step guard s s') :
    Path step guard' s s' :=
  Relation.ReflTransGen.mono (fun _ _ ⟨a, hguard, ha⟩ => ⟨a, himp _ a hguard, ha⟩) _ _ hpath

/-- One allowed step is a run. -/
theorem Path.single {step : S → A → Option S} {guard : S → A → Prop} {s s' : S} (a : A)
    (hguard : guard s a) (ha : step s a = some s') : Path step guard s s' :=
  Relation.ReflTransGen.single ⟨a, hguard, ha⟩

/-- A run is extended by one allowed step. -/
theorem Path.extend {step : S → A → Option S} {guard : S → A → Prop} {s s' s'' : S}
    (hpath : Path step guard s s') (a : A) (hguard : guard s' a) (ha : step s' a = some s'') :
    Path step guard s s'' :=
  Relation.ReflTransGen.tail hpath ⟨a, hguard, ha⟩

/-- A run together with the states it passes through, the first and the last included. -/
inductive Run (step : S → A → Option S) (guard : S → A → Prop) (s : S) : List S → S → Prop where
  | start : Run step guard s [s] s
  | extend {visited : List S} {s' s'' : S} (hrun : Run step guard s visited s') (a : A)
      (hguard : guard s' a) (ha : step s' a = some s'') : Run step guard s (s'' :: visited) s''

/-- A run with its states is a run. -/
theorem Run.path {step : S → A → Option S} {guard : S → A → Prop} {s s' : S} {visited : List S}
    (hrun : Run step guard s visited s') : Path step guard s s' := by
  induction hrun with
  | start => exact Relation.ReflTransGen.refl
  | extend _ a hguard ha ih => exact ih.extend a hguard ha

/-- A run passes through its first state. -/
theorem Run.mem_start {step : S → A → Option S} {guard : S → A → Prop} {s s' : S}
    {visited : List S} (hrun : Run step guard s visited s') : s ∈ visited := by
  induction hrun with
  | start => exact List.mem_singleton_self s
  | extend _ _ _ _ ih => exact List.mem_cons_of_mem _ ih

/-- A run passes through its last state. -/
theorem Run.mem_end {step : S → A → Option S} {guard : S → A → Prop} {s s' : S}
    {visited : List S} (hrun : Run step guard s visited s') : s' ∈ visited := by
  cases hrun with
  | start => exact List.mem_singleton_self s
  | extend => exact List.mem_cons_self

/-- Weakening the guard keeps a run and its states. -/
theorem Run.mono {step : S → A → Option S} {guard guard' : S → A → Prop} {s s' : S}
    {visited : List S} (himp : ∀ s a, guard s a → guard' s a)
    (hrun : Run step guard s visited s') : Run step guard' s visited s' := by
  induction hrun with
  | start => exact .start
  | extend _ a hguard ha ih => exact ih.extend a (himp _ a hguard) ha

/-- What the guard requires of a state holds in all states of a run if it holds in the last. -/
theorem Run.of_guard {step : S → A → Option S} {guard : S → A → Prop} {s s' : S}
    {visited : List S} {p : S → Prop} (hp : ∀ s a, guard s a → p s)
    (hrun : Run step guard s visited s') (hlast : p s') : ∀ s ∈ visited, p s := by
  induction hrun with
  | start => exact List.forall_mem_singleton.mpr hlast
  | extend _ a hguard _ ih => exact List.forall_mem_cons.mpr ⟨hlast, ih (hp _ a hguard)⟩

/-- Every run passes through some states. -/
theorem Path.exists_run {step : S → A → Option S} {guard : S → A → Prop} {s s' : S}
    (hpath : Path step guard s s') : ∃ visited, Run step guard s visited s' := by
  induction hpath with
  | refl => exact ⟨_, .start⟩
  | tail _ hlast ih =>
    obtain ⟨visited, hrun⟩ := ih
    obtain ⟨a, hguard, ha⟩ := hlast
    exact ⟨_, hrun.extend a hguard ha⟩

/-- The machine with a record beside its state, which no step reads: every action is noted in it
in the state before the action. -/
def recording (step : S → A → Option S) (note : S → A → X → X) (p : S × X) (a : A) :
    Option (S × X) :=
  (step p.1 a).map fun s' => (s', note p.1 a p.2)

/-- A recorded step is a step and its note. -/
theorem recording_eq_some {step : S → A → Option S} {note : S → A → X → X} {p p' : S × X} {a : A} :
    recording step note p a = some p' ↔ step p.1 a = some p'.1 ∧ p'.2 = note p.1 a p.2 := by
  rw [recording, Option.map_eq_some_iff]
  constructor
  · rintro ⟨s', hstep, rfl⟩
    exact ⟨hstep, rfl⟩
  · rintro ⟨hstep, hnote⟩
    exact ⟨p'.1, hstep, Prod.ext rfl hnote.symm⟩

/-- A recorded run is a run. -/
theorem Path.of_recording {step : S → A → Option S} {note : S → A → X → X}
    {guard : S → A → Prop} {p p' : S × X}
    (hpath : Path (recording step note) (fun p => guard p.1) p p') : Path step guard p.1 p'.1 := by
  induction hpath with
  | refl => exact Relation.ReflTransGen.refl
  | tail _ hlast ih =>
    obtain ⟨a, hguard, ha⟩ := hlast
    exact ih.extend a hguard (recording_eq_some.mp ha).1

/-- Every run may be recorded. -/
theorem Path.exists_recording {step : S → A → Option S} {guard : S → A → Prop} {s s' : S}
    (hpath : Path step guard s s') (note : S → A → X → X) (x : X) :
    ∃ x', Path (recording step note) (fun p => guard p.1) (s, x) (s', x') := by
  induction hpath with
  | refl => exact ⟨x, Relation.ReflTransGen.refl⟩
  | @tail s₁ s₂ _ hlast ih =>
    obtain ⟨x₁, hx₁⟩ := ih
    obtain ⟨a, hguard, ha⟩ := hlast
    exact ⟨note s₁ a x₁, hx₁.extend a hguard (recording_eq_some.mpr ⟨ha, rfl⟩)⟩

instance (s : S) (a : A) : Decidable (anyStep s a) := .isTrue trivial

section Execution

variable (step : S → A → Option S) (guard : S → A → Prop) [∀ s a, Decidable (guard s a)]

/-- Execute a given list of actions, failing at the first one that is not allowed or enabled. -/
def execute : S → List A → Option S
  | s, [] => some s
  | s, a :: rest => if guard s a then (step s a).bind fun s' => execute s' rest else none

/-- A list of actions is executed in two parts. -/
theorem execute_append (s : S) (actions actions' : List A) :
    execute step guard s (actions ++ actions') =
      (execute step guard s actions).bind fun s' => execute step guard s' actions' := by
  induction actions generalizing s with
  | nil => rfl
  | cons a rest ih =>
    simp only [List.cons_append, execute]
    split
    · cases step s a with
      | none => rfl
      | some s' => exact ih s'
    · rfl

/-- An executed list of actions is a run. -/
theorem execute_path (actions : List A) (s s' : S)
    (h : execute step guard s actions = some s') : Path step guard s s' := by
  induction actions generalizing s with
  | nil =>
    simp only [execute, Option.some.injEq] at h
    exact h ▸ Relation.ReflTransGen.refl
  | cons a rest ih =>
    obtain ⟨hguard, h⟩ := Option.ite_none_right_eq_some.mp h
    obtain ⟨s'', hfirst, hrest⟩ := Option.bind_eq_some_iff.mp h
    exact Relation.ReflTransGen.head ⟨a, hguard, hfirst⟩ (ih s'' hrest)

/-- A test passed by the executed state holds at the end of a run. -/
theorem exists_path_of_execute (actions : List A) (s : S) (p : S → Prop) [DecidablePred p]
    (h : (execute step guard s actions).any (fun s' => decide (p s')) = true) :
    ∃ s', Path step guard s s' ∧ p s' := by
  cases hs' : execute step guard s actions with
  | none => simp [hs'] at h
  | some s' =>
    rw [hs', Option.any_some, decide_eq_true_eq] at h
    exact ⟨s', execute_path step guard actions s s' hs', h⟩

/-- A test passed by two states in sequence holds of the states of a run and its continuation. -/
theorem exists_paths_of_execute (actions actions' : List A) (s : S) (p : S → S → Prop)
    [∀ s' s'', Decidable (p s' s'')]
    (h : ((execute step guard s actions).bind fun s' =>
      (execute step guard s' actions').filter fun s'' => decide (p s' s'')).isSome = true) :
    ∃ s' s'', Path step guard s s' ∧ Path step guard s' s'' ∧ p s' s'' := by
  obtain ⟨s'', h⟩ := Option.isSome_iff_exists.mp h
  obtain ⟨s', hfirst, h⟩ := Option.bind_eq_some_iff.mp h
  obtain ⟨hsecond, hp⟩ := Option.filter_eq_some_iff.mp h
  exact ⟨s', s'', execute_path step guard actions s s' hfirst,
    execute_path step guard actions' s' s'' hsecond, of_decide_eq_true hp⟩

end Execution

section Prefixes

variable {step : S → A → Option S} {s₀ : S}

/-- One more action leads one state further. -/
theorem execute_snoc {before : List A} {a : A} {s' : S} :
    execute step anyStep s₀ (before ++ [a]) = some s' ↔
      ∃ s, execute step anyStep s₀ before = some s ∧ step s a = some s' := by
  simp [execute_append, execute, anyStep, Option.bind_eq_some_iff]

/-- The part of a list before one of its actions, and that action. -/
theorem part_snoc {before actions : List A} {a : A} (hpart : (before ++ [a]) <+: actions) :
    before <+: actions ∧ a ∈ actions :=
  ⟨(List.prefix_append before [a]).trans hpart,
    hpart.subset (List.mem_append_right before (List.mem_singleton_self a))⟩

/-- An executed list of actions goes on from the state after any part of it. -/
theorem execute_rest {before actions : List A} {s s' : S} (hpart : before <+: actions)
    (hs : execute step anyStep s₀ before = some s) (h : execute step anyStep s₀ actions = some s') :
    Path step anyStep s s' := by
  obtain ⟨rest, rfl⟩ := hpart
  rw [execute_append, hs, Option.bind_some] at h
  exact execute_path step anyStep rest s s' h

/-- A property kept by all actions of a list holds after it if it holds before. -/
theorem execute_invariant (inv : S → Prop) {actions : List A} {s' : S}
    (hkeep : ∀ a ∈ actions, ∀ s s', inv s → step s a = some s' → inv s') (hinit : inv s₀)
    (h : execute step anyStep s₀ actions = some s') : inv s' := by
  induction actions using List.reverseRecOn generalizing s' with
  | nil =>
    cases h
    exact hinit
  | append_singleton actions a ih =>
    obtain ⟨s, hs, hstep⟩ := execute_snoc.mp h
    have hbefore := ih (fun b hb => hkeep b (List.mem_append_left [a] hb)) hs
    exact hkeep a (List.mem_append_right actions (List.mem_singleton_self a)) s s' hbefore hstep

/-- A property holds in all states along a list of actions exactly if no action is bad, where the
bad actions leave the property and the others keep an invariant that implies it. -/
theorem always_iff (inv P : S → Prop) {bad : S → A → Prop} (hinit : inv s₀)
    (hinv : ∀ s, inv s → P s)
    (hkeep : ∀ s a s', inv s → ¬bad s a → step s a = some s' → inv s')
    (hbreak : ∀ s a s', inv s → bad s a → step s a = some s' → ¬P s') (actions : List A) :
    (∀ before s, before <+: actions → execute step anyStep s₀ before = some s → P s) ↔
      ∀ before a s s', (before ++ [a]) <+: actions → execute step anyStep s₀ before = some s →
        step s a = some s' → ¬bad s a := by
  -- the invariant holds as far as no action is bad, by induction on the prefix from its end
  have hgoes : (∀ before a s s', (before ++ [a]) <+: actions →
      execute step anyStep s₀ before = some s → step s a = some s' → inv s → ¬bad s a) →
      ∀ before s, before <+: actions → execute step anyStep s₀ before = some s → inv s := by
    intro hgood before
    induction before using List.reverseRecOn with
    | nil =>
      intro s _ hs
      cases hs
      exact hinit
    | append_singleton before a ih =>
      intro s hpart hs
      obtain ⟨s₁, hs₁, hstep⟩ := execute_snoc.mp hs
      have hinv₁ := ih s₁ (part_snoc hpart).1 hs₁
      exact hkeep s₁ a s hinv₁ (hgood before a s₁ s hpart hs₁ hstep hinv₁) hstep
  constructor
  · intro hP
    have hgood : ∀ before a s s', (before ++ [a]) <+: actions →
        execute step anyStep s₀ before = some s → step s a = some s' → inv s → ¬bad s a := by
      intro before a s s' hpart hs hstep hinv hbad
      exact hbreak s a s' hinv hbad hstep (hP _ s' hpart (execute_snoc.mpr ⟨s, hs, hstep⟩))
    intro before a s s' hpart hs hstep
    have hreached := hgoes hgood before s (part_snoc hpart).1 hs
    exact hgood before a s s' hpart hs hstep hreached
  · intro hgood before s hpart hs
    refine hinv s (hgoes ?_ before s hpart hs)
    exact fun before a s s' hpart hs hstep _ => hgood before a s s' hpart hs hstep

/-- A rank that no action of a list raises and that the chosen ones lower has fallen by as many of
them, or to zero. -/
theorem execute_rank {guard : S → A → Prop} [∀ s a, Decidable (guard s a)] (inv : S → Prop)
    (rank : S → ℕ) (own : A → Bool) {actions : List A} {s s' : S}
    (hkeep : ∀ a ∈ actions, ∀ s s', guard s a → inv s → step s a = some s' →
      inv s' ∧ rank s' ≤ rank s - (own a).toNat) (hinit : inv s)
    (h : execute step guard s actions = some s') :
    inv s' ∧ rank s' ≤ rank s - actions.countP own := by
  induction actions generalizing s with
  | nil =>
    cases h
    exact ⟨hinit, by simp⟩
  | cons a rest ih =>
    obtain ⟨hguard, h⟩ := Option.ite_none_right_eq_some.mp h
    obtain ⟨s₁, hfirst, hrest⟩ := Option.bind_eq_some_iff.mp h
    obtain ⟨hinv, hfalls⟩ := hkeep a List.mem_cons_self s s₁ hguard hinit hfirst
    obtain ⟨hend, hrank⟩ := ih (fun b hb => hkeep b (List.mem_cons_of_mem a hb)) hinv hrest
    refine ⟨hend, ?_⟩
    rw [List.countP_cons]
    cases hown : own a <;> simp only [hown, Bool.toNat_true, Bool.toNat_false] at hfalls <;>
      simp only [if_true, Bool.false_eq_true, if_false] <;> omega

/-- A rank that no action of a list raises and that the chosen ones lower bounds how many of them
there are. -/
theorem execute_countP {guard : S → A → Prop} [∀ s a, Decidable (guard s a)] (inv : S → Prop)
    (rank : S → ℕ) (own : A → Bool) {actions : List A} {s s' : S}
    (hkeep : ∀ a ∈ actions, ∀ s s', guard s a → inv s → step s a = some s' →
      inv s' ∧ rank s' + (own a).toNat ≤ rank s) (hinit : inv s)
    (h : execute step guard s actions = some s') :
    inv s' ∧ rank s' + actions.countP own ≤ rank s := by
  induction actions generalizing s with
  | nil =>
    cases h
    exact ⟨hinit, Nat.le_refl _⟩
  | cons a rest ih =>
    obtain ⟨hguard, h⟩ := Option.ite_none_right_eq_some.mp h
    obtain ⟨s₁, hfirst, hrest⟩ := Option.bind_eq_some_iff.mp h
    obtain ⟨hinv, hfalls⟩ := hkeep a List.mem_cons_self s s₁ hguard hinit hfirst
    obtain ⟨hend, hrank⟩ := ih (fun b hb => hkeep b (List.mem_cons_of_mem a hb)) hinv hrest
    refine ⟨hend, ?_⟩
    rw [List.countP_cons]
    cases hown : own a <;> simp only [hown, Bool.toNat_true, Bool.toNat_false] at hfalls <;>
      simp only [if_true, Bool.false_eq_true, if_false] <;> omega

end Prefixes

section Counting

variable (step : S → A → Option S) (p : S → A → Bool)

/-- How many actions of a list pass a test on the state before them. -/
def occurrences : S → List A → ℕ
  | _, [] => 0
  | s, a :: rest => (p s a).toNat + (step s a).elim 0 fun s' => occurrences s' rest

/-- One more action is counted in the state before it. -/
theorem occurrences_snoc {before : List A} {a : A} {s₀ s : S}
    (h : execute step anyStep s₀ before = some s) :
    occurrences step p s₀ (before ++ [a]) = occurrences step p s₀ before + (p s a).toNat := by
  induction before generalizing s₀ with
  | nil =>
    cases h
    cases hstep : step s a <;> simp [occurrences, hstep]
  | cons b rest ih =>
    obtain ⟨-, h⟩ := Option.ite_none_right_eq_some.mp h
    obtain ⟨s₁, hfirst, hrest⟩ := Option.bind_eq_some_iff.mp h
    simp only [List.cons_append, occurrences, hfirst, Option.elim_some, ih hrest, Nat.add_assoc]

/-- A part of a list passes the test at most as often. -/
theorem occurrences_le {before actions : List A} {s₀ s : S} (hpart : before <+: actions)
    (h : execute step anyStep s₀ actions = some s) :
    occurrences step p s₀ before ≤ occurrences step p s₀ actions := by
  induction actions using List.reverseRecOn generalizing s with
  | nil =>
    obtain rfl := List.prefix_nil.mp hpart
    exact Nat.le_refl _
  | append_singleton actions a ih =>
    obtain ⟨s₁, hs₁, -⟩ := execute_snoc.mp h
    rw [occurrences_snoc step p hs₁]
    rcases List.prefix_concat_iff.mp hpart with rfl | hpart
    · exact Nat.le_of_eq (occurrences_snoc step p hs₁)
    · exact Nat.le_trans (ih hpart hs₁) (Nat.le_add_right _ _)

/-- A property of the state and of how many actions passed the test holds along a list of actions
if it holds at the start and every action keeps it. -/
theorem occurrences_invariant (inv : ℕ → S → Prop) {actions : List A} {s₀ : S} (hinit : inv 0 s₀)
    (hkeep : ∀ before a s s', (before ++ [a]) <+: actions →
      execute step anyStep s₀ before = some s → step s a = some s' →
      inv (occurrences step p s₀ before) s → inv (occurrences step p s₀ before + (p s a).toNat) s')
    {before : List A} {s : S} (hpart : before <+: actions)
    (hs : execute step anyStep s₀ before = some s) : inv (occurrences step p s₀ before) s := by
  induction before using List.reverseRecOn generalizing s with
  | nil =>
    cases hs
    exact hinit
  | append_singleton before a ih =>
    obtain ⟨s₁, hs₁, hstep⟩ := execute_snoc.mp hs
    rw [occurrences_snoc step p hs₁]
    exact hkeep before a s₁ s hpart hs₁ hstep (ih (part_snoc hpart).1 hs₁)

end Counting

end Transition
