import Mathlib.Data.Fin.Tuple.Basic
import Mathlib.Data.Finset.Card
import Mathlib.Data.Fintype.Prod
import Mathlib.Logic.Function.Basic

/-!
# Arrays of slots that are searched from the front

A lookup takes the first slot that passes a test, and an entry goes into the first free slot. As
long as nothing is removed there is no free slot before a used one, so a new entry comes after
all others: the first entry that passes a test stays the one that is found. An entry finds no room
exactly if as many slots are used as there are. In a table of such arrays the slots with a given
content are counted, one write at a time.
-/

namespace SlotArray

variable {S : Type*} {n : ℕ}

/-- The first slot that passes a test; irreducible, so that it is only used by the lemmas below. -/
@[irreducible] def firstMatch (p : S → Bool) (slots : Fin n → S) : Option (Fin n) :=
  Fin.find? fun i => p (slots i)

/-- The content of the first slot that passes a test. -/
def lookup (p : S → Bool) (slots : Fin n → S) : Option S := (firstMatch p slots).map slots

/-- Put an entry into the first free slot. -/
def place (free : S → Bool) (slots : Fin n → S) (x : S) : Option (Fin n → S) :=
  (firstMatch free slots).map fun i => Function.update slots i x

/-- There is no free slot before a used one. -/
def Packed (free : S → Bool) (slots : Fin n → S) : Prop :=
  ∀ i j, i < j → free (slots i) = true → free (slots j) = true

variable {p free : S → Bool} {slots slots' : Fin n → S} {x : S} {i : Fin n}

/-- The first match passes the test, and no slot before it does. -/
theorem firstMatch_eq_some_iff :
    firstMatch p slots = some i ↔ p (slots i) = true ∧ ∀ j < i, p (slots j) = false := by
  rw [firstMatch]
  exact Fin.find?_eq_some_iff

/-- There is no match if no slot passes the test. -/
theorem firstMatch_eq_none_iff : firstMatch p slots = none ↔ ∀ j, p (slots j) = false := by
  rw [firstMatch]
  exact Fin.find?_eq_none_iff

/-- What is found passes the test. -/
theorem lookup_passes (h : lookup p slots = some x) : p x = true ∧ ∃ i, slots i = x := by
  obtain ⟨i, hi, rfl⟩ := Option.map_eq_some_iff.mp h
  exact ⟨(firstMatch_eq_some_iff.mp hi).1, i, rfl⟩

/-- Nothing is found if no slot passes the test. -/
theorem lookup_eq_none_iff : lookup p slots = none ↔ ∀ j, p (slots j) = false := by
  rw [lookup, Option.map_eq_none_iff, firstMatch_eq_none_iff]

/-- An entry in a slot that has only used ones before it leaves no free slot before a used one. -/
theorem Packed.update (h : Packed free slots) (hx : free x = false)
    (hused : ∀ j < i, free (slots j) = false) : Packed free (Function.update slots i x) := by
  intro j k hjk hj
  have hji : j ≠ i := by
    rintro rfl
    rw [Function.update_self, hx] at hj
    cases hj
  rw [Function.update_of_ne hji] at hj
  have hij : i < j := by
    refine lt_of_le_of_ne (not_lt.mp fun hlt => ?_) (Ne.symm hji)
    rw [hused j hlt] at hj
    cases hj
  rw [Function.update_of_ne (hij.trans hjk).ne']
  exact h j k hjk hj

/-- An entry in the first free slot leaves no free slot before a used one. -/
theorem Packed.place (h : Packed free slots) (hx : free x = false)
    (hplace : place free slots x = some slots') : Packed free slots' := by
  obtain ⟨i, hi, rfl⟩ := Option.map_eq_some_iff.mp hplace
  exact h.update hx (firstMatch_eq_some_iff.mp hi).2

/-- The slot that an entry takes, if free slots pass no test, is found only if nothing was. -/
theorem lookup_place (h : Packed free slots) (hfree : ∀ y, free y = true → p y = false)
    (hplace : place free slots x = some slots') :
    lookup p slots' = (lookup p slots).or (if p x then some x else none) := by
  obtain ⟨i, hi, rfl⟩ := Option.map_eq_some_iff.mp hplace
  obtain ⟨hfreei, -⟩ := firstMatch_eq_some_iff.mp hi
  cases hk : firstMatch p slots with
  | some k =>
    obtain ⟨hpk, hbefore⟩ := firstMatch_eq_some_iff.mp hk
    have hki : k < i := by
      refine lt_of_not_ge fun hik => ?_
      have hfreek : free (slots k) = true := by
        rcases hik.lt_or_eq with hlt | heq
        · exact h i k hlt hfreei
        · exact heq ▸ hfreei
      rw [hfree _ hfreek] at hpk
      cases hpk
    have hsame : firstMatch p (Function.update slots i x) = some k := by
      refine firstMatch_eq_some_iff.mpr ⟨?_, fun j hj => ?_⟩
      · rw [Function.update_of_ne hki.ne]
        exact hpk
      · rw [Function.update_of_ne (hj.trans hki).ne]
        exact hbefore j hj
    rw [lookup, hsame, lookup, hk, Option.map_some, Option.map_some, Function.update_of_ne hki.ne,
      Option.some_or]
  | none =>
    have hnone := firstMatch_eq_none_iff.mp hk
    rw [lookup, lookup, hk, Option.map_none, Option.none_or]
    cases hx : p x with
    | true =>
      have hfound : firstMatch p (Function.update slots i x) = some i := by
        refine firstMatch_eq_some_iff.mpr ⟨?_, fun j hj => ?_⟩
        · rw [Function.update_self]
          exact hx
        · rw [Function.update_of_ne hj.ne]
          exact hnone j
      rw [hfound, Option.map_some, Function.update_self]
      rfl
    | false =>
      have hmissing : firstMatch p (Function.update slots i x) = none := by
        refine firstMatch_eq_none_iff.mpr fun j => ?_
        rw [Function.update_apply]
        split
        · exact hx
        · exact hnone j
      rw [hmissing]
      rfl

/-- How many slots are not free. -/
def used (free : S → Bool) (slots : Fin n → S) : ℕ :=
  (Finset.univ.filter fun i => free (slots i) = false).card

/-- There are no more used slots than slots. -/
theorem used_le (free : S → Bool) (slots : Fin n → S) : used free slots ≤ n := by
  have hle := Finset.card_le_univ (Finset.univ.filter fun i => free (slots i) = false)
  rwa [Fintype.card_fin] at hle

/-- An entry finds no slot if all are used. -/
theorem place_eq_none_iff : place free slots x = none ↔ used free slots = n := by
  have hall : used free slots = n ↔ ∀ i, free (slots i) = false := by
    constructor
    · intro hused i
      have huniv : (Finset.univ.filter fun i => free (slots i) = false) = Finset.univ :=
        (Finset.card_eq_iff_eq_univ _).mp (hused.trans (Fintype.card_fin n).symm)
      have hmem : i ∈ Finset.univ.filter fun i => free (slots i) = false := by
        rw [huniv]
        exact Finset.mem_univ i
      exact (Finset.mem_filter.mp hmem).2
    · intro hfree
      rw [used, Finset.filter_true_of_mem fun i _ => hfree i, Finset.card_univ, Fintype.card_fin]
  rw [place, Option.map_eq_none_iff, firstMatch_eq_none_iff, hall]

/-- An entry takes a free slot. -/
theorem used_place (hx : free x = false) (hplace : place free slots x = some slots') :
    used free slots' = used free slots + 1 := by
  obtain ⟨i, hi, rfl⟩ := Option.map_eq_some_iff.mp hplace
  have hfree : free (slots i) = true := (firstMatch_eq_some_iff.mp hi).1
  have hnew : i ∉ Finset.univ.filter fun j => free (slots j) = false := by simp [hfree]
  rw [used, used, ← Finset.card_insert_of_notMem hnew]
  congr 1
  ext j
  by_cases hj : j = i
  · simp [hj, hx]
  · simp [hj]

section Tables

variable {B : Type*} [Fintype B] [DecidableEq S] {table table' : B → Fin n → S}
  {b : B}

/-- The places of a table that have a content; irreducible, so that they are never listed. -/
@[irreducible] def places (table : B → Fin n → S) (x : S) : Finset (B × Fin n) :=
  Finset.univ.filter fun c => table c.1 c.2 = x

/-- A place is among them if it has the content. -/
theorem mem_places : (b, i) ∈ places table x ↔ table b i = x := by
  simp [places]

/-- The places whose content is not the given one before and after a write stay the same. -/
theorem places_of_write_other (hsame : ∀ b' j, b' ≠ b ∨ j ≠ i → table' b' j = table b' j)
    (hbefore : table b i ≠ x) (hafter : table' b i ≠ x) : places table' x = places table x := by
  ext ⟨b', j⟩
  rw [mem_places, mem_places]
  by_cases hne : b' ≠ b ∨ j ≠ i
  · rw [hsame b' j hne]
  · obtain ⟨rfl, rfl⟩ : b' = b ∧ j = i := by simpa using hne
    exact iff_of_false hafter hbefore

/-- A write of the content to a place that did not have it adds this place. -/
theorem card_places_of_write [DecidableEq B]
    (hsame : ∀ b' j, b' ≠ b ∨ j ≠ i → table' b' j = table b' j)
    (hbefore : table b i ≠ x) (hafter : table' b i = x) :
    (places table' x).card = (places table x).card + 1 := by
  have hnew : (b, i) ∉ places table x := fun hmem => hbefore (mem_places.mp hmem)
  have hinsert : places table' x = insert (b, i) (places table x) := by
    ext ⟨b', j⟩
    rw [mem_places, Finset.mem_insert, mem_places, Prod.mk.injEq]
    by_cases hne : b' ≠ b ∨ j ≠ i
    · rw [hsame b' j hne, or_iff_right]
      rintro ⟨rfl, rfl⟩
      simp at hne
    · obtain ⟨rfl, rfl⟩ : b' = b ∧ j = i := by simpa using hne
      exact iff_of_true hafter (Or.inl ⟨rfl, rfl⟩)
  rw [hinsert, Finset.card_insert_of_notMem hnew]

end Tables

end SlotArray
