import Htll.Text.Lines
import Mathlib.Data.List.Perm.Basic
import Mathlib.Order.Lattice
import Mathlib.Order.Nat

/-!
# Sorted files

`sort -g` orders the lines of a file by their numbers, and `sed -n` takes a line of the result by
its rank: the line with number `k` of a sorted file is the `k`-th smallest.
-/

namespace Text

/-! ## Ranks -/

section Ranks

variable {α : Type*} [LinearOrder α] {xs ys before after : List α} {k : ℕ} {x y : α}

/-- The `k`-th smallest of a list: fewer than `k` are smaller, and `k` are not greater. -/
def IsRanked (xs : List α) (k : ℕ) (x : α) : Prop :=
  xs.countP (· < x) < k ∧ k ≤ xs.countP (· ≤ x)

/-- There is one element of a rank. -/
theorem IsRanked.unique (h : IsRanked xs k x) (h' : IsRanked xs k y) : x = y := by
  have hle : ∀ {x y : α}, IsRanked xs k x → IsRanked xs k y → ¬x < y := by
    intro x y hx hy hlt
    have hmono : xs.countP (· ≤ x) ≤ xs.countP (· < y) :=
      List.countP_mono_left fun z _ hz => by
        simp only [decide_eq_true_eq] at hz ⊢
        exact lt_of_le_of_lt hz hlt
    exact Nat.not_le_of_lt hy.1 (hx.2.trans hmono)
  exact le_antisymm (not_lt.mp (hle h' h)) (not_lt.mp (hle h h'))

/-- Ranks do not depend on the order of the list. -/
theorem IsRanked.perm (h : IsRanked xs k x) (hperm : xs.Perm ys) : IsRanked ys k x := by
  rwa [IsRanked, ← hperm.countP_eq, ← hperm.countP_eq]

/-- The ranks of a sorted list are its positions. -/
theorem isRanked_of_sorted (h : (before ++ x :: after).Pairwise (· ≤ ·)) :
    IsRanked (before ++ x :: after) (before.length + 1) x := by
  obtain ⟨-, hafter, hbefore⟩ := List.pairwise_append.mp h
  have hsmaller : (x :: after).countP (· < x) = 0 := by
    rw [List.countP_eq_zero]
    intro z hz
    rcases List.mem_cons.mp hz with rfl | hz
    · simp
    · simpa using (List.pairwise_cons.mp hafter).1 z hz
  have hnot : before.countP (· ≤ x) = before.length := by
    rw [List.countP_eq_length]
    exact fun z hz => decide_eq_true (hbefore z hz x List.mem_cons_self)
  constructor
  · rw [List.countP_append, hsmaller]
    exact Nat.lt_succ_of_le List.countP_le_length
  · rw [List.countP_append, hnot, List.countP_cons_of_pos (by simp)]
    omega

end Ranks

/-! ## `sort -g` -/

/-- The order of `sort -g`: by the numbers, and lines that are no numerals first. -/
def generalLe (l l' : Line) : Bool :=
  match readDecimal l, readDecimal l' with
  | none, _ => true
  | some _, none => false
  | some n, some n' => n ≤ n'

/-- `sort -g`. Lines that are no numerals stay in the order they had. -/
def sortGeneral (file : List Line) : List Line := file.mergeSort generalLe

/-- Numerals are sorted by their numbers. -/
theorem sortGeneral_map_decimal (values : List ℕ) :
    sortGeneral (values.map decimal) = (values.mergeSort fun n n' => n ≤ n').map decimal := by
  refine (List.map_mergeSort fun n _ n' _ => ?_).symm
  simp [generalLe]

/-- There is no line 0. -/
theorem sedLine_zero (file : List Line) : sedLine 0 file = [] :=
  select_of_forall_not fun j _ => by simp

/-- A line of a sorted file of numerals has its rank. -/
theorem sedLine_sortGeneral {values : List ℕ} {k : ℕ} (hk : 0 < k) (hle : k ≤ values.length) :
    ∃ x, IsRanked values k x ∧ sedLine k (sortGeneral (values.map decimal)) = [decimal x] := by
  have hperm : (values.mergeSort fun n n' => n ≤ n').Perm values := List.mergeSort_perm _ _
  have hsorted : (values.mergeSort fun n n' => n ≤ n').Pairwise (· ≤ ·) :=
    (List.pairwise_mergeSort (fun _ _ _ => by simpa using Nat.le_trans)
      (fun a b => by simpa using Nat.le_total a b) values).imp of_decide_eq_true
  -- the line and those before and after it
  obtain ⟨before, x, after, hsplit, hlength⟩ : ∃ before x after,
      (values.mergeSort fun n n' => n ≤ n') = before ++ x :: after ∧ k = before.length + 1 := by
    have hlt : k - 1 < (values.mergeSort fun n n' => n ≤ n').length := by
      rw [hperm.length_eq]
      omega
    refine ⟨_, _, _, ((List.take_append_drop (k - 1) _).symm.trans
      (congrArg _ (List.drop_eq_getElem_cons hlt))), ?_⟩
    rw [List.length_take]
    omega
  rw [hsplit] at hsorted hperm
  refine ⟨x, hlength ▸ (isRanked_of_sorted hsorted).perm hperm, ?_⟩
  rw [sortGeneral_map_decimal, hsplit, List.map_append, List.map_cons]
  exact sedLine_append_cons _ (by rw [hlength, List.length_map])

end Text
