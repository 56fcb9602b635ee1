import Mathlib.Algebra.Order.BigOperators.Group.Finset
import Mathlib.Data.Fintype.BigOperators

/-!
# Tallies

A quantity that is the sum of what each thread has added to it, and the number of threads that
have done something. A step of one thread changes its own part alone.
-/

namespace Tally

variable {T : Type*} [DecidableEq T] {t : T}

/-- A change of one part is a change of the sum. -/
theorem sum_add_of_agree {S : Finset T} {f g : T → ℕ} (ht : t ∈ S) (h : ∀ u, u ≠ t → f u = g u) :
    ∑ u ∈ S, f u + g t = ∑ u ∈ S, g u + f t := by
  have hf := Finset.add_sum_erase S f ht
  have hg := Finset.add_sum_erase S g ht
  have hrest : ∑ u ∈ S.erase t, f u = ∑ u ∈ S.erase t, g u :=
    Finset.sum_congr rfl fun u hu => h u (Finset.ne_of_mem_erase hu)
  omega

omit [DecidableEq T] in
/-- A part outside the sum does not change it. -/
theorem sum_of_notMem {S : Finset T} {f g : T → ℕ} (ht : t ∉ S) (h : ∀ u, u ≠ t → f u = g u) :
    ∑ u ∈ S, f u = ∑ u ∈ S, g u :=
  Finset.sum_congr rfl fun u hu => h u fun heq => ht (heq ▸ hu)

variable [Fintype T] {p : T → Bool}

omit [DecidableEq T] in
/-- No more threads have done something than there are. -/
theorem sum_toNat_le : ∑ t, (p t).toNat ≤ Fintype.card T := by
  calc ∑ t, (p t).toNat ≤ ∑ _t : T, 1 := Finset.sum_le_sum fun t _ => Bool.toNat_le (p t)
    _ = Fintype.card T := by simp

omit [DecidableEq T] in
/-- Fewer, if one of them has not. -/
theorem sum_toNat_lt (ht : p t = false) : ∑ u, (p u).toNat < Fintype.card T := by
  calc ∑ u, (p u).toNat < ∑ _u : T, 1 :=
        Finset.sum_lt_sum (fun u _ => Bool.toNat_le (p u))
          ⟨t, Finset.mem_univ t, by rw [ht]; exact Nat.zero_lt_one⟩
    _ = Fintype.card T := by simp

end Tally
