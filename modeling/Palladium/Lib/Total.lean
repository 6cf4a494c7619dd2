import Mathlib.Algebra.BigOperators.Finprod
import Mathlib.Algebra.BigOperators.Intervals
import Mathlib.Algebra.Order.BigOperators.Group.Finset

/-! # Totals

The sum of a finitely supported family under the change of one value, and sums of functions
that are constant on consecutive stretches of equal length.
-/

open Finset
section Update
variable {κ : Type*} [DecidableEq κ] {f : κ → ℤ}

theorem finsum_update (hf : f.support.Finite) (k : κ) (v : ℤ) :
    ∑ᶠ i, Function.update f k v i = ∑ᶠ i, f i - f k + v := by
  have hk : k ∈ insert k hf.toFinset := mem_insert_self ..
  have hs : f.support ⊆ ↑(insert k hf.toFinset) := by
    intro i hi
    exact mem_insert_of_mem (hf.mem_toFinset.2 hi)
  have hs' : (Function.update f k v).support ⊆ ↑(insert k hf.toFinset) := by
    intro i hi
    by_cases h : i = k
    · exact h ▸ hk
    · rw [Function.mem_support, Function.update_of_ne h] at hi
      exact hs hi
  rw [finsum_eq_sum_of_support_subset _ hs', finsum_eq_sum_of_support_subset _ hs,
    sum_update_of_mem hk, sum_eq_add_sum_sdiff_singleton_of_mem hk f]
  ring

end Update

section Stretches
variable {g : ℕ → ℤ} {q : ℕ}

theorem sum_range_div (hq : 0 < q) (n : ℕ) :
    ∑ i ∈ Finset.range (n * q), g (i / q) = q * ∑ k ∈ Finset.range n, g k := by
  induction n with
  | zero => simp
  | succ n ih =>
    have hl : ∑ i ∈ Finset.range q, g ((n * q + i) / q) = q * g n := by
      rw [sum_congr rfl fun i hi => ?_, sum_const, card_range, nsmul_eq_mul]
      congr 1
      rw [Nat.mul_comm, Nat.mul_add_div hq, Nat.div_eq_of_lt (mem_range.1 hi), add_zero]
    rw [Nat.succ_mul, sum_range_add, ih, hl, sum_range_succ]
    ring

theorem sum_le_sum_range {f : ℕ → ℤ} {N : ℕ} (hf : ∀ i, 0 ≤ f i) (hz : ∀ i, N ≤ i → f i = 0)
    (s : Finset ℕ) : ∑ i ∈ s, f i ≤ ∑ i ∈ Finset.range N, f i := by
  rw [← sum_filter_of_ne (p := (· < N)) fun i _ hi => lt_of_not_ge fun h => hi (hz i h)]
  apply sum_le_sum_of_subset_of_nonneg
  · intro i hi
    exact mem_range.2 (mem_filter.1 hi).2
  · intro i _ _
    exact hf i

end Stretches
