import Mathlib.Algebra.Order.BigOperators.Group.Finset
import Mathlib.Algebra.BigOperators.Intervals
import Mathlib.Tactic.Linarith

/-! # The least strictly increasing sequence above a sequence

A term not above the one before it is replaced by that one's successor.
-/

namespace Increasing

def normalise (f : ℕ → ℤ) : ℕ → ℤ
  | 0 => f 0
  | n + 1 => max (f (n + 1)) (normalise f n + 1)

variable {f g : ℕ → ℤ} {n : ℕ}

theorem normalise_lt_succ (f : ℕ → ℤ) (n : ℕ) : normalise f n < normalise f (n + 1) := by
  rw [normalise]
  omega

theorem le_normalise (f : ℕ → ℤ) (n : ℕ) : f n ≤ normalise f n := by
  cases n with
  | zero => exact le_rfl
  | succ n => exact le_max_left _ _

theorem normalise_congr (h : ∀ i ≤ n, f i = g i) : normalise f n = normalise g n := by
  induction n with
  | zero => exact h 0 le_rfl
  | succ n ih => rw [normalise, normalise, h (n + 1) le_rfl, ih fun i hi => h i (by omega)]

theorem normalise_mono (h : ∀ i ≤ n, f i ≤ g i) : normalise f n ≤ normalise g n := by
  induction n with
  | zero => exact h 0 le_rfl
  | succ n ih =>
    have := ih fun i hi => h i (by omega)
    exact max_le_max (h (n + 1) le_rfl) (by omega)

theorem normalise_of_increasing (h : ∀ i < n, f i < f (i + 1)) : normalise f n = f n := by
  induction n with
  | zero => rfl
  | succ n ih =>
    rw [normalise, ih fun i hi => h i (by omega)]
    have := h n (Nat.lt_succ_self n)
    omega

theorem normalise_normalise (f : ℕ → ℤ) (n : ℕ) : normalise (normalise f) n = normalise f n :=
  normalise_of_increasing fun i _ => normalise_lt_succ f i

theorem normalise_add (f : ℕ → ℤ) (c : ℤ) (n : ℕ) :
    normalise (fun i => f i + c) n = normalise f n + c := by
  induction n with
  | zero => rfl
  | succ n ih =>
    rw [normalise, normalise, ih]
    omega

theorem normalise_le {M : ℤ} (h : ∀ i ≤ n, f i ≤ M) : normalise f n ≤ M + n := by
  induction n with
  | zero => simpa [normalise] using h 0 le_rfl
  | succ n ih =>
    have hn := ih fun i hi => h i (by omega)
    have hf := h (n + 1) le_rfl
    rw [normalise]
    push_cast
    omega

def weightedGaps (cap : ℤ) (gap : ℕ → ℤ) (n : ℕ) : ℤ :=
  ∑ i ∈ Finset.range n, min cap (gap i) * (i + 1)

variable {cap : ℤ} {gap gap' : ℕ → ℤ}

theorem weightedGaps_succ (cap : ℤ) (gap : ℕ → ℤ) (n : ℕ) :
    weightedGaps cap gap (n + 1) = weightedGaps cap gap n + min cap (gap n) * (n + 1) :=
  Finset.sum_range_succ ..

theorem weightedGaps_congr (h : ∀ i < n, min cap (gap i) = min cap (gap' i)) :
    weightedGaps cap gap n = weightedGaps cap gap' n :=
  Finset.sum_congr rfl fun i hi => by rw [h i (Finset.mem_range.mp hi)]

theorem weightedGaps_mono (cap : ℤ) (h : ∀ i < n, gap i ≤ gap' i) :
    weightedGaps cap gap n ≤ weightedGaps cap gap' n :=
  Finset.sum_le_sum fun i hi =>
    mul_le_mul_of_nonneg_right (min_le_min_left cap (h i (Finset.mem_range.mp hi))) (by omega)

theorem two_mul_weightedGaps_le (cap : ℤ) (gap : ℕ → ℤ) (n : ℕ) :
    2 * weightedGaps cap gap n ≤ cap * (n * (n + 1)) := by
  induction n with
  | zero => simp [weightedGaps]
  | succ n ih =>
    have hn := mul_le_mul_of_nonneg_right (min_le_left cap (gap n)) (by omega : (0 : ℤ) ≤ n + 1)
    rw [weightedGaps_succ]
    push_cast
    linarith

theorem le_two_mul_weightedGaps (hc : 1 ≤ cap) (hg : ∀ i < n, 1 ≤ gap i) :
    (n : ℤ) * (n + 1) ≤ 2 * weightedGaps cap gap n := by
  induction n with
  | zero => simp [weightedGaps]
  | succ n ih =>
    have hn := mul_le_mul_of_nonneg_right (le_min hc (hg n (Nat.lt_succ_self n)))
      (by omega : (0 : ℤ) ≤ n + 1)
    have := ih fun i hi => hg i (by omega)
    rw [weightedGaps_succ]
    push_cast
    linarith

end Increasing
