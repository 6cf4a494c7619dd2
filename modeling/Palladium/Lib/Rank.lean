import Mathlib.Data.List.Sort

/-! # Ranks in sorted lists

A lower bound of the entry at a place of a sorted list is a bound on the number of smaller entries.
-/

namespace List
variable {α : Type*} [LinearOrder α] {l : List α} {k : ℕ} {m : α}

theorem countP_lt_eq_zero {x : α} (hx : ∀ y ∈ l, x ≤ y) (hm : m ≤ x) : l.countP (· < m) = 0 := by
  rw [countP_eq_zero]
  intro y hy
  simpa using hm.trans (hx y hy)

theorem Pairwise.le_getElem_iff (hl : l.Pairwise (· ≤ ·)) (hk : k < l.length) :
    m ≤ l[k] ↔ l.countP (· < m) ≤ k := by
  induction l generalizing k with
  | nil => cases hk
  | cons x l ih =>
    rw [pairwise_cons] at hl
    rcases lt_or_ge x m with hx | hx
    · rw [countP_cons_of_pos (by simpa using hx)]
      cases k with
      | zero => simp [hx]
      | succ k => simpa using ih hl.2 (by simpa using hk)
    · rw [countP_cons_of_neg (by simpa using hx), countP_lt_eq_zero hl.1 hx]
      refine iff_of_true ?_ (Nat.zero_le k)
      cases k with
      | zero => exact hx
      | succ k => exact hx.trans (hl.1 _ (getElem_mem _))

theorem le_getElem_insertionSort_iff (hk : k < (l.insertionSort (· ≤ ·)).length) :
    m ≤ (l.insertionSort (· ≤ ·))[k] ↔ l.countP (· < m) ≤ k := by
  rw [(pairwise_insertionSort (· ≤ ·) l).le_getElem_iff hk,
    (perm_insertionSort (· ≤ ·) l).countP_eq]

end List
