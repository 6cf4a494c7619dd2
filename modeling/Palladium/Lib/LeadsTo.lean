import Mathlib.Order.Nat

/-! # What happens eventually in an infinite run

A property leads to another if every state of the run that has the first is followed by one that has
the second.
-/

namespace Trace
variable {σ : Type*} {s : ℕ → σ} {P Q R : σ → Prop}

def LeadsTo (s : ℕ → σ) (P Q : σ → Prop) : Prop := ∀ n, P (s n) → ∃ m ≥ n, Q (s m)

theorem LeadsTo.trans_or (h₁ : LeadsTo s P (fun x => Q x ∨ R x)) (h₂ : LeadsTo s Q R) :
    LeadsTo s P R := by
  intro n hn
  obtain ⟨m, hm, hQ | hR⟩ := h₁ n hn
  · obtain ⟨k, hk, hR⟩ := h₂ m hQ
    exact ⟨k, le_trans hm hk, hR⟩
  · exact ⟨m, hm, hR⟩

theorem holds_or_reached (h : ∀ n, P (s n) → P (s (n + 1)) ∨ Q (s (n + 1))) {n m : ℕ}
    (hnm : n ≤ m) (hn : P (s n)) : P (s m) ∨ ∃ k ≥ n, Q (s k) := by
  induction m, hnm using Nat.le_induction with
  | base => exact .inl hn
  | succ m hnm ih =>
    rcases ih with hm | hk
    · exact (h m hm).imp_right fun hQ => ⟨m + 1, by omega, hQ⟩
    · exact .inr hk

theorem leadsTo_of_helpful_step (hke : ∀ n, P (s n) → P (s (n + 1)) ∨ Q (s (n + 1)))
    (hh : ∀ n, P (s n) → ∃ m ≥ n, P (s m) → Q (s (m + 1))) : LeadsTo s P Q := by
  intro n hn
  obtain ⟨m, hm, hs⟩ := hh n hn
  rcases holds_or_reached hke hm hn with hP | hk
  · exact ⟨m + 1, by omega, hs hP⟩
  · exact hk

end Trace
