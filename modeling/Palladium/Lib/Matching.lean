import Mathlib.Data.List.NodupEquivFin

/-! # Matching in order

A list is matched into another one in order.
-/

namespace List
variable {α β : Type*} {R : α → β → Prop} {a : α} {b : β} {as : List α} {bs : List β}

theorem SublistForall₂.of_cons (h : SublistForall₂ R (a :: as) bs) : SublistForall₂ R as bs := by
  obtain ⟨l, hl, hs⟩ := sublistForall₂_iff.mp h
  cases hl with
  | cons _ hl => exact sublistForall₂_iff.mpr ⟨_, hl, (sublist_cons_self _ _).trans hs⟩

theorem SublistForall₂.length_le (h : SublistForall₂ R as bs) : as.length ≤ bs.length := by
  obtain ⟨l, hl, hs⟩ := sublistForall₂_iff.mp h
  exact hl.length_eq.trans_le hs.length_le

theorem sublistForall₂_cons_cons [Decidable (R a b)] : SublistForall₂ R (a :: as) (b :: bs) ↔
      SublistForall₂ R (if R a b then as else a :: as) bs := by
  split_ifs with h
  · refine ⟨fun hs => ?_, .cons h⟩
    cases hs with
    | cons _ hs => exact hs
    | cons_right hs => exact hs.of_cons
  · refine ⟨fun hs => ?_, .cons_right⟩
    cases hs with
    | cons hR _ => exact absurd hR h
    | cons_right hs => exact hs

theorem sublistForall₂_iff_strictMono : SublistForall₂ R as bs ↔
      ∃ f : Fin as.length → Fin bs.length, StrictMono f ∧ ∀ i, R (as.get i) (bs.get (f i)) := by
  rw [sublistForall₂_iff]
  constructor
  · rintro ⟨l, hl, hs⟩
    obtain ⟨hle, hR⟩ := forall₂_iff_get.mp hl
    obtain ⟨f, hf⟩ := sublist_iff_exists_fin_orderEmbedding_get_eq.mp hs
    refine ⟨f ∘ Fin.cast hle, f.strictMono.comp fun _ _ h => h, fun i => ?_⟩
    rw [Function.comp_apply, ← hf]
    exact hR i i.isLt (hle ▸ i.isLt)
  · rintro ⟨f, hf, hR⟩
    refine ⟨ofFn fun i => bs.get (f i), forall₂_iff_get.mpr ⟨(length_ofFn).symm, ?_⟩, ?_⟩
    · intro i h₁ h₂
      simpa using hR ⟨i, h₁⟩
    · refine sublist_iff_exists_fin_orderEmbedding_get_eq.mpr
        ⟨.ofStrictMono (f ∘ Fin.cast length_ofFn) (hf.comp fun _ _ h => h), fun i => ?_⟩
      exact get_ofFn _ i

end List
