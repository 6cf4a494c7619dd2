import Mathlib.Data.Finset.Basic

/-! # Reachability when nodes come or go

Removing a set closed under the relation, in one of its directions, does not disconnect what
remains.
-/

namespace Relation
variable {ι : Type*} {r r' : ι → ι → Prop} {P : ι → Prop} {s : Finset ι} {a b n : ι}

def Keep (r : ι → ι → Prop) (P : ι → Prop) (a b : ι) : Prop := r a b ∧ P a ∧ P b

theorem TransGen.of_keep (h : TransGen (Keep r P) a b) : TransGen r a b ∧ P a ∧ P b := by
  induction h with
  | single ha => exact ⟨.single ha.1, ha.2⟩
  | tail _ hb ih => exact ⟨ih.1.tail hb.1, ih.2.1, hb.2.2⟩

theorem TransGen.keep_of_backward (hc : ∀ a b, r a b → P b → P a) (h : TransGen r a b)
    (hb : P b) : TransGen (Keep r P) a b := by
  suffices hk : TransGen (Keep r P) a b ∧ P a from hk.1
  induction h using TransGen.head_induction_on with
  | single ha => exact ⟨.single ⟨ha, hc _ _ ha hb, hb⟩, hc _ _ ha hb⟩
  | head hac _ ih => exact ⟨.head ⟨hac, hc _ _ hac ih.2, ih.2⟩ ih.1, hc _ _ hac ih.2⟩

theorem TransGen.keep_of_forward (hc : ∀ a b, r a b → P a → P b) (h : TransGen r a b)
    (ha : P a) : TransGen (Keep r P) a b := by
  suffices hk : TransGen (Keep r P) a b ∧ P b from hk.1
  induction h with
  | single hab => exact ⟨.single ⟨hab, ha, hc _ _ hab ha⟩, hc _ _ hab ha⟩
  | tail _ hb ih => exact ⟨.tail ih.1 ⟨hb, ih.2, hc _ _ hb ih.2⟩, hc _ _ hb ih.2⟩

/-- The relation with a new element after those in `s`. -/
def Extend (r : ι → ι → Prop) (n : ι) (s : Finset ι) (a b : ι) : Prop := r a b ∨ b = n ∧ a ∈ s

/-- The element `n` is not related to any other, nor to one in `s`. -/
theorem transGen_extend_iff (hl : ∀ b, ¬ r n b) (hn : n ∉ s) :
    TransGen (Extend r n s) a b ↔ TransGen r a b ∨ b = n ∧ ∃ p ∈ s, ReflTransGen r a p := by
  have ho : ∀ {b c}, Extend r n s b c → b ≠ n := by
    rintro b c (hbc | ⟨-, hb⟩) rfl
    · exact hl c hbc
    · exact hn hb
  constructor
  · intro h
    induction h with
    | single hab =>
      rcases hab with hab | ⟨rfl, ha⟩
      · exact .inl (.single hab)
      · exact .inr ⟨rfl, a, ha, .refl⟩
    | tail _ hbc ih =>
      have hab := ih.resolve_right fun h => ho hbc h.1
      rcases hbc with hbc | ⟨rfl, hb⟩
      · exact .inl (hab.tail hbc)
      · exact .inr ⟨rfl, _, hb, hab.to_reflTransGen⟩
  · have hm : ∀ x y, r x y → Extend r n s x y := fun _ _ => .inl
    rintro (h | ⟨rfl, p, hp, h⟩)
    · exact TransGen.mono hm _ _ h
    · exact .tail' (ReflTransGen.mono hm _ _ h) (.inr ⟨rfl, hp⟩)

theorem acyclic_extend (hr : ∀ a, ¬ TransGen r a a) (hl : ∀ b, ¬ r n b) (hn : n ∉ s) :
    ¬ TransGen (Extend r n s) a a := by
  rw [transGen_extend_iff hl hn, not_or]
  refine ⟨hr a, ?_⟩
  rintro ⟨rfl, p, hp, ha⟩
  rcases ha.cases_head with rfl | ⟨c, hac, -⟩
  · exact hn hp
  · exact hl c hac

end Relation
