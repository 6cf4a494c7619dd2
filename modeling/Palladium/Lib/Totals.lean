import Mathlib.Algebra.BigOperators.Group.Finset.Sigma
import Mathlib.Tactic.Abel

/-! # Totals over related nodes

Each node of a finite set keeps a total: its own share and those of the related nodes.
-/

open Relation
variable {ι M : Type*} [AddCommGroup M]
open scoped Classical in
noncomputable def relatedSum (V : Finset ι) (R : ι → ι → Prop) (share : ι → M) (h : ι) : M :=
  ∑ a ∈ V with R a h, share a

/-- `total` adds the share of each node to those of the nodes related to it. -/
def KeepsTotal (V : Finset ι) (R : ι → ι → Prop) (share total : ι → M) : Prop :=
  ∀ h ∈ V, total h = share h + relatedSum V R share h

section RelatedSum
variable {V S : Finset ι} {R R' : ι → ι → Prop} {share share' : ι → M} {h n : ι}

theorem relatedSum_congr (hR : ∀ a ∈ V, (R a h ↔ R' a h)) (hs : ∀ a ∈ V, share a = share' a) :
    relatedSum V R share h = relatedSum V R' share' h := by
  classical
  unfold relatedSum
  rw [Finset.filter_congr hR]
  exact Finset.sum_congr rfl fun a ha => hs a (Finset.mem_of_mem_filter a ha)

theorem relatedSum_eq_zero (hR : ∀ a ∈ V, ¬ R a h) : relatedSum V R share h = 0 := by
  classical
  unfold relatedSum
  rw [Finset.filter_false_of_mem hR, Finset.sum_empty]

open scoped Classical in
theorem relatedSum_insert [DecidableEq ι] (hn : n ∉ V) :
    relatedSum (insert n V) R share h = (if R n h then share n else 0) + relatedSum V R share h := by
  unfold relatedSum
  simp only [Finset.sum_filter]
  exact Finset.sum_insert hn

theorem relatedSum_sdiff [DecidableEq ι] (hS : S ⊆ V) :
    relatedSum (V \ S) R share h + relatedSum S R share h = relatedSum V R share h := by
  classical
  unfold relatedSum
  simp only [Finset.sum_filter]
  exact Finset.sum_sdiff hS

open scoped Classical in
theorem relatedSum_eq_of_mem (hn : n ∈ V) (hs : ∀ a ∈ V, a ≠ n → share' a = share a) :
    relatedSum V R share' h =
      relatedSum V R share h + if R n h then share' n - share n else 0 := by
  unfold relatedSum
  simp only [Finset.sum_filter]
  rw [← Finset.add_sum_erase _ _ hn, ← Finset.add_sum_erase V (fun a => if R a h then share a else 0) hn]
  have hr : ∑ a ∈ V.erase n, (if R a h then share' a else 0) =
      ∑ a ∈ V.erase n, if R a h then share a else 0 := by
    refine Finset.sum_congr rfl fun a ha => ?_
    rw [hs a (Finset.mem_of_mem_erase ha) (Finset.ne_of_mem_erase ha)]
  rw [hr]
  split <;> abel

end RelatedSum

namespace KeepsTotal
open Finset
variable {V S : Finset ι} {R R' : ι → ι → Prop} {share share' total total' : ι → M} {n : ι}
open scoped Classical in
theorem eq_sum {Q : ι → Prop} {h : ι} (ht : KeepsTotal V R share total) (hh : h ∈ V)
    (hs : ¬ R h h) (hQ : ∀ a, Q a ↔ a = h ∨ R a h) : total h = ∑ a ∈ V with Q a, share a := by
  have hf : {a ∈ V | Q a} = Insert.insert h {a ∈ V | R a h} := by
    ext a
    rw [mem_insert, mem_filter, mem_filter, hQ]
    constructor
    · rintro ⟨ha, rfl | hR⟩
      · exact .inl rfl
      · exact .inr ⟨ha, hR⟩
    · rintro (rfl | ⟨ha, hR⟩)
      · exact ⟨hh, .inl rfl⟩
      · exact ⟨ha, .inr hR⟩
  have hn : h ∉ {a ∈ V | R a h} := fun hm => hs (mem_filter.mp hm).2
  rw [hf, Finset.sum_insert hn, ht h hh]
  rfl

variable [DecidableEq ι]

theorem insert {s : Finset ι} (ht : KeepsTotal V R share total) (hn : n ∉ V)
    (hR : ∀ a ∈ V, ∀ b ∈ V, (R a b ↔ R' a b)) (hse : ¬ R' n n)
    (hs : ∀ a ∈ V, (a ∈ s ↔ R' n a)) (hsh : ∀ a ∈ V, share' a = share a)
    (hto : ∀ a ∈ V, total' a = total a + if a ∈ s then share' n else 0)
    (hnw : total' n = share' n + relatedSum V R' share' n) :
    KeepsTotal (insert n V) R' share' total' := by
  intro h hh
  rw [relatedSum_insert hn]
  rcases mem_insert.mp hh with rfl | hh
  · rw [if_neg hse, zero_add, hnw]
  · rw [hto h hh, hsh h hh, ht h hh,
      relatedSum_congr (fun a ha => hR a ha h hh) fun a ha => (hsh a ha).symm]
    by_cases hr : R' n h
    · rw [if_pos ((hs h hh).mpr hr), if_pos hr]
      abel
    · rw [if_neg (mt (hs h hh).mp hr), if_neg hr]
      abel

theorem sdiff (ht : KeepsTotal V R share total) (hS : S ⊆ V)
    (hR : ∀ a ∈ V \ S, ∀ b ∈ V \ S, (R a b ↔ R' a b))
    (hs : ∀ a ∈ V \ S, share' a = share a)
    (hto : ∀ a ∈ V \ S, total' a = total a - relatedSum S R share a) :
    KeepsTotal (V \ S) R' share' total' := by
  intro h hh
  rw [hto h hh, hs h hh, ht h (mem_sdiff.mp hh).1, ← relatedSum_sdiff hS,
    relatedSum_congr (fun a ha => hR a ha h hh) fun a ha => (hs a ha).symm]
  abel

theorem shift {s : Finset ι} (ht : KeepsTotal V R share total) (hn : n ∈ V) (hse : ¬ R n n)
    (hs : ∀ a ∈ V, (a ∈ s ↔ R n a)) (hsh : ∀ a ∈ V, a ≠ n → share' a = share a)
    (hto : ∀ a ∈ V, total' a = total a + if a = n ∨ a ∈ s then share' n - share n else 0) :
    KeepsTotal V R share' total' := by
  intro h hh
  rw [hto h hh, ht h hh, relatedSum_eq_of_mem hn hsh]
  rcases eq_or_ne h n with rfl | hne
  · rw [if_pos (.inl rfl), if_neg hse]
    abel
  · rw [hsh h hh hne]
    by_cases hr : R n h
    · rw [if_pos (.inr ((hs h hh).mpr hr)), if_pos hr]
      abel
    · rw [if_neg (not_or.mpr ⟨hne, mt (hs h hh).mp hr⟩), if_neg hr]
      abel

end KeepsTotal
