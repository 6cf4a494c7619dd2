import Palladium.Lib.Reach
import Palladium.Lib.Totals
import Palladium.Mempool.Pool

/-! # Links and totals

`mapLinks` records a relation between transactions, and walks find what it reaches.
-/

namespace Palladium
open Finset Relation

def CTransaction.Spends (tx : CTransaction) (h : Txid) : Prop := ∃ o ∈ tx.prevouts, o.hash = h

instance (tx : CTransaction) (h : Txid) : Decidable (tx.Spends h) :=
  inferInstanceAs (Decidable (∃ o ∈ tx.prevouts, o.hash = h))

namespace CTxMemPool

/-- The links of the pool are those of a relation between its transactions. -/
structure LinkedBy (pool : CTxMemPool) (E : Txid → Txid → Prop) : Prop where
  mem_parents : ∀ {p c}, p ∈ pool.parents c ↔ E p c
  mem_children : ∀ {p c}, c ∈ pool.children p ↔ E p c
  parent_mem : ∀ {p c}, E p c → p ∈ pool.mapTx
  child_mem : ∀ {p c}, E p c → c ∈ pool.mapTx

/-- Each entry keeps the totals over the entries related to it, with its own share. -/
structure TotalsOver (pool : CTxMemPool) (R : Txid → Txid → Prop) : Prop where
  ancestorState : KeepsTotal pool.mapTx R (fun h => (pool.entry h).ancestorShare)
    fun h => (pool.entry h).ancestorState
  descendantState : KeepsTotal pool.mapTx (fun a b => R b a)
    (fun h => (pool.entry h).descendantShare) fun h => (pool.entry h).descendantState

variable {σ : SetOrder Txid} {pool : CTxMemPool} {E : Txid → Txid → Prop} {it x : Txid}
  {s done : Finset Txid}

theorem mem_parentsOf {tx : CTransaction} {p : Txid} :
    p ∈ pool.parentsOf tx ↔ tx.Spends p ∧ p ∈ pool.mapTx := by
  rw [parentsOf, mem_inter, List.mem_toFinset, List.mem_map]
  rfl

namespace LinkedBy
variable (h : pool.LinkedBy E)
include h

theorem children_eq : (fun a b => b ∈ pool.children a) = E := by
  funext a b
  exact propext h.mem_children

theorem parents_eq : (fun a b => b ∈ pool.parents a) = Function.swap E := by
  funext a b
  exact propext h.mem_parents

theorem mem_calculateDescendants (hi : it ∈ pool.mapTx) (hd : done ⊆ pool.mapTx)
    (hc : ∀ a ∈ done, ∀ b, E a b → b ∈ done) :
    x ∈ calculateDescendants σ pool it done ↔ x ∈ done ∨ ReflTransGen E it x := by
  have hV : ∀ a ∈ pool.mapTx, pool.children a ⊆ pool.mapTx :=
    fun a _ b hb => h.child_mem (h.mem_children.mp hb)
  have hn : ∀ {stage}, ∀ a ∈ done, pool.children a ⊆ done ∪ stage :=
    fun a ha b hb => mem_union_left _ (hc a ha b (h.mem_children.mp hb))
  unfold calculateDescendants
  split
  · rename_i hmem
    have hr : ReflTransGen E it x → x ∈ done := by
      intro hx
      induction hx with
      | refl => exact hmem
      | tail _ hbc ih => exact hc _ ih _ hbc
    rw [SetOrder.mem_search hV ⟨empty_subset _, hd, disjoint_empty_left _, hn⟩
      (Nat.le_add_left _ _)]
    simpa using hr
  · rename_i hmem
    rw [SetOrder.mem_search hV ⟨singleton_subset_iff.mpr hi, hd,
      disjoint_singleton_left.mpr hmem, hn⟩ (Nat.le_add_left _ _), h.children_eq]
    simp only [mem_singleton, exists_eq_left]

theorem mem_descendants (hi : it ∈ pool.mapTx) :
    x ∈ calculateDescendants σ pool it ∅ ↔ ReflTransGen E it x := by
  rw [h.mem_calculateDescendants hi (empty_subset _) fun a ha =>
    absurd ha (notMem_empty a)]
  simp only [notMem_empty, false_or]

theorem mem_descendants_erase (ha : ∀ a, ¬ TransGen E a a) (hi : it ∈ pool.mapTx) :
    x ∈ (calculateDescendants σ pool it ∅).erase it ↔ TransGen E it x := by
  rw [mem_erase, h.mem_descendants hi, reflTransGen_iff_eq_or_transGen]
  constructor
  · rintro ⟨hn, he | hx⟩
    · exact absurd he hn
    · exact hx
  · intro hx
    refine ⟨?_, .inr hx⟩
    rintro rfl
    exact ha x hx

theorem mem_calculateAllDescendants (hs : s ⊆ pool.mapTx) :
    x ∈ calculateAllDescendants σ pool s ↔ ∃ a ∈ s, ReflTransGen E a x := by
  -- what was collected is closed under the relation, so that each walk may stop there
  suffices hf : ∀ (l : List Txid), (∀ a ∈ l, a ∈ pool.mapTx) → ∀ done ⊆ pool.mapTx,
      (∀ a ∈ done, ∀ b, E a b → b ∈ done) →
      (x ∈ l.foldl (fun done it => calculateDescendants σ pool it done) done ↔
        x ∈ done ∨ ∃ a ∈ l, ReflTransGen E a x) by
    rw [calculateAllDescendants, hf _ (fun a ha => hs (σ.mem_elems.mp ha)) _
      (empty_subset _) fun a ha => absurd ha (notMem_empty a)]
    simp only [notMem_empty, false_or, σ.mem_elems]
  intro l hl
  induction l with
  | nil => intros; simp
  | cons it l ih =>
    intro done hd hcl
    have hi : it ∈ pool.mapTx := hl it List.mem_cons_self
    have hm := fun y => h.mem_calculateDescendants (x := y) (σ := σ) hi hd hcl
    rw [List.foldl_cons, ih (fun a ha => hl a (List.mem_cons_of_mem _ ha)), hm]
    · simp only [List.mem_cons, exists_eq_or_imp, or_assoc]
    · intro y hy
      rcases (hm y).mp hy with hy | hy
      · exact hd hy
      · rcases hy.cases_tail with rfl | ⟨c, -, hc⟩
        · exact hi
        · exact h.child_mem hc
    · intro a ha b hab
      rw [hm] at ha ⊢
      exact ha.imp (fun ha => hcl a ha b hab) fun ha => ha.tail hab

theorem mem_calculateMemPoolAncestors (hs : s ⊆ pool.mapTx) :
    x ∈ calculateMemPoolAncestors σ pool s ↔ ∃ p ∈ s, ReflTransGen E x p := by
  have hV : ∀ a ∈ pool.mapTx, pool.parents a ⊆ pool.mapTx :=
    fun a _ b hb => h.parent_mem (h.mem_parents.mp hb)
  rw [calculateMemPoolAncestors, SetOrder.mem_search hV ⟨hs, empty_subset _,
    disjoint_empty_right _, fun a ha => absurd ha (notMem_empty a)⟩
    (Nat.le_add_left _ _), h.parents_eq]
  simp only [notMem_empty, false_or, reflTransGen_swap]

theorem mem_ancestors : x ∈ calculateMemPoolAncestors σ pool (pool.parents it) ↔ TransGen E x it := by
  rw [h.mem_calculateMemPoolAncestors fun p hp => h.parent_mem (h.mem_parents.mp hp),
    TransGen.tail'_iff]
  simp only [h.mem_parents, and_comm]

end LinkedBy

end CTxMemPool

end Palladium
