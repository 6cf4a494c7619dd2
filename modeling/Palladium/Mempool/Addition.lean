import Palladium.Mempool.Links

/-! # Adding a transaction

`addUnchecked` links a transaction to its parents and updates the totals of its ancestors and its
own.
-/

namespace Palladium
open Finset Function Relation
namespace CTxMemPoolEntry

/-- An entry as constructed: no fee delta and totals of the transaction alone. -/
structure Fresh (e : CTxMemPoolEntry) : Prop where
  feeDelta : e.feeDelta = 0
  descendantState : e.descendantState = e.descendantShare
  ancestorState : e.ancestorState = e.ancestorShare

theorem fresh_ofTx (bytesPerSigop : ℕ) (tx : CTransaction) (nFee nTime : ℤ) (sigOpCost : ℕ) :
    (ofTx bytesPerSigop tx nFee nTime sigOpCost).Fresh where
  feeDelta := rfl
  descendantState := by simp [ofTx, descendantShare, modifiedFee]
  ancestorState := by simp [ofTx, ancestorShare, modifiedFee]

end CTxMemPoolEntry

namespace CTxMemPool
variable {pool : CTxMemPool} {getWitnessHash : CTransaction → Uint256} {entry : CTxMemPoolEntry}
  {setAncestors : Finset Txid} {E : Txid → Txid → Prop} {h : Txid}

def storedEntry (pool : CTxMemPool) (entry : CTxMemPoolEntry) : CTxMemPoolEntry :=
  if pool.storedDelta entry.tx.hash ≠ 0 then entry.updateFeeDelta (pool.storedDelta entry.tx.hash)
  else entry

theorem storedEntry_tx : (pool.storedEntry entry).tx = entry.tx := by
  unfold storedEntry
  split <;> rfl

theorem storedEntry_descendantState (hf : entry.Fresh) :
    (pool.storedEntry entry).descendantState = (pool.storedEntry entry).descendantShare := by
  unfold storedEntry
  split
  · simp [CTxMemPoolEntry.updateFeeDelta, hf.descendantState, hf.feeDelta,
      CTxMemPoolEntry.descendantShare, CTxMemPoolEntry.modifiedFee]
  · exact hf.descendantState

theorem storedEntry_ancestorState (hf : entry.Fresh) :
    (pool.storedEntry entry).ancestorState = (pool.storedEntry entry).ancestorShare := by
  unfold storedEntry
  split
  · simp [CTxMemPoolEntry.updateFeeDelta, hf.ancestorState, hf.feeDelta,
      CTxMemPoolEntry.ancestorShare, CTxMemPoolEntry.modifiedFee]
  · exact hf.ancestorState

/-- The pool with a new transaction linked to its parents, before any total is updated. -/
def linkNew (pool : CTxMemPool) (entry : CTxMemPoolEntry) : CTxMemPool :=
  (((pool.insertEntry entry).applyDelta entry.tx.hash).insertNextTx entry.tx.hash).linkParents
    entry.tx.hash

theorem addUnchecked_eq : pool.addUnchecked getWitnessHash entry setAncestors =
    ((((pool.linkNew entry).updateAncestorsOf true entry.tx.hash setAncestors).updateEntryForAncestors
      entry.tx.hash setAncestors).addSize entry.nTxSize).pushTxHash getWitnessHash entry.tx.hash :=
  rfl

section Fields
variable (hnew : entry.tx.hash ∉ pool.mapTx)
include hnew

theorem linkNew_entry : (pool.linkNew entry).entry =
    Function.update pool.entry entry.tx.hash (pool.storedEntry entry) := by
  funext h
  rw [linkNew, linkParents_entry, insertNextTx_entry, applyDelta_entry, insertEntry_entry,
    if_neg hnew, update_apply, update_apply]
  split
  · rw [storedEntry, ite_not]
    rfl
  · rfl

theorem linkNew_tx : ((pool.linkNew entry).entry entry.tx.hash).tx = entry.tx := by
  rw [linkNew_entry hnew, update_self, storedEntry_tx]

theorem linkNew_parents (hl : ¬ entry.tx.Spends entry.tx.hash) : (pool.linkNew entry).parents =
      Function.update pool.parents entry.tx.hash (pool.parentsOf entry.tx) := by
  have hpa : (pool.insertEntry entry).parents =
      Function.update pool.parents entry.tx.hash ∅ := if_neg hnew
  have ho : (pool.insertEntry entry).parentsOf entry.tx = pool.parentsOf entry.tx := by
    ext p
    rw [mem_parentsOf, mem_parentsOf, insertEntry_mapTx, mem_insert]
    constructor
    · rintro ⟨hp, rfl | hm⟩
      · exact absurd hp hl
      · exact ⟨hp, hm⟩
    · exact fun ⟨hp, hm⟩ => ⟨hp, .inr hm⟩
  change Function.update (pool.insertEntry entry).parents entry.tx.hash
    ((pool.insertEntry entry).parents entry.tx.hash ∪
      (pool.insertEntry entry).parentsOf ((pool.linkNew entry).entry entry.tx.hash).tx) = _
  rw [linkNew_tx hnew, hpa, ho, update_self, empty_union, update_idem]

theorem linkNew_children :
    (pool.linkNew entry).children = Function.update pool.children entry.tx.hash ∅ := by
  change (pool.insertEntry entry).children = _
  rw [insertEntry]
  exact if_neg hnew

theorem linkNew_mapNextTx (o : COutPoint) : (pool.linkNew entry).mapNextTx o =
      if o ∈ entry.tx.prevouts then (pool.mapNextTx o).orElse fun _ => some entry.tx.hash
      else pool.mapNextTx o := by
  have ht := linkNew_tx hnew
  change (if o ∈ ((pool.linkNew entry).entry entry.tx.hash).tx.prevouts then
    (pool.mapNextTx o).orElse fun _ => some entry.tx.hash else pool.mapNextTx o) = _
  rw [ht]

theorem addUnchecked_entry_of_ne (hn : h ≠ entry.tx.hash) :
    (pool.addUnchecked getWitnessHash entry setAncestors).entry h =
      if h ∈ setAncestors then
        (pool.entry h).updateDescendantState (pool.storedEntry entry).descendantShare
      else pool.entry h := by
  simp only [addUnchecked_eq, pushTxHash_entry, addSize_entry, updateEntryForAncestors_entry,
    updateAncestorsOf_entry, linkNew_entry hnew, update_self, update_of_ne hn,
    if_neg hn, if_true]

theorem addUnchecked_entry_self (hs : entry.tx.hash ∉ setAncestors) :
    (pool.addUnchecked getWitnessHash entry setAncestors).entry entry.tx.hash =
      (pool.storedEntry entry).updateAncestorState
        (∑ a ∈ setAncestors, (pool.entry a).ancestorShare) := by
  have hsh : ∀ a ∈ setAncestors, (((pool.linkNew entry).updateAncestorsOf true entry.tx.hash
      setAncestors).entry a).ancestorShare = (pool.entry a).ancestorShare := by
    intro a ha
    have hn : a ≠ entry.tx.hash := fun he => hs (he ▸ ha)
    rw [updateAncestorsOf_entry, if_pos ha, linkNew_entry hnew, update_of_ne hn]
    rfl
  rw [addUnchecked_eq, pushTxHash_entry, addSize_entry, updateEntryForAncestors_entry, if_pos rfl,
    sum_congr rfl hsh, updateAncestorsOf_entry, if_neg hs, linkNew_entry hnew,
    update_self]

theorem not_left_of_new (hl : pool.LinkedBy E) (c : Txid) : ¬ E entry.tx.hash c :=
  fun hE => hnew (hl.parent_mem hE)

theorem not_right_of_new (hl : pool.LinkedBy E) (p : Txid) : ¬ E p entry.tx.hash :=
  fun hE => hnew (hl.child_mem hE)

theorem notMem_parentsOf_new : entry.tx.hash ∉ pool.parentsOf entry.tx :=
  fun hm => hnew (mem_parentsOf.mp hm).2

theorem LinkedBy.addUnchecked (hl : pool.LinkedBy E) (hlo : ¬ entry.tx.Spends entry.tx.hash)
    (setAncestors : Finset Txid) :
    (pool.addUnchecked getWitnessHash entry setAncestors).LinkedBy
      (Extend E entry.tx.hash (pool.parentsOf entry.tx)) := by
  have hpa : (pool.addUnchecked getWitnessHash entry setAncestors).parents =
      Function.update pool.parents entry.tx.hash (pool.parentsOf entry.tx) :=
    linkNew_parents hnew hlo
  constructor
  · intro p c
    rw [hpa]
    rcases eq_or_ne c entry.tx.hash with rfl | hn
    · simp [Extend, not_right_of_new hnew hl]
    · simp [Extend, hn, hl.mem_parents]
  · intro p c
    have hc : (pool.addUnchecked getWitnessHash entry setAncestors).children p =
        if p ∈ pool.parentsOf entry.tx then
          insert entry.tx.hash (Function.update pool.children entry.tx.hash ∅ p)
        else Function.update pool.children entry.tx.hash ∅ p := by
      rw [addUnchecked_eq, pushTxHash_children, addSize_children, updateEntryForAncestors_children,
        updateAncestorsOf_children, if_pos rfl, linkNew_children hnew, linkNew_parents hnew hlo,
        update_self]
    rw [hc]
    rcases eq_or_ne p entry.tx.hash with rfl | hn
    · simp [Extend, not_left_of_new hnew hl, notMem_parentsOf_new hnew]
    · by_cases hp : p ∈ pool.parentsOf entry.tx <;>
        simp [Extend, hp, hn, hl.mem_children, or_comm]
  · rintro p c (hE | ⟨-, hp⟩)
    · exact mem_insert_of_mem (hl.parent_mem hE)
    · exact mem_insert_of_mem (mem_parentsOf.mp hp).2
  · rintro p c (hE | ⟨rfl, -⟩)
    · exact mem_insert_of_mem (hl.child_mem hE)
    · exact mem_insert_self _ _

theorem TotalsOver.addUnchecked (ht : pool.TotalsOver (TransGen E)) (hl : pool.LinkedBy E)
    (hfr : entry.Fresh)
    (han : ∀ a, a ∈ setAncestors ↔ ∃ p ∈ pool.parentsOf entry.tx, ReflTransGen E a p) :
    (pool.addUnchecked getWitnessHash entry setAncestors).TotalsOver
      (TransGen (Extend E entry.tx.hash (pool.parentsOf entry.tx))) := by
  have hr : ∀ a b, TransGen (Extend E entry.tx.hash (pool.parentsOf entry.tx)) a b ↔
      TransGen E a b ∨ b = entry.tx.hash ∧ a ∈ setAncestors := by
    intro a b
    rw [transGen_extend_iff (not_left_of_new hnew hl) (notMem_parentsOf_new hnew), han]
  have hanc_mem : ∀ a ∈ setAncestors, a ∈ pool.mapTx := by
    intro a ha
    obtain ⟨p, hp, hap⟩ := (han a).mp ha
    rcases hap.cases_head with rfl | ⟨c, hac, -⟩
    · exact (mem_parentsOf.mp hp).2
    · exact hl.parent_mem hac
  have hn : ∀ a ∈ pool.mapTx, a ≠ entry.tx.hash := fun a ha he => hnew (he ▸ ha)
  have hs : entry.tx.hash ∉ setAncestors := fun ha => hnew (hanc_mem _ ha)
  have hf : ∀ b, ¬ TransGen (Extend E entry.tx.hash (pool.parentsOf entry.tx)) entry.tx.hash b := by
    intro b
    rw [hr, TransGen.head'_iff]
    rintro (⟨c, hc, -⟩ | ⟨-, hm⟩)
    · exact not_left_of_new hnew hl c hc
    · exact hs hm
  have hR : ∀ a ∈ pool.mapTx, ∀ b ∈ pool.mapTx, (TransGen E a b ↔
      TransGen (Extend E entry.tx.hash (pool.parentsOf entry.tx)) a b) := by
    intro a _ b hb
    rw [hr, or_iff_left fun h => hn b hb h.1]
  have hto : ∀ a, TransGen (Extend E entry.tx.hash (pool.parentsOf entry.tx)) a entry.tx.hash ↔
      a ∈ setAncestors := by
    intro a
    rw [hr, TransGen.tail'_iff, or_iff_right, and_iff_right rfl]
    rintro ⟨p, -, hp⟩
    exact not_right_of_new hnew hl p hp
  constructor
  · refine ht.ancestorState.insert (s := ∅) hnew hR (hf _)
      (fun a _ => iff_of_false (notMem_empty a) (hf a)) (fun a ha => ?_) (fun a ha => ?_) ?_
    · rw [addUnchecked_entry_of_ne hnew (hn a ha)]
      split <;> rfl
    · rw [addUnchecked_entry_of_ne hnew (hn a ha), if_neg (notMem_empty a), add_zero]
      split <;> rfl
    · classical
      have hfi : {a ∈ pool.mapTx | TransGen (Extend E entry.tx.hash (pool.parentsOf entry.tx)) a
          entry.tx.hash} = setAncestors := by
        ext a
        rw [mem_filter, hto, and_iff_right_of_imp (hanc_mem a)]
      rw [addUnchecked_entry_self hnew hs, relatedSum, hfi]
      refine congrArg₂ (· + ·) (storedEntry_ancestorState hfr) (sum_congr rfl fun a ha => ?_)
      rw [addUnchecked_entry_of_ne hnew (hn a (hanc_mem a ha)), if_pos ha]
      rfl
  · refine ht.descendantState.insert (s := setAncestors) hnew (fun a ha b hb => hR b hb a ha) (hf _)
      (fun a _ => (hto a).symm) (fun a ha => ?_) (fun a ha => ?_) ?_
    · rw [addUnchecked_entry_of_ne hnew (hn a ha)]
      split <;> rfl
    · rw [addUnchecked_entry_of_ne hnew (hn a ha), addUnchecked_entry_self hnew hs]
      split
      · rfl
      · exact (add_zero _).symm
    · rw [addUnchecked_entry_self hnew hs, relatedSum_eq_zero fun a _ => hf a, add_zero]
      exact storedEntry_descendantState hfr

end Fields

end CTxMemPool

end Palladium
