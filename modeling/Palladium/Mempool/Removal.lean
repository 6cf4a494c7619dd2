import Palladium.Mempool.Links

/-! # Removing a set of transactions

`RemoveStaged` takes the removed transactions out of the totals of the others, severs the links, and
removes the entries last.
-/

namespace Palladium
open Finset Relation
namespace CTxMemPoolEntry
variable (e : CTxMemPoolEntry)

@[simp] theorem updateAncestorState_zero : e.updateAncestorState 0 = e := by
  simp [updateAncestorState]

@[simp] theorem updateDescendantState_zero : e.updateDescendantState 0 = e := by
  simp [updateDescendantState]

end CTxMemPoolEntry

namespace CTxMemPool

@[simps]
def addStates (pool : CTxMemPool) (ma : Txid → AncestorState) (md : Txid → DescendantState) :
    CTxMemPool :=
  { pool with
    entry := fun h => ((pool.entry h).updateAncestorState (ma h)).updateDescendantState (md h) }

variable {σ : SetOrder Txid} {pool : CTxMemPool}

theorem addStates_zero : pool.addStates 0 0 = pool := by
  simp [addStates]

theorem addStates_addStates (ma ma' : Txid → AncestorState) (md md' : Txid → DescendantState) :
    (pool.addStates ma md).addStates ma' md' = pool.addStates (ma + ma') (md + md') := by
  simp [addStates, CTxMemPoolEntry.updateAncestorState, CTxMemPoolEntry.updateDescendantState,
    add_assoc]

theorem modify_updateAncestorState (s : Finset Txid) (m : AncestorState) :
    pool.modify s (.updateAncestorState m) = pool.addStates (fun h => if h ∈ s then m else 0) 0 := by
  unfold modify addStates
  congr 1
  funext h
  by_cases hs : h ∈ s <;> simp [hs]

theorem modify_updateDescendantState (s : Finset Txid) (m : DescendantState) :
    pool.modify s (.updateDescendantState m) =
      pool.addStates 0 fun h => if h ∈ s then m else 0 := by
  unfold modify addStates
  congr 1
  funext h
  by_cases hs : h ∈ s <;> simp [hs]

@[simps]
def setChildren (pool : CTxMemPool) (children : Txid → Finset Txid) : CTxMemPool :=
  { pool with children := children }

@[simps]
def setParents (pool : CTxMemPool) (parents : Txid → Finset Txid) : CTxMemPool :=
  { pool with parents := parents }

theorem setChildren_addStates (f : Txid → Finset Txid) (ma : Txid → AncestorState)
    (md : Txid → DescendantState) :
    (pool.setChildren f).addStates ma md = (pool.addStates ma md).setChildren f := rfl

theorem setChildren_setChildren (f g : Txid → Finset Txid) :
    (pool.setChildren f).setChildren g = pool.setChildren g := rfl

variable (σ pool) in
/-- What removing some transactions takes from the totals of their descendants. -/
def descendantUpdates (l : List Txid) (h : Txid) : AncestorState :=
  (l.map fun r => if h ∈ (calculateDescendants σ pool r ∅).erase r then
    -(pool.entry r).ancestorShare else 0).sum

variable (σ pool) in
/-- What removing some transactions takes from the totals of their ancestors. -/
def ancestorUpdates (l : List Txid) (h : Txid) : DescendantState :=
  (l.map fun r => if h ∈ calculateMemPoolAncestors σ pool (pool.parents r) then
    -(pool.entry r).descendantShare else 0).sum

theorem foldl_updateDescendantsOf (l : List Txid) :
    l.foldl (updateDescendantsOf σ) pool = pool.addStates (descendantUpdates σ pool l) 0 := by
  induction l generalizing pool with
  | nil => exact addStates_zero.symm
  | cons r l ih =>
    rw [List.foldl_cons, ih, updateDescendantsOf, modify_updateAncestorState]
    exact addStates_addStates ..

theorem foldl_severFromParents (l : List Txid) : l.foldl (severFromParents σ) pool =
      (pool.addStates 0 (ancestorUpdates σ pool l)).setChildren fun h =>
        (pool.children h).filter fun c => ¬ (c ∈ l ∧ h ∈ pool.parents c) := by
  induction l generalizing pool with
  | nil =>
    rw [show ancestorUpdates σ pool [] = 0 from rfl, addStates_zero]
    simp [setChildren]
  | cons r l ih =>
    have hs : severFromParents σ pool r =
        (pool.addStates 0 fun h =>
          if h ∈ calculateMemPoolAncestors σ pool (pool.parents r) then
            -(pool.entry r).descendantShare else 0).setChildren fun h =>
              if h ∈ pool.parents r then (pool.children h).erase r else pool.children h := by
      rw [severFromParents, updateAncestorsOf, modify_updateDescendantState]
      rfl
    rw [List.foldl_cons, ih, hs, setChildren_addStates, setChildren_setChildren,
      addStates_addStates]
    refine congrArg₂ setChildren rfl ?_
    funext h
    ext c
    rcases eq_or_ne c r with rfl | hn
    · by_cases hr : h ∈ pool.parents c <;> simp [hr]
    · by_cases hr : h ∈ pool.parents r <;> simp [hr, hn]

theorem foldl_updateChildrenForRemoval (l : List Txid) :
    l.foldl updateChildrenForRemoval pool = pool.setParents fun h =>
      (pool.parents h).filter fun p => ¬ (p ∈ l ∧ h ∈ pool.children p) := by
  induction l generalizing pool with
  | nil => simp [setParents]
  | cons r l ih =>
    rw [List.foldl_cons, ih]
    refine congrArg pool.setParents ?_
    funext h
    ext p
    rcases eq_or_ne p r with rfl | hn
    · by_cases hr : h ∈ pool.children p <;> simp [hr]
    · by_cases hr : h ∈ pool.children r <;> simp [hr, hn]

theorem updateForRemoveFromMempool_eq (S : Finset Txid) (updateDescendants : Bool) :
    updateForRemoveFromMempool σ pool S updateDescendants =
      ((pool.addStates (if updateDescendants then descendantUpdates σ pool (σ.elems S) else 0)
        (ancestorUpdates σ pool (σ.elems S))).setChildren fun h =>
          (pool.children h).filter fun c => ¬ (c ∈ S ∧ h ∈ pool.parents c)).setParents fun h =>
            (pool.parents h).filter fun p =>
              ¬ (p ∈ S ∧ h ∈ pool.children p ∧ ¬ (h ∈ S ∧ p ∈ pool.parents h)) := by
  have hd : (if updateDescendants then (σ.elems S).foldl (updateDescendantsOf σ) pool else pool) =
      pool.addStates (if updateDescendants then descendantUpdates σ pool (σ.elems S) else 0) 0 := by
    cases updateDescendants with
    | false => exact addStates_zero.symm
    | true => exact foldl_updateDescendantsOf _
  have hs : ∀ ma, (pool.addStates ma 0).addStates 0
      (ancestorUpdates σ (pool.addStates ma 0) (σ.elems S)) =
        pool.addStates ma (ancestorUpdates σ pool (σ.elems S)) := by
    intro ma
    rw [addStates_addStates, add_zero, zero_add]
    rfl
  unfold updateForRemoveFromMempool
  dsimp only
  rw [hd, foldl_severFromParents, foldl_updateChildrenForRemoval, hs]
  simp only [setChildren_parents, setChildren_children, addStates_parents, addStates_children,
    mem_filter, σ.mem_elems]

section RemoveUnchecked
variable (l : List Txid)

theorem foldl_removeUnchecked_mapTx :
    (l.foldl removeUnchecked pool).mapTx = pool.mapTx \ l.toFinset := by
  induction l generalizing pool with
  | nil => simp
  | cons r l ih =>
    rw [List.foldl_cons, ih, removeUnchecked_mapTx, List.toFinset_cons, sdiff_insert,
      erase_sdiff_comm]

theorem foldl_removeUnchecked_entry : (l.foldl removeUnchecked pool).entry = pool.entry := by
  induction l generalizing pool with
  | nil => rfl
  | cons r l ih => exact ih

theorem foldl_removeUnchecked_parents (h : Txid) :
    (l.foldl removeUnchecked pool).parents h = if h ∈ l then ∅ else pool.parents h := by
  induction l generalizing pool with
  | nil => simp
  | cons r l ih =>
    rw [List.foldl_cons, ih, removeUnchecked_parents]
    rcases eq_or_ne h r with rfl | hn
    · simp
    · simp [hn]

theorem foldl_removeUnchecked_children (h : Txid) :
    (l.foldl removeUnchecked pool).children h = if h ∈ l then ∅ else pool.children h := by
  induction l generalizing pool with
  | nil => simp
  | cons r l ih =>
    rw [List.foldl_cons, ih, removeUnchecked_children]
    rcases eq_or_ne h r with rfl | hn
    · simp
    · simp [hn]

theorem foldl_removeUnchecked_mapNextTx (o : COutPoint) :
    (l.foldl removeUnchecked pool).mapNextTx o =
      if ∃ r ∈ l, o ∈ (pool.entry r).tx.prevouts then none else pool.mapNextTx o := by
  induction l generalizing pool with
  | nil => simp
  | cons r l ih =>
    rw [List.foldl_cons, ih, removeUnchecked_mapNextTx]
    simp only [removeUnchecked_entry, List.mem_cons, exists_eq_or_imp]
    by_cases hr : o ∈ (pool.entry r).tx.prevouts <;> simp [hr]

theorem foldl_removeUnchecked_totalTxSize : (l.foldl removeUnchecked pool).totalTxSize =
      pool.totalTxSize - (l.map fun r => ((pool.entry r).nTxSize : ℤ)).sum := by
  induction l generalizing pool with
  | nil => simp
  | cons r l ih =>
    rw [List.foldl_cons, ih, removeUnchecked_totalTxSize, List.map_cons, List.sum_cons]
    simp only [removeUnchecked_entry]
    omega

end RemoveUnchecked

section RemoveStaged
variable {S : Finset Txid} {updateDescendants : Bool} {E : Txid → Txid → Prop}

theorem removeStaged_mapTx : (removeStaged σ pool S updateDescendants).mapTx = pool.mapTx \ S := by
  rw [removeStaged, foldl_removeUnchecked_mapTx, updateForRemoveFromMempool_eq,
    SetOrder.toFinset_elems]
  rfl

theorem removeStaged_entry (h : Txid) : (removeStaged σ pool S updateDescendants).entry h =
      ((pool.entry h).updateAncestorState
        (if updateDescendants then descendantUpdates σ pool (σ.elems S) h else 0)).updateDescendantState
          (ancestorUpdates σ pool (σ.elems S) h) := by
  rw [removeStaged, foldl_removeUnchecked_entry, updateForRemoveFromMempool_eq]
  cases updateDescendants <;> rfl

theorem removeStaged_mapNextTx (o : COutPoint) :
    (removeStaged σ pool S updateDescendants).mapNextTx o =
      if ∃ r ∈ S, o ∈ (pool.entry r).tx.prevouts then none else pool.mapNextTx o := by
  rw [removeStaged, foldl_removeUnchecked_mapNextTx, updateForRemoveFromMempool_eq]
  simp [σ.mem_elems]

theorem removeStaged_totalTxSize : (removeStaged σ pool S updateDescendants).totalTxSize =
      pool.totalTxSize - ∑ r ∈ S, ((pool.entry r).nTxSize : ℤ) := by
  rw [removeStaged, foldl_removeUnchecked_totalTxSize, updateForRemoveFromMempool_eq,
    SetOrder.sum_map_elems]
  simp

theorem LinkedBy.removeStaged (hl : pool.LinkedBy E) (updateDescendants : Bool) :
    (removeStaged σ pool S updateDescendants).LinkedBy (Keep E (· ∉ S)) := by
  constructor
  · intro p c
    rw [CTxMemPool.removeStaged, foldl_removeUnchecked_parents, updateForRemoveFromMempool_eq]
    by_cases hc : c ∈ S <;> simp [σ.mem_elems, hc, Keep, hl.mem_parents, hl.mem_children]
    tauto
  · intro p c
    rw [CTxMemPool.removeStaged, foldl_removeUnchecked_children, updateForRemoveFromMempool_eq]
    by_cases hp : p ∈ S <;> simp [σ.mem_elems, hp, Keep, hl.mem_parents, hl.mem_children]
    tauto
  · rintro p c ⟨hE, hp, -⟩
    exact removeStaged_mapTx ▸ mem_sdiff.mpr ⟨hl.parent_mem hE, hp⟩
  · rintro p c ⟨hE, -, hc⟩
    exact removeStaged_mapTx ▸ mem_sdiff.mpr ⟨hl.child_mem hE, hc⟩

theorem descendantUpdates_eq (hl : pool.LinkedBy E) (ha : ∀ a, ¬ TransGen E a a)
    (hS : S ⊆ pool.mapTx) (h : Txid) :
    descendantUpdates σ pool (σ.elems S) h =
      -relatedSum S (TransGen E) (fun r => (pool.entry r).ancestorShare) h := by
  classical
  rw [descendantUpdates, SetOrder.sum_map_elems, relatedSum, sum_filter, ← sum_neg_distrib]
  refine sum_congr rfl fun r hr => ?_
  simp only [hl.mem_descendants_erase ha (hS hr), neg_ite, neg_zero]

theorem ancestorUpdates_eq (hl : pool.LinkedBy E) (h : Txid) :
    ancestorUpdates σ pool (σ.elems S) h =
      -relatedSum S (fun a b => TransGen E b a) (fun r => (pool.entry r).descendantShare) h := by
  classical
  rw [ancestorUpdates, SetOrder.sum_map_elems, relatedSum, sum_filter, ← sum_neg_distrib]
  refine sum_congr rfl fun r _ => ?_
  simp only [hl.mem_ancestors, neg_ite, neg_zero]

/-- A set can be removed if it holds its descendants, or its ancestors when the descendants are
updated. -/
def Removable (E : Txid → Txid → Prop) (S : Finset Txid) (updateDescendants : Bool) : Prop :=
  (∀ a b, E a b → a ∈ S → b ∈ S) ∨ updateDescendants ∧ ∀ a b, E a b → b ∈ S → a ∈ S

theorem Removable.transGen_keep_iff (hS : Removable E S updateDescendants) {a b : Txid}
    (ha : a ∉ S) (hb : b ∉ S) : TransGen E a b ↔ TransGen (Keep E (· ∉ S)) a b := by
  refine ⟨fun h => ?_, fun h => h.of_keep.1⟩
  rcases hS with hS | ⟨-, hS⟩
  · exact h.keep_of_backward (fun a b hab hb ha => hb (hS a b hab ha)) hb
  · exact h.keep_of_forward (fun a b hab ha hb => ha (hS a b hab hb)) ha

theorem Removable.not_transGen (hS : Removable E S false) {a b : Txid} (ha : a ∈ S) (hb : b ∉ S) :
    ¬ TransGen E a b := by
  have hc := hS.resolve_right fun h => Bool.false_ne_true h.1
  intro h
  exact (h.keep_of_backward (P := (· ∉ S)) (fun a b hab hb ha => hb (hc a b hab ha))
    hb).of_keep.2.1 ha

theorem TotalsOver.removeStaged (ht : pool.TotalsOver (TransGen E)) (hl : pool.LinkedBy E)
    (hac : ∀ a, ¬ TransGen E a a) (hS : S ⊆ pool.mapTx)
    (hre : Removable E S updateDescendants) :
    (removeStaged σ pool S updateDescendants).TotalsOver (TransGen (Keep E (· ∉ S))) := by
  have hR : ∀ a ∈ pool.mapTx \ S, ∀ b ∈ pool.mapTx \ S,
      (TransGen E a b ↔ TransGen (Keep E (· ∉ S)) a b) := fun a ha b hb =>
    hre.transGen_keep_iff (mem_sdiff.mp ha).2 (mem_sdiff.mp hb).2
  constructor
  · rw [removeStaged_mapTx]
    refine ht.ancestorState.sdiff hS hR (fun a _ => ?_) fun a ha => ?_
    · rw [removeStaged_entry]
      rfl
    · rw [removeStaged_entry]
      cases updateDescendants with
      | false =>
        rw [relatedSum_eq_zero fun r hr => hre.not_transGen hr (mem_sdiff.mp ha).2, sub_zero]
        exact add_zero _
      | true =>
        rw [sub_eq_add_neg, ← descendantUpdates_eq hl hac hS]
        rfl
  · rw [removeStaged_mapTx]
    refine ht.descendantState.sdiff hS (fun a ha b hb => hR b hb a ha) (fun a _ => ?_) fun a _ => ?_
    · rw [removeStaged_entry]
      rfl
    · rw [removeStaged_entry, sub_eq_add_neg, ← ancestorUpdates_eq hl]
      rfl

end RemoveStaged

end CTxMemPool

end Palladium
