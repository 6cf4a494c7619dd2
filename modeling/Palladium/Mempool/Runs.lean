import Mathlib.Algebra.BigOperators.Pi
import Palladium.Mempool.Accounting

/-! # Runs of the memory pool

Whatever is added to the pool and removed, in whatever order, the links are those of the spent
outputs and the totals are exact.
-/

namespace Palladium
open CTxMemPoolEntry Finset Relation
namespace CTxMemPool
open scoped Classical in
noncomputable def ancestors (pool : CTxMemPool) (h : Txid) : Finset Txid :=
  {a ∈ pool.mapTx | ReflTransGen pool.IsParent a h}

open scoped Classical in
noncomputable def descendants (pool : CTxMemPool) (h : Txid) : Finset Txid :=
  {d ∈ pool.mapTx | ReflTransGen pool.IsParent h d}

theorem mem_ancestors_iff {pool : CTxMemPool} {x d : Txid} :
    x ∈ pool.ancestors d ↔ x ∈ pool.mapTx ∧ ReflTransGen pool.IsParent x d := by
  classical
  exact mem_filter

/-- Links, spenders and totals are what the transactions of the pool say. -/
structure Exact (pool : CTxMemPool) : Prop where
  mem_parents : ∀ c ∈ pool.mapTx, ∀ p, p ∈ pool.parents c ↔
    p ∈ pool.mapTx ∧ (pool.entry c).tx.Spends p
  mem_children : ∀ p ∈ pool.mapTx, ∀ c, c ∈ pool.children p ↔
    c ∈ pool.mapTx ∧ (pool.entry c).tx.Spends p
  mapNextTx_iff : ∀ o h, pool.mapNextTx o = some h ↔
    h ∈ pool.mapTx ∧ o ∈ (pool.entry h).tx.prevouts
  nCountWithAncestors : ∀ h ∈ pool.mapTx,
    (pool.entry h).nCountWithAncestors = (pool.ancestors h).card
  nSizeWithAncestors : ∀ h ∈ pool.mapTx,
    (pool.entry h).nSizeWithAncestors = ∑ a ∈ pool.ancestors h, ((pool.entry a).nTxSize : ℤ)
  nModFeesWithAncestors : ∀ h ∈ pool.mapTx,
    (pool.entry h).nModFeesWithAncestors = ∑ a ∈ pool.ancestors h, (pool.entry a).modifiedFee
  nSigOpCostWithAncestors : ∀ h ∈ pool.mapTx,
    (pool.entry h).nSigOpCostWithAncestors = ∑ a ∈ pool.ancestors h, ((pool.entry a).sigOpCost : ℤ)
  nCountWithDescendants : ∀ h ∈ pool.mapTx,
    (pool.entry h).nCountWithDescendants = (pool.descendants h).card
  nSizeWithDescendants : ∀ h ∈ pool.mapTx,
    (pool.entry h).nSizeWithDescendants = ∑ d ∈ pool.descendants h, ((pool.entry d).nTxSize : ℤ)
  nModFeesWithDescendants : ∀ h ∈ pool.mapTx,
    (pool.entry h).nModFeesWithDescendants = ∑ d ∈ pool.descendants h, (pool.entry d).modifiedFee
  totalTxSize_eq : pool.totalTxSize = ∑ h ∈ pool.mapTx, ((pool.entry h).nTxSize : ℤ)

variable {σ : SetOrder Txid} {pool : CTxMemPool} {getWitnessHash : CTransaction → Uint256} {h : Txid}

theorem Accounted.ancestorState_eq (ha : pool.Accounted) (hh : h ∈ pool.mapTx) :
    (pool.entry h).ancestorState = ∑ a ∈ pool.ancestors h, (pool.entry a).ancestorShare := by
  refine ha.totals.ancestorState.eq_sum hh (ha.acyclic h) fun a => ?_
  rw [reflTransGen_iff_eq_or_transGen, eq_comm]

theorem Accounted.descendantState_eq (ha : pool.Accounted) (hh : h ∈ pool.mapTx) :
    (pool.entry h).descendantState = ∑ d ∈ pool.descendants h, (pool.entry d).descendantShare :=
  ha.totals.descendantState.eq_sum hh (ha.acyclic h) fun _ => reflTransGen_iff_eq_or_transGen

theorem Accounted.exact (ha : pool.Accounted) : pool.Exact where
  mem_parents c hc p := by
    rw [ha.links.mem_parents]
    exact ⟨fun hE => ⟨hE.1, hE.2.2⟩, fun hE => ⟨hE.1, hc, hE.2⟩⟩
  mem_children p hp c := by
    rw [ha.links.mem_children]
    exact ⟨fun hE => hE.2, fun hE => ⟨hp, hE⟩⟩
  mapNextTx_iff := ha.mapNextTx_iff
  nCountWithAncestors h hh := by
    rw [nCountWithAncestors, ha.ancestorState_eq hh]
    simp [Prod.fst_sum, Prod.snd_sum, ancestorShare]
  nSizeWithAncestors h hh := by
    rw [nSizeWithAncestors, ha.ancestorState_eq hh, Prod.fst_sum]
    rfl
  nModFeesWithAncestors h hh := by
    rw [nModFeesWithAncestors, ha.ancestorState_eq hh, Prod.snd_sum, Prod.fst_sum]
    rfl
  nSigOpCostWithAncestors h hh := by
    rw [nSigOpCostWithAncestors, ha.ancestorState_eq hh, Prod.snd_sum, Prod.snd_sum, Prod.snd_sum]
    rfl
  nCountWithDescendants h hh := by
    rw [nCountWithDescendants, ha.descendantState_eq hh]
    simp [Prod.snd_sum, descendantShare]
  nSizeWithDescendants h hh := by
    rw [nSizeWithDescendants, ha.descendantState_eq hh, Prod.fst_sum]
    rfl
  nModFeesWithDescendants h hh := by
    rw [nModFeesWithDescendants, ha.descendantState_eq hh, Prod.snd_sum, Prod.fst_sum]
    rfl
  totalTxSize_eq := ha.totalTxSize_eq

/-- The calls that change the pool. `TrimToSize` measures the pool and chooses an entry in some way.
-/
inductive MempoolCall
  | addUnchecked (entry : CTxMemPoolEntry) (setAncestors : Finset Txid)
  | removeRecursive (origTx : CTransaction)
  | removeForBlock (vtx : List CTransaction)
  | removeConflicts (tx : CTransaction)
  | expire (time : ℤ)
  | trimToSize (dynamicMemoryUsage : CTxMemPool → ℕ) (worst : CTxMemPool → Txid) (sizelimit : ℕ)
  | removeStaged (stage : Finset Txid) (updateDescendants : Bool)
  | prioritiseTransaction (hash : Txid) (nFeeDelta : ℤ)
  | clearPrioritisation (hash : Txid)

namespace MempoolCall

def run (σ : SetOrder Txid) (getWitnessHash : CTransaction → Uint256) (pool : CTxMemPool) :
    MempoolCall → CTxMemPool
  | addUnchecked entry setAncestors => pool.addUnchecked getWitnessHash entry setAncestors
  | removeRecursive origTx => CTxMemPool.removeRecursive σ pool origTx
  | removeForBlock vtx => CTxMemPool.removeForBlock σ pool vtx
  | removeConflicts tx => CTxMemPool.removeConflicts σ pool tx
  | expire time => CTxMemPool.expire σ pool time
  | trimToSize dynamicMemoryUsage worst sizelimit =>
    -- every turn of the loop removes a transaction
    CTxMemPool.trimToSize σ dynamicMemoryUsage worst sizelimit pool.mapTx.card pool
  | removeStaged stage updateDescendants => CTxMemPool.removeStaged σ pool stage updateDescendants
  | prioritiseTransaction hash nFeeDelta => CTxMemPool.prioritiseTransaction σ pool hash nFeeDelta
  | clearPrioritisation hash => pool.clearPrioritisation hash

/-- What the callers ensure. -/
def Valid (pool : CTxMemPool) : MempoolCall → Prop
  | addUnchecked entry setAncestors => pool.Addable entry setAncestors
  | removeForBlock vtx => pool.ParentsFirst vtx
  | trimToSize _ worst _ => ∀ pool : CTxMemPool, pool.mapTx.Nonempty → worst pool ∈ pool.mapTx
  | removeStaged stage _ => stage ⊆ pool.mapTx ∧ ∀ a b, pool.IsParent a b → a ∈ stage → b ∈ stage
  | _ => True

/-- A fee delta in the pool changes only while the stored delta is the one its entry counts. -/
def DeltaStored (pool : CTxMemPool) : MempoolCall → Prop
  | prioritiseTransaction hash _ =>
    hash ∈ pool.mapTx → pool.storedDelta hash = (pool.entry hash).feeDelta
  | _ => True

end MempoolCall

/-- The pools reached from the empty one by valid calls that all meet a condition. -/
inductive Reachable (σ : SetOrder Txid) (getWitnessHash : CTransaction → Uint256)
    (cond : CTxMemPool → MempoolCall → Prop) : CTxMemPool → Prop
  | empty : Reachable σ getWitnessHash cond .empty
  | call {pool : CTxMemPool} {c : MempoolCall} : Reachable σ getWitnessHash cond pool →
      c.Valid pool → cond pool c → Reachable σ getWitnessHash cond (c.run σ getWitnessHash pool)

theorem Accounted.run {c : MempoolCall} (h : pool.Accounted) (hv : c.Valid pool)
    (hd : c.DeltaStored pool) : (c.run σ getWitnessHash pool).Accounted := by
  cases c with
  | addUnchecked entry setAncestors => exact h.addUnchecked hv
  | removeRecursive origTx => exact h.removeRecursive origTx
  | removeForBlock vtx => exact h.removeForBlock hv
  | removeConflicts tx => exact h.removeConflicts tx
  | expire time => exact h.expire time
  | trimToSize dynamicMemoryUsage worst sizelimit => exact h.trimToSize hv sizelimit _
  | removeStaged stage updateDescendants => exact h.removeStaged hv.1 (.inl hv.2)
  | prioritiseTransaction hash nFeeDelta => exact h.prioritiseTransaction hd nFeeDelta
  | clearPrioritisation hash => exact h.clearPrioritisation hash

theorem Reachable.accounted (h : Reachable σ getWitnessHash MempoolCall.DeltaStored pool) :
    pool.Accounted := by
  induction h with
  | empty => exact accounted_empty
  | call _ hv hd ih => exact ih.run hv hd

/-- After every run in which fee deltas change only while they are stored, the pool is exact. -/
theorem Reachable.exact_of_deltaStored (h : Reachable σ getWitnessHash MempoolCall.DeltaStored pool) :
    pool.Exact :=
  h.accounted.exact

def txidOrder : SetOrder Txid := .ascending BitVec.toNat fun _ _ => BitVec.eq_of_toNat_eq

def parentOnly : CTxMemPool := CTxMemPool.empty.addUnchecked (·.hash) (sampleEntry 1 []) ∅

def parentAndChild : CTxMemPool := parentOnly.addUnchecked (·.hash) (sampleEntry 2 [⟨1, 0⟩]) {1}

theorem fresh_sampleEntry (hash : Txid) (prevouts : List COutPoint) :
    (sampleEntry hash prevouts).Fresh :=
  fresh_ofTx ..

theorem addable_parent : CTxMemPool.empty.Addable (sampleEntry 1 []) ∅ where
  fresh := fresh_sampleEntry 1 []
  notMem := by decide
  no_conflict := by decide
  no_child c hc := absurd hc (notMem_empty c)
  not_self := by decide
  mem_setAncestors a := by
    have hs : ∅ = calculateMemPoolAncestors txidOrder .empty
        (CTxMemPool.empty.parentsOf (sampleEntry 1 []).tx) := by decide +kernel
    rw [hs]
    exact accounted_empty.mem_setAncestors _ a

theorem addable_child : parentOnly.Addable (sampleEntry 2 [⟨1, 0⟩]) {1} where
  fresh := fresh_sampleEntry 2 [⟨1, 0⟩]
  notMem := by decide
  no_conflict := by decide
  no_child c hc := by
    obtain rfl : c = 1 := (mem_insert.mp hc).resolve_right (notMem_empty c)
    decide
  not_self := by decide
  mem_setAncestors a := by
    have hs : {1} = calculateMemPoolAncestors txidOrder parentOnly
        (parentOnly.parentsOf (sampleEntry 2 [⟨1, 0⟩]).tx) := by decide +kernel
    rw [hs]
    exact (accounted_empty.addUnchecked addable_parent).mem_setAncestors _ a

theorem reachable_parentAndChild {cond : CTxMemPool → MempoolCall → Prop}
    (hc : ∀ pool entry setAncestors, cond pool (.addUnchecked entry setAncestors)) :
    Reachable txidOrder (·.hash) cond parentAndChild :=
  .call (c := .addUnchecked _ _) (.call (c := .addUnchecked _ _) .empty addable_parent (hc _ _ _))
    addable_child (hc _ _ _)

theorem Reachable.exact_of_deltaStored_prioritised :
    (prioritiseTransaction txidOrder parentAndChild 2 5).Exact := by
  have hc : Reachable txidOrder (·.hash) MempoolCall.DeltaStored parentAndChild :=
    reachable_parentAndChild fun _ _ _ => trivial
  have hs : MempoolCall.DeltaStored parentAndChild (.prioritiseTransaction 2 5) :=
    fun _ => by decide +kernel
  exact (hc.call (c := .prioritiseTransaction 2 5) trivial hs).exact_of_deltaStored

def deltaReplaced : CTxMemPool :=
  prioritiseTransaction txidOrder
    ((prioritiseTransaction txidOrder parentAndChild 2 5).clearPrioritisation 2) 2 3

theorem reachable_deltaReplaced : Reachable txidOrder (·.hash) (fun _ _ => True) deltaReplaced := by
  have hch : Reachable txidOrder (·.hash) (fun _ _ => True) parentAndChild :=
    reachable_parentAndChild fun _ _ _ => trivial
  have hs := hch.call (c := .prioritiseTransaction 2 5) trivial trivial
  have hc := hs.call (c := .clearPrioritisation 2) trivial trivial
  exact hc.call (c := .prioritiseTransaction 2 3) trivial trivial

/-- The parent counts both deltas, the child only the second. -/
theorem deltaReplaced_not_exact : Reachable txidOrder (·.hash) (fun _ _ => True) deltaReplaced ∧
      (deltaReplaced.entry 1).nModFeesWithDescendants = 2008 ∧
      ∑ d ∈ deltaReplaced.descendants 1, (deltaReplaced.entry d).modifiedFee = 2003 ∧
      ¬ deltaReplaced.Exact := by
  have hm : deltaReplaced.mapTx = {1, 2} := by decide +kernel
  have hf : (deltaReplaced.entry 1).nModFeesWithDescendants = 2008 := by decide +kernel
  have hde : deltaReplaced.descendants 1 = {1, 2} := by
    classical
    rw [descendants, hm]
    refine filter_true_of_mem fun d hd => ?_
    rcases mem_insert.mp hd with rfl | hd
    · exact .refl
    · rw [mem_singleton.mp hd]
      exact .single (by decide +kernel)
  have hs : ∑ d ∈ deltaReplaced.descendants 1, (deltaReplaced.entry d).modifiedFee = 2003 := by
    rw [hde]
    decide +kernel
  refine ⟨reachable_deltaReplaced, hf, hs, fun he => ?_⟩
  have heq := he.nModFeesWithDescendants 1 (hm ▸ mem_insert_self 1 _)
  rw [hf, hs] at heq
  exact absurd heq (by decide)

theorem reachable_deltaStored :
    Reachable txidOrder (·.hash) MempoolCall.DeltaStored parentAndChild :=
  reachable_parentAndChild fun _ _ _ => trivial

/-- A transaction survives exactly if neither it nor an ancestor entered before the time. -/
theorem Reachable.mem_expire_iff (h : Reachable σ getWitnessHash MempoolCall.DeltaStored pool)
    (time : ℤ) (x : Txid) : x ∈ (expire σ pool time).mapTx ↔ x ∈ pool.mapTx ∧
      ∀ a ∈ pool.mapTx, ReflTransGen pool.IsParent a x → time ≤ (pool.entry a).nTime := by
  rw [expire, removeStaged_mapTx, mem_sdiff,
    h.accounted.links.mem_calculateAllDescendants (filter_subset _ _)]
  simp only [mem_filter, not_exists, not_and, and_imp, ← not_lt]
  exact and_congr_right fun _ => forall₂_congr fun _ _ => imp_not_comm

theorem Reachable.mem_expire_parentAndChild : 2 ∉ (expire txidOrder parentAndChild 5).mapTx := by
  rw [reachable_deltaStored.mem_expire_iff 5 2]
  exact fun hx => absurd (hx.2 2 hx.1 .refl) (by decide +kernel)

end CTxMemPool

end Palladium
