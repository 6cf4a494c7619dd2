import Palladium.Mempool.Addition
import Palladium.Mempool.Removal

/-! # The accounting of the memory pool

The links are those of the spent outputs, `mapNextTx` names the spender of each spent output, and
every total is the exact sum over ancestors or descendants.
-/

namespace Palladium
open CTxMemPoolEntry Finset Relation
namespace CTxMemPoolEntry
variable (e : CTxMemPoolEntry) (delta : ℤ)

theorem ancestorShare_updateFeeDelta :
    (e.updateFeeDelta delta).ancestorShare - e.ancestorShare = (0, delta - e.feeDelta, 0, 0) := by
  ext <;> simp [ancestorShare, modifiedFee, updateFeeDelta]

theorem descendantShare_updateFeeDelta :
    (e.updateFeeDelta delta).descendantShare - e.descendantShare = (0, delta - e.feeDelta, 0) := by
  ext <;> simp [descendantShare, modifiedFee, updateFeeDelta]

end CTxMemPoolEntry

namespace CTxMemPool

def IsParent (pool : CTxMemPool) (p c : Txid) : Prop :=
  p ∈ pool.mapTx ∧ c ∈ pool.mapTx ∧ (pool.entry c).tx.Spends p

instance (pool : CTxMemPool) (p c : Txid) : Decidable (pool.IsParent p c) :=
  inferInstanceAs (Decidable (_ ∧ _ ∧ _))

/-- The containers of the pool agree on its transactions. -/
structure Consistent (pool : CTxMemPool) : Prop where
  hash_eq : ∀ h ∈ pool.mapTx, (pool.entry h).tx.hash = h
  mapNextTx_iff : ∀ o h, pool.mapNextTx o = some h ↔
    h ∈ pool.mapTx ∧ o ∈ (pool.entry h).tx.prevouts
  totalTxSize_eq : pool.totalTxSize = ∑ h ∈ pool.mapTx, ((pool.entry h).nTxSize : ℤ)

structure Accounted (pool : CTxMemPool) : Prop extends Consistent pool where
  acyclic : ∀ h, ¬ TransGen pool.IsParent h h
  links : pool.LinkedBy pool.IsParent
  totals : pool.TotalsOver (TransGen pool.IsParent)

variable {σ : SetOrder Txid} {pool pool' : CTxMemPool} {getWitnessHash : CTransaction → Uint256}
  {entry : CTxMemPoolEntry} {setAncestors S : Finset Txid} {updateDescendants : Bool} {h : Txid}

theorem accounted_empty : CTxMemPool.empty.Accounted := by
  have hn : ∀ p c, ¬ CTxMemPool.empty.IsParent p c := fun p _ hp => notMem_empty p hp.1
  refine ⟨⟨fun h hh => absurd hh (notMem_empty h), fun o h => ?_, rfl⟩, fun h hh => ?_,
    ⟨?_, ?_, fun hE => hE.1, fun hE => hE.2.1⟩, ⟨?_, ?_⟩⟩
  · exact iff_of_false (by simp) fun hm => notMem_empty h hm.1
  · obtain ⟨c, hc, -⟩ := TransGen.head'_iff.mp hh
    exact hn h c hc
  · exact fun {p c} => iff_of_false (notMem_empty p) (hn p c)
  · exact fun {p c} => iff_of_false (notMem_empty c) (hn p c)
  all_goals exact fun h hh => absurd hh (notMem_empty h)

theorem Consistent.addUnchecked (hc : pool.Consistent) (hn : entry.tx.hash ∉ pool.mapTx)
    (hco : ∀ o ∈ entry.tx.prevouts, pool.mapNextTx o = none) (setAncestors : Finset Txid) :
    (pool.addUnchecked getWitnessHash entry setAncestors).Consistent := by
  have ht : ∀ h, ((pool.addUnchecked getWitnessHash entry setAncestors).entry h).tx =
      if h = entry.tx.hash then entry.tx else (pool.entry h).tx := addUnchecked_tx hn setAncestors
  have hne : ∀ a ∈ pool.mapTx, a ≠ entry.tx.hash := fun a ha he => hn (he ▸ ha)
  constructor
  · intro h hh
    rw [ht]
    rcases mem_insert.mp hh with rfl | hh
    · rw [if_pos rfl]
    · rw [if_neg (hne h hh), hc.hash_eq h hh]
  · intro o h
    change (pool.linkNew entry).mapNextTx o = _ ↔ _
    rw [linkNew_mapNextTx hn, ht, addUnchecked_mapTx, mem_insert]
    have hold := hc.mapNextTx_iff o h
    rcases eq_or_ne h entry.tx.hash with rfl | hh
    · by_cases ho : o ∈ entry.tx.prevouts
      · simp [ho, hco o ho]
      · simpa [ho, hn] using hold
    · by_cases ho : o ∈ entry.tx.prevouts
      · simpa [ho, hh, hco o ho, hh.symm] using hold
      · simpa [ho, hh] using hold
  · rw [addUnchecked_totalTxSize, addUnchecked_mapTx, sum_insert hn, hc.totalTxSize_eq,
      addUnchecked_nTxSize hn, if_pos rfl, add_comm]
    refine congrArg _ (sum_congr rfl fun a ha => ?_)
    rw [addUnchecked_nTxSize hn, if_neg (hne a ha)]

theorem isParent_addUnchecked (hn : entry.tx.hash ∉ pool.mapTx)
    (hl : ¬ entry.tx.Spends entry.tx.hash)
    (hch : ∀ c ∈ pool.mapTx, ¬ (pool.entry c).tx.Spends entry.tx.hash)
    (setAncestors : Finset Txid) :
    (pool.addUnchecked getWitnessHash entry setAncestors).IsParent =
      Extend pool.IsParent entry.tx.hash (pool.parentsOf entry.tx) := by
  funext p c
  apply propext
  rw [IsParent, addUnchecked_mapTx, addUnchecked_tx hn, Extend, IsParent, mem_parentsOf,
    mem_insert, mem_insert]
  rcases eq_or_ne c entry.tx.hash with rfl | hne
  · rw [if_pos rfl]
    constructor
    · rintro ⟨rfl | hp, -, hs⟩
      · exact absurd hs hl
      · exact .inr ⟨rfl, hs, hp⟩
    · rintro (⟨-, hc, -⟩ | ⟨-, hs, hp⟩)
      · exact absurd hc hn
      · exact ⟨.inr hp, .inl rfl, hs⟩
  · rw [if_neg hne]
    constructor
    · rintro ⟨rfl | hp, hc | hc, hs⟩
      · exact absurd hc hne
      · exact absurd hs (hch c hc)
      · exact absurd hc hne
      · exact .inl ⟨hp, hc, hs⟩
    · rintro (⟨hp, hc, hs⟩ | ⟨hc, -⟩)
      · exact ⟨.inr hp, .inr hc, hs⟩
      · exact absurd hc hne

/-- What `addUnchecked` takes for granted. -/
structure Addable (pool : CTxMemPool) (entry : CTxMemPoolEntry) (setAncestors : Finset Txid) :
    Prop where
  fresh : entry.Fresh
  notMem : entry.tx.hash ∉ pool.mapTx
  no_conflict : ∀ o ∈ entry.tx.prevouts, pool.mapNextTx o = none
  no_child : ∀ c ∈ pool.mapTx, ¬ (pool.entry c).tx.Spends entry.tx.hash
  not_self : ¬ entry.tx.Spends entry.tx.hash
  mem_setAncestors : ∀ a, a ∈ setAncestors ↔
    ∃ p ∈ pool.parentsOf entry.tx, ReflTransGen pool.IsParent a p

theorem Accounted.addUnchecked (h : pool.Accounted) (ha : pool.Addable entry setAncestors) :
    (pool.addUnchecked getWitnessHash entry setAncestors).Accounted := by
  have hp : (pool.addUnchecked getWitnessHash entry setAncestors).IsParent =
      Extend pool.IsParent entry.tx.hash (pool.parentsOf entry.tx) :=
    isParent_addUnchecked ha.notMem ha.not_self ha.no_child setAncestors
  refine ⟨h.toConsistent.addUnchecked ha.notMem ha.no_conflict setAncestors, ?_, ?_, ?_⟩
  · rw [hp]
    intro a
    exact acyclic_extend h.acyclic (not_left_of_new ha.notMem h.links)
      (notMem_parentsOf_new ha.notMem)
  · rw [hp]
    exact h.links.addUnchecked ha.notMem ha.not_self setAncestors
  · rw [hp]
    exact h.totals.addUnchecked ha.notMem h.links ha.fresh ha.mem_setAncestors

theorem Accounted.mem_setAncestors (h : pool.Accounted) (tx : CTransaction) (a : Txid) :
    a ∈ calculateMemPoolAncestors σ pool (pool.parentsOf tx) ↔
      ∃ p ∈ pool.parentsOf tx, ReflTransGen pool.IsParent a p :=
  h.links.mem_calculateMemPoolAncestors fun _ hp => (mem_parentsOf.mp hp).2

theorem Consistent.removeStaged (hc : pool.Consistent) (hS : S ⊆ pool.mapTx)
    (updateDescendants : Bool) : (removeStaged σ pool S updateDescendants).Consistent := by
  have ht : ∀ h, ((CTxMemPool.removeStaged σ pool S updateDescendants).entry h).tx =
      (pool.entry h).tx := fun h => by rw [removeStaged_entry]; rfl
  constructor
  · intro h hh
    rw [removeStaged_mapTx] at hh
    rw [ht, hc.hash_eq h (mem_sdiff.mp hh).1]
  · intro o h
    rw [removeStaged_mapNextTx, removeStaged_mapTx, ht, mem_sdiff]
    split
    · rename_i hr
      obtain ⟨r, hr, ho⟩ := hr
      refine iff_of_false (by simp) fun ⟨⟨hm, hn⟩, hs⟩ => hn ?_
      -- an output has only one spender
      have hsp := (hc.mapNextTx_iff o r).mpr ⟨hS hr, ho⟩
      rw [(hc.mapNextTx_iff o h).mpr ⟨hm, hs⟩] at hsp
      exact Option.some.inj hsp ▸ hr
    · rename_i hr
      rw [hc.mapNextTx_iff]
      constructor
      · exact fun ⟨hm, hs⟩ => ⟨⟨hm, fun hS => hr ⟨h, hS, hs⟩⟩, hs⟩
      · exact fun ⟨⟨hm, _⟩, hs⟩ => ⟨hm, hs⟩
  · rw [removeStaged_totalTxSize, removeStaged_mapTx, hc.totalTxSize_eq, ← sum_sdiff hS,
      add_sub_cancel_right]
    exact sum_congr rfl fun a _ => by rw [removeStaged_entry]; rfl

theorem isParent_removeStaged (updateDescendants : Bool) :
    (removeStaged σ pool S updateDescendants).IsParent = Keep pool.IsParent (· ∉ S) := by
  funext p c
  apply propext
  rw [IsParent, removeStaged_mapTx, removeStaged_entry, mem_sdiff, mem_sdiff, Keep, IsParent]
  constructor
  · rintro ⟨⟨hp, hpS⟩, ⟨hc, hcS⟩, hs⟩
    exact ⟨⟨hp, hc, hs⟩, hpS, hcS⟩
  · rintro ⟨⟨hp, hc, hs⟩, hpS, hcS⟩
    exact ⟨⟨hp, hpS⟩, ⟨hc, hcS⟩, hs⟩

theorem Accounted.removeStaged (h : pool.Accounted) (hS : S ⊆ pool.mapTx)
    (hr : Removable pool.IsParent S updateDescendants) :
    (removeStaged σ pool S updateDescendants).Accounted := by
  refine ⟨h.toConsistent.removeStaged hS updateDescendants, ?_, ?_, ?_⟩
  · rw [isParent_removeStaged]
    exact fun a ha => h.acyclic a ha.of_keep.1
  · rw [isParent_removeStaged]
    exact h.links.removeStaged updateDescendants
  · rw [isParent_removeStaged]
    exact h.totals.removeStaged h.links h.acyclic hS hr

theorem Accounted.calculateAllDescendants_subset (h : pool.Accounted) (hS : S ⊆ pool.mapTx) :
    calculateAllDescendants σ pool S ⊆ pool.mapTx := by
  intro x hx
  obtain ⟨a, ha, hax⟩ := (h.links.mem_calculateAllDescendants hS).mp hx
  rcases hax.cases_tail with rfl | ⟨c, -, hc⟩
  · exact hS ha
  · exact h.links.child_mem hc

theorem Accounted.removeDescendants (h : pool.Accounted) (hS : S ⊆ pool.mapTx)
    (updateDescendants : Bool) :
    (CTxMemPool.removeStaged σ pool (calculateAllDescendants σ pool S) updateDescendants).Accounted := by
  refine h.removeStaged (h.calculateAllDescendants_subset hS) (.inl fun a b hab ha => ?_)
  rw [h.links.mem_calculateAllDescendants hS] at ha ⊢
  obtain ⟨c, hc, hca⟩ := ha
  exact ⟨c, hc, hca.tail hab⟩

theorem Consistent.spendersOf_subset (hc : pool.Consistent) (tx : CTransaction) :
    pool.spendersOf tx ⊆ pool.mapTx := by
  intro h hh
  rw [spendersOf, List.mem_toFinset, List.mem_filterMap] at hh
  obtain ⟨i, -, hi⟩ := hh
  exact ((hc.mapNextTx_iff _ h).mp hi).1

theorem Accounted.removeRecursive (h : pool.Accounted) (origTx : CTransaction) :
    (removeRecursive σ pool origTx).Accounted := by
  refine h.removeDescendants ?_ false
  split
  · rename_i hmem
    exact singleton_subset_iff.mpr hmem
  · exact h.toConsistent.spendersOf_subset origTx

theorem Accounted.clearPrioritisation (h : pool.Accounted) (hash : Txid) :
    (pool.clearPrioritisation hash).Accounted :=
  ⟨⟨h.hash_eq, h.mapNextTx_iff, h.totalTxSize_eq⟩, h.acyclic,
    ⟨h.links.mem_parents, h.links.mem_children, h.links.parent_mem, h.links.child_mem⟩,
    ⟨h.totals.ancestorState, h.totals.descendantState⟩⟩

theorem Accounted.removeConflict (h : pool.Accounted) (tx : CTransaction) (txin : CTxIn) :
    (removeConflict σ tx pool txin).Accounted := by
  unfold CTxMemPool.removeConflict
  split
  · exact h
  · dsimp only
    split
    · exact (h.clearPrioritisation _).removeRecursive _
    · exact h

theorem Accounted.removeConflicts (h : pool.Accounted) (tx : CTransaction) :
    (removeConflicts σ pool tx).Accounted := by
  unfold CTxMemPool.removeConflicts
  induction tx.vin generalizing pool with
  | nil => exact h
  | cons txin vin ih => exact ih (h.removeConflict tx txin)

theorem Accounted.expire (h : pool.Accounted) (time : ℤ) : (expire σ pool time).Accounted :=
  h.removeDescendants (filter_subset _ _) false

theorem Accounted.descendants_subset (h : pool.Accounted) {it : Txid} (hi : it ∈ pool.mapTx) :
    calculateDescendants σ pool it ∅ ⊆ pool.mapTx := by
  intro x hx
  rcases ((h.links.mem_descendants hi).mp hx).cases_tail with rfl | ⟨c, -, hc⟩
  · exact hi
  · exact h.links.child_mem hc

theorem Accounted.removeDescendantsOf (h : pool.Accounted) {it : Txid} (hi : it ∈ pool.mapTx) :
    (CTxMemPool.removeStaged σ pool (calculateDescendants σ pool it ∅) false).Accounted := by
  refine h.removeStaged (h.descendants_subset hi) (.inl fun a b hab ha => ?_)
  rw [h.links.mem_descendants hi] at ha ⊢
  exact ha.tail hab

theorem Accounted.trimToSize (h : pool.Accounted) {dynamicMemoryUsage : CTxMemPool → ℕ}
    {worst : CTxMemPool → Txid} (hw : ∀ pool : CTxMemPool, pool.mapTx.Nonempty →
      worst pool ∈ pool.mapTx) (sizelimit fuel : ℕ) :
    (trimToSize σ dynamicMemoryUsage worst sizelimit fuel pool).Accounted := by
  induction fuel generalizing pool with
  | zero => exact h
  | succ fuel ih =>
    unfold CTxMemPool.trimToSize
    split
    · rename_i hsize
      exact ih (h.removeDescendantsOf (hw pool hsize.1))
    · exact h

/-- The second pool holds some of the transactions of the first. -/
structure Shrinks (pool pool' : CTxMemPool) : Prop where
  mapTx_subset : pool'.mapTx ⊆ pool.mapTx
  tx_eq : ∀ h, (pool'.entry h).tx = (pool.entry h).tx

theorem Shrinks.trans {pool'' : CTxMemPool} (h : Shrinks pool pool') (h' : Shrinks pool' pool'') :
    Shrinks pool pool'' :=
  ⟨h'.mapTx_subset.trans h.mapTx_subset, fun a => (h'.tx_eq a).trans (h.tx_eq a)⟩

theorem Shrinks.isParent (h : Shrinks pool pool') {p c : Txid} (hp : pool'.IsParent p c) :
    pool.IsParent p c :=
  ⟨h.mapTx_subset hp.1, h.mapTx_subset hp.2.1, h.tx_eq c ▸ hp.2.2⟩

theorem shrinks_removeStaged : Shrinks pool (removeStaged σ pool S updateDescendants) :=
  ⟨removeStaged_mapTx ▸ sdiff_subset, fun h => by rw [removeStaged_entry]; rfl⟩

theorem Shrinks.refl : Shrinks pool pool := ⟨subset_rfl, fun _ => rfl⟩

theorem shrinks_clearPrioritisation (hash : Txid) : Shrinks pool (pool.clearPrioritisation hash) :=
  ⟨subset_rfl, fun _ => rfl⟩

theorem shrinks_removeRecursive (origTx : CTransaction) :
    Shrinks pool (removeRecursive σ pool origTx) := shrinks_removeStaged

variable (tx : CTransaction)

theorem shrinks_removeConflicts : Shrinks pool (removeConflicts σ pool tx) := by
  unfold removeConflicts
  induction tx.vin generalizing pool with
  | nil => exact .refl
  | cons txin vin ih =>
    refine Shrinks.trans ?_ ih
    unfold removeConflict
    split
    · exact .refl
    · dsimp only
      split
      · exact (shrinks_clearPrioritisation _).trans (shrinks_removeRecursive _)
      · exact .refl

theorem shrinks_removeBlockTx : Shrinks pool (removeBlockTx σ pool tx) := by
  refine Shrinks.trans (Shrinks.trans ?_ (shrinks_removeConflicts tx)) (shrinks_clearPrioritisation _)
  split
  · exact shrinks_removeStaged
  · exact .refl

theorem notMem_removeBlockTx : tx.hash ∉ (removeBlockTx σ pool tx).mapTx := by
  intro hm
  have hm := (shrinks_removeConflicts tx).mapTx_subset hm
  split at hm
  · rw [removeStaged_mapTx] at hm
    exact (mem_sdiff.mp hm).2 (mem_singleton_self _)
  · rename_i hnot
    exact hnot hm

theorem Accounted.removeBlockTx (h : pool.Accounted) {tx : CTransaction}
    (hp : ∀ p, ¬ pool.IsParent p tx.hash) : (removeBlockTx σ pool tx).Accounted := by
  refine (Accounted.removeConflicts ?_ tx).clearPrioritisation tx.hash
  split
  · rename_i hmem
    refine h.removeStaged (singleton_subset_iff.mpr hmem) (.inr ⟨rfl, fun a b ha hb => ?_⟩)
    rw [mem_singleton.mp hb] at ha
    exact absurd ha (hp a)
  · exact h

def ParentsFirst (pool : CTxMemPool) (vtx : List CTransaction) : Prop :=
  ∀ i tx, vtx[i]? = some tx → ∀ p, pool.IsParent p tx.hash → p ∈ (vtx.take i).map (·.hash)

theorem Accounted.removeForBlock (h : pool.Accounted) {vtx : List CTransaction}
    (hf : pool.ParentsFirst vtx) : (removeForBlock σ pool vtx).Accounted := by
  -- the transactions listed so far are no longer in the pool
  suffices hr : ∀ (l pre : List CTransaction) (pool' : CTxMemPool), vtx = pre ++ l →
      pool'.Accounted → Shrinks pool pool' → (∀ t ∈ pre, t.hash ∉ pool'.mapTx) →
      (l.foldl (CTxMemPool.removeBlockTx σ) pool').Accounted from
    hr vtx [] pool rfl h .refl fun _ ht => absurd ht List.not_mem_nil
  intro l
  induction l with
  | nil => exact fun _ _ _ h' _ _ => h'
  | cons tx l ih =>
    intro pre pool' hv h' hs hpr
    have hpa : ∀ p, ¬ pool'.IsParent p tx.hash := by
      intro p hp
      have hl := hf pre.length tx (by simp [hv]) p (hs.isParent hp)
      rw [hv, List.take_left, List.mem_map] at hl
      obtain ⟨t, ht, rfl⟩ := hl
      exact hpr t ht hp.1
    refine ih (pre ++ [tx]) _ (by simp [hv]) (h'.removeBlockTx hpa)
      (hs.trans (shrinks_removeBlockTx tx)) fun t ht => ?_
    rcases List.mem_append.mp ht with ht | ht
    · exact fun hm => hpr t ht ((shrinks_removeBlockTx tx).mapTx_subset hm)
    · rw [List.mem_singleton.mp ht]
      exact notMem_removeBlockTx tx

/-- Two pools with the same transactions, spenders and total size. -/
structure SameTxs (pool pool' : CTxMemPool) : Prop where
  mapTx_eq : pool'.mapTx = pool.mapTx
  tx_eq : ∀ h, (pool'.entry h).tx = (pool.entry h).tx
  nTxSize_eq : ∀ h, (pool'.entry h).nTxSize = (pool.entry h).nTxSize
  mapNextTx_eq : pool'.mapNextTx = pool.mapNextTx
  totalTxSize_eq : pool'.totalTxSize = pool.totalTxSize

theorem SameTxs.isParent_eq (hs : SameTxs pool pool') : pool'.IsParent = pool.IsParent := by
  funext p c
  rw [IsParent, IsParent, hs.mapTx_eq, hs.tx_eq]

theorem SameTxs.consistent (hs : SameTxs pool pool') (hc : pool.Consistent) : pool'.Consistent := by
  constructor
  · intro h hh
    rw [hs.tx_eq, hc.hash_eq h (hs.mapTx_eq ▸ hh)]
  · intro o h
    rw [hs.mapNextTx_eq, hs.mapTx_eq, hs.tx_eq, hc.mapNextTx_iff]
  · rw [hs.totalTxSize_eq, hs.mapTx_eq, hc.totalTxSize_eq]
    exact sum_congr rfl fun h _ => by rw [hs.nTxSize_eq]

variable {hash : Txid}

theorem prioritiseTransaction_of_notMem (hm : hash ∉ pool.mapTx) (nFeeDelta : ℤ) :
    prioritiseTransaction σ pool hash nFeeDelta =
      pool.setDelta hash (pool.storedDelta hash + nFeeDelta) :=
  if_neg hm

theorem prioritiseTransaction_of_mem (hm : hash ∈ pool.mapTx) (nFeeDelta : ℤ) :
    prioritiseTransaction σ pool hash nFeeDelta =
      ((pool.setDelta hash (pool.storedDelta hash + nFeeDelta)).modify {hash}
        (.updateFeeDelta (pool.storedDelta hash + nFeeDelta))).addStates
      (fun h => if h ∈ (calculateDescendants σ pool hash ∅).erase hash then (0, nFeeDelta, 0, 0) else 0)
      fun h => if h ∈ calculateMemPoolAncestors σ pool (pool.parents hash) then (0, nFeeDelta, 0)
        else 0 := by
  refine (if_pos hm).trans ?_
  rw [modify_updateDescendantState, modify_updateAncestorState, addStates_addStates, zero_add,
    add_zero]
  rfl

theorem modify_updateFeeDelta_entry (hash : Txid) (delta : ℤ) (h : Txid) :
    (pool.modify {hash} (.updateFeeDelta delta)).entry h =
      if h = hash then (pool.entry hash).updateFeeDelta delta else pool.entry h := by
  rw [modify_entry]
  by_cases hh : h = hash
  · simp [hh]
  · simp [hh]

theorem sameTxs_prioritiseTransaction (hash : Txid) (nFeeDelta : ℤ) :
    SameTxs pool (prioritiseTransaction σ pool hash nFeeDelta) := by
  by_cases hm : hash ∈ pool.mapTx
  · rw [prioritiseTransaction_of_mem hm]
    refine ⟨rfl, fun h => ?_, fun h => ?_, rfl, rfl⟩
    all_goals
      rw [addStates_entry, modify_updateFeeDelta_entry]
      rcases eq_or_ne h hash with rfl | hn
      · rw [if_pos rfl]
        rfl
      · rw [if_neg hn]
        rfl
  · rw [prioritiseTransaction_of_notMem hm]
    exact ⟨rfl, fun _ => rfl, fun _ => rfl, rfl, rfl⟩

theorem linkedBy_prioritiseTransaction {E : Txid → Txid → Prop} (hl : pool.LinkedBy E) (hash : Txid)
    (nFeeDelta : ℤ) : (prioritiseTransaction σ pool hash nFeeDelta).LinkedBy E := by
  by_cases hm : hash ∈ pool.mapTx
  · rw [prioritiseTransaction_of_mem hm]
    exact ⟨hl.mem_parents, hl.mem_children, hl.parent_mem, hl.child_mem⟩
  · rw [prioritiseTransaction_of_notMem hm]
    exact ⟨hl.mem_parents, hl.mem_children, hl.parent_mem, hl.child_mem⟩

theorem Accounted.totals_prioritiseTransaction (h : pool.Accounted) (hm : hash ∈ pool.mapTx)
    (hd : pool.storedDelta hash = (pool.entry hash).feeDelta) (nFeeDelta : ℤ) :
    (CTxMemPool.prioritiseTransaction σ pool hash nFeeDelta).TotalsOver (TransGen pool.IsParent) := by
  have hs : (CTxMemPool.prioritiseTransaction σ pool hash nFeeDelta).entry hash =
      (pool.entry hash).updateFeeDelta (pool.storedDelta hash + nFeeDelta) := by
    have han : hash ∉ calculateMemPoolAncestors σ pool (pool.parents hash) :=
      fun ha => h.acyclic hash (h.links.mem_ancestors.mp ha)
    rw [prioritiseTransaction_of_mem hm, addStates_entry, modify_updateFeeDelta_entry, if_pos rfl,
      if_neg han, if_neg (notMem_erase hash _)]
    simp
  have ho : ∀ a, a ≠ hash → (CTxMemPool.prioritiseTransaction σ pool hash nFeeDelta).entry a =
      ((pool.entry a).updateAncestorState (if a ∈ (calculateDescendants σ pool hash ∅).erase hash then
        (0, nFeeDelta, 0, 0) else 0)).updateDescendantState
          (if a ∈ calculateMemPoolAncestors σ pool (pool.parents hash) then (0, nFeeDelta, 0) else 0) := by
    intro a hn
    rw [prioritiseTransaction_of_mem hm, addStates_entry, modify_updateFeeDelta_entry, if_neg hn]
    rfl
  have hf : pool.storedDelta hash + nFeeDelta - (pool.entry hash).feeDelta = nFeeDelta := by
    rw [hd]
    omega
  constructor
  · rw [(sameTxs_prioritiseTransaction hash nFeeDelta).mapTx_eq]
    refine h.totals.ancestorState.shift hm (h.acyclic hash)
      (fun a _ => h.links.mem_descendants_erase (σ := σ) h.acyclic hm) (fun a _ hn => ?_) fun a _ => ?_
    · rw [ho a hn]
      rfl
    · rw [hs, ancestorShare_updateFeeDelta, hf]
      rcases eq_or_ne a hash with rfl | hn
      · rw [hs, if_pos (.inl rfl), updateFeeDelta_ancestorState, hf]
      · rw [ho a hn]
        simp only [hn, false_or]
        rfl
  · rw [(sameTxs_prioritiseTransaction hash nFeeDelta).mapTx_eq]
    refine h.totals.descendantState.shift hm (h.acyclic hash)
      (fun a _ => h.links.mem_ancestors (σ := σ)) (fun a _ hn => ?_) fun a _ => ?_
    · rw [ho a hn]
      rfl
    · rw [hs, descendantShare_updateFeeDelta, hf]
      rcases eq_or_ne a hash with rfl | hn
      · rw [hs, if_pos (.inl rfl), updateFeeDelta_descendantState, hf]
      · rw [ho a hn]
        simp only [hn, false_or]
        rfl

theorem Accounted.prioritiseTransaction (h : pool.Accounted)
    (hd : hash ∈ pool.mapTx → pool.storedDelta hash = (pool.entry hash).feeDelta)
    (nFeeDelta : ℤ) : (prioritiseTransaction σ pool hash nFeeDelta).Accounted := by
  have hs : SameTxs pool (CTxMemPool.prioritiseTransaction σ pool hash nFeeDelta) :=
    sameTxs_prioritiseTransaction hash nFeeDelta
  refine ⟨hs.consistent h.toConsistent, ?_, ?_, ?_⟩
  · rw [hs.isParent_eq]
    exact h.acyclic
  · rw [hs.isParent_eq]
    exact linkedBy_prioritiseTransaction h.links hash nFeeDelta
  · rw [hs.isParent_eq]
    by_cases hm : hash ∈ pool.mapTx
    · exact h.totals_prioritiseTransaction hm (hd hm) nFeeDelta
    · rw [prioritiseTransaction_of_notMem hm]
      exact ⟨h.totals.ancestorState, h.totals.descendantState⟩

end CTxMemPool

end Palladium
