import Palladium.Mempool.Runs
import Palladium.Mining.BlockAssembler

/-! # Packages

What a turn of `addPackageTxs` does to the block and to the totals kept for the transactions
outside.
-/

namespace Palladium
open List Relation
namespace CTxMemPool
variable {pool : CTxMemPool} {d : Txid}

theorem Accounted.packageState_eq (h : pool.Accounted) (hd : d ∈ pool.mapTx) :
    (pool.entry d).packageState = ∑ x ∈ pool.ancestors d, (pool.entry x).packageShare := by
  have he := h.exact
  ext
  · rw [Prod.fst_sum]
    exact he.nSizeWithAncestors d hd
  · rw [Prod.snd_sum, Prod.fst_sum]
    exact he.nModFeesWithAncestors d hd
  · rw [Prod.snd_sum, Prod.snd_sum]
    exact he.nSigOpCostWithAncestors d hd

theorem self_mem_ancestors (hd : d ∈ pool.mapTx) : d ∈ pool.ancestors d :=
  mem_ancestors_iff.mpr ⟨hd, .refl⟩

theorem ancestors_subset {x : Txid} (hx : ReflTransGen pool.IsParent x d) :
    pool.ancestors x ⊆ pool.ancestors d := by
  intro y hy
  rw [mem_ancestors_iff] at hy ⊢
  exact ⟨hy.1, hy.2.trans hx⟩

theorem Accounted.nCountWithAncestors_lt (h : pool.Accounted) {p c : Txid} (hp : pool.IsParent p c) :
    (pool.entry p).nCountWithAncestors < (pool.entry c).nCountWithAncestors := by
  rw [h.exact.nCountWithAncestors p hp.1, h.exact.nCountWithAncestors c hp.2.1]
  refine Nat.cast_lt.mpr (Finset.card_lt_card ⟨ancestors_subset (.single hp), fun hs => ?_⟩)
  have hc := (mem_ancestors_iff.mp (hs (self_mem_ancestors hp.2.1))).2
  exact h.acyclic c (TransGen.tail' hc hp)

end CTxMemPool

namespace BlockAssembler
open CTxMemPool
variable {σ : SetOrder Txid} {a : BlockAssembler} {s : AssemblerState} {d iter : Txid}
  {added : Finset Txid}

def estimate (a : BlockAssembler) (s : AssemblerState) (d : Txid) : PackageState :=
  if d ∈ s.mapModifiedTx then s.modified d else (a.m_mempool.entry d).packageState

noncomputable def needed (a : BlockAssembler) (inBlock : Finset Txid) (d : Txid) : PackageState :=
  ∑ x ∈ a.m_mempool.ancestors d \ inBlock, (a.m_mempool.entry x).packageShare

theorem needed_eq (inBlock : Finset Txid) : needed a inBlock d =
    (∑ x ∈ a.m_mempool.ancestors d \ inBlock, ((a.m_mempool.entry x).nTxSize : ℤ),
      ∑ x ∈ a.m_mempool.ancestors d \ inBlock, (a.m_mempool.entry x).modifiedFee,
      ∑ x ∈ a.m_mempool.ancestors d \ inBlock, ((a.m_mempool.entry x).sigOpCost : ℤ)) := by
  ext
  · exact Prod.fst_sum
  · exact (congrArg Prod.fst Prod.snd_sum).trans Prod.fst_sum
  · exact (congrArg Prod.snd Prod.snd_sum).trans Prod.snd_sum

theorem needed_eq_add {inBlock : Finset Txid} (hd : Disjoint added inBlock) :
    needed a inBlock d = needed a (inBlock ∪ added) d +
      ∑ it ∈ added ∩ a.m_mempool.ancestors d, (a.m_mempool.entry it).packageShare := by
  have hi : added ∩ a.m_mempool.ancestors d = (a.m_mempool.ancestors d \ inBlock) ∩ added := by
    ext x
    simp only [Finset.mem_inter, Finset.mem_sdiff]
    exact ⟨fun h => ⟨⟨h.2, Finset.disjoint_left.mp hd h.1⟩, h.1⟩, fun h => ⟨h.2, h.1.1⟩⟩
  rw [needed, needed, hi, ← Finset.sup_eq_union, ← sdiff_sdiff_left, add_comm,
    Finset.sum_inter_add_sum_sdiff]

theorem foldl_addSortedEntry (l : List Txid) : l.foldl (addSortedEntry a) s =
      { s with
        vtx := s.vtx ++ l
        inBlock := s.inBlock ∪ l.toFinset
        nBlockWeight := s.nBlockWeight + (l.map fun h => (a.m_mempool.entry h).nTxWeight).sum
        nBlockTx := s.nBlockTx + l.length
        nBlockSigOpsCost := s.nBlockSigOpsCost + (l.map fun h => (a.m_mempool.entry h).sigOpCost).sum
        nFees := s.nFees + (l.map fun h => (a.m_mempool.entry h).nFee).sum
        mapModifiedTx := s.mapModifiedTx \ l.toFinset } := by
  induction l generalizing s with
  | nil => simp
  | cons h l ih =>
    rw [foldl_cons, ih]
    simp only [addSortedEntry, addToBlock, append_assoc, singleton_append,
      toFinset_cons, map_cons, sum_cons, length_cons, Finset.insert_union,
      Finset.union_insert, add_assoc, add_comm 1, Finset.sdiff_insert, Finset.erase_sdiff_comm]

theorem mem_sortForBlock {package : Finset Txid} : d ∈ sortForBlock σ a package ↔ d ∈ package := by
  rw [sortForBlock, mem_insertionSort, σ.mem_elems]

variable (package : Finset Txid)

theorem toFinset_sortForBlock : (sortForBlock σ a package).toFinset = package := by
  ext h
  rw [mem_toFinset, mem_sortForBlock]

theorem nodup_sortForBlock : (sortForBlock σ a package).Nodup :=
  (perm_insertionSort _ _).nodup_iff.mpr (σ.nodup package)

theorem pairwise_sortForBlock (hacc : a.m_mempool.Accounted) (package : Finset Txid) :
    (sortForBlock σ a package).Pairwise fun x y => ¬ a.m_mempool.IsParent y x := by
  have : Std.Total fun x y : Txid => a.sortKey x ≤ a.sortKey y := ⟨fun x y => le_total _ _⟩
  have : IsTrans Txid fun x y => a.sortKey x ≤ a.sortKey y := ⟨fun _ _ _ => le_trans⟩
  refine (pairwise_insertionSort _ _).imp fun {x y} hl hp => ?_
  have hlt : a.sortKey y < a.sortKey x :=
    Prod.Lex.toLex_lt_toLex.mpr (.inl (hacc.nCountWithAncestors_lt hp))
  exact hl.not_gt hlt

theorem length_sortForBlock : (sortForBlock σ a package).length = package.card := by
  rw [← toFinset_sortForBlock (σ := σ) (a := a) package,
    toFinset_card_of_nodup (nodup_sortForBlock package), toFinset_sortForBlock]

theorem sum_map_sortForBlock {M : Type*} [AddCommMonoid M] (f : Txid → M) :
    ((sortForBlock σ a package).map f).sum = ∑ h ∈ package, f h := by
  rw [← sum_toFinset f (nodup_sortForBlock package), toFinset_sortForBlock]

theorem updatePackagesForAdded_frame : { updatePackagesForAdded σ a added s with
      mapModifiedTx := s.mapModifiedTx, modified := s.modified } = s := by
  unfold updatePackagesForAdded
  induction σ.elems added generalizing s with
  | nil => rfl
  | cons it l ih => exact congrArg (fun s' : AssemblerState => { s' with
      mapModifiedTx := s.mapModifiedTx, modified := s.modified }) (ih (s := updatePackagesFor σ a added s it))

theorem mem_mapModifiedTx_updatePackagesForAdded (hacc : a.m_mempool.Accounted)
    (hadded : added ⊆ a.m_mempool.mapTx) :
    d ∈ (updatePackagesForAdded σ a added s).mapModifiedTx ↔
      d ∈ s.mapModifiedTx ∨ d ∉ added ∧ ∃ it ∈ added, ReflTransGen a.m_mempool.IsParent it d := by
  have hf : ∀ (l : List Txid), (∀ it ∈ l, it ∈ added) → ∀ s : AssemblerState,
      d ∈ (l.foldl (updatePackagesFor σ a added) s).mapModifiedTx ↔
        d ∈ s.mapModifiedTx ∨ d ∉ added ∧ ∃ it ∈ l, ReflTransGen a.m_mempool.IsParent it d := by
    intro l
    induction l with
    | nil => simp
    | cons it l ih =>
      intro hl s
      have hi : it ∈ a.m_mempool.mapTx := hadded (hl it mem_cons_self)
      rw [foldl_cons, ih fun x hx => hl x (mem_cons_of_mem _ hx)]
      simp only [updatePackagesFor, Finset.mem_union, Finset.mem_sdiff,
        hacc.links.mem_descendants hi, exists_mem_cons_iff]
      tauto
  rw [updatePackagesForAdded, hf _ fun it hi => σ.mem_elems.mp hi]
  simp only [σ.mem_elems]

theorem estimate_updatePackagesFor (it : Txid) :
    estimate a (updatePackagesFor σ a added s it) d = estimate a s d -
      if d ∈ calculateDescendants σ a.m_mempool it ∅ \ added then
        if d ∈ s.mapModifiedTx then (a.m_mempool.entry it).inclusionShare
        else (a.m_mempool.entry it).packageShare
      else 0 := by
  unfold estimate updatePackagesFor
  by_cases hd : d ∈ calculateDescendants σ a.m_mempool it ∅ \ added
  · by_cases hm : d ∈ s.mapModifiedTx <;> simp only [Finset.mem_union, hd, hm, or_true, if_true,
      if_false]
  · simp only [Finset.mem_union, hd, or_false, if_false, sub_zero]

section Estimate
variable {M : Type*} [AddCommGroup M] (φ : PackageState →+ M)

theorem map_estimate_updatePackagesForAdded
    (hφ : ∀ it ∈ added, it ∈ a.m_mempool.ancestors d →
      φ (a.m_mempool.entry it).inclusionShare = φ (a.m_mempool.entry it).packageShare)
    (hacc : a.m_mempool.Accounted) (hadded : added ⊆ a.m_mempool.mapTx) (hd : d ∉ added) :
    φ (estimate a (updatePackagesForAdded σ a added s) d) = φ (estimate a s d) -
      ∑ it ∈ added ∩ a.m_mempool.ancestors d, φ (a.m_mempool.entry it).packageShare := by
  have hf : ∀ (l : List Txid), (∀ it ∈ l, it ∈ added) → ∀ s : AssemblerState,
      φ (estimate a (l.foldl (updatePackagesFor σ a added) s) d) = φ (estimate a s d) -
        (l.map fun it => if it ∈ a.m_mempool.ancestors d then
          φ (a.m_mempool.entry it).packageShare else 0).sum := by
    intro l
    induction l with
    | nil => simp
    | cons it l ih =>
      intro hl s
      have hi : it ∈ added := hl it mem_cons_self
      have hde : d ∈ calculateDescendants σ a.m_mempool it ∅ \ added ↔
          it ∈ a.m_mempool.ancestors d := by
        rw [Finset.mem_sdiff, hacc.links.mem_descendants (hadded hi), mem_ancestors_iff]
        exact ⟨fun h => ⟨hadded hi, h.1⟩, fun h => ⟨h.2, hd⟩⟩
      rw [foldl_cons, ih (fun x hx => hl x (mem_cons_of_mem _ hx)),
        estimate_updatePackagesFor, map_sub, map_cons, sum_cons, sub_sub]
      congr 2
      by_cases hm : it ∈ a.m_mempool.ancestors d
      · rw [if_pos (hde.mpr hm), if_pos hm]
        split
        · exact hφ it hi hm
        · rfl
      · rw [if_neg (mt hde.mp hm), if_neg hm, map_zero]
  rw [updatePackagesForAdded, hf _ (fun it hi => σ.mem_elems.mp hi), SetOrder.sum_map_elems,
    ← Finset.sum_filter, Finset.filter_mem_eq_inter]

end Estimate

section AddPackage
variable (σ a s added)

theorem addPackage_eq : addPackage σ a s added = updatePackagesForAdded σ a added
      { s with
        vtx := s.vtx ++ sortForBlock σ a added
        inBlock := s.inBlock ∪ added
        nBlockWeight := s.nBlockWeight + ∑ h ∈ added, (a.m_mempool.entry h).nTxWeight
        nBlockTx := s.nBlockTx + added.card
        nBlockSigOpsCost := s.nBlockSigOpsCost + ∑ h ∈ added, (a.m_mempool.entry h).sigOpCost
        nFees := s.nFees + ∑ h ∈ added, (a.m_mempool.entry h).nFee
        mapModifiedTx := s.mapModifiedTx \ added
        nConsecutiveFailed := 0 } := by
  rw [addPackage, foldl_addSortedEntry]
  simp only [sum_map_sortForBlock, toFinset_sortForBlock, length_sortForBlock]

@[simp] theorem addPackage_vtx : (addPackage σ a s added).vtx = s.vtx ++ sortForBlock σ a added := by
  rw [addPackage_eq]
  exact congrArg AssemblerState.vtx updatePackagesForAdded_frame

@[simp] theorem addPackage_inBlock : (addPackage σ a s added).inBlock = s.inBlock ∪ added := by
  rw [addPackage_eq]
  exact congrArg AssemblerState.inBlock updatePackagesForAdded_frame

@[simp] theorem addPackage_nBlockWeight : (addPackage σ a s added).nBlockWeight =
    s.nBlockWeight + ∑ h ∈ added, (a.m_mempool.entry h).nTxWeight := by
  rw [addPackage_eq]
  exact congrArg AssemblerState.nBlockWeight updatePackagesForAdded_frame

@[simp] theorem addPackage_nBlockSigOpsCost : (addPackage σ a s added).nBlockSigOpsCost =
    s.nBlockSigOpsCost + ∑ h ∈ added, (a.m_mempool.entry h).sigOpCost := by
  rw [addPackage_eq]
  exact congrArg AssemblerState.nBlockSigOpsCost updatePackagesForAdded_frame

@[simp] theorem addPackage_nFees : (addPackage σ a s added).nFees =
    s.nFees + ∑ h ∈ added, (a.m_mempool.entry h).nFee := by
  rw [addPackage_eq]
  exact congrArg AssemblerState.nFees updatePackagesForAdded_frame

@[simp] theorem addPackage_mi : (addPackage σ a s added).mi = s.mi := by
  rw [addPackage_eq]
  exact (congrArg AssemblerState.mi updatePackagesForAdded_frame).trans rfl

end AddPackage

variable (hacc : a.m_mempool.Accounted) (hadded : added ⊆ a.m_mempool.mapTx)
include hacc hadded

theorem mem_mapModifiedTx_addPackage : d ∈ (addPackage σ a s added).mapModifiedTx ↔
    d ∉ added ∧ (d ∈ s.mapModifiedTx ∨ ∃ it ∈ added, ReflTransGen a.m_mempool.IsParent it d) := by
  rw [addPackage_eq, mem_mapModifiedTx_updatePackagesForAdded hacc hadded, Finset.mem_sdiff]
  tauto

theorem map_estimate_addPackage {M : Type*} [AddCommGroup M] (φ : PackageState →+ M)
    (hφ : ∀ it ∈ added, it ∈ a.m_mempool.ancestors d →
      φ (a.m_mempool.entry it).inclusionShare = φ (a.m_mempool.entry it).packageShare)
    (hdi : Disjoint added s.inBlock) (hd : d ∉ added) :
    φ (estimate a (addPackage σ a s added) d) - φ (needed a (s.inBlock ∪ added) d) =
      φ (estimate a s d) - φ (needed a s.inBlock d) := by
  rw [addPackage_eq, map_estimate_updatePackagesForAdded φ hφ hacc hadded hd,
    needed_eq_add hdi, map_add, map_sum]
  simp only [estimate, Finset.mem_sdiff, hd, not_false_eq_true, and_true]
  abel

end BlockAssembler

end Palladium
