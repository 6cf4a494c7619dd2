import Mathlib.Algebra.BigOperators.Ring.Finset
import Mathlib.Algebra.Order.BigOperators.Group.Finset
import Mathlib.Algebra.Order.Monoid.Prod
import Palladium.Mining.Turns

/-! # What block assembly selects

The totals used for a package are at least those of what it adds, so the block stays within its
limits.
-/

namespace Palladium
open CTxMemPool Finset Relation
namespace BlockAssembler
variable {σ : SetOrder Txid} {a : BlockAssembler} {order : PackageOrder a.m_mempool}
  {s s' : AssemblerState} {iter d : Txid} {fUsingModified : Bool} {mi : List Txid}

/-- What a block may hold. -/
structure ValidSelection (a : BlockAssembler) (s : AssemblerState) : Prop where
  nodup : s.vtx.Nodup
  mem_mapTx : ∀ h ∈ s.vtx, h ∈ a.m_mempool.mapTx
  ancestors_mem : ∀ h ∈ s.vtx, ∀ x ∈ a.m_mempool.ancestors h, x ∈ s.vtx
  parents_first : ∀ p c, a.m_mempool.IsParent p c → c ∈ s.vtx → s.vtx.idxOf p < s.vtx.idxOf c
  final : ∀ h ∈ s.vtx, isFinalTx (a.m_mempool.entry h).tx a.nHeight a.nLockTimeCutoff = true
  weight_lt : s.vtx = [] ∨
    4000 + (s.vtx.map fun h => (a.m_mempool.entry h).nTxWeight).sum < a.nBlockMaxWeight
  sigOpsCost_lt : 400 + (s.vtx.map fun h => (a.m_mempool.entry h).sigOpCost).sum < maxBlockSigopsCost
  nFees_eq : s.nFees = (s.vtx.map fun h => (a.m_mempool.entry h).nFee).sum

theorem SameBlock.validSelection (hs : SameBlock s s') (h : ValidSelection a s) :
    ValidSelection a s' := by
  obtain ⟨hv, -, hf⟩ := hs
  constructor <;> simp only [hv, hf]
  exacts [h.nodup, h.mem_mapTx, h.ancestors_mem, h.parents_first, h.final, h.weight_lt,
    h.sigOpsCost_lt, h.nFees_eq]

def resources : PackageState →+ ℤ × ℤ where
  toFun p := (p.1, p.2.2)
  map_zero' := rfl
  map_add' _ _ := rfl

theorem resources_inclusionShare (e : CTxMemPoolEntry) :
    resources e.inclusionShare = resources e.packageShare := rfl

theorem resources_packageShare_nonneg (e : CTxMemPoolEntry) : 0 ≤ resources e.packageShare :=
  ⟨Int.natCast_nonneg e.nTxSize, Int.natCast_nonneg e.sigOpCost⟩

/-- What every turn keeps, if weights are at most four times the sizes. -/
structure Selecting (order : PackageOrder a.m_mempool) (s : AssemblerState) : Prop
    extends Tracking order s where
  nodup : s.vtx.Nodup
  mem_inBlock : ∀ h, h ∈ s.inBlock ↔ h ∈ s.vtx
  pairwise : s.vtx.Pairwise fun x y => ¬ a.m_mempool.IsParent y x
  final : ∀ h ∈ s.inBlock, isFinalTx (a.m_mempool.entry h).tx a.nHeight a.nLockTimeCutoff = true
  weight_eq : s.nBlockWeight = 4000 + ∑ h ∈ s.inBlock, (a.m_mempool.entry h).nTxWeight
  sigOps_eq : s.nBlockSigOpsCost = 400 + ∑ h ∈ s.inBlock, (a.m_mempool.entry h).sigOpCost
  nFees_eq : s.nFees = ∑ h ∈ s.inBlock, (a.m_mempool.entry h).nFee
  weight_lt : s.vtx = [] ∨ s.nBlockWeight < a.nBlockMaxWeight
  sigOps_lt : s.nBlockSigOpsCost < maxBlockSigopsCost
  resources_le : ∀ d ∈ a.m_mempool.mapTx, d ∉ s.inBlock →
    resources (needed a s.inBlock d) ≤ resources (estimate a s d)

namespace Selecting
variable (h : Selecting order s)
include h

theorem sum_inBlock {M : Type*} [AddCommMonoid M] (f : Txid → M) :
    ∑ x ∈ s.inBlock, f x = (s.vtx.map f).sum := by
  have hs : s.inBlock = s.vtx.toFinset :=
    Finset.ext fun x => (h.mem_inBlock x).trans List.mem_toFinset.symm
  rw [hs, List.sum_toFinset f h.nodup]

theorem validSelection (hacc : a.m_mempool.Accounted) : ValidSelection a s where
  nodup := h.nodup
  mem_mapTx x hx := h.subset_mapTx ((h.mem_inBlock x).mpr hx)
  ancestors_mem x hx y hy := (h.mem_inBlock y).mp (h.closed x ((h.mem_inBlock x).mpr hx) hy)
  parents_first p c hpc hc := by
    have hp : p ∈ s.vtx := by
      rw [← h.mem_inBlock] at hc ⊢
      exact h.closed c hc (mem_ancestors_iff.mpr ⟨hpc.1, .single hpc⟩)
    by_contra hge
    have hn : p ≠ c := fun he => hacc.acyclic c (.single (he ▸ hpc))
    have hl : s.vtx.idxOf c < s.vtx.idxOf p :=
      lt_of_le_of_ne (not_lt.mp hge) fun he => hn ((List.idxOf_inj hc).mp he).symm
    have hpa := List.pairwise_iff_getElem.mp h.pairwise _ _ (List.idxOf_lt_length_iff.mpr hc)
      (List.idxOf_lt_length_iff.mpr hp) hl
    rw [List.getElem_idxOf, List.getElem_idxOf] at hpa
    exact hpa hpc
  final x hx := h.final x ((h.mem_inBlock x).mpr hx)
  weight_lt := h.weight_lt.imp_right fun hl => by rwa [h.weight_eq, h.sum_inBlock] at hl
  sigOpsCost_lt := by
    have hl := h.sigOps_lt
    rwa [h.sigOps_eq, h.sum_inBlock] at hl
  nFees_eq := by rw [h.nFees_eq, h.sum_inBlock]

end Selecting

theorem resources_needed_le (hacc : a.m_mempool.Accounted) (hd : d ∈ a.m_mempool.mapTx)
    (inBlock : Finset Txid) :
    resources (needed a inBlock d) ≤ resources (a.m_mempool.entry d).packageState := by
  rw [needed, hacc.packageState_eq hd, map_sum, map_sum]
  exact sum_le_sum_of_subset_of_nonneg sdiff_subset
    fun x _ _ => resources_packageShare_nonneg _

theorem Selecting.passed (h : Selecting order s) {next : Txid} (hm : s.mi = next :: mi) (n : ℕ) :
    Selecting order { s with mi := mi, nConsecutiveFailed := n } :=
  { h with toTracking := h.toTracking.passed hm n }

theorem Selecting.chosen (h : Selecting order s) (hc : Chosen s iter fUsingModified mi) :
    Selecting order { s with mi := mi } :=
  { h with toTracking := h.toTracking.chosen hc }

/-- Transactions that the block has room for. -/
structure Joins (a : BlockAssembler) (s : AssemblerState) (added : Finset Txid) : Prop
    extends IsPackage a s.inBlock added where
  final : ∀ x ∈ added, isFinalTx (a.m_mempool.entry x).tx a.nHeight a.nLockTimeCutoff = true
  weight_lt : s.nBlockWeight + ∑ x ∈ added, (a.m_mempool.entry x).nTxWeight < a.nBlockMaxWeight
  sigOps_lt : s.nBlockSigOpsCost + ∑ x ∈ added, (a.m_mempool.entry x).sigOpCost < maxBlockSigopsCost

theorem testPackage_iff {packageSize packageSigOpsCost : ℤ} :
    testPackage a s packageSize packageSigOpsCost ↔
      s.nBlockWeight + witnessScaleFactor * packageSize < a.nBlockMaxWeight ∧
        s.nBlockSigOpsCost + packageSigOpsCost < maxBlockSigopsCost := by
  unfold testPackage
  split
  · simp; omega
  · split <;> simp <;> omega

section Accounted
variable (hacc : a.m_mempool.Accounted)
  (hweight : ∀ x ∈ a.m_mempool.mapTx,
    (a.m_mempool.entry x).nTxWeight ≤ witnessScaleFactor * (a.m_mempool.entry x).nTxSize)
include hacc

theorem Selecting.dropped (h : Selecting order s) {n : ℕ} (ht : Tracking order { s with
      mapModifiedTx := s.mapModifiedTx.erase iter
      failedTx := insert iter s.failedTx
      nConsecutiveFailed := n }) :
    Selecting order { s with
      mapModifiedTx := s.mapModifiedTx.erase iter
      failedTx := insert iter s.failedTx
      nConsecutiveFailed := n } :=
  { h with
    toTracking := ht
    resources_le := fun d hd ho => by
      by_cases he : d = iter
      · subst he
        simpa only [estimate, notMem_erase, if_false] using resources_needed_le hacc hd _
      · simpa only [estimate, mem_erase, he, ne_eq, not_false_eq_true, true_and] using
          h.resources_le d hd ho }

theorem Selecting.addPackage (h : Selecting order s) {added : Finset Txid}
    (hj : Joins a s added) : Selecting order (addPackage σ a s added) where
  toTracking := h.toTracking.addPackage hacc hj.toIsPackage
  nodup := by
    rw [addPackage_vtx]
    refine List.nodup_append'.mpr ⟨h.nodup, nodup_sortForBlock added, fun x hx ha => ?_⟩
    rw [mem_sortForBlock] at ha
    exact disjoint_left.mp hj.disjoint ha ((h.mem_inBlock x).mpr hx)
  mem_inBlock x := by
    rw [addPackage_inBlock, addPackage_vtx, List.mem_append, mem_sortForBlock, mem_union,
      h.mem_inBlock]
  pairwise := by
    rw [addPackage_vtx]
    refine List.pairwise_append.mpr ⟨h.pairwise, pairwise_sortForBlock hacc added, ?_⟩
    intro x hx y hy hp
    rw [mem_sortForBlock] at hy
    have han : y ∈ a.m_mempool.ancestors x := mem_ancestors_iff.mpr ⟨hp.1, .single hp⟩
    exact disjoint_left.mp hj.disjoint hy (h.closed x ((h.mem_inBlock x).mpr hx) han)
  final x hx := by
    rw [addPackage_inBlock] at hx
    exact (mem_union.mp hx).elim (h.final x) (hj.final x)
  weight_eq := by
    rw [addPackage_inBlock, addPackage_nBlockWeight, sum_union hj.disjoint.symm,
      h.weight_eq, add_assoc]
  sigOps_eq := by
    rw [addPackage_inBlock, addPackage_nBlockSigOpsCost, sum_union hj.disjoint.symm,
      h.sigOps_eq, add_assoc]
  nFees_eq := by
    rw [addPackage_inBlock, addPackage_nFees, sum_union hj.disjoint.symm, h.nFees_eq]
  weight_lt := by
    rw [addPackage_nBlockWeight]
    exact .inr hj.weight_lt
  sigOps_lt := by
    rw [addPackage_nBlockSigOpsCost]
    exact hj.sigOps_lt
  resources_le d hd ho := by
    rw [addPackage_inBlock] at ho ⊢
    rw [notMem_union] at ho
    have hk := map_estimate_addPackage (σ := σ) hacc hj.subset_mapTx resources
      (fun _ _ _ => resources_inclusionShare _) hj.disjoint ho.2
    rw [← sub_nonneg, hk, sub_nonneg]
    exact h.resources_le d hd ho.1

theorem selecting_startLoop : Selecting order (startLoop σ order) := by
  have ht : Tracking order (startLoop σ order) := tracking_startLoop
  rw [startLoop_eq] at ht ⊢
  constructor <;> simp [resetBlock, maxBlockSigopsCost]
  · exact ht
  intro d hd
  simpa [estimate] using resources_needed_le hacc hd ∅

include hweight

theorem Selecting.joins (h : Selecting order s) (hc : Chosen s iter fUsingModified mi)
    (ht : testPackage a s (estimate a s iter).1 (estimate a s iter).2.2)
    (htx : testPackageTransactions σ a (package σ a s iter)) :
    Joins a { s with mi := mi } (package σ a s iter) := by
  obtain ⟨hi, hnw⟩ := h.chosen_mem hc
  have hn := h.resources_le iter hi hnw
  have hp := package_eq (σ := σ) hacc hi hnw
  have his : IsPackage a s.inBlock (package σ a s iter) := h.toTracking.isPackage hacc hc
  generalize package σ a s iter = added at *
  have hs : (∑ x ∈ added, ((a.m_mempool.entry x).nTxSize : ℤ)) ≤ (estimate a s iter).1 ∧
      (∑ x ∈ added, ((a.m_mempool.entry x).sigOpCost : ℤ)) ≤ (estimate a s iter).2.2 := by
    rw [needed_eq, ← hp] at hn
    exact hn
  have hw := sum_le_sum fun x hx => hweight x (his.subset_mapTx hx)
  rw [← mul_sum] at hw
  rw [testPackage_iff] at ht
  refine ⟨his, ?_, ?_, ?_⟩
  · intro x hx
    have := List.all_eq_true.mp htx x (σ.mem_elems.mpr hx)
    rw [testTransaction, Bool.and_eq_true] at this
    exact this.1
  · have := hs.1
    have := ht.1
    unfold witnessScaleFactor at *
    zify at *
    omega
  · have := hs.2
    have := ht.2
    zify at *
    omega

theorem Selecting.turned (h : Selecting order s) (ht : Turned σ a s s') : Selecting order s' := by
  have htr := h.toTracking.turned hacc ht
  cases ht with
  | passed n hm => exact h.passed hm n
  | dropped n _ => exact h.dropped hacc htr
  | added hc _ hte htx =>
    exact (h.chosen hc).addPackage hacc (h.joins hacc hweight hc hte htx)

theorem Assembling.selecting (h : Assembling σ order s) : Selecting order s := by
  induction h with
  | start => exact selecting_startLoop hacc
  | next _ ht ih => exact ih.turned hacc hweight (turn_next ht)

/-- The loop ends, and what it has added may be a block. -/
theorem addPackageTxs_validSelection (order : PackageOrder a.m_mempool) : ∃ s, ValidSelection a s ∧
    ∀ fuel, (a.m_mempool.mapTx.card + 1) * (2 * a.m_mempool.mapTx.card + 1) ≤ fuel →
      addPackageTxs σ order fuel = some s := by
  have hs : Assembling σ order (startLoop σ order) := .start
  obtain ⟨t, s, hr, hd, he⟩ := hs.loop_ends hacc
  have hv : ValidSelection a t := (hr.selecting hacc hweight).validSelection hacc
  exact ⟨s, (turn_done hd).validSelection hv,
    fun fuel hf => he fuel (turnsLeft_startLoop.trans_le hf)⟩

end Accounted

def sampleAssembler : BlockAssembler where
  m_mempool := parentAndChild
  optionMaxWeight := 3996000
  blockMinFeeRate := ⟨1000⟩
  fIncludeWitness := true
  nHeight := 1
  nLockTimeCutoff := 0

def sampleOrder : PackageOrder sampleAssembler.m_mempool := ancestorScore txidOrder parentAndChild

theorem addPackageTxs_validSelection_sample : ∃ s, ValidSelection sampleAssembler s ∧
    addPackageTxs txidOrder sampleOrder 15 = some s := by
  have hacc : parentAndChild.Accounted :=
    (reachable_parentAndChild fun _ _ _ => trivial).accounted
  have hm : parentAndChild.mapTx = {1, 2} := by decide +kernel
  have hweight : ∀ x ∈ parentAndChild.mapTx, (parentAndChild.entry x).nTxWeight ≤
      witnessScaleFactor * (parentAndChild.entry x).nTxSize := by
    rw [hm]
    intro x hx
    rcases mem_insert.mp hx with rfl | hx
    · decide +kernel
    · rw [mem_singleton.mp hx]
      decide +kernel
  obtain ⟨s, hv, he⟩ := addPackageTxs_validSelection (a := sampleAssembler)
    (σ := txidOrder) hacc hweight sampleOrder
  refine ⟨s, hv, he 15 ?_⟩
  change (parentAndChild.mapTx.card + 1) * (2 * parentAndChild.mapTx.card + 1) ≤ 15
  rw [hm]
  decide

end BlockAssembler

end Palladium
