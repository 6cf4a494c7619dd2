import Palladium.Mining.Packages

/-! # Turns of the selection

A turn of `addPackageTxs` passes an entry of the pool, drops one of `mapModifiedTx`, or adds a
package.
-/

namespace Palladium
open Bool CTxMemPool Finset List Relation

theorem PackageOrder.length_mapTx {pool : CTxMemPool} (order : PackageOrder pool) :
    order.mapTx.length = pool.mapTx.card := by
  have hs : order.mapTx.toFinset = pool.mapTx :=
    Finset.ext fun h => mem_toFinset.trans order.mem_mapTx
  rw [← hs, toFinset_card_of_nodup order.nodup]

namespace BlockAssembler
variable {σ : SetOrder Txid} {a : BlockAssembler} {order : PackageOrder a.m_mempool}
  {s s' : AssemblerState} {iter d : Txid} {fUsingModified : Bool} {mi : List Txid}

/-- Where a chosen entry comes from. -/
inductive Chosen (s : AssemblerState) (iter : Txid) : Bool → List Txid → Prop
  | modified : iter ∈ s.mapModifiedTx → Chosen s iter true s.mi
  | mapTx {mi : List Txid} : s.mi = iter :: mi → skipMapTxEntry s iter = false →
      Chosen s iter false mi

theorem choose_entry (h : choose order s = .entry iter fUsingModified mi) :
    Chosen s iter fUsingModified mi := by
  unfold choose at h
  split at h
  · cases h
  · next modit hm hb =>
    cases h
    rw [← hm]
    exact .modified (order.best_mem hb)
  · next next mi hm =>
    split at h
    · cases h
    · next hs =>
      split at h
      · cases h
        exact .mapTx hm (eq_false_iff.mpr hs)
      · next modit hb =>
        split at h
        · cases h
          rw [← hm]
          exact .modified (order.best_mem hb)
        · cases h
          exact .mapTx hm (eq_false_iff.mpr hs)

theorem choose_skip (h : choose order s = .skip mi) : ∃ next, s.mi = next :: mi := by
  unfold choose at h
  split at h
  · cases h
  · cases h
  · next next mi hm =>
    split at h
    · cases h
      exact ⟨next, hm⟩
    · split at h
      · cases h
      · split at h <;> cases h

theorem Chosen.packageState_eq (h : Chosen s iter fUsingModified mi) :
    packageState a s iter fUsingModified = estimate a s iter := by
  cases h with
  | modified hm => exact (if_pos hm).symm
  | mapTx _ hs =>
    simp only [skipMapTxEntry, or_eq_false_iff, decide_eq_false_iff_not] at hs
    exact (if_neg hs.1.1).symm

/-- What a turn that does not end the loop does. -/
inductive Turned (σ : SetOrder Txid) (a : BlockAssembler) (s : AssemblerState) : AssemblerState → Prop
  /-- The next entry of the pool is passed over. -/
  | passed {next : Txid} {mi : List Txid} (nConsecutiveFailed : ℕ) : s.mi = next :: mi →
      Turned σ a s { s with mi := mi, nConsecutiveFailed := nConsecutiveFailed }
  /-- An entry of `mapModifiedTx` is dropped. -/
  | dropped {iter : Txid} (nConsecutiveFailed : ℕ) : iter ∈ s.mapModifiedTx →
      Turned σ a s { s with
        mapModifiedTx := s.mapModifiedTx.erase iter
        failedTx := insert iter s.failedTx
        nConsecutiveFailed := nConsecutiveFailed }
  | added {iter : Txid} {fUsingModified : Bool} {mi : List Txid} :
      Chosen s iter fUsingModified mi →
      a.blockMinFeeRate.getFee (estimate a s iter).1 ≤ (estimate a s iter).2.1 →
      testPackage a s (estimate a s iter).1 (estimate a s iter).2.2 = true →
      testPackageTransactions σ a (package σ a s iter) = true →
      Turned σ a s (addPackage σ a { s with mi := mi } (package σ a s iter))

structure SameBlock (s s' : AssemblerState) : Prop where
  vtx : s'.vtx = s.vtx
  inBlock : s'.inBlock = s.inBlock
  nFees : s'.nFees = s.nFees

theorem Chosen.turned_eraseFailed (h : Chosen s iter fUsingModified mi) (nConsecutiveFailed : ℕ) :
    Turned σ a s { eraseFailed { s with mi := mi } iter fUsingModified with
      nConsecutiveFailed := nConsecutiveFailed } := by
  cases h with
  | modified hm => exact .dropped nConsecutiveFailed hm
  | mapTx hmi _ => exact .passed nConsecutiveFailed hmi

theorem sameBlock_eraseFailed : SameBlock s (eraseFailed s iter fUsingModified) := by
  cases fUsingModified <;> exact ⟨rfl, rfl, rfl⟩

theorem evaluate_next (hc : Chosen s iter fUsingModified mi)
    (h : evaluate σ a { s with mi := mi } iter fUsingModified = .next s') :
    (∃ n, s' = { eraseFailed { s with mi := mi } iter fUsingModified with nConsecutiveFailed := n }) ∨
    a.blockMinFeeRate.getFee (estimate a s iter).1 ≤ (estimate a s iter).2.1 ∧
      testPackage a s (estimate a s iter).1 (estimate a s iter).2.2 ∧
      testPackageTransactions σ a (package σ a s iter) ∧
      s' = addPackage σ a { s with mi := mi } (package σ a s iter) := by
  have hs : packageState a { s with mi := mi } iter fUsingModified = estimate a s iter :=
    hc.packageState_eq
  rw [evaluate, hs] at h
  dsimp only at h
  split at h
  · cases h
  · next hf =>
    split at h
    · split at h
      · cases h
      · cases h
        exact .inl ⟨_, rfl⟩
    · next ht =>
      split at h
      · cases h
        exact .inl ⟨_, rfl⟩
      · next htx =>
        cases h
        rw [not_eq_true', not_eq_false] at ht htx
        exact .inr ⟨not_lt.mp hf, ht, htx, rfl⟩

theorem evaluate_done (h : evaluate σ a s iter fUsingModified = .done s') : SameBlock s s' := by
  unfold evaluate at h
  dsimp only at h
  split at h
  · cases h
    exact ⟨rfl, rfl, rfl⟩
  · split at h
    · split at h
      · cases h
        exact { sameBlock_eraseFailed with }
      · cases h
    · split at h <;> cases h

theorem turn_next (h : turn σ order s = .next s') : Turned σ a s s' := by
  unfold turn at h
  split at h
  · cases h
  · next mi hs =>
    cases h
    obtain ⟨_, hm⟩ := choose_skip hs
    exact .passed s.nConsecutiveFailed hm
  · next he =>
    have hc := choose_entry he
    obtain ⟨n, rfl⟩ | ⟨hf, ht, htx, rfl⟩ := evaluate_next hc h
    · exact hc.turned_eraseFailed n
    · exact .added hc hf ht htx

theorem turn_done (h : turn σ order s = .done s') : SameBlock s s' := by
  unfold turn at h
  split at h
  · cases h
    exact ⟨rfl, rfl, rfl⟩
  · cases h
  · exact { evaluate_done h with }

/-- What every turn keeps, whatever the totals are. -/
structure Tracking (order : PackageOrder a.m_mempool) (s : AssemblerState) : Prop where
  subset_mapTx : s.inBlock ⊆ a.m_mempool.mapTx
  closed : ∀ h ∈ s.inBlock, a.m_mempool.ancestors h ⊆ s.inBlock
  modified_subset : s.mapModifiedTx ⊆ a.m_mempool.mapTx \ s.inBlock
  mi_suffix : s.mi <:+ order.mapTx

/-- Transactions that complete each other's ancestors. -/
structure IsPackage (a : BlockAssembler) (inBlock added : Finset Txid) : Prop where
  subset_mapTx : added ⊆ a.m_mempool.mapTx
  disjoint : Disjoint added inBlock
  closed : ∀ x ∈ added, a.m_mempool.ancestors x ⊆ inBlock ∪ added

theorem Tracking.chosen_mem (h : Tracking order s) (hc : Chosen s iter fUsingModified mi) :
    iter ∈ a.m_mempool.mapTx ∧ iter ∉ s.inBlock := by
  cases hc with
  | modified hm => exact mem_sdiff.mp (h.modified_subset hm)
  | mapTx hmi hs =>
    simp only [skipMapTxEntry, or_eq_false_iff, decide_eq_false_iff_not] at hs
    exact ⟨order.mem_mapTx.mp (h.mi_suffix.subset (hmi ▸ mem_cons_self)), hs.1.2⟩

theorem package_eq (hacc : a.m_mempool.Accounted) (hi : iter ∈ a.m_mempool.mapTx)
    (hn : iter ∉ s.inBlock) : package σ a s iter = a.m_mempool.ancestors iter \ s.inBlock := by
  ext x
  rw [package, mem_insert, mem_sdiff, mem_sdiff, hacc.links.mem_ancestors,
    mem_ancestors_iff, reflTransGen_iff_eq_or_transGen]
  constructor
  · rintro (rfl | ⟨ht, ho⟩)
    · exact ⟨⟨hi, .inl rfl⟩, hn⟩
    · obtain ⟨_, hp, -⟩ := TransGen.head'_iff.mp ht
      exact ⟨⟨hp.1, .inr ht⟩, ho⟩
  · rintro ⟨⟨_, rfl | ht⟩, ho⟩
    · exact .inl rfl
    · exact .inr ⟨ht, ho⟩

theorem isPackage_ancestors (iter : Txid) (inBlock : Finset Txid) :
    IsPackage a inBlock (a.m_mempool.ancestors iter \ inBlock) where
  subset_mapTx x hx := (mem_ancestors_iff.mp (mem_sdiff.mp hx).1).1
  disjoint := sdiff_disjoint
  closed x hx y hy := by
    have hxi := (mem_ancestors_iff.mp (mem_sdiff.mp hx).1).2
    rw [union_sdiff_self_eq_union]
    exact mem_union_right _ (ancestors_subset hxi hy)

theorem Tracking.passed (h : Tracking order s) {next : Txid} (hm : s.mi = next :: mi) (n : ℕ) :
    Tracking order { s with mi := mi, nConsecutiveFailed := n } :=
  { h with mi_suffix := (hm ▸ suffix_cons next mi).trans h.mi_suffix }

theorem Tracking.chosen (h : Tracking order s) (hc : Chosen s iter fUsingModified mi) :
    Tracking order { s with mi := mi } := by
  cases hc with
  | modified _ => exact h
  | mapTx hm _ => exact h.passed hm s.nConsecutiveFailed

variable (hacc : a.m_mempool.Accounted)
include hacc

theorem Tracking.isPackage (h : Tracking order s) (hc : Chosen s iter fUsingModified mi) :
    IsPackage a s.inBlock (package σ a s iter) := by
  obtain ⟨hi, hn⟩ := h.chosen_mem hc
  rw [package_eq hacc hi hn]
  exact isPackage_ancestors iter s.inBlock

theorem Tracking.addPackage (h : Tracking order s) {added : Finset Txid}
    (hp : IsPackage a s.inBlock added) : Tracking order (addPackage σ a s added) where
  subset_mapTx := by
    rw [addPackage_inBlock]
    exact union_subset h.subset_mapTx hp.subset_mapTx
  closed x hx := by
    rw [addPackage_inBlock] at hx ⊢
    rcases mem_union.mp hx with hx | hx
    · exact (h.closed x hx).trans subset_union_left
    · exact hp.closed x hx
  modified_subset x hx := by
    rw [mem_mapModifiedTx_addPackage hacc hp.subset_mapTx] at hx
    rw [addPackage_inBlock, mem_sdiff, notMem_union]
    obtain ⟨ho, hmo | ⟨it, hi, hr⟩⟩ := hx
    · obtain ⟨hm, hb⟩ := mem_sdiff.mp (h.modified_subset hmo)
      exact ⟨hm, hb, ho⟩
    · have hm : x ∈ a.m_mempool.mapTx := by
        rcases ReflTransGen.cases_tail hr with rfl | ⟨_, _, hpt⟩
        · exact hp.subset_mapTx hi
        · exact hpt.2.1
      -- a transaction in the block would have its ancestor there too
      refine ⟨hm, fun hb => ?_, ho⟩
      have ha := mem_ancestors_iff.mpr ⟨hp.subset_mapTx hi, hr⟩
      exact disjoint_left.mp hp.disjoint hi (h.closed x hb ha)
  mi_suffix := by
    rw [addPackage_mi]
    exact h.mi_suffix

theorem Tracking.turned (h : Tracking order s) (ht : Turned σ a s s') : Tracking order s' := by
  cases ht with
  | passed n hm => exact h.passed hm n
  | dropped n _ =>
    exact { h with modified_subset := (erase_subset _ _).trans h.modified_subset }
  | added hc _ _ _ =>
    have hp := h.isPackage (σ := σ) hacc hc
    exact (h.chosen hc).addPackage hacc hp

/-- The states in which a turn starts. -/
inductive Assembling (σ : SetOrder Txid) (order : PackageOrder a.m_mempool) : AssemblerState → Prop
  | start : Assembling σ order (startLoop σ order)
  | next {s s' : AssemblerState} : Assembling σ order s → turn σ order s = .next s' →
      Assembling σ order s'

omit hacc in
theorem startLoop_eq : startLoop σ order = { resetBlock with mi := order.mapTx } := by
  have he : σ.elems (∅ : Finset Txid) = [] :=
    eq_nil_iff_forall_not_mem.mpr fun x hx => notMem_empty x (σ.mem_elems.mp hx)
  simp only [startLoop, updatePackagesForAdded, resetBlock, he, foldl_nil]

omit hacc in
theorem tracking_startLoop : Tracking order (startLoop σ order) := by
  rw [startLoop_eq]
  constructor <;> simp [resetBlock]

theorem Assembling.tracking (h : Assembling σ order s) : Tracking order s := by
  induction h with
  | start => exact tracking_startLoop
  | next _ ht ih => exact ih.turned hacc (turn_next ht)

def turnsLeft (a : BlockAssembler) (s : AssemblerState) : ℕ :=
  (a.m_mempool.mapTx.card - s.inBlock.card) * (2 * a.m_mempool.mapTx.card + 1) + s.mi.length +
    s.mapModifiedTx.card

omit hacc in
theorem turnsLeft_startLoop : turnsLeft a (startLoop σ order) <
    (a.m_mempool.mapTx.card + 1) * (2 * a.m_mempool.mapTx.card + 1) := by
  have hl := order.length_mapTx
  rw [startLoop_eq]
  simp only [turnsLeft, resetBlock, card_empty, Nat.sub_zero, add_zero, Nat.add_one_mul]
  omega

theorem Tracking.turnsLeft_lt (h : Tracking order s) (ht : Turned σ a s s') :
    turnsLeft a s' < turnsLeft a s := by
  have h' : Tracking order s' := h.turned hacc ht
  cases ht with
  | passed n hmi =>
    simp only [turnsLeft, hmi, length_cons]
    omega
  | dropped n hm =>
    have := card_erase_lt_of_mem hm
    simp only [turnsLeft]
    omega
  | @added iter _ _ hc _ _ _ =>
    obtain ⟨-, hn⟩ := h.chosen_mem hc
    have hg : s.inBlock.card < (s.inBlock ∪ package σ a s iter).card := by
      refine card_lt_card ⟨subset_union_left, fun hs => ?_⟩
      exact hn (hs (mem_union_right _ (mem_insert_self iter _)))
    have hmi := h'.mi_suffix.length_le
    have hmo := card_le_card (h'.modified_subset.trans sdiff_subset)
    have hb := card_le_card h'.subset_mapTx
    rw [order.length_mapTx] at hmi
    simp only [addPackage_inBlock] at hb
    simp only [turnsLeft, addPackage_inBlock]
    have hst : (a.m_mempool.mapTx.card - (s.inBlock ∪ package σ a s iter).card + 1) *
        (2 * a.m_mempool.mapTx.card + 1) ≤
        (a.m_mempool.mapTx.card - s.inBlock.card) * (2 * a.m_mempool.mapTx.card + 1) :=
      Nat.mul_le_mul_right _ (by omega)
    rw [Nat.add_one_mul] at hst
    omega

theorem Assembling.loop_ends (h : Assembling σ order s) :
    ∃ t s', Assembling σ order t ∧ turn σ order t = .done s' ∧
      ∀ fuel, turnsLeft a s < fuel → addPackageTxsLoop σ order fuel s = some s' := by
  induction hn : turnsLeft a s using Nat.strong_induction_on generalizing s with
  | h n ih =>
    subst hn
    cases ht : turn σ order s with
    | done s' =>
      refine ⟨s, s', h, ht, fun fuel hf => ?_⟩
      obtain ⟨fuel, rfl⟩ := Nat.exists_eq_add_one_of_ne_zero (Nat.ne_zero_of_lt hf)
      rw [addPackageTxsLoop, ht]
    | next s₁ =>
      have hl := (h.tracking hacc).turnsLeft_lt hacc (turn_next ht)
      obtain ⟨t, s', hr, hd, he⟩ := ih _ hl (h.next ht) rfl
      refine ⟨t, s', hr, hd, fun fuel hf => ?_⟩
      obtain ⟨fuel, rfl⟩ := Nat.exists_eq_add_one_of_ne_zero (Nat.ne_zero_of_lt hf)
      rw [addPackageTxsLoop, ht]
      exact he fuel (by omega)

end BlockAssembler

end Palladium
