import Palladium.Mempool.Runs

/-! # Trimming the pool

`TrimToSize` with the outputs it reports in `pvNoSpendsRemaining`.
-/

namespace Palladium
open List
namespace CTxMemPool

/-- What is appended to `pvNoSpendsRemaining` for the transactions `txn`, which were removed. -/
def noSpendsRemaining (pool : CTxMemPool) (txn : List CTransaction) : List COutPoint :=
  txn.flatMap fun tx => tx.prevouts.filter fun prevout => prevout.hash ∉ pool.mapTx

/-- The loop of `TrimToSize` with `pvNoSpendsRemaining`; `none` if it takes more turns. -/
def trimToSizeReporting (σ : SetOrder Txid) (dynamicMemoryUsage : CTxMemPool → ℕ)
    (worst : CTxMemPool → Txid) (sizelimit : ℕ) :
    (fuel : ℕ) → CTxMemPool → List COutPoint → Option (CTxMemPool × List COutPoint)
  | 0, _, _ => none
  | fuel + 1, pool, pvNoSpendsRemaining =>
    if pool.mapTx.Nonempty ∧ dynamicMemoryUsage pool > sizelimit then
      let stage := calculateDescendants σ pool (worst pool) ∅
      let txn := (σ.elems stage).map fun iter => (pool.entry iter).tx
      let pool := removeStaged σ pool stage false
      trimToSizeReporting σ dynamicMemoryUsage worst sizelimit fuel pool
        (pvNoSpendsRemaining ++ pool.noSpendsRemaining txn)
    else some (pool, pvNoSpendsRemaining)

/-- What trimming has made of a pool and reported. -/
structure Trimmed (pool pool' : CTxMemPool) (pvNoSpendsRemaining : List COutPoint) : Prop extends
    Shrinks pool pool' where
  accounted : pool'.Accounted
  /-- With a transaction its descendants are removed. -/
  closed : ∀ p c, pool.IsParent p c → p ∉ pool'.mapTx → c ∉ pool'.mapTx
  spent : ∀ o ∈ pvNoSpendsRemaining,
    ∃ h ∈ pool.mapTx, h ∉ pool'.mapTx ∧ o ∈ (pool.entry h).tx.prevouts
  creator : ∀ o ∈ pvNoSpendsRemaining, o.hash ∉ pool'.mapTx
  unspent : ∀ o ∈ pvNoSpendsRemaining, ∀ h ∈ pool'.mapTx, o ∉ (pool'.entry h).tx.prevouts

variable {σ : SetOrder Txid} {dynamicMemoryUsage : CTxMemPool → ℕ} {worst : CTxMemPool → Txid}
  {sizelimit fuel : ℕ} {pool pool' : CTxMemPool} {pv : List COutPoint}

theorem Accounted.trimmed_refl (h : pool.Accounted) : Trimmed pool pool [] where
  toShrinks := .refl
  accounted := h
  closed _ _ hpc hp := absurd hpc.1 hp
  spent _ ho := absurd ho not_mem_nil
  creator _ ho := absurd ho not_mem_nil
  unspent _ ho := absurd ho not_mem_nil

theorem mem_noSpendsRemaining {stage : Finset Txid} {o : COutPoint} :
    o ∈ noSpendsRemaining pool' ((σ.elems stage).map fun iter => (pool.entry iter).tx) ↔
      (∃ r ∈ stage, o ∈ (pool.entry r).tx.prevouts) ∧ o.hash ∉ pool'.mapTx := by
  simp only [noSpendsRemaining, mem_flatMap, mem_map, mem_filter, σ.mem_elems, decide_eq_true_eq]
  constructor
  · rintro ⟨_, ⟨r, hr, rfl⟩, ho, hh⟩
    exact ⟨⟨r, hr, ho⟩, hh⟩
  · rintro ⟨⟨r, hr, ho⟩, hh⟩
    exact ⟨_, ⟨r, hr, rfl⟩, ho, hh⟩

theorem Trimmed.step (h : Trimmed pool pool' pv) {it : Txid} (hi : it ∈ pool'.mapTx)
    {stage : Finset Txid} (hst : stage = calculateDescendants σ pool' it ∅) :
    Trimmed pool (removeStaged σ pool' stage false) (pv ++ noSpendsRemaining
      (removeStaged σ pool' stage false)
      ((σ.elems stage).map fun iter => (pool'.entry iter).tx)) := by
  have hsu : stage ⊆ pool'.mapTx := hst ▸ h.accounted.descendants_subset hi
  have hsh : Shrinks pool' (removeStaged σ pool' stage false) := shrinks_removeStaged
  have hm : ∀ {x}, x ∈ (removeStaged σ pool' stage false).mapTx ↔ x ∈ pool'.mapTx ∧ x ∉ stage := by
    rw [removeStaged_mapTx]
    exact Finset.mem_sdiff
  refine ⟨h.toShrinks.trans hsh, hst ▸ h.accounted.removeDescendantsOf hi, ?_, ?_, ?_, ?_⟩
  · intro p c hpc hp hc
    obtain ⟨hc', hcn⟩ := hm.mp hc
    by_cases hp' : p ∈ pool'.mapTx
    · have hch : pool'.IsParent p c := ⟨hp', hc', h.tx_eq c ▸ hpc.2.2⟩
      have hps : p ∈ stage := by_contra fun hn => hp (hm.mpr ⟨hp', hn⟩)
      rw [hst, h.accounted.links.mem_descendants hi] at hps hcn
      exact hcn (hps.tail hch)
    · exact h.closed p c hpc hp' hc'
  · intro o ho
    rcases mem_append.mp ho with ho | ho
    · obtain ⟨r, hr, hn, hs⟩ := h.spent o ho
      exact ⟨r, hr, fun hr' => hn (hm.mp hr').1, hs⟩
    · obtain ⟨⟨r, hr, hs⟩, -⟩ := mem_noSpendsRemaining.mp ho
      exact ⟨r, h.mapTx_subset (hsu hr), fun hr' => (hm.mp hr').2 hr, h.tx_eq r ▸ hs⟩
  · intro o ho
    rcases mem_append.mp ho with ho | ho
    · exact fun hh => h.creator o ho (hm.mp hh).1
    · exact (mem_noSpendsRemaining.mp ho).2
  · intro o ho x hx hs
    obtain ⟨hx, hn⟩ := hm.mp hx
    rw [hsh.tx_eq] at hs
    rcases mem_append.mp ho with ho | ho
    · exact h.unspent o ho x hx hs
    · -- an output has only one spender
      obtain ⟨⟨r, hr, hr'⟩, -⟩ := mem_noSpendsRemaining.mp ho
      have hsp := (h.accounted.mapNextTx_iff o r).mpr ⟨hsu hr, hr'⟩
      rw [(h.accounted.mapNextTx_iff o x).mpr ⟨hx, hs⟩] at hsp
      exact hn (Option.some.inj hsp ▸ hr)

/-- `TrimToSize` ends, within the limit or with an empty pool, whichever entry comes first. -/
theorem trimToSizeReporting_ends (h : pool.Accounted)
    (hworst : ∀ pool : CTxMemPool, pool.mapTx.Nonempty → worst pool ∈ pool.mapTx)
    (sizelimit : ℕ) (hfuel : pool.mapTx.card < fuel) :
    ∃ pool' pv, trimToSizeReporting σ dynamicMemoryUsage worst sizelimit fuel pool [] =
        some (pool', pv) ∧
      pool' = trimToSize σ dynamicMemoryUsage worst sizelimit fuel pool ∧
      (dynamicMemoryUsage pool' ≤ sizelimit ∨ pool'.mapTx = ∅) ∧ Trimmed pool pool' pv := by
  -- the turns left are enough for the transactions left
  suffices hr : ∀ cur pv, Trimmed pool cur pv → cur.mapTx.card < fuel →
      ∃ pool' pv', trimToSizeReporting σ dynamicMemoryUsage worst sizelimit fuel cur pv =
          some (pool', pv') ∧
        pool' = trimToSize σ dynamicMemoryUsage worst sizelimit fuel cur ∧
        (dynamicMemoryUsage pool' ≤ sizelimit ∨ pool'.mapTx = ∅) ∧ Trimmed pool pool' pv' from
    hr pool [] h.trimmed_refl hfuel
  clear hfuel
  induction fuel with
  | zero => exact fun _ _ _ hlt => absurd hlt (Nat.not_lt_zero _)
  | succ fuel ih =>
    intro cur pv ht hlt
    unfold trimToSizeReporting trimToSize
    by_cases hl : cur.mapTx.Nonempty ∧ dynamicMemoryUsage cur > sizelimit
    · rw [if_pos hl, if_pos hl]
      have hi := hworst cur hl.1
      refine ih _ _ (ht.step hi rfl) ?_
      have hs : worst cur ∈ calculateDescendants σ cur (worst cur) ∅ :=
        (ht.accounted.links.mem_descendants hi).mpr .refl
      have hss : (removeStaged σ cur (calculateDescendants σ cur (worst cur) ∅) false).mapTx ⊂
          cur.mapTx := by
        rw [removeStaged_mapTx]
        exact Finset.sdiff_ssubset (ht.accounted.descendants_subset hi) ⟨_, hs⟩
      have hc := Finset.card_lt_card hss
      omega
    · rw [if_neg hl, if_neg hl]
      refine ⟨cur, pv, rfl, rfl, ?_, ht⟩
      rcases cur.mapTx.eq_empty_or_nonempty with he | hn
      · exact .inr he
      · exact .inl (Nat.le_of_not_lt fun hlt => hl ⟨hn, hlt⟩)

theorem trimToSizeReporting_ends_parentAndChild : parentAndChild.Accounted ∧ ∃ pool' pv,
    trimToSizeReporting txidOrder (·.mapTx.card) (fun pool => (txidOrder.first pool.mapTx).getD 0) 0 3
        parentAndChild [] = some (pool', pv) ∧
      pool' = trimToSize txidOrder (·.mapTx.card) (fun pool => (txidOrder.first pool.mapTx).getD 0) 0
        3 parentAndChild ∧
      (pool'.mapTx.card ≤ 0 ∨ pool'.mapTx = ∅) ∧ Trimmed parentAndChild pool' pv := by
  have hw : ∀ pool : CTxMemPool, pool.mapTx.Nonempty →
      (txidOrder.first pool.mapTx).getD 0 ∈ pool.mapTx := by
    intro pool hn
    cases hf : txidOrder.first pool.mapTx with
    | none => exact absurd (SetOrder.first_eq_none hf) hn.ne_empty
    | some h => exact SetOrder.mem_of_first hf
  have ha : parentAndChild.Accounted :=
    (accounted_empty.addUnchecked addable_parent).addUnchecked addable_child
  exact ⟨ha, trimToSizeReporting_ends ha hw 0 (by decide +kernel)⟩

end CTxMemPool

end Palladium
