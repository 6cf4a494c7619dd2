import Palladium.Mining.BlockAssembler

/-! # The orders of the indexes

The comparisons by which `mapTx` sorts its entries, with exact products.
-/

namespace Palladium
namespace CTxMemPoolEntry
variable (e : CTxMemPoolEntry)

def descendantModFeeAndSize : ℤ × ℤ :=
  if e.nModFeesWithDescendants * e.nTxSize > e.modifiedFee * e.nSizeWithDescendants then
    (e.nModFeesWithDescendants, e.nSizeWithDescendants)
  else (e.modifiedFee, e.nTxSize)

variable (a b : CTxMemPoolEntry)

def compareByDescendantScore : Bool :=
  let (aModFee, aSize) := a.descendantModFeeAndSize
  let (bModFee, bSize) := b.descendantModFeeAndSize
  if aModFee * bSize = aSize * bModFee then a.nTime ≥ b.nTime else aModFee * bSize < aSize * bModFee

def ancestorModFeeAndSize : ℤ × ℤ :=
  BlockAssembler.modFeeAndSize e e.packageState

def compareByAncestorFee : Bool :=
  let (aModFee, aSize) := a.ancestorModFeeAndSize
  let (bModFee, bSize) := b.ancestorModFeeAndSize
  if aModFee * bSize = aSize * bModFee then a.tx.hash.memoryKey < b.tx.hash.memoryKey
  else aModFee * bSize > aSize * bModFee

structure Sized (e : CTxMemPoolEntry) : Prop where
  nTxSize : 0 < e.nTxSize
  nSizeWithDescendants : 0 < e.nSizeWithDescendants
  nSizeWithAncestors : 0 < e.nSizeWithAncestors

def descendantKey : ℚ ×ₗ ℤᵒᵈ :=
  toLex (e.descendantModFeeAndSize.1 / e.descendantModFeeAndSize.2, .toDual e.nTime)

def ancestorKey : ℚᵒᵈ ×ₗ ℕ :=
  toLex (.toDual (e.ancestorModFeeAndSize.1 / e.ancestorModFeeAndSize.2), e.tx.hash.memoryKey)

variable {a b : CTxMemPoolEntry}

theorem Sized.descendantModFeeAndSize_pos (h : a.Sized) : 0 < a.descendantModFeeAndSize.2 := by
  unfold descendantModFeeAndSize
  split
  · exact h.nSizeWithDescendants
  · exact Int.natCast_pos.mpr h.nTxSize

theorem Sized.ancestorModFeeAndSize_pos (h : a.Sized) : 0 < a.ancestorModFeeAndSize.2 := by
  unfold ancestorModFeeAndSize BlockAssembler.modFeeAndSize
  split
  · exact h.nSizeWithAncestors
  · exact Int.natCast_pos.mpr h.nTxSize

theorem feeRate_lt_iff {f g s t : ℤ} (hs : 0 < s) (ht : 0 < t) :
    (f / s : ℚ) < g / t ↔ f * t < s * g := by
  rw [div_lt_div_iff₀ (Int.cast_pos.mpr hs) (Int.cast_pos.mpr ht), mul_comm (g : ℚ)]
  norm_cast

theorem feeRate_eq_iff {f g s t : ℤ} (hs : 0 < s) (ht : 0 < t) :
    (f / s : ℚ) = g / t ↔ f * t = s * g := by
  rw [div_eq_div_iff (Int.cast_pos.mpr hs).ne' (Int.cast_pos.mpr ht).ne', mul_comm (g : ℚ)]
  norm_cast

theorem compareByDescendantScore_iff (ha : a.Sized) (hb : b.Sized) :
    a.compareByDescendantScore b ↔ a.descendantKey ≤ b.descendantKey := by
  have hap := ha.descendantModFeeAndSize_pos
  have hbp := hb.descendantModFeeAndSize_pos
  rw [descendantKey, descendantKey, Prod.Lex.toLex_le_toLex]
  simp only [feeRate_lt_iff hap hbp, feeRate_eq_iff hap hbp, OrderDual.toDual_le_toDual,
    compareByDescendantScore]
  split
  · rename_i heq
    simp [heq]
  · rename_i hne
    simp [hne]

theorem compareByAncestorFee_iff (ha : a.Sized) (hb : b.Sized) :
    a.compareByAncestorFee b ↔ a.ancestorKey < b.ancestorKey := by
  have hap := ha.ancestorModFeeAndSize_pos
  have hbp := hb.ancestorModFeeAndSize_pos
  rw [ancestorKey, ancestorKey, Prod.Lex.toLex_lt_toLex]
  simp only [feeRate_lt_iff hbp hap, feeRate_eq_iff hap hbp, OrderDual.toDual_lt_toDual,
    OrderDual.toDual_inj, compareByAncestorFee, mul_comm b.ancestorModFeeAndSize.1,
    mul_comm b.ancestorModFeeAndSize.2]
  split
  · rename_i heq
    simp [heq]
  · rename_i hne
    simp [hne]

/-- The comparison by ancestor fee is a strict weak order. The one by descendant score is transitive
and total, but holds in both directions for entries with the same fee rate and time. -/
theorem strictWeakOrder_compare (S : Set CTxMemPoolEntry) (hS : ∀ e ∈ S, e.Sized) :
    IsStrictWeakOrder S (fun a b => a.1.compareByAncestorFee b) ∧
      IsTrans S (fun a b => a.1.compareByDescendantScore b) ∧
      Std.Total (fun a b : S => a.1.compareByDescendantScore b = true) ∧
      (∀ a b : S, a.1.compareByDescendantScore b ∧ b.1.compareByDescendantScore a ↔
        a.1.descendantKey = b.1.descendantKey) ∧
      (IsStrictWeakOrder S (fun a b => a.1.compareByDescendantScore b) ↔ S = ∅) := by
  have ha : ∀ a b : S, a.1.compareByAncestorFee b ↔ a.1.ancestorKey < b.1.ancestorKey :=
    fun a b => compareByAncestorFee_iff (hS a a.2) (hS b b.2)
  have hd : ∀ a b : S, a.1.compareByDescendantScore b ↔ a.1.descendantKey ≤ b.1.descendantKey :=
    fun a b => compareByDescendantScore_iff (hS a a.2) (hS b b.2)
  refine ⟨{ irrefl := fun a => ?_, trans := fun a b c => ?_, incomp_trans := fun a b c => ?_ },
    ⟨fun a b c => ?_⟩, ⟨fun a b => ?_⟩, fun a b => ?_, fun h => ?_, ?_⟩
  · rw [ha]
    exact lt_irrefl _
  · rw [ha, ha, ha]
    exact lt_trans
  · simp only [ha, not_lt]
    rintro ⟨hb, hab⟩ ⟨hc, hbc⟩
    exact ⟨hc.trans hb, hab.trans hbc⟩
  · rw [hd, hd, hd]
    exact le_trans
  · rw [hd, hd]
    exact le_total _ _
  · rw [hd, hd]
    exact le_antisymm_iff.symm
  · rw [Set.eq_empty_iff_forall_notMem]
    exact fun e he => h.irrefl ⟨e, he⟩ ((hd _ _).mpr le_rfl)
  · rintro rfl
    exact { irrefl := fun a => a.2.elim, trans := fun a => a.2.elim,
            incomp_trans := fun a => a.2.elim }

theorem strictWeakOrder_compare_sampleEntry : ¬ IsStrictWeakOrder
    ({CTxMemPool.sampleEntry 1 []} : Set CTxMemPoolEntry)
    (fun a b => a.1.compareByDescendantScore b) := by
  obtain ⟨-, -, -, -, hi⟩ := strictWeakOrder_compare {CTxMemPool.sampleEntry 1 []}
    (by rintro e rfl; exact ⟨by decide +kernel, by decide +kernel, by decide +kernel⟩)
  exact fun h => Set.singleton_ne_empty _ (hi.mp h)

/-- Two transactions that pay the same fee and entered at the same time come before each other. -/
theorem compareByDescendantScore_both :
    (CTxMemPool.sampleEntry 1 []).Sized ∧ (CTxMemPool.sampleEntry 2 []).Sized ∧
      (CTxMemPool.sampleEntry 1 []).compareByDescendantScore (CTxMemPool.sampleEntry 1 []) ∧
      (CTxMemPool.sampleEntry 1 []).compareByDescendantScore (CTxMemPool.sampleEntry 2 []) ∧
      (CTxMemPool.sampleEntry 2 []).compareByDescendantScore (CTxMemPool.sampleEntry 1 []) := by
  refine ⟨⟨?_, ?_, ?_⟩, ⟨?_, ?_, ?_⟩, ?_⟩
  all_goals decide +kernel

end CTxMemPoolEntry

end Palladium
