import Palladium.Lib.SlotIndex
import Palladium.Mempool.Pool

/-! # The random-access index of the memory pool

`vTxHashes` has an element for each entry, which knows its position.
-/

namespace Palladium
open Finset List
namespace CTxMemPool
variable {getWitnessHash : CTransaction → Uint256} {pool : CTxMemPool} {it : Txid}

def witnessHash (getWitnessHash : CTransaction → Uint256) (pool : CTxMemPool) (h : Txid) : Uint256 :=
  getWitnessHash (pool.entry h).tx

/-- `vTxHashes` has exactly one element for each entry, and it stands where the entry says. -/
structure TxHashesExact (getWitnessHash : CTransaction → Uint256) (pool : CTxMemPool) : Prop where
  length_eq : pool.vTxHashes.length = pool.mapTx.card
  getElem?_eq : ∀ h ∈ pool.mapTx,
    pool.vTxHashes[pool.vTxHashesIdx h]? = some (pool.witnessHash getWitnessHash h, h)
  mem_mapTx : ∀ p ∈ pool.vTxHashes, p.2 ∈ pool.mapTx

inductive IndexCall
  | addUnchecked (entry : CTxMemPoolEntry) (setAncestors : Finset Txid)
  | removeUnchecked (it : Txid)
  | clear

namespace IndexCall

def run (getWitnessHash : CTransaction → Uint256) (pool : CTxMemPool) : IndexCall → CTxMemPool
  | addUnchecked entry setAncestors => pool.addUnchecked getWitnessHash entry setAncestors
  | removeUnchecked it => pool.removeUnchecked it
  | clear => pool.clear

def Valid (pool : CTxMemPool) : IndexCall → Prop
  | removeUnchecked it => it ∈ pool.mapTx
  | _ => True

/-- An added transaction is new, and the pool is cleared only when it is empty. -/
def KeepsIndex (pool : CTxMemPool) : IndexCall → Prop
  | addUnchecked entry _ => entry.tx.hash ∉ pool.mapTx
  | removeUnchecked _ => True
  | clear => pool.mapTx = ∅

instance (pool : CTxMemPool) : DecidablePred (Valid pool)
  | addUnchecked _ _ | clear => inferInstanceAs (Decidable True)
  | removeUnchecked it => inferInstanceAs (Decidable (it ∈ pool.mapTx))

instance (pool : CTxMemPool) : DecidablePred (KeepsIndex pool)
  | addUnchecked entry _ => inferInstanceAs (Decidable (entry.tx.hash ∉ pool.mapTx))
  | removeUnchecked _ => inferInstanceAs (Decidable True)
  | clear => inferInstanceAs (Decidable (pool.mapTx = ∅))

end IndexCall

inductive IndexReachable (getWitnessHash : CTransaction → Uint256)
    (cond : CTxMemPool → IndexCall → Prop) : CTxMemPool → Prop
  | empty : IndexReachable getWitnessHash cond .empty
  | call {pool : CTxMemPool} {c : IndexCall} : IndexReachable getWitnessHash cond pool →
      c.Valid pool → cond pool c → IndexReachable getWitnessHash cond (c.run getWitnessHash pool)

def Indexed (getWitnessHash : CTransaction → Uint256) (pool : CTxMemPool) : Prop :=
  SlotIndex pool.mapTx (pool.witnessHash getWitnessHash) pool.vTxHashes pool.vTxHashesIdx

section
variable (h : pool.Indexed getWitnessHash)
include h

theorem Indexed.txHashesExact : pool.TxHashesExact getWitnessHash where
  length_eq := h.length_eq_card
  getElem?_eq := h.getElem?_idx
  mem_mapTx p hp := by
    obtain ⟨j, hj⟩ := mem_iff_getElem?.mp hp
    exact (h.idx_eq j p hj).1

theorem Indexed.addUnchecked {entry : CTxMemPoolEntry} (hn : entry.tx.hash ∉ pool.mapTx)
    (setAncestors : Finset Txid) :
    (pool.addUnchecked getWitnessHash entry setAncestors).Indexed getWitnessHash := by
  refine (h.congr fun k hk => ?_).push hn
  have hne : k ≠ entry.tx.hash := fun he => hn (he ▸ hk)
  rw [witnessHash, witnessHash, addUnchecked_tx hn, if_neg hne]

theorem Indexed.removeUnchecked (hi : it ∈ pool.mapTx) :
    (pool.removeUnchecked it).Indexed getWitnessHash := by
  unfold Indexed CTxMemPool.removeUnchecked popTxHash
  dsimp only
  by_cases hl : pool.vTxHashes.length > 1
  · have hb : pool.vTxHashes[pool.vTxHashes.length - 1]? =
        some (pool.vTxHashes.getLastD (0, it)) := by
      have hn : pool.vTxHashes ≠ [] := ne_nil_of_length_pos (by omega)
      rw [← getLast?_eq_getElem?, getLast?_eq_some_getLast hn,
        getLastD_eq_getLast?, getLast?_eq_some_getLast hn, Option.getD_some]
    rw [if_pos hl, if_pos hl]
    exact SlotIndex.pop h hi _ hb
  · rw [if_neg hl, if_neg hl]
    exact SlotIndex.pop_last h hi (not_lt.mp hl)

theorem Indexed.clear (he : pool.mapTx = ∅) : pool.clear.Indexed getWitnessHash := by
  have hn : pool.vTxHashes = [] := by
    rw [← length_eq_zero_iff, h.length_eq_card, he, card_empty]
  unfold Indexed
  rw [clear_vTxHashes, hn]
  exact .nil _ _

theorem Indexed.run_iff {c : IndexCall} (hv : c.Valid pool) :
    (c.run getWitnessHash pool).Indexed getWitnessHash ↔ c.KeepsIndex pool := by
  cases c with
  | addUnchecked entry setAncestors =>
    refine ⟨fun hi hm => ?_, fun hn => h.addUnchecked hn setAncestors⟩
    have hl := hi.length_eq_card
    rw [IndexCall.run, addUnchecked_vTxHashes, addUnchecked_mapTx, insert_eq_self.mpr hm,
      length_append, length_singleton, h.length_eq_card] at hl
    omega
  | removeUnchecked it => exact iff_of_true (h.removeUnchecked hv) trivial
  | clear =>
    refine ⟨fun hi => ?_, h.clear⟩
    have hl := hi.length_eq_card
    rw [IndexCall.run, clear_vTxHashes, clear_mapTx, card_empty, h.length_eq_card] at hl
    exact card_eq_zero.mp hl

end

theorem IndexReachable.indexed
    (h : IndexReachable getWitnessHash IndexCall.KeepsIndex pool) : pool.Indexed getWitnessHash := by
  induction h with
  | empty => exact .nil _ _
  | call _ hv hk ih => exact (ih.run_iff hv).mpr hk

/-- The index is exact after every run that adds only new transactions and clears the pool only
when it is empty. -/
theorem IndexReachable.index_exact
    (h : IndexReachable getWitnessHash IndexCall.KeepsIndex pool) :
    pool.TxHashesExact getWitnessHash :=
  h.indexed.txHashesExact

/-- Two transactions added and the first of them removed. -/
theorem IndexReachable.index_exact_addRemove :
    (((CTxMemPool.empty.addUnchecked (·.hash) (sampleEntry 1 []) ∅).addUnchecked (·.hash)
      (sampleEntry 2 []) ∅).removeUnchecked 1).TxHashesExact (·.hash) := by
  refine IndexReachable.index_exact ?_
  have he : IndexReachable (·.hash) IndexCall.KeepsIndex .empty := .empty
  have ha₁ := he.call (c := .addUnchecked (sampleEntry 1 []) ∅) trivial (by decide)
  have ha₂ := ha₁.call (c := .addUnchecked (sampleEntry 2 []) ∅) trivial (by decide)
  exact ha₂.call (c := .removeUnchecked 1) (by decide) trivial

/-- After adding a transaction and clearing the pool, an element refers to an entry that is gone. -/
theorem clear_keeps_txHashes :
    ∃ pool, IndexReachable (·.hash) (fun _ _ => True) pool ∧ pool.mapTx = ∅ ∧
      pool.vTxHashes = [(1, 1)] ∧ ¬ pool.TxHashesExact (·.hash) := by
  have hem : IndexReachable (·.hash) (fun _ _ => True) .empty := .empty
  have ha := hem.call (c := .addUnchecked (sampleEntry 1 []) ∅) trivial trivial
  refine ⟨_, ha.call (c := .clear) trivial trivial, rfl, rfl, fun he => ?_⟩
  exact absurd (he.mem_mapTx (1, 1) (List.mem_singleton_self _)) (Finset.notMem_empty _)

end CTxMemPool

end Palladium
