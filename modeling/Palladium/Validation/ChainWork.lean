import Palladium.Arith.BaseUint
import Palladium.Validation.MaintainedIndex

/-! # The work of a chain

`GetBlockProof` is the expected number of hashes for a target, computed within 256 bits.
-/

namespace Palladium.Validation
open BitVec List Nat Option

def ValidBits (nBits : UInt32) : Prop :=
  (setCompact nBits).fNegative = false ∧ (setCompact nBits).fOverflow = false ∧
    (setCompact nBits).value ≠ 0

instance (nBits : UInt32) : Decidable (ValidBits nBits) := by
  unfold ValidBits
  infer_instance

section Proof
variable {e e' : IndexEntry}

theorem setCompact_succ_lt (nBits : UInt32) : (setCompact nBits).value.toNat + 1 < 2 ^ 256 := by
  have hwo : nBits.toNat &&& 0x007fffff < 2 ^ 23 := by
    rw [show 0x007fffff = 2 ^ 23 - 1 by norm_num, and_two_pow_sub_one_eq_mod]
    exact mod_lt _ (by norm_num)
  unfold setCompact
  dsimp only
  generalize nBits.toNat &&& 0x007fffff = nWord at hwo
  split_ifs with hs
  · have hl : nWord >>> (8 * (3 - nBits.toNat >>> 24)) ≤ nWord := shiftRight_le ..
    have hm := (mod_le _ (2 ^ 256)).trans hl
    rw [BitVec.toNat_ofNat]
    omega
  · generalize hk : 8 * (nBits.toNat >>> 24 - 3) = k
    obtain ⟨m, rfl⟩ : ∃ m, k = m + 1 := ⟨k - 1, by omega⟩
    rw [BitVec.toNat_shiftLeft, BitVec.toNat_ofNat, Nat.shiftLeft_eq, pow_succ 2 m, ← mul_assoc]
    generalize nWord % 2 ^ 256 * 2 ^ m = n
    omega

theorem getBlockProof_of_not_valid (h : ¬ ValidBits e.nBits) : getBlockProof e = 0 := by
  unfold getBlockProof ValidBits at *
  dsimp only
  rw [if_pos]
  cases hn : (setCompact e.nBits).fNegative <;> cases ho : (setCompact e.nBits).fOverflow <;>
    simp_all

theorem getBlockProof_of_valid (h : ValidBits e.nBits) :
    getBlockProof e = ~~~(setCompact e.nBits).value / ((setCompact e.nBits).value + 1) + 1 := by
  obtain ⟨hn, ho, hz⟩ := h
  simp only [getBlockProof, hn, ho, Bool.false_or, decide_eq_true_eq, if_neg hz]

theorem blockProof_exact {v : ArithUint256} (hv : v ≠ 0) (hl : v.toNat + 1 < 2 ^ 256) :
    (v + 1).toNat = v.toNat + 1 ∧ (~~~v / (v + 1)).toNat + 1 < 2 ^ 256 ∧
      (~~~v / (v + 1) + 1).toNat = 2 ^ 256 / (v.toNat + 1) := by
  have hp : 0 < v.toNat := Nat.pos_of_ne_zero fun h => hv (eq_of_toNat_eq h)
  have hs : (v + 1).toNat = v.toNat + 1 := by
    rw [toNat_add, show (1 : ArithUint256).toNat = 1 from rfl, mod_eq_of_lt hl]
  have hq : (~~~v / (v + 1)).toNat = (2 ^ 256 - 1 - v.toNat) / (v.toNat + 1) := by
    rw [toNat_udiv, toNat_not, hs]
  have ha : (2 ^ 256 - 1 - v.toNat) / (v.toNat + 1) + 1 = 2 ^ 256 / (v.toNat + 1) := by
    rw [← add_div_right _ (succ_pos v.toNat)]
    congr 1
    omega
  have hh : 2 ^ 256 / (v.toNat + 1) ≤ 2 ^ 256 / 2 := div_le_div_left (by omega) (by norm_num)
  have hwr : (~~~v / (v + 1)).toNat + 1 < 2 ^ 256 := by
    rw [hq, ha]
    omega
  refine ⟨hs, hwr, ?_⟩
  rw [toNat_add, show (1 : ArithUint256).toNat = 1 from rfl, mod_eq_of_lt hwr, hq, ha]

theorem toNat_getBlockProof (h : ValidBits e.nBits) :
    (getBlockProof e).toNat = 2 ^ 256 / ((setCompact e.nBits).value.toNat + 1) := by
  rw [getBlockProof_of_valid h]
  exact (blockProof_exact h.2.2 (setCompact_succ_lt e.nBits)).2.2

theorem getBlockProof_pos (h : ValidBits e.nBits) : 0 < (getBlockProof e).toNat := by
  rw [toNat_getBlockProof h]
  exact Nat.div_pos (setCompact_succ_lt e.nBits).le (succ_pos _)

theorem getBlockProof_mono (h : ValidBits e.nBits) (h' : ValidBits e'.nBits)
    (hl : (setCompact e'.nBits).value ≤ (setCompact e.nBits).value) :
    (getBlockProof e).toNat ≤ (getBlockProof e').toNat := by
  rw [toNat_getBlockProof h, toNat_getBlockProof h']
  exact div_le_div_left (succ_le_succ (le_def.mp hl)) (succ_pos _)

end Proof

def NodeIndex.totalWork (s : NodeIndex) (b : Uint256) : ℕ :=
  ((s.path b).map fun a => (getBlockProof (s.index a)).toNat).sum

open NodeIndex
section Add
variable {getHash : BlockHeader → Uint256} {s : NodeIndex} {block : BlockHeader} {p : Uint256}

theorem NodeIndex.newEntry_parent (hp : (s.newEntry block).pprev = some p) :
    p ∈ s.m_block_index ∧ (s.newEntry block).nHeight = (s.index p).nHeight + 1 := by
  simp only [newEntry, ite_none_right_eq_some, Option.some.injEq] at hp ⊢
  obtain ⟨hm, rfl⟩ := hp
  exact ⟨hm, by rw [if_pos hm]; rfl⟩

theorem Linked.addToBlockIndex (hl : Linked s) (block : BlockHeader) :
    Linked (s.addToBlockIndex getHash block) := by
  by_cases hnw : getHash block ∈ s.m_block_index
  · rwa [NodeIndex.addToBlockIndex, if_pos hnw]
  have h := entryAdded_addToBlockIndex hnw
  have hold : ∀ p ∈ s.m_block_index, p ∈ (s.addToBlockIndex getHash block).m_block_index := by
    intro p hp
    rw [h.keys]
    exact mem_append_left _ hp
  constructor
  case height_root =>
    refine h.forall_mem (fun b hb => ?_) ?_
    · rw [h.old b hb]
      exact hl.height_root b hb
    · rw [h.new]
      simp only [newEntry]
      intro hn
      rw [hn]
      rfl
  case parent_mem =>
    refine h.forall_mem (fun b hb p hp => ?_) fun p hp => ?_
    · rw [h.old b hb] at hp
      exact hold p (hl.parent_mem b hb p hp)
    · rw [h.new] at hp
      exact hold p (newEntry_parent hp).1
  case height_parent =>
    refine h.forall_mem (fun b hb p hp => ?_) fun p hp => ?_
    · rw [h.old b hb] at hp ⊢
      rw [h.old p (hl.parent_mem b hb p hp)]
      exact hl.height_parent b hb p hp
    · rw [h.new] at hp ⊢
      rw [h.old p (newEntry_parent hp).1]
      exact (newEntry_parent hp).2

end Add

/-- The entries are linked to lower ones and their work includes that of the predecessor. -/
structure Worked (s : NodeIndex) : Prop extends Linked s where
  nChainWork : ∀ b ∈ s.m_block_index, (s.index b).nChainWork =
    ((s.index b).pprev.map s.index).elim 0 (·.nChainWork) + getBlockProof (s.index b)

namespace Worked
variable {getHash : BlockHeader → Uint256} {s : NodeIndex} {b p : Uint256}

theorem addToBlockIndex (hw : Worked s) (block : BlockHeader) :
    Worked (s.addToBlockIndex getHash block) := by
  refine ⟨hw.toLinked.addToBlockIndex block, ?_⟩
  by_cases hn : getHash block ∈ s.m_block_index
  · rw [NodeIndex.addToBlockIndex, if_pos hn]
    exact hw.nChainWork
  have h := entryAdded_addToBlockIndex hn
  refine h.forall_mem (fun b hb => ?_) ?_
  · rw [h.old b hb, h.map_index (hw.parent_mem b hb), ← hw.nChainWork b hb]
  · rw [h.new, h.map_index fun p hp => (newEntry_parent hp).1]
    rfl

theorem addHeaders (hw : Worked s) (headers : List BlockHeader) :
    Worked (headers.foldl (NodeIndex.addToBlockIndex getHash) s) := by
  induction headers generalizing s with
  | nil => exact hw
  | cons block headers ih => exact ih (hw.addToBlockIndex block)

theorem of_empty (h : s.m_block_index = []) : Worked s where
  height_root := by simp [h]
  parent_mem := by simp [h]
  height_parent := by simp [h]
  nChainWork := by simp [h]

variable (hw : Worked s)

include hw

theorem totalWork_child (hb : b ∈ s.m_block_index) (hp : (s.index b).pprev = some p) :
    s.totalWork b = (getBlockProof (s.index b)).toNat + s.totalWork p := by
  rw [totalWork, hw.path_child hb hp, map_cons, sum_cons, totalWork]

theorem toNat_nChainWork (hb : b ∈ s.m_block_index) :
    (s.index b).nChainWork.toNat = s.totalWork b % 2 ^ 256 := by
  induction b, hb using hw.toLinked.induction with
  | root b hb hr =>
    rw [hw.nChainWork b hb, hr, totalWork, path_root hr]
    simp [mod_eq_of_lt (getBlockProof (s.index b)).isLt]
  | child b hb p hp hpr ih =>
    rw [hw.nChainWork b hb, hpr, hw.totalWork_child hb hpr]
    simp only [map_some, elim_some, toNat_add, ih]
    omega

theorem totalWork_lt (hb : b ∈ s.m_block_index) (hp : (s.index b).pprev = some p)
    (hbi : ValidBits (s.index b).nBits) : s.totalWork p < s.totalWork b := by
  rw [hw.totalWork_child hb hp]
  have := getBlockProof_pos hbi
  omega

end Worked

theorem totalWork_mono {s s' : NodeIndex} {b b' : Uint256}
    (hb : ∀ a ∈ s.path b, ValidBits (s.index a).nBits)
    (hb' : ∀ a ∈ s'.path b', ValidBits (s'.index a).nBits)
    (hl : List.Forall₂ (fun a a' =>
      (setCompact (s'.index a').nBits).value ≤ (setCompact (s.index a).nBits).value)
      (s.path b) (s'.path b')) : s.totalWork b ≤ s'.totalWork b' := by
  unfold totalWork
  generalize s.path b = l at *
  generalize s'.path b' = l' at *
  induction hl with
  | nil => exact le_rfl
  | cons h _ ih =>
    rw [forall_mem_cons] at hb hb'
    rw [map_cons, map_cons, sum_cons, sum_cons]
    exact Nat.add_le_add (getBlockProof_mono hb.1 hb'.1 h) (ih hb.2 hb'.2)

/-- `GetBlockProof` is zero for an invalid target and otherwise `⌊2 ^ 256 / (target + 1)⌋`. In an
index built from headers with valid targets, the work of a block is the sum over its chain and above
that of its predecessor, and smaller targets make no less work, if the sums fit into 256 bits. -/
theorem chainWork_exact (getHash : BlockHeader → Uint256) {s₀ s s' : NodeIndex}
    (hempty : s₀.m_block_index = []) {headers headers' : List BlockHeader}
    (hs : headers.foldl (NodeIndex.addToBlockIndex getHash) s₀ = s)
    (hs' : headers'.foldl (NodeIndex.addToBlockIndex getHash) s₀ = s') :
    (∀ e : IndexEntry, ¬ ValidBits e.nBits → getBlockProof e = 0) ∧
    (∀ e : IndexEntry, ValidBits e.nBits →
      let bnTarget := (setCompact e.nBits).value
      (bnTarget + 1).toNat = bnTarget.toNat + 1 ∧
      BaseUint.div (~~~bnTarget) (bnTarget + 1) = .ok (~~~bnTarget / (bnTarget + 1)) ∧
      (~~~bnTarget / (bnTarget + 1)).toNat + 1 < 2 ^ 256 ∧
      (getBlockProof e).toNat = 2 ^ 256 / (bnTarget.toNat + 1)) ∧
    ∀ b ∈ s.m_block_index, (∀ a ∈ s.path b, ValidBits (s.index a).nBits) →
      s.totalWork b < 2 ^ 256 →
      (s.index b).nChainWork.toNat = s.totalWork b ∧
      (∀ p, (s.index b).pprev = some p → (s.index p).nChainWork < (s.index b).nChainWork) ∧
      ∀ b' ∈ s'.m_block_index, (∀ a ∈ s'.path b', ValidBits (s'.index a).nBits) →
        s'.totalWork b' < 2 ^ 256 →
        List.Forall₂ (fun a a' => (setCompact (s'.index a').nBits).value ≤
          (setCompact (s.index a).nBits).value) (s.path b) (s'.path b') →
        (s.index b).nChainWork ≤ (s'.index b').nChainWork := by
  have hw : Worked s := hs ▸ (Worked.of_empty hempty).addHeaders headers
  have hw' : Worked s' := hs' ▸ (Worked.of_empty hempty).addHeaders headers'
  refine ⟨fun e => getBlockProof_of_not_valid, fun e he => ?_, fun b hb hbi hlt => ?_⟩
  · obtain ⟨hsu, hwr, -⟩ := blockProof_exact he.2.2 (setCompact_succ_lt e.nBits)
    have hn : (setCompact e.nBits).value + 1 ≠ 0 := fun h0 => by
      rw [h0] at hsu
      simp at hsu
    refine ⟨hsu, ?_, hwr, toNat_getBlockProof he⟩
    rw [BaseUint.div_eq, divArith, if_neg hn]
  have hwo : (s.index b).nChainWork.toNat = s.totalWork b := by
    rw [hw.toNat_nChainWork hb, mod_eq_of_lt hlt]
  refine ⟨hwo, fun p hp => ?_, fun b' hb' hbi' hlt' hle => ?_⟩
  · have hl := hw.totalWork_lt hb hp (hbi b (s.self_mem_path b))
    rw [lt_def, hwo, hw.toNat_nChainWork (hw.parent_mem b hb p hp), mod_eq_of_lt (hl.trans hlt)]
    exact hl
  · rw [le_def, hwo, hw'.toNat_nChainWork hb', mod_eq_of_lt hlt']
    exact totalWork_mono hbi hbi' hle

/-- A genesis block and a block on it; the second chain has a smaller target in the last block. -/
def twoHeaders (nBits : UInt32) : List BlockHeader :=
  [{ nVersion := 1, hashPrevBlock := 0, hashMerkleRoot := 0, nTime := 0, nBits := 0x207fffff,
     nNonce := 1 },
   { nVersion := 1, hashPrevBlock := 1, hashMerkleRoot := 0, nTime := 1, nBits := nBits,
     nNonce := 2 }]

def headerNonce (block : BlockHeader) : Uint256 := block.nNonce.toNat

def emptyIndex : NodeIndex where
  address := BitVec.toNat
  fHavePruned := false

def twoBlocks (nBits : UInt32) : NodeIndex :=
  (twoHeaders nBits).foldl (NodeIndex.addToBlockIndex headerNonce) emptyIndex

theorem validBits_twoBlocks {nBits : UInt32} (h : nBits = 0x207fffff ∨ nBits = 0x1f7fffff) :
    ∀ a ∈ (twoBlocks nBits).path 2, ValidBits ((twoBlocks nBits).index a).nBits := by
  have hp : (twoBlocks nBits).path 2 = [2, 1] := by
    rcases h with rfl | rfl <;> decide +kernel
  rw [hp, forall_mem_cons, forall_mem_singleton]
  rcases h with rfl | rfl <;> decide +kernel

theorem chainWork_exact_two : ((twoBlocks 0x207fffff).index 2).nChainWork = 4 ∧
    ((twoBlocks 0x207fffff).index 1).nChainWork < ((twoBlocks 0x207fffff).index 2).nChainWork ∧
    ((twoBlocks 0x207fffff).index 2).nChainWork ≤ ((twoBlocks 0x1f7fffff).index 2).nChainWork := by
  obtain ⟨-, -, h⟩ := @chainWork_exact headerNonce emptyIndex (twoBlocks 0x207fffff)
    (twoBlocks 0x1f7fffff) rfl _ _ rfl rfl
  obtain ⟨hwo, hl, hm⟩ := h 2 (by decide +kernel) (validBits_twoBlocks (.inl rfl))
    (by decide +kernel)
  exact ⟨eq_of_toNat_eq (hwo.trans (by decide +kernel)), hl 1 (by decide +kernel),
    hm 2 (by decide +kernel) (validBits_twoBlocks (.inr rfl)) (by decide +kernel)
      (by decide +kernel)⟩

end Palladium.Validation
