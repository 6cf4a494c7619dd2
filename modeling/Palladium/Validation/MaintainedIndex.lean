import Palladium.Validation.CheckBlockIndex

/-! # The block index of a running node

The fields that are in memory only are set when an entry is added and when its transactions arrive.
-/

namespace Palladium.Validation

/-- The entries are as `AddToBlockIndex` and `ReceivedBlockTransactions` set them. -/
structure Maintained (getHash : BlockHeader → Uint256) (params : Params) (s : NodeIndex) :
    Prop where
  nodup : s.m_block_index.Nodup
  hash : ∀ b ∈ s.m_block_index, getHash (s.index b).getBlockHeader = b
  hash_ne_zero : 0 ∉ s.m_block_index
  proofOfWork : ∀ b ∈ s.m_block_index, checkProofOfWork b (s.index b).nBits params = true
  nChainWork : ∀ b ∈ s.m_block_index, (s.index b).nChainWork =
    ((s.index b).pprev.map s.index).elim 0 (·.nChainWork) + getBlockProof (s.index b)
  nTimeMax : ∀ b ∈ s.m_block_index, (s.index b).nTimeMax =
    ((s.index b).pprev.map s.index).elim (s.index b).nTime fun p => max p.nTimeMax (s.index b).nTime
  pskip : ∀ b ∈ s.m_block_index, (s.index b).pskip = s.skipOf b
  nChainTx : ∀ b ∈ s.m_block_index, (s.index b).haveTxsDownloaded = true →
    (s.index b).nChainTx = match (s.index b).pprev with
      | some p => ((s.index p).nChainTx + (s.index b).nTx) % 2 ^ 32
      | none => (s.index b).nTx
  active : ∃ tip ∈ s.m_block_index, s.vChain = (s.path tip).reverse

section Skip
variable {getHash : BlockHeader → Uint256} {params : Params} {s s' : NodeIndex} {a b k : Uint256}

/-- The pointers of the entries in a set stay in the set. -/
structure PointersIn (s : NodeIndex) (S : Uint256 → Prop) : Prop where
  pprev : ∀ a, S a → ∀ p, (s.index a).pprev = some p → S p
  pskip : ∀ a, S a → ∀ k, (s.index a).pskip = some k → S k

variable {S : Uint256 → Prop}

theorem PointersIn.walkTo_mem (h : PointersIn s S) (ha : S a) {height fuel he : ℕ}
    (hk : s.walkTo height fuel a he = some k) : S k := by
  induction fuel generalizing a he with
  | zero =>
    cases hk
    exact ha
  | succ fuel ih =>
    unfold NodeIndex.walkTo at hk
    split at hk
    · split at hk
      next pskip hs =>
        refine ih (h.pskip a ha pskip ?_) hk
        split at hs
        · exact hs
        · cases hs
      next =>
        split at hk
        next pprev hp => exact ih (h.pprev a ha pprev hp) hk
        next => cases hk
    · cases hk
      exact ha

theorem PointersIn.walkTo_congr (h : PointersIn s S)
    (hp : ∀ a, S a → (s'.index a).pprev = (s.index a).pprev)
    (hs : ∀ a, S a → (s'.index a).pskip = (s.index a).pskip) (ha : S a)
    (height fuel he : ℕ) :
    s'.walkTo height fuel a he = s.walkTo height fuel a he := by
  induction fuel generalizing a he with
  | zero => rfl
  | succ fuel ih =>
    unfold NodeIndex.walkTo
    rw [hp a ha, hs a ha]
    split
    · split
      next pskip heq =>
        refine ih (h.pskip a ha pskip ?_) _
        split at heq
        · exact heq
        · cases heq
      next =>
        split
        next pprev heq => exact ih (h.pprev a ha pprev heq) _
        next => rfl
    · rfl

theorem Maintained.pskip_lt (hm : Maintained getHash params s) (hl : Linked s)
    (hb : b ∈ s.m_block_index) (hk : (s.index b).pskip = some k) :
    k ∈ s.m_block_index ∧ (s.index k).nHeight < (s.index b).nHeight := by
  induction hn : (s.index b).nHeight using Nat.strong_induction_on generalizing b k with
  | _ n ih =>
    subst hn
    rw [hm.pskip b hb, NodeIndex.skipOf, Option.bind_eq_some_iff] at hk
    obtain ⟨p, hp, hk⟩ := hk
    have hpm := hl.parent_mem b hb p hp
    have hh := hl.height_parent b hb p hp
    have hi : PointersIn s fun a =>
        a ∈ s.m_block_index ∧ (s.index a).nHeight ≤ (s.index p).nHeight := by
      constructor
      · rintro a ⟨ham, ha⟩ q hq
        have := hl.height_parent a ham q hq
        exact ⟨hl.parent_mem a ham q hq, by omega⟩
      · rintro a ⟨ham, ha⟩ q hq
        obtain ⟨hqm, hql⟩ := ih _ (by omega) ham hq rfl
        exact ⟨hqm, by omega⟩
    unfold NodeIndex.getAncestor at hk
    split at hk
    · cases hk
    · obtain ⟨hkm, hkl⟩ := hi.walkTo_mem ⟨hpm, le_rfl⟩ hk
      exact ⟨hkm, by omega⟩

/-- `BuildSkip` depends on the pointers of lower blocks only. -/
theorem Maintained.skipOf_congr (hm : Maintained getHash params s) (hl : Linked s)
    (hb : b ∈ s.m_block_index)
    (hpr : ∀ a ∈ s.m_block_index, (s'.index a).pprev = (s.index a).pprev)
    (hh : ∀ a ∈ s.m_block_index, (s'.index a).nHeight = (s.index a).nHeight)
    (hs : ∀ a ∈ s.m_block_index, (s.index a).nHeight < (s.index b).nHeight →
      (s'.index a).pskip = (s.index a).pskip) : s'.skipOf b = s.skipOf b := by
  unfold NodeIndex.skipOf
  rw [hpr b hb, hh b hb]
  cases hp : (s.index b).pprev with
  | none => rfl
  | some p =>
    have hpm := hl.parent_mem b hb p hp
    have hpb := hl.height_parent b hb p hp
    have hi : PointersIn s fun a =>
        a ∈ s.m_block_index ∧ (s.index a).nHeight < (s.index b).nHeight := by
      constructor
      · rintro a ⟨ham, halt⟩ q hq
        have := hl.height_parent a ham q hq
        exact ⟨hl.parent_mem a ham q hq, by omega⟩
      · rintro a ⟨ham, halt⟩ q hq
        obtain ⟨hqm, hql⟩ := hm.pskip_lt hl ham hq
        exact ⟨hqm, by omega⟩
    rw [Option.bind_some, Option.bind_some, NodeIndex.getAncestor, NodeIndex.getAncestor,
      hh p hpm, hi.walkTo_congr (fun a ha => hpr a ha.1) (fun a ha => hs a ha.1 ha.2)
        ⟨hpm, by omega⟩]

end Skip

section Add
variable (getHash : BlockHeader → Uint256)

def NodeIndex.newEntry (s : NodeIndex) (block : BlockHeader) : IndexEntry :=
  let pprev := if block.hashPrevBlock ∈ s.m_block_index then some block.hashPrevBlock else none
  let nHeight := pprev.elim 0 fun p => (s.index p).nHeight + 1
  let e : IndexEntry := {
    nVersion := block.nVersion
    hashMerkleRoot := block.hashMerkleRoot
    nTime := block.nTime
    nBits := block.nBits
    nNonce := block.nNonce
    pprev := pprev
    nHeight := nHeight
    pskip := pprev.bind fun p => s.getAncestor p (getSkipHeight nHeight)
    nTimeMax := (pprev.map s.index).elim block.nTime fun p => max p.nTimeMax block.nTime }
  { e with
    toBlockEntry := BlockEntry.raiseValidity {} .tree
    nChainWork := (pprev.map s.index).elim 0 (·.nChainWork) + getBlockProof e }

def NodeIndex.addToBlockIndex (s : NodeIndex) (block : BlockHeader) : NodeIndex :=
  let hash := getHash block
  if hash ∈ s.m_block_index then s
  else
    let pindexNew := s.newEntry block
    { s with
      m_block_index := s.m_block_index ++ [hash]
      index := Function.update s.index hash pindexNew
      pindexBestHeader :=
        if s.pindexBestHeader.all fun best => (s.index best).nChainWork < pindexNew.nChainWork then
          some hash
        else s.pindexBestHeader
      setDirtyBlockIndex := insert hash s.setDirtyBlockIndex }

variable {getHash} {params : Params} {s : NodeIndex} {block : BlockHeader}

structure EntryAdded (s s' : NodeIndex) (hash : Uint256) (e : IndexEntry) : Prop where
  keys : s'.m_block_index = s.m_block_index ++ [hash]
  old : ∀ a ∈ s.m_block_index, s'.index a = s.index a
  new : s'.index hash = e
  vChain : s'.vChain = s.vChain

theorem entryAdded_addToBlockIndex (hn : getHash block ∉ s.m_block_index) :
    EntryAdded s (s.addToBlockIndex getHash block) (getHash block) (s.newEntry block) := by
  unfold NodeIndex.addToBlockIndex
  dsimp only
  rw [if_neg hn]
  refine ⟨rfl, fun a ha => Function.update_of_ne ?_ .., Function.update_self .., rfl⟩
  rintro rfl
  exact hn ha

namespace EntryAdded
variable {s' : NodeIndex} {hash : Uint256} {e : IndexEntry} (h : EntryAdded s s' hash e)

include h

theorem forall_mem {P : Uint256 → Prop} (hold : ∀ b ∈ s.m_block_index, P b) (hn : P hash) :
    ∀ b ∈ s'.m_block_index, P b := by
  intro b hb
  rw [h.keys, List.mem_append, List.mem_singleton] at hb
  rcases hb with hb | rfl
  · exact hold b hb
  · exact hn

theorem map_index {o : Option Uint256} (ho : ∀ p, o = some p → p ∈ s.m_block_index) :
    o.map s'.index = o.map s.index := by
  cases o with
  | none => rfl
  | some p => exact congrArg some (h.old p (ho p rfl))

end EntryAdded

end Add

end Palladium.Validation
