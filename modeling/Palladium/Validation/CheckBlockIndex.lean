import Mathlib
import Palladium.Chain.Index
import Palladium.Pow.Work
import Palladium.Validation.BlockIndex

/-! # The entries of the block index and `CheckBlockIndex`

An entry with all its fields; its pointers are the hashes of the entries they lead to.
-/

namespace Palladium.Validation

/-- An entry of the block index. The bit `BLOCK_OPT_WITNESS` of `nStatus` is kept apart. -/
structure IndexEntry extends BlockEntry where
  optWitness : Bool := false
  pprev : Option Uint256 := none
  pskip : Option Uint256 := none
  nHeight : ℕ := 0
  nDataPos : ℕ := 0
  nUndoPos : ℕ := 0
  nChainWork : ArithUint256 := 0
  nVersion : Int32 := 0
  hashMerkleRoot : Uint256 := 0
  nTime : UInt32 := 0
  nBits : UInt32 := 0
  nNonce : UInt32 := 0
  nTimeMax : UInt32 := 0
  deriving DecidableEq, Repr

structure BlockHeader where
  nVersion : Int32
  hashPrevBlock : Uint256
  hashMerkleRoot : Uint256
  nTime : UInt32
  nBits : UInt32
  nNonce : UInt32
  deriving DecidableEq, Repr

def IndexEntry.getBlockHeader (e : IndexEntry) : BlockHeader where
  nVersion := e.nVersion
  hashPrevBlock := e.pprev.getD 0
  hashMerkleRoot := e.hashMerkleRoot
  nTime := e.nTime
  nBits := e.nBits
  nNonce := e.nNonce

def getBlockProof (e : IndexEntry) : ArithUint256 :=
  let bnTarget := setCompact e.nBits
  if bnTarget.fNegative || bnTarget.fOverflow || bnTarget.value = 0 then 0
  else ~~~bnTarget.value / (bnTarget.value + 1) + 1

/-- The block index, its two sets and the active chain. The keys of the hash map are in the order
of insertion. -/
structure NodeIndex where
  m_block_index : List Uint256 := []
  index : Uint256 → IndexEntry := fun _ => {}
  /-- Where the entry of a block is allocated. -/
  address : Uint256 → ℕ
  setBlockIndexCandidates : Finset Uint256 := ∅
  m_blocks_unlinked : List (Uint256 × Uint256) := []
  setDirtyBlockIndex : Finset Uint256 := ∅
  vChain : List Uint256 := []
  pindexBestInvalid : Option Uint256 := none
  pindexBestHeader : Option Uint256 := none
  fHavePruned : Bool

namespace NodeIndex
variable (s : NodeIndex) (b : Uint256)

def modify (f : IndexEntry → IndexEntry) : NodeIndex :=
  { s with index := Function.update s.index b (f (s.index b)) }

def tip : Option Uint256 := s.vChain.getLast?

/-- The loop of `GetAncestor`. -/
def walkTo (height : ℕ) : (fuel : ℕ) → (pindexWalk : Uint256) → (heightWalk : ℕ) → Option Uint256
  | 0, pindexWalk, _ => some pindexWalk
  | fuel + 1, pindexWalk, heightWalk =>
    if height < heightWalk then
      match if IndexEntries.followsSkip heightWalk height then (s.index pindexWalk).pskip
        else none with
      | some pskip => walkTo height fuel pskip (getSkipHeight heightWalk)
      | none =>
        match (s.index pindexWalk).pprev with
        | some pprev => walkTo height fuel pprev (heightWalk - 1)
        | none => none
    else some pindexWalk

def getAncestor (pindex : Uint256) (height : ℕ) : Option Uint256 :=
  if height > (s.index pindex).nHeight then none
  else s.walkTo height (s.index pindex).nHeight pindex (s.index pindex).nHeight

/-- What `BuildSkip` stores. -/
def skipOf : Option Uint256 :=
  (s.index b).pprev.bind fun pprev => s.getAncestor pprev (getSkipHeight (s.index b).nHeight)

def climb : ℕ → Uint256 → List Uint256
  | 0, b => [b]
  | n + 1, b =>
    match (s.index b).pprev with
    | none => [b]
    | some pprev => b :: climb n pprev

def path : List Uint256 := s.climb (s.index b).nHeight b

def first (p : IndexEntry → Bool) (b : Uint256) : Option Uint256 :=
  (s.path b).reverse.find? fun a => p (s.index a)

/-- `CBlockIndexWorkComparator`. -/
def workLess (pa pb : Uint256) : Bool :=
  if (s.index pa).nChainWork > (s.index pb).nChainWork then false
  else if (s.index pa).nChainWork < (s.index pb).nChainWork then true
  else if (s.index pa).nSequenceId < (s.index pb).nSequenceId then false
  else if (s.index pa).nSequenceId > (s.index pb).nSequenceId then true
  else decide (s.address pa > s.address pb)

def worseThanTip : Bool := s.tip.any (s.workLess b)

end NodeIndex

namespace IndexEntry
variable (e : IndexEntry)

def isInvalid : Bool := e.nStatus.failedValid

def isMissing : Bool := !e.nStatus.haveData

def isNeverProcessed : Bool := e.nTx = 0

def isBelow (level : BlockValidity) : Bool :=
  e.pprev.isSome && e.nStatus.valid.level < level.level

end IndexEntry

def NodeIndex.foundInUnlinked (s : NodeIndex) (b : Uint256) : Bool :=
  s.m_blocks_unlinked.any fun e => (s.index b).pprev = some e.1 && e.2 = b

/-- The assertions about the fields of an entry and its ancestors. -/
@[mk_iff] structure EntryChecks (params : Params) (s : NodeIndex) (b : Uint256) : Prop where
  genesis : (s.index b).pprev = none →
    b = params.hashGenesisBlock ∧ s.vChain.head? = some b ∧ (s.index b).nHeight = 0
  parent : (s.index b).pprev.all fun p =>
    p ∈ s.m_block_index ∧ (s.index b).nHeight = (s.index p).nHeight + 1
  sequence : (s.index b).haveTxsDownloaded = false → (s.index b).nSequenceId ≤ 0
  not_pruned : s.fHavePruned = false →
    ((s.index b).nStatus.haveData = false ↔ (s.index b).nTx = 0) ∧
      s.first IndexEntry.isMissing b = s.first IndexEntry.isNeverProcessed b
  pruned : s.fHavePruned = true → (s.index b).nStatus.haveData = true → 0 < (s.index b).nTx
  undo : (s.index b).nStatus.haveUndo = true → (s.index b).nStatus.haveData = true
  transactions : BlockValidity.transactions.level ≤ (s.index b).nStatus.valid.level ↔
    0 < (s.index b).nTx
  processed : s.first IndexEntry.isNeverProcessed b = none ↔
    (s.index b).haveTxsDownloaded = true
  transactions_valid : s.first (·.isBelow .transactions) b = none ↔
    (s.index b).haveTxsDownloaded = true
  work : (s.index b).pprev.all fun p => (s.index p).nChainWork ≤ (s.index b).nChainWork
  skip : (s.index b).nHeight < 2 ∨
    (s.index b).pskip.any fun k => (s.index k).nHeight < (s.index b).nHeight
  tree : s.first (·.isBelow .tree) b = none
  chain : BlockValidity.chain.level ≤ (s.index b).nStatus.valid.level →
    s.first (·.isBelow .chain) b = none
  scripts : BlockValidity.scripts.level ≤ (s.index b).nStatus.valid.level →
    s.first (·.isBelow .scripts) b = none
  not_failed : s.first IndexEntry.isInvalid b = none → (s.index b).nStatus.failed = false

/-- The assertions about the two sets. -/
@[mk_iff] structure SetChecks (s : NodeIndex) (b : Uint256) : Prop where
  candidate : s.worseThanTip b = false ∧ s.first IndexEntry.isNeverProcessed b = none ∧
    s.first IndexEntry.isInvalid b = none ∧
    (s.first IndexEntry.isMissing b = none ∨ s.tip = some b) → b ∈ s.setBlockIndexCandidates
  not_candidate : s.worseThanTip b = true ∨ s.first IndexEntry.isNeverProcessed b ≠ none →
    b ∉ s.setBlockIndexCandidates
  unlinked : (s.index b).pprev.isSome = true ∧ (s.index b).nStatus.haveData = true ∧
    s.first IndexEntry.isNeverProcessed b ≠ none ∧ s.first IndexEntry.isInvalid b = none →
    s.foundInUnlinked b = true
  have_data : (s.index b).nStatus.haveData = false → s.foundInUnlinked b = false
  missing : s.first IndexEntry.isMissing b = none → s.foundInUnlinked b = false
  pruned_branch : (s.index b).pprev.isSome = true ∧ (s.index b).nStatus.haveData = true ∧
    s.first IndexEntry.isNeverProcessed b = none ∧ s.first IndexEntry.isMissing b ≠ none →
    s.fHavePruned = true ∧
      (s.worseThanTip b = false ∧ b ∉ s.setBlockIndexCandidates ∧
        s.first IndexEntry.isInvalid b = none → s.foundInUnlinked b = true)

structure BlockChecks (params : Params) (s : NodeIndex) (b : Uint256) : Prop
  extends EntryChecks params s b, SetChecks s b

instance (params : Params) (s : NodeIndex) (b : Uint256) : Decidable (EntryChecks params s b) :=
  decidable_of_iff _ (entryChecks_iff params s b).symm

instance (s : NodeIndex) (b : Uint256) : Decidable (SetChecks s b) :=
  decidable_of_iff _ (setChecks_iff s b).symm

instance (params : Params) (s : NodeIndex) (b : Uint256) : Decidable (BlockChecks params s b) :=
  decidable_of_iff (EntryChecks params s b ∧ SetChecks s b)
    ⟨fun h => ⟨h.1, h.2⟩, fun h => ⟨h.toEntryChecks, h.toSetChecks⟩⟩

def CheckBlockIndex (params : Params) (s : NodeIndex) : Prop :=
  if s.vChain = [] then s.m_block_index.length ≤ 1
  else ∀ b ∈ s.m_block_index, BlockChecks params s b

-- quantifiers over hashes must not be decided by trying all of them
instance (params : Params) (s : NodeIndex) : Decidable (CheckBlockIndex params s) :=
  decidable_of_iff (if s.vChain = [] then s.m_block_index.length ≤ 1
    else s.m_block_index.all fun b => BlockChecks params s b) (by
      unfold CheckBlockIndex
      split <;> simp)

section Paths
variable {s s' : NodeIndex} {a b p : Uint256}

/-- Predecessors are blocks of the index at the height below. -/
structure Linked (s : NodeIndex) : Prop where
  height_root : ∀ b ∈ s.m_block_index, (s.index b).pprev = none → (s.index b).nHeight = 0
  parent_mem : ∀ b ∈ s.m_block_index, ∀ p, (s.index b).pprev = some p → p ∈ s.m_block_index
  height_parent : ∀ b ∈ s.m_block_index, ∀ p, (s.index b).pprev = some p →
    (s.index b).nHeight = (s.index p).nHeight + 1

theorem EntryChecks.parent_eq {params : Params} (h : EntryChecks params s b)
    (hp : (s.index b).pprev = some p) :
    p ∈ s.m_block_index ∧ (s.index b).nHeight = (s.index p).nHeight + 1 := by
  simpa [hp] using h.parent

theorem linked_of_checks {params : Params} (h : ∀ b ∈ s.m_block_index, BlockChecks params s b) :
    Linked s where
  height_root b hb hroot := ((h b hb).genesis hroot).2.2
  parent_mem b hb _ hp := ((h b hb).parent_eq hp).1
  height_parent b hb _ hp := ((h b hb).parent_eq hp).2

theorem NodeIndex.path_root (h : (s.index b).pprev = none) : s.path b = [b] := by
  unfold NodeIndex.path
  cases (s.index b).nHeight <;> simp [NodeIndex.climb, h]

theorem NodeIndex.self_mem_path (s : NodeIndex) (b : Uint256) : b ∈ s.path b := by
  unfold NodeIndex.path
  cases (s.index b).nHeight with
  | zero => simp [NodeIndex.climb]
  | succ n => cases h : (s.index b).pprev <;> simp [NodeIndex.climb, h]

namespace Linked
variable (hl : Linked s)

include hl

theorem path_child (hb : b ∈ s.m_block_index) (h : (s.index b).pprev = some p) :
    s.path b = b :: s.path p := by
  rw [NodeIndex.path, hl.height_parent b hb p h, NodeIndex.climb, h]
  rfl

@[elab_as_elim]
theorem induction {P : (b : Uint256) → b ∈ s.m_block_index → Prop}
    (root : ∀ b hb, (s.index b).pprev = none → P b hb)
    (child : ∀ b hb p hp, (s.index b).pprev = some p → P p hp → P b hb)
    (b : Uint256) (hb : b ∈ s.m_block_index) : P b hb := by
  induction hn : (s.index b).nHeight generalizing b with
  | zero =>
    cases h : (s.index b).pprev with
    | none => exact root b hb h
    | some p => have := hl.height_parent b hb p h; omega
  | succ n ih =>
    cases h : (s.index b).pprev with
    | none => exact root b hb h
    | some p =>
      have hp := hl.parent_mem b hb p h
      exact child b hb p hp h (ih p hp (by have := hl.height_parent b hb p h; omega))

theorem mem_of_mem_path (hb : b ∈ s.m_block_index) (ha : a ∈ s.path b) : a ∈ s.m_block_index := by
  induction b, hb using hl.induction with
  | root b hb h =>
    rw [NodeIndex.path_root h, List.mem_singleton] at ha
    rwa [ha]
  | child b hb p hp h ih =>
    rw [hl.path_child hb h, List.mem_cons] at ha
    rcases ha with rfl | ha
    · exact hb
    · exact ih ha

theorem path_subset (hb : b ∈ s.m_block_index) (ha : a ∈ s.path b) : ∀ c ∈ s.path a, c ∈ s.path b := by
  induction b, hb using hl.induction with
  | root b hb h =>
    rw [NodeIndex.path_root h, List.mem_singleton] at ha
    rw [ha]
    exact fun _ => id
  | child b hb p hp h ih =>
    rw [hl.path_child hb h, List.mem_cons] at ha
    rw [hl.path_child hb h]
    rcases ha with rfl | ha
    · rw [hl.path_child hb h]
      exact fun _ => id
    · exact fun c hc => List.mem_cons_of_mem _ (ih ha c hc)

end Linked

theorem NodeIndex.path_eq_of_pointers (hl : Linked s)
    (hpr : ∀ b ∈ s.m_block_index, (s'.index b).pprev = (s.index b).pprev)
    (hh : ∀ b ∈ s.m_block_index, (s'.index b).nHeight = (s.index b).nHeight)
    (hb : b ∈ s.m_block_index) : s'.path b = s.path b := by
  induction b, hb using hl.induction with
  | root b hb h => rw [NodeIndex.path_root h, NodeIndex.path_root (by rw [hpr b hb, h])]
  | child b hb p hp h ih =>
    rw [hl.path_child hb h, ← ih, NodeIndex.path, hh b hb, hl.height_parent b hb p h,
      NodeIndex.climb, hpr b hb, h, NodeIndex.path, hh p hp]

theorem NodeIndex.first_eq_none {q : IndexEntry → Bool} :
    s.first q b = none ↔ ∀ a ∈ s.path b, q (s.index a) = false := by
  simp [NodeIndex.first]

section Received
variable {params : Params}

theorem BlockChecks.haveTxsDownloaded_iff (h : BlockChecks params s b) :
    (s.index b).haveTxsDownloaded ↔ ∀ a ∈ s.path b, 0 < (s.index a).nTx := by
  rw [← h.processed, NodeIndex.first_eq_none]
  simp [IndexEntry.isNeverProcessed, Nat.pos_iff_ne_zero]

theorem BlockChecks.nTx_pos (h : BlockChecks params s b)
    (hd : (s.index b).nStatus.haveData) : 0 < (s.index b).nTx := by
  cases hp : s.fHavePruned with
  | true => exact h.pruned hp hd
  | false =>
    have := (h.not_pruned hp).1.not.mp (by simp [hd])
    omega

theorem haveTxsDownloaded_child (hc : ∀ b ∈ s.m_block_index, BlockChecks params s b)
    (hb : b ∈ s.m_block_index) (h : (s.index b).pprev = some p) :
    (s.index b).haveTxsDownloaded ↔ 0 < (s.index b).nTx ∧ (s.index p).haveTxsDownloaded := by
  have hl := linked_of_checks hc
  rw [(hc b hb).haveTxsDownloaded_iff, (hc p (hl.parent_mem b hb p h)).haveTxsDownloaded_iff,
    hl.path_child hb h, List.forall_mem_cons]

theorem haveTxsDownloaded_root (hc : ∀ b ∈ s.m_block_index, BlockChecks params s b)
    (hb : b ∈ s.m_block_index) (h : (s.index b).pprev = none) :
    (s.index b).haveTxsDownloaded ↔ 0 < (s.index b).nTx := by
  rw [(hc b hb).haveTxsDownloaded_iff, NodeIndex.path_root h]
  simp

end Received

end Paths

end Palladium.Validation
