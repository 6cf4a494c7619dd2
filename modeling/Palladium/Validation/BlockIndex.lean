import Mathlib.Data.Finset.Basic
import Mathlib.Data.Prod.Lex
import Palladium.Lib.Forest

/-! # The block index and the chain state

The headers of all blocks that can ever be announced form a forest, which fixes height, predecessor
and work of a block.
-/

namespace Palladium.Validation

inductive BlockValidationResult
  | resultUnset | consensus | recentConsensusChange | cachedInvalid | invalidHeader | mutated
  | missingPrev | invalidPrev | timeFuture | checkpoint
  deriving DecidableEq, Repr

structure BlockInvalid where
  result : BlockValidationResult
  rejectReason : String
  deriving DecidableEq, Repr

inductive BlockValidity | unknown | reserved | tree | transactions | chain | scripts
  deriving DecidableEq, Repr

def BlockValidity.level : BlockValidity → ℕ
  | unknown => 0
  | reserved => 1
  | tree => 2
  | transactions => 3
  | chain => 4
  | scripts => 5

/-- The bits of `nStatus`. -/
structure BlockStatus where
  valid : BlockValidity := .unknown
  haveData : Bool := false
  haveUndo : Bool := false
  failedValid : Bool := false
  failedChild : Bool := false
  deriving DecidableEq, Repr

def BlockStatus.failed (st : BlockStatus) : Bool := st.failedValid || st.failedChild

def BlockStatus.clearFailed (st : BlockStatus) : BlockStatus :=
  { st with failedValid := false, failedChild := false }

structure BlockEntry where
  nStatus : BlockStatus := {}
  nTx : ℕ := 0
  nChainTx : ℕ := 0
  nSequenceId : ℤ := 0
  nFile : ℕ := 0
  deriving DecidableEq, Repr

namespace BlockEntry
variable (e : BlockEntry)

def haveTxsDownloaded : Bool := e.nChainTx ≠ 0

def isValid (nUpTo : BlockValidity := .transactions) : Bool :=
  if e.nStatus.failed then false else decide (nUpTo.level ≤ e.nStatus.valid.level)

def raiseValidity (nUpTo : BlockValidity) : BlockEntry :=
  if e.nStatus.failed then e
  else if e.nStatus.valid.level < nUpTo.level then
    { e with nStatus := { e.nStatus with valid := nUpTo } }
  else e

end BlockEntry

/-- The forest of all block headers, with the work accumulated along each branch. -/
structure BlockTree (ι : Type*) extends Forest ι where
  nChainWork : ι → ℕ
  nChainWork_parent : ∀ {b p}, parent b = some p → nChainWork p ≤ nChainWork b
  hashGenesisBlock : ι
  parent_genesis : parent hashGenesisBlock = none
  nMinimumChainWork : ℕ

/-- `BlockManager` and `CChainState`. `m_block_index` is in the order in which the hash map is
iterated, `ι` in that of the pointers. -/
structure ChainState (ι : Type*) where
  m_block_index : List ι
  index : ι → BlockEntry
  setBlockIndexCandidates : Finset ι
  m_blocks_unlinked : List (ι × ι)
  m_failed_blocks : Finset ι
  tip : Option ι
  pindexBestInvalid : Option ι
  pindexBestHeader : Option ι
  nBlockSequenceId : ℤ
  fHavePruned : Bool

variable {ι : Type*} [LinearOrder ι]
namespace ChainState
variable (s : ChainState ι) (b : ι) (f : BlockEntry → BlockEntry)

def modify : ChainState ι :=
  { s with index := Function.update s.index b (f (s.index b)) }

@[simp] theorem modify_index_self :
    (s.modify b f).index b = f (s.index b) := Function.update_self ..

theorem modify_index_of_ne {b c : ι} (h : c ≠ b) :
    (s.modify b f).index c = s.index c := Function.update_of_ne h ..

def addCandidate : ChainState ι :=
  { s with setBlockIndexCandidates := insert b s.setBlockIndexCandidates }

def eraseCandidate : ChainState ι :=
  { s with setBlockIndexCandidates := s.setBlockIndexCandidates.erase b }

def addFailed : ChainState ι :=
  { s with m_failed_blocks := insert b s.m_failed_blocks }

def eraseFailed : ChainState ι :=
  { s with m_failed_blocks := s.m_failed_blocks.erase b }

def setFailedValid : ChainState ι :=
  s.modify b fun e => { e with nStatus := { e.nStatus with failedValid := true } }

def setFailedChild : ChainState ι :=
  s.modify b fun e => { e with nStatus := { e.nStatus with failedChild := true } }

def clearFailed : ChainState ι :=
  s.modify b fun e => { e with nStatus := e.nStatus.clearFailed }

end ChainState

variable (T : BlockTree ι) (s : ChainState ι)

/-- `CBlockIndexWorkComparator`. -/
def workLess (pa pb : ι) : Bool :=
  if T.nChainWork pa > T.nChainWork pb then false
  else if T.nChainWork pa < T.nChainWork pb then true
  else if (s.index pa).nSequenceId < (s.index pb).nSequenceId then false
  else if (s.index pa).nSequenceId > (s.index pb).nSequenceId then true
  else if pa < pb then false
  else if pa > pb then true
  else false

/-- Whether a block sorts at least as good as the tip; true without a tip. -/
def notWorseThanTip (b : ι) : Bool :=
  match s.tip with
  | none => true
  | some tip => !workLess T s b tip

def betterThanTip (b : ι) : Bool :=
  match s.tip with
  | none => false
  | some tip => workLess T s tip b

def sortKey (b : ι) : ℕ ×ₗ ℤᵒᵈ ×ₗ ιᵒᵈ :=
  toLex (T.nChainWork b, toLex (OrderDual.toDual (s.index b).nSequenceId, OrderDual.toDual b))

theorem workLess_iff {T : BlockTree ι} {s : ChainState ι} {a b : ι} :
    workLess T s a b ↔ sortKey T s a < sortKey T s b := by
  unfold workLess sortKey
  rw [Prod.Lex.toLex_lt_toLex, Prod.Lex.toLex_lt_toLex]
  simp only [OrderDual.toDual_lt_toDual, EmbeddingLike.apply_eq_iff_eq]
  split_ifs with h₁ h₂ h₃ h₄ h₅ h₆
  · simp only [false_iff]; omega
  · simp [h₂]
  · have : T.nChainWork a = T.nChainWork b := by omega
    simp only [this, lt_irrefl, true_and, false_or, false_iff]
    omega
  · have : T.nChainWork a = T.nChainWork b := by omega
    simp [this, h₄]
  all_goals
    have hw : T.nChainWork a = T.nChainWork b := by omega
    have hs : (s.index a).nSequenceId = (s.index b).nSequenceId := by omega
    simp only [hw, hs, lt_irrefl, true_and, false_or]
  · simpa using h₅.le
  · simpa using h₆
  · simpa using le_of_not_gt h₆

section Accept
variable (T : BlockTree ι)

def moreWork (b : ι) : Option ι → Bool
  | none => true
  | some best => decide (T.nChainWork best < T.nChainWork b)

variable (s : ChainState ι)

/-- A header becomes an entry without transactions. -/
def addToBlockIndex (b : ι) : ChainState ι :=
  if b ∈ s.m_block_index then s
  else { s with
    m_block_index := s.m_block_index ++ [b]
    index := Function.update s.index b (BlockEntry.raiseValidity {} .tree)
    pindexBestHeader := if moreWork T b s.pindexBestHeader then some b else s.pindexBestHeader }

/-- The first failed block, in the order of the pointers, that is an ancestor-or-self of a block.
-/
def failedAncestor (pindexPrev : ι) : Option ι :=
  ((T.path pindexPrev).filter (· ∈ s.m_failed_blocks)).min?

/-- The result of `CheckBlockHeader` and of `ContextualCheckBlockHeader` is an argument. -/
def acceptBlockHeader (b : ι)
    (checkBlockHeader contextualCheckBlockHeader : Except BlockInvalid Unit) :
    Except BlockInvalid Unit × ChainState ι :=
  if b = T.hashGenesisBlock then (.ok (), addToBlockIndex T s b)
  else if b ∈ s.m_block_index then
    if (s.index b).nStatus.failed then (.error ⟨.cachedInvalid, "duplicate"⟩, s) else (.ok (), s)
  else
    match checkBlockHeader with
    | .error e => (.error e, s)
    | .ok () =>
      match T.parent b with
      | none => (.error ⟨.missingPrev, "prev-blk-not-found"⟩, s)
      | some pindexPrev =>
        if ¬ pindexPrev ∈ s.m_block_index then (.error ⟨.missingPrev, "prev-blk-not-found"⟩, s)
        else if (s.index pindexPrev).nStatus.failed then
          (.error ⟨.invalidPrev, "bad-prevblk"⟩, s)
        else
          match contextualCheckBlockHeader with
          | .error e => (.error e, s)
          | .ok () =>
            if (s.index pindexPrev).isValid .scripts then (.ok (), addToBlockIndex T s b)
            else
              match failedAncestor T s pindexPrev with
              | none => (.ok (), addToBlockIndex T s b)
              | some failedit =>
                -- the blocks between the failed one and the new header descend from it
                (.error ⟨.invalidPrev, "bad-prevblk"⟩,
                  ((T.path pindexPrev).takeWhile (· ≠ failedit)).foldl ChainState.setFailedChild s)

variable (pindex : ι)

/-- The transactions up to a block and its place in the order of arrival. -/
def linkEntry : ChainState ι :=
  let nChainTx := match T.parent pindex with
    | none => 0
    | some pprev => (s.index pprev).nChainTx
  { s.modify pindex fun e =>
      { e with nChainTx := nChainTx + e.nTx, nSequenceId := s.nBlockSequenceId } with
    nBlockSequenceId := s.nBlockSequenceId + 1 }

/-- A block whose chain of predecessors became complete. -/
def linkBlock : ChainState ι :=
  if notWorseThanTip T (linkEntry T s pindex) pindex then
    (linkEntry T s pindex).addCandidate pindex
  else linkEntry T s pindex

def linkBlocks : ℕ → List ι → ChainState ι → ChainState ι
  | 0, _, s => s
  | _ + 1, [], s => s
  | n + 1, pindex :: queue, s =>
    let s := linkBlock T s pindex
    linkBlocks n (queue ++ (s.m_blocks_unlinked.filter (·.1 = pindex)).map Prod.snd)
      { s with m_blocks_unlinked := s.m_blocks_unlinked.filter (·.1 ≠ pindex) }

def BlockEntry.received (e : BlockEntry) (nTx nFile : ℕ) : BlockEntry :=
  BlockEntry.raiseValidity { e with
    nTx := nTx
    nChainTx := 0
    nFile := nFile
    nStatus := { e.nStatus with haveData := true } } .transactions

def receivedBlockTransactions (pindexNew : ι) (nTx nFile : ℕ) : ChainState ι :=
  let s := s.modify pindexNew (·.received nTx nFile)
  match T.parent pindexNew with
  | none => linkBlocks T (s.m_blocks_unlinked.length + 1) [pindexNew] s
  | some pprev =>
    if (s.index pprev).haveTxsDownloaded then
      linkBlocks T (s.m_blocks_unlinked.length + 1) [pindexNew] s
    else if (s.index pprev).isValid .tree then
      { s with m_blocks_unlinked := s.m_blocks_unlinked ++ [(pprev, pindexNew)] }
    else s

def minBlocksToKeep : ℕ := 288

/-- A block handed to `AcceptBlock`: whether it was requested, its number of transactions, what
`CheckBlock` and `ContextualCheckBlock` say, and the file it is saved to, if it is. -/
structure BlockArrival where
  fRequested : Bool
  nTx : ℕ
  check : Except BlockInvalid Unit
  saved : Option ℕ

/-- The early exits for blocks that are not processed. -/
def skipsBlock (fRequested : Bool) : Bool :=
  let fHasMoreOrSameWork := match s.tip with
    | none => true
    | some tip => decide (T.nChainWork tip ≤ T.nChainWork pindex)
  let fTooFarAhead := match s.tip with
    | none => decide (minBlocksToKeep ≤ T.height pindex)
    | some tip => decide (T.height tip + minBlocksToKeep < T.height pindex)
  (s.index pindex).nStatus.haveData ||
    (!fRequested && (decide ((s.index pindex).nTx ≠ 0) || !fHasMoreOrSameWork || fTooFarAhead ||
      decide (T.nChainWork pindex < T.nMinimumChainWork)))

def acceptBlock (s : ChainState ι) (pindex : ι)
    (checkBlockHeader contextualCheckBlockHeader : Except BlockInvalid Unit)
    (block : BlockArrival) : Bool × ChainState ι :=
  match acceptBlockHeader T s pindex checkBlockHeader contextualCheckBlockHeader with
  | (.error _, s) => (false, s)
  | (.ok (), s) =>
    if skipsBlock T s pindex block.fRequested then (true, s)
    else
      match block.check with
      | .error e =>
        if e.result ≠ .mutated then (false, s.setFailedValid pindex) else (false, s)
      | .ok () =>
        match block.saved with
        | none => (false, s)
        | some nFile => (true, receivedBlockTransactions T s pindex block.nTx nFile)

end Accept

section Failed
variable (T : BlockTree ι)

def onBranch (b : ι) : Option ι → Bool
  | none => false
  | some best => T.ancestorAt best (T.height b) = some b

variable (s : ChainState ι)

def invalidChainFound (pindexNew : ι) : ChainState ι :=
  { s with
    pindexBestInvalid :=
      if moreWork T pindexNew s.pindexBestInvalid then some pindexNew else s.pindexBestInvalid
    pindexBestHeader :=
      if onBranch T pindexNew s.pindexBestHeader then s.tip else s.pindexBestHeader }

variable (pindex : ι)

def invalidBlockFound (state : BlockInvalid) : ChainState ι :=
  if state.result ≠ .mutated then
    invalidChainFound T (((s.setFailedValid pindex).addFailed pindex).eraseCandidate pindex) pindex
  else s

/-- A failed block that is found to be no longer failed. -/
def resetEntry (b : ι) : ChainState ι :=
  let s := s.clearFailed b
  if (s.index b).isValid && (s.index b).haveTxsDownloaded && betterThanTip T s b then
    s.addCandidate b
  else s

/-- The body of the loop of `ResetBlockFailureFlags` over the block index. -/
def resetDescendant (s : ChainState ι) (b : ι) : ChainState ι :=
  if !(s.index b).isValid && T.ancestorAt b (T.height pindex) = some pindex then
    let s := resetEntry T s b
    { s with pindexBestInvalid :=
        if s.pindexBestInvalid = some b then none else s.pindexBestInvalid }.eraseFailed b
  else s

def resetAncestor (b : ι) : ChainState ι :=
  if (s.index b).nStatus.failed then (s.clearFailed b).eraseFailed b else s

def resetBlockFailureFlags : ChainState ι :=
  (T.path pindex).foldl resetAncestor (s.m_block_index.foldl (resetDescendant T pindex) s)

end Failed

end Palladium.Validation
