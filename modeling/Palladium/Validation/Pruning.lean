import Mathlib
import Palladium.Primitives.Transaction
import Palladium.Validation.HeaderAcceptance

/-! # Pruning block files

The height up to which files are pruned is an unsigned difference, which wraps for short chains.
-/

namespace Palladium.Validation
open List

/-- The numbers are of 32 bits. -/
structure CBlockFileInfo where
  nSize : ℕ := 0
  nUndoSize : ℕ := 0
  nHeightLast : ℕ := 0
  deriving DecidableEq, Repr

namespace CBlockFileInfo

def nBytes (info : CBlockFileInfo) : ℕ := (info.nSize + info.nUndoSize) % 2 ^ 32

end CBlockFileInfo

def nPruneAfterHeight : Network → ℕ
  | .main => 100000
  | .test => 1000
  | .regtest => 1000

def blockFileChunkSize : ℕ := 0x1000000

def undoFileChunkSize : ℕ := 0x100000

structure BlockFiles (ι : Type*) where
  chain : ChainState ι
  vinfoBlockFile : List CBlockFileInfo
  nLastBlockFile : ℕ

def BlockEntry.pruned (e : BlockEntry) : BlockEntry :=
  { e with nStatus := { e.nStatus with haveData := false, haveUndo := false }, nFile := 0 }

variable {ι : Type*} [LinearOrder ι] (T : BlockTree ι)

def BlockFiles.info (st : BlockFiles ι) (fileNumber : ℕ) : CBlockFileInfo :=
  st.vinfoBlockFile.getD fileNumber {}

def pruneEntry (fileNumber : ℕ) (s : ChainState ι) (pindex : ι) : ChainState ι :=
  if (s.index pindex).nFile = fileNumber then
    { s.modify pindex BlockEntry.pruned with
      m_blocks_unlinked := s.m_blocks_unlinked.filter fun entry =>
        !(T.parent pindex = some entry.1 && entry.2 = pindex) }
  else s

def pruneOneBlockFile (fileNumber : ℕ) (st : BlockFiles ι) : BlockFiles ι :=
  { st with
    chain := st.chain.m_block_index.foldl (pruneEntry T fileNumber) st.chain
    vinfoBlockFile := st.vinfoBlockFile.set fileNumber {} }

/-- The difference of the height of the tip and `MIN_BLOCKS_TO_KEEP`, as an unsigned number. -/
def lastBlockWeCanPrune (nHeight : ℕ) : ℕ := (((nHeight : ℤ) - minBlocksToKeep) % 2 ^ 32).toNat

def pruneFileManual (nLastBlockWeCanPrune : ℕ) (st : BlockFiles ι × Finset ℕ) (fileNumber : ℕ) :
    BlockFiles ι × Finset ℕ :=
  if (st.1.info fileNumber).nSize = 0 ∨ (st.1.info fileNumber).nHeightLast > nLastBlockWeCanPrune then st
  else (pruneOneBlockFile T fileNumber st.1, insert fileNumber st.2)

def manualPruneLimit (nManualPruneHeight nHeight : ℕ) : ℕ :=
  min (nManualPruneHeight % 2 ^ 32) (lastBlockWeCanPrune nHeight)

def findFilesToPruneManual (fPruneMode : Bool) (nManualPruneHeight : ℕ) (st : BlockFiles ι) :
    Except Halt (BlockFiles ι × Finset ℕ) :=
  if fPruneMode && 0 < nManualPruneHeight then
    match st.chain.tip with
    | none => .ok (st, ∅)
    | some tip => .ok <| (List.range st.nLastBlockFile).foldl
        (pruneFileManual T (manualPruneLimit nManualPruneHeight (T.height tip))) (st, ∅)
  else .error .assertion

def calculateCurrentUsage (st : BlockFiles ι) : ℕ :=
  st.vinfoBlockFile.foldl (fun retval file => (retval + file.nBytes) % 2 ^ 64) 0

def pruneFiles (nPruneTarget nBuffer nLastBlockWeCanPrune : ℕ) :
    List ℕ → (nCurrentUsage : ℕ) → BlockFiles ι × Finset ℕ → BlockFiles ι × Finset ℕ
  | [], _, st => st
  | fileNumber :: files, nCurrentUsage, st =>
    let nBytesToPrune := (st.1.info fileNumber).nBytes
    if (st.1.info fileNumber).nSize = 0 then
      pruneFiles nPruneTarget nBuffer nLastBlockWeCanPrune files nCurrentUsage st
    else if (nCurrentUsage + nBuffer) % 2 ^ 64 < nPruneTarget then st
    else if (st.1.info fileNumber).nHeightLast > nLastBlockWeCanPrune then
      pruneFiles nPruneTarget nBuffer nLastBlockWeCanPrune files nCurrentUsage st
    else
      pruneFiles nPruneTarget nBuffer nLastBlockWeCanPrune files
        ((nCurrentUsage + 2 ^ 64 - nBytesToPrune) % 2 ^ 64)
        (pruneOneBlockFile T fileNumber st.1, insert fileNumber st.2)

def findFilesToPrune (nPruneAfterHeight nPruneTarget : ℕ) (isInitialBlockDownload : Bool)
    (st : BlockFiles ι) : BlockFiles ι × Finset ℕ :=
  match st.chain.tip with
  | none => (st, ∅)
  | some tip =>
    if nPruneTarget = 0 then (st, ∅)
    else if T.height tip ≤ nPruneAfterHeight then (st, ∅)
    else
      let nCurrentUsage := calculateCurrentUsage st
      let nBuffer := blockFileChunkSize + undoFileChunkSize
      if (nCurrentUsage + nBuffer) % 2 ^ 64 ≥ nPruneTarget then
        let nBuffer := if isInitialBlockDownload then (nBuffer + nPruneTarget / 10) % 2 ^ 64 else nBuffer
        pruneFiles T nPruneTarget nBuffer (lastBlockWeCanPrune (T.height tip))
          (List.range st.nLastBlockFile) nCurrentUsage (st, ∅)
      else (st, ∅)

variable {T} {s : ChainState ι} {st st' : BlockFiles ι} {b tip : ι} {fileNumber nLast : ℕ}

theorem pruneEntry_index (pindex : ι) : (pruneEntry T fileNumber s pindex).index b =
      if b = pindex ∧ (s.index b).nFile = fileNumber then (s.index b).pruned else s.index b := by
  unfold pruneEntry
  by_cases hb : b = pindex
  · subst hb
    by_cases hf : (s.index b).nFile = fileNumber
    · simp [hf]
    · simp [hf]
  · split
    · simp [hb, ChainState.modify_index_of_ne]
    · simp [hb]

theorem foldl_pruneEntry_index (l : List ι) : (l.foldl (pruneEntry T fileNumber) s).index b =
      if b ∈ l ∧ (s.index b).nFile = fileNumber then (s.index b).pruned else s.index b := by
  induction l generalizing s with
  | nil => simp
  | cons c l ih =>
    rw [foldl_cons, ih, pruneEntry_index]
    by_cases hb : b = c
    · subst hb
      by_cases hf : (s.index b).nFile = fileNumber <;> simp [hf, BlockEntry.pruned]
    · simp [hb]

theorem foldl_pruneEntry_m_block_index (l : List ι) :
    (l.foldl (pruneEntry T fileNumber) s).m_block_index = s.m_block_index := by
  refine List.foldlRecOn (motive := fun s' : ChainState ι => s'.m_block_index = s.m_block_index) l _ rfl ?_
  intro s' hs' pindex _
  unfold pruneEntry
  split <;> exact hs'

theorem pruneOneBlockFile_index : (pruneOneBlockFile T fileNumber st).chain.index b =
    if b ∈ st.chain.m_block_index ∧ (st.chain.index b).nFile = fileNumber then
      (st.chain.index b).pruned
    else st.chain.index b :=
  foldl_pruneEntry_index _

theorem info_pruneOneBlockFile {f : ℕ} (hn : f ≠ fileNumber) :
    (pruneOneBlockFile T fileNumber st).info f = st.info f := by
  simp only [BlockFiles.info, pruneOneBlockFile, getD_eq_getElem?_getD, getElem?_set_ne hn.symm]

/-- The active chain is in the index, and its blocks with data count in the heights of their files.
-/
structure HeightsRecorded (T : BlockTree ι) (st : BlockFiles ι) (tip : ι) : Prop where
  mem_block_index : ∀ b ∈ T.path tip, b ∈ st.chain.m_block_index
  le_nHeightLast : ∀ b ∈ T.path tip, (st.chain.index b).nStatus.haveData = true →
    T.height b ≤ (st.info (st.chain.index b).nFile).nHeightLast

/-- What pruning up to a height keeps. -/
structure KeepsAbove (T : BlockTree ι) (nLast : ℕ) (tip : ι) (st st' : BlockFiles ι) : Prop where
  recorded : HeightsRecorded T st' tip
  haveData : ∀ b ∈ T.path tip, nLast < T.height b → (st.chain.index b).nStatus.haveData = true →
    (st'.chain.index b).nStatus.haveData = true

omit [LinearOrder ι] in
theorem KeepsAbove.refl (h : HeightsRecorded T st tip) : KeepsAbove T nLast tip st st :=
  ⟨h, fun _ _ _ hd => hd⟩

theorem HeightsRecorded.prune (h : HeightsRecorded T st tip) (fileNumber : ℕ) :
    HeightsRecorded T (pruneOneBlockFile T fileNumber st) tip where
  mem_block_index b hb := by
    rw [pruneOneBlockFile, foldl_pruneEntry_m_block_index]
    exact h.mem_block_index b hb
  le_nHeightLast b hb hd := by
    have hm := h.mem_block_index b hb
    rw [pruneOneBlockFile_index] at hd ⊢
    by_cases hf : (st.chain.index b).nFile = fileNumber
    · rw [if_pos ⟨hm, hf⟩] at hd
      cases hd
    · rw [if_neg fun ha => hf ha.2] at hd ⊢
      rw [info_pruneOneBlockFile hf]
      exact h.le_nHeightLast b hb hd

theorem KeepsAbove.prune (h : KeepsAbove T nLast tip st st')
    (hf : (st'.info fileNumber).nHeightLast ≤ nLast) :
    KeepsAbove T nLast tip st (pruneOneBlockFile T fileNumber st') where
  recorded := h.recorded.prune fileNumber
  haveData b hb hheight hd := by
    have hd' := h.haveData b hb hheight hd
    have hn : (st'.chain.index b).nFile ≠ fileNumber := by
      rintro rfl
      exact absurd ((h.recorded.le_nHeightLast b hb hd').trans hf) (not_le.mpr hheight)
    rw [pruneOneBlockFile_index, if_neg fun ha => hn ha.2]
    exact hd'

variable {q : BlockFiles ι × Finset ℕ}

theorem KeepsAbove.pruneFileManual (h : KeepsAbove T nLast tip st q.1) (fileNumber : ℕ) :
    KeepsAbove T nLast tip st (pruneFileManual T nLast q fileNumber).1 := by
  unfold Validation.pruneFileManual
  split
  · exact h
  · next hp => exact h.prune (not_lt.mp (not_or.mp hp).2)

theorem KeepsAbove.pruneFiles (h : KeepsAbove T nLast tip st q.1) (nPruneTarget nBuffer : ℕ)
    (files : List ℕ) (nCurrentUsage : ℕ) :
    KeepsAbove T nLast tip st (pruneFiles T nPruneTarget nBuffer nLast files nCurrentUsage q).1 := by
  induction files generalizing nCurrentUsage q with
  | nil => exact h
  | cons fileNumber files ih =>
    unfold Validation.pruneFiles
    dsimp only
    split
    · exact ih h _
    · split
      · exact h
      · split
        · exact ih h _
        · next hp => exact ih (h.prune (not_lt.mp hp)) _

/-- Nothing near the tip is pruned, and nothing at all while the tip is not above a height. -/
structure PrunesSafely (T : BlockTree ι) (nMinHeight : ℕ) (tip : ι) (st : BlockFiles ι)
    (pruned : BlockFiles ι × Finset ℕ) : Prop where
  keeps_recent : ∀ b ∈ T.path tip, T.height tip < T.height b + minBlocksToKeep →
    (st.chain.index b).nStatus.haveData = true → (pruned.1.chain.index b).nStatus.haveData = true
  nothing_pruned : T.height tip ≤ nMinHeight → pruned = (st, ∅)

theorem lastBlockWeCanPrune_le {nHeight : ℕ} (h : minBlocksToKeep ≤ nHeight) :
    lastBlockWeCanPrune nHeight ≤ nHeight - minBlocksToKeep := by
  unfold lastBlockWeCanPrune
  have := Int.emod_nonneg ((nHeight : ℤ) - minBlocksToKeep) (by decide : (2 : ℤ) ^ 32 ≠ 0)
  omega

omit [LinearOrder ι] in
theorem KeepsAbove.keeps_recent (h : KeepsAbove T nLast tip st st')
    (hl : nLast + minBlocksToKeep ≤ T.height tip) :
    ∀ b ∈ T.path tip, T.height tip < T.height b + minBlocksToKeep →
      (st.chain.index b).nStatus.haveData → (st'.chain.index b).nStatus.haveData :=
  fun b hb hr => h.haveData b hb (by omega)

omit [LinearOrder ι] in
theorem prunesSafely_self (nMinHeight : ℕ) : PrunesSafely T nMinHeight tip st (st, ∅) :=
  ⟨fun _ _ _ hd => hd, fun _ => rfl⟩

theorem minBlocksToKeep_lt_nPruneAfterHeight (net : Network) :
    minBlocksToKeep < nPruneAfterHeight net := by
  cases net <;> decide

variable (htip : st.chain.tip = some tip) (hrec : HeightsRecorded T st tip)
include htip hrec

theorem findFilesToPrune_safe (net : Network) (nPruneTarget : ℕ) (isInitialBlockDownload : Bool) :
    PrunesSafely T (nPruneAfterHeight net) tip st
      (findFilesToPrune T (nPruneAfterHeight net) nPruneTarget isInitialBlockDownload st) := by
  unfold findFilesToPrune
  rw [htip]
  dsimp only
  split
  · exact prunesSafely_self _
  · split
    · exact prunesSafely_self _
    · next hh =>
      split
      · have hk := minBlocksToKeep_lt_nPruneAfterHeight net
        have hhi : minBlocksToKeep ≤ T.height tip := by omega
        have hl := lastBlockWeCanPrune_le hhi
        have hs : KeepsAbove T (lastBlockWeCanPrune (T.height tip)) tip st
            (st, (∅ : Finset ℕ)).1 := .refl hrec
        exact ⟨(hs.pruneFiles _ _ _ _).keeps_recent (by omega), fun hle => absurd hle hh⟩
      · exact prunesSafely_self _

theorem findFilesToPruneManual_safe {net : Network} (hh : nPruneAfterHeight net ≤ T.height tip)
    {nManualPruneHeight : ℕ} (hn : 0 < nManualPruneHeight) :
    ∃ pruned, findFilesToPruneManual T true nManualPruneHeight st = .ok pruned ∧
      PrunesSafely T minBlocksToKeep tip st pruned := by
  refine ⟨_, by simp only [findFilesToPruneManual, htip, hn]; rfl, ?_⟩
  have hk := minBlocksToKeep_lt_nPruneAfterHeight net
  have hla := lastBlockWeCanPrune_le (hk.le.trans hh)
  have hl : manualPruneLimit nManualPruneHeight (T.height tip) ≤
      lastBlockWeCanPrune (T.height tip) := min_le_right _ _
  have hka := List.foldlRecOn (motive := fun q : BlockFiles ι × Finset ℕ =>
    KeepsAbove T (manualPruneLimit nManualPruneHeight (T.height tip)) tip st q.1)
    (List.range st.nLastBlockFile) _ (b := (st, ∅)) (.refl hrec) fun q hq f _ => hq.pruneFileManual f
  exact ⟨hka.keeps_recent (by omega), fun hle => by omega⟩

/-- Automatic pruning is safe. So is manual pruning of a chain that `pruneblockchain` does not refuse
as too short. -/
theorem pruning_safe (net : Network) (nPruneTarget : ℕ) (isInitialBlockDownload : Bool) :
    PrunesSafely T (nPruneAfterHeight net) tip st
      (findFilesToPrune T (nPruneAfterHeight net) nPruneTarget isInitialBlockDownload st) ∧
    (nPruneAfterHeight net ≤ T.height tip → ∀ nManualPruneHeight, 0 < nManualPruneHeight →
      ∃ pruned, findFilesToPruneManual T true nManualPruneHeight st = .ok pruned ∧
        PrunesSafely T minBlocksToKeep tip st pruned) :=
  ⟨findFilesToPrune_safe htip hrec _ _ _,
    fun hh _ hn => findFilesToPruneManual_safe htip hrec hh hn⟩

omit htip hrec

def straightChain : BlockTree ℕ where
  parent b := if b = 0 then none else some (b - 1)
  height := id
  height_parent h := by
    split at h <;> cases h
    simp only [id]
    omega
  nChainWork := id
  nChainWork_parent h := by
    split at h <;> cases h
    simp only [id]
    omega
  hashGenesisBlock := 0
  parent_genesis := rfl
  nMinimumChainWork := 0

/-- Blocks up to height 1000 are in the first file. -/
def longStoredChain : BlockFiles ℕ where
  chain :=
    { ChainState.genesis straightChain with
      m_block_index := List.range 1401
      index := fun b => { nStatus := { haveData := true }, nFile := if b ≤ 1000 then 0 else 1 }
      tip := some 1400 }
  vinfoBlockFile := [{ nSize := 600, nHeightLast := 1000 }, { nSize := 600, nHeightLast := 1400 }]
  nLastBlockFile := 1

theorem heightsRecorded_longStoredChain : HeightsRecorded straightChain longStoredChain 1400 where
  mem_block_index b hb := by
    have hl : b ≤ 1400 := Forest.height_le hb
    simp only [longStoredChain, mem_range]
    omega
  le_nHeightLast b hb _ := by
    have hl : b ≤ 1400 := Forest.height_le hb
    change b ≤ (longStoredChain.info (if b ≤ 1000 then 0 else 1)).nHeightLast
    split
    · assumption
    · exact hl

/-- The first file is pruned, and the blocks near the tip stay. -/
theorem pruning_safe_longStoredChain :
    ∃ pruned, findFilesToPruneManual straightChain true 1200 longStoredChain = .ok pruned ∧
      pruned.2 = {0} ∧ (pruned.1.chain.index 1399).nStatus.haveData = true := by
  have ht : longStoredChain.chain.tip = some 1400 := rfl
  obtain ⟨pruned, hp, hs⟩ := (pruning_safe ht heightsRecorded_longStoredChain .regtest 0
    false).2 (by decide) 1200 (by decide)
  refine ⟨pruned, hp, ?_, hs.keeps_recent 1399 (Forest.parent_mem_path rfl) (by decide) rfl⟩
  have he : findFilesToPruneManual straightChain true 1200 longStoredChain =
      .ok (pruneOneBlockFile straightChain 0 longStoredChain, {0}) := rfl
  rw [he, Except.ok.injEq] at hp
  rw [← hp]

def twoStoredBlocks : BlockFiles (Fin 4) where
  chain :=
    { ChainState.genesis chainOfFour with
      m_block_index := [0, 1]
      index := fun _ => { nStatus := { haveData := true } }
      tip := some 1 }
  vinfoBlockFile := [{ nSize := 600, nHeightLast := 1 }, {}]
  nLastBlockFile := 1

theorem heightsRecorded_twoStoredBlocks : HeightsRecorded chainOfFour twoStoredBlocks 1 where
  mem_block_index := by decide
  le_nHeightLast := by decide

/-- Pruning up to height 1 takes the tip. -/
theorem manual_prunes_tip :
    HeightsRecorded chainOfFour twoStoredBlocks 1 ∧ twoStoredBlocks.chain.tip = some 1 ∧
      chainOfFour.height 1 = 1 ∧ (twoStoredBlocks.chain.index 1).nStatus.haveData = true ∧
      ∃ pruned, findFilesToPruneManual chainOfFour true 1 twoStoredBlocks = .ok pruned ∧
        pruned.2 = {0} ∧ (pruned.1.chain.index 1).nStatus.haveData = false :=
  ⟨heightsRecorded_twoStoredBlocks, rfl, rfl, rfl, _, rfl, by decide, by decide⟩

end Palladium.Validation
