import Palladium.Validation.MaintainedIndex

/-! # Loading the block index

`WriteBatchSync` stores an entry without the fields that are in memory only, `LoadBlockIndexGuts`
reads the entries back in the order of the database, and one pass of `LoadBlockIndex` over the
blocks sorted by height computes the other fields and the two sets again.
-/

namespace Palladium.Validation
open Function List Option

/-- The record of an entry in the database. -/
structure CDiskBlockIndex where
  nHeight : ℕ
  nStatus : BlockStatus
  optWitness : Bool
  nTx : ℕ
  nFile : ℕ
  nDataPos : ℕ
  nUndoPos : ℕ
  header : BlockHeader
  deriving DecidableEq, Repr

/-- What is written for an entry; positions in files that do not exist are left out. -/
def IndexEntry.toDisk (e : IndexEntry) : CDiskBlockIndex where
  nHeight := e.nHeight
  nStatus := e.nStatus
  optWitness := e.optWitness
  nTx := e.nTx
  nFile := if e.nStatus.haveData || e.nStatus.haveUndo then e.nFile else 0
  nDataPos := if e.nStatus.haveData then e.nDataPos else 0
  nUndoPos := if e.nStatus.haveUndo then e.nUndoPos else 0
  header := e.getBlockHeader

def IndexEntry.read (e : IndexEntry) (diskindex : CDiskBlockIndex) (pprev : Option Uint256) :
    IndexEntry :=
  { e with
    pprev := pprev
    nHeight := diskindex.nHeight
    nFile := diskindex.nFile
    nDataPos := diskindex.nDataPos
    nUndoPos := diskindex.nUndoPos
    nVersion := diskindex.header.nVersion
    hashMerkleRoot := diskindex.header.hashMerkleRoot
    nTime := diskindex.header.nTime
    nBits := diskindex.header.nBits
    nNonce := diskindex.header.nNonce
    nStatus := diskindex.nStatus
    optWitness := diskindex.optWitness
    nTx := diskindex.nTx }

abbrev CBlockTreeDB := Uint256 → Option CDiskBlockIndex

variable (s : NodeIndex)

def writeBatchSync (db : CBlockTreeDB) (blockinfo : List Uint256) : CBlockTreeDB :=
  blockinfo.foldl (fun db b => Function.update db b (some (s.index b).toDisk)) db

section Load
variable (getHash : BlockHeader → Uint256) (params : Params)

/-- The entry of a hash, which is created if there is none; null for the null hash. -/
def insertBlockIndex (s : NodeIndex) (hash : Uint256) : Option Uint256 × NodeIndex :=
  if hash = 0 then (none, s)
  else if hash ∈ s.m_block_index then (some hash, s)
  else (some hash, { s with
    m_block_index := s.m_block_index ++ [hash]
    index := Function.update s.index hash {} })

def loadRecord (s : NodeIndex) (diskindex : CDiskBlockIndex) : Option NodeIndex :=
  match insertBlockIndex s (getHash diskindex.header) with
  | (none, _) => none
  | (some pindexNew, s) =>
    let (pprev, s) := insertBlockIndex s diskindex.header.hashPrevBlock
    let s := s.modify pindexNew (·.read diskindex pprev)
    if checkProofOfWork pindexNew (s.index pindexNew).nBits params then some s else none

def loadBlockIndexGuts (db : CBlockTreeDB) (cursor : List Uint256) (s : NodeIndex) :
    Option NodeIndex :=
  cursor.foldlM (fun s key => (db key).bind (loadRecord getHash params s)) s

end Load

/-- A block that has not failed itself gets `BLOCK_FAILED_CHILD` on top of a failed block. -/
def BlockStatus.inheritFailed (st : BlockStatus) (prevFailed : Bool) : BlockStatus :=
  if !st.failed && prevFailed then { st with failedChild := true } else st

/-- The fields that are computed from those of the predecessor. -/
def IndexEntry.derive (e : IndexEntry) (pprev : Option IndexEntry) : IndexEntry :=
  { e with
    nChainWork := pprev.elim 0 (·.nChainWork) + getBlockProof e
    nTimeMax := pprev.elim e.nTime fun p => max p.nTimeMax e.nTime
    nChainTx :=
      if 0 < e.nTx then
        match pprev with
        | some p => if p.haveTxsDownloaded then (p.nChainTx + e.nTx) % 2 ^ 32 else 0
        | none => e.nTx
      else e.nChainTx
    nStatus := e.nStatus.inheritFailed (pprev.any (·.nStatus.failed)) }

def loadBlock (b : Uint256) : NodeIndex :=
  let old := s.index b
  let e := old.derive (old.pprev.map s.index)
  let s' := s.modify b fun _ => { e with pskip := if e.pprev.isSome then s.skipOf b else e.pskip }
  { s' with
    m_blocks_unlinked :=
      match e.pprev with
      | some pprev =>
        if 0 < e.nTx && !(s.index pprev).haveTxsDownloaded then s.m_blocks_unlinked ++ [(pprev, b)]
        else s.m_blocks_unlinked
      | none => s.m_blocks_unlinked
    setDirtyBlockIndex :=
      if e.nStatus ≠ old.nStatus then insert b s.setDirtyBlockIndex else s.setDirtyBlockIndex
    setBlockIndexCandidates :=
      if e.isValid .transactions && (e.haveTxsDownloaded || e.pprev.isNone) then
        insert b s.setBlockIndexCandidates
      else s.setBlockIndexCandidates
    pindexBestInvalid :=
      if e.nStatus.failed &&
          s.pindexBestInvalid.all fun best => (s.index best).nChainWork < e.nChainWork then some b
      else s.pindexBestInvalid
    pindexBestHeader :=
      if e.isValid .tree && s.pindexBestHeader.all fun best => s'.workLess best b then some b
      else s.pindexBestHeader }

/-- The blocks by height, and blocks of one height by the addresses of their entries. -/
def vSortedByHeight : List Uint256 :=
  s.m_block_index.insertionSort fun a b =>
    toLex ((s.index a).nHeight, s.address a) ≤ toLex ((s.index b).nHeight, s.address b)

def loadBlockIndex : NodeIndex := (vSortedByHeight s).foldl loadBlock s

section Read
variable {getHash : BlockHeader → Uint256} {params : Params} {s₀ s : NodeIndex}

theorem writeBatchSync_apply (db : CBlockTreeDB) (blockinfo : List Uint256) (b : Uint256) :
    writeBatchSync s db blockinfo b =
      if b ∈ blockinfo then some (s.index b).toDisk else db b := by
  induction blockinfo generalizing db with
  | nil => simp [writeBatchSync]
  | cons a l ih =>
    have hco : writeBatchSync s db (a :: l) =
        writeBatchSync s (Function.update db a (some (s.index a).toDisk)) l := rfl
    rw [hco, ih]
    by_cases hl : b ∈ l
    · simp [hl]
    · by_cases ha : b = a
      · subst ha
        simp [hl]
      · simp [hl, ha]

def IndexEntry.stored (e : IndexEntry) : IndexEntry := IndexEntry.read {} e.toDisk e.pprev

theorem insertBlockIndex_eq {hash : Uint256} (hne : hash ≠ 0)
    (hf : ∀ b ∉ s.m_block_index, s.index b = {}) (hn : s.m_block_index.Nodup) :
    ∃ keys : List Uint256, insertBlockIndex s hash = (some hash, { s with m_block_index := keys }) ∧
      keys.Nodup ∧ ∀ b, b ∈ keys ↔ b ∈ s.m_block_index ∨ b = hash := by
  unfold insertBlockIndex
  rw [if_neg hne]
  split_ifs with hme
  · exact ⟨s.m_block_index, rfl, hn, fun b => by grind⟩
  · refine ⟨s.m_block_index ++ [hash], ?_, ?_, fun b => by simp⟩
    · rw [update_eq_self_iff.mpr (hf hash hme).symm]
    · rw [nodup_append]
      exact ⟨hn, nodup_singleton _, by grind⟩

structure Read (init s₀ s : NodeIndex) (done : List Uint256) : Prop where
  eq_init : s = { init with m_block_index := s.m_block_index, index := s.index }
  nodup : s.m_block_index.Nodup
  subset : ∀ b ∈ s.m_block_index, b ∈ s₀.m_block_index
  done_mem : ∀ b ∈ done, b ∈ s.m_block_index
  index : s.index = fun b => if b ∈ done then (s₀.index b).stored else {}

theorem Read.step {init : NodeIndex} {done : List Uint256} {b : Uint256}
    (hm : Maintained getHash params s₀) (hl : Linked s₀) (h : Read init s₀ s done)
    (hb : b ∈ s₀.m_block_index) (hn : b ∉ done) :
    ∃ s', loadRecord getHash params s (s₀.index b).toDisk = some s' ∧
      Read init s₀ s' (done ++ [b]) := by
  have hne : ∀ a ∈ s₀.m_block_index, a ≠ 0 := fun a ha h0 => hm.hash_ne_zero (h0 ▸ ha)
  have hf : ∀ a ∉ s.m_block_index, s.index a = {} := by
    intro a ha
    rw [h.index]
    exact if_neg fun hd => ha (h.done_mem a hd)
  obtain ⟨keys, he, hk, hme⟩ := insertBlockIndex_eq (hne b hb) hf h.nodup
  -- the entry of the predecessor
  obtain ⟨keys', he', hk', hme', hsu⟩ : ∃ keys' : List Uint256,
      insertBlockIndex { s with m_block_index := keys } ((s₀.index b).pprev.getD 0) =
        ((s₀.index b).pprev, { s with m_block_index := keys' }) ∧ keys'.Nodup ∧
      (∀ a ∈ keys, a ∈ keys') ∧ ∀ a ∈ keys', a ∈ keys ∨ a ∈ s₀.m_block_index := by
    cases hp : (s₀.index b).pprev with
    | none => exact ⟨keys, by simp [insertBlockIndex], hk, fun _ => id, fun _ => .inl⟩
    | some p =>
      have hps := hl.parent_mem b hb p hp
      obtain ⟨keys', he', hk', hme'⟩ := insertBlockIndex_eq
        (s := { s with m_block_index := keys }) (hne p hps)
        (fun a ha => hf a fun hs => ha ((hme a).mpr (.inl hs))) hk
      refine ⟨keys', he', hk', fun a ha => (hme' a).mpr (.inl ha), fun a ha => ?_⟩
      rcases (hme' a).mp ha with ha | rfl
      · exact .inl ha
      · exact .inr hps
  have hb0 : s.index b = {} := by
    rw [h.index]
    exact if_neg hn
  refine ⟨{ s with
    m_block_index := keys'
    index := Function.update s.index b (s₀.index b).stored }, ?_, ?_, hk', ?_, ?_, ?_⟩
  · have hh : getHash (s₀.index b).toDisk.header = b := hm.hash b hb
    have hpo : checkProofOfWork b (s₀.index b).stored.nBits params := hm.proofOfWork b hb
    have hpr : (s₀.index b).toDisk.header.hashPrevBlock = (s₀.index b).pprev.getD 0 := rfl
    unfold loadRecord
    rw [hh, he]
    dsimp only
    rw [hpr, he']
    simp only [NodeIndex.modify, hb0, update_self]
    exact if_pos hpo
  · rw [h.eq_init]
  · intro a ha
    rcases hsu a ha with ha | ha
    · rcases (hme a).mp ha with ha | rfl
      · exact h.subset a ha
      · exact hb
    · exact ha
  · intro a ha
    rw [mem_append, mem_singleton] at ha
    exact hme' a ((hme a).mpr (ha.imp (h.done_mem a) id))
  · funext a
    by_cases hab : a = b
    · subst hab
      simp
    · show Function.update s.index b _ a = _
      rw [update_of_ne hab, h.index]
      simp [hab]

theorem Read.run {init : NodeIndex} {l done : List Uint256} (hm : Maintained getHash params s₀)
    (hl : Linked s₀) (h : Read init s₀ s done) (hn : (done ++ l).Nodup)
    (hme : ∀ b ∈ l, b ∈ s₀.m_block_index) :
    ∃ s', loadBlockIndexGuts getHash params (writeBatchSync s₀ (fun _ => none) s₀.m_block_index)
      l s = some s' ∧ Read init s₀ s' (done ++ l) := by
  induction l generalizing done s with
  | nil => exact ⟨s, rfl, by rwa [append_nil]⟩
  | cons b l ih =>
    have hb := hme b mem_cons_self
    have hnw : b ∉ done := fun hd => by
      rw [nodup_append] at hn
      exact hn.2.2 b hd b mem_cons_self rfl
    obtain ⟨s₁, hs₁, h₁⟩ := h.step hm hl hb hnw
    obtain ⟨s₂, hs₂, h₂⟩ := ih h₁ (by simpa using hn)
      fun a ha => hme a (mem_cons_of_mem _ ha)
    refine ⟨s₂, ?_, by simpa using h₂⟩
    unfold loadBlockIndexGuts at hs₂ ⊢
    rw [foldlM_cons, writeBatchSync_apply, if_pos hb]
    exact (congrArg (Option.bind · _) hs₁).trans hs₂

end Read

section Pass
variable {getHash : BlockHeader → Uint256} {params : Params} {s₀ loaded s : NodeIndex}
  {b : Uint256} {done : List Uint256}

def NodeIndex.anyFailed (s : NodeIndex) (b : Uint256) : Bool :=
  (s.path b).any fun a => (s.index a).nStatus.failed

/-- What an entry is after the pass. -/
def NodeIndex.restored (s : NodeIndex) (b : Uint256) : IndexEntry :=
  let e := s.index b
  { e.stored with
    pskip := e.pskip
    nChainWork := e.nChainWork
    nTimeMax := e.nTimeMax
    nChainTx := e.nChainTx
    nStatus := e.nStatus.inheritFailed (s.anyFailed b) }

@[simp] theorem failed_inheritFailed (st : BlockStatus) (prevFailed : Bool) :
    (st.inheritFailed prevFailed).failed = (st.failed || prevFailed) := by
  unfold BlockStatus.inheritFailed
  cases hf : st.failed <;> cases prevFailed <;> simp_all [BlockStatus.failed]

theorem inheritFailed_or_failed (st : BlockStatus) (prevFailed : Bool) :
    st.inheritFailed (st.failed || prevFailed) = st.inheritFailed prevFailed := by
  unfold BlockStatus.inheritFailed
  cases st.failed <;> simp

theorem restored_failed (s : NodeIndex) (b : Uint256) :
    (s.restored b).nStatus.failed = s.anyFailed b := by
  have hs : (s.index b).nStatus.failed = true → s.anyFailed b = true := fun h =>
    any_eq_true.mpr ⟨b, NodeIndex.self_mem_path s b, h⟩
  simpa [NodeIndex.restored] using hs

theorem Linked.anyFailed_child (hl : Linked s) {p : Uint256} (hb : b ∈ s.m_block_index)
    (h : (s.index b).pprev = some p) :
    s.anyFailed b = ((s.index b).nStatus.failed || s.anyFailed p) := by
  unfold NodeIndex.anyFailed
  rw [hl.path_child hb h, any_cons]

theorem derive_stored (hm : Maintained getHash params s₀)
    (hc : ∀ b ∈ s₀.m_block_index, BlockChecks params s₀ b) (hb : b ∈ s₀.m_block_index) :
    { (s₀.index b).stored.derive ((s₀.index b).pprev.map s₀.restored) with
      pskip := (s₀.index b).pskip } = s₀.restored b := by
  have hl := linked_of_checks hc
  have hw : ((s₀.index b).stored.derive ((s₀.index b).pprev.map s₀.restored)).nChainWork =
      (s₀.index b).nChainWork := by
    rw [hm.nChainWork b hb]
    cases (s₀.index b).pprev <;> rfl
  have ht : ((s₀.index b).stored.derive ((s₀.index b).pprev.map s₀.restored)).nTimeMax =
      (s₀.index b).nTimeMax := by
    rw [hm.nTimeMax b hb]
    cases (s₀.index b).pprev <;> rfl
  have htx : ((s₀.index b).stored.derive ((s₀.index b).pprev.map s₀.restored)).nChainTx =
      (s₀.index b).nChainTx := by
    have hv := hm.nChainTx b hb
    have hz : (s₀.index b).haveTxsDownloaded ≠ true → (s₀.index b).nChainTx = 0 := by
      simp [BlockEntry.haveTxsDownloaded]
    cases hp : (s₀.index b).pprev with
    | none =>
      have hh := haveTxsDownloaded_root hc hb hp
      show (if 0 < (s₀.index b).nTx then (s₀.index b).nTx else 0) = _
      split
      next h => rw [hv (hh.mpr h), hp]
      next h => exact (hz fun h' => h (hh.mp h')).symm
    | some p =>
      have hh := haveTxsDownloaded_child hc hb hp
      show (if 0 < (s₀.index b).nTx then (if (s₀.index p).haveTxsDownloaded then
        ((s₀.index p).nChainTx + (s₀.index b).nTx) % 2 ^ 32 else 0) else 0) = _
      split_ifs with h h'
      · rw [hv (hh.mpr ⟨h, h'⟩), hp]
      · exact (hz fun h'' => h' (hh.mp h'').2).symm
      · exact (hz fun h'' => h (hh.mp h'').1).symm
  have hs : ((s₀.index b).stored.derive ((s₀.index b).pprev.map s₀.restored)).nStatus =
      (s₀.restored b).nStatus := by
    cases hp : (s₀.index b).pprev with
    | none =>
      have ha : s₀.anyFailed b = ((s₀.index b).nStatus.failed || false) := by
        simp [NodeIndex.anyFailed, NodeIndex.path_root hp]
      simp only [NodeIndex.restored, ha, inheritFailed_or_failed]
      rfl
    | some p =>
      simp only [IndexEntry.derive, map_some, any_some, restored_failed]
      simp only [NodeIndex.restored, hl.anyFailed_child hb hp, inheritFailed_or_failed]
      rfl
  simp only [IndexEntry.derive] at hw ht htx hs ⊢
  rw [hw, ht, htx, hs]
  rfl

/-- The loop has gone through some blocks, those before them in the order included. -/
structure Loading (s₀ loaded s : NodeIndex) (done : List Uint256) : Prop where
  keys : s.m_block_index = loaded.m_block_index
  address : s.address = loaded.address
  fHavePruned : s.fHavePruned = loaded.fHavePruned
  index : s.index = fun b => if b ∈ done then s₀.restored b else loaded.index b
  candidates : ∀ b, b ∈ s.setBlockIndexCandidates ↔ b ∈ done ∧
    (s₀.restored b).isValid = true ∧
      ((s₀.index b).haveTxsDownloaded = true ∨ (s₀.index b).pprev = none)
  unlinked : ∀ p b, (p, b) ∈ s.m_blocks_unlinked ↔ b ∈ done ∧ (s₀.index b).pprev = some p ∧
    0 < (s₀.index b).nTx ∧ (s₀.index p).haveTxsDownloaded = false

section Loading
variable (hm : Maintained getHash params s₀) (hc : ∀ b ∈ s₀.m_block_index, BlockChecks params s₀ b)
  (hstored : ∀ b ∈ s₀.m_block_index, loaded.index b = (s₀.index b).stored)
include hm hc hstored

theorem Loading.step (h : Loading s₀ loaded s done) (hb : b ∈ s₀.m_block_index) (hnw : b ∉ done)
    (hlo : ∀ a ∈ s₀.m_block_index, (s₀.index a).nHeight < (s₀.index b).nHeight → a ∈ done) :
    Loading s₀ loaded (loadBlock s b) (done ++ [b]) := by
  have hl := linked_of_checks hc
  have hi : ∀ a ∈ s₀.m_block_index, s.index a =
      if a ∈ done then s₀.restored a else (s₀.index a).stored := by
    intro a ha
    rw [h.index, ← hstored a ha]
  have hs : s.index b = (s₀.index b).stored := by rw [hi b hb, if_neg hnw]
  have hpr : (s₀.index b).pprev.map s.index = (s₀.index b).pprev.map s₀.restored := by
    cases hp : (s₀.index b).pprev with
    | none => rfl
    | some p =>
      have hpm := hl.parent_mem b hb p hp
      have hlt := hl.height_parent b hb p hp
      rw [map_some, map_some, hi p hpm, if_pos (hlo p hpm (by omega))]
  have hsk : s.skipOf b = (s₀.index b).pskip := by
    rw [hm.pskip b hb]
    refine hm.skipOf_congr hl hb (fun a ha => ?_) (fun a ha => ?_) fun a ha hlt => ?_
    · rw [hi a ha]; split <;> rfl
    · rw [hi a ha]; split <;> rfl
    · rw [hi a ha, if_pos (hlo a ha hlt)]; rfl
  -- the entry that is written
  obtain ⟨e, he⟩ : ∃ e, e = (s.index b).derive ((s.index b).pprev.map s.index) := ⟨_, rfl⟩
  have hpp : (s.index b).pprev = (s₀.index b).pprev := by rw [hs]; rfl
  have hd : { e with pskip := (s₀.index b).pskip } = s₀.restored b := by
    rw [he, hpp, hpr, hs]
    exact derive_stored hm hc hb
  have hen : { e with pskip := if e.pprev.isSome then s.skipOf b else e.pskip } =
      s₀.restored b := by
    rw [← hd]
    cases hp : e.pprev with
    | none =>
      have hn : (s₀.index b).pskip = none := by
        have : (s₀.index b).pprev = none := by rw [← hpp, ← hp, he]; rfl
        rw [hm.pskip b hb, NodeIndex.skipOf, this]
        rfl
      have : e.pskip = none := by rw [he, hs]; rfl
      rw [hn, this]
      rfl
    | some p =>
      rw [hsk]
      rfl
  have hv : e.isValid .transactions = (s₀.restored b).isValid := by rw [← hd]
  have ht : e.haveTxsDownloaded = (s₀.index b).haveTxsDownloaded := by
    have : e.nChainTx = (s₀.restored b).nChainTx := by rw [← hd]
    unfold BlockEntry.haveTxsDownloaded
    rw [this]
    rfl
  have hep : e.pprev = (s₀.index b).pprev := by rw [he, ← hpp]; rfl
  have het : e.nTx = (s₀.index b).nTx := by rw [he, hs]; rfl
  have hpt : ∀ p, (s₀.index b).pprev = some p →
      (s.index p).haveTxsDownloaded = (s₀.index p).haveTxsDownloaded := by
    intro p hp
    have := hpr
    rw [hp, map_some, map_some, Option.some.injEq] at this
    rw [this]
    rfl
  unfold loadBlock
  dsimp only
  rw [← he]
  constructor
  · exact h.keys
  · exact h.address
  · exact h.fHavePruned
  · funext a
    show Function.update s.index b _ a = _
    by_cases hab : a = b
    · subst hab
      rw [update_self, hen, if_pos (by simp)]
    · rw [update_of_ne hab, h.index]
      simp [hab]
  · intro a
    dsimp only
    rw [hv, ht, hep]
    by_cases hab : a = b
    · subst hab
      have hno : a ∉ s.setBlockIndexCandidates := fun hme => hnw ((h.candidates a).mp hme).1
      split_ifs with hco <;> simp_all
    · have his : a ∈ (if (s₀.restored b).isValid && ((s₀.index b).haveTxsDownloaded ||
          (s₀.index b).pprev.isNone) then insert b s.setBlockIndexCandidates
          else s.setBlockIndexCandidates) ↔ a ∈ s.setBlockIndexCandidates := by
        split_ifs <;> simp [hab]
      rw [his, h.candidates]
      simp [hab]
  · intro p a
    dsimp only
    rw [hep, het]
    cases hp : (s₀.index b).pprev with
    | none =>
      dsimp only
      rw [h.unlinked]
      by_cases hab : a = b
      · subst hab
        simp [hp, hnw]
      · simp [hab]
    | some q =>
      dsimp only
      rw [hpt q hp]
      by_cases hab : a = b
      · subst hab
        have hno : (p, a) ∉ s.m_blocks_unlinked := fun hme => hnw ((h.unlinked p a).mp hme).1
        split_ifs with hco <;> simp_all <;> grind
      · split_ifs <;> simp [hab, h.unlinked]

theorem Loading.run {l : List Uint256} (h : Loading s₀ loaded s done)
    (hp : (done ++ l).Perm s₀.m_block_index)
    (hs : (done ++ l).Pairwise fun a b => (s₀.index a).nHeight ≤ (s₀.index b).nHeight) :
    Loading s₀ loaded (l.foldl loadBlock s) (done ++ l) := by
  induction l generalizing done s with
  | nil => simpa using h
  | cons b l ih =>
    have hb : b ∈ s₀.m_block_index := hp.mem_iff.mp (by simp)
    have hnw : b ∉ done := fun hd => by
      have hn := hp.nodup_iff.mpr hm.nodup
      rw [nodup_append] at hn
      exact hn.2.2 b hd b mem_cons_self rfl
    have hl : ∀ a ∈ s₀.m_block_index, (s₀.index a).nHeight < (s₀.index b).nHeight → a ∈ done := by
      intro a ha hlt
      rcases mem_append.mp (hp.mem_iff.mpr ha) with hd | ha
      · exact hd
      · rcases mem_cons.mp ha with rfl | ha
        · omega
        · have := (pairwise_cons.mp (pairwise_append.mp hs).2.1).1 a ha
          omega
    have := ih (h.step hm hc hstored hb hnw hl) (by simpa using hp) (by simpa using hs)
    simpa using this

end Loading

theorem vSortedByHeight_perm (s : NodeIndex) : (vSortedByHeight s).Perm s.m_block_index :=
  perm_insertionSort _ _

theorem vSortedByHeight_sorted (s : NodeIndex) :
    (vSortedByHeight s).Pairwise fun a b => (s.index a).nHeight ≤ (s.index b).nHeight := by
  let key : Uint256 → ℕ ×ₗ ℕ := fun a => toLex ((s.index a).nHeight, s.address a)
  have ht : Std.Total (fun a b => key a ≤ key b) := ⟨fun a b => le_total (key a) (key b)⟩
  have htr : IsTrans Uint256 (fun a b => key a ≤ key b) := ⟨fun _ _ _ => le_trans⟩
  have hs := pairwise_insertionSort (fun a b => key a ≤ key b) s.m_block_index
  refine hs.imp fun {a b} ha => ?_
  exact Prod.Lex.monotone_fst _ _ ha

end Pass

end Palladium.Validation
