import Palladium.Net.CompactBlockLookup
import Palladium.Validation.BlockMutation

/-! # Rebuilding a block from a compact block

With the transactions of the block that were not found, `FillBlock` gives the block up to witness
data, or it fails in a way that does not count against the peer.
-/

namespace Palladium.Net
open List PartiallyDownloadedBlock
section Found
variable {P : CTransaction → Prop}

def Found (P : CTransaction → Prop) (txnAvailable : List (Option CTransaction)) : Prop :=
  ∀ tx, some tx ∈ txnAvailable → P tx

variable {found : Option CTransaction} {i nShort pos : ℕ}
  {txnAvailable : List (Option CTransaction)} {s : Scan}

theorem Found.writeAt (h : Found P txnAvailable) (hf : ∀ tx ∈ found, P tx) :
    (writeAt txnAvailable i found).Meets (fun _ => True) (Found P) := by
  unfold Net.writeAt
  refine .ite (fun _ tx ht => ?_) fun _ => trivial
  rcases mem_or_eq_of_mem_set ht with hm | he
  · exact h tx hm
  · exact hf tx he.symm

theorem Found.prefill {ps : List PrefilledTransaction} {lastprefilledindex : ℤ}
    (h : Found P txnAvailable) (hp : ∀ p ∈ ps, P p.tx) :
    (prefill nShort ps i lastprefilledindex txnAvailable).Meets (fun _ => True) (Found P) := by
  induction ps generalizing i lastprefilledindex txnAvailable with
  | nil => exact h
  | cons p ps ih =>
    rw [forall_mem_cons] at hp
    unfold Net.prefill
    refine .ite (fun _ => trivial) fun _ => .ite (fun _ => trivial) fun _ =>
      .ite (fun _ => trivial) fun _ => .bind (h.writeAt ?_) fun _ h' => ih h' hp.2
    rintro tx ⟨⟩
    exact hp.1

theorem Found.scan {β : Type} {step : β → Scan → Except Exit Scan} {l : List β}
    (hst : ∀ b ∈ l, ∀ s : Scan, Found P s.txnAvailable →
      (step b s).Meets (fun _ => True) fun s' => Found P s'.txnAvailable)
    (h : Found P s.txnAvailable) :
    (scan nShort step l s).Meets (fun _ => True) fun s' => Found P s'.txnAvailable := by
  induction l generalizing s with
  | nil => exact h
  | cons b l ih =>
    rw [forall_mem_cons] at hst
    exact .bind (hst.1 s h) fun s' hs' => .ite (fun _ => hs') fun _ => ih hst.2 hs'

theorem Found.keep (h : Found P s.txnAvailable) (hf : ∀ tx ∈ found, P tx) :
    (s.keep pos found).Meets (fun _ => True) fun s' => Found P s'.txnAvailable := by
  refine .bind (h.writeAt hf) fun txnAvailable h' => ?_
  cases Net.writeAt s.haveTxn pos true with
  | error e => trivial
  | ok haveTxn => exact h'

theorem Found.reset (h : Found P s.txnAvailable) :
    (s.reset pos).Meets (fun _ => True) fun s' => Found P s'.txnAvailable :=
  .bind (h.writeAt (by simp)) fun _ h' => h'

theorem Found.readAt {α : Type} {v : List α} : (readAt v i).Meets (fun _ => True) fun _ => True := by
  cases Net.readAt v i <;> trivial

variable {hash256 : List UInt8 → Uint256} {bucketSize : ShortIdMap → ℕ → ℕ}
  {c : CBlockHeaderAndShortTxIDs} {shorttxids : ShortIdMap}

theorem Found.poolStep {entry : Uint256 × CTransaction} (he : P entry.2)
    (h : Found P s.txnAvailable) :
    (poolStep c shorttxids entry s).Meets (fun _ => True) fun s' => Found P s'.txnAvailable := by
  unfold Net.poolStep
  split
  · exact h
  · refine .bind Found.readAt fun _ _ => .ite (fun _ => h.keep ?_) fun _ =>
      .bind Found.readAt fun _ _ => .ite (fun _ => h.reset) fun _ => h
    rintro tx ⟨⟩
    exact he

theorem Found.extraStep {slot : Uint256 × Option CTransaction} (hs : ∀ tx ∈ slot.2, P tx)
    (h : Found P s.txnAvailable) :
    (extraStep hash256 c shorttxids slot s).Meets (fun _ => True)
      fun s' => Found P s'.txnAvailable := by
  unfold Net.extraStep
  split
  · exact h
  · refine .bind Found.readAt fun _ _ => .ite (fun _ => h.keep hs) fun _ =>
      .bind Found.readAt fun f _ => ?_
    cases f with
    | none => exact h
    | some held =>
      cases slot.2 with
      | none => trivial
      | some tx => exact .ite (fun _ => h.reset) fun _ => h

theorem initData_found {vTxHashes : List (Uint256 × CTransaction)}
    {extraTxn : List (Uint256 × Option CTransaction)} {start block : PartiallyDownloadedBlock}
    (hp : ∀ p ∈ c.prefilledtxn, P p.tx) (hpo : ∀ entry ∈ vTxHashes, P entry.2)
    (he : ∀ slot ∈ extraTxn, ∀ tx ∈ slot.2, P tx)
    (h : start.initData hash256 bucketSize c vTxHashes extraTxn = .ok block) :
    Found P block.txnAvailable := by
  have hl : (layout bucketSize c).Meets (fun _ => True) fun r => Found P r.1 := by
    unfold layout
    refine .bind (Found.prefill (fun tx ht => ?_) hp) fun txnAvailable h' => ?_
    · cases eq_of_mem_replicate ht
    · cases mapShortIds bucketSize txnAvailable c.shorttxids 0 0 ∅ with
      | error e => trivial
      | ok shorttxids => exact .ite (fun _ => trivial) fun _ => h'
  have hm : (start.initData hash256 bucketSize c vTxHashes extraTxn).Meets (fun _ => True)
      fun block => Found P block.txnAvailable := by
    unfold initData
    cases checkCounts c with
    | error e => trivial
    | ok _ =>
      refine .ite (fun _ => trivial) fun _ => .bind hl fun r hr => ?_
      refine .bind (Found.scan (fun entry hen s hs => hs.poolStep (hpo entry hen)) hr)
        fun s hs => ?_
      exact .bind (Found.scan (fun slot hsl s hs => hs.extraStep (he slot hsl)) hs)
        fun s hs => hs
  rw [h] at hm
  exact hm

end Found

def missingTransactions : List (Option CTransaction) → List CTransaction → List CTransaction
  | none :: txnAvailable, tx :: vtx => tx :: missingTransactions txnAvailable vtx
  | some _ :: txnAvailable, _ :: vtx => missingTransactions txnAvailable vtx
  | _, _ => []

def filledWith : List (Option CTransaction) → List CTransaction → List CTransaction :=
  List.zipWith fun found tx => found.getD tx

variable {txnAvailable : List (Option CTransaction)} {vtx : List CTransaction}

theorem fillTransactions_missing (h : txnAvailable.length = vtx.length) :
    fillTransactions txnAvailable (missingTransactions txnAvailable vtx) =
      some (filledWith txnAvailable vtx, []) := by
  induction txnAvailable generalizing vtx with
  | nil =>
    cases vtx with
    | nil => rfl
    | cons => cases h
  | cons found txnAvailable ih =>
    cases vtx with
    | nil => cases h
    | cons tx vtx =>
      have hr := ih (Nat.succ.inj h)
      cases found <;> simp [missingTransactions, fillTransactions, hr, filledWith]

theorem length_filledWith (h : txnAvailable.length = vtx.length) :
    (filledWith txnAvailable vtx).length = vtx.length := by
  rw [filledWith, length_zipWith, h, min_self]

theorem Found.filledWith {P : CTransaction → Prop} (h : Found P txnAvailable)
    (hv : ∀ tx ∈ vtx, P tx) : ∀ tx ∈ filledWith txnAvailable vtx, P tx := by
  intro tx ht
  obtain ⟨i, hi⟩ := mem_iff_getElem?.mp ht
  obtain ⟨f, tx', hf, ht', rfl⟩ := List.getElem?_zipWith_eq_some.mp hi
  cases f with
  | none => exact hv tx' (mem_of_getElem? ht')
  | some f => exact h f (mem_of_getElem? hf)

section Filled
variable {hash256 : List UInt8 → Uint256} {params : Params}

def merkleStrings (hash256 : List UInt8 → Uint256) (vtx : List CTransaction) :
    List (List UInt8) :=
  vtx.map (·.serialize false) ++ nodeStrings hash256 (vtx.map (·.hash))

/-- As many other transactions for the header of a valid block are found mutated, unless they are
the same up to the witness. -/
theorem checkBlock_of_length {block : CBlock} {vtx : List CTransaction}
    (ho : checkBlock (bodyChecks hash256) params block = .ok ())
    (hl : vtx.length = block.vtx.length)
    (hb : ∀ tx ∈ block.vtx ++ vtx, tx.IsBuilt hash256)
    (hi : Set.InjOn hash256
      {s | s ∈ merkleStrings hash256 block.vtx ++ merkleStrings hash256 vtx}) :
    (checkBlock (bodyChecks hash256) params { block with vtx := vtx } = .ok () ∧
      vtx.map (·.hash) = block.vtx.map (·.hash)) ∨
    ∃ e, checkBlock (bodyChecks hash256) params { block with vtx := vtx } = .error e ∧
      (checkBlockState e).result = .mutated := by
  have hp := passesCheckBlock ho
  have hpo : checkProofOfWork block.hash block.nBits params := hp.proofOfWork
  by_cases hr : block.hashMerkleRoot = (blockMerkleRoot hash256 { block with vtx := vtx }).1
  swap
  · refine .inr ⟨.invalid "bad-txnmrklroot", ?_, rfl⟩
    unfold checkBlock
    rw [bodyChecks_blockMerkleRoot, if_neg (by simp [hpo]), if_pos hr]
  cases hm : (blockMerkleRoot hash256 { block with vtx := vtx }).2 with
  | true =>
    refine .inr ⟨.invalid "bad-txns-duplicate", ?_, rfl⟩
    unfold checkBlock
    rw [bodyChecks_blockMerkleRoot, if_neg (by simp [hpo]), if_neg (not_not.mpr hr), if_pos hm]
  | false =>
    have hne : block.vtx ≠ [] := by
      intro hn
      have := hp.coinbase
      simp [hn] at this
    have hh : block.vtx.map (·.hash) = vtx.map (·.hash) :=
      leaves_eq_of_length hi
        (fun s hs => mem_append_left _ (mem_append_right _ hs))
        (fun s hs => mem_append_right _ (mem_append_right _ hs))
        (by simpa using hne) (by simp [hl]) (hp.root.symm.trans hr)
    have hv := map_withoutWitness_eq hi (fun tx ht => ⟨hb tx ht, ?_⟩) hh
    · have hba : ({ block with vtx := vtx } : CBlock).withoutWitness = block.withoutWitness := by
        simp only [CBlock.withoutWitness, hv]
      refine .inl ⟨?_, hh.symm⟩
      rw [← checkBlock_withoutWitness, hba, checkBlock_withoutWitness, ho]
    · rcases mem_append.mp ht with ht | ht
      · exact mem_append_left _ (mem_append_left _ (mem_map_of_mem ht))
      · exact mem_append_right _ (mem_append_left _ (mem_map_of_mem ht))

end Filled

section Result
variable (hash256 : List UInt8 → Uint256) (bucketSize : ShortIdMap → ℕ → ℕ)

/-- If the message was made from a block that passes `CheckBlock`, `FillBlock` gives the
transactions of the block or `READ_STATUS_FAILED`, unless strings hashed for the merkle root
collide. -/
def Reconstructs (c : CBlockHeaderAndShortTxIDs) (vTxHashes : List (Uint256 × CTransaction))
    (extraTxn : List (Uint256 × Option CTransaction)) : Prop :=
  ∀ (params : Params) (fUseWTXID : Bool) (block : CBlock) (partialBlock : PartiallyDownloadedBlock),
    CBlockHeaderAndShortTxIDs.ofBlock hash256 c.getShortID fUseWTXID block = some c →
    checkBlock (bodyChecks hash256) params block = .ok () →
    initData hash256 bucketSize c vTxHashes extraTxn {} =
      .ok partialBlock →
    (∀ tx ∈ block.vtx ++ vTxHashes.map (·.2) ++ extraTxn.filterMap (·.2), tx.IsBuilt hash256) →
    Set.InjOn hash256 {s | s ∈ merkleStrings hash256 block.vtx ++
      merkleStrings hash256 (filledWith partialBlock.txnAvailable block.vtx)} →
    (∃ filled, partialBlock.fillBlock hash256 params
        (missingTransactions partialBlock.txnAvailable block.vtx) = .ok (.ok, some filled) ∧
      filled.vtx.map (·.hash) = block.vtx.map (·.hash)) ∨
    partialBlock.fillBlock hash256 params
      (missingTransactions partialBlock.txnAvailable block.vtx) = .ok (.failed, none)

variable {hash256 bucketSize} {c : CBlockHeaderAndShortTxIDs}
  {vTxHashes : List (Uint256 × CTransaction)} {extraTxn : List (Uint256 × Option CTransaction)}

theorem nBits_ne_zero (h : checkCounts c = .ok ()) : c.nBits ≠ 0 := by
  intro hn
  simp [checkCounts, hn] at h

theorem initData_header {partialBlock : PartiallyDownloadedBlock}
    (h : initData hash256 bucketSize c vTxHashes extraTxn {} = .ok partialBlock) :
    partialBlock.hash = c.hash ∧ partialBlock.hashMerkleRoot = c.hashMerkleRoot ∧
      partialBlock.nBits = c.nBits ∧ c.nBits ≠ 0 := by
  unfold initData at h
  obtain ⟨_, hc, h⟩ := Except.bind_eq_ok.mp h
  split_ifs at h
  obtain ⟨r, -, h⟩ := Except.bind_eq_ok.mp h
  obtain ⟨s₁, -, h⟩ := Except.bind_eq_ok.mp h
  obtain ⟨s₂, -, h⟩ := Except.bind_eq_ok.mp h
  cases h
  exact ⟨rfl, rfl, rfl, nBits_ne_zero hc⟩

theorem ofBlock_eq_some {getShortID : Uint256 → ℕ} {fUseWTXID : Bool} {block : CBlock}
    (h : CBlockHeaderAndShortTxIDs.ofBlock hash256 getShortID fUseWTXID block = some c) :
    c.hash = block.hash ∧ c.hashMerkleRoot = block.hashMerkleRoot ∧ c.nBits = block.nBits ∧
      c.blockTxCount = block.vtx.length ∧ ∀ p ∈ c.prefilledtxn, p.tx ∈ block.vtx := by
  unfold CBlockHeaderAndShortTxIDs.ofBlock at h
  split at h
  next => cases h
  next coinbase vtx hv =>
    obtain rfl := Option.some.inj h
    simp [CBlockHeaderAndShortTxIDs.blockTxCount, hv]

theorem reconstructs (h : c.Deserialized) : Reconstructs hash256 bucketSize c vTxHashes extraTxn := by
  intro params fUseWTXID block pb ho hch hi hb hij
  obtain ⟨hh, hr, hbi, hn⟩ := initData_header hi
  obtain ⟨hh', hr', hbi', hco, hpr⟩ := ofBlock_eq_some ho
  have hl : pb.txnAvailable.length = block.vtx.length := by
    rcases @initData_cases hash256 bucketSize c h vTxHashes extraTxn with
      ⟨-, status, heq⟩ | ⟨-, hc⟩
    · rw [hi] at heq
      cases heq
    · split_ifs at hc
      · rw [hi] at hc
        cases hc
      · obtain ⟨block', heq, hl⟩ := hc
        rw [hi] at heq
        cases heq
        rw [hl, hco]
  have hfo : Found (·.IsBuilt hash256) pb.txnAvailable := by
    refine initData_found (fun p hp => hb p.tx (by simp [hpr p hp]))
      (fun entry he => hb entry.2 ?_) (fun slot hs tx ht => hb tx ?_) hi
    · exact mem_append_left _ (mem_append_right _ (mem_map_of_mem he))
    · exact mem_append_right _ (mem_filterMap.mpr ⟨slot, hs, ht⟩)
  have hv : ∀ tx ∈ block.vtx, tx.IsBuilt hash256 := fun tx ht => hb tx (by simp [ht])
  have hf : (⟨pb.hash, pb.hashMerkleRoot, pb.nBits,
      filledWith pb.txnAvailable block.vtx⟩ : CBlock) =
      { block with vtx := filledWith pb.txnAvailable block.vtx } := by
    rw [hh, hh', hr, hr', hbi, hbi']
  unfold fillBlock
  rw [if_neg (hbi ▸ hn), fillTransactions_missing hl]
  dsimp only
  rw [hf]
  rcases checkBlock_of_length hch (length_filledWith hl)
      (fun tx ht => (mem_append.mp ht).elim (hv tx) (hfo.filledWith hv tx)) hij with
    ⟨hok, heq⟩ | ⟨e, herror, hmutated⟩
  · rw [hok]
    exact .inl ⟨_, rfl, heq⟩
  · rw [herror]
    exact .inr (if_pos hmutated)

/-- `InitData` has no fault, and the block is rebuilt, exactly if the search for the transactions
of the message does not come to an empty slot while a transaction is held for its short id. -/
theorem compactBlock_safe_iff (h : c.Deserialized) :
    ((∀ fault, initData hash256 bucketSize c vTxHashes extraTxn {} ≠
        .error (.fault fault)) ∧
      Reconstructs hash256 bucketSize c vTxHashes extraTxn) ↔
    ¬(c.wellFormed bucketSize = true ∧ emptySlotHit hash256 c vTxHashes extraTxn = true) := by
  rw [← initData_fault_iff h, not_exists]
  exact and_iff_left (reconstructs h)

end Result

def spend61 : CTransaction where
  vin := [⟨⟨1, 0⟩, [1], sequenceFinal, []⟩]
  vout := [⟨0, []⟩]
  nVersion := 1
  nLockTime := 0
  hash := 62

def pairBlock : CBlock := block100 65 [coinbase100 63 [], spend61]

def message7 (shorttxids : List ℕ) : CBlockHeaderAndShortTxIDs where
  hash := 0
  hashMerkleRoot := 65
  nBits := 0x207fffff
  getShortID := fun _ => 7
  shorttxids := shorttxids
  prefilledtxn := [⟨0, coinbase100 63 []⟩]

/-- The block is rebuilt although an empty slot has the short id of its second transaction. -/
theorem compactBlock_safe_iff_pair : ∃ partialBlock filled,
      initData lengthHash (fun _ _ => 1) (message7 [7]) [] [(0, none)] {} =
        .ok partialBlock ∧
      partialBlock.fillBlock lengthHash Network.regtest.consensus
        (missingTransactions partialBlock.txnAvailable pairBlock.vtx) = .ok (.ok, some filled) ∧
      filled.vtx.map (·.hash) = pairBlock.vtx.map (·.hash) := by
  have hsa := (@compactBlock_safe_iff lengthHash (fun _ _ => 1) (message7 [7]) [] [(0, none)]
    (show 2 ≤ 65535 by decide)).mpr (by decide +kernel)
  have hi : initData lengthHash (fun _ _ => 1) (message7 [7]) []
      [(0, none)] {} = .ok ⟨0, 65, 0x207fffff, [some (coinbase100 63 []), none]⟩ := by
    decide +kernel
  have hij : ∀ s ∈ merkleStrings lengthHash pairBlock.vtx ++
      merkleStrings lengthHash pairBlock.vtx, ∀ t ∈ merkleStrings lengthHash pairBlock.vtx ++
      merkleStrings lengthHash pairBlock.vtx, lengthHash s = lengthHash t → s = t := by
    decide +kernel
  obtain ⟨filled, hf, he⟩ := (hsa.2 Network.regtest.consensus true pairBlock _ rfl
    (by decide +kernel) hi (by decide +kernel) fun s hs t ht => hij s hs t ht).resolve_right
    (by decide +kernel)
  exact ⟨_, filled, hi, hf, he⟩

/-- The extra transactions hold one transaction and an empty slot with the short id that the message
asks for: the witness hash of the empty slot is asked for. -/
theorem initData_nullDereference : (message7 [7, 8]).Deserialized ∧
    ∃ extra : ExtraTxn, extra.vExtraTxnForCompact = [(62, some spend61), (0, none)] ∧
      ExtraTxn.addToCompactExtraTransactions lengthHash 2 spend61 {} = .ok extra ∧
      initData lengthHash (fun _ _ => 1) (message7 [7, 8]) []
        extra.vExtraTxnForCompact {} = .error (.fault .nullDereference) :=
  ⟨show 3 ≤ 65535 by decide, ⟨[(62, some spend61), (0, none)], 1⟩, rfl, by decide +kernel,
    by decide +kernel⟩

end Palladium.Net
