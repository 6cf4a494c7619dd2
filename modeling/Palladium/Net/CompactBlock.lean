import Mathlib.Data.Finmap
import Palladium.Validation.CheckBody

/-! # Compact blocks

A block is rebuilt from a `cmpctblock` message, the mempool and extra transactions.
-/

namespace Palladium

def CTransaction.isNull (tx : CTransaction) : Bool := tx.vin.isEmpty && tx.vout.isEmpty

namespace Net

inductive ReadStatus | ok | invalid | failed | checkblockFailed
  deriving DecidableEq, Repr

inductive MemoryFault | outOfRange | nullDereference | endlessLoop | assertion
  deriving DecidableEq, Repr

/-- A return before the end, or a fault. -/
inductive Exit
  | status (status : ReadStatus)
  | fault (fault : MemoryFault)
  deriving DecidableEq, Repr

section Vectors
variable {α : Type}

def readAt (v : List α) (i : ℕ) : Except Exit α :=
  match v[i]? with
  | some a => .ok a
  | none => .error (.fault .outOfRange)

def writeAt (v : List α) (i : ℕ) (a : α) : Except Exit (List α) :=
  if i < v.length then .ok (v.set i a) else .error (.fault .outOfRange)

end Vectors

/-- The index is the number of transactions skipped since the one before. -/
structure PrefilledTransaction where
  index : UInt16
  tx : CTransaction

/-- The message, with the function that its header and nonce select for the short ids. -/
structure CBlockHeaderAndShortTxIDs where
  hash : Uint256
  hashMerkleRoot : Uint256
  nBits : UInt32
  getShortID : Uint256 → ℕ
  shorttxids : List ℕ
  prefilledtxn : List PrefilledTransaction

namespace CBlockHeaderAndShortTxIDs
variable (c : CBlockHeaderAndShortTxIDs)

def blockTxCount : ℕ := c.shorttxids.length + c.prefilledtxn.length

def Deserialized : Prop := c.blockTxCount ≤ 65535

/-- The message for a block. A block without transactions has none. -/
def ofBlock (hash256 : List UInt8 → Uint256) (getShortID : Uint256 → ℕ) (fUseWTXID : Bool)
    (block : CBlock) : Option CBlockHeaderAndShortTxIDs :=
  match block.vtx with
  | [] => none
  | coinbase :: vtx => some
    { hash := block.hash
      hashMerkleRoot := block.hashMerkleRoot
      nBits := block.nBits
      getShortID := getShortID
      shorttxids := vtx.map fun tx =>
        getShortID (if fUseWTXID then tx.getWitnessHash hash256 else tx.hash)
      prefilledtxn := [⟨0, coinbase⟩] }

end CBlockHeaderAndShortTxIDs

/-- The header and the transactions found so far. The header is null if `nBits` is. -/
structure PartiallyDownloadedBlock where
  hash : Uint256 := 0
  hashMerkleRoot : Uint256 := 0
  nBits : UInt32 := 0
  txnAvailable : List (Option CTransaction) := []
  deriving DecidableEq

def minSerializableTransactionWeight : ℕ := witnessScaleFactor * 10

def checkCounts (c : CBlockHeaderAndShortTxIDs) : Except Exit Unit :=
  if c.nBits = 0 ∨ (c.shorttxids.isEmpty ∧ c.prefilledtxn.isEmpty) then .error (.status .invalid)
  else if c.shorttxids.length + c.prefilledtxn.length >
      maxBlockWeight / minSerializableTransactionWeight then .error (.status .invalid)
  else .ok ()

def prefill (nShort : ℕ) : List PrefilledTransaction → (i : ℕ) → (lastprefilledindex : ℤ) →
    (txnAvailable : List (Option CTransaction)) → Except Exit (List (Option CTransaction))
  | [], _, _, txnAvailable => .ok txnAvailable
  | p :: rest, i, lastprefilledindex, txnAvailable =>
    if p.tx.isNull then .error (.status .invalid)
    else
      let lastprefilledindex := lastprefilledindex + p.index.toNat + 1
      if lastprefilledindex > 65535 then .error (.status .invalid)
      else if lastprefilledindex.toNat > nShort + i then .error (.status .invalid)
      else do
        let txnAvailable ← writeAt txnAvailable lastprefilledindex.toNat (some p.tx)
        prefill nShort rest (i + 1) lastprefilledindex txnAvailable

/-- Skips prefilled positions. The offset has 16 bits: a loop with more turns than values does not
end. -/
def skipAvailable (txnAvailable : List (Option CTransaction)) (i : ℕ) :
    (fuel : ℕ) → (indexOffset : ℕ) → Except Exit ℕ
  | 0, _ => .error (.fault .endlessLoop)
  | fuel + 1, indexOffset => do
    match ← readAt txnAvailable (i + indexOffset) with
    | none => .ok indexOffset
    | some _ => skipAvailable txnAvailable i fuel ((indexOffset + 1) % 65536)

abbrev ShortIdMap := Finmap fun _ : ℕ => ℕ

section Lookup
variable (bucketSize : ShortIdMap → ℕ → ℕ)

def mapShortIds (txnAvailable : List (Option CTransaction)) :
    List ℕ → (i : ℕ) → (indexOffset : ℕ) → ShortIdMap → Except Exit ShortIdMap
  | [], _, _, shorttxids => .ok shorttxids
  | id :: ids, i, indexOffset, shorttxids => do
    let indexOffset ← skipAvailable txnAvailable i 65536 indexOffset
    let shorttxids := shorttxids.insert id ((i + indexOffset) % 65536)
    if bucketSize shorttxids id > 12 then .error (.status .failed)
    else mapShortIds txnAvailable ids (i + 1) indexOffset shorttxids

/-- The part of `InitData` that reads the message only: what is prefilled, and where the short ids
belong. -/
def layout (c : CBlockHeaderAndShortTxIDs) :
    Except Exit (List (Option CTransaction) × ShortIdMap) := do
  let txnAvailable ← prefill c.shorttxids.length c.prefilledtxn 0 (-1)
    (.replicate c.blockTxCount none)
  let shorttxids ← mapShortIds bucketSize txnAvailable c.shorttxids 0 0 ∅
  if shorttxids.keys.card ≠ c.shorttxids.length then .error (.status .failed)
  else .ok (txnAvailable, shorttxids)

end Lookup

structure Scan where
  txnAvailable : List (Option CTransaction)
  haveTxn : List Bool
  mempoolCount : ℕ := 0

/-- A loop over candidates, which ends early when every short id has its transaction. -/
def scan {β : Type} (nShort : ℕ) (step : β → Scan → Except Exit Scan) :
    List β → Scan → Except Exit Scan
  | [], s => .ok s
  | b :: rest, s => do
    let s ← step b s
    if s.mempoolCount = nShort then .ok s else scan nShort step rest s

section Steps
variable (hash256 : List UInt8 → Uint256) (c : CBlockHeaderAndShortTxIDs)
  (shorttxids : ShortIdMap)

/-- The first candidate for a position is kept. -/
def Scan.keep (s : Scan) (pos : ℕ) (tx : Option CTransaction) : Except Exit Scan := do
  let txnAvailable ← writeAt s.txnAvailable pos tx
  let haveTxn ← writeAt s.haveTxn pos true
  .ok ⟨txnAvailable, haveTxn, s.mempoolCount + 1⟩

def Scan.reset (s : Scan) (pos : ℕ) : Except Exit Scan := do
  let txnAvailable ← writeAt s.txnAvailable pos none
  .ok ⟨txnAvailable, s.haveTxn, s.mempoolCount - 1⟩

/-- An entry of `vTxHashes`. -/
def poolStep (entry : Uint256 × CTransaction) (s : Scan) : Except Exit Scan :=
  match shorttxids.lookup (c.getShortID entry.1) with
  | none => .ok s
  | some pos => do
    if !(← readAt s.haveTxn pos) then s.keep pos (some entry.2)
    else if (← readAt s.txnAvailable pos).isSome then s.reset pos
    else .ok s

def extraStep (slot : Uint256 × Option CTransaction) (s : Scan) : Except Exit Scan :=
  match shorttxids.lookup (c.getShortID slot.1) with
  | none => .ok s
  | some pos => do
    if !(← readAt s.haveTxn pos) then s.keep pos slot.2
    else
      match ← readAt s.txnAvailable pos with
      | none => .ok s
      | some held =>
        match slot.2 with
        | none => .error (.fault .nullDereference)
        | some tx =>
          if held.getWitnessHash hash256 ≠ tx.getWitnessHash hash256 then s.reset pos else .ok s

end Steps

section Functions
variable (hash256 : List UInt8 → Uint256) (bucketSize : ShortIdMap → ℕ → ℕ)

def PartiallyDownloadedBlock.initData (c : CBlockHeaderAndShortTxIDs)
    (vTxHashes : List (Uint256 × CTransaction)) (extraTxn : List (Uint256 × Option CTransaction))
    (block : PartiallyDownloadedBlock) : Except Exit PartiallyDownloadedBlock := do
  checkCounts c
  if !(block.nBits = 0 ∧ block.txnAvailable.isEmpty) then .error (.fault .assertion)
  else do
    let (txnAvailable, shorttxids) ← layout bucketSize c
    let s ← scan shorttxids.keys.card (poolStep c shorttxids) vTxHashes
      ⟨txnAvailable, .replicate txnAvailable.length false, 0⟩
    let s ← scan shorttxids.keys.card (extraStep hash256 c shorttxids) extraTxn s
    .ok ⟨c.hash, c.hashMerkleRoot, c.nBits, s.txnAvailable⟩

def fillTransactions : (txnAvailable : List (Option CTransaction)) →
    (vtxMissing : List CTransaction) → Option (List CTransaction × List CTransaction)
  | [], vtxMissing => some ([], vtxMissing)
  | some tx :: rest, vtxMissing => do
    let (vtx, unused) ← fillTransactions rest vtxMissing
    some (tx :: vtx, unused)
  | none :: _, [] => none
  | none :: rest, tx :: vtxMissing => do
    let (vtx, unused) ← fillTransactions rest vtxMissing
    some (tx :: vtx, unused)

def PartiallyDownloadedBlock.fillBlock (params : Params) (block : PartiallyDownloadedBlock)
    (vtxMissing : List CTransaction) : Except MemoryFault (ReadStatus × Option CBlock) :=
  if block.nBits = 0 then .error .assertion
  else match fillTransactions block.txnAvailable vtxMissing with
    | some (vtx, []) =>
      let filled : CBlock := ⟨block.hash, block.hashMerkleRoot, block.nBits, vtx⟩
      match checkBlock (bodyChecks hash256) params filled with
      | .ok () => .ok (.ok, some filled)
      | .error e =>
        if (checkBlockState e).result = .mutated then .ok (.failed, none)
        else .ok (.checkblockFailed, none)
    | _ => .ok (.invalid, none)

end Functions

/-- The ring buffer `vExtraTxnForCompact`. -/
structure ExtraTxn where
  vExtraTxnForCompact : List (Uint256 × Option CTransaction) := []
  vExtraTxnForCompactIt : ℕ := 0
  deriving DecidableEq

def ExtraTxn.addToCompactExtraTransactions (hash256 : List UInt8 → Uint256) (maxExtraTxn : ℕ)
    (tx : CTransaction) (extra : ExtraTxn) : Except Exit ExtraTxn :=
  if maxExtraTxn = 0 then .ok extra
  else do
    let slots := if extra.vExtraTxnForCompact.isEmpty then .replicate maxExtraTxn (0, none)
      else extra.vExtraTxnForCompact
    let slots ← writeAt slots extra.vExtraTxnForCompactIt (tx.getWitnessHash hash256, some tx)
    .ok ⟨slots, (extra.vExtraTxnForCompactIt + 1) % maxExtraTxn⟩

end Net

end Palladium
