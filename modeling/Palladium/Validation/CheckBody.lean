import Mathlib.Data.BitVec
import Palladium.Consensus.AmountChecks
import Palladium.Merkle.Root
import Palladium.Primitives.TxSerialize
import Palladium.Script.Script
import Palladium.Validation.BlockIndex

/-! # The checks of a block's transactions

`CheckBlock` and `ContextualCheckBlock` as `AcceptBlock` calls them, over serialized transactions
and an arbitrary hash of strings.
-/

namespace Palladium
open CTransaction Function List MerkleTree Validation
section Checks
variable (hash256 : List UInt8 → Uint256)

def hashNodes (a b : Uint256) : Uint256 := hash256 (a.bytes ++ b.bytes)

def CTransaction.getWitnessHash (tx : CTransaction) : Uint256 :=
  if tx.hasWitness then hash256 (tx.serialize true) else tx.hash

variable (block : CBlock)

def CBlock.getSerializeSize (fAllowWitness : Bool) : ℕ :=
  80 + (writeVector (·.serialize fAllowWitness) block.vtx).length

def getBlockWeight : ℕ :=
  block.getSerializeSize false * (witnessScaleFactor - 1) + block.getSerializeSize true

def blockMerkleRoot : Uint256 × Bool :=
  computeMerkleRoot (hashNodes hash256) (block.vtx.map (·.hash))

/-- The leaves of the witness tree; the witness hash of the coinbase is 0. -/
def CBlock.witnessLeaves : List Uint256 :=
  match block.vtx with
  | [] => []
  | _ :: vtx => 0 :: vtx.map (·.getWitnessHash hash256)

def blockWitnessMerkleRoot : Uint256 :=
  (computeMerkleRoot (hashNodes hash256) (block.witnessLeaves hash256)).1

/-- What `CheckBlock` reads of a block. -/
def bodyChecks : ScriptChecks :=
  { (default : ScriptChecks) with
    getSerializeSize := fun tx => (tx.serialize false).length
    getBlockSerializeSize := fun block => block.getSerializeSize false
    blockMerkleRoot := blockMerkleRoot hash256
    getLegacySigOpCount := getLegacySigOpCount }

theorem bodyChecks_blockMerkleRoot :
    (bodyChecks hash256).blockMerkleRoot = blockMerkleRoot hash256 := rfl

/-- What `ContextualCheckBlock` reads of the parameters, the parent and the header. -/
structure BodyContext where
  params : Params
  /-- Height and median time past of the parent. -/
  pindexPrev : Option (ℕ × ℤ)
  nTime : ℤ

namespace BodyContext

def nHeight (ctx : BodyContext) : ℕ := ctx.pindexPrev.elim 0 (·.1 + 1)

def nLockTimeCutoff (ctx : BodyContext) : ℤ :=
  match ctx.pindexPrev with
  | some (_, medianTimePast) =>
    if ctx.params.CSVHeight ≤ ctx.nHeight then medianTimePast else ctx.nTime
  | none => ctx.nTime

end BodyContext

variable (ctx : BodyContext) (block : CBlock)

def CBlock.coinbaseIn : Option CTxIn := block.vtx.head?.bind (·.vin.head?)

def startsWithHeight : Bool :=
  ctx.pindexPrev.isNone || ctx.nHeight < ctx.params.BIP34Height ||
    (CScript.pushInt [] ctx.nHeight).isPrefixOf (block.coinbaseIn.elim [] (·.scriptSig))

def isWitnessCommitment (scriptPubKey : CScript) : Bool :=
  38 ≤ scriptPubKey.length && [0x6a, 0x24, 0xaa, 0x21, 0xa9, 0xed].isPrefixOf scriptPubKey

/-- The script of the output at `GetWitnessCommitmentIndex`, the last commitment of the coinbase. -/
def witnessCommitment : Option CScript :=
  ((block.vtx.head?.elim [] (·.vout)).map (·.scriptPubKey)).findRev? isWitnessCommitment

def checkWitnessCommitment : Except BlockInvalid Bool :=
  if ctx.nHeight < ctx.params.SegwitHeight then .ok false
  else
    match witnessCommitment block with
    | none => .ok false
    | some scriptPubKey =>
      match block.coinbaseIn.elim [] (·.scriptWitness) with
      | [nonce] =>
        if nonce.length ≠ 32 then .error ⟨.mutated, "bad-witness-nonce-size"⟩
        else if (hash256 ((blockWitnessMerkleRoot hash256 block).bytes ++ nonce)).bytes ≠
            (scriptPubKey.drop 6).take 32 then
          .error ⟨.mutated, "bad-witness-merkle-match"⟩
        else .ok true
      | _ => .error ⟨.mutated, "bad-witness-nonce-size"⟩

def contextualCheckBlock : Except BlockInvalid Unit :=
  if !block.vtx.all (isFinalTx · ctx.nHeight ctx.nLockTimeCutoff) then
    .error ⟨.consensus, "bad-txns-nonfinal"⟩
  else if !startsWithHeight ctx block then .error ⟨.consensus, "bad-cb-height"⟩
  else do
    let fHaveWitness ← checkWitnessCommitment hash256 ctx block
    if !fHaveWitness && block.vtx.any (·.hasWitness) then .error ⟨.mutated, "unexpected-witness"⟩
    else if getBlockWeight block > maxBlockWeight then .error ⟨.consensus, "bad-blk-weight"⟩
    else .ok ()

def checkBlockResult (rejectReason : String) : BlockValidationResult :=
  if rejectReason = "high-hash" then .invalidHeader
  else if rejectReason = "bad-txnmrklroot" ∨ rejectReason = "bad-txns-duplicate" then .mutated
  else .consensus

/-- The state that `CheckBlock` leaves; it only ends with a rejection. -/
def checkBlockState : Halt → BlockInvalid
  | .invalid reason => ⟨checkBlockResult reason, reason⟩
  | _ => ⟨.resultUnset, ""⟩

/-- The two checks as `AcceptBlock` makes them. -/
def checkBody : Except BlockInvalid Unit :=
  match checkBlock (bodyChecks hash256) ctx.params block with
  | .error e => .error (checkBlockState e)
  | .ok () => contextualCheckBlock hash256 ctx block

end Checks

namespace CTransaction
variable (tx : CTransaction)

@[simp] theorem isCoinBase_withoutWitness : tx.withoutWitness.isCoinBase = tx.isCoinBase := by
  obtain ⟨vin, vout, nVersion, nLockTime, hash⟩ := tx
  rcases vin with _ | ⟨txin, _ | ⟨txin', vin⟩⟩ <;> rfl

@[simp] theorem checkTransaction_withoutWitness (size : ℕ) (tx : CTransaction) :
    checkTransaction size tx.withoutWitness = checkTransaction size tx := by
  have hs : checkInputsShape tx.withoutWitness = checkInputsShape tx := by
    unfold checkInputsShape
    rw [isCoinBase_withoutWitness]
    simp only [withoutWitness, map_map, any_map, comp_def, CTxIn.withoutWitness]
    rfl
  unfold checkTransaction
  rw [hs]
  simp only [withoutWitness, isEmpty_map]
  rfl

@[simp] theorem getLegacySigOpCount_withoutWitness :
    getLegacySigOpCount tx.withoutWitness = getLegacySigOpCount tx := by
  simp only [getLegacySigOpCount, withoutWitness, map_map, comp_def, CTxIn.withoutWitness]

@[simp] theorem isFinalTx_withoutWitness (nBlockHeight nBlockTime : ℤ) :
    isFinalTx tx.withoutWitness nBlockHeight nBlockTime = isFinalTx tx nBlockHeight nBlockTime := by
  simp only [isFinalTx, withoutWitness, all_map, comp_def, CTxIn.withoutWitness]
  rfl

end CTransaction

def CBlock.withoutWitness (block : CBlock) : CBlock :=
  { block with vtx := block.vtx.map CTransaction.withoutWitness }

section WithoutWitness
variable (hash256 : List UInt8 → Uint256) (ctx : BodyContext) (block : CBlock)

theorem checkTransactions_withoutWitness (vtx : List CTransaction) :
    checkTransactions (bodyChecks hash256) (vtx.map CTransaction.withoutWitness) =
      checkTransactions (bodyChecks hash256) vtx := by
  induction vtx with
  | nil => rfl
  | cons tx vtx ih =>
    rw [map_cons, checkTransactions, checkTransactions, ih, checkTransaction_withoutWitness]
    simp only [bodyChecks, serialize_withoutWitness]

theorem checkBlock_withoutWitness (params : Params) :
    checkBlock (bodyChecks hash256) params block.withoutWitness =
      checkBlock (bodyChecks hash256) params block := by
  have hr : blockMerkleRoot hash256 block.withoutWitness = blockMerkleRoot hash256 block := by
    rw [blockMerkleRoot, CBlock.withoutWitness, map_map]
    rfl
  have hsi : block.withoutWitness.getSerializeSize false = block.getSerializeSize false := by
    simp only [CBlock.getSerializeSize, CBlock.withoutWitness, writeVector, length_map,
      flatMap_map, serialize_withoutWitness]
  have hh : block.withoutWitness.vtx.head?.any (·.isCoinBase) =
      block.vtx.head?.any (·.isCoinBase) := by
    rw [CBlock.withoutWitness, List.head?_map, Option.any_map]
    simp only [isCoinBase_withoutWitness]
  have ht : block.withoutWitness.vtx.tail.any (·.isCoinBase) =
      block.vtx.tail.any (·.isCoinBase) := by
    rw [CBlock.withoutWitness, ← map_tail, any_map]
    simp only [comp_def, isCoinBase_withoutWitness]
  have hs : block.withoutWitness.vtx.map getLegacySigOpCount =
      block.vtx.map getLegacySigOpCount := by
    rw [CBlock.withoutWitness, map_map]
    simp only [comp_def, getLegacySigOpCount_withoutWitness]
  have he : block.withoutWitness.vtx.isEmpty = block.vtx.isEmpty := isEmpty_map
  have hl : block.withoutWitness.vtx.length = block.vtx.length := length_map _
  have htx : checkTransactions (bodyChecks hash256) block.withoutWitness.vtx =
      checkTransactions (bodyChecks hash256) block.vtx := checkTransactions_withoutWitness ..
  unfold checkBlock
  rw [htx]
  simp only [bodyChecks, hr, hsi, hh, ht, hs, he, hl]
  rfl

theorem startsWithHeight_withoutWitness :
    startsWithHeight ctx block.withoutWitness = startsWithHeight ctx block := by
  obtain ⟨hash, root, bits, _ | ⟨⟨_ | ⟨txin, vin⟩, vout, version, lock, txid⟩, vtx⟩⟩ := block <;> rfl

theorem witnessCommitment_withoutWitness :
    witnessCommitment block.withoutWitness = witnessCommitment block := by
  obtain ⟨hash, root, bits, _ | ⟨tx, vtx⟩⟩ := block <;> rfl

theorem all_isFinalTx_withoutWitness (nBlockHeight nBlockTime : ℤ) :
    block.withoutWitness.vtx.all (isFinalTx · nBlockHeight nBlockTime) =
      block.vtx.all (isFinalTx · nBlockHeight nBlockTime) := by
  simp only [CBlock.withoutWitness, all_map, comp_def, isFinalTx_withoutWitness]

variable {block} in
theorem vtx_withoutWitness (h : block.vtx.any (·.hasWitness) = false) :
    block.vtx.map CTransaction.withoutWitness = block.vtx := by
  conv_rhs => rw [← map_id block.vtx]
  refine map_congr_left fun tx ht => ?_
  exact withoutWitness_eq_self (by simpa using any_eq_false.mp h tx ht)

end WithoutWitness

end Palladium
