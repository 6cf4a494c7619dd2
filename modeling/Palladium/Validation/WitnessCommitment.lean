import Palladium.Validation.CheckBody

/-! # Generated witness commitments

`GenerateCoinbaseCommitment` appends an output that commits to the witness tree, which does not
depend on the coinbase, under a reserved value of zeros.
-/

namespace Palladium
open List
section Generate
variable (hash256 : List UInt8 → Uint256) (ctx : BodyContext)

def CBlock.modifyCoinbase (f : CTransaction → CTransaction) (block : CBlock) : CBlock :=
  { block with
    vtx := block.vtx.modifyHead fun tx => { f tx with hash := hash256 ((f tx).serialize false) } }

/-- The witness reserved value. -/
def witnessNonce : List UInt8 := replicate 32 0

def CTransaction.withNonce (tx : CTransaction) : CTransaction :=
  { tx with vin := tx.vin.modifyHead fun txin => { txin with scriptWitness := [witnessNonce] } }

variable (block : CBlock)

def updateUncommittedBlockStructures : CBlock :=
  if (witnessCommitment block).isSome ∧ ctx.params.SegwitHeight ≤ ctx.nHeight ∧
      !block.vtx.head?.any (·.hasWitness) then
    block.modifyCoinbase hash256 .withNonce
  else block

def commitmentScript : CScript :=
  [0x6a, 0x24, 0xaa, 0x21, 0xa9, 0xed] ++
    (hash256 ((blockWitnessMerkleRoot hash256 block).bytes ++ witnessNonce)).bytes

/-- The commitment, which is empty if none was made, and the block. -/
def generateCoinbaseCommitment : CScript × CBlock :=
  if ctx.params.SegwitHeight ≠ 2 ^ 31 - 1 ∧ (witnessCommitment block).isNone then
    let commitment := commitmentScript hash256 block
    (commitment, updateUncommittedBlockStructures hash256 ctx (block.modifyCoinbase hash256
      fun tx => { tx with vout := tx.vout ++ [⟨0, commitment⟩] }))
  else ([], updateUncommittedBlockStructures hash256 ctx block)

end Generate

variable {hash256 : List UInt8 → Uint256} {ctx : BodyContext} {block : CBlock}
  {coinbase : CTransaction} {txin : CTxIn} {vtx : List CTransaction}

theorem CBlock.modifyCoinbase_vtx {f : CTransaction → CTransaction}
    (h : block.vtx = coinbase :: vtx) : (block.modifyCoinbase hash256 f).vtx =
      { f coinbase with hash := hash256 ((f coinbase).serialize false) } :: vtx := by
  rw [CBlock.modifyCoinbase, h, modifyHead_cons]

theorem isWitnessCommitment_commitmentScript :
    isWitnessCommitment (commitmentScript hash256 block) := by
  simp [isWitnessCommitment, commitmentScript, Uint256.bytes, isPrefixOf]

theorem witnessCommitment_append {vout : List CTxOut} {script : CScript}
    (hvtx : block.vtx = coinbase :: vtx) (hv : coinbase.vout = vout ++ [⟨0, script⟩])
    (h : isWitnessCommitment script) : witnessCommitment block = some script := by
  simp [witnessCommitment, hvtx, hv, findRev?_eq_find?_reverse, h]

/-- The witness tree of a block is that of any block with the same other transactions. -/
theorem checkWitnessCommitment_of_tail {block' : CBlock} {tx : CTransaction} {vout : List CTxOut}
    (hactive : ctx.params.SegwitHeight ≤ ctx.nHeight) (hvtx : block.vtx = coinbase :: vtx)
    (hvtx' : block'.vtx = tx :: vtx)
    (hv : coinbase.vout = vout ++ [⟨0, commitmentScript hash256 block'⟩])
    (hvin : coinbase.vin = [txin]) (hwitness : txin.scriptWitness = [witnessNonce]) :
    checkWitnessCommitment hash256 ctx block = .ok true := by
  have hr : blockWitnessMerkleRoot hash256 block = blockWitnessMerkleRoot hash256 block' := by
    simp [blockWitnessMerkleRoot, CBlock.witnessLeaves, hvtx, hvtx']
  rw [checkWitnessCommitment, if_neg (not_lt.mpr hactive),
    witnessCommitment_append hvtx hv isWitnessCommitment_commitmentScript]
  simp [CBlock.coinbaseIn, hvtx, hvin, hwitness, witnessNonce, hr, commitmentScript, Uint256.bytes]

/-- The check of the witness commitment is not what rejects the block. -/
def PassesWitnessCheck (hash256 : List UInt8 → Uint256) (ctx : BodyContext) (block : CBlock) :
    Prop :=
  ∀ e, contextualCheckBlock hash256 ctx block = .error e → e.rejectReason ≠ "unexpected-witness" ∧
    e.rejectReason ≠ "bad-witness-nonce-size" ∧ e.rejectReason ≠ "bad-witness-merkle-match"

theorem passesWitnessCheck_of_ok (h : checkWitnessCommitment hash256 ctx block = .ok true) :
    PassesWitnessCheck hash256 ctx block := by
  intro e he
  simp only [contextualCheckBlock, h, bind, Except.bind, Bool.not_true, Bool.false_and,
    Bool.false_eq_true, if_false] at he
  split_ifs at he
  all_goals
    cases he
    decide

def CBlock.withScriptSig (hash256 : List UInt8 → Uint256) (block : CBlock) (scriptSig : CScript) :
    CBlock :=
  block.modifyCoinbase hash256 fun tx =>
    { tx with vin := tx.vin.modifyHead fun txin => { txin with scriptSig } }

section Accepted
variable (hactive : ctx.params.SegwitHeight ≤ ctx.nHeight)
  (hmax : ctx.params.SegwitHeight ≠ 2 ^ 31 - 1) (hvtx : block.vtx = coinbase :: vtx)
  (hvin : coinbase.vin = [txin]) (hnone : witnessCommitment block = none)
  (hwitness : txin.scriptWitness = [] ∨ txin.scriptWitness = [witnessNonce])
include hactive hmax hvtx hvin hnone hwitness

theorem generated_coinbase : ∃ tx txin',
    (generateCoinbaseCommitment hash256 ctx block).2.vtx = tx :: vtx ∧
    tx.vout = coinbase.vout ++ [⟨0, commitmentScript hash256 block⟩] ∧ tx.vin = [txin'] ∧
    txin'.scriptWitness = [witnessNonce] := by
  have hs (tx : CTransaction)
      (h : tx.vout = coinbase.vout ++ [⟨0, commitmentScript hash256 block⟩]) :
      witnessCommitment { block with vtx := tx :: vtx } = some (commitmentScript hash256 block) :=
    witnessCommitment_append rfl h isWitnessCommitment_commitmentScript
  rw [generateCoinbaseCommitment, if_pos ⟨hmax, by rw [hnone]; rfl⟩]
  rcases hwitness with h | h <;>
    simp [updateUncommittedBlockStructures, CBlock.modifyCoinbase, CTransaction.withNonce,
      CTransaction.hasWitness, *]

/-- The generated commitment is accepted if the coinbase comes without a witness or with the
reserved value of zeros, also after its `scriptSig` was changed. -/
theorem passesWitnessCheck_generated :
    PassesWitnessCheck hash256 ctx (generateCoinbaseCommitment hash256 ctx block).2 ∧
    ∀ scriptSig, PassesWitnessCheck hash256 ctx
      ((generateCoinbaseCommitment hash256 ctx block).2.withScriptSig hash256 scriptSig) := by
  obtain ⟨tx, txin', ht, hv, hvin', hn⟩ :=
    @generated_coinbase hash256 _ _ _ _ _ hactive hmax hvtx hvin hnone hwitness
  refine ⟨passesWitnessCheck_of_ok ?_, fun scriptSig => passesWitnessCheck_of_ok ?_⟩
  · exact checkWitnessCommitment_of_tail hactive ht hvtx hv hvin' hn
  · have hvin'' : (tx.vin.modifyHead fun txin => { txin with scriptSig }) =
        [{ txin' with scriptSig }] := by
      rw [hvin', modifyHead_cons]
    exact checkWitnessCommitment_of_tail hactive (CBlock.modifyCoinbase_vtx ht) hvtx hv hvin''
      hn

end Accepted

def firstBlock (scriptWitness : List (List UInt8)) : CBlock :=
  ⟨0, 0, 0, [⟨[⟨⟨0, 2 ^ 32 - 1⟩, [0x51, 0], 2 ^ 32 - 1, scriptWitness⟩], [⟨0, [0x51]⟩], 1, 0, 0⟩]⟩

def regtest1 : BodyContext := ⟨Network.regtest.consensus, some (0, 0), 0⟩

theorem passesWitnessCheck_generated_first : PassesWitnessCheck (fun _ => 0) regtest1
    (generateCoinbaseCommitment (fun _ => 0) regtest1 (firstBlock [])).2 :=
  (passesWitnessCheck_generated (by decide) (by decide) rfl rfl rfl (.inl rfl)).1

/-- A witness that the coinbase already has is kept, whatever it is. -/
theorem not_passesWitnessCheck_first :
    regtest1.params.SegwitHeight ≤ regtest1.nHeight ∧ witnessCommitment (firstBlock [[1]]) = none ∧
    ¬ PassesWitnessCheck (fun _ => 0) regtest1
      (generateCoinbaseCommitment (fun _ => 0) regtest1 (firstBlock [[1]])).2 := by
  refine ⟨by decide, rfl, fun h => ?_⟩
  exact (h ⟨.mutated, "bad-witness-nonce-size"⟩ rfl).2.1 rfl

end Palladium
