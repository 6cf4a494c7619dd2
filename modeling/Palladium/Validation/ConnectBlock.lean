import Palladium.Consensus.TxVerify
import Palladium.Lib.Except
import Palladium.Pow.Work

/-! # Connecting and disconnecting blocks

`CheckBlock`, `ConnectBlock` with `UpdateCoins`, and `DisconnectBlock` with `ApplyTxInUndo`, as
programs over a coins view.
-/

namespace Palladium
open CoinsM

/-- Checks that only read the transaction, the block and the coins spent. -/
structure ScriptChecks where
  getSerializeSize : CTransaction → ℕ
  getBlockSerializeSize : CBlock → ℕ
  blockMerkleRoot : CBlock → Uint256 × Bool
  getLegacySigOpCount : CTransaction → ℕ
  getInputSigOpCost : CTransaction → List CTxOut → ℕ
  sequenceLocks : CTransaction → List ℕ → Bool
  checkInputScripts : CTransaction → List CTxOut → Option String

instance : Inhabited ScriptChecks where
  default :=
    { getSerializeSize := fun _ => 100
      getBlockSerializeSize := fun _ => 300
      blockMerkleRoot := fun block => (block.hashMerkleRoot, false)
      getLegacySigOpCount := fun _ => 0
      getInputSigOpCost := fun _ _ => 0
      sequenceLocks := fun _ _ => true
      checkInputScripts := fun _ _ => none }

/-- What `ConnectBlock` reads of the index entry of the block and of the configuration. -/
structure ConnectContext where
  params : Params
  hash : Uint256
  /-- Hash and height of `pprev`. -/
  pprev : Option (Uint256 × ℕ)
  /-- Hash of the ancestor of `pprev` at `BIP34Height`. -/
  hashAtBIP34Height : Option Uint256
  fScriptChecks : Bool
  checks : ScriptChecks

namespace ConnectContext
variable (ctx : ConnectContext)

def nHeight : ℕ := ctx.pprev.elim 0 (·.2 + 1)

def hashPrevBlock : Uint256 := ctx.pprev.elim 0 (·.1)

def bip34ImpliesBip30Limit : ℕ := 1983702

/-- Whether the block must not create an output that is still unspent. -/
def enforcesBIP30 : Bool :=
  (!((ctx.nHeight = 91842 &&
        ctx.hash = 0x00000000000a4d0a398161ffc163c503763b1f4360639393e0e4c8e300e0caec) ||
      (ctx.nHeight = 91880 &&
        ctx.hash = 0x00000000000743f190a18c5577a3c2d2a1f610ae9601ac046a38084ccb7cd721)) &&
    ctx.hashAtBIP34Height ≠ some ctx.params.BIP34Hash) ||
  ctx.nHeight ≥ bip34ImpliesBip30Limit

end ConnectContext

/-- The coins a transaction spent, in the order of its inputs. -/
structure CTxUndo where
  vprevout : List Coin
  deriving DecidableEq, Repr

def checkTransactions (checks : ScriptChecks) : List CTransaction → Except Halt Unit
  | [] => .ok ()
  | tx :: vtx => do
    checkTransaction (checks.getSerializeSize tx) tx
    checkTransactions checks vtx

def checkBlock (checks : ScriptChecks) (params : Params) (block : CBlock) : Except Halt Unit :=
  if !checkProofOfWork block.hash block.nBits params then .error (.invalid "high-hash")
  else if block.hashMerkleRoot ≠ (checks.blockMerkleRoot block).1 then
    .error (.invalid "bad-txnmrklroot")
  else if (checks.blockMerkleRoot block).2 then .error (.invalid "bad-txns-duplicate")
  else if block.vtx.isEmpty || block.vtx.length * witnessScaleFactor > maxBlockWeight ||
      checks.getBlockSerializeSize block * witnessScaleFactor > maxBlockWeight then
    .error (.invalid "bad-blk-length")
  else if !(block.vtx.head?.any (·.isCoinBase)) then .error (.invalid "bad-cb-missing")
  else if block.vtx.tail.any (·.isCoinBase) then .error (.invalid "bad-cb-multiple")
  else do
    checkTransactions checks block.vtx
    if (block.vtx.map checks.getLegacySigOpCount).sum * witnessScaleFactor > maxBlockSigopsCost then
      .error (.invalid "bad-blk-sigops")
    else .ok ()

namespace CoinsM

def spendInputs : List CTxIn → CoinsM (List Coin)
  | [] => pure []
  | txin :: vin => do
    match ← spendCoin txin.prevout with
    | none => .halt .assertion
    | some coin => do
      let coins ← spendInputs vin
      pure (coin :: coins)

variable (tx : CTransaction)

/-- The undo data of a transaction, with its inputs spent. -/
def spendTx : CoinsM CTxUndo :=
  if tx.isCoinBase then pure ⟨[]⟩
  else do
    let vprevout ← spendInputs tx.vin
    pure ⟨vprevout⟩

/-- Whether `AddCoins` tells `AddCoin` to expect a coin at the outpoint. -/
def overwriteFlag (fCoinbase check : Bool) (o : COutPoint) : CoinsM Bool :=
  if check then haveCoin o else pure fCoinbase

def addOutputs (txid : Uint256) (nHeight : ℕ) (fCoinbase check : Bool) :
    ℕ → List CTxOut → CoinsM Unit
  | _, [] => pure ()
  | i, out :: vout => do
    let overwrite ← overwriteFlag fCoinbase check ⟨txid, i⟩
    addCoin ⟨txid, i⟩ ⟨out, fCoinbase, nHeight⟩ overwrite
    addOutputs txid nHeight fCoinbase check (i + 1) vout

def addCoins (nHeight : ℕ) (check : Bool) : CoinsM Unit :=
  addOutputs tx.hash nHeight tx.isCoinBase check 0 tx.vout

def updateCoins (nHeight : ℕ) : CoinsM CTxUndo := do
  let txundo ← spendTx tx
  addCoins tx nHeight false
  pure txundo

def prevHeights : List CTxIn → CoinsM (List ℕ)
  | [] => pure []
  | txin :: vin => do
    let coin ← accessCoin txin.prevout
    let heights ← prevHeights vin
    pure (coin.nHeight :: heights)

def accessOutputs : List CTxIn → CoinsM (List CTxOut)
  | [] => pure []
  | txin :: vin => do
    let coin ← accessCoin txin.prevout
    if coin.isSpent then .halt .assertion
    else do
      let outs ← accessOutputs vin
      pure (coin.out :: outs)

def spentOutputs : CoinsM (List CTxOut) :=
  if tx.isCoinBase then pure [] else accessOutputs tx.vin

end CoinsM

namespace ConnectContext
variable (ctx : ConnectContext)

/-- The fees after a transaction, with the checks that read the coins it spends. -/
def addFees (nFees : ℤ) (tx : CTransaction) : CoinsM ℤ :=
  if tx.isCoinBase then pure nFees
  else do
    let txfee ← checkTxInputs tx ctx.nHeight
    let fees ← .lift (addAmount nFees txfee)
    if !moneyRange fees then .halt (.invalid "bad-txns-accumulated-fee-outofrange")
    else do
      let prevheights ← prevHeights tx.vin
      if !ctx.checks.sequenceLocks tx prevheights then .halt (.invalid "bad-txns-nonfinal")
      else pure fees

/-- The signature operations and scripts of a transaction, from the cost so far. -/
def checkScripts (nSigOpsCost : ℕ) (tx : CTransaction) : CoinsM ℕ := do
  let spent_outputs ← spentOutputs tx
  let cost := nSigOpsCost + (ctx.checks.getLegacySigOpCount tx * witnessScaleFactor +
    ctx.checks.getInputSigOpCost tx spent_outputs)
  if cost > maxBlockSigopsCost then .halt (.invalid "bad-blk-sigops")
  else
    match if ctx.fScriptChecks && !tx.isCoinBase
      then ctx.checks.checkInputScripts tx spent_outputs else none with
    | some reason => .halt (.invalid reason)
    | none => pure cost

/-- The loop of `ConnectBlock` over the transactions: total fees and undo data. -/
def connectTxs : ℤ → ℕ → List CTransaction → CoinsM (ℤ × List CTxUndo)
  | nFees, _, [] => pure (nFees, [])
  | nFees, nSigOpsCost, tx :: vtx => do
    let fees ← ctx.addFees nFees tx
    let cost ← ctx.checkScripts nSigOpsCost tx
    let txundo ← updateCoins tx ctx.nHeight
    let r ← connectTxs fees cost vtx
    pure (r.1, txundo :: r.2)

variable (vtx : List CTransaction)

def createdOutPoints : List COutPoint :=
  vtx.flatMap fun tx => (List.range tx.vout.length).map (COutPoint.mk tx.hash)

def anyHaveCoin : List COutPoint → CoinsM Bool
  | [] => pure false
  | o :: os => do
    if ← haveCoin o then pure true else anyHaveCoin os

def violatesBIP30 : CoinsM Bool :=
  if ctx.enforcesBIP30 then anyHaveCoin (createdOutPoints vtx) else pure false

/-- The coinbase pays at most the fees and the subsidy. -/
def checkReward (nFees : ℤ) : List CTransaction → Except Halt Unit
  | [] => .error .assertion
  | coinbase :: _ => do
    let blockReward ← addAmount nFees (getBlockSubsidy ctx.nHeight ctx.params)
    let value_out ← coinbase.getValueOut
    if value_out > blockReward then .error (.invalid "bad-cb-amount") else .ok ()

/-- The part of `ConnectBlock` that acts on the coins; the undo data leave out the coinbase. -/
def connectCoins : CoinsM (List CTxUndo) := do
  let overwrites ← ctx.violatesBIP30 vtx
  if overwrites then .halt (.invalid "bad-txns-BIP30")
  else do
    let r ← ctx.connectTxs 0 0 vtx
    .lift (ctx.checkReward r.1 vtx)
    pure r.2.tail

/-- `ConnectBlock` on a map of coins with a best block, with `fJustCheck` off. -/
def connectBlock (strict : Bool) (block : CBlock) (view : CCoinsView) :
    Except Halt (List CTxUndo × CCoinsView) :=
  if ctx.hash ≠ block.hash then .error .assertion
  else do
    checkBlock ctx.checks ctx.params block
    if ctx.hashPrevBlock ≠ view.hashBlock then .error .assertion
    else if block.hash = ctx.params.hashGenesisBlock then .ok ([], ⟨view.coins, ctx.hash⟩)
    else if ctx.pprev.isNone then .error .assertion
    else do
      let r ← (ctx.connectCoins block.vtx).run (mapMachine strict) view.coins
      .ok (r.1, ⟨r.2, ctx.hash⟩)

end ConnectContext

inductive DisconnectResult | ok | unclean | failed
  deriving DecidableEq, Repr

namespace DisconnectResult

def ofClean (fClean : Bool) : DisconnectResult := if fClean then ok else unclean

def and : DisconnectResult → DisconnectResult → DisconnectResult
  | failed, _ => failed
  | _, failed => failed
  | ok, r => r
  | unclean, _ => unclean

end DisconnectResult

def minTransactionOutputWeight : ℕ := witnessScaleFactor * 9

def maxOutputsPerBlock : ℕ := maxBlockWeight / minTransactionOutputWeight

namespace CoinsM

/-- The loop of `AccessByTxid` from output `n`, for `fuel` outputs. -/
def accessByTxidFrom (txid : Uint256) : ℕ → ℕ → CoinsM Coin
  | 0, _ => pure coinEmpty
  | fuel + 1, n => do
    let alternate ← accessCoin ⟨txid, n⟩
    if alternate.isSpent then accessByTxidFrom txid fuel (n + 1) else pure alternate

def accessByTxid (txid : Uint256) : CoinsM Coin := accessByTxidFrom txid maxOutputsPerBlock 0

/-- The coin to restore; the height and coinbase flag that old undo data lack are those of another
output of the transaction, none if there is no other. -/
def completeUndo (undo : Coin) (out : COutPoint) : CoinsM (Option Coin) :=
  if undo.nHeight = 0 then do
    let alternate ← accessByTxid out.hash
    if alternate.isSpent then pure none
    else pure (some { undo with nHeight := alternate.nHeight, fCoinBase := alternate.fCoinBase })
  else pure (some undo)

def applyTxInUndo (undo : Coin) (out : COutPoint) : CoinsM DisconnectResult := do
  let present ← haveCoin out
  match ← completeUndo undo out with
  | none => pure .failed
  | some coin => do
    addCoin out coin present
    pure (.ofClean !present)

def spendOutput (o : COutPoint) (created : Coin) : CoinsM Bool :=
  if CScript.isUnspendable created.out.scriptPubKey then pure true
  else do
    let coin ← spendCoin o
    pure (coin = some created)

def spendOutputs (hash : Uint256) (nHeight : ℕ) (is_coinbase : Bool) :
    ℕ → List CTxOut → CoinsM Bool
  | _, [] => pure true
  | o, out :: vout => do
    let fClean ← spendOutput ⟨hash, o⟩ ⟨out, is_coinbase, nHeight⟩
    let rest ← spendOutputs hash nHeight is_coinbase (o + 1) vout
    pure (fClean && rest)

def restoreInputs : List (CTxIn × Coin) → CoinsM DisconnectResult
  | [] => pure .ok
  | (txin, undo) :: inputs => do
    match ← applyTxInUndo undo txin.prevout with
    | .failed => pure .failed
    | res => do
      let rest ← restoreInputs inputs
      pure (res.and rest)

/-- One turn of the loop of `DisconnectBlock`; the coinbase comes without undo data. -/
def disconnectTx (nHeight : ℕ) (tx : CTransaction) (txundo : Option CTxUndo) :
    CoinsM DisconnectResult := do
  let fClean ← spendOutputs tx.hash nHeight tx.isCoinBase 0 tx.vout
  match txundo with
  | none => pure (.ofClean fClean)
  | some txundo =>
    if txundo.vprevout.length ≠ tx.vin.length then pure .failed
    else do
      let res ← restoreInputs (tx.vin.zip txundo.vprevout).reverse
      pure ((DisconnectResult.ofClean fClean).and res)

/-- The loop of `DisconnectBlock`, over the transactions from the last to the first. -/
def disconnectTxs (nHeight : ℕ) : List (CTransaction × Option CTxUndo) → CoinsM DisconnectResult
  | [] => pure .ok
  | (tx, txundo) :: rest => do
    match ← disconnectTx nHeight tx txundo with
    | .failed => pure .failed
    | res => do
      let res' ← disconnectTxs nHeight rest
      pure (res.and res')

/-- The part of `DisconnectBlock` that acts on the coins, with the undo data as read. -/
def disconnectCoins (nHeight : ℕ) (vtx : List CTransaction) (vtxundo : List CTxUndo) :
    CoinsM DisconnectResult :=
  if vtxundo.length + 1 ≠ vtx.length then pure .failed
  else disconnectTxs nHeight (vtx.zip (none :: vtxundo.map some)).reverse

end CoinsM

/-- `DisconnectBlock` on a map of coins with a best block. -/
def ConnectContext.disconnectBlock (ctx : ConnectContext) (strict : Bool) (block : CBlock)
    (vtxundo : List CTxUndo) (view : CCoinsView) :
    Except Halt (DisconnectResult × CCoinsView) := do
  let r ← (disconnectCoins ctx.nHeight block.vtx vtxundo).run (mapMachine strict) view.coins
  if r.1 = .failed then .ok (r.1, ⟨r.2, view.hashBlock⟩)
  else .ok (r.1, ⟨r.2, ctx.hashPrevBlock⟩)

end Palladium
