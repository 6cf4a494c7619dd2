import Palladium.Coins.Machine

/-! # Amounts and the checks of single transactions

`CheckTransaction`, `Consensus::CheckTxInputs` and the functions on amounts they call.
-/

namespace Palladium

def coinUnit : ℤ := 100000000

def maxMoney : ℤ := 21000000 * coinUnit

def moneyRange (nValue : ℤ) : Bool := nValue ≥ 0 && nValue ≤ maxMoney

/-- The sum of two amounts, stopping where it leaves `int64_t`. -/
def addAmount (a b : ℤ) : Except Halt ℤ :=
  if -2 ^ 63 ≤ a + b ∧ a + b < 2 ^ 63 then .ok (a + b) else .error .overflow

def maxBlockWeight : ℕ := 4000000
def maxBlockSigopsCost : ℕ := 80000
def witnessScaleFactor : ℕ := 4
def coinbaseMaturity : ℤ := 120

def getBlockSubsidy (nHeight : ℕ) (params : Params) : ℤ :=
  let halvings := nHeight / params.nSubsidyHalvingInterval
  if halvings ≥ 64 then 0 else (50 * coinUnit) >>> halvings

/-- The loop of `GetValueOut`, from the sum so far. -/
def sumOutputs : ℤ → List CTxOut → Except Halt ℤ
  | nValueOut, [] => if moneyRange nValueOut then .ok nValueOut else .error .assertion
  | nValueOut, tx_out :: vout =>
    if !moneyRange tx_out.nValue then .error (.runtimeError "GetValueOut: value out of range")
    else do
      let sum ← addAmount nValueOut tx_out.nValue
      if !moneyRange sum then .error (.runtimeError "GetValueOut: value out of range")
      else sumOutputs sum vout

variable (tx : CTransaction)

def CTransaction.getValueOut : Except Halt ℤ := sumOutputs 0 tx.vout

/-- The output checks of `CheckTransaction`, from the sum so far. -/
def checkOutputValues : ℤ → List CTxOut → Except Halt Unit
  | _, [] => .ok ()
  | nValueOut, txout :: vout =>
    if txout.nValue < 0 then .error (.invalid "bad-txns-vout-negative")
    else if txout.nValue > maxMoney then .error (.invalid "bad-txns-vout-toolarge")
    else do
      let sum ← addAmount nValueOut txout.nValue
      if !moneyRange sum then .error (.invalid "bad-txns-txouttotal-toolarge")
      else checkOutputValues sum vout

def checkInputsShape : Except Halt Unit :=
  if !(tx.vin.map (·.prevout)).Nodup then .error (.invalid "bad-txns-inputs-duplicate")
  else if tx.isCoinBase then
    if tx.vin.any fun txin => txin.scriptSig.length < 2 || txin.scriptSig.length > 100 then
      .error (.invalid "bad-cb-length")
    else .ok ()
  else if tx.vin.any fun txin => txin.prevout.isNull then .error (.invalid "bad-txns-prevout-null")
  else .ok ()

/-- `CheckTransaction`; `size` is the serialized size without witness. -/
def checkTransaction (size : ℕ) (tx : CTransaction) : Except Halt Unit :=
  if tx.vin.isEmpty then .error (.invalid "bad-txns-vin-empty")
  else if tx.vout.isEmpty then .error (.invalid "bad-txns-vout-empty")
  else if size * witnessScaleFactor > maxBlockWeight then .error (.invalid "bad-txns-oversize")
  else do
    checkOutputValues 0 tx.vout
    checkInputsShape tx

/-- Below this an `nLockTime` is a height, from here on a time. -/
def lockTimeThreshold : ℕ := 500000000

def sequenceFinal : ℕ := 0xffffffff

def isFinalTx (nBlockHeight nBlockTime : ℤ) : Bool :=
  if tx.nLockTime = 0 then true
  else if tx.nLockTime < if tx.nLockTime < lockTimeThreshold then nBlockHeight else nBlockTime then
    true
  else tx.vin.all (·.nSequence = sequenceFinal)

namespace CoinsM

def haveCoins : List CTxIn → CoinsM Bool
  | [] => pure true
  | txin :: vin => do
    if ← haveCoin txin.prevout then haveCoins vin else pure false

def haveInputs : CoinsM Bool :=
  if tx.isCoinBase then pure true else haveCoins tx.vin

/-- The loop of `CheckTxInputs`, from the sum so far. -/
def sumInputs (nSpendHeight : ℕ) : ℤ → List CTxIn → CoinsM ℤ
  | nValueIn, [] => pure nValueIn
  | nValueIn, txin :: vin => do
    let coin ← accessCoin txin.prevout
    if coin.isSpent then .halt .assertion
    else if coin.fCoinBase && (nSpendHeight : ℤ) - coin.nHeight < coinbaseMaturity then
      .halt (.invalid "bad-txns-premature-spend-of-coinbase")
    else do
      let sum ← .lift (addAmount nValueIn coin.out.nValue)
      if !moneyRange coin.out.nValue || !moneyRange sum then
        .halt (.invalid "bad-txns-inputvalues-outofrange")
      else sumInputs nSpendHeight sum vin

/-- `Consensus::CheckTxInputs`, returning the fee. -/
def checkTxInputs (nSpendHeight : ℕ) : CoinsM ℤ := do
  let available ← haveInputs tx
  if !available then .halt (.invalid "bad-txns-inputs-missingorspent")
  else do
    let nValueIn ← sumInputs nSpendHeight 0 tx.vin
    let value_out ← .lift tx.getValueOut
    if nValueIn < value_out then .halt (.invalid "bad-txns-in-belowout")
    else if !moneyRange (nValueIn - value_out) then .halt (.invalid "bad-txns-fee-outofrange")
    else pure (nValueIn - value_out)

end CoinsM

end Palladium
