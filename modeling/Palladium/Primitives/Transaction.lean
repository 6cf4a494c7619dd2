import Palladium.Consensus.Params

/-! # Transactions and blocks

The parts of `COutPoint`, `CTxIn`, `CTxOut`, `CTransaction` and `CBlock` that validation reads.
-/

namespace Palladium

abbrev CScript := List UInt8

def opReturn : UInt8 := 0x6a

def maxScriptSize : ℕ := 10000

def CScript.isUnspendable (script : CScript) : Bool :=
  script.head? = some opReturn || script.length > maxScriptSize

/-- The `n`-th output of the transaction with the given hash. -/
structure COutPoint where
  hash : Uint256
  n : ℕ
  deriving DecidableEq, Repr

def COutPoint.nullIndex : ℕ := 2 ^ 32 - 1

def COutPoint.isNull (o : COutPoint) : Bool := o.hash = 0 && o.n = nullIndex

structure CTxIn where
  prevout : COutPoint
  scriptSig : CScript
  nSequence : ℕ
  scriptWitness : List (List UInt8)
  deriving DecidableEq, Repr

/-- An output; amounts are signed numbers of satoshis. -/
structure CTxOut where
  nValue : ℤ
  scriptPubKey : CScript
  deriving DecidableEq, Repr

def CTxOut.null : CTxOut := ⟨-1, []⟩

def CTxOut.isNull (out : CTxOut) : Bool := out.nValue = -1

structure CTransaction where
  vin : List CTxIn
  vout : List CTxOut
  nVersion : ℤ
  nLockTime : ℕ
  hash : Uint256
  deriving DecidableEq, Repr

def CTransaction.isCoinBase (tx : CTransaction) : Bool :=
  match tx.vin with
  | [txin] => txin.prevout.isNull
  | _ => false

def CTransaction.hasWitness (tx : CTransaction) : Bool := tx.vin.any (!·.scriptWitness.isEmpty)

structure CBlock where
  hash : Uint256
  hashMerkleRoot : Uint256
  nBits : UInt32
  vtx : List CTransaction
  deriving DecidableEq, Repr

/-- What ends a computation early: a rejection with its reason, a logged `error`, a failed
`assert`, an exception with its text, or a signed overflow. -/
inductive Halt
  | invalid (reason : String)
  | failure (message : String)
  | assertion
  | logicError (what : String)
  | runtimeError (what : String)
  | overflow
  deriving DecidableEq, Repr

end Palladium
