import Palladium.Script.Verify

/-! # Public keys and standard scripts

`Solver` recognises the forms that a script may have and takes the keys and hashes out of it.
-/

namespace Palladium

/-- The length of a public key with the given first byte. -/
def CPubKey.getLen (chHeader : UInt8) : ℕ :=
  if chHeader = 2 || chHeader = 3 then 33
  else if chHeader = 4 || chHeader = 6 || chHeader = 7 then 65
  else 0

def CPubKey.validSize (vch : Valtype) : Bool :=
  vch.length > 0 && getLen (vch.getD 0 0) = vch.length

/-- The bytes of a public key; an invalid key has none. -/
structure CPubKey where
  vch : Valtype
  vch_valid : vch = [] ∨ CPubKey.validSize vch = true
  deriving DecidableEq

namespace CPubKey

def ofVch (vch : Valtype) : CPubKey :=
  if h : validSize vch = true then ⟨vch, .inr h⟩ else ⟨[], .inl rfl⟩

def isValid (pubkey : CPubKey) : Bool := pubkey.vch.length > 0

def isCompressed (pubkey : CPubKey) : Bool := pubkey.vch.length = 33

def getID (crypto : Crypto) (pubkey : CPubKey) : Valtype := crypto.hash160 pubkey.vch

end CPubKey

/-- A valid private key. -/
structure CKey where
  keydata : Valtype
  fCompressed : Bool
  deriving DecidableEq, Repr

/-- What is asked of the curve library with keys. Hashes and x-only keys are strings of 32 bytes. -/
structure Curve where
  getPubKey : CKey → CPubKey
  /-- `CPubKey::IsFullyValid`. -/
  isFullyValid : CPubKey → Bool
  getXOnlyPubKey : CPubKey → Valtype
  /-- `CreatePayToTaprootPubKey` without a merkle root, and without the parity. -/
  createPayToTaprootPubKey : (internalKey : Valtype) → Valtype
  sign : CKey → (hash : Valtype) → Option Valtype
  signSchnorr : CKey → (hash : Valtype) → Option Valtype
  /-- `SignSchnorrTaproot` without a merkle root. -/
  signSchnorrTaproot : CKey → (hash : Valtype) → Option Valtype
  verify : CPubKey → (hash vchSig : Valtype) → Bool
  verifySchnorr : (pubkey hash sig : Valtype) → Bool

/-- `txnouttype` with the solutions that come with it. -/
inductive Solution
  | nonstandard
  | pubkey (pubkey : Valtype)
  | pubkeyhash (hash : Valtype)
  | scripthash (hash : Valtype)
  | multisig (required : ℕ) (pubkeys : List Valtype)
  | nullData
  | witnessV0Keyhash (program : Valtype)
  | witnessV0Scripthash (program : Valtype)
  | witnessV1Taproot (program : Valtype)
  | witnessUnknown (version : ℕ) (program : Valtype)
  deriving DecidableEq, Repr

variable (script : CScript)

def matchPayToPubkey : Option Valtype :=
  if script.length = 67 && script.getD 0 0 = 65 && script.getLastD 0 = opCheckSigByte then
    let pubkey := (script.drop 1).take 65
    if CPubKey.validSize pubkey then some pubkey else none
  else if script.length = 35 && script.getD 0 0 = 33 && script.getLastD 0 = opCheckSigByte then
    let pubkey := (script.drop 1).take 33
    if CPubKey.validSize pubkey then some pubkey else none
  else none

def matchPayToPubkeyHash : Option Valtype :=
  if script.length = 25 && script.getD 0 0 = opDupByte && script.getD 1 0 = opHash160Byte &&
      script.getD 2 0 = 20 && script.getD 23 0 = opEqualVerifyByte &&
      script.getD 24 0 = opCheckSigByte then
    some ((script.drop 3).take 20)
  else none

def isSmallInteger (opcode : UInt8) : Bool := op1 ≤ opcode && opcode ≤ op16

def decodeOpN (opcode : UInt8) : ℕ := opcode.toNat - 0x50

def matchKeys : List (Option ScriptOp) → List Valtype × Option ScriptOp
  | [] => ([], none)
  | none :: _ => ([], none)
  | some op :: ops =>
    if CPubKey.validSize op.vch then (op.vch :: (matchKeys ops).1, (matchKeys ops).2)
    else ([], some op)

/-- The instruction behind the keys gives their number. One byte is left after it. -/
def matchKeyCount (required : ℕ) : List Valtype × Option ScriptOp → Option (ℕ × List Valtype)
  | (pubkeys, some op) =>
    if isSmallInteger op.opcode && pubkeys.length = decodeOpN op.opcode &&
        required ≤ pubkeys.length && op.pc.length = 1 then
      some (required, pubkeys)
    else none
  | (_, none) => none

def matchMultisig : Option (ℕ × List Valtype) :=
  if script.getLast? = some opCheckMultisigByte then
    match script.ops with
    | some op :: ops =>
      if isSmallInteger op.opcode then matchKeyCount (decodeOpN op.opcode) (matchKeys ops)
      else none
    | _ => none
  else none

def solveWitnessProgram (version : ℕ) (program : Valtype) : Solution :=
  if version = 0 then
    if program.length = 20 then .witnessV0Keyhash program
    else if program.length = 32 then .witnessV0Scripthash program
    else .nonstandard
  else if version = 1 && program.length = 32 then .witnessV1Taproot program
  else .witnessUnknown version program

def solver (scriptPubKey : CScript) : Solution :=
  if scriptPubKey.isPayToScriptHash then .scripthash ((scriptPubKey.drop 2).take 20)
  else match scriptPubKey.isWitnessProgram with
  | some (version, program) => solveWitnessProgram version program
  | none =>
    if scriptPubKey.head? = some opReturn && CScript.isPushOnly (scriptPubKey.drop 1) then .nullData
    else match matchPayToPubkey scriptPubKey with
    | some pubkey => .pubkey pubkey
    | none =>
      match matchPayToPubkeyHash scriptPubKey with
      | some hash => .pubkeyhash hash
      | none =>
        match matchMultisig scriptPubKey with
        | some (required, pubkeys) => .multisig required pubkeys
        | none => .nonstandard

def getScriptForScriptHash (hash : Valtype) : CScript :=
  CScript.push [opHash160Byte] hash ++ [opEqualByte]

def getScriptForWitnessV0 (program : Valtype) : CScript := CScript.push [0] program

def getScriptForTaproot (outputKey : Valtype) : CScript := CScript.push [op1] outputKey

def getScriptForRawPubKey (pubkey : CPubKey) : CScript :=
  CScript.push [] pubkey.vch ++ [opCheckSigByte]

end Palladium
