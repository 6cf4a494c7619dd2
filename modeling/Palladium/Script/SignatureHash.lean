import Palladium.Script.LockTime
import Palladium.Script.SignatureHashSchnorr
import Palladium.Script.Standard

/-! # What signatures sign

`SignatureHash` for all versions of scripts, and the checker of signatures of a transaction.
-/

namespace Palladium

def opCodeSeparatorByte : UInt8 := 0xab

def nSizeBytes (opcode : UInt8) : ℕ :=
  if opcode = opPushData1 then 1 else if opcode = opPushData2 then 2
  else if opcode = opPushData4 then 4 else 0

/-- What a `GetScriptOp` that fails has moved over. -/
def failedRead : CScript → List UInt8
  | [] => []
  | opcode :: pc =>
    opcode :: if pc.length < nSizeBytes opcode then [] else pc.take (nSizeBytes opcode)

/-- The bytes that `SerializeScriptCode` writes from `pc` on, without separators. -/
def scriptCodeFrom : ℕ → CScript → List UInt8
  | 0, _ => []
  | fuel + 1, pc =>
    match getScriptOp pc with
    | none => failedRead pc
    | some op =>
      (if op.opcode = opCodeSeparatorByte then [] else pc.take (pc.length - op.pc.length)) ++
        scriptCodeFrom fuel op.pc

def serializeScriptCode (scriptCode : CScript) : List UInt8 :=
  let nCodeSeparators := scriptCode.ops.countP fun op =>
    op.any fun op => op.opcode = opCodeSeparatorByte
  writeCompactSize (scriptCode.length - nCodeSeparators) ++
    scriptCodeFrom (scriptCode.length + 1) scriptCode

-- the script ends inside a push
example : serializeScriptCode [0x51, 0xab, 0x52, 0x4c, 5, 1] = [5, 0x51, 0x52, 0x4c, 5] := by decide

variable (nHashType : UInt32)

def hashesSingle : Bool := nHashType &&& 0x1f = 3
def hashesNone : Bool := nHashType &&& 0x1f = 2
def hashesAnyoneCanPay : Bool := nHashType &&& 0x80 ≠ 0

section Serializer
variable (tx : CTransaction) (scriptCode : CScript) (nIn : ℕ) (nHashType : UInt32)

def serializeInput (nInput : ℕ) (txin : CTxIn) : List UInt8 :=
  txin.prevout.serialize ++
    ((if nInput ≠ nIn then serializeVch [] else serializeScriptCode scriptCode) ++
      writeLE 4 (if nInput ≠ nIn && (hashesSingle nHashType || hashesNone nHashType) then 0
        else txin.nSequence))

def serializeInputs : List UInt8 :=
  if hashesAnyoneCanPay nHashType then
    writeCompactSize 1 ++
      (tx.vin[nIn]?.map (serializeInput scriptCode nIn nHashType nIn)).getD []
  else
    writeCompactSize tx.vin.length ++
      (tx.vin.zipIdx.flatMap fun (txin, nInput) =>
        serializeInput scriptCode nIn nHashType nInput txin)

def serializeOutputs : List UInt8 :=
  if hashesNone nHashType then writeCompactSize 0
  else if hashesSingle nHashType then
    -- the other outputs are not locked in
    writeCompactSize (nIn + 1) ++ ((List.replicate nIn CTxOut.null).flatMap CTxOut.serialize ++
      (tx.vout[nIn]?.map CTxOut.serialize).getD [])
  else writeVector CTxOut.serialize tx.vout

def serializeForSignature : List UInt8 :=
  writeInt 4 tx.nVersion ++ (serializeInputs tx scriptCode nIn nHashType ++
    (serializeOutputs tx nIn nHashType ++ writeLE 4 tx.nLockTime))

end Serializer

def uint256One : Valtype := 1 :: List.replicate 31 0

section Hash
variable (crypto : Crypto) (tx : CTransaction) (nIn : ℕ) (nHashType : UInt32)
  (cache : Option PrecomputedTransactionData)

def cachedHash (field : PrecomputedTransactionData → Valtype) (hash : Valtype) : Valtype :=
  match cache with
  | some cache => if cache.ready then field cache else hash
  | none => hash

def hashPrevoutsV0 : Valtype :=
  if !hashesAnyoneCanPay nHashType then cachedHash cache (·.hashPrevouts) (getPrevoutHash crypto tx)
  else unsetHash

def hashSequenceV0 : Valtype :=
  if !hashesAnyoneCanPay nHashType && !hashesSingle nHashType && !hashesNone nHashType then
    cachedHash cache (·.hashSequence) (getSequenceHash crypto tx)
  else unsetHash

def hashOutputsV0 : Valtype :=
  if !hashesSingle nHashType && !hashesNone nHashType then
    cachedHash cache (·.hashOutputs) (getOutputsHash crypto tx)
  else if hashesSingle nHashType then
    (tx.vout[nIn]?.map fun txout => crypto.hash256 txout.serialize).getD unsetHash
  else unsetHash

variable (scriptCode : CScript)

def signatureHashV0 (txin : CTxIn) (amount : ℤ) : Valtype :=
  crypto.hash256 <|
    writeInt 4 tx.nVersion ++ (hashPrevoutsV0 crypto tx nHashType cache ++
      (hashSequenceV0 crypto tx nHashType cache ++ (txin.prevout.serialize ++
        (serializeVch scriptCode ++ (writeInt 8 amount ++ (writeLE 4 txin.nSequence ++
          (hashOutputsV0 crypto tx nIn nHashType cache ++ (writeLE 4 tx.nLockTime ++
            writeLE 4 nHashType.toNat))))))))

def signatureHashBase : Valtype :=
  if hashesSingle nHashType && tx.vout.length ≤ nIn then uint256One
  else crypto.hash256
    (serializeForSignature tx scriptCode nIn nHashType ++ writeLE 4 nHashType.toNat)

def signatureHashTaproot : Valtype :=
  match cache with
  | none => unsetHash
  | some cache =>
    (signatureHashSchnorr crypto { annexInit := true } tx nIn nHashType.toUInt8 .taproot
      cache).getD unsetHash

/-- `SignatureHash`, where an index behind the inputs fails an assertion. -/
def signatureHash (amount : ℤ) (sigversion : SigVersion) : Option Valtype :=
  match tx.vin[nIn]? with
  | none => none
  | some txin =>
    match sigversion with
    | .taproot => some (signatureHashTaproot crypto tx nIn nHashType cache)
    | .tapscript => some unsetHash
    | .witnessV0 => some (signatureHashV0 crypto tx nIn nHashType cache scriptCode txin amount)
    | .base => some (signatureHashBase crypto tx nIn nHashType scriptCode)

end Hash

def baseSignatureChecker : SignatureChecker where
  checkSig _ _ _ _ := false
  checkSchnorrSignature _ _ _ _ := .error .unknownError
  checkLockTime _ := false
  checkSequence _ := false

def isDefinedHashtypeSignatureSchnorr (sig : Valtype) : Bool :=
  if sig.length = 64 then true
  else if sig.length ≠ 65 then false
  else if sig.getD 64 0 = sighashDefault then false
  else isSchnorrHashType (sig.getD 64 0)

def checkSchnorrSignatureEncoding (sig : Valtype) : Except ScriptError Unit :=
  if sig.length ≠ 64 && sig.length ≠ 65 then .error .schnorrSigSize
  else if !isDefinedHashtypeSignatureSchnorr sig then .error .schnorrSigHashtype
  else .ok ()

section Checker
variable (crypto : Crypto) (curve : Curve) (txTo : CTransaction) (nIn : ℕ) (amount : ℤ)
  (txdata : Option PrecomputedTransactionData)

/-- The hash type is the last byte of the signature. -/
def checkSig (vchSig vchPubKey : Valtype) (scriptCode : CScript) (sigversion : SigVersion) : Bool :=
  let pubkey := CPubKey.ofVch vchPubKey
  if !pubkey.isValid then false
  else if vchSig.isEmpty then false
  else
    match signatureHash crypto txTo nIn (vchSig.getLastD 0).toUInt32 txdata scriptCode amount
      sigversion with
    | some sighash => curve.verify pubkey sighash vchSig.dropLast
    | none => false

def checkSchnorrSignature (sig pubkey : Valtype) (sigversion : SigVersion)
    (execdata : ScriptExecutionData) : Except ScriptError Unit := do
  checkSchnorrSignatureEncoding sig
  if pubkey.length ≠ 32 then .error .pubkeyType
  else
    match txdata with
    -- no error is set
    | none => .error .unknownError
    | some txdata =>
      let hashtype := if sig.length = 65 then sig.getD 64 0 else sighashDefault
      match signatureHashSchnorr crypto execdata txTo nIn hashtype sigversion txdata with
      | none => .error .schnorrSigHashtype
      | some sighash =>
        if curve.verifySchnorr pubkey sighash (sig.take 64) then .ok () else .error .schnorrSig

/-- `GenericTransactionSignatureChecker`, with or without data of the transaction. -/
def transactionSignatureChecker : SignatureChecker where
  checkSig := checkSig crypto curve txTo nIn amount txdata
  checkSchnorrSignature := checkSchnorrSignature crypto curve txTo nIn txdata
  checkLockTime n := (checkLockTime txTo nIn n).getD false
  checkSequence n := (checkSequence txTo nIn n).getD false

end Checker

end Palladium
