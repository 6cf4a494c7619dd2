import Palladium.Script.SignatureHash
import Palladium.Validation.ScriptFlags

/-! # Signing

`ProduceSignature` looks up the scripts behind the hashes of an output, signs the innermost one with
the keys that a provider knows, and keeps the result only if it verifies.
-/

namespace Palladium

structure KeyOriginInfo where
  fingerprint : List UInt8
  path : List ℕ
  deriving DecidableEq, Repr

/-- `SigningProvider`. Keys are asked for by the hash of their public key. -/
structure SigningProvider where
  getCScript : (scriptid : Valtype) → Option CScript
  getPubKey : (address : Valtype) → Option CPubKey
  getKey : (address : Valtype) → Option CKey
  getKeyOrigin : (keyid : Valtype) → Option KeyOriginInfo
  getTaprootInternalKey : (outputKey : Valtype) → Option CPubKey

def dummySigningProvider : SigningProvider :=
  ⟨fun _ => none, fun _ => none, fun _ => none, fun _ => none, fun _ => none⟩

structure SignatureData where
  complete : Bool := false
  witness : Bool := false
  scriptSig : CScript := []
  redeemScript : CScript := []
  witnessScript : CScript := []
  scriptWitness : List Valtype := []
  /-- The public key and the signature, by the hash of the key. -/
  signatures : AList (fun _ : Valtype => CPubKey × Valtype) := ∅
  miscPubkeys : AList (fun _ : Valtype => CPubKey × KeyOriginInfo) := ∅
  missingPubkeys : List Valtype := []
  missingSigs : List Valtype := []
  missingRedeemScript : Valtype := List.replicate 20 0
  missingWitnessScript : Valtype := unsetHash

/-- `std::map::emplace`, which keeps a value that is there. -/
def emplace {β : Type} (m : AList fun _ : Valtype => β) (key : Valtype) (value : β) :
    AList fun _ : Valtype => β :=
  if (m.lookup key).isSome then m else m.insert key value

structure SignatureCreator where
  checker : SignatureChecker
  createSig : SigningProvider → (address : Valtype) → (scriptCode : CScript) → SigVersion →
    Option Valtype

section Creator
variable (crypto : Crypto) (curve : Curve) (tx : CTransaction) (nIn : ℕ) (amount : ℤ)
  (nHashType : UInt32) (txdata : Option PrecomputedTransactionData)

/-- A signature with its hash type behind it, which a taproot signature may leave out. -/
def createSchnorrSig (key : CKey) (scriptCode : CScript) (sigversion : SigVersion) :
    Option Valtype := do
  let data ← txdata
  guard (data.bip341TaprootReady = true)
  guard (key.fCompressed = true)
  let hash ← signatureHash crypto tx nIn nHashType txdata scriptCode amount sigversion
  let vchSig ← if sigversion = .taproot then curve.signSchnorrTaproot key hash
    else curve.signSchnorr key hash
  return if nHashType ≠ 0 then vchSig ++ [nHashType.toUInt8] else vchSig

def createEcdsaSig (key : CKey) (scriptCode : CScript) (sigversion : SigVersion) :
    Option Valtype := do
  -- keys in witness scripts are compressed
  guard (sigversion ≠ .witnessV0 ∨ key.fCompressed = true)
  let hash ← signatureHash crypto tx nIn nHashType txdata scriptCode amount sigversion
  let vchSig ← curve.sign key hash
  return vchSig ++ [nHashType.toUInt8]

def transactionSignatureCreator : SignatureCreator where
  checker := transactionSignatureChecker crypto curve tx nIn amount txdata
  createSig provider address scriptCode sigversion := do
    let key ← provider.getKey address
    if sigversion = .taproot ∨ sigversion = .tapscript then
      createSchnorrSig crypto curve tx nIn amount nHashType txdata key scriptCode sigversion
    else createEcdsaSig crypto curve tx nIn amount nHashType txdata key scriptCode sigversion

end Creator

def dummySignatureChecker : SignatureChecker where
  checkSig _ _ _ _ := true
  checkSchnorrSignature _ _ _ _ := .ok ()
  checkLockTime _ := false
  checkSequence _ := false

/-- A valid encoding of a signature whose numbers have the given lengths. -/
def dummyEcdsaSig (rLen sLen : ℕ) : Valtype :=
  [0x30, UInt8.ofNat (rLen + sLen + 4), 0x02, UInt8.ofNat rLen] ++
    (1 :: List.replicate (rLen - 1) 0) ++ [0x02, UInt8.ofNat sLen] ++
      (1 :: List.replicate (sLen - 1) 0) ++ [sighashAll]

def dummySignatureCreatorOf (rLen sLen : ℕ) : SignatureCreator where
  checker := dummySignatureChecker
  createSig _ _ _ sigversion :=
    if sigversion = .taproot ∨ sigversion = .tapscript then some (List.replicate 64 0)
    else some (dummyEcdsaSig rLen sLen)

def dummySignatureCreator : SignatureCreator := dummySignatureCreatorOf 32 32

section Sign
variable (crypto : Crypto) (curve : Curve) (provider : SigningProvider)
  (creator : SignatureCreator)
variable (sigdata : SignatureData)

def lookupCScript (scriptid : Valtype) : Option CScript :=
  match provider.getCScript scriptid with
  | some script => some script
  | none =>
    if crypto.hash160 sigdata.redeemScript = scriptid then some sigdata.redeemScript
    else if crypto.hash160 sigdata.witnessScript = scriptid then some sigdata.witnessScript
    else none

def lookupPubKey (address : Valtype) : Option CPubKey :=
  match sigdata.signatures.lookup address with
  | some (pubkey, _) => some pubkey
  | none =>
    match sigdata.miscPubkeys.lookup address with
    | some (pubkey, _) => some pubkey
    | none => provider.getPubKey address

/-- The keys that have the x-coordinate of the output key are tried as internal keys. -/
def enumerateTaprootPubKey (outputKey : Valtype) : Option CPubKey :=
  [2, 3].findSome? fun parity : UInt8 => do
    let candidate := CPubKey.ofVch (parity :: outputKey)
    guard (curve.isFullyValid candidate = true)
    let found ← provider.getPubKey (candidate.getID crypto)
    let internalKey := curve.getXOnlyPubKey found
    guard (crypto.xonlyPubkeyParse internalKey = true)
    guard (curve.createPayToTaprootPubKey internalKey = outputKey)
    return found

def findTaprootPubKey (outputKey : Valtype) : Option CPubKey :=
  if outputKey.length ≠ 32 then none
  else if !crypto.xonlyPubkeyParse outputKey then none
  else
    match provider.getTaprootInternalKey outputKey with
    | some pubkey => some pubkey
    | none => enumerateTaprootPubKey crypto curve provider outputKey

def createSig (pubkey : CPubKey) (scriptcode : CScript) (sigversion : SigVersion) :
    Option Valtype × SignatureData :=
  let keyid := pubkey.getID crypto
  match sigdata.signatures.lookup keyid with
  | some (_, sig) => (some sig, sigdata)
  | none =>
    let sigdata := match provider.getKeyOrigin keyid with
      | some info => { sigdata with miscPubkeys := emplace sigdata.miscPubkeys keyid (pubkey, info) }
      | none => sigdata
    match creator.createSig provider keyid scriptcode sigversion with
    | some sig =>
      (some sig, { sigdata with signatures := emplace sigdata.signatures keyid (pubkey, sig) })
    | none => (none, { sigdata with missingSigs := sigdata.missingSigs ++ [keyid] })

/-- The loop over the keys of a multisig script, of which all are signed for. -/
def signKeys (scriptPubKey : CScript) (sigversion : SigVersion) (required : ℕ) :
    (pubkeys : List Valtype) → (ret : List Valtype) → SignatureData → List Valtype × SignatureData
  | [], ret, sigdata => (ret, sigdata)
  | vch :: pubkeys, ret, sigdata =>
    let (sig, sigdata) :=
      createSig crypto provider creator sigdata (.ofVch vch) scriptPubKey sigversion
    let ret := match sig with
      | some sig => if ret.length < required + 1 then ret ++ [sig] else ret
      | none => ret
    signKeys scriptPubKey sigversion required pubkeys ret sigdata

/-- `SignStep`: whether the script is solved, the elements that solve it, and the data. -/
def signStep (scriptPubKey : CScript) (sigversion : SigVersion) (sigdata : SignatureData) :
    Bool × List Valtype × SignatureData :=
  match solver scriptPubKey with
  | .nonstandard | .nullData | .witnessUnknown .. => (false, [], sigdata)
  | .pubkey vch =>
    match createSig crypto provider creator sigdata (.ofVch vch) scriptPubKey sigversion with
    | (some sig, sigdata) => (true, [sig], sigdata)
    | (none, sigdata) => (false, [], sigdata)
  | .pubkeyhash keyID =>
    match lookupPubKey provider sigdata keyID with
    | none => (false, [], { sigdata with missingPubkeys := sigdata.missingPubkeys ++ [keyID] })
    | some pubkey =>
      match createSig crypto provider creator sigdata pubkey scriptPubKey sigversion with
      | (some sig, sigdata) => (true, [sig, pubkey.vch], sigdata)
      | (none, sigdata) => (false, [], sigdata)
  | .scripthash h160 =>
    match lookupCScript crypto provider sigdata h160 with
    | some script => (true, [script], sigdata)
    | none => (false, [], { sigdata with missingRedeemScript := h160 })
  | .multisig required pubkeys =>
    let (ret, sigdata) :=
      signKeys crypto provider creator scriptPubKey sigversion required pubkeys [[]] sigdata
    (ret.length = required + 1, ret ++ List.replicate (required + 1 - ret.length) [], sigdata)
  | .witnessV0Keyhash program => (true, [program], sigdata)
  | .witnessV0Scripthash program =>
    match lookupCScript crypto provider sigdata (crypto.ripemd160 program) with
    | some script => (true, [script], sigdata)
    | none => (false, [], { sigdata with missingWitnessScript := program })
  | .witnessV1Taproot program =>
    match findTaprootPubKey crypto curve provider program with
    | none => (false, [], sigdata)
    | some pubkey =>
      match createSig crypto provider creator sigdata pubkey [] .taproot with
      | (some sig, sigdata) => (true, [sig], sigdata)
      | (none, sigdata) => (false, [], sigdata)

def encodeOpN (n : ℕ) : UInt8 := UInt8.ofNat (op1.toNat + n - 1)

def pushElement (v : Valtype) : CScript :=
  match v with
  | [] => [0]
  | [b] => if 1 ≤ b && b ≤ 16 then [encodeOpN b.toNat] else CScript.push [] v
  | _ => CScript.push [] v

def pushAll (values : List Valtype) : CScript := values.flatMap pushElement

/-- The variables of `ProduceSignature`. The subscript is there if the output is a script hash. -/
structure SignState where
  solved : Bool
  whichType : Solution
  result : List Valtype
  subscript : Option CScript
  sigdata : SignatureData

def Solution.isScripthash : Solution → Bool
  | .scripthash _ => true
  | _ => false

def Solution.isHashForm : Solution → Bool
  | .scripthash _ | .witnessV0Scripthash _ | .witnessV0Keyhash _ => true
  | _ => false

variable (fromPubKey : CScript)

def beginSigning (sigdata : SignatureData) : SignState :=
  let (solved, result, sigdata) :=
    signStep crypto curve provider creator fromPubKey .base sigdata
  ⟨solved, solver fromPubKey, result, none, { sigdata with scriptWitness := [] }⟩

variable (s : SignState)

def signRedeemScript : SignState :=
  if s.solved && s.whichType.isScripthash then
    let subscript := s.result.headD []
    let (solved, result, sigdata) := signStep crypto curve provider creator subscript .base
      { s.sigdata with redeemScript := subscript }
    ⟨solved && !(solver subscript).isScripthash, solver subscript, result, some subscript, sigdata⟩
  else s

def signWitness : SignState :=
  if s.solved then
    match s.whichType with
    | .witnessV0Keyhash _ =>
      let (solved, result, sigdata) := signStep crypto curve provider creator
        (payToPubkeyHash (s.result.headD [])) .witnessV0 s.sigdata
      { s with
        solved
        result := []
        sigdata := { sigdata with scriptWitness := result, witness := true } }
    | .witnessV0Scripthash _ =>
      let witnessscript := s.result.headD []
      let (solved, result, sigdata) := signStep crypto curve provider creator witnessscript
        .witnessV0 { s.sigdata with witnessScript := witnessscript }
      { s with
        solved := solved && !(solver witnessscript).isHashForm
        result := []
        sigdata := { sigdata with scriptWitness := result ++ [witnessscript], witness := true } }
    | .witnessV1Taproot _ =>
      { s with result := [], sigdata := { s.sigdata with scriptWitness := s.result, witness := true } }
    | .witnessUnknown .. => { s with sigdata := { s.sigdata with witness := true } }
    | _ => s
  else s

/-- The solution is tested. -/
def finishSigning : SignatureData :=
  let scriptSig := pushAll (s.result ++ s.subscript.toList)
  { s.sigdata with
    scriptSig
    complete := s.solved && (verifyScript crypto standardScriptVerifyFlags creator.checker scriptSig
      fromPubKey (some s.sigdata.scriptWitness)).isOk }

/-- `ProduceSignature`, which returns `complete` of the data it leaves. -/
def produceSignature (sigdata : SignatureData) : SignatureData :=
  if sigdata.complete then sigdata
  else
    finishSigning crypto creator fromPubKey <| signWitness crypto curve provider creator <|
      signRedeemScript crypto curve provider creator <|
        beginSigning crypto curve provider creator fromPubKey sigdata

end Sign

end Palladium
