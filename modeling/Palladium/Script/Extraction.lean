import Palladium.Script.Multisig
import Palladium.Script.Signing

/-! # Signatures of an input

`DataFromTransaction` takes signatures and scripts out of an input that may be incomplete.
-/

namespace Palladium
open EvalM StateT

/-- A call of `CheckSig` that succeeded, by its key and its signature. -/
abbrev SigCall := Valtype × Valtype

/-- What a computation that may fail is followed by. -/
def afterOk {ε α β : Type} (x : Except ε α) (f : α → List β) : List β :=
  match x with
  | .ok a => f a
  | .error _ => []

section Calls
variable (crypto : Crypto) (flags : ScriptFlags) (checker : SignatureChecker)
  (sigversion : SigVersion)

/-- The part of `evalChecksigPreTapscript` before the checker is called. -/
def checksigScriptCode (vchSig vchPubKey : Valtype) : EvalM CScript := do
  let scriptCode ← dropSignature flags sigversion vchSig (← get).pbegincodehash
  checkSignatureEncoding crypto flags vchSig
  checkPubKeyEncoding flags sigversion vchPubKey
  return scriptCode

def checksigCalls (s : EvalState) : List SigCall :=
  match s.stack with
  | vchPubKey :: vchSig :: _ =>
    if sigversion = .tapscript then []
    else afterOk ((checksigScriptCode crypto flags sigversion vchSig vchPubKey).run s) fun r =>
      if checker.checkSig vchSig vchPubKey r.1 sigversion then [(vchPubKey, vchSig)] else []
  | _ => []

/-- The calls of the loop of `OP_CHECKMULTISIG`, which stops as `matchSigs` does. -/
def matchSigsCalls (scriptCode : CScript) : (keys sigs : List Valtype) → List SigCall
  | _, [] => []
  | [], _ :: _ => []
  | key :: keys, sig :: sigs =>
    afterOk (checkSignatureEncoding crypto flags sig) fun _ =>
    afterOk (checkPubKeyEncoding flags sigversion key) fun _ =>
      if checker.checkSig sig key scriptCode sigversion then
        (key, sig) :: if keys.length < sigs.length then [] else matchSigsCalls scriptCode keys sigs
      else
        if keys.length < sigs.length + 1 then [] else matchSigsCalls scriptCode keys (sig :: sigs)

def multisigCalls (s : EvalState) : List SigCall :=
  afterOk ((multisigArgs flags sigversion).run s) fun (args, s) =>
    matchSigsCalls crypto flags checker sigversion args.scriptCode
      ((s.stack.drop 1).take args.nKeysCount)
      ((s.stack.drop (2 + args.nKeysCount)).take args.nSigsCount)

def opcodeCalls (op : ScriptOp) (s : EvalState) : List SigCall :=
  match Opcode.ofByte op.opcode with
  | .opCheckSig | .opCheckSigVerify => checksigCalls crypto flags checker sigversion s
  | .opCheckMultiSig | .opCheckMultiSigVerify => multisigCalls crypto flags checker sigversion s
  | _ => []

def stepCalls (op : ScriptOp) (s : EvalState) : List SigCall :=
  afterOk ((checkOp flags sigversion op).run { s with opcodePos := s.opcodePos + 1 }) fun (_, s) =>
    if s.vfExec.allTrue then opcodeCalls crypto flags checker sigversion op s else []

def opsCalls : List (Option ScriptOp) → EvalState → List SigCall
  | [], _ => []
  | none :: _, _ => []
  | some op :: ops, s =>
    stepCalls crypto flags checker sigversion op s ++
      afterOk ((evalStep crypto flags checker sigversion op).run s) fun (_, s) => opsCalls ops s

variable (stack : List Valtype) (script : CScript)

def evalScriptCalls : List SigCall :=
  if sigversion.isLimited && maxScriptSize < script.length then []
  else opsCalls crypto flags checker sigversion script.ops (.start stack script {})

def witnessScriptCalls : List SigCall :=
  if stack.all fun elem => elem.length ≤ maxScriptElementSize then
    evalScriptCalls crypto flags checker .witnessV0 stack script
  else []

/-- The stack has its top in front. -/
def witnessV0Calls (program : Valtype) (stack : List Valtype) : List SigCall :=
  if program.length = 32 then
    match stack with
    | [] => []
    | scriptBytes :: stack =>
      if crypto.sha256 scriptBytes = program then
        witnessScriptCalls crypto flags checker stack scriptBytes
      else []
  else if program.length = 20 && stack.length = 2 then
    witnessScriptCalls crypto flags checker stack (payToPubkeyHash program)
  else []

/-- Only version 0 calls `CheckSig`. -/
def witnessProgramCalls (exact : Bool) (witness : List Valtype) : List SigCall :=
  match script.isWitnessProgram with
  | some (0, program) =>
    if flags.has .witness && exact then witnessV0Calls crypto flags checker program witness.reverse
    else []
  | _ => []

def evalBaseCalls : List SigCall :=
  evalScriptCalls crypto flags checker .base stack script

variable (scriptSig scriptPubKey : CScript)

def scriptHashCalls (witness stackCopy : List Valtype) : List SigCall :=
  if flags.has .p2sh && scriptPubKey.isPayToScriptHash && scriptSig.isPushOnly then
    match stackCopy with
    | [] => []
    | pubKey2 :: stack =>
      evalBaseCalls crypto flags checker stack pubKey2 ++
        afterOk (evalBase crypto flags checker stack pubKey2) fun stack =>
        afterOk (checkTrue stack) fun _ =>
          witnessProgramCalls crypto flags checker pubKey2 (scriptSig = CScript.push [] pubKey2)
            witness
  else []

def verifyScriptCalls (witness : List Valtype) : List SigCall :=
  afterOk (checkIf (flags.has .sigPushOnly) (check scriptSig.isPushOnly .sigPushOnly)) fun _ =>
  evalBaseCalls crypto flags checker [] scriptSig ++
    afterOk (evalBase crypto flags checker [] scriptSig) fun stackCopy =>
    evalBaseCalls crypto flags checker stackCopy scriptPubKey ++
      afterOk (evalBase crypto flags checker stackCopy scriptPubKey) fun stack =>
      afterOk (checkTrue stack) fun _ =>
        witnessProgramCalls crypto flags checker scriptPubKey scriptSig.isEmpty witness ++
          afterOk (verifyBareWitness crypto flags checker scriptSig scriptPubKey witness
            ⟨stack, false⟩) fun _ =>
          scriptHashCalls crypto flags checker scriptSig scriptPubKey witness stackCopy

end Calls

/-- `SignatureExtractorChecker`, which overrides `CheckSig` alone. -/
def signatureExtractorChecker (checker : SignatureChecker) : SignatureChecker :=
  { baseSignatureChecker with checkSig := checker.checkSig }

abbrev SigPairs := AList fun _ : Valtype => CPubKey × Valtype

section Extract
variable (crypto : Crypto) (checker : SignatureChecker)

def recordSig (signatures : SigPairs) (call : SigCall) : SigPairs :=
  emplace signatures ((CPubKey.ofVch call.1).getID crypto) (.ofVch call.1, call.2)

/-- The loop over the keys from `last_success_key` on; the keys behind the one found come first. -/
def findKey (nextScript : CScript) (sigversion : SigVersion) (sig : Valtype) :
    (left : List Valtype) → SigPairs → Option (List Valtype × SigPairs)
  | [], _ => none
  | pubkey :: left, signatures =>
    if (signatures.lookup ((CPubKey.ofVch pubkey).getID crypto)).isSome then some (left, signatures)
    else if checker.checkSig sig pubkey nextScript sigversion then
      some (left, recordSig crypto signatures (pubkey, sig))
    else findKey nextScript sigversion sig left signatures

/-- The loop over the elements, from the bottom of the stack. -/
def collectSigs (nextScript : CScript) (sigversion : SigVersion) :
    (elems : List Valtype) → (left : List Valtype) → SigPairs → SigPairs
  | [], _, signatures => signatures
  | sig :: elems, left, signatures =>
    match findKey crypto checker nextScript sigversion sig left signatures with
    | some (left, signatures) => collectSigs nextScript sigversion elems left signatures
    | none => collectSigs nextScript sigversion elems left signatures

/-- The stack that a script leaves. What it leaves when it fails is a parameter. -/
def stackOf (leftOver : CScript → List Valtype) (scriptSig : CScript) : List Valtype :=
  match evalBase crypto (.ofList [.strictEnc]) baseSignatureChecker [] scriptSig with
  | .ok stack => stack
  | .error _ => leftOver scriptSig

/-- The variables of `DataFromTransaction`. The stack has its top in front, the witness is in input
order. -/
structure ExtractionState where
  scriptType : Solution
  sigversion : SigVersion
  nextScript : CScript
  script : List Valtype
  witness : List Valtype
  data : SignatureData

variable (s : ExtractionState)

def takeRedeemScript : ExtractionState :=
  match s.scriptType, s.script with
  | .scripthash _, redeemScript :: script =>
    if redeemScript.isEmpty then s
    else
      { s with
        scriptType := solver redeemScript
        nextScript := redeemScript
        script
        data := { s.data with redeemScript } }
  | _, _ => s

def takeWitnessScript : ExtractionState :=
  match s.scriptType, s.witness.getLast? with
  | .witnessV0Scripthash _, some witnessScript =>
    if witnessScript.isEmpty then s
    else
      { scriptType := solver witnessScript
        sigversion := .witnessV0
        nextScript := witnessScript
        script := s.witness.dropLast.reverse
        witness := []
        data := { s.data with witnessScript } }
  | _, _ => s

def takeSignatures : SignatureData :=
  match s.scriptType with
  | .multisig _ pubkeys =>
    if s.script.isEmpty then s.data
    else
      { s.data with
        signatures := collectSigs crypto checker s.nextScript s.sigversion s.script.reverse pubkeys
          s.data.signatures }
  | _ => s.data

/-- `DataFromTransaction` for a checker of the transaction. -/
def dataFromInput (leftOver : CScript → List Valtype) (scriptSig : CScript)
    (scriptWitness : List Valtype) (scriptPubKey : CScript) : SignatureData :=
  let extractor := signatureExtractorChecker checker
  let calls := verifyScriptCalls crypto standardScriptVerifyFlags extractor scriptSig scriptPubKey
    scriptWitness
  let data : SignatureData :=
    { scriptSig, scriptWitness, signatures := calls.foldl (recordSig crypto) ∅ }
  if (verifyScript crypto standardScriptVerifyFlags extractor scriptSig scriptPubKey
      (some scriptWitness)).isOk then
    { data with complete := true }
  else
    takeSignatures crypto checker <| takeWitnessScript <| takeRedeemScript
      ⟨solver scriptPubKey, .base, scriptPubKey, stackOf crypto leftOver scriptSig, scriptWitness,
        data⟩

end Extract

/-- The input must be there. -/
def dataFromTransaction (crypto : Crypto) (curve : Curve) (leftOver : CScript → List Valtype)
    (tx : CTransaction) (nIn : ℕ) (txout : CTxOut) : Option SignatureData :=
  tx.vin[nIn]?.map fun txin =>
    dataFromInput crypto (transactionSignatureChecker crypto curve tx nIn txout.nValue none) leftOver
      txin.scriptSig txin.scriptWitness txout.scriptPubKey

end Palladium
