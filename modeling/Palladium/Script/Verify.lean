import Palladium.Script.Interpreter

/-! # Script verification

`VerifyScript` evaluates the two scripts and then follows what the output asks for: a script hash, a
witness program of version 0, a taproot output, or a version of the future.
-/

namespace Palladium

def witnessSize (witness : List Valtype) : ℕ :=
  (writeCompactSize witness.length).length + (witness.map fun vch => (serializeVch vch).length).sum

/-- `CSHA256Writer` with a tag: its hash stands twice before the data. -/
def Crypto.taggedHash (crypto : Crypto) (tag : List Char) (data : List UInt8) : Valtype :=
  let taghash := crypto.sha256 (tag.map fun c => UInt8.ofNat c.toNat)
  crypto.sha256 (taghash ++ taghash ++ data)

def taprootLeafMask : UInt8 := 0xfe
def taprootLeafTapscript : UInt8 := 0xc0
def taprootControlBaseSize : ℕ := 33
def taprootControlNodeSize : ℕ := 32
def taprootControlMaxSize : ℕ := taprootControlBaseSize + taprootControlNodeSize * 128
def annexTag : UInt8 := 0x50

section Taproot
variable (crypto : Crypto)

def computeTapleafHash (leafVersion : UInt8) (script : CScript) : Valtype :=
  crypto.taggedHash ['T', 'a', 'p', 'L', 'e', 'a', 'f'] (leafVersion :: serializeVch script)

def tapBranch (k node : Valtype) : Valtype :=
  crypto.taggedHash ['T', 'a', 'p', 'B', 'r', 'a', 'n', 'c', 'h']
    (if k < node then k ++ node else node ++ k)

/-- The loop over the first `n` nodes of a merkle path. -/
def climbPath : ℕ → (path : List UInt8) → (k : Valtype) → Valtype
  | 0, _, k => k
  | n + 1, path, k =>
    climbPath n (path.drop taprootControlNodeSize)
      (tapBranch crypto k (path.take taprootControlNodeSize))

def computeTaprootMerkleRoot (control tapleafHash : Valtype) : Except ScriptHalt Valtype := do
  assert (taprootControlBaseSize ≤ control.length)
  assert (control.length ≤ taprootControlMaxSize)
  assert ((control.length - taprootControlBaseSize) % taprootControlNodeSize = 0)
  return climbPath crypto ((control.length - taprootControlBaseSize) / taprootControlNodeSize)
    (control.drop taprootControlBaseSize) tapleafHash

def verifyTaprootCommitment (control program tapleafHash : Valtype) : Except ScriptHalt Bool := do
  assert (taprootControlBaseSize ≤ control.length)
  assert (program.length = 32)
  let internalPubkey := (control.drop 1).take 32
  if crypto.xonlyPubkeyParse internalPubkey then do
    let merkleRoot ← computeTaprootMerkleRoot crypto control tapleafHash
    let tweak := crypto.taggedHash ['T', 'a', 'p', 'T', 'w', 'e', 'a', 'k']
      (internalPubkey ++ merkleRoot)
    return crypto.xonlyPubkeyTweakAddCheck program (control.getD 0 0 &&& 1 = 1) internalPubkey tweak
  else return false

end Taproot

section Witness
variable (crypto : Crypto) (flags : ScriptFlags) (checker : SignatureChecker)

/-- Look for an `OP_SUCCESSx`, which makes the script succeed whatever follows it. -/
def findOpSuccess : List (Option ScriptOp) → Except ScriptHalt Bool
  | [] => .ok false
  | none :: _ => .error (.error .badOpcode)
  | some op :: ops =>
    if isOpSuccess op.opcode then do
      checkIf (flags.has .discourageOpSuccess) (.error (.error .discourageOpSuccess))
      return true
    else findOpSuccess ops

variable (stack : List Valtype) (scriptPubKey : CScript) (sigversion : SigVersion)
  (execdata : ScriptExecutionData)

def runWitnessScript : Except ScriptHalt Unit := do
  check (stack.all fun elem => elem.length ≤ maxScriptElementSize) .pushSize
  let (stack, _) ← evalScript crypto flags checker sigversion stack scriptPubKey execdata
  check (stack.length = 1) .cleanStack
  check (castToBool (stack.headD [])) .evalFalse

def executeTapscript : Except ScriptHalt Unit := do
  let opSuccess ← findOpSuccess flags scriptPubKey.ops
  checkIf (!opSuccess) do
    check (stack.length ≤ maxStackSize) .stackSize
    runWitnessScript crypto flags checker stack scriptPubKey .tapscript execdata

def executeWitnessScript : Except ScriptHalt Unit :=
  if sigversion = .tapscript then executeTapscript crypto flags checker stack scriptPubKey execdata
  else runWitnessScript crypto flags checker stack scriptPubKey sigversion execdata

variable (program : Valtype)

def payToPubkeyHash : CScript :=
  CScript.push [opDupByte, opHash160Byte] program ++ [opEqualVerifyByte, opCheckSigByte]

/-- Version 0: a script hash or a key hash. The witness stack has its top in front. -/
def verifyWitnessV0 (stack : List Valtype) : Except ScriptHalt Unit :=
  if program.length = 32 then
    match stack with
    | [] => .error (.error .witnessProgramWitnessEmpty)
    | scriptBytes :: stack => do
      check (crypto.sha256 scriptBytes = program) .witnessProgramMismatch
      executeWitnessScript crypto flags checker stack scriptBytes .witnessV0 {}
  else if program.length = 20 then do
    check (stack.length = 2) .witnessProgramMismatch
    executeWitnessScript crypto flags checker stack (payToPubkeyHash program) .witnessV0 {}
  else .error (.error .witnessProgramWrongLength)

def popAnnex : List Valtype → Option Valtype × List Valtype
  | annex :: elem :: stack =>
    if annex.head? = some annexTag then (some annex, elem :: stack)
    else (none, annex :: elem :: stack)
  | stack => (none, stack)

def annexData (annex : Option Valtype) : ScriptExecutionData :=
  match annex with
  | some annex =>
    { annexInit := true, annexPresent := true, annexHash := crypto.sha256 (serializeVch annex) }
  | none => { annexInit := true }

variable (witnessLen : ℕ)

/-- A leaf that is committed to is run if it is a tapscript; other versions are reserved. -/
def verifyTaprootLeaf (control : Valtype) (script : CScript) (stack : List Valtype)
    (execdata : ScriptExecutionData) : Except ScriptHalt Unit :=
  if control.getD 0 0 &&& taprootLeafMask = taprootLeafTapscript then
    executeWitnessScript crypto flags checker stack script .tapscript
      { execdata with
        validationWeightLeft := witnessLen + validationWeightOffset
        validationWeightLeftInit := true }
  else
    checkIf (flags.has .discourageUpgradableTaprootVersion)
      (.error (.error .discourageUpgradableTaprootVersion))

/-- A spend by a script of the tree. -/
def verifyTaprootScript (program control : Valtype) (script : CScript) (stack : List Valtype)
    (execdata : ScriptExecutionData) : Except ScriptHalt Unit := do
  check (taprootControlBaseSize ≤ control.length && control.length ≤ taprootControlMaxSize &&
    (control.length - taprootControlBaseSize) % taprootControlNodeSize = 0) .taprootWrongControlSize
  let tapleafHash := computeTapleafHash crypto (control.getD 0 0 &&& taprootLeafMask) script
  let committed ← verifyTaprootCommitment crypto control program tapleafHash
  check committed .witnessProgramMismatch
  verifyTaprootLeaf crypto flags checker witnessLen control script stack
    { execdata with tapleafHash, tapleafHashInit := true }

/-- The spend of a taproot output by what is left without the annex. -/
def verifyTaprootSpend (program : Valtype) (execdata : ScriptExecutionData) :
    List Valtype → Except ScriptHalt Unit
  | [] => .error (.error .witnessProgramWitnessEmpty)
  | [sig] => (checker.checkSchnorrSignature sig program .taproot execdata).mapError .error
  | control :: script :: stack =>
    verifyTaprootScript crypto flags checker witnessLen program control script stack execdata

def verifyTaproot (stack : List Valtype) : Except ScriptHalt Unit :=
  checkIf (flags.has .taproot) <|
    verifyTaprootSpend crypto flags checker (witnessSize stack) program
      (annexData crypto (popAnnex stack).1) (popAnnex stack).2

def verifyWitnessProgram (witness : List Valtype) (witversion : ℕ) (program : Valtype)
    (isP2sh : Bool) : Except ScriptHalt Unit :=
  if witversion = 0 then verifyWitnessV0 crypto flags checker program witness.reverse
  else if witversion = 1 && program.length = 32 && !isP2sh then
    verifyTaproot crypto flags checker program witness.reverse
  else
    checkIf (flags.has .discourageUpgradableWitnessProgram)
      (.error (.error .discourageUpgradableWitnessProgram))

end Witness

section VerifyScript
variable (crypto : Crypto) (flags : ScriptFlags) (checker : SignatureChecker) (stack : List Valtype)

def evalBase (script : CScript) : Except ScriptHalt (List Valtype) := do
  let (stack, _) ← evalScript crypto flags checker .base stack script {}
  return stack

def checkTrue : Except ScriptHalt Unit :=
  check (!stack.isEmpty && castToBool (stack.headD [])) .evalFalse

/-- Where verification stands: the stack, and whether a witness program was found. -/
structure VerifyState where
  stack : List Valtype
  hadWitness : Bool
  deriving DecidableEq, Repr

def followWitnessProgram (script : CScript) (exact : Bool) (malleated : ScriptError)
    (isP2sh : Bool) (witness : List Valtype) (s : VerifyState) : Except ScriptHalt VerifyState :=
  match script.isWitnessProgram with
  | none => .ok s
  | some (version, program) => do
    check exact malleated
    verifyWitnessProgram crypto flags checker witness version program isP2sh
    return ⟨[s.stack.getLastD []], true⟩

variable (scriptSig scriptPubKey : CScript) (witness : List Valtype) (s : VerifyState)

def verifyBareWitness : Except ScriptHalt VerifyState :=
  if flags.has .witness then
    followWitnessProgram crypto flags checker scriptPubKey scriptSig.isEmpty .witnessMalleated
      false witness s
  else .ok s

def verifyP2shWitness (scriptSig pubKey2 : CScript) (witness : List Valtype) (s : VerifyState) :
    Except ScriptHalt VerifyState :=
  if flags.has .witness then
    followWitnessProgram crypto flags checker pubKey2 (scriptSig = CScript.push [] pubKey2)
      .witnessMalleatedP2SH true witness s
  else .ok s

variable (stackCopy : List Valtype)

/-- The script that the hash stands for, on the stack as the first script left it. -/
def evalRedeemScript : Except ScriptHalt (CScript × List Valtype) := do
  check scriptSig.isPushOnly .sigPushOnly
  assert (!stackCopy.isEmpty)
  let pubKey2 := stackCopy.headD []
  let stack ← popped stackCopy
  let stack ← evalBase crypto flags checker stack pubKey2
  checkTrue stack
  return (pubKey2, stack)

def verifyScriptHash (s : VerifyState) : Except ScriptHalt VerifyState :=
  if flags.has .p2sh && scriptPubKey.isPayToScriptHash then do
    let (pubKey2, stack) ← evalRedeemScript crypto flags checker scriptSig stackCopy
    verifyP2shWitness crypto flags checker scriptSig pubKey2 witness { s with stack }
  else .ok s

def checkCleanStack : Except ScriptHalt Unit :=
  checkIf (flags.has .cleanStack) do
    assert (flags.has .p2sh)
    assert (flags.has .witness)
    check (s.stack.length = 1) .cleanStack

def checkWitnessExpected : Except ScriptHalt Unit :=
  checkIf (flags.has .witness) do
    assert (flags.has .p2sh)
    check (s.hadWitness || witness.isEmpty) .witnessUnexpected

/-- Both scripts run one after the other; the stacks after the first and after the second. -/
def evalBoth : Except ScriptHalt (List Valtype × List Valtype) := do
  checkIf (flags.has .sigPushOnly) (check scriptSig.isPushOnly .sigPushOnly)
  let stackCopy ← evalBase crypto flags checker [] scriptSig
  let stack ← evalBase crypto flags checker stackCopy scriptPubKey
  checkTrue stack
  return (stackCopy, stack)

/-- `VerifyScript`, which returns true exactly if the result is `ok`. -/
def verifyScript (witness : Option (List Valtype)) : Except ScriptHalt Unit := do
  let witness := witness.getD []
  let (stackCopy, stack) ← evalBoth crypto flags checker scriptSig scriptPubKey
  let s ← verifyBareWitness crypto flags checker scriptSig scriptPubKey witness ⟨stack, false⟩
  let s ← verifyScriptHash crypto flags checker scriptSig scriptPubKey witness stackCopy s
  checkCleanStack flags s
  checkWitnessExpected flags witness s

end VerifyScript

end Palladium
