import Palladium.Script.Script

/-! # The script interpreter

`EvalScript` with all its opcodes: a stack machine whose steps may fail.
-/

namespace Palladium

inductive ScriptVerify
  | p2sh | strictEnc | derSig | lowS | nullDummy | sigPushOnly | minimalData
  | discourageUpgradableNops | cleanStack | checkLockTimeVerify | checkSequenceVerify | witness
  | discourageUpgradableWitnessProgram | minimalIf | nullFail | witnessPubkeyType
  | constScriptCode | taproot | discourageUpgradableTaprootVersion | discourageOpSuccess
  | discourageUpgradablePubkeyType
  deriving DecidableEq, Repr

def ScriptVerify.bit : ScriptVerify → ℕ
  | p2sh => 0
  | strictEnc => 1
  | derSig => 2
  | lowS => 3
  | nullDummy => 4
  | sigPushOnly => 5
  | minimalData => 6
  | discourageUpgradableNops => 7
  | cleanStack => 8
  | checkLockTimeVerify => 9
  | checkSequenceVerify => 10
  | witness => 11
  | discourageUpgradableWitnessProgram => 12
  | minimalIf => 13
  | nullFail => 14
  | witnessPubkeyType => 15
  | constScriptCode => 16
  | taproot => 17
  | discourageUpgradableTaprootVersion => 18
  | discourageOpSuccess => 19
  | discourageUpgradablePubkeyType => 20

/-- `unsigned int flags`. -/
abbrev ScriptFlags := BitVec 32

variable (flags : ScriptFlags)

def ScriptFlags.has (f : ScriptVerify) : Bool := flags.getLsbD f.bit

inductive SigVersion
  | base | witnessV0 | taproot | tapscript
  deriving DecidableEq, Repr

def SigVersion.isLimited : SigVersion → Bool
  | base | witnessV0 => true
  | taproot | tapscript => false

structure ScriptExecutionData where
  tapleafHashInit : Bool := false
  tapleafHash : Valtype := []
  codeseparatorPosInit : Bool := false
  codeseparatorPos : ℕ := 0xFFFFFFFF
  annexInit : Bool := false
  annexPresent : Bool := false
  annexHash : Valtype := []
  validationWeightLeftInit : Bool := false
  validationWeightLeft : ℤ := 0
  deriving DecidableEq, Repr

/-- `BaseSignatureChecker`. A failed `CheckSchnorrSignature` leaves its error behind. -/
structure SignatureChecker where
  checkSig : (vchSig vchPubKey : Valtype) → (scriptCode : CScript) → SigVersion → Bool
  checkSchnorrSignature : (sig pubkey : Valtype) → SigVersion → ScriptExecutionData →
    Except ScriptError Unit
  checkLockTime : CScriptNum → Bool
  checkSequence : CScriptNum → Bool

/-- The hash functions and what is asked of the curve library. -/
structure Crypto where
  ripemd160 : Valtype → Valtype
  sha1 : Valtype → Valtype
  sha256 : Valtype → Valtype
  /-- `CPubKey::CheckLowS`. -/
  checkLowS : Valtype → Bool
  /-- `secp256k1_xonly_pubkey_parse`. -/
  xonlyPubkeyParse : Valtype → Bool
  /-- `secp256k1_xonly_pubkey_tweak_add_check`. -/
  xonlyPubkeyTweakAddCheck : (tweaked : Valtype) → (parity : Bool) →
    (internal tweak : Valtype) → Bool

variable (crypto : Crypto)

def Crypto.hash160 (vch : Valtype) : Valtype :=
  crypto.ripemd160 (crypto.sha256 vch)

def Crypto.hash256 (vch : Valtype) : Valtype := crypto.sha256 (crypto.sha256 vch)

def validationWeightPerSigopPassed : ℤ := 50
def validationWeightOffset : ℤ := 50

def castToBool : Valtype → Bool
  | [] => false
  -- negative zero
  | [b] => b ≠ 0 && b ≠ 0x80
  | b :: c :: vch => b ≠ 0 || castToBool (c :: vch)

def isCompressedOrUncompressedPubKey (vchPubKey : Valtype) : Bool :=
  if vchPubKey.length < 33 then false
  else if vchPubKey.getD 0 0 = 0x04 then vchPubKey.length = 65
  else if vchPubKey.getD 0 0 = 0x02 || vchPubKey.getD 0 0 = 0x03 then vchPubKey.length = 33
  else false

def isCompressedPubKey (vchPubKey : Valtype) : Bool :=
  vchPubKey.length = 33 && (vchPubKey.getD 0 0 = 0x02 || vchPubKey.getD 0 0 = 0x03)

/-- An integer of a DER signature that starts at `i`: not empty, not negative, not padded. -/
def isDerInteger (sig : Valtype) (i len : ℕ) : Bool :=
  len ≠ 0 && sig.getD i 0 &&& 0x80 = 0 &&
    !(1 < len && sig.getD i 0 = 0 && sig.getD (i + 1) 0 &&& 0x80 = 0)

def isValidSignatureEncoding (sig : Valtype) : Bool :=
  let lenR := (sig.getD 3 0).toNat
  let lenS := (sig.getD (5 + lenR) 0).toNat
  9 ≤ sig.length && sig.length ≤ 73 && sig.getD 0 0 = 0x30 &&
    (sig.getD 1 0).toNat = sig.length - 3 && 5 + lenR < sig.length &&
    lenR + lenS + 7 = sig.length &&
    sig.getD 2 0 = 0x02 && isDerInteger sig 4 lenR &&
    sig.getD (lenR + 4) 0 = 0x02 && isDerInteger sig (lenR + 6) lenS

def isLowDERSignature (vchSig : Valtype) : Except ScriptHalt Unit := do
  check (isValidSignatureEncoding vchSig) .sigDer
  check (crypto.checkLowS vchSig.dropLast) .sigHighS

def isDefinedHashtypeSignature (vchSig : Valtype) : Bool :=
  let nHashType := vchSig.getLastD 0 &&& 0x7f
  !vchSig.isEmpty && 1 ≤ nHashType && nHashType ≤ 3

def checkIf (on : Bool) (x : Except ScriptHalt Unit) : Except ScriptHalt Unit :=
  if on then x else .ok ()

def checkSignatureEncoding (flags : ScriptFlags) (vchSig : Valtype) : Except ScriptHalt Unit :=
  checkIf (!vchSig.isEmpty) do
    checkIf (flags.has .derSig || flags.has .lowS || flags.has .strictEnc)
      (check (isValidSignatureEncoding vchSig) .sigDer)
    checkIf (flags.has .lowS) (isLowDERSignature crypto vchSig)
    checkIf (flags.has .strictEnc) (check (isDefinedHashtypeSignature vchSig) .sigHashtype)

variable (sigversion : SigVersion)

def checkPubKeyEncoding (vchPubKey : Valtype) : Except ScriptHalt Unit := do
  checkIf (flags.has .strictEnc)
    (check (isCompressedOrUncompressedPubKey vchPubKey) .pubkeyType)
  checkIf (flags.has .witnessPubkeyType)
    (check (sigversion ≠ .witnessV0 || isCompressedPubKey vchPubKey) .witnessPubkeyType)

def checkMinimalPush (data : Valtype) (opcode : UInt8) : Bool :=
  if data.length = 0 then opcode = 0
  else if data.length = 1 && 1 ≤ data.getD 0 0 && data.getD 0 0 ≤ 16 then false
  else if data.length = 1 && data.getD 0 0 = 0x81 then false
  else if data.length ≤ 75 then opcode.toNat = data.length
  else if data.length ≤ 255 then opcode = opPushData1
  else if data.length ≤ 65535 then opcode = opPushData2
  else true

/-- The inner loop of `FindAndDelete`: how often `b` stands at `pc`, and what follows. -/
def dropMatches (b : CScript) : ℕ → CScript → ℕ × CScript
  | 0, pc => (0, pc)
  | fuel + 1, pc =>
    if b.isPrefixOf pc then
      let (nFound, pc) := dropMatches b fuel (pc.drop b.length)
      (nFound + 1, pc)
    else (0, pc)

/-- The outer loop: the number of matches from `pc` on, and what is kept. -/
def findAndDeleteFrom (b : CScript) : ℕ → CScript → ℕ × CScript
  | 0, pc => (0, pc)
  | fuel + 1, pc =>
    let (nFound, pc2) := dropMatches b pc.length pc
    match getScriptOp pc2 with
    | none => (nFound, pc2)
    | some op =>
      let (n, result) := findAndDeleteFrom b fuel op.pc
      (nFound + n, pc2.take (pc2.length - op.pc.length) ++ result)

def findAndDelete (script b : CScript) : ℕ × CScript :=
  if b.isEmpty then (0, script)
  else
    let (nFound, result) := findAndDeleteFrom b (script.length + 1) script
    (nFound, if 0 < nFound then result else script)

example : findAndDelete [0x51, 0x01, 0xaa, 0x51, 0x01, 0x51] [0x51] =
    (2, [0x01, 0xaa, 0x01, 0x51]) := by decide

/-- The signed script without the signature, which only pre-segwit scripts drop. -/
def dropSignature (vchSig : Valtype) (scriptCode : CScript) : Except ScriptHalt CScript :=
  if sigversion = .base then do
    let (found, result) := findAndDelete scriptCode (CScript.push [] vchSig)
    checkIf (flags.has .constScriptCode) (check (found = 0) .sigFindAndDelete)
    return result
  else return scriptCode

/-- The nesting of conditionals: its depth and the position of the first branch not taken. -/
structure ConditionStack where
  stackSize : ℕ := 0
  firstFalsePos : Option ℕ := none
  deriving DecidableEq, Repr

namespace ConditionStack
variable (c : ConditionStack)

def empty : Bool := c.stackSize = 0

def allTrue : Bool := c.firstFalsePos.isNone

def pushBack (f : Bool) : ConditionStack :=
  { stackSize := c.stackSize + 1
    firstFalsePos := if c.allTrue && !f then some c.stackSize else c.firstFalsePos }

def popBack : Except ScriptHalt ConditionStack := do
  assert (0 < c.stackSize)
  return { stackSize := c.stackSize - 1
           firstFalsePos :=
             if c.firstFalsePos = some (c.stackSize - 1) then none else c.firstFalsePos }

def toggleTop : Except ScriptHalt ConditionStack := do
  assert (0 < c.stackSize)
  return { c with firstFalsePos :=
             if c.allTrue then some (c.stackSize - 1)
             else if c.firstFalsePos = some (c.stackSize - 1) then none
             else c.firstFalsePos }

end ConditionStack

/-- The variables of the loop of `EvalScript`. -/
structure EvalState where
  stack : List Valtype
  altstack : List Valtype := []
  vfExec : ConditionStack := {}
  pbegincodehash : CScript
  nOpCount : ℕ := 0
  opcodePos : ℕ := 0
  execdata : ScriptExecutionData
  deriving DecidableEq, Repr

abbrev EvalM := StateT EvalState (Except ScriptHalt)

/-- `std::vector::at`, counted from the top. -/
def fromTop (stack : List Valtype) (i : ℕ) : Except ScriptHalt Valtype :=
  match stack[i - 1]? with
  | some vch => .ok vch
  | none => .error .outOfRange

def popped : List Valtype → Except ScriptHalt (List Valtype)
  | [] => .error (.runtimeError "popstack(): stack empty")
  | _ :: stack => .ok stack

namespace EvalM

/-- `if (stack.size() < n) return set_error(..)`. -/
def needs (n : ℕ) : EvalM Unit := do
  check (n ≤ (← get).stack.length) .invalidStackOperation

def stackTop (i : ℕ) : EvalM Valtype := do
  fromTop (← get).stack i

def popStack : EvalM Unit := do
  let stack ← popped (← get).stack
  modify fun s => { s with stack }

def push (vch : Valtype) : EvalM Unit :=
  modify fun s => { s with stack := vch :: s.stack }

def pushNum (n : CScriptNum) : EvalM Unit := push n.serialize

def pushBool (f : Bool) : EvalM Unit := push (if f then [1] else [])

def swapTop (i j : ℕ) : EvalM Unit := do
  let vch1 ← stackTop i
  let vch2 ← stackTop j
  modify fun s => { s with stack := (s.stack.set (i - 1) vch2).set (j - 1) vch1 }

def eraseTop (i : ℕ) : EvalM Unit :=
  modify fun s => { s with stack := s.stack.eraseIdx (i - 1) }

/-- The end of an opcode with a `VERIFY` variant. -/
def verifyResult (verify fSuccess : Bool) (e : ScriptError) : EvalM Unit :=
  if !verify then pure ()
  else if fSuccess then popStack
  else throw (.error e)

/-- The argument at `stacktop(-1)` must be empty, if `on`. -/
def checkTopEmpty (on : Bool) (e : ScriptError) : EvalM Unit :=
  if on then do
    let vch ← stackTop 1
    check vch.isEmpty e
  else pure ()

end EvalM

open EvalM
section Stack

def evalVerify : EvalM Unit := do
  needs 1
  let vch ← stackTop 1
  verifyResult true (castToBool vch) .verify

def evalElse : EvalM Unit := do
  let s ← get
  check (!s.vfExec.empty) .unbalancedConditional
  let vfExec ← s.vfExec.toggleTop
  set { s with vfExec }

def evalEndIf : EvalM Unit := do
  let s ← get
  check (!s.vfExec.empty) .unbalancedConditional
  let vfExec ← s.vfExec.popBack
  set { s with vfExec }

def evalToAltStack : EvalM Unit := do
  needs 1
  let vch ← stackTop 1
  modify fun s => { s with altstack := vch :: s.altstack }
  popStack

def evalFromAltStack : EvalM Unit := do
  let s ← get
  check (1 ≤ s.altstack.length) .invalidAltstackOperation
  let vch ← fromTop s.altstack 1
  push vch
  let altstack ← popped s.altstack
  modify fun s => { s with altstack }

def eval2Drop : EvalM Unit := do
  needs 2
  popStack
  popStack

def eval2Dup : EvalM Unit := do
  needs 2
  let vch1 ← stackTop 2
  let vch2 ← stackTop 1
  push vch1
  push vch2

def eval3Dup : EvalM Unit := do
  needs 3
  let vch1 ← stackTop 3
  let vch2 ← stackTop 2
  let vch3 ← stackTop 1
  push vch1
  push vch2
  push vch3

def eval2Over : EvalM Unit := do
  needs 4
  let vch1 ← stackTop 4
  let vch2 ← stackTop 3
  push vch1
  push vch2

def eval2Rot : EvalM Unit := do
  needs 6
  let vch1 ← stackTop 6
  let vch2 ← stackTop 5
  eraseTop 6
  eraseTop 5
  push vch1
  push vch2

def eval2Swap : EvalM Unit := do
  needs 4
  swapTop 4 2
  swapTop 3 1

def evalIfDup : EvalM Unit := do
  needs 1
  let vch ← stackTop 1
  if castToBool vch then push vch else pure ()

def evalDepth : EvalM Unit := do
  pushNum (← get).stack.length

def evalDrop : EvalM Unit := do
  needs 1
  popStack

def evalDup : EvalM Unit := do
  needs 1
  let vch ← stackTop 1
  push vch

def evalNip : EvalM Unit := do
  needs 2
  eraseTop 2

def evalOver : EvalM Unit := do
  needs 2
  let vch ← stackTop 2
  push vch

def evalRot : EvalM Unit := do
  needs 3
  swapTop 3 2
  swapTop 2 1

def evalSwap : EvalM Unit := do
  needs 2
  swapTop 2 1

def evalTuck : EvalM Unit := do
  needs 2
  let vch ← stackTop 1
  modify fun s => { s with stack := s.stack.insertIdx 2 vch }

def evalSize : EvalM Unit := do
  needs 1
  let vch ← stackTop 1
  pushNum vch.length

def evalEqual (verify : Bool) : EvalM Unit := do
  needs 2
  let vch1 ← stackTop 2
  let vch2 ← stackTop 1
  popStack
  popStack
  pushBool (vch1 = vch2)
  verifyResult verify (vch1 = vch2) .equalVerify

def evalHash (hash : Valtype → Valtype) : EvalM Unit := do
  needs 1
  let vch ← stackTop 1
  popStack
  push (hash vch)

/-- The signed script starts behind the separator. -/
def evalCodeSeparator (pc : CScript) : EvalM Unit :=
  modify fun s =>
    { s with
      pbegincodehash := pc
      execdata := { s.execdata with codeseparatorPos := s.opcodePos - 1 } }

end Stack

section Flags
variable (crypto : Crypto) (flags : ScriptFlags) (checker : SignatureChecker)
  (sigversion : SigVersion)

/-- The number at `stacktop(-i)`. -/
def numTop (i nMaxNumSize : ℕ) : EvalM CScriptNum := do
  let vch ← stackTop i
  CScriptNum.ofVch vch (flags.has .minimalData) nMaxNumSize

def scriptNum (i : ℕ) : EvalM CScriptNum := numTop flags i CScriptNum.nDefaultMaxNumSize

variable (op : ScriptOp)

def evalPush : EvalM Unit := do
  checkIf (flags.has .minimalData) do
    assert (op.opcode ≤ opPushData4)
    check (checkMinimalPush op.vch op.opcode) .minimalData
  push op.vch

def evalCheckLockTimeVerify : EvalM Unit :=
  if flags.has .checkLockTimeVerify then do
    needs 1
    let nLockTime ← numTop flags 1 5
    check (0 ≤ nLockTime) .negativeLocktime
    check (checker.checkLockTime nLockTime) .unsatisfiedLocktime
  else pure ()

def evalCheckSequenceVerify : EvalM Unit :=
  if flags.has .checkSequenceVerify then do
    needs 1
    let nSequence ← numTop flags 1 5
    check (0 ≤ nSequence) .negativeLocktime
    -- `SEQUENCE_LOCKTIME_DISABLE_FLAG` makes it a no-operation
    check (nSequence.toNat.testBit 31 || checker.checkSequence nSequence) .unsatisfiedLocktime
  else pure ()

def evalUpgradableNop : EvalM Unit :=
  checkIf (flags.has .discourageUpgradableNops) (.error (.error .discourageUpgradableNops))

def isMinimalIf (vch : Valtype) : Bool := vch.isEmpty || vch = [1]

def ifValue (fExec notIf : Bool) : EvalM Bool :=
  if fExec then do
    check (1 ≤ (← get).stack.length) .unbalancedConditional
    let vch ← stackTop 1
    checkIf (sigversion = .tapscript) (check (isMinimalIf vch) .tapscriptMinimalIf)
    checkIf (sigversion = .witnessV0 && flags.has .minimalIf) (check (isMinimalIf vch) .minimalIf)
    popStack
    return castToBool vch != notIf
  else return false

def evalIf (fExec notIf : Bool) : EvalM Unit := do
  let fValue ← ifValue flags sigversion fExec notIf
  modify fun s => { s with vfExec := s.vfExec.pushBack fValue }

def evalPick (roll : Bool) : EvalM Unit := do
  needs 2
  let n ← scriptNum flags 1
  popStack
  check (0 ≤ n.getint && n.getint < (← get).stack.length) .invalidStackOperation
  let vch ← stackTop (n.getint.toNat + 1)
  if roll then eraseTop (n.getint.toNat + 1) else pure ()
  push vch

def evalNumeric1 (f : CScriptNum → Except ScriptHalt CScriptNum) : EvalM Unit := do
  needs 1
  let bn ← scriptNum flags 1
  let bn ← f bn
  popStack
  pushNum bn

def evalNumeric2 (f : CScriptNum → CScriptNum → CScriptNum) : EvalM Unit := do
  needs 2
  let bn1 ← scriptNum flags 2
  let bn2 ← scriptNum flags 1
  popStack
  popStack
  pushNum (f bn1 bn2)

def evalCompare (p : CScriptNum → CScriptNum → Bool) : EvalM Unit :=
  evalNumeric2 flags fun bn1 bn2 => if p bn1 bn2 then 1 else 0

def evalNumEqualVerify : EvalM Unit := do
  evalCompare flags fun bn1 bn2 => bn1 = bn2
  let vch ← stackTop 1
  verifyResult true (castToBool vch) .numEqualVerify

def evalWithin : EvalM Unit := do
  needs 3
  let bn1 ← scriptNum flags 3
  let bn2 ← scriptNum flags 2
  let bn3 ← scriptNum flags 1
  popStack
  popStack
  popStack
  pushBool (bn2 ≤ bn1 && bn1 < bn3)

def evalChecksigPreTapscript (vchSig vchPubKey : Valtype) : EvalM Bool := do
  let scriptCode ← dropSignature flags sigversion vchSig (← get).pbegincodehash
  checkSignatureEncoding crypto flags vchSig
  checkPubKeyEncoding flags sigversion vchPubKey
  let success := checker.checkSig vchSig vchPubKey scriptCode sigversion
  checkIf (flags.has .nullFail) (check (success || vchSig.isEmpty) .sigNullFail)
  return success

/-- Every signature that is checked uses up some of the weight. -/
def chargeSigop (success : Bool) : EvalM Unit :=
  if success then do
    let s ← get
    assert s.execdata.validationWeightLeftInit
    let weight := s.execdata.validationWeightLeft - validationWeightPerSigopPassed
    set { s with execdata := { s.execdata with validationWeightLeft := weight } }
    check (0 ≤ weight) .tapscriptValidationWeight
  else pure ()

def checkTapscriptSig (success : Bool) (sig pubkey : Valtype) (execdata : ScriptExecutionData) :
    Except ScriptHalt Unit :=
  if pubkey.length = 32 then
    checkIf success ((checker.checkSchnorrSignature sig pubkey sigversion execdata).mapError .error)
  else
    checkIf (flags.has .discourageUpgradablePubkeyType)
      (.error (.error .discourageUpgradablePubkeyType))

variable (sig pubkey : Valtype)

def evalChecksigTapscript : EvalM Bool := do
  assert (sigversion = .tapscript)
  let success := !sig.isEmpty
  chargeSigop success
  check (!pubkey.isEmpty) .tapscriptEmptyPubkey
  checkTapscriptSig flags checker sigversion success sig pubkey (← get).execdata
  return success

def evalChecksig : EvalM Bool :=
  if sigversion = .tapscript then evalChecksigTapscript flags checker sigversion sig pubkey
  else evalChecksigPreTapscript crypto flags checker sigversion sig pubkey

def evalCheckSig (verify : Bool) : EvalM Unit := do
  needs 2
  let vchSig ← stackTop 2
  let vchPubKey ← stackTop 1
  let fSuccess ← evalChecksig crypto flags checker sigversion vchSig vchPubKey
  popStack
  popStack
  pushBool fSuccess
  verifyResult verify fSuccess .checksigVerify

def evalCheckSigAdd : EvalM Unit := do
  check (!sigversion.isLimited) .badOpcode
  needs 3
  let sig ← stackTop 3
  let num ← scriptNum flags 2
  let pubkey ← stackTop 1
  let fSuccess ← evalChecksig crypto flags checker sigversion sig pubkey
  popStack
  popStack
  popStack
  pushNum (num + if fSuccess then 1 else 0)

def dropSignatures : (n isig : ℕ) → (scriptCode : CScript) → EvalM CScript
  | 0, _, scriptCode => return scriptCode
  | n + 1, isig, scriptCode => do
    let vchSig ← stackTop isig
    let scriptCode ← dropSignature flags sigversion vchSig scriptCode
    dropSignatures n (isig + 1) scriptCode

/-- The loop over the keys. It ends early when fewer keys than signatures are left. -/
def multisigLoop (scriptCode : CScript) :
    (nKeysCount nSigsCount ikey isig : ℕ) → EvalM Bool
  | _, 0, _, _ => return true
  | 0, _ + 1, _, _ => return false
  | nKeysCount + 1, nSigsCount + 1, ikey, isig => do
    let vchSig ← stackTop isig
    let vchPubKey ← stackTop ikey
    checkSignatureEncoding crypto flags vchSig
    checkPubKeyEncoding flags sigversion vchPubKey
    let fOk := checker.checkSig vchSig vchPubKey scriptCode sigversion
    let left := if fOk then nSigsCount else nSigsCount + 1
    if nKeysCount < left then return false
    else multisigLoop scriptCode nKeysCount left (ikey + 1) (if fOk then isig + 1 else isig)

/-- Remove `i` arguments. The signatures follow `ikey2` others and must be empty after a failure. -/
def cleanUp (fSuccess : Bool) : (i ikey2 : ℕ) → EvalM Unit
  | 0, _ => pure ()
  | i + 1, ikey2 => do
    checkTopEmpty (!fSuccess && flags.has .nullFail && ikey2 = 0) .sigNullFail
    popStack
    cleanUp fSuccess i (ikey2 - 1)

def countKeys (nKeysCount : ℕ) : EvalM Unit := do
  modify fun s => { s with nOpCount := s.nOpCount + nKeysCount }
  check ((← get).nOpCount ≤ maxOpsPerScript) .opCount

def evalCheckMultiSig (verify : Bool) : EvalM Unit := do
  check (sigversion ≠ .tapscript) .tapscriptCheckMultisig
  needs 1
  let nKeys ← scriptNum flags 1
  check (0 ≤ nKeys.getint && nKeys.getint ≤ maxPubkeysPerMultisig) .pubkeyCount
  let nKeysCount := nKeys.getint.toNat
  countKeys nKeysCount
  needs (2 + nKeysCount)
  let nSigs ← scriptNum flags (2 + nKeysCount)
  check (0 ≤ nSigs.getint && nSigs.getint ≤ nKeysCount) .sigCount
  let nSigsCount := nSigs.getint.toNat
  needs (3 + nKeysCount + nSigsCount)
  let scriptCode ←
    dropSignatures flags sigversion nSigsCount (3 + nKeysCount) (← get).pbegincodehash
  let fSuccess ←
    multisigLoop crypto flags checker sigversion scriptCode nKeysCount nSigsCount 2 (3 + nKeysCount)
  cleanUp flags fSuccess (2 + nKeysCount + nSigsCount) (nKeysCount + 2)
  -- one argument more than needed is removed
  needs 1
  checkTopEmpty (flags.has .nullDummy) .sigNullDummy
  popStack
  pushBool fSuccess
  verifyResult verify fSuccess .checkMultisigVerify

/-- The `switch` over the opcode. -/
def evalOpcode (fExec : Bool) (op : ScriptOp) : EvalM Unit :=
  match Opcode.ofByte op.opcode with
  | .opN n => pushNum n
  | .opNop => pure ()
  | .opCheckLockTimeVerify => evalCheckLockTimeVerify flags checker
  | .opCheckSequenceVerify => evalCheckSequenceVerify flags checker
  | .opNop1 | .opNop4 | .opNop5 | .opNop6 | .opNop7 | .opNop8 | .opNop9 | .opNop10 =>
    evalUpgradableNop flags
  | .opIf => evalIf flags sigversion fExec false
  | .opNotIf => evalIf flags sigversion fExec true
  | .opElse => evalElse
  | .opEndIf => evalEndIf
  | .opVerify => evalVerify
  | .opReturn => throw (.error .opReturn)
  | .opToAltStack => evalToAltStack
  | .opFromAltStack => evalFromAltStack
  | .op2Drop => eval2Drop
  | .op2Dup => eval2Dup
  | .op3Dup => eval3Dup
  | .op2Over => eval2Over
  | .op2Rot => eval2Rot
  | .op2Swap => eval2Swap
  | .opIfDup => evalIfDup
  | .opDepth => evalDepth
  | .opDrop => evalDrop
  | .opDup => evalDup
  | .opNip => evalNip
  | .opOver => evalOver
  | .opPick => evalPick flags false
  | .opRoll => evalPick flags true
  | .opRot => evalRot
  | .opSwap => evalSwap
  | .opTuck => evalTuck
  | .opSize => evalSize
  | .opEqual => evalEqual false
  | .opEqualVerify => evalEqual true
  | .op1Add => evalNumeric1 flags (·.addAssign 1)
  | .op1Sub => evalNumeric1 flags (·.subAssign 1)
  | .opNegate => evalNumeric1 flags CScriptNum.neg
  | .opAbs => evalNumeric1 flags fun bn => if bn < 0 then bn.neg else .ok bn
  | .opNot => evalNumeric1 flags fun bn => .ok (if bn = 0 then 1 else 0)
  | .op0NotEqual => evalNumeric1 flags fun bn => .ok (if bn ≠ 0 then 1 else 0)
  | .opAdd => evalNumeric2 flags fun bn1 bn2 => bn1 + bn2
  | .opSub => evalNumeric2 flags fun bn1 bn2 => bn1 - bn2
  | .opBoolAnd => evalCompare flags fun bn1 bn2 => bn1 ≠ 0 && bn2 ≠ 0
  | .opBoolOr => evalCompare flags fun bn1 bn2 => bn1 ≠ 0 || bn2 ≠ 0
  | .opNumEqual => evalCompare flags fun bn1 bn2 => bn1 = bn2
  | .opNumEqualVerify => evalNumEqualVerify flags
  | .opNumNotEqual => evalCompare flags fun bn1 bn2 => bn1 ≠ bn2
  | .opLessThan => evalCompare flags fun bn1 bn2 => bn1 < bn2
  | .opGreaterThan => evalCompare flags fun bn1 bn2 => bn1 > bn2
  | .opLessThanOrEqual => evalCompare flags fun bn1 bn2 => bn1 ≤ bn2
  | .opGreaterThanOrEqual => evalCompare flags fun bn1 bn2 => bn1 ≥ bn2
  | .opMin => evalNumeric2 flags min
  | .opMax => evalNumeric2 flags max
  | .opWithin => evalWithin flags
  | .opRipemd160 => evalHash crypto.ripemd160
  | .opSha1 => evalHash crypto.sha1
  | .opSha256 => evalHash crypto.sha256
  | .opHash160 => evalHash crypto.hash160
  | .opHash256 => evalHash crypto.hash256
  | .opCodeSeparator => evalCodeSeparator op.pc
  | .opCheckSig => evalCheckSig crypto flags checker sigversion false
  | .opCheckSigVerify => evalCheckSig crypto flags checker sigversion true
  | .opCheckSigAdd => evalCheckSigAdd crypto flags checker sigversion
  | .opCheckMultiSig => evalCheckMultiSig crypto flags checker sigversion false
  | .opCheckMultiSigVerify => evalCheckMultiSig crypto flags checker sigversion true
  | _ => throw (.error .badOpcode)

def countOp (opcode : UInt8) : EvalM Unit :=
  if sigversion.isLimited && op16 < opcode then do
    modify fun s => { s with nOpCount := s.nOpCount + 1 }
    check ((← get).nOpCount ≤ maxOpsPerScript) .opCount
  else pure ()

/-- Only conditionals are looked at in a branch that is not taken. -/
def execute (fExec : Bool) (op : ScriptOp) : EvalM Unit :=
  if fExec && op.opcode ≤ opPushData4 then evalPush flags op
  else if fExec || (opIfByte ≤ op.opcode && op.opcode ≤ opEndIfByte) then
    evalOpcode crypto flags checker sigversion fExec op
  else pure ()

/-- What is checked before an opcode is executed. -/
def checkOp : EvalM Unit := do
  check (op.vch.length ≤ maxScriptElementSize) .pushSize
  countOp sigversion op.opcode
  check (!(Opcode.ofByte op.opcode).isDisabled) .disabledOpcode
  checkIf (flags.has .constScriptCode)
    (check (!(Opcode.ofByte op.opcode = .opCodeSeparator && sigversion = .base)) .opCodeSeparator)

/-- One turn of the loop. -/
def evalStep : EvalM Unit := do
  modify fun s => { s with opcodePos := s.opcodePos + 1 }
  let fExec := (← get).vfExec.allTrue
  checkOp flags sigversion op
  execute crypto flags checker sigversion fExec op
  let s ← get
  check (s.stack.length + s.altstack.length ≤ maxStackSize) .stackSize

def evalOps : List (Option ScriptOp) → EvalM Unit
  | [] => pure ()
  | none :: _ => throw (.error .badOpcode)
  | some op :: ops => do
    evalStep crypto flags checker sigversion op
    evalOps ops

/-- `catch (...)`, which no failed assertion reaches. -/
def catchAll {α : Type} : Except ScriptHalt α → Except ScriptHalt α
  | .error (.scriptnumError _) => .error (.error .unknownError)
  | .error .outOfRange => .error (.error .unknownError)
  | .error (.runtimeError _) => .error (.error .unknownError)
  | x => x

/-- `EvalScript`: the stack and the data it leaves behind, if it returns true. -/
def evalScript (stack : List Valtype) (script : CScript) (execdata : ScriptExecutionData) :
    Except ScriptHalt (List Valtype × ScriptExecutionData) := do
  assert (sigversion ≠ .taproot)
  check (!sigversion.isLimited || script.length ≤ maxScriptSize) .scriptSize
  let (_, s) ← catchAll <| (evalOps crypto flags checker sigversion script.ops).run
    { stack
      pbegincodehash := script
      execdata := { execdata with codeseparatorPos := 0xFFFFFFFF, codeseparatorPosInit := true } }
  check s.vfExec.empty .unbalancedConditional
  return (s.stack, s.execdata)

end Flags

end Palladium
