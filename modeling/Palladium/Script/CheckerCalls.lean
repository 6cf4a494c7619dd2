import Palladium.Lib.Logged
import Palladium.Script.Extraction

/-! # Calls of the checker

The interpreter with a log of its calls. Everything else runs with a checker that refuses all, and
without its log it is the interpreter.
-/

namespace Palladium
open EvalM Logged StateT

inductive CheckerCall
  | checkSig (vchSig vchPubKey : Valtype) (scriptCode : CScript)
  | checkSchnorrSignature (sig pubkey : Valtype)
  deriving DecidableEq

namespace CheckerCall

def isCheckSig : CheckerCall → Bool
  | checkSig _ _ _ => true
  | checkSchnorrSignature _ _ => false

def isSchnorr (c : CheckerCall) : Bool := !c.isCheckSig

end CheckerCall

abbrev LoggedM := Logged CheckerCall EvalState ScriptHalt

def SignatureChecker.refuseAll (checker : SignatureChecker) : SignatureChecker :=
  { checker with
    checkSig := fun _ _ _ _ => false
    checkSchnorrSignature := fun _ _ _ _ => .error .schnorrSig }

section Logged
variable (crypto : Crypto) (flags : ScriptFlags) (checker : SignatureChecker)
  (sigversion : SigVersion)

def logChecksigPreTapscript (vchSig vchPubKey : Valtype) : LoggedM Bool := do
  let scriptCode ← quiet (checksigScriptCode crypto flags sigversion vchSig vchPubKey)
  let success ← call (.checkSig vchSig vchPubKey scriptCode)
    (checker.checkSig vchSig vchPubKey scriptCode sigversion)
  quiet (checkIf (flags.has .nullFail) (check (success || vchSig.isEmpty) .sigNullFail))
  return success

def logTapscriptSig (success : Bool) (sig pubkey : Valtype) (execdata : ScriptExecutionData) :
    LoggedM Unit :=
  if success = true ∧ pubkey.length = 32 then do
    let answer ← call (.checkSchnorrSignature sig pubkey)
      (checker.checkSchnorrSignature sig pubkey sigversion execdata)
    quiet (liftM (answer.mapError ScriptHalt.error))
  else quiet (liftM (checkTapscriptSig flags checker.refuseAll sigversion success sig pubkey execdata))

def logChecksigTapscript (sig pubkey : Valtype) : LoggedM Bool := do
  quiet (assert (sigversion = .tapscript))
  let success := !sig.isEmpty
  quiet (chargeSigop success)
  quiet (check (!pubkey.isEmpty) .tapscriptEmptyPubkey)
  let s ← quiet get
  logTapscriptSig flags checker sigversion success sig pubkey s.execdata
  return success

def logChecksig (sig pubkey : Valtype) : LoggedM Bool :=
  if sigversion = .tapscript then logChecksigTapscript flags checker sigversion sig pubkey
  else logChecksigPreTapscript crypto flags checker sigversion sig pubkey

def logCheckSig (verify : Bool) : LoggedM Unit := do
  quiet (needs 2)
  let vchSig ← quiet (stackTop 2)
  let vchPubKey ← quiet (stackTop 1)
  let fSuccess ← logChecksig crypto flags checker sigversion vchSig vchPubKey
  quiet do
    popStack
    popStack
    pushBool fSuccess
    verifyResult verify fSuccess .checksigVerify

def logCheckSigAdd : LoggedM Unit := do
  quiet (check (!sigversion.isLimited) .badOpcode)
  quiet (needs 3)
  let sig ← quiet (stackTop 3)
  let num ← quiet (scriptNum flags 2)
  let pubkey ← quiet (stackTop 1)
  let fSuccess ← logChecksig crypto flags checker sigversion sig pubkey
  quiet do
    popStack
    popStack
    popStack
    pushNum (num + if fSuccess then 1 else 0)

def logMultisigLoop (scriptCode : CScript) : (nKeysCount nSigsCount ikey isig : ℕ) → LoggedM Bool
  | _, 0, _, _ => return true
  | 0, _ + 1, _, _ => return false
  | nKeysCount + 1, nSigsCount + 1, ikey, isig => do
    let vchSig ← quiet (stackTop isig)
    let vchPubKey ← quiet (stackTop ikey)
    quiet (checkSignatureEncoding crypto flags vchSig)
    quiet (checkPubKeyEncoding flags sigversion vchPubKey)
    let fOk ← call (.checkSig vchSig vchPubKey scriptCode)
      (checker.checkSig vchSig vchPubKey scriptCode sigversion)
    let left := if fOk then nSigsCount else nSigsCount + 1
    if nKeysCount < left then return false
    else logMultisigLoop scriptCode nKeysCount left (ikey + 1) (if fOk then isig + 1 else isig)

def logCheckMultiSig (verify : Bool) : LoggedM Unit := do
  let args ← quiet (multisigArgs flags sigversion)
  let fSuccess ← logMultisigLoop crypto flags checker sigversion args.scriptCode args.nKeysCount
    args.nSigsCount 2 (3 + args.nKeysCount)
  quiet (finishMultisig flags verify fSuccess args.nKeysCount args.nSigsCount)

def logOpcode (fExec : Bool) (op : ScriptOp) : LoggedM Unit :=
  match Opcode.ofByte op.opcode with
  | .opCheckSig => logCheckSig crypto flags checker sigversion false
  | .opCheckSigVerify => logCheckSig crypto flags checker sigversion true
  | .opCheckSigAdd => logCheckSigAdd crypto flags checker sigversion
  | .opCheckMultiSig => logCheckMultiSig crypto flags checker sigversion false
  | .opCheckMultiSigVerify => logCheckMultiSig crypto flags checker sigversion true
  | _ => quiet (evalOpcode crypto flags checker.refuseAll sigversion fExec op)

def logExecute (fExec : Bool) (op : ScriptOp) : LoggedM Unit :=
  if fExec && op.opcode ≤ opPushData4 then quiet (evalPush flags op)
  else if fExec || (opIfByte ≤ op.opcode && op.opcode ≤ opEndIfByte) then
    logOpcode crypto flags checker sigversion fExec op
  else pure ()

def logStep (op : ScriptOp) : LoggedM Unit := do
  quiet (modify fun s => { s with opcodePos := s.opcodePos + 1 })
  let s ← quiet get
  quiet (checkOp flags sigversion op)
  logExecute crypto flags checker sigversion s.vfExec.allTrue op
  quiet do
    let s ← get
    check (s.stack.length + s.altstack.length ≤ maxStackSize) .stackSize

def logOps : List (Option ScriptOp) → LoggedM Unit
  | [] => pure ()
  | none :: _ => quiet (throw (.error .badOpcode))
  | some op :: ops => do
    logStep crypto flags checker sigversion op
    logOps ops

/-- `EvalScript` and its calls, also if it fails. -/
def logScript (stack : List Valtype) (script : CScript) (execdata : ScriptExecutionData) :
    List CheckerCall × Except ScriptHalt (List Valtype × ScriptExecutionData) :=
  let start : Except ScriptHalt Unit := do
    assert (sigversion ≠ .taproot)
    check (!sigversion.isLimited || script.length ≤ maxScriptSize) .scriptSize
  match start with
  | .error e => ([], .error e)
  | .ok _ =>
    let run := logOps crypto flags checker sigversion script.ops (.start stack script execdata)
    (run.1, do
      let (_, s) ← catchAll run.2
      check s.vfExec.empty .unbalancedConditional
      return (s.stack, s.execdata))

variable {crypto flags checker sigversion}

theorem erase_logChecksig (sig pubkey : Valtype) :
    (logChecksig crypto flags checker sigversion sig pubkey).erase =
      evalChecksig crypto flags checker sigversion sig pubkey := by
  have ht : ∀ success execdata,
      (logTapscriptSig flags checker sigversion success sig pubkey execdata).erase =
        liftM (checkTapscriptSig flags checker sigversion success sig pubkey execdata) := by
    intro success execdata
    unfold logTapscriptSig checkTapscriptSig
    by_cases hp : pubkey.length = 32 <;> cases success <;> simp [hp, checkIf]
  simp [logChecksig, evalChecksig, logChecksigTapscript, evalChecksigTapscript, ht,
    logChecksigPreTapscript, evalChecksigPreTapscript, checksigScriptCode]

theorem erase_logMultisigLoop (scriptCode : CScript) (nKeysCount nSigsCount ikey isig : ℕ) :
    (logMultisigLoop crypto flags checker sigversion scriptCode nKeysCount nSigsCount ikey
      isig).erase =
      multisigLoop crypto flags checker sigversion scriptCode nKeysCount nSigsCount ikey isig := by
  induction nKeysCount generalizing nSigsCount ikey isig with
  | zero => cases nSigsCount <;> rfl
  | succ nKeysCount ih =>
    cases nSigsCount with
    | zero => rfl
    | succ nSigsCount => simp [logMultisigLoop, multisigLoop, ih]

theorem erase_logOpcode (fExec : Bool) (op : ScriptOp) :
    (logOpcode crypto flags checker sigversion fExec op).erase =
      evalOpcode crypto flags checker sigversion fExec op := by
  unfold logOpcode
  cases ho : Opcode.ofByte op.opcode
  case opCheckSig | opCheckSigVerify | opCheckSigAdd | opCheckMultiSig | opCheckMultiSigVerify =>
    simp [evalOpcode, ho, logCheckSig, evalCheckSig, logCheckSigAdd, evalCheckSigAdd,
      logCheckMultiSig, evalCheckMultiSig_eq, erase_logChecksig, erase_logMultisigLoop]
  case opCheckLockTimeVerify | opCheckSequenceVerify =>
    simp only [evalOpcode, ho, erase_quiet]
    rfl
  all_goals simp only [evalOpcode, ho, erase_quiet]

theorem erase_logStep (op : ScriptOp) : (logStep crypto flags checker sigversion op).erase =
    evalStep crypto flags checker sigversion op := by
  simp [logStep, evalStep, logExecute, execute, erase_logOpcode]

theorem erase_logOps (ops : List (Option ScriptOp)) :
    (logOps crypto flags checker sigversion ops).erase =
      evalOps crypto flags checker sigversion ops := by
  induction ops with
  | nil => rfl
  | cons o ops ih =>
    cases o with
    | none => rfl
    | some op => simp [logOps, evalOps, erase_logStep, ih]

theorem erase_logScript (stack : List Valtype) (script : CScript)
    (execdata : ScriptExecutionData) :
    (logScript crypto flags checker sigversion stack script execdata).2 =
      evalScript crypto flags checker sigversion stack script execdata := by
  have ho : ∀ s, (logOps crypto flags checker sigversion script.ops s).2 =
      (evalOps crypto flags checker sigversion script.ops).run s := congrFun (erase_logOps _)
  unfold logScript evalScript
  dsimp only
  rw [ho]
  cases assert (sigversion ≠ .taproot) with
  | error e => rfl
  | ok _ => cases check (!sigversion.isLimited || script.length ≤ maxScriptSize) .scriptSize <;> rfl

theorem unchanged_checkOp (op : ScriptOp) : Unchanged
    (fun s : EvalState => (s.stack, s.vfExec)) (checkOp flags sigversion op) := by
  have hm : Unchanged (fun s : EvalState => (s.stack, s.vfExec))
      (modify fun s : EvalState => { s with nOpCount := s.nOpCount + 1 } : EvalM Unit) :=
    unchanged_modify fun _ => rfl
  unfold checkOp countOp
  infer_instance

end Logged

end Palladium
