import Palladium.Primitives.Serialize
import Palladium.Primitives.Transaction

/-! # Scripts

The byte format of scripts: `GetScriptOp` with the opcodes it returns, the builder `operator<<`,
the script numbers and the patterns that verification looks for.
-/

namespace Palladium

inductive ScriptError
  | unknownError | evalFalse | opReturn
  | scriptSize | pushSize | opCount | stackSize | sigCount | pubkeyCount
  | verify | equalVerify | checkMultisigVerify | checksigVerify | numEqualVerify
  | badOpcode | disabledOpcode | invalidStackOperation | invalidAltstackOperation
  | unbalancedConditional
  | negativeLocktime | unsatisfiedLocktime
  | sigHashtype | sigDer | minimalData | sigPushOnly | sigHighS | sigNullDummy | pubkeyType
  | cleanStack | minimalIf | sigNullFail
  | discourageUpgradableNops | discourageUpgradableWitnessProgram
  | discourageUpgradableTaprootVersion | discourageOpSuccess | discourageUpgradablePubkeyType
  | witnessProgramWrongLength | witnessProgramWitnessEmpty | witnessProgramMismatch
  | witnessMalleated | witnessMalleatedP2SH | witnessUnexpected | witnessPubkeyType
  | schnorrSigSize | schnorrSigHashtype | schnorrSig | taprootWrongControlSize
  | tapscriptValidationWeight | tapscriptCheckMultisig | tapscriptMinimalIf | tapscriptEmptyPubkey
  | opCodeSeparator | sigFindAndDelete
  deriving DecidableEq, Repr

def scriptErrorString : ScriptError → String
  | .evalFalse =>
    "Script evaluated without error but finished with a false/empty top stack element"
  | .verify => "Script failed an OP_VERIFY operation"
  | .equalVerify => "Script failed an OP_EQUALVERIFY operation"
  | .checkMultisigVerify => "Script failed an OP_CHECKMULTISIGVERIFY operation"
  | .checksigVerify => "Script failed an OP_CHECKSIGVERIFY operation"
  | .numEqualVerify => "Script failed an OP_NUMEQUALVERIFY operation"
  | .scriptSize => "Script is too big"
  | .pushSize => "Push value size limit exceeded"
  | .opCount => "Operation limit exceeded"
  | .stackSize => "Stack size limit exceeded"
  | .sigCount => "Signature count negative or greater than pubkey count"
  | .pubkeyCount => "Pubkey count negative or limit exceeded"
  | .badOpcode => "Opcode missing or not understood"
  | .disabledOpcode => "Attempted to use a disabled opcode"
  | .invalidStackOperation => "Operation not valid with the current stack size"
  | .invalidAltstackOperation => "Operation not valid with the current altstack size"
  | .opReturn => "OP_RETURN was encountered"
  | .unbalancedConditional => "Invalid OP_IF construction"
  | .negativeLocktime => "Negative locktime"
  | .unsatisfiedLocktime => "Locktime requirement not satisfied"
  | .sigHashtype => "Signature hash type missing or not understood"
  | .sigDer => "Non-canonical DER signature"
  | .minimalData => "Data push larger than necessary"
  | .sigPushOnly => "Only push operators allowed in signatures"
  | .sigHighS => "Non-canonical signature: S value is unnecessarily high"
  | .sigNullDummy => "Dummy CHECKMULTISIG argument must be zero"
  | .minimalIf => "OP_IF/NOTIF argument must be minimal"
  | .sigNullFail => "Signature must be zero for failed CHECK(MULTI)SIG operation"
  | .discourageUpgradableNops => "NOPx reserved for soft-fork upgrades"
  | .discourageUpgradableWitnessProgram => "Witness version reserved for soft-fork upgrades"
  | .discourageUpgradableTaprootVersion => "Taproot leaf version reserved for soft-fork upgrades"
  | .discourageOpSuccess => "OP_SUCCESSx reserved for soft-fork upgrades"
  | .discourageUpgradablePubkeyType => "Public key version reserved for soft-fork upgrades"
  | .pubkeyType => "Public key is neither compressed or uncompressed"
  | .cleanStack => "Extra items left on stack after execution"
  | .witnessProgramWrongLength => "Witness program has incorrect length"
  | .witnessProgramWitnessEmpty => "Witness program was passed an empty witness"
  | .witnessProgramMismatch => "Witness program hash mismatch"
  | .witnessMalleated => "Witness requires empty scriptSig"
  | .witnessMalleatedP2SH => "Witness requires only-redeemscript scriptSig"
  | .witnessUnexpected => "Witness provided for non-witness script"
  | .witnessPubkeyType => "Using non-compressed keys in segwit"
  | .schnorrSigSize => "Invalid Schnorr signature size"
  | .schnorrSigHashtype => "Invalid Schnorr signature hash type"
  | .schnorrSig => "Invalid Schnorr signature"
  | .taprootWrongControlSize => "Taproot control block has incorrect size"
  | .tapscriptValidationWeight => "Tapscript validation weight limit exceeded"
  | .tapscriptCheckMultisig => "OP_CHECKMULTISIG(VERIFY) is not available in tapscript"
  | .tapscriptMinimalIf => "Tapscript requires minimal IF/NOTIF argument"
  | .tapscriptEmptyPubkey => "Empty public key in tapscript"
  | .opCodeSeparator => "Using OP_CODESEPARATOR in non-witness script"
  | .sigFindAndDelete => "Signature is found in scriptCode"
  | .unknownError => "unknown error"

/-- How a computation on scripts ends without a value: `return set_error(..)`, an exception, or a
failed assertion. -/
inductive ScriptHalt
  | error (e : ScriptError)
  | scriptnumError (what : String)
  | outOfRange
  | runtimeError (what : String)
  | assertion
  deriving DecidableEq, Repr

/-- `if (!ok) return set_error(serror, e)`. -/
def check (ok : Bool) (e : ScriptError) : Except ScriptHalt Unit :=
  if ok then .ok () else .error (.error e)

def assert (ok : Bool) : Except ScriptHalt Unit :=
  if ok then .ok () else .error .assertion

abbrev Valtype := List UInt8

def maxScriptElementSize : ℕ := 520
def maxOpsPerScript : ℕ := 201
def maxPubkeysPerMultisig : ℕ := 20
def maxStackSize : ℕ := 1000

/-- What `EvalScript` tells apart. `opPushData` are the opcodes with data, `opN` are `OP_1NEGATE`
and `OP_1` to `OP_16` with their number. -/
inductive Opcode
  | opPushData | opN (n : ℤ) | opReserved
  | opNop | opVer | opIf | opNotIf | opVerIf | opVerNotIf | opElse | opEndIf | opVerify | opReturn
  | opToAltStack | opFromAltStack | op2Drop | op2Dup | op3Dup | op2Over | op2Rot | op2Swap
  | opIfDup | opDepth | opDrop | opDup | opNip | opOver | opPick | opRoll | opRot | opSwap | opTuck
  | opCat | opSubstr | opLeft | opRight | opSize
  | opInvert | opAnd | opOr | opXor | opEqual | opEqualVerify | opReserved1 | opReserved2
  | op1Add | op1Sub | op2Mul | op2Div | opNegate | opAbs | opNot | op0NotEqual
  | opAdd | opSub | opMul | opDiv | opMod | opLShift | opRShift
  | opBoolAnd | opBoolOr | opNumEqual | opNumEqualVerify | opNumNotEqual | opLessThan
  | opGreaterThan | opLessThanOrEqual | opGreaterThanOrEqual | opMin | opMax | opWithin
  | opRipemd160 | opSha1 | opSha256 | opHash160 | opHash256 | opCodeSeparator
  | opCheckSig | opCheckSigVerify | opCheckMultiSig | opCheckMultiSigVerify
  | opNop1 | opCheckLockTimeVerify | opCheckSequenceVerify | opNop4 | opNop5 | opNop6 | opNop7
  | opNop8 | opNop9 | opNop10 | opCheckSigAdd
  | opInvalid
  deriving DecidableEq, Repr

namespace Opcode

def fromNop : List Opcode :=
  [opNop, opVer, opIf, opNotIf, opVerIf, opVerNotIf, opElse, opEndIf, opVerify, opReturn,
   opToAltStack, opFromAltStack, op2Drop, op2Dup, op3Dup, op2Over, op2Rot, op2Swap, opIfDup,
   opDepth, opDrop, opDup, opNip, opOver, opPick, opRoll, opRot, opSwap, opTuck, opCat, opSubstr,
   opLeft, opRight, opSize, opInvert, opAnd, opOr, opXor, opEqual, opEqualVerify, opReserved1,
   opReserved2, op1Add, op1Sub, op2Mul, op2Div, opNegate, opAbs, opNot, op0NotEqual, opAdd, opSub,
   opMul, opDiv, opMod, opLShift, opRShift, opBoolAnd, opBoolOr, opNumEqual, opNumEqualVerify,
   opNumNotEqual, opLessThan, opGreaterThan, opLessThanOrEqual, opGreaterThanOrEqual, opMin, opMax,
   opWithin, opRipemd160, opSha1, opSha256, opHash160, opHash256, opCodeSeparator, opCheckSig,
   opCheckSigVerify, opCheckMultiSig, opCheckMultiSigVerify, opNop1, opCheckLockTimeVerify,
   opCheckSequenceVerify, opNop4, opNop5, opNop6, opNop7, opNop8, opNop9, opNop10, opCheckSigAdd]

def ofByte (b : UInt8) : Opcode :=
  if b ≤ 0x4e then opPushData
  else if b = 0x50 then opReserved
  else if b ≤ 0x60 then opN (b.toNat - 0x50)
  else (fromNop[b.toNat - 0x61]?).getD opInvalid

example : ofByte 0x6a = opReturn ∧ ofByte 0x93 = opAdd ∧ ofByte 0xab = opCodeSeparator ∧
    ofByte 0xba = opCheckSigAdd ∧ ofByte 0xbb = opInvalid := by decide

def isDisabled : Opcode → Bool
  | opCat | opSubstr | opLeft | opRight | opInvert | opAnd | opOr | opXor | op2Mul | op2Div | opMul
  | opDiv | opMod | opLShift | opRShift => true
  | _ => false

end Opcode

def opPushData1 : UInt8 := 0x4c
def opPushData2 : UInt8 := 0x4d
def opPushData4 : UInt8 := 0x4e
def op1 : UInt8 := 0x51
def op16 : UInt8 := 0x60
def opIfByte : UInt8 := 0x63
def opEndIfByte : UInt8 := 0x68
def opDupByte : UInt8 := 0x76
def opEqualByte : UInt8 := 0x87
def opEqualVerifyByte : UInt8 := 0x88
def opHash160Byte : UInt8 := 0xa9
def opCheckSigByte : UInt8 := 0xac
def opCheckSigVerifyByte : UInt8 := 0xad
def opCheckMultisigByte : UInt8 := 0xae
def opCheckMultisigVerifyByte : UInt8 := 0xaf
def opInvalidOpcodeByte : UInt8 := 0xff

variable (opcode : UInt8)

def isOpSuccess : Bool :=
  let n := opcode.toNat
  n = 80 || n = 98 || (126 ≤ n && n ≤ 129) || (131 ≤ n && n ≤ 134) || (137 ≤ n && n ≤ 138) ||
    (141 ≤ n && n ≤ 142) || (149 ≤ n && n ≤ 153) || (187 ≤ n && n ≤ 254)

/-- An instruction as `GetScriptOp` returns it, with the iterator behind it. -/
structure ScriptOp where
  opcode : UInt8
  vch : Valtype
  pc : CScript
  deriving DecidableEq, Repr

/-- The data of a push, of which `nSize` bytes follow. -/
def takePush (nSize : ℕ) (pc : CScript) : Option ScriptOp :=
  if pc.length < nSize then none else some ⟨opcode, pc.take nSize, pc.drop nSize⟩

/-- The push whose size stands in the next `k` bytes. -/
def takeSizedPush (k : ℕ) (pc : CScript) : Option ScriptOp :=
  if pc.length < k then none else takePush opcode (readLE (pc.take k)) (pc.drop k)

def getScriptOp : CScript → Option ScriptOp
  | [] => none
  | opcode :: pc =>
    if opcode < opPushData1 then takePush opcode opcode.toNat pc
    else if opcode = opPushData1 then takeSizedPush opcode 1 pc
    else if opcode = opPushData2 then takeSizedPush opcode 2 pc
    else if opcode = opPushData4 then takeSizedPush opcode 4 pc
    else some ⟨opcode, [], pc⟩

/-- What successive calls of `GetOp` return until the end, at most `fuel` times. -/
def opsFrom : ℕ → CScript → List (Option ScriptOp)
  | 0, _ => []
  | _ + 1, [] => []
  | fuel + 1, pc =>
    match getScriptOp pc with
    | none => [none]
    | some op => some op :: opsFrom fuel op.pc

def CScript.ops (script : CScript) : List (Option ScriptOp) := opsFrom script.length script

variable {op : ScriptOp} {opcode : UInt8} {pc script : CScript}

theorem takePush_spec {nSize : ℕ} (h : takePush opcode nSize pc = some op) :
    op.opcode = opcode ∧ op.pc <:+ pc := by
  unfold takePush at h
  split at h
  · cases h
  · cases h
    exact ⟨rfl, List.drop_suffix _ _⟩

theorem takeSizedPush_spec {k : ℕ} (h : takeSizedPush opcode k pc = some op) :
    op.opcode = opcode ∧ op.pc <:+ pc := by
  unfold takeSizedPush at h
  split at h
  · cases h
  · exact ⟨(takePush_spec h).1, (takePush_spec h).2.trans (List.drop_suffix _ _)⟩

theorem getScriptOp_cons (h : getScriptOp (opcode :: pc) = some op) :
    op.opcode = opcode ∧ op.pc <:+ pc := by
  simp only [getScriptOp] at h
  split_ifs at h
  · exact takePush_spec h
  · exact takeSizedPush_spec h
  · exact takeSizedPush_spec h
  · exact takeSizedPush_spec h
  · cases h
    exact ⟨rfl, List.suffix_rfl⟩

theorem getScriptOp_length (h : getScriptOp script = some op) : op.pc.length < script.length := by
  cases script with
  | nil => cases h
  | cons opcode pc => exact Nat.lt_succ_of_le (getScriptOp_cons h).2.length_le

theorem opsFrom_of_length_le {fuel : ℕ} (h : pc.length ≤ fuel) : opsFrom fuel pc = pc.ops := by
  unfold CScript.ops
  induction fuel using Nat.strong_induction_on generalizing pc with
  | _ fuel ih =>
    cases pc with
    | nil => cases fuel <;> rfl
    | cons b pc =>
      obtain ⟨fuel, rfl⟩ : ∃ n, fuel = n + 1 := ⟨fuel - 1, by simp at h; omega⟩
      simp only [List.length_cons, opsFrom]
      cases ho : getScriptOp (b :: pc) with
      | none => rfl
      | some op =>
        have hlt := getScriptOp_length ho
        simp only [List.length_cons] at h hlt
        have hl : opsFrom fuel op.pc = opsFrom op.pc.length op.pc :=
          ih fuel (by omega) (by omega)
        have hr : opsFrom pc.length op.pc = opsFrom op.pc.length op.pc :=
          ih pc.length (by omega) (by omega)
        simp only [hl, hr]

theorem ops_of_getScriptOp (h : getScriptOp script = some op) : script.ops = some op :: op.pc.ops := by
  have hl := getScriptOp_length h
  cases script with
  | nil => cases h
  | cons b pc =>
    simp only [CScript.ops, List.length_cons, opsFrom, h]
    congr 1
    exact opsFrom_of_length_le (by simpa [Nat.lt_succ_iff] using hl)

variable (script)

/-- `operator<<` for data. -/
def CScript.push (b : Valtype) : CScript :=
  if b.length < opPushData1.toNat then script ++ UInt8.ofNat b.length :: b
  else if b.length ≤ 0xff then script ++ opPushData1 :: UInt8.ofNat b.length :: b
  else if b.length ≤ 0xffff then script ++ opPushData2 :: (writeLE 2 b.length ++ b)
  else script ++ opPushData4 :: (writeLE 4 b.length ++ b)

def CScript.isPayToScriptHash : Bool :=
  script.length = 23 && script.getD 0 0 = opHash160Byte && script.getD 1 0 = 0x14 &&
    script.getD 22 0 = opEqualByte

def CScript.isWitnessProgram : Option (ℕ × Valtype) :=
  if script.length < 4 || 42 < script.length then none
  else if script.getD 0 0 ≠ 0 && (script.getD 0 0 < op1 || op16 < script.getD 0 0) then none
  else if (script.getD 1 0).toNat + 2 = script.length then
    some (if script.getD 0 0 = 0 then 0 else (script.getD 0 0).toNat - 0x50, script.drop 2)
  else none

def CScript.isPushOnly : Bool :=
  script.ops.all fun
    | none => false
    | some op => op.opcode ≤ op16

variable {script}

def int64Max : ℤ := 2 ^ 63 - 1
def int64Min : ℤ := -2 ^ 63

abbrev CScriptNum := ℤ

namespace CScriptNum
variable (vch : Valtype)

def setVch : CScriptNum :=
  if vch.getLastD 0 &&& 0x80 ≠ 0 then -((readLE vch : ℤ) - 0x80 * 256 ^ (vch.length - 1))
  else readLE vch

def isMinimal : Bool :=
  vch.isEmpty || vch.getLastD 0 &&& 0x7f ≠ 0 ||
    (1 < vch.length && vch.getD (vch.length - 2) 0 &&& 0x80 ≠ 0)

/-- The constructor from a stack element. -/
def ofVch (fRequireMinimal : Bool) (nMaxNumSize : ℕ) : Except ScriptHalt CScriptNum :=
  if nMaxNumSize < vch.length then .error (.scriptnumError "script number overflow")
  else if fRequireMinimal && !isMinimal vch then
    .error (.scriptnumError "non-minimally encoded script number")
  else .ok (setVch vch)

def nDefaultMaxNumSize : ℕ := 4

def getint (n : CScriptNum) : ℤ := max (-2 ^ 31) (min n (2 ^ 31 - 1))

def absBytes : ℕ → ℕ → List UInt8
  | 0, _ => []
  | _ + 1, 0 => []
  | fuel + 1, absvalue => UInt8.ofNat (absvalue % 256) :: absBytes fuel (absvalue / 256)

def serialize (value : CScriptNum) : Valtype :=
  let neg := decide (value < 0)
  let result := absBytes 8 value.natAbs
  let back := result.getLastD 0
  if back &&& 0x80 ≠ 0 then result ++ [if neg then 0x80 else 0]
  else if neg then result.dropLast ++ [back ||| 0x80]
  else result

example : serialize 0 = [] ∧ serialize (-1) = [0x81] ∧ serialize 255 = [0xff, 0] ∧
    setVch (serialize (-255)) = -255 := by decide

/-- `operator+=`. -/
def addAssign (n rhs : CScriptNum) : Except ScriptHalt CScriptNum := do
  assert (rhs = 0 || (0 < rhs && n ≤ int64Max - rhs) || (rhs < 0 && int64Min - rhs ≤ n))
  return n + rhs

/-- `operator-=`. -/
def subAssign (n rhs : CScriptNum) : Except ScriptHalt CScriptNum := do
  assert (rhs = 0 || (0 < rhs && int64Min + rhs ≤ n) || (rhs < 0 && n ≤ int64Max + rhs))
  return n - rhs

/-- Unary `operator-`. -/
def neg (n : CScriptNum) : Except ScriptHalt CScriptNum := do
  assert (n ≠ int64Min)
  return -n

end CScriptNum

def CScript.pushInt (script : CScript) (n : ℤ) : CScript :=
  if n = -1 ∨ (1 ≤ n ∧ n ≤ 16) then script ++ [UInt8.ofNat (n + (op1.toNat - 1)).toNat]
  else if n = 0 then script ++ [0]
  else script.push (CScriptNum.serialize n)

/-- The signature operations an opcode counts for, after the opcode `lastOpcode`. -/
def opcodeSigOps (fAccurate : Bool) (lastOpcode opcode : UInt8) : ℕ :=
  if opcode = opCheckSigByte || opcode = opCheckSigVerifyByte then 1
  else if opcode = opCheckMultisigByte || opcode = opCheckMultisigVerifyByte then
    if fAccurate && op1 ≤ lastOpcode && lastOpcode ≤ op16 then lastOpcode.toNat - (op1.toNat - 1)
    else maxPubkeysPerMultisig
  else 0

def sigOpCountFrom (fAccurate : Bool) : UInt8 → List (Option ScriptOp) → ℕ
  | lastOpcode, some op :: ops =>
    opcodeSigOps fAccurate lastOpcode op.opcode + sigOpCountFrom fAccurate op.opcode ops
  | _, _ => 0

/-- `GetSigOpCount`, which stops where the script cannot be parsed. -/
def CScript.getSigOpCount (script : CScript) (fAccurate : Bool) : ℕ :=
  sigOpCountFrom fAccurate opInvalidOpcodeByte script.ops

def getLegacySigOpCount (tx : CTransaction) : ℕ :=
  (tx.vin.map fun txin => CScript.getSigOpCount txin.scriptSig false).sum +
    (tx.vout.map fun txout => CScript.getSigOpCount txout.scriptPubKey false).sum

end Palladium
