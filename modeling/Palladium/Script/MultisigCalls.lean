import Palladium.Script.Extraction
import Palladium.Script.Programs

/-! # Calls of multisig inputs

Verification of a multisig input calls the checker for the signatures from the top of the stack on,
if it gets as far as that.
-/

namespace Palladium
open EvalM Except List StateT

theorem mem_afterOk {ε α β : Type} {x : Except ε α} {f : α → List β} {b : β} :
    b ∈ afterOk x f ↔ ∃ a, x = .ok a ∧ b ∈ f a := by
  cases x <;> simp [afterOk]

/-- The instruction does not check signatures by `CheckSig`. -/
def ScriptOp.isSilent (op : ScriptOp) : Bool :=
  match Opcode.ofByte op.opcode with
  | .opCheckSig | .opCheckSigVerify | .opCheckMultiSig | .opCheckMultiSigVerify => false
  | _ => true

section Silent
variable {crypto : Crypto} {flags : ScriptFlags} {checker : SignatureChecker}
  {sigversion : SigVersion} {op : ScriptOp} {s : EvalState} {call : SigCall}

theorem stepCalls_of_isSilent (h : op.isSilent) :
    stepCalls crypto flags checker sigversion op s = [] := by
  have ho : ∀ s, opcodeCalls crypto flags checker sigversion op s = [] := by
    intro s
    unfold opcodeCalls
    unfold ScriptOp.isSilent at h
    split at h <;> simp_all
  refine eq_nil_iff_forall_not_mem.mpr fun call hc => ?_
  obtain ⟨⟨_, s'⟩, -, hm⟩ := mem_afterOk.mp hc
  simp [ho] at hm

theorem isSilent_of_le (h : op.opcode ≤ op16) : op.isSilent := by
  unfold ScriptOp.isSilent
  rcases ofByte_range op.opcode with ⟨-, ho⟩ | ⟨-, -, ho | ho⟩ | ⟨hl, -⟩
  · rw [ho]
  · rw [ho]
  · rw [ho]
  · exact absurd h (UInt8.not_le.mpr hl)

theorem opsCalls_eq_nil {ops : List (Option ScriptOp)} (h : ∀ op, some op ∈ ops → op.isSilent) :
    opsCalls crypto flags checker sigversion ops s = [] := by
  induction ops generalizing s with
  | nil => rfl
  | cons o ops ih =>
    cases o with
    | none => rfl
    | some op =>
      rw [opsCalls, stepCalls_of_isSilent (h op mem_cons_self), nil_append]
      refine eq_nil_iff_forall_not_mem.mpr fun call hc => ?_
      obtain ⟨⟨_, s'⟩, -, hm⟩ := mem_afterOk.mp hc
      have hn := ih (s := s') fun op ho => h op (mem_cons_of_mem _ ho)
      exact absurd (hn ▸ hm : call ∈ []) not_mem_nil

variable {script : CScript} {ops : List ScriptOp} {vs : List Valtype}

theorem evalScriptCalls_eq_nil {stack : List Valtype}
    (h : ∀ op, some op ∈ script.ops → op.isSilent) :
    evalScriptCalls crypto flags checker sigversion stack script = [] := by
  unfold evalScriptCalls
  split
  · rfl
  · exact opsCalls_eq_nil h

theorem isSilent_of_isPushOnly (h : script.isPushOnly) : ∀ op, some op ∈ script.ops → op.isSilent := by
  intro op ho
  obtain ⟨op', he, hl⟩ := isPushOnly_iff.mp h _ ho
  cases he
  exact isSilent_of_le hl

theorem opsCalls_append (ops rest : List (Option ScriptOp)) :
    opsCalls crypto flags checker sigversion (ops ++ rest) s =
      opsCalls crypto flags checker sigversion ops s ++
        afterOk ((evalOps crypto flags checker sigversion ops).run s) fun (_, t) =>
          opsCalls crypto flags checker sigversion rest t := by
  induction ops generalizing s with
  | nil => rfl
  | cons o ops ih =>
    cases o with
    | none => rfl
    | some op =>
      rw [cons_append, opsCalls, opsCalls, append_assoc, append_cancel_left_eq,
        evalOps, StateT.run_bind]
      cases (evalStep crypto flags checker sigversion op).run s with
      | error e => rfl
      | ok r => exact ih

theorem isSilent_of_pushesAll (h : PushesAll ops vs) : ∀ op, some op ∈ ops.map some → op.isSilent := by
  induction h with
  | nil => simp
  | cons hp _ ih =>
    rintro op (_ | ⟨_, ho⟩)
    · exact isSilent_of_le (opcode_le_of_pushed hp)
    · exact ih op ho

theorem mem_opsCalls_pushes (h : PushesAll ops vs) (rest : List (Option ScriptOp))
    (he : s.vfExec.allTrue) :
    call ∈ opsCalls crypto flags checker sigversion (ops.map some ++ rest) s ↔
      pushesAllowed flags ops (s.stack.length + s.altstack.length) ∧
      call ∈ opsCalls crypto flags checker sigversion rest (s.pushedAll vs) := by
  have hr : ∀ u t, Ends (evalOps crypto flags checker sigversion (ops.map some)) s u t ↔
      pushesAllowed flags ops (s.stack.length + s.altstack.length) ∧ s.pushedAll vs = t := by
    intro u t
    rw [← append_nil (ops.map some), ends_evalOps_pushes h _ he, ends_evalOps_nil]
  rw [opsCalls_append, opsCalls_eq_nil (isSilent_of_pushesAll h), nil_append, mem_afterOk,
    Prod.exists]
  constructor
  · rintro ⟨u, t, ht, hm⟩
    obtain ⟨ha, rfl⟩ := (hr u t).mp ht
    exact ⟨ha, hm⟩
  · rintro ⟨ha, hm⟩
    exact ⟨(), _, (hr () _).mpr ⟨ha, rfl⟩, hm⟩

end Silent

section Multisig
variable {flags : ScriptFlags} {sigversion : SigVersion} {crypto : Crypto}
  {checker : SignatureChecker} {script : CScript} {m : ℕ} {keys : List Valtype}
  {pushOps : List ScriptOp} {stack : List Valtype} {call : SigCall} {s : EvalState}

theorem opsCalls_singleton {op : ScriptOp} : opsCalls crypto flags checker sigversion [some op] s =
      stepCalls crypto flags checker sigversion op s := by
  have hn : ∀ x : Except ScriptHalt (Unit × EvalState),
      (afterOk x fun (_, s) => opsCalls crypto flags checker sigversion [] s) = [] := by
    intro x
    cases x <;> rfl
  rw [opsCalls, hn, append_nil]

theorem mem_stepCalls_checkMultisig (hex : s.vfExec.allTrue)
    (hs : s.stack = [UInt8.ofNat keys.length] :: keys.reverse ++ [UInt8.ofNat m] :: stack)
    (hc : s.nOpCount = 0) (hm : 1 ≤ m) (hmn : m ≤ keys.length) (hn : keys.length ≤ 16)
    (hco : flags.has .constScriptCode) (hl : sigversion.isLimited) :
    call ∈ stepCalls crypto flags checker sigversion ⟨opCheckMultisigByte, [], []⟩ s ↔
      (m + 1 ≤ stack.length ∧ (sigversion = .base → ∀ sig ∈ stack.take m,
        (findAndDelete s.pbegincodehash (CScript.push [] sig)).1 = 0)) ∧
      call ∈ matchSigsCalls crypto flags checker sigversion s.pbegincodehash keys.reverse
        (stack.take m) := by
  have hca : ∀ s', opcodeCalls crypto flags checker sigversion ⟨opCheckMultisigByte, [], []⟩ s' =
      multisigCalls crypto flags checker sigversion s' := fun _ => rfl
  have ht : sigversion ≠ .tapscript := by
    rintro rfl
    cases hl
  obtain ⟨hk, hr⟩ := split_multisigStack (show (s.counted sigversion).stack = _ from hs)
  rw [stepCalls, mem_afterOk, Prod.exists]
  constructor
  · rintro ⟨_, t, hch, hme⟩
    obtain ⟨-, rfl⟩ := (ends_checkOp_opcode (by decide) rfl (by decide) (by decide)).mp hch
    dsimp only at hme
    rw [if_pos (by exact hex), hca, multisigCalls, mem_afterOk, Prod.exists] at hme
    obtain ⟨args, t, ha, hme⟩ := hme
    obtain ⟨-, -, he, hd, hke, hsi, rfl⟩ :=
      (ends_multisigArgs (by exact hs) hm hmn hn).mp ha
    obtain ⟨hno, hce⟩ := (dropAll_eq_ok hco).mp hd
    dsimp only at hme
    rw [hke, hsi, hk, hr, ← hce] at hme
    exact ⟨⟨he, hno⟩, hme⟩
  · rintro ⟨⟨he, hno⟩, hme⟩
    refine ⟨(), s.counted sigversion, (ends_checkOp_opcode (by decide) rfl (by decide)
      (by decide)).mpr ⟨fun _ => ?_, rfl⟩, ?_⟩
    · rw [hc]
      decide
    · dsimp only
      rw [if_pos (by exact hex), hca, multisigCalls, mem_afterOk, Prod.exists]
      have hd := (dropAll_eq_ok hco).mpr ⟨hno, rfl⟩
      refine ⟨⟨keys.length, m, s.pbegincodehash⟩, _, (ends_multisigArgs (by exact hs) hm hmn
        hn).mpr ⟨ht, ?_, he, hd, rfl, rfl, rfl⟩, ?_⟩
      · simp only [EvalState.counted, hl, if_true, hc, maxOpsPerScript]
        omega
      · dsimp only
        rw [hk, hr]
        exact hme

theorem IsMultisig.mem_evalScriptCalls (h : IsMultisig script m keys pushOps)
    (hc : flags.has .constScriptCode) (hl : sigversion.isLimited) :
    call ∈ evalScriptCalls crypto flags checker sigversion stack script ↔
      RunsToSignatures flags sigversion script m keys.length stack ∧
      call ∈ matchSigsCalls crypto flags checker sigversion script keys.reverse (stack.take m) := by
  have hst : ((EvalState.start stack script {}).pushedAll
      ([UInt8.ofNat m] :: keys ++ [[UInt8.ofNat keys.length]])).stack =
        [UInt8.ofNat keys.length] :: keys.reverse ++ [UInt8.ofNat m] :: stack := by
    simp [EvalState.pushedAll, EvalState.start]
  rw [evalScriptCalls]
  split
  next hlo =>
    simp only [hl, Bool.true_and, decide_eq_true_eq] at hlo
    simp only [not_mem_nil, false_iff, not_and]
    exact fun hr => absurd hr.script_length (by omega)
  next hs =>
    simp only [hl, Bool.true_and, decide_eq_true_eq, not_lt] at hs
    rw [h.ops_eq, mem_opsCalls_pushes h.pushes _ rfl, h.pushesAllowed_iff, opsCalls_singleton,
      mem_stepCalls_checkMultisig rfl hst rfl h.one_le h.le_length h.length_le hc hl]
    constructor
    · rintro ⟨⟨hmi, hle⟩, ⟨he, hn⟩, hm⟩
      exact ⟨⟨hs, hmi, hle, he, hn⟩, hm⟩
    · rintro ⟨hr, hm⟩
      exact ⟨⟨hr.minimal, hr.stack_length⟩, ⟨hr.enough, hr.not_in_script⟩, hm⟩

end Multisig

/-- How a multisig script is paid to. -/
inductive MultisigOutput
  | bare
  | scriptHash
  | witnessScriptHash
  | nestedWitnessScriptHash
  deriving DecidableEq, Repr

namespace MultisigOutput

def sigversion : MultisigOutput → SigVersion
  | bare | scriptHash => .base
  | witnessScriptHash | nestedWitnessScriptHash => .witnessV0

variable (crypto : Crypto) (script : CScript)

def scriptPubKey : MultisigOutput → CScript
  | bare => script
  | scriptHash => getScriptForScriptHash (crypto.hash160 script)
  | witnessScriptHash => getScriptForWitnessV0 (crypto.sha256 script)
  | nestedWitnessScriptHash =>
    getScriptForScriptHash (crypto.hash160 (getScriptForWitnessV0 (crypto.sha256 script)))

/-- The input gives the elements to the script, from the bottom of the stack on. -/
def Holds (elems : List Valtype) (scriptSig : CScript) (witness : List Valtype) :
    MultisigOutput → Prop
  | bare => scriptSig.isPushOnly = true ∧
    evalBase crypto (.ofList [.strictEnc]) baseSignatureChecker [] scriptSig = .ok elems.reverse
  | scriptHash => scriptSig.isPushOnly = true ∧
    evalBase crypto (.ofList [.strictEnc]) baseSignatureChecker [] scriptSig =
      .ok (script :: elems.reverse)
  | witnessScriptHash => scriptSig = [] ∧ witness = elems ++ [script]
  | nestedWitnessScriptHash =>
    scriptSig = CScript.push [] (getScriptForWitnessV0 (crypto.sha256 script)) ∧
      witness = elems ++ [script]

/-- The standard rules let verification get to the signatures. -/
def Reaches (m n : ℕ) (elems : List Valtype) (scriptSig : CScript) (out : MultisigOutput) : Prop :=
  (match out with
    | bare | scriptHash => scriptSig.pushesMinimal = true
    | witnessScriptHash | nestedWitnessScriptHash => castToBool (crypto.sha256 script) = true ∧
      ∀ elem ∈ elems, elem.length ≤ maxScriptElementSize) ∧
  RunsToSignatures standardScriptVerifyFlags out.sigversion script m n elems.reverse

end MultisigOutput

section Inputs
variable {crypto : Crypto} {checker : SignatureChecker} {script : CScript} {m : ℕ}
  {keys elems witness : List Valtype} {scriptSig : CScript} {call : SigCall}

theorem solver_eq_multisig (h : solver script = .multisig m keys) :
    script.isPayToScriptHash = false ∧ script.isWitnessProgram = none ∧
      matchMultisig script = some (m, keys) := by
  unfold solver at h
  split at h
  · cases h
  next hp2sh =>
    split at h
    · unfold solveWitnessProgram at h
      split_ifs at h
    next hw =>
      split at h
      · cases h
      · split at h
        · cases h
        · split at h
          · cases h
          · split at h
            next he =>
              cases h
              exact ⟨Bool.eq_false_iff.mpr hp2sh, hw, he⟩
            · cases h

variable {scriptPubKey redeemScript : CScript} {stack r : List Valtype} {b program : Valtype}
  {flags : ScriptFlags} {sigversion : SigVersion} {execdata : ScriptExecutionData} {isP2sh : Bool}
  {s s' : VerifyState}

/-- The standard rules that verification of a multisig input depends on. -/
structure ScriptFlags.IsStandard (flags : ScriptFlags) : Prop where
  sigPushOnly : flags.has .sigPushOnly = false
  minimalData : flags.has .minimalData
  p2sh : flags.has .p2sh
  witness : flags.has .witness
  cleanStack : flags.has .cleanStack
  constScriptCode : flags.has .constScriptCode

theorem ScriptFlags.IsStandard.std : standardScriptVerifyFlags.IsStandard := by
  constructor <;> decide

theorem mem_verifyScriptCalls_of_isPushOnly (hf : flags.IsStandard)
    (ho : scriptSig.isPushOnly)
    (hst : evalBase crypto (.ofList [.strictEnc]) baseSignatureChecker [] scriptSig = .ok stack) :
    call ∈ verifyScriptCalls crypto flags checker scriptSig scriptPubKey witness ↔
      scriptSig.pushesMinimal ∧
      (call ∈ evalBaseCalls crypto flags checker stack scriptPubKey ∨
        ∃ stack', evalBase crypto flags checker stack scriptPubKey = .ok stack' ∧
          checkTrue stack' = .ok () ∧
          (call ∈ witnessProgramCalls crypto flags checker scriptPubKey scriptSig.isEmpty witness ∨
            ∃ s, verifyBareWitness crypto flags checker scriptSig scriptPubKey witness
                ⟨stack', false⟩ = .ok s ∧
              call ∈ scriptHashCalls crypto flags checker scriptSig scriptPubKey witness
                stack)) := by
  have hs : evalBaseCalls crypto flags checker [] scriptSig = [] :=
    evalScriptCalls_eq_nil (isSilent_of_isPushOnly ho)
  have hr : ∀ r, evalBase crypto flags checker [] scriptSig = .ok r ↔
      scriptSig.pushesMinimal = true ∧ stack = r := by
    intro r
    rw [evalBase_of_isPushOnly ho hst]
    simp only [hf.minimalData, forall_const]
  simp only [verifyScriptCalls, mem_afterOk, hf.sigPushOnly, hs, nil_append, mem_append,
    hr, checkIf_eq_ok, Bool.false_eq_true, false_implies, true_and, and_assoc,
    exists_and_left, exists_eq_left', Unique.exists_iff]

theorem mem_verifyScriptCalls_bare (hf : flags.IsStandard)
    (hs : solver script = .multisig m keys) (ho : scriptSig.isPushOnly)
    (hst : evalBase crypto (.ofList [.strictEnc]) baseSignatureChecker [] scriptSig =
      .ok elems.reverse) :
    call ∈ verifyScriptCalls crypto flags checker scriptSig script witness ↔
      scriptSig.pushesMinimal ∧
      call ∈ evalBaseCalls crypto flags checker elems.reverse script := by
  obtain ⟨hp2sh, hw, -⟩ := solver_eq_multisig hs
  have hn : ∀ exact, witnessProgramCalls crypto flags checker script exact witness = [] := by
    intro exact
    rw [witnessProgramCalls, hw]
  have hno : ∀ s, scriptHashCalls crypto flags checker scriptSig script
      witness s = [] := by
    intro s
    unfold scriptHashCalls
    simp [hp2sh]
  rw [mem_verifyScriptCalls_of_isPushOnly hf ho hst]
  simp [hn, hno]

theorem checkTrue_one (stack : List Valtype) : checkTrue ([1] :: stack) = .ok () := by
  simp [checkTrue, castToBool, check]

theorem mem_verifyScriptCalls_scriptHash (hf : flags.IsStandard)
    (hl : (crypto.hash160 redeemScript).length = 20) (hon : scriptSig.isPushOnly)
    (hst : evalBase crypto (.ofList [.strictEnc]) baseSignatureChecker [] scriptSig =
      .ok (redeemScript :: stack)) :
    call ∈ verifyScriptCalls crypto flags checker scriptSig
        (getScriptForScriptHash (crypto.hash160 redeemScript)) witness ↔
      scriptSig.pushesMinimal ∧ stack.length + 2 ≤ maxStackSize ∧
      (call ∈ evalBaseCalls crypto flags checker stack redeemScript ∨
        ∃ stack', evalBase crypto flags checker stack redeemScript = .ok stack' ∧
          checkTrue stack' = .ok () ∧ call ∈ witnessProgramCalls crypto flags checker
            redeemScript (scriptSig = CScript.push [] redeemScript) witness) := by
  have hs : evalBaseCalls crypto flags checker (redeemScript :: stack)
      (getScriptForScriptHash (crypto.hash160 redeemScript)) = [] := by
    refine evalScriptCalls_eq_nil fun op ho => ?_
    rw [ops_getScriptForScriptHash hl] at ho
    simp only [mem_cons, Option.some.injEq, not_mem_nil, or_false] at ho
    rcases ho with rfl | rfl | rfl
    · rfl
    · exact isSilent_of_le (opcode_le_of_pushed (pushed_pushOp _))
    · rfl
  have hn : ∀ exact, witnessProgramCalls crypto flags checker
      (getScriptForScriptHash (crypto.hash160 redeemScript)) exact witness = [] := by
    intro exact
    rw [witnessProgramCalls, isWitnessProgram_getScriptForScriptHash hl]
  have hb : ∀ s, verifyBareWitness crypto flags checker scriptSig
      (getScriptForScriptHash (crypto.hash160 redeemScript)) witness s = .ok s := by
    intro s
    simp [verifyBareWitness, followWitnessProgram, isWitnessProgram_getScriptForScriptHash hl]
  rw [mem_verifyScriptCalls_of_isPushOnly hf hon hst]
  simp only [hs, hn, hb, scriptHashCalls, hf.p2sh,
    isPayToScriptHash_getScriptForScriptHash hl, hon, Bool.and_self, mem_append, mem_afterOk,
    Unique.exists_iff, evalBase_getScriptForScriptHash hl, not_mem_nil, false_or, if_true,
    and_assoc, exists_and_left, exists_eq_left', checkTrue_one, true_and]
  simp

theorem mem_witnessProgramCalls (hf : flags.IsStandard)
    (hl : (crypto.sha256 script).length = 32) :
    call ∈ witnessProgramCalls crypto flags checker
        (getScriptForWitnessV0 (crypto.sha256 script)) true (elems ++ [script]) ↔
      (∀ elem ∈ elems, elem.length ≤ maxScriptElementSize) ∧
      call ∈ evalScriptCalls crypto flags checker .witnessV0 elems.reverse script := by
  rw [witnessProgramCalls, isWitnessProgram_getScriptForWitnessV0 (by omega) (by omega)]
  simp only [hf.witness, Bool.and_self, if_true, reverse_append, reverse_singleton,
    singleton_append, witnessV0Calls, hl, witnessScriptCalls]
  split
  next ha => simpa using fun _ => ha
  next hn =>
    simp only [not_mem_nil, false_iff, not_and]
    exact fun ha => absurd (by simpa using ha) hn

theorem evalBase_push (hb : b.length ≠ 1) (hl : b.length ≤ maxScriptElementSize) :
    evalBase crypto flags checker [] (CScript.push [] b) = .ok [b] := by
  have ho : (CScript.push [] b).ops = [pushOp b []].map some := by
    have hp := ops_push (b := b) (hl.trans_lt (by decide)) []
    rwa [append_nil] at hp
  have hs : (CScript.push [] b).length ≤ maxScriptSize := by
    have hl' : b.length ≤ 520 := hl
    unfold CScript.push maxScriptSize
    split_ifs <;> simp <;> omega
  refine (evalBase_pushes ho (.cons (pushed_pushOp b) .nil)).mpr ⟨hs, ⟨?_, ?_⟩, rfl⟩
  · simpa using pushAllowed_pushOp hb hl
  · simp [maxStackSize]

theorem isPushOnly_push (hl : b.length < 2 ^ 32) : (CScript.push [] b).isPushOnly := by
  have ho := ops_push hl []
  rw [append_nil, ops_nil] at ho
  rw [isPushOnly_iff, ho]
  simpa using opcode_le_of_pushed (pushed_pushOp b)

theorem pushesMinimal_push (hb : b.length ≠ 1) (hl : b.length ≤ 65535) :
    (CScript.push [] b).pushesMinimal := by
  have ho := ops_push (b := b) (by omega) []
  rw [append_nil, ops_nil] at ho
  rw [CScript.pushesMinimal, ho]
  have hm : checkMinimalPush (pushOp b []).vch (pushOp b []).opcode = true :=
    checkMinimalPush_pushOp hb hl []
  simp [hm]

theorem evalBaseCalls_getScriptForWitnessV0 (hl : program.length ≤ 40) :
    evalBaseCalls crypto flags checker stack (getScriptForWitnessV0 program) = [] := by
  refine evalScriptCalls_eq_nil ?_
  rw [ops_getScriptForWitnessV0 hl]
  exact isSilent_of_pushesAll (.cons (pushed_pushOp _) (.cons (pushed_pushOp _) .nil))

theorem length_getScriptForWitnessV0 (hl : program.length = 32) :
    (getScriptForWitnessV0 program).length = 34 := by
  rw [getScriptForWitnessV0_eq (by omega), length_cons, length_cons, hl]

theorem checkTrue_eq_ok {v : Valtype} : checkTrue (v :: stack) = .ok () ↔ castToBool v := by
  simp [checkTrue]

variable (crypto) in
structure Crypto.HashSizes : Prop where
  hash160 : ∀ vch, (crypto.hash160 vch).length = 20
  sha256 : ∀ vch, (crypto.sha256 vch).length = 32

/-- While a multisig input is verified, the checker is called for the signatures on top of the
stack. -/
theorem MultisigOutput.mem_verifyScriptCalls (out : MultisigOutput) (hs : crypto.HashSizes)
    (hso : solver script = .multisig m keys)
    (hh : out.Holds crypto script elems scriptSig witness) :
    call ∈ verifyScriptCalls crypto standardScriptVerifyFlags checker scriptSig
        (out.scriptPubKey crypto script) witness ↔
      out.Reaches crypto script m keys.length elems scriptSig ∧
      call ∈ matchSigsCalls crypto standardScriptVerifyFlags checker out.sigversion script
        keys.reverse (elems.reverse.take m) := by
  obtain ⟨hp2sh, hw, hma⟩ := solver_eq_multisig hso
  obtain ⟨pushOps, hmu⟩ := exists_isMultisig hma
  have hc : ∀ sigversion : SigVersion, sigversion.isLimited = true →
      (call ∈ evalScriptCalls crypto standardScriptVerifyFlags checker sigversion elems.reverse
          script ↔
        RunsToSignatures standardScriptVerifyFlags sigversion script m keys.length elems.reverse ∧
        call ∈ matchSigsCalls crypto standardScriptVerifyFlags checker sigversion script
          keys.reverse (elems.reverse.take m)) :=
    fun _ hl => hmu.mem_evalScriptCalls (by decide) hl
  have h32 := hs.sha256 script
  have hg : 2 ≤ (crypto.sha256 script).length := by omega
  have hle : (crypto.sha256 script).length ≤ 40 := by omega
  cases out with
  | bare =>
    obtain ⟨ho, hst⟩ := hh
    rw [scriptPubKey, mem_verifyScriptCalls_bare .std hso ho hst, evalBaseCalls,
      hc .base rfl, ← and_assoc]
    rfl
  | scriptHash =>
    obtain ⟨ho, hst⟩ := hh
    have hn : ∀ exact, witnessProgramCalls crypto standardScriptVerifyFlags checker script exact
        witness = [] := by
      intro exact
      rw [witnessProgramCalls, hw]
    rw [scriptPubKey, mem_verifyScriptCalls_scriptHash .std (hs.hash160 _) ho hst]
    simp only [hn, not_mem_nil, and_false, exists_false, or_false, evalBaseCalls, hc .base rfl]
    constructor
    · rintro ⟨hmi, -, hr, hm⟩
      exact ⟨⟨hmi, hr⟩, hm⟩
    · rintro ⟨⟨hmi, hr⟩, hm⟩
      exact ⟨hmi, by have := hr.stack_length; omega, hr, hm⟩
  | witnessScriptHash =>
    obtain ⟨rfl, rfl⟩ := hh
    rw [scriptPubKey, mem_verifyScriptCalls_of_isPushOnly .std rfl
      (show evalBase crypto (.ofList [.strictEnc]) baseSignatureChecker [] [] = .ok [] from rfl)]
    have hno : scriptHashCalls crypto standardScriptVerifyFlags checker []
        (getScriptForWitnessV0 (crypto.sha256 script)) (elems ++ [script]) [] = [] := by
      unfold scriptHashCalls
      simp [isPayToScriptHash_getScriptForWitnessV0 (by omega : (crypto.sha256 script).length < 76)]
    simp only [evalBaseCalls_getScriptForWitnessV0 hle, hno, evalBase_getScriptForWitnessV0 hg hle,
      isEmpty_nil, mem_witnessProgramCalls .std h32, not_mem_nil, and_false, exists_false,
      or_false, false_or, hc .witnessV0 rfl]
    constructor
    · rintro ⟨-, _, ⟨-, rfl⟩, ht, ha, hr, hm⟩
      exact ⟨⟨⟨checkTrue_eq_ok.mp ht, ha⟩, hr⟩, hm⟩
    · rintro ⟨⟨⟨ht, ha⟩, hr⟩, hm⟩
      exact ⟨rfl, _, ⟨by decide, rfl⟩, checkTrue_eq_ok.mpr ht, ha, hr, hm⟩
  | nestedWitnessScriptHash =>
    obtain ⟨rfl, rfl⟩ := hh
    have hln := length_getScriptForWitnessV0 h32
    rw [scriptPubKey, mem_verifyScriptCalls_scriptHash .std (hs.hash160 _)
      (isPushOnly_push (by omega)) (evalBase_push (by omega) (by rw [hln]; decide))]
    simp only [evalBaseCalls_getScriptForWitnessV0 hle, evalBase_getScriptForWitnessV0 hg hle,
      decide_true, mem_witnessProgramCalls .std h32, not_mem_nil, false_or, hc .witnessV0 rfl]
    constructor
    · rintro ⟨-, -, _, ⟨-, rfl⟩, ht, ha, hr, hm⟩
      exact ⟨⟨⟨checkTrue_eq_ok.mp ht, ha⟩, hr⟩, hm⟩
    · rintro ⟨⟨⟨ht, ha⟩, hr⟩, hm⟩
      exact ⟨pushesMinimal_push (by omega) (by omega), by decide, _, ⟨by decide, rfl⟩,
        checkTrue_eq_ok.mpr ht, ha, hr, hm⟩

theorem exists_mem_matchSigsCalls {sigs : List Valtype} (hn : sigs ≠ [])
    (h : matchSigs crypto flags checker sigversion script keys sigs = .ok true) :
    ∃ call, call ∈ matchSigsCalls crypto flags checker sigversion script keys sigs := by
  induction keys with
  | nil =>
    cases sigs with
    | nil => exact absurd rfl hn
    | cons sig sigs => cases h
  | cons key keys ih =>
    cases sigs with
    | nil => exact absurd rfl hn
    | cons sig sigs =>
      rw [matchSigs, bind_eq_ok_punit, bind_eq_ok_punit] at h
      obtain ⟨hs, hk, h⟩ := h
      rw [matchSigsCalls, hs, hk]
      simp only [afterOk]
      split_ifs at h ⊢ with hv hl hl
      · exact ⟨_, mem_cons_self⟩
      · exact ⟨_, mem_cons_self⟩
      · cases h
      · exact ih h

theorem verifyScript_standard_eq_ok (hf : flags.IsStandard) :
    verifyScript crypto flags checker scriptSig scriptPubKey (some witness) = .ok () ↔
      ∃ stackCopy stack s s', evalBase crypto flags checker [] scriptSig = .ok stackCopy ∧
        evalBase crypto flags checker stackCopy scriptPubKey = .ok stack ∧
        checkTrue stack = .ok () ∧
        verifyBareWitness crypto flags checker scriptSig scriptPubKey witness ⟨stack, false⟩ =
          .ok s ∧
        verifyScriptHash crypto flags checker scriptSig scriptPubKey witness stackCopy s = .ok s' ∧
        s'.stack.length = 1 ∧ (s'.hadWitness ∨ witness = []) := by
  have hb : ∀ evals, evalBoth crypto flags checker scriptSig scriptPubKey = .ok evals ↔
        evalBase crypto flags checker [] scriptSig = .ok evals.1 ∧
        evalBase crypto flags checker evals.1 scriptPubKey = .ok evals.2 ∧
        checkTrue evals.2 = .ok () := by
    rintro ⟨stackCopy, stack⟩
    simp only [evalBoth, hf.sigPushOnly, bind_eq_ok, checkIf_eq_ok,
      Bool.false_eq_true, false_implies, true_and, pure_eq_ok, Prod.mk.injEq]
    constructor
    · rintro ⟨_, _, hc, _, hs, _, ht, rfl, rfl⟩
      exact ⟨hc, hs, ht⟩
    · rintro ⟨hc, hs, ht⟩
      exact ⟨(), _, hc, _, hs, (), ht, rfl, rfl⟩
  have hl : ∀ s, (checkCleanStack flags s = .ok () ∧
      checkWitnessExpected flags witness s = .ok ()) ↔
      s.stack.length = 1 ∧ (s.hadWitness = true ∨ witness = []) := by
    intro s
    simp only [checkCleanStack, checkWitnessExpected, hf.cleanStack, hf.p2sh,
      hf.witness, checkIf_eq_ok,
      forall_const, bind_eq_ok_punit, assert_eq_ok, check_eq_ok, decide_eq_true_eq,
      Bool.or_eq_true, List.isEmpty_iff, true_and]
  rw [verifyScript_eq_ok]
  simp only [hb, Prod.exists, Option.getD_some, hl, and_assoc]

theorem exists_mem_of_evalScript (hf : flags.IsStandard) (hl : sigversion.isLimited)
    {execdata' : ScriptExecutionData} (hs : solver script = .multisig m keys)
    (he : evalScript crypto flags checker sigversion stack script execdata =
      .ok (r, execdata')) (ht : castToBool (r.headD [])) :
    RunsToSignatures flags sigversion script m keys.length stack ∧
      ∃ call, call ∈ matchSigsCalls crypto flags checker sigversion script
        keys.reverse (stack.take m) := by
  obtain ⟨pushOps, hmu⟩ := exists_isMultisig (solver_eq_multisig hs).2.2
  obtain ⟨hr, hma, -, -⟩ := (hmu.evalScript_true hf.constScriptCode hl).mp
    ⟨execdata', he, ht⟩
  refine ⟨hr, exists_mem_matchSigsCalls ?_ hma⟩
  have hm := hmu.one_le
  have hen := hr.enough
  rw [← length_pos_iff, length_take]
  omega

theorem exists_mem_of_evalBase (hf : flags.IsStandard)
    (hs : solver script = .multisig m keys)
    (he : evalBase crypto flags checker stack script = .ok r) (ht : checkTrue r = .ok ()) :
    RunsToSignatures flags .base script m keys.length stack ∧
      ∃ call, call ∈ matchSigsCalls crypto flags checker .base script keys.reverse
        (stack.take m) := by
  obtain ⟨⟨r', execdata⟩, he, hr⟩ := bind_eq_ok.mp he
  cases hr
  simp only [checkTrue, check_eq_ok, Bool.and_eq_true] at ht
  exact exists_mem_of_evalScript hf rfl hs he ht.2

theorem runWitnessScript_eq_ok :
    runWitnessScript crypto flags checker stack script sigversion execdata = .ok () ↔
      (∀ elem ∈ stack, elem.length ≤ maxScriptElementSize) ∧ ∃ r execdata',
        evalScript crypto flags checker sigversion stack script execdata = .ok (r, execdata') ∧
          r.length = 1 ∧ castToBool (r.headD []) := by
  rw [runWitnessScript, bind_eq_ok_punit, check_eq_ok, bind_eq_ok, Prod.exists]
  simp only [bind_eq_ok_punit, check_eq_ok, decide_eq_true_eq, all_eq_true]

theorem verifyWitnessProgram_eq_ok (hl : program.length = 32) :
    verifyWitnessProgram crypto flags checker (elems ++ [script]) 0 program isP2sh = .ok () ↔
      crypto.sha256 script = program ∧
        runWitnessScript crypto flags checker elems.reverse script .witnessV0 {} = .ok () := by
  rw [verifyWitnessProgram, if_pos rfl, reverse_append, reverse_singleton, singleton_append]
  simp only [verifyWitnessV0, hl, if_true]
  rw [bind_eq_ok_punit, check_eq_ok, decide_eq_true_eq]
  rfl

theorem followWitnessProgram_eq_ok {exact : Bool} {malleated : ScriptError}
    (hg : 2 ≤ program.length) (hl : program.length ≤ 40) :
    followWitnessProgram crypto flags checker (getScriptForWitnessV0 program) exact malleated isP2sh
        witness s = .ok s' ↔
      exact ∧ verifyWitnessProgram crypto flags checker witness 0 program isP2sh = .ok () ∧
        ⟨[s.stack.getLastD []], true⟩ = s' := by
  rw [followWitnessProgram, isWitnessProgram_getScriptForWitnessV0 hg hl]
  dsimp only
  rw [bind_eq_ok_punit, bind_eq_ok_punit, check_eq_ok, pure_eq_ok]

theorem exists_mem_of_runWitnessScript (hf : flags.IsStandard)
    (hs : solver script = .multisig m keys)
    (h : runWitnessScript crypto flags checker elems.reverse script .witnessV0 {} = .ok ()) :
    (∀ elem ∈ elems, elem.length ≤ maxScriptElementSize) ∧
    RunsToSignatures flags .witnessV0 script m keys.length elems.reverse ∧
      ∃ call, call ∈ matchSigsCalls crypto flags checker .witnessV0 script
        keys.reverse (elems.reverse.take m) := by
  obtain ⟨ha, r, execdata, he, -, ht⟩ := runWitnessScript_eq_ok.mp h
  exact ⟨by simpa using ha, exists_mem_of_evalScript hf rfl hs he ht⟩

theorem verifyScriptHash_eq_ok (hf : flags.IsStandard)
    (hl : (crypto.hash160 redeemScript).length = 20) :
    verifyScriptHash crypto flags checker scriptSig
        (getScriptForScriptHash (crypto.hash160 redeemScript)) witness (redeemScript :: stack) s =
        .ok s' ↔
      scriptSig.isPushOnly ∧ ∃ r, evalBase crypto flags checker stack
          redeemScript = .ok r ∧ checkTrue r = .ok () ∧
        verifyP2shWitness crypto flags checker scriptSig redeemScript witness
          { s with stack := r } = .ok s' := by
  simp only [verifyScriptHash, hf.p2sh, isPayToScriptHash_getScriptForScriptHash hl,
    Bool.and_self, if_true, evalRedeemScript, bind_eq_ok, check_eq_ok, pure_eq_ok, Prod.exists,
    Prod.mk.injEq]
  constructor
  · rintro ⟨_, _, ⟨_, ho, _, -, _, hp, _, he, _, ht, rfl, rfl⟩, hw⟩
    obtain rfl := Except.ok.inj hp
    exact ⟨ho, _, he, ht, hw⟩
  · rintro ⟨ho, r, he, ht, hw⟩
    exact ⟨_, r, ⟨(), ho, (), rfl, _, rfl, r, he, (), ht, rfl, rfl⟩, hw⟩

theorem MultisigOutput.exists_mem_of_verifyScript (out : MultisigOutput)
    (hsi : crypto.HashSizes) (hs : solver script = .multisig m keys)
    (hh : out.Holds crypto script elems scriptSig witness)
    (h : verifyScript crypto standardScriptVerifyFlags checker scriptSig
      (out.scriptPubKey crypto script) (some witness) = .ok ()) :
    out.Reaches crypto script m keys.length elems scriptSig ∧
      ∃ call, call ∈ matchSigsCalls crypto standardScriptVerifyFlags checker out.sigversion script
        keys.reverse (elems.reverse.take m) := by
  obtain ⟨stackCopy, stack, s, s', hc, hst, ht, hb, hha, -⟩ :=
    (verifyScript_standard_eq_ok .std).mp h
  have hf : standardScriptVerifyFlags.has .witness := by decide
  have h32 := hsi.sha256 script
  have hg : 2 ≤ (crypto.sha256 script).length := by omega
  have hle : (crypto.sha256 script).length ≤ 40 := by omega
  cases out with
  | bare =>
    obtain ⟨ho, hpu⟩ := hh
    obtain ⟨hm, rfl⟩ := (evalBase_of_isPushOnly ho hpu).mp hc
    obtain ⟨hr, hca⟩ := exists_mem_of_evalBase .std hs hst ht
    exact ⟨⟨hm (by decide), hr⟩, hca⟩
  | scriptHash =>
    obtain ⟨ho, hpu⟩ := hh
    obtain ⟨hm, rfl⟩ := (evalBase_of_isPushOnly ho hpu).mp hc
    obtain ⟨-, r, he, ht, -⟩ := (verifyScriptHash_eq_ok .std (hsi.hash160 _)).mp hha
    obtain ⟨hr, hca⟩ := exists_mem_of_evalBase .std hs he ht
    exact ⟨⟨hm (by decide), hr⟩, hca⟩
  | witnessScriptHash =>
    obtain ⟨rfl, rfl⟩ := hh
    obtain rfl : [] = stackCopy := Except.ok.inj hc
    obtain ⟨-, rfl⟩ := (evalBase_getScriptForWitnessV0 hg hle).mp hst
    rw [verifyBareWitness, if_pos hf, scriptPubKey, followWitnessProgram_eq_ok hg hle] at hb
    obtain ⟨-, hp, -⟩ := hb
    obtain ⟨ha, hr, hca⟩ :=
      exists_mem_of_runWitnessScript .std hs ((verifyWitnessProgram_eq_ok h32).mp hp).2
    exact ⟨⟨⟨checkTrue_eq_ok.mp ht, ha⟩, hr⟩, hca⟩
  | nestedWitnessScriptHash =>
    obtain ⟨rfl, rfl⟩ := hh
    have hl := length_getScriptForWitnessV0 h32
    obtain rfl : [_] = stackCopy := Except.ok.inj
      ((evalBase_push (by omega) (by rw [hl]; decide)).symm.trans hc)
    obtain ⟨-, r, he, ht, hp⟩ :=
      (verifyScriptHash_eq_ok .std (hsi.hash160 _)).mp hha
    obtain ⟨-, rfl⟩ := (evalBase_getScriptForWitnessV0 hg hle).mp he
    rw [verifyP2shWitness, if_pos hf, followWitnessProgram_eq_ok hg hle] at hp
    obtain ⟨-, hp, -⟩ := hp
    obtain ⟨ha, hr, hca⟩ :=
      exists_mem_of_runWitnessScript .std hs ((verifyWitnessProgram_eq_ok h32).mp hp).2
    exact ⟨⟨⟨checkTrue_eq_ok.mp ht, ha⟩, hr⟩, hca⟩

end Inputs

end Palladium
