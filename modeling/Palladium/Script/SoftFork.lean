import Palladium.Lib.Below
import Palladium.Script.Verify

/-! # Flags are soft forks

Every flag only adds rules.
-/

namespace Palladium
open Bool EvalM Except StateT

def ScriptFlags.IsSubset (f₁ f₂ : ScriptFlags) : Prop := f₁ &&& f₂ = f₁

instance (f₁ f₂ : ScriptFlags) : Decidable (f₁.IsSubset f₂) :=
  inferInstanceAs (Decidable (f₁ &&& f₂ = f₁))

/-- The combinations of flags that `VerifyScript` does not stop at. -/
structure ScriptFlags.WellFormed (flags : ScriptFlags) : Prop where
  p2sh_of_witness : flags.has .witness → flags.has .p2sh
  p2sh_of_cleanStack : flags.has .cleanStack → flags.has .p2sh
  witness_of_cleanStack : flags.has .cleanStack → flags.has .witness

variable {f₁ f₂ : ScriptFlags} {checker : SignatureChecker} {crypto : Crypto}

theorem ScriptFlags.IsSubset.has (h : f₁.IsSubset f₂) (f : ScriptVerify) (hf : f₁.has f) :
    f₂.has f := by
  rw [← h] at hf
  exact (and_eq_true_iff.mp ((BitVec.getLsbD_and ..).symm.trans hf)).2

theorem checkIf_below {on₁ on₂ : Bool} {x₁ x₂ : Except ScriptHalt Unit} (ho : on₁ → on₂)
    (hx : on₁ → x₂.Below x₁) : (checkIf on₂ x₂).Below (checkIf on₁ x₁) := by
  rintro ⟨⟩ h
  cases on₁ with
  | false => rfl
  | true =>
    rw [ho rfl] at h
    exact hx rfl _ h

section
variable {f₁ f₂ : ScriptFlags} (h : f₁.IsSubset f₂) {crypto : Crypto} {checker : SignatureChecker}
  {sigversion : SigVersion}

include h

theorem checkIf_has_below (f : ScriptVerify) (x : Except ScriptHalt Unit) :
    (checkIf (f₂.has f) x).Below (checkIf (f₁.has f) x) :=
  checkIf_below (h.has f) fun _ => .refl x

theorem ofVch_below (vch : Valtype) (nMaxNumSize : ℕ) :
    (CScriptNum.ofVch vch (f₂.has .minimalData) nMaxNumSize).Below
      (CScriptNum.ofVch vch (f₁.has .minimalData) nMaxNumSize) := by
  intro n hn
  unfold CScriptNum.ofVch at hn ⊢
  split_ifs at hn ⊢ with _ h₁ h₂
  · rw [and_eq_true] at h₁ h₂
    exact absurd ⟨h.has _ h₁.1, h₁.2⟩ h₂
  · exact hn

theorem checkSignatureEncoding_below (vchSig : Valtype) :
    (checkSignatureEncoding crypto f₂ vchSig).Below (checkSignatureEncoding crypto f₁ vchSig) := by
  refine checkIf_below id fun _ => ?_
  refine (checkIf_below ?_ fun _ => .refl _).bind <| ?_
  · simp only [or_eq_true]
    exact Or.imp (Or.imp (h.has _) (h.has _)) (h.has _)
  · exact (checkIf_has_below h _ _).bind <| checkIf_has_below h _ _

theorem checkPubKeyEncoding_below (vchPubKey : Valtype) :
    (checkPubKeyEncoding f₂ sigversion vchPubKey).Below
      (checkPubKeyEncoding f₁ sigversion vchPubKey) :=
  (checkIf_has_below h _ _).bind <| checkIf_has_below h _ _

theorem dropSignature_below (vchSig : Valtype) (scriptCode : CScript) :
    (dropSignature f₂ sigversion vchSig scriptCode).Below
      (dropSignature f₁ sigversion vchSig scriptCode) := by
  unfold dropSignature
  split
  · exact (checkIf_has_below h _ _).bind <| .refl _
  · exact .refl _

theorem numTop_below (i nMaxNumSize : ℕ) :
    (numTop f₂ i nMaxNumSize).Below (numTop f₁ i nMaxNumSize) :=
  .bind_right fun {vch} => .lift (ofVch_below h vch nMaxNumSize)

theorem scriptNum_below (i : ℕ) : (scriptNum f₂ i).Below (scriptNum f₁ i) := numTop_below h i _

variable (op : ScriptOp)

theorem evalPush_below : (evalPush f₂ op).Below (evalPush f₁ op) :=
  Below.bind_left (.lift (checkIf_has_below h _ _)) _

theorem evalUpgradableNop_below : (evalUpgradableNop f₂).Below (evalUpgradableNop f₁) :=
  .lift (checkIf_has_below h _ _)

omit h in
theorem observes_stackTop (i : ℕ) : (stackTop i).Observes :=
  observes_get.bind <| observes_lift _

omit h in
theorem observes_needs (n : ℕ) : (needs n).Observes :=
  observes_get.bind <| observes_lift _

omit h in
theorem observes_numTop (f : ScriptFlags) (i nMaxNumSize : ℕ) : (numTop f i nMaxNumSize).Observes :=
  (observes_stackTop i).bind <| observes_lift _

omit h in
/-- What a flag turns on may be left out if it does not change the state. -/
theorem ite_below {on₁ on₂ : Bool} (ho : on₁ → on₂) {x₁ x₂ : EvalM Unit} (hx : x₂.Below x₁)
    (hob : x₂.Observes) :
    StateT.Below (if on₂ then x₂ else pure ()) (if on₁ then x₁ else pure ()) := by
  split_ifs with h₂ h₁ h₁
  · exact hx
  · exact hob.below_pure
  · exact absurd (ho h₁) h₂
  · exact .refl _

theorem evalCheckLockTimeVerify_below :
    (evalCheckLockTimeVerify f₂ checker).Below (evalCheckLockTimeVerify f₁ checker) :=
  ite_below (h.has _) (.bind_right <| .bind_left (numTop_below h 1 5) _) ((observes_needs 1).bind <|
    (observes_numTop _ 1 5).bind <| (observes_lift _).bind <| observes_lift _)

theorem evalCheckSequenceVerify_below :
    (evalCheckSequenceVerify f₂ checker).Below (evalCheckSequenceVerify f₁ checker) :=
  ite_below (h.has _) (.bind_right <| .bind_left (numTop_below h 1 5) _) ((observes_needs 1).bind <|
    (observes_numTop _ 1 5).bind <| (observes_lift _).bind <| observes_lift _)

theorem evalIf_below (fExec notIf : Bool) :
    (evalIf f₂ sigversion fExec notIf).Below (evalIf f₁ sigversion fExec notIf) := by
  refine Below.bind_left ?_ _
  unfold ifValue
  split
  · refine .bind_right <| .bind_right <| .bind_right fun {vch} =>
      .bind_right <| .bind_left (.lift (checkIf_below ?_ fun _ => .refl _)) _
    simp only [and_eq_true]
    exact And.imp_right (h.has _)
  · exact .refl _

theorem evalPick_below (roll : Bool) : (evalPick f₂ roll).Below (evalPick f₁ roll) :=
  .bind_right <| .bind_left (scriptNum_below h 1) _

theorem evalNumeric1_below (f : CScriptNum → Except ScriptHalt CScriptNum) :
    (evalNumeric1 f₂ f).Below (evalNumeric1 f₁ f) :=
  .bind_right <| .bind_left (scriptNum_below h 1) _

theorem evalNumeric2_below (f : CScriptNum → CScriptNum → CScriptNum) :
    (evalNumeric2 f₂ f).Below (evalNumeric2 f₁ f) :=
  .bind_right <| (scriptNum_below h 2).bind <| .bind_left (scriptNum_below h 1) _

theorem evalCompare_below (p : CScriptNum → CScriptNum → Bool) :
    (evalCompare f₂ p).Below (evalCompare f₁ p) :=
  evalNumeric2_below h _

theorem evalNumEqualVerify_below : (evalNumEqualVerify f₂).Below (evalNumEqualVerify f₁) :=
  .bind_left (evalCompare_below h _) _

theorem evalWithin_below : (evalWithin f₂).Below (evalWithin f₁) :=
  .bind_right <| (scriptNum_below h 3).bind <| (scriptNum_below h 2).bind <|
    .bind_left (scriptNum_below h 1) _

theorem evalChecksigPreTapscript_below (vchSig vchPubKey : Valtype) :
    (evalChecksigPreTapscript crypto f₂ checker sigversion vchSig vchPubKey).Below
      (evalChecksigPreTapscript crypto f₁ checker sigversion vchSig vchPubKey) :=
  .bind_right fun {s} => (Below.lift (dropSignature_below h vchSig s.pbegincodehash)).bind <|
    (Below.lift (checkSignatureEncoding_below h vchSig)).bind <|
    (Below.lift (checkPubKeyEncoding_below h vchPubKey)).bind <|
    .bind_left (.lift (checkIf_has_below h _ _)) _

theorem checkTapscriptSig_below (success : Bool) (sig pubkey : Valtype)
    (execdata : ScriptExecutionData) :
    (checkTapscriptSig f₂ checker sigversion success sig pubkey execdata).Below
      (checkTapscriptSig f₁ checker sigversion success sig pubkey execdata) := by
  unfold checkTapscriptSig
  split
  · exact .refl _
  · exact checkIf_has_below h _ _

variable (sig pubkey : Valtype)

theorem evalChecksigTapscript_below : (evalChecksigTapscript f₂ checker sigversion sig pubkey).Below
      (evalChecksigTapscript f₁ checker sigversion sig pubkey) :=
  .bind_right <| .bind_right <| .bind_right <| .bind_right fun {s} =>
    .bind_left (.lift (checkTapscriptSig_below h _ sig pubkey s.execdata)) _

theorem evalChecksig_below : (evalChecksig crypto f₂ checker sigversion sig pubkey).Below
      (evalChecksig crypto f₁ checker sigversion sig pubkey) := by
  unfold evalChecksig
  split
  · exact evalChecksigTapscript_below h sig pubkey
  · exact evalChecksigPreTapscript_below h sig pubkey

theorem evalCheckSig_below (verify : Bool) :
    (evalCheckSig crypto f₂ checker sigversion verify).Below
      (evalCheckSig crypto f₁ checker sigversion verify) :=
  .bind_right <| .bind_right fun {vchSig} => .bind_right fun {vchPubKey} =>
    .bind_left (evalChecksig_below h vchSig vchPubKey) _

theorem evalCheckSigAdd_below : (evalCheckSigAdd crypto f₂ checker sigversion).Below
      (evalCheckSigAdd crypto f₁ checker sigversion) :=
  .bind_right <| .bind_right <| .bind_right fun {sig} => (scriptNum_below h 2).bind <|
    .bind_right fun {pubkey} => .bind_left (evalChecksig_below h sig pubkey) _

theorem dropSignatures_below (n isig : ℕ) (scriptCode : CScript) :
    (dropSignatures f₂ sigversion n isig scriptCode).Below
      (dropSignatures f₁ sigversion n isig scriptCode) := by
  induction n generalizing isig scriptCode with
  | zero => exact .refl _
  | succ n ih =>
    exact .bind_right fun {v} =>
      (Below.lift (dropSignature_below h v scriptCode)).bind <| ih _ _

theorem multisigLoop_below (scriptCode : CScript) (nKeysCount nSigsCount ikey isig : ℕ) :
    (multisigLoop crypto f₂ checker sigversion scriptCode nKeysCount nSigsCount ikey isig).Below
      (multisigLoop crypto f₁ checker sigversion scriptCode nKeysCount nSigsCount ikey isig) := by
  induction nKeysCount generalizing nSigsCount ikey isig with
  | zero => cases nSigsCount <;> exact .refl _
  | succ nKeysCount ih =>
    cases nSigsCount with
    | zero => exact .refl _
    | succ nSigsCount =>
      exact .bind_right fun {v} => .bind_right fun {vpk} =>
        (Below.lift (checkSignatureEncoding_below h v)).bind <|
          (Below.lift (checkPubKeyEncoding_below h vpk)).bind <| .ite (.refl _) (ih _ _ _)

omit h in
theorem checkTopEmpty_below {on₁ on₂ : Bool} (ho : on₁ → on₂) (e : ScriptError) :
    (checkTopEmpty on₂ e).Below (checkTopEmpty on₁ e) :=
  ite_below ho (.refl _) ((observes_stackTop 1).bind <| observes_lift _)

theorem cleanUp_below (fSuccess : Bool) (i ikey2 : ℕ) :
    (cleanUp f₂ fSuccess i ikey2).Below (cleanUp f₁ fSuccess i ikey2) := by
  induction i generalizing ikey2 with
  | zero => exact .refl _
  | succ i ih =>
    refine (checkTopEmpty_below ?_ _).bind <| .bind_right <| ih _
    simp only [and_eq_true]
    exact And.imp_left (And.imp_right (h.has _))

theorem evalCheckMultiSig_below (verify : Bool) :
    (evalCheckMultiSig crypto f₂ checker sigversion verify).Below
      (evalCheckMultiSig crypto f₁ checker sigversion verify) :=
  .bind_right <| .bind_right <| (scriptNum_below h 1).bind <|
    .bind_right <| .bind_right <| .bind_right <|
      (scriptNum_below h _).bind <| .bind_right <| .bind_right <|
        .bind_right fun {s} => (dropSignatures_below h _ _ s.pbegincodehash).bind fun {scriptCode} =>
          (multisigLoop_below h scriptCode _ _ _ _).bind fun {fSuccess} =>
            (cleanUp_below h fSuccess _ _).bind <| .bind_right <|
              .bind_left (checkTopEmpty_below (h.has _) _) _

theorem evalOpcode_below (fExec : Bool) (op : ScriptOp) :
    (evalOpcode crypto f₂ checker sigversion fExec op).Below
      (evalOpcode crypto f₁ checker sigversion fExec op) := by
  unfold evalOpcode
  cases Opcode.ofByte op.opcode with
  | opCheckLockTimeVerify => exact evalCheckLockTimeVerify_below h
  | opCheckSequenceVerify => exact evalCheckSequenceVerify_below h
  | opNop1 | opNop4 | opNop5 | opNop6 | opNop7 | opNop8 | opNop9 | opNop10 =>
    exact evalUpgradableNop_below h
  | opIf | opNotIf => exact evalIf_below h fExec _
  | opPick | opRoll => exact evalPick_below h _
  | op1Add | op1Sub | opNegate | opAbs | opNot | op0NotEqual => exact evalNumeric1_below h _
  | opAdd | opSub | opMin | opMax => exact evalNumeric2_below h _
  | opBoolAnd | opBoolOr | opNumEqual | opNumNotEqual | opLessThan | opGreaterThan
  | opLessThanOrEqual | opGreaterThanOrEqual => exact evalCompare_below h _
  | opNumEqualVerify => exact evalNumEqualVerify_below h
  | opWithin => exact evalWithin_below h
  | opCheckSig | opCheckSigVerify => exact evalCheckSig_below h _
  | opCheckSigAdd => exact evalCheckSigAdd_below h
  | opCheckMultiSig | opCheckMultiSigVerify => exact evalCheckMultiSig_below h _
  | _ => exact .refl _

theorem execute_below (fExec : Bool) (op : ScriptOp) :
    (execute crypto f₂ checker sigversion fExec op).Below
      (execute crypto f₁ checker sigversion fExec op) :=
  .ite (evalPush_below h op) (.ite (evalOpcode_below h fExec op) (.refl _))

theorem checkOp_below : (checkOp f₂ sigversion op).Below (checkOp f₁ sigversion op) :=
  .bind_right <| .bind_right <| .bind_right <| .lift (checkIf_has_below h _ _)

theorem evalStep_below :
    (evalStep crypto f₂ checker sigversion op).Below (evalStep crypto f₁ checker sigversion op) :=
  .bind_right <| .bind_right <| (checkOp_below h op).bind <| .bind_left (execute_below h _ op) _

theorem evalOps_below (ops : List (Option ScriptOp)) :
    (evalOps crypto f₂ checker sigversion ops).Below (evalOps crypto f₁ checker sigversion ops) := by
  induction ops with
  | nil => exact .refl _
  | cons op ops ih =>
    cases op with
    | none => exact .refl _
    | some op => exact (evalStep_below h op).bind <| ih

omit h in
theorem catchAll_eq_ok {α : Type} {x : Except ScriptHalt α} {a : α} :
    catchAll x = .ok a ↔ x = .ok a := by
  unfold catchAll
  split <;> simp

variable (stack : List Valtype) (script : CScript)

theorem evalScript_below (execdata : ScriptExecutionData) :
    (evalScript crypto f₂ checker sigversion stack script execdata).Below
      (evalScript crypto f₁ checker sigversion stack script execdata) :=
  .bind_right <| .bind_right <| Except.Below.bind
    (fun _ hr => catchAll_eq_ok.mpr (evalOps_below h _ _ _ (catchAll_eq_ok.mp hr)))
    (.refl _)

variable (scriptPubKey : CScript) (execdata : ScriptExecutionData)

theorem runWitnessScript_below :
    (runWitnessScript crypto f₂ checker stack scriptPubKey sigversion execdata).Below
      (runWitnessScript crypto f₁ checker stack scriptPubKey sigversion execdata) :=
  .bind_right <| (evalScript_below h stack scriptPubKey execdata).bind <| .refl _

theorem findOpSuccess_below (ops : List (Option ScriptOp)) :
    (findOpSuccess f₂ ops).Below (findOpSuccess f₁ ops) := by
  induction ops with
  | nil => exact .refl _
  | cons op ops ih =>
    cases op with
    | none => exact .refl _
    | some op =>
      simp only [findOpSuccess]
      split
      · exact (checkIf_has_below h _ _).bind <| .refl _
      · exact ih

theorem executeTapscript_below :
    (executeTapscript crypto f₂ checker stack scriptPubKey execdata).Below
      (executeTapscript crypto f₁ checker stack scriptPubKey execdata) :=
  (findOpSuccess_below h _).bind <| checkIf_below id fun _ =>
    .bind_right <| runWitnessScript_below h stack scriptPubKey execdata

theorem executeWitnessScript_below :
    (executeWitnessScript crypto f₂ checker stack scriptPubKey sigversion execdata).Below
      (executeWitnessScript crypto f₁ checker stack scriptPubKey sigversion execdata) := by
  unfold executeWitnessScript
  split
  · exact executeTapscript_below h stack scriptPubKey execdata
  · exact runWitnessScript_below h stack scriptPubKey execdata

theorem verifyWitnessV0_below (program : Valtype) (stack : List Valtype) :
    (verifyWitnessV0 crypto f₂ checker program stack).Below
      (verifyWitnessV0 crypto f₁ checker program stack) := by
  unfold verifyWitnessV0
  split
  · cases stack with
    | nil => exact .refl _
    | cons scriptBytes stack =>
      exact .bind_right <| executeWitnessScript_below h stack scriptBytes {}
  · split
    · exact .bind_right <| executeWitnessScript_below h stack _ {}
    · exact .refl _

theorem verifyTaprootLeaf_below (witnessLen : ℕ) (control : Valtype) (script : CScript)
    (stack : List Valtype) (execdata : ScriptExecutionData) :
    (verifyTaprootLeaf crypto f₂ checker witnessLen control script stack execdata).Below
      (verifyTaprootLeaf crypto f₁ checker witnessLen control script stack execdata) := by
  unfold verifyTaprootLeaf
  split
  · exact executeWitnessScript_below h stack script _
  · exact checkIf_has_below h _ _

theorem verifyTaprootSpend_below (witnessLen : ℕ) (program : Valtype)
    (execdata : ScriptExecutionData) (stack : List Valtype) :
    (verifyTaprootSpend crypto f₂ checker witnessLen program execdata stack).Below
      (verifyTaprootSpend crypto f₁ checker witnessLen program execdata stack) := by
  match stack with
  | [] => exact .refl _
  | [sig] => exact .refl _
  | control :: script :: stack =>
    exact .bind_right <| .bind_right <| .bind_right <|
      verifyTaprootLeaf_below h witnessLen control script stack _

theorem verifyWitnessProgram_below (witness : List Valtype) (witversion : ℕ) (program : Valtype)
    (isP2sh : Bool) :
    (verifyWitnessProgram crypto f₂ checker witness witversion program isP2sh).Below
      (verifyWitnessProgram crypto f₁ checker witness witversion program isP2sh) := by
  unfold verifyWitnessProgram
  split
  · exact verifyWitnessV0_below h program _
  · split
    · exact checkIf_below (h.has _) fun _ => verifyTaprootSpend_below h _ program _ _
    · exact checkIf_has_below h _ _

theorem evalBase_below :
    (evalBase crypto f₂ checker stack script).Below (evalBase crypto f₁ checker stack script) :=
  (evalScript_below h stack script {}).bind <| .refl _

theorem evalBoth_below (scriptSig scriptPubKey : CScript) :
    (evalBoth crypto f₂ checker scriptSig scriptPubKey).Below
      (evalBoth crypto f₁ checker scriptSig scriptPubKey) :=
  (checkIf_has_below h _ _).bind <| (evalBase_below h _ _).bind <|
    (evalBase_below h _ _).bind <| .refl _

theorem evalRedeemScript_below (scriptSig : CScript) (stackCopy : List Valtype) :
    (evalRedeemScript crypto f₂ checker scriptSig stackCopy).Below
      (evalRedeemScript crypto f₁ checker scriptSig stackCopy) :=
  .bind_right <| .bind_right <| .bind_right <| (evalBase_below h _ _).bind <| .refl _

theorem followWitnessProgram_below (exact : Bool) (malleated : ScriptError) (isP2sh : Bool)
    (witness : List Valtype) (s : VerifyState) :
    (followWitnessProgram crypto f₂ checker script exact malleated isP2sh witness s).Below
      (followWitnessProgram crypto f₁ checker script exact malleated isP2sh witness s) := by
  unfold followWitnessProgram
  split
  · exact .refl _
  · exact .bind_right <| (verifyWitnessProgram_below h _ _ _ _).bind <| .refl _

theorem verifyBareWitness_below (hw : f₁.has .witness) (scriptSig scriptPubKey : CScript)
    (witness : List Valtype) (s : VerifyState) :
    (verifyBareWitness crypto f₂ checker scriptSig scriptPubKey witness s).Below
      (verifyBareWitness crypto f₁ checker scriptSig scriptPubKey witness s) := by
  simp only [verifyBareWitness, hw, h.has _ hw, if_true]
  exact followWitnessProgram_below h _ _ _ _ _ _

theorem verifyScriptHash_below (hw : f₁.has .witness) (hp : f₁.has .p2sh)
    (scriptSig scriptPubKey : CScript) (witness stackCopy : List Valtype) (s : VerifyState) :
    (verifyScriptHash crypto f₂ checker scriptSig scriptPubKey witness stackCopy s).Below
      (verifyScriptHash crypto f₁ checker scriptSig scriptPubKey witness stackCopy s) := by
  simp only [verifyScriptHash, verifyP2shWitness, hw, hp, h.has _ hw, h.has _ hp, if_true]
  split
  · exact (evalRedeemScript_below h _ _).bind <| followWitnessProgram_below h _ _ _ _ _ _
  · exact .refl _

theorem checkCleanStack_below (h₁ : f₁.WellFormed) (s : VerifyState) :
    (checkCleanStack f₂ s).Below (checkCleanStack f₁ s) := by
  refine checkIf_below (h.has _) fun hc => ?_
  have hp := h₁.p2sh_of_cleanStack hc
  have hw := h₁.witness_of_cleanStack hc
  rw [hp, hw, h.has _ hp, h.has _ hw]
  exact .refl _

theorem checkWitnessExpected_below (h₁ : f₁.WellFormed) (witness : List Valtype) (s : VerifyState) :
    (checkWitnessExpected f₂ witness s).Below (checkWitnessExpected f₁ witness s) := by
  refine checkIf_below (h.has _) fun hw => ?_
  have hp := h₁.p2sh_of_witness hw
  rw [hp, h.has _ hp]
  exact .refl _

theorem verifyScriptHash_of_not_witness (hw : ¬ f₁.has .witness)
    {scriptSig scriptPubKey : CScript} {witness stackCopy : List Valtype} {s₂ r : VerifyState}
    (hr : verifyScriptHash crypto f₂ checker scriptSig scriptPubKey witness stackCopy s₂ = .ok r)
    (s : VerifyState) :
    ∃ r', verifyScriptHash crypto f₁ checker scriptSig scriptPubKey witness stackCopy s = .ok r' := by
  unfold verifyScriptHash at hr ⊢
  split
  · rename_i hp
    rw [and_eq_true] at hp
    rw [if_pos (by rw [h.has _ hp.1, hp.2]; rfl)] at hr
    obtain ⟨⟨pubKey2, stack⟩, hre, -⟩ := bind_eq_ok.mp hr
    refine ⟨{ s with stack }, bind_eq_ok.mpr ⟨_, evalRedeemScript_below h _ _ _ hre, ?_⟩⟩
    simp only [verifyP2shWitness, hw, false_eq_true, if_false]
  · exact ⟨s, rfl⟩

end

theorem verifyScript_eq_ok {flags : ScriptFlags} {scriptSig scriptPubKey : CScript}
    {witness : Option (List Valtype)} :
    verifyScript crypto flags checker scriptSig scriptPubKey witness = .ok () ↔
      ∃ evals bare final, evalBoth crypto flags checker scriptSig scriptPubKey = .ok evals ∧
        verifyBareWitness crypto flags checker scriptSig scriptPubKey (witness.getD [])
          ⟨evals.2, false⟩ = .ok bare ∧
        verifyScriptHash crypto flags checker scriptSig scriptPubKey (witness.getD []) evals.1
          bare = .ok final ∧
        checkCleanStack flags final = .ok () ∧
        checkWitnessExpected flags (witness.getD []) final = .ok () := by
  constructor
  · intro h
    obtain ⟨evals, hev, h⟩ := bind_eq_ok.mp h
    obtain ⟨bare, hb, h⟩ := bind_eq_ok.mp h
    obtain ⟨final, hf, h⟩ := bind_eq_ok.mp h
    obtain ⟨⟨⟩, hc, he⟩ := bind_eq_ok.mp h
    exact ⟨evals, bare, final, hev, hb, hf, hc, he⟩
  · rintro ⟨evals, bare, final, hev, hb, hf, hc, he⟩
    exact bind_eq_ok.mpr ⟨evals, hev, bind_eq_ok.mpr ⟨bare, hb,
      bind_eq_ok.mpr ⟨final, hf, bind_eq_ok.mpr ⟨(), hc, he⟩⟩⟩⟩

theorem verifyScript_below (h : f₁.IsSubset f₂) (h₁ : f₁.WellFormed)
    (scriptSig scriptPubKey : CScript) (witness : Option (List Valtype)) :
    (verifyScript crypto f₂ checker scriptSig scriptPubKey witness).Below
      (verifyScript crypto f₁ checker scriptSig scriptPubKey witness) := by
  rintro ⟨⟩ ha
  obtain ⟨e, bare, final, he, hb, hf, hcl, hex⟩ :=
    verifyScript_eq_ok.mp ha
  refine verifyScript_eq_ok.mpr ?_
  by_cases hw : f₁.has .witness
  · exact ⟨e, bare, final, evalBoth_below h _ _ _ he, verifyBareWitness_below h hw _ _ _ _ _ hb,
      verifyScriptHash_below h hw (h₁.p2sh_of_witness hw) _ _ _ _ _ _ hf,
      checkCleanStack_below h h₁ _ _ hcl, checkWitnessExpected_below h h₁ _ _ _ hex⟩
  · -- what becomes of the witness and of the stack is not looked at
    have hc : ¬ f₁.has .cleanStack := fun hc => hw (h₁.witness_of_cleanStack hc)
    obtain ⟨r, hr⟩ := verifyScriptHash_of_not_witness h hw hf ⟨e.2, false⟩
    exact ⟨e, ⟨e.2, false⟩, r, evalBoth_below h _ _ _ he, if_neg hw, hr,
      if_neg hc, if_neg hw⟩

/-- Flags are soft forks: what `VerifyScript` accepts it accepts with fewer flags, for all scripts
and witnesses and every checker. -/
theorem verifyScript_of_isSubset (crypto : Crypto) (checker : SignatureChecker)
    (f₁ f₂ : ScriptFlags) (h : f₁.IsSubset f₂) (h₁ : f₁.WellFormed)
    (scriptSig scriptPubKey : CScript) (witness : Option (List Valtype))
    (haccept : verifyScript crypto f₂ checker scriptSig scriptPubKey witness = .ok ()) :
    verifyScript crypto f₁ checker scriptSig scriptPubKey witness = .ok () :=
  verifyScript_below h h₁ scriptSig scriptPubKey witness () haccept

def plainCrypto : Crypto where
  ripemd160 := id
  sha1 := id
  sha256 := id
  checkLowS _ := true
  xonlyPubkeyParse _ := true
  xonlyPubkeyTweakAddCheck _ _ _ _ := true

def keyChecker : SignatureChecker where
  checkSig vchSig vchPubKey _ _ := vchSig = vchPubKey
  checkSchnorrSignature sig pubkey _ _ := if sig = pubkey then .ok () else .error .schnorrSig
  checkLockTime _ := true
  checkSequence _ := true

def spentKey : Valtype := List.replicate 32 2

def tapscriptWitness : List Valtype :=
  [spentKey, CScript.push [] spentKey ++ [opCheckSigByte], taprootLeafTapscript :: spentKey]

/-- The spend is accepted under all flags, so also where taproot is not known. -/
theorem verifyScript_of_isSubset_tapscript :
    verifyScript plainCrypto 0x1fffff keyChecker [] (op1 :: CScript.push [] spentKey)
        (some tapscriptWitness) = .ok () ∧
      verifyScript plainCrypto 0x801 keyChecker [] (op1 :: CScript.push [] spentKey)
        (some tapscriptWitness) = .ok () :=
  ⟨rfl, verifyScript_of_isSubset plainCrypto keyChecker 0x801 0x1fffff (by decide)
    ⟨by decide, by decide, by decide⟩ [] _ _ rfl⟩

end Palladium
