import Palladium.Script.CheckerCalls
import Palladium.Script.MultisigSemantics

/-! # Signature operations

`GetSigOpCount` counts at least the `CheckSig` calls a script makes, without running it.
-/

namespace Palladium
open CScript EvalM Except List Logged StateT

/-- The loop of `GetSigOpCount(scriptSig)`: the data of the last push, unless zero is returned. -/
def lastPush : (vData : Valtype) → List (Option ScriptOp) → Option Valtype
  | vData, [] => some vData
  | _, none :: _ => none
  | _, some op :: ops => if op16 < op.opcode then none else lastPush op.vch ops

def CScript.getSigOpCountFor (scriptPubKey scriptSig : CScript) : ℕ :=
  if !scriptPubKey.isPayToScriptHash then scriptPubKey.getSigOpCount true
  else
    match lastPush [] scriptSig.ops with
    | none => 0
    | some subscript => getSigOpCount subscript true

def witnessSigOps (witversion : ℕ) (witprogram : Valtype) (witness : List Valtype) : ℕ :=
  if witversion = 0 then
    if witprogram.length = 20 then 1
    else if witprogram.length = 32 then
      match witness.getLast? with
      | some subscript => getSigOpCount subscript true
      | none => 0
    else 0
  else 0

/-- The loop of `CountWitnessSigOps` over a script that only pushes. -/
def lastData (ops : List (Option ScriptOp)) : Valtype :=
  ops.foldl (fun data o => (o.map ScriptOp.vch).getD data) []

def countWitnessSigOps (flags : ScriptFlags) (scriptSig scriptPubKey : CScript)
    (witness : List Valtype) : Except ScriptHalt ℕ :=
  if !flags.has .witness then .ok 0
  else do
    assert (flags.has .p2sh)
    match scriptPubKey.isWitnessProgram with
    | some (witversion, program) => return witnessSigOps witversion program witness
    | none =>
      if scriptPubKey.isPayToScriptHash && scriptSig.isPushOnly then
        match isWitnessProgram (lastData scriptSig.ops) with
        | some (witversion, program) => return witnessSigOps witversion program witness
        | none => return 0
      else return 0

section Calls
open CheckerCall
variable {crypto : Crypto} {flags : ScriptFlags} {checker : SignatureChecker}
  {sigversion : SigVersion} {s t : EvalState} {u : Unit} {op : ScriptOp}

theorem ofByte_byte (b : UInt8) : (Opcode.ofByte b = .opCheckSig → b = opCheckSigByte) ∧
    (Opcode.ofByte b = .opCheckSigVerify → b = opCheckSigVerifyByte) ∧
    (Opcode.ofByte b = .opCheckMultiSig → b = opCheckMultisigByte) ∧
    (Opcode.ofByte b = .opCheckMultiSigVerify → b = opCheckMultisigVerifyByte) := by
  have ha : ∀ n < 256,
      (Opcode.ofByte (UInt8.ofNat n) = .opCheckSig → UInt8.ofNat n = opCheckSigByte) ∧
      (Opcode.ofByte (UInt8.ofNat n) = .opCheckSigVerify → UInt8.ofNat n = opCheckSigVerifyByte) ∧
      (Opcode.ofByte (UInt8.ofNat n) = .opCheckMultiSig → UInt8.ofNat n = opCheckMultisigByte) ∧
      (Opcode.ofByte (UInt8.ofNat n) = .opCheckMultiSigVerify →
        UInt8.ofNat n = opCheckMultisigVerifyByte) := by decide +kernel
  simpa using ha b.toNat b.toNat_lt

def Pushed (lastOpcode : UInt8) (s : EvalState) : Prop :=
  op1 ≤ lastOpcode → lastOpcode ≤ op16 → s.vfExec.allTrue = true →
    s.stack[0]? = some [UInt8.ofNat (lastOpcode.toNat - (op1.toNat - 1))]

variable {lastOpcode : UInt8}

theorem checkSigs_logChecksig (sig pubkey : Valtype) :
    AtMost isCheckSig (if sigversion = .tapscript then 0 else 1)
      (logChecksig crypto flags checker sigversion sig pubkey) s := by
  unfold logChecksig
  split
  · refine .quiet_bind fun _ _ _ => .quiet_bind fun _ _ _ => .quiet_bind fun _ _ _ =>
      .quiet_bind fun _ _ _ => .bind (n := 0) ?_ fun _ _ _ => atMost_pure _
    unfold logTapscriptSig
    split
    · exact (atMost_call_of_not rfl _).bind_quiet
    · exact atMost_quiet _
  · exact .quiet_bind fun code _ _ => .bind (n := 0) (atMost_call _ _) fun _ _ _ =>
      .quiet_bind fun _ _ _ => atMost_pure _

theorem checkSigs_logCheckSigAdd (hv : sigversion ≠ .taproot) :
    AtMost isCheckSig 0 (logCheckSigAdd crypto flags checker sigversion) s := by
  refine .quiet_bind fun _ _ hl => ?_
  have ht : sigversion = .tapscript := by
    have hc := check_eq_ok.mp (ends_lift.mp hl).1
    cases sigversion
    case tapscript => rfl
    case taproot => exact absurd rfl hv
    all_goals cases hc
  refine .quiet_bind fun _ _ _ => .quiet_bind fun _ _ _ => .quiet_bind fun _ _ _ =>
    .quiet_bind fun _ _ _ => .bind_quiet ?_
  exact (checkSigs_logChecksig _ _).mono (by rw [if_pos ht])

theorem checkSigs_logMultisigLoop (scriptCode : CScript) (nKeysCount nSigsCount ikey isig : ℕ) :
    AtMost isCheckSig nKeysCount (logMultisigLoop crypto flags checker sigversion scriptCode
      nKeysCount nSigsCount ikey isig) s := by
  induction nKeysCount generalizing nSigsCount ikey isig s with
  | zero => cases nSigsCount <;> exact atMost_pure _
  | succ nKeysCount ih =>
    cases nSigsCount with
    | zero => exact atMost_pure _
    | succ nSigsCount =>
      refine .mono (m := 1 + nKeysCount) ?_ (Nat.add_comm ..).le
      refine .quiet_bind fun _ _ _ => .quiet_bind fun _ _ _ => .quiet_bind fun _ _ _ =>
        .quiet_bind fun _ _ _ => .bind (atMost_call _ _) fun fOk _ _ => ?_
      dsimp only
      generalize (if fOk = true then nSigsCount else nSigsCount + 1) = left
      split
      · exact atMost_pure _
      · exact ih ..

theorem nKeysCount_le {args : MultisigArgs} (h : Ends (multisigArgs flags sigversion) s args t)
    (hs : Pushed lastOpcode s) (he : s.vfExec.allTrue) :
    args.nKeysCount ≤ if op1 ≤ lastOpcode && lastOpcode ≤ op16 then
      lastOpcode.toNat - (op1.toNat - 1) else maxPubkeysPerMultisig := by
  obtain ⟨-, hm, ⟨vch, n, hv, hn, hc⟩, -⟩ := multisigArgs_spec h
  split
  · next hl =>
    simp only [Bool.and_eq_true, decide_eq_true_eq] at hl
    obtain rfl := Option.some.inj (hv.symm.trans (hs hl.1 hl.2 he))
    have hf : 0x51 ≤ lastOpcode.toNat := UInt8.le_iff_toNat_le.mp hl.1
    have hle : lastOpcode.toNat ≤ 0x60 := UInt8.le_iff_toNat_le.mp hl.2
    have hop1 : op1.toNat = 0x51 := rfl
    rw [ofVch_small (by omega) (by omega)] at hn
    obtain rfl := Except.ok.inj hn
    rw [hc, getint_small (by omega), Int.toNat_natCast]
  · exact hm

theorem checkSigs_logCheckMultiSig (hs : Pushed lastOpcode s) (he : s.vfExec.allTrue)
    (verify : Bool) :
    AtMost isCheckSig (if op1 ≤ lastOpcode && lastOpcode ≤ op16 then
      lastOpcode.toNat - (op1.toNat - 1) else maxPubkeysPerMultisig)
      (logCheckMultiSig crypto flags checker sigversion verify) s :=
  .quiet_bind fun _ _ ha =>
    (checkSigs_logMultisigLoop ..).bind_quiet.mono (nKeysCount_le ha hs he)

theorem checkSigs_logOpcode {fExec : Bool} (hsv : sigversion ≠ .taproot) (hs : Pushed lastOpcode s)
    (he : fExec = true ∨ op.opcode ≤ opEndIfByte) (hf : fExec = true → s.vfExec.allTrue = true) :
    AtMost isCheckSig (opcodeSigOps true lastOpcode op.opcode)
      (logOpcode crypto flags checker sigversion fExec op) s := by
  obtain ⟨hsi, hv, hm, hmv⟩ := ofByte_byte op.opcode
  have hx : op.opcode = opCheckMultisigByte ∨ op.opcode = opCheckMultisigVerifyByte →
      s.vfExec.allTrue = true := by
    rintro (h | h) <;> rw [h] at he <;> exact hf (he.resolve_right (by decide))
  have hone : ∀ verify, AtMost isCheckSig 1 (logCheckSig crypto flags checker sigversion verify) s :=
    fun _ => .quiet_bind fun _ _ _ => .quiet_bind fun _ _ _ => .quiet_bind fun _ _ _ =>
      ((checkSigs_logChecksig _ _).mono (by split <;> omega)).bind_quiet
  unfold logOpcode
  split
  · next ho => simpa [opcodeSigOps, hsi ho] using hone false
  · next ho => simpa [opcodeSigOps, hv ho] using hone true
  · exact (checkSigs_logCheckSigAdd hsv).mono (Nat.zero_le _)
  · next ho =>
    have h := hm ho
    rw [h]
    exact checkSigs_logCheckMultiSig hs (hx (.inl h)) _
  · next ho =>
    have h := hmv ho
    rw [h]
    exact checkSigs_logCheckMultiSig hs (hx (.inr h)) _
  · exact atMost_quiet _

theorem checkSigs_logStep (hsv : sigversion ≠ .taproot) (hs : Pushed lastOpcode s) :
    AtMost isCheckSig (opcodeSigOps true lastOpcode op.opcode)
      (logStep crypto flags checker sigversion op) s := by
  refine .quiet_bind fun _ w hw => .quiet_bind fun w' v hv => .quiet_bind fun _ t hc =>
    .bind_quiet ?_
  obtain rfl := ends_modify.mp hw
  obtain ⟨rfl, rfl⟩ := ends_get.mp hv
  have hsa := (unchanged_checkOp op).eq hc
  simp only [Prod.mk.injEq] at hsa
  have ht : Pushed lastOpcode t := by
    intro h₁ h₂ he
    rw [hsa.1]
    exact hs h₁ h₂ (hsa.2 ▸ he)
  unfold logExecute
  split
  · exact atMost_quiet _
  · split
    · next ho =>
      simp only [Bool.or_eq_true, Bool.and_eq_true, decide_eq_true_eq] at ho
      exact checkSigs_logOpcode hsv ht (ho.imp_right And.right) fun he => by rwa [hsa.2]
    · exact atMost_pure _

theorem vfExec_of_evalStep (hl : op.opcode ≤ op16) (he : s.vfExec.allTrue = false)
    (h : Ends (evalStep crypto flags checker sigversion op) s u t) : t.vfExec = s.vfExec := by
  have hn : ¬ opIfByte ≤ op.opcode := fun hi => absurd (UInt8.le_trans hi hl) (by decide)
  obtain ⟨⟨w, hc, hen⟩, -⟩ := ends_evalStep_iff.mp h
  obtain ⟨-, rfl⟩ := (ends_checkOp_of_le hl).mp hc
  rw [he, execute, if_neg (by simp), if_neg (by simp [hn])] at hen
  rw [← (ends_pure.mp hen).2]

theorem pushed_of_evalStep (h : Ends (evalStep crypto flags checker sigversion op) s u t) :
    Pushed op.opcode t := by
  intro hf hl he
  cases ha : s.vfExec.allTrue with
  | true =>
    obtain ⟨hv, -⟩ := @pushed_of_isSmallInteger op (by simp [isSmallInteger, hf, hl])
    obtain ⟨-, -, rfl⟩ := (ends_evalStep_pushed hv ha).mp h
    rfl
  | false =>
    rw [vfExec_of_evalStep hl ha h, ha] at he
    cases he

theorem checkSigs_logOps {ops : List (Option ScriptOp)} (hsv : sigversion ≠ .taproot)
    (hs : Pushed lastOpcode s) :
    AtMost isCheckSig (sigOpCountFrom true lastOpcode ops)
      (logOps crypto flags checker sigversion ops) s := by
  induction ops generalizing s lastOpcode with
  | nil => exact atMost_pure _
  | cons o ops ih =>
    cases o with
    | none => exact atMost_quiet _
    | some op =>
      refine (checkSigs_logStep hsv hs).bind fun _ t ht => ih ?_
      rw [erase_logStep] at ht
      exact pushed_of_evalStep ht

theorem checkSigs_logScript (stack : List Valtype) (script : CScript)
    (execdata : ScriptExecutionData) :
    (logScript crypto flags checker sigversion stack script execdata).1.countP isCheckSig ≤
      script.getSigOpCount true := by
  unfold logScript
  dsimp only
  split
  · exact Nat.zero_le _
  · next hn =>
    obtain ⟨_, ha, -⟩ := bind_eq_ok.mp hn
    exact checkSigs_logOps (of_decide_eq_true (assert_eq_ok.mp ha)) fun _ h => absurd h (by decide)

end Calls

section Counted
variable {crypto : Crypto} {flags : ScriptFlags} {checker : SignatureChecker}
  {scriptSig scriptPubKey : CScript} {witness stack : List Valtype}

theorem lastPush_eq_some {ops : List (Option ScriptOp)} (vData : Valtype)
    (ho : ∀ o ∈ ops, ∃ op, o = some op ∧ op.opcode ≤ op16) :
    lastPush vData ops = some (ops.foldl (fun data o => (o.map ScriptOp.vch).getD data) vData) := by
  induction ops generalizing vData with
  | nil => rfl
  | cons o ops ih =>
    rw [forall_mem_cons] at ho
    obtain ⟨⟨op, rfl, hl⟩, ho⟩ := ho
    rw [lastPush, if_neg (UInt8.not_lt.mpr hl), ih op.vch ho]
    rfl

variable {r : List Valtype} {redeemScript : CScript}

theorem not_evalBase_number {n : ℕ} (hp : 0x4e < n) (hl : n < 0x61) (hn : n ≠ 0x50) :
    evalBase crypto flags checker stack (CScriptNum.serialize ((n : ℤ) - 0x50)) ≠ .ok r := by
  have ha : ∀ n : ℕ, n < 0x61 → 0x4e < n → n ≠ 0x50 →
      ops (CScriptNum.serialize ((n : ℤ) - 0x50)) = [none] ∨
        ops (CScriptNum.serialize ((n : ℤ) - 0x50)) = [some ⟨0x81, [], []⟩] := by
    decide +kernel
  intro h
  obtain ⟨-, t, he, -⟩ := evalBase_eq_ok.mp h
  rcases ha n hl hp hn with ho | ho
  · rw [ho] at he
    exact absurd he ends_throw
  · rw [ho] at he
    obtain ⟨w, hs, -⟩ := ends_evalOps_cons.mp he
    obtain ⟨⟨_, hc, -⟩, -⟩ := ends_evalStep_iff.mp hs
    have hd : (Opcode.ofByte 0x81).isDisabled := by decide
    simp [checkOp, hd] at hc

theorem vch_eq_of_evalBase {op : ScriptOp} (hp : op.pushed = some redeemScript)
    (h : evalBase crypto flags checker stack redeemScript = .ok r) : op.vch = redeemScript := by
  rcases ofByte_range op.opcode with ⟨-, ho⟩ | ⟨hl, hle, ho | ho⟩ | ⟨-, hn, hn'⟩
  · rw [ScriptOp.pushed, ho] at hp
    exact Option.some.inj hp
  · simp [ScriptOp.pushed, ho] at hp
  · rw [ScriptOp.pushed, ho] at hp
    obtain rfl := Option.some.inj hp
    refine absurd h (not_evalBase_number (UInt8.lt_iff_toNat_lt.mp hl)
      (Nat.lt_succ_of_le (UInt8.le_iff_toNat_le.mp hle)) fun he => ?_)
    rw [show op.opcode = 0x50 from UInt8.toNat_inj.mp he] at ho
    cases ho
  · simp [ScriptOp.pushed] at hp

theorem lastData_eq (hon : scriptSig.isPushOnly)
    (hsi : evalBase crypto flags checker [] scriptSig = .ok (redeemScript :: stack))
    (hr : evalBase crypto flags checker stack redeemScript = .ok r) :
    lastData scriptSig.ops = redeemScript := by
  obtain ⟨-, t, he, -⟩ := evalBase_eq_ok.mp hsi
  obtain ⟨ops, vs, ho, ha⟩ := exists_pushesAll rfl (isPushOnly_iff.mp hon) he
  obtain ⟨-, -, hs⟩ := (evalBase_pushes ho ha).mp hsi
  rw [append_nil] at hs
  have hre := rel_reverse ha
  rw [hs] at hre
  obtain ⟨op, ops', hp, -, hl⟩ := forall₂_cons_right_iff.mp hre
  rw [reverse_eq_cons_iff] at hl
  rw [lastData, ho, hl, map_append, List.foldl_append]
  exact vch_eq_of_evalBase hp hr

theorem isWitnessProgram_of_isPayToScriptHash (h : scriptPubKey.isPayToScriptHash) :
    scriptPubKey.isWitnessProgram = none := by
  simp only [isPayToScriptHash, Bool.and_eq_true, decide_eq_true_eq] at h
  have hf : (opHash160Byte ≠ 0 && (opHash160Byte < op1 || op16 < opHash160Byte)) = true := by
    decide
  rw [isWitnessProgram, h.1.1.2, if_pos hf, ite_self]

theorem exists_redeemScript (hp2sh : flags.has .p2sh)
    (ha : verifyScript crypto flags checker scriptSig scriptPubKey (some witness) = .ok ())
    (hh : scriptPubKey.isPayToScriptHash) :
    ∃ redeemScript stack r s t, evalBase crypto flags checker [] scriptSig =
        .ok (redeemScript :: stack) ∧ scriptSig.isPushOnly ∧
      evalBase crypto flags checker stack redeemScript = .ok r ∧
      verifyP2shWitness crypto flags checker scriptSig redeemScript witness s = .ok t := by
  obtain ⟨⟨sc, bare⟩, s, t, hb, -, hv, -⟩ := verifyScript_eq_ok.mp ha
  obtain ⟨_, -, h₁⟩ := bind_eq_ok.mp hb
  obtain ⟨copy, hc, h₂⟩ := bind_eq_ok.mp h₁
  obtain ⟨_, -, h₃⟩ := bind_eq_ok.mp h₂
  obtain ⟨_, -, h₄⟩ := bind_eq_ok.mp h₃
  cases h₄
  rw [verifyScriptHash, if_pos (by rw [hp2sh, hh]; rfl)] at hv
  obtain ⟨⟨redeemScript, r⟩, hr, hw⟩ := bind_eq_ok.mp hv
  obtain ⟨_, ho, h₅⟩ := bind_eq_ok.mp hr
  obtain ⟨_, -, h₆⟩ := bind_eq_ok.mp h₅
  obtain ⟨stack, hp, h₇⟩ := bind_eq_ok.mp h₆
  obtain ⟨r', he, h₈⟩ := bind_eq_ok.mp h₇
  obtain ⟨_, -, h₉⟩ := bind_eq_ok.mp h₈
  cases h₉
  cases sc with
  | nil => cases hp
  | cons top sc =>
    cases hp
    exact ⟨_, _, _, _, _, hc, check_eq_ok.mp ho, he, hw⟩

theorem exists_witnessScript {script : CScript} {program : Valtype} {exact isP2sh : Bool}
    {malleated : ScriptError} {s t : VerifyState}
    (hp : script.isWitnessProgram = some (0, program)) (hle : program.length = 32)
    (h : followWitnessProgram crypto flags checker script exact malleated isP2sh witness s =
      .ok t) :
    ∃ witnessScript stack, witness.reverse = witnessScript :: stack ∧
      runWitnessScript crypto flags checker stack witnessScript .witnessV0 {} = .ok () ∧
      witnessSigOps 0 program witness = getSigOpCount witnessScript true := by
  rw [followWitnessProgram, hp] at h
  obtain ⟨_, -, h₁⟩ := bind_eq_ok.mp h
  obtain ⟨_, hv, -⟩ := bind_eq_ok.mp h₁
  rw [verifyWitnessProgram, if_pos rfl] at hv
  cases hr : witness.reverse with
  | nil =>
    simp only [hr, verifyWitnessV0, hle, if_true] at hv
    cases hv
  | cons witnessScript stack =>
    simp only [hr, verifyWitnessV0, hle, if_true] at hv
    obtain ⟨_, -, hru⟩ := bind_eq_ok.mp hv
    have hl : witness.getLast? = some witnessScript := by
      rw [← List.head?_reverse, hr]
      rfl
    refine ⟨witnessScript, stack, rfl, hru, ?_⟩
    rw [witnessSigOps, if_pos rfl, if_neg (by omega), if_pos hle, hl]

end Counted

/-- For an input that is accepted, the scripts that are counted for hashes are those that are run,
and `EvalScript` makes no more calls for a script than it counts for. -/
theorem sigOps_bound (crypto : Crypto) (flags : ScriptFlags) (checker : SignatureChecker)
    {scriptSig scriptPubKey : CScript} {witness : List Valtype} (hp2sh : flags.has .p2sh)
    (hwitness : flags.has .witness)
    (haccept : verifyScript crypto flags checker scriptSig scriptPubKey (some witness) = .ok ()) :
    (scriptPubKey.isPayToScriptHash = true → ∃ redeemScript stack,
      evalBase crypto flags checker [] scriptSig = .ok (redeemScript :: stack) ∧
      (∃ r, evalBase crypto flags checker stack redeemScript = .ok r) ∧
      lastPush [] scriptSig.ops = some redeemScript ∧
      scriptPubKey.getSigOpCountFor scriptSig = getSigOpCount redeemScript true) ∧
    (∀ script program, isWitnessProgram script = some (0, program) → program.length = 32 →
      scriptPubKey = script ∨
        scriptPubKey.isPayToScriptHash = true ∧ lastPush [] scriptSig.ops = some script →
      ∃ witnessScript stack, witness.reverse = witnessScript :: stack ∧
        runWitnessScript crypto flags checker stack witnessScript .witnessV0 {} = .ok () ∧
        countWitnessSigOps flags scriptSig scriptPubKey witness =
          .ok (getSigOpCount witnessScript true)) ∧
    ∀ sigversion stack script execdata,
      (logScript crypto flags checker sigversion stack script execdata).2 =
        evalScript crypto flags checker sigversion stack script execdata ∧
      (logScript crypto flags checker sigversion stack script execdata).1.countP
        CheckerCall.isCheckSig ≤ getSigOpCount script true := by
  refine ⟨fun hh => ?_, ?_, fun _ _ _ _ => ⟨erase_logScript .., checkSigs_logScript ..⟩⟩
  · obtain ⟨redeemScript, stack, r, s, t, hs, ho, hr, -⟩ :=
      exists_redeemScript hp2sh haccept hh
    have hl : lastPush [] scriptSig.ops = some redeemScript := by
      rw [lastPush_eq_some [] (isPushOnly_iff.mp ho)]
      exact congrArg some (lastData_eq ho hs hr)
    refine ⟨redeemScript, stack, hs, ⟨r, hr⟩, hl, ?_⟩
    rw [getSigOpCountFor, hh, Bool.not_true, if_neg (by simp), hl]
  · rintro script program hp hle (rfl | ⟨hh, hl⟩)
    · obtain ⟨_, s, t, -, hb, -⟩ := verifyScript_eq_ok.mp haccept
      rw [Option.getD_some, verifyBareWitness, if_pos hwitness] at hb
      obtain ⟨witnessScript, stack, hre, hru, hc⟩ := exists_witnessScript hp hle hb
      refine ⟨witnessScript, stack, hre, hru, ?_⟩
      simp only [countWitnessSigOps, hwitness, hp2sh, hp, hc, Bool.not_true,
        Bool.false_eq_true, if_false]
      rfl
    · obtain ⟨redeemScript, _, r, s, t, hs, ho, hr, hp2shWitness⟩ :=
        exists_redeemScript hp2sh haccept hh
      have hd := lastData_eq ho hs hr
      obtain rfl : redeemScript = script := by
        rw [lastPush_eq_some [] (isPushOnly_iff.mp ho)] at hl
        exact hd.symm.trans (Option.some.inj hl)
      rw [verifyP2shWitness, if_pos hwitness] at hp2shWitness
      obtain ⟨witnessScript, stack, hre, hru, hc⟩ :=
        exists_witnessScript hp hle hp2shWitness
      refine ⟨witnessScript, stack, hre, hru, ?_⟩
      simp only [countWitnessSigOps, hwitness, hp2sh, hh, ho, hd, hp, hc,
        isWitnessProgram_of_isPayToScriptHash hh, Bool.not_true, Bool.false_eq_true, if_false,
        Bool.and_self, if_true]
      rfl

def twoKeys : CScript :=
  push (push [op1] (List.replicate 7 3)) (List.replicate 8 2) ++
    [op1 + 1, opCheckMultisigByte]

theorem sigOps_bound_twoKeys : getSigOpCountFor (push [opHash160Byte] twoKeys ++ [opEqualByte])
        (push (push [0] (List.replicate 7 3)) twoKeys) = 2 ∧
      ∃ log, (logScript plainCrypto 0x801 keyChecker .base [List.replicate 7 3, []] twoKeys {}).1 =
        log ∧ log.length = 2 ∧ log.countP CheckerCall.isCheckSig ≤ 2 := by
  have ha : verifyScript plainCrypto 0x801 keyChecker
      (push (push [0] (List.replicate 7 3)) twoKeys)
      (push [opHash160Byte] twoKeys ++ [opEqualByte]) (some []) = .ok () := by
    decide +kernel
  obtain ⟨hr, -, hc⟩ := sigOps_bound plainCrypto 0x801 keyChecker (by decide) (by decide)
    ha
  obtain ⟨redeemScript, _, -, -, hl, hco⟩ := hr (by decide +kernel)
  obtain rfl : twoKeys = redeemScript := by
    have ht : lastPush [] (ops
      (push (push [0] (List.replicate 7 3)) twoKeys)) = some twoKeys := by
      decide +kernel
    exact Option.some.inj (ht.symm.trans hl)
  exact ⟨hco.trans (by decide +kernel), _, rfl, by decide +kernel, (hc .base _ twoKeys {}).2⟩

end Palladium
