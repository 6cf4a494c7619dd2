import Palladium.Script.CheckerCalls

/-! # The signature operations of a tapscript

A tapscript may check as many signatures as its witness has weight for.
-/

namespace Palladium
open CheckerCall EvalM Except List Logged StateT

def EvalState.weightLeft (s : EvalState) : ℤ := s.execdata.validationWeightLeft

def Opcode.isSigop : Opcode → Bool
  | .opCheckSig | .opCheckSigVerify | .opCheckSigAdd => true
  | _ => false

section Unchanged
open EvalState
variable {crypto : Crypto} {flags : ScriptFlags} {checker : SignatureChecker}

instance (g : EvalState → List Valtype) : Unchanged weightLeft
    (modify fun s : EvalState => { s with stack := g s } : EvalM Unit) :=
  unchanged_modify fun _ => rfl

instance (g : EvalState → List Valtype) : Unchanged weightLeft
    (modify fun s : EvalState => { s with altstack := g s } : EvalM Unit) :=
  unchanged_modify fun _ => rfl

instance (g : EvalState → ConditionStack) : Unchanged weightLeft
    (modify fun s : EvalState => { s with vfExec := g s } : EvalM Unit) :=
  unchanged_modify fun _ => rfl

instance (n : ℕ) : Unchanged weightLeft (needs n) := by
  unfold needs
  infer_instance

instance (i : ℕ) : Unchanged weightLeft (stackTop i) := by
  unfold stackTop
  infer_instance

instance (i k : ℕ) : Unchanged weightLeft (numTop flags i k) := by
  unfold numTop
  infer_instance

instance : Unchanged weightLeft popStack := by
  unfold popStack
  infer_instance

instance (vch : Valtype) : Unchanged weightLeft (push vch) := unchanged_modify fun _ => rfl

instance (bn : CScriptNum) : Unchanged weightLeft (pushNum bn) := unchanged_modify fun _ => rfl

instance (f : Bool) : Unchanged weightLeft (pushBool f) := unchanged_modify fun _ => rfl

instance (i : ℕ) : Unchanged weightLeft (eraseTop i) := unchanged_modify fun _ => rfl

instance (i j : ℕ) : Unchanged weightLeft (swapTop i j) := by
  unfold swapTop
  infer_instance

instance (verify fSuccess : Bool) (e : ScriptError) :
    Unchanged weightLeft (verifyResult verify fSuccess e) := by
  unfold verifyResult
  infer_instance

instance (op : ScriptOp) : Unchanged weightLeft (evalPush flags op) := by
  unfold evalPush
  infer_instance

theorem unchanged_set {x : EvalState → Except ScriptHalt Unit}
    {y : EvalState → Except ScriptHalt ConditionStack} :
    Unchanged weightLeft (do
      let s ← get
      x s
      let vfExec ← y s
      set { s with vfExec } : EvalM Unit) := by
  constructor
  intro s u t h
  simp only [ends_bind, ends_get, ends_lift, ends_set] at h
  obtain ⟨_, _, ⟨rfl, -⟩, _, _, -, _, _, -, rfl⟩ := h
  rfl

theorem unchanged_evalOpcode (fExec : Bool) {op : ScriptOp}
    (ho : (Opcode.ofByte op.opcode).isSigop = false) :
    Unchanged weightLeft (evalOpcode crypto flags checker .tapscript fExec op) := by
  unfold evalOpcode
  cases h : Opcode.ofByte op.opcode <;> rw [h] at ho
  case opCheckSig | opCheckSigVerify | opCheckSigAdd => cases ho
  case opCheckMultiSig | opCheckMultiSigVerify =>
    constructor
    intro s u t he
    obtain ⟨_, hc, -⟩ := ends_bind_punit.mp he
    simp at hc
  case opElse | opEndIf => exact unchanged_set
  case opCodeSeparator => exact unchanged_modify fun _ => rfl
  all_goals
    dsimp only [scriptNum, evalVerify, evalToAltStack, evalFromAltStack,
      eval2Drop, eval2Dup, eval3Dup, eval2Over, eval2Rot, eval2Swap, evalIfDup, evalDepth, evalDrop,
      evalDup, evalNip, evalOver, evalRot, evalSwap, evalTuck, evalSize, evalEqual, evalHash,
      evalCheckLockTimeVerify, evalCheckSequenceVerify, evalUpgradableNop, ifValue, evalIf,
      evalPick, evalNumeric1, evalNumeric2, evalCompare, evalNumEqualVerify, evalWithin]
    infer_instance

end Unchanged

/-- The signature and the key that an opcode checks. -/
def sigopArgs (op : ScriptOp) (stack : List Valtype) : Option (Valtype × Valtype) :=
  match Opcode.ofByte op.opcode with
  | .opCheckSig | .opCheckSigVerify => stack[1]?.bind fun sig => stack[0]?.map (sig, ·)
  | .opCheckSigAdd => stack[2]?.bind fun sig => stack[0]?.map (sig, ·)
  | _ => none

variable (turn : ScriptOp × EvalState)

def passesSigop : Bool :=
  turn.2.vfExec.allTrue && (sigopArgs turn.1 turn.2.stack).any fun (sig, _) => !sig.isEmpty

section Run
variable {crypto : Crypto} {flags : ScriptFlags} {checker : SignatureChecker} {s t : EvalState}
  {u : Unit} {op : ScriptOp}

def Pays (passed : Bool) (s t : EvalState) : Prop :=
  t.weightLeft = s.weightLeft - 50 * passed.toNat ∧ (0 ≤ s.weightLeft → 0 ≤ t.weightLeft)

theorem Pays.of_unchanged {α : Type} {x : EvalM α} {a : α} [hx : Unchanged EvalState.weightLeft x]
    (h : x.Ends s a t) : Pays false s t := by
  have he := hx.eq h
  exact ⟨by simp [he], fun hs => he ▸ hs⟩

theorem Pays.frame {passed : Bool} {s' t' : EvalState} (h : Pays passed s t)
    (hs : s.weightLeft = s'.weightLeft) (ht : t.weightLeft = t'.weightLeft) :
    Pays passed s' t' := by
  rwa [Pays, ← hs, ← ht]

theorem pays_chargeSigop {passed : Bool} (h : Ends (chargeSigop passed) s u t) : Pays passed s t := by
  cases passed with
  | false =>
    obtain ⟨-, rfl⟩ := ends_pure.mp h
    exact ⟨by simp, id⟩
  | true =>
    simp only [chargeSigop, if_true, ends_bind, ends_get, ends_lift, ends_set, check_eq_ok,
      decide_eq_true_eq] at h
    obtain ⟨_, _, ⟨rfl, rfl⟩, _, _, ⟨-, rfl⟩, _, _, rfl, hw, rfl⟩ := h
    exact ⟨by simp [EvalState.weightLeft, validationWeightPerSigopPassed], fun _ => hw⟩

theorem pays_evalChecksig {sig pubkey : Valtype} {b : Bool}
    (h : Ends (evalChecksig crypto flags checker .tapscript sig pubkey) s b t) :
    Pays (!sig.isEmpty) s t := by
  rw [evalChecksig, if_pos rfl, evalChecksigTapscript] at h
  obtain ⟨_, ha, h⟩ := ends_bind_punit.mp h
  obtain ⟨-, rfl⟩ := ends_lift.mp ha
  obtain ⟨w, hc, h⟩ := ends_bind_punit.mp h
  exact (pays_chargeSigop hc).frame rfl (Unchanged.eq h).symm

theorem pays_evalCheckSig {verify : Bool}
    (h : Ends (evalCheckSig crypto flags checker .tapscript verify) s u t) :
    ∃ sig pubkey, s.stack[1]? = some sig ∧ s.stack[0]? = some pubkey ∧ Pays (!sig.isEmpty) s t := by
  obtain ⟨_, hn, h₁⟩ := ends_bind_punit.mp h
  obtain ⟨-, rfl⟩ := ends_needs.mp hn
  obtain ⟨sig, _, ht, h₂⟩ := ends_bind.mp h₁
  obtain ⟨hs, rfl⟩ := ends_stackTop.mp ht
  obtain ⟨pubkey, _, ht, h₃⟩ := ends_bind.mp h₂
  obtain ⟨hk, rfl⟩ := ends_stackTop.mp ht
  obtain ⟨b, w, hc, hr⟩ := ends_bind.mp h₃
  exact ⟨sig, pubkey, hs, hk, (pays_evalChecksig hc).frame rfl (Unchanged.eq hr).symm⟩

theorem pays_evalCheckSigAdd
    (h : Ends (evalCheckSigAdd crypto flags checker .tapscript) s u t) :
    ∃ sig pubkey, s.stack[2]? = some sig ∧ s.stack[0]? = some pubkey ∧ Pays (!sig.isEmpty) s t := by
  obtain ⟨_, hl, h₁⟩ := ends_bind_punit.mp h
  obtain ⟨-, rfl⟩ := ends_lift.mp hl
  obtain ⟨_, hn, h₂⟩ := ends_bind_punit.mp h₁
  obtain ⟨-, rfl⟩ := ends_needs.mp hn
  obtain ⟨sig, _, ht, h₃⟩ := ends_bind.mp h₂
  obtain ⟨hs, rfl⟩ := ends_stackTop.mp ht
  obtain ⟨num, _, hnu, h₄⟩ := ends_bind.mp h₃
  obtain ⟨-, -, -, rfl⟩ := ends_scriptNum.mp hnu
  obtain ⟨pubkey, _, ht, h₅⟩ := ends_bind.mp h₄
  obtain ⟨hk, rfl⟩ := ends_stackTop.mp ht
  obtain ⟨b, w, hc, hr⟩ := ends_bind.mp h₅
  exact ⟨sig, pubkey, hs, hk, (pays_evalChecksig hc).frame rfl (Unchanged.eq hr).symm⟩

theorem pays_evalOpcode {fExec : Bool}
    (h : Ends (evalOpcode crypto flags checker .tapscript fExec op) s u t) :
    Pays ((sigopArgs op s.stack).any fun (sig, _) => !sig.isEmpty) s t := by
  have hoe := h
  unfold evalOpcode at h
  cases ho : Opcode.ofByte op.opcode <;> simp only [ho] at h
  case opCheckSig | opCheckSigVerify =>
    obtain ⟨sig, p, hs, hk, hp⟩ := pays_evalCheckSig h
    simpa [sigopArgs, ho, hs, hk] using hp
  case opCheckSigAdd =>
    obtain ⟨sig, p, hs, hk, hp⟩ := pays_evalCheckSigAdd h
    simpa [sigopArgs, ho, hs, hk] using hp
  all_goals
    have := @unchanged_evalOpcode crypto flags checker fExec op (by rw [ho]; rfl)
    simpa [sigopArgs, ho] using Pays.of_unchanged hoe

theorem isSigop_of_le {opcode : UInt8} (h : opcode ≤ opEndIfByte) :
    (Opcode.ofByte opcode).isSigop = false := by
  have ha : ∀ n < 0x69, (Opcode.ofByte (UInt8.ofNat n)).isSigop = false := by decide
  have hl : opcode.toNat < 0x69 := Nat.lt_succ_of_le (UInt8.le_iff_toNat_le.mp h)
  simpa using ha _ hl

theorem ends_execute_of_evalStep (h : Ends (evalStep crypto flags checker .tapscript op) s u t) :
    Ends (execute crypto flags checker .tapscript s.vfExec.allTrue op)
      { s with opcodePos := s.opcodePos + 1 } u t := by
  obtain ⟨⟨w, hc, he⟩, -⟩ := ends_evalStep_iff.mp h
  simp only [checkOp, countOp, SigVersion.isLimited, Bool.false_and, Bool.false_eq_true, if_false,
    ends_bind_punit, ends_lift, ends_pure] at hc
  obtain ⟨_, ⟨-, rfl⟩, _, ⟨-, rfl⟩, _, ⟨-, rfl⟩, -, rfl⟩ := hc
  exact he

theorem sigopArgs_of_not_isSigop (ho : (Opcode.ofByte op.opcode).isSigop = false)
    (stack : List Valtype) : sigopArgs op stack = none := by
  unfold sigopArgs
  split <;> simp_all [Opcode.isSigop]

theorem pays_evalStep (h : Ends (evalStep crypto flags checker .tapscript op) s u t) :
    Pays (passesSigop (op, s)) s t := by
  have he := ends_execute_of_evalStep h
  refine Pays.frame (s := { s with opcodePos := s.opcodePos + 1 }) ?_ rfl rfl
  cases ha : s.vfExec.allTrue with
  | true =>
    by_cases hp : op.opcode ≤ opPushData4
    · have hn := isSigop_of_le (UInt8.le_trans hp (by decide : opPushData4 ≤ opEndIfByte))
      simp only [execute, ha, hp, decide_true, Bool.and_true, if_true] at he
      simpa [passesSigop, sigopArgs_of_not_isSigop hn] using Pays.of_unchanged he
    · simp only [execute, ha, hp, decide_false, Bool.and_false, Bool.false_eq_true, if_false,
        Bool.true_or, if_true] at he
      simpa [passesSigop, ha] using pays_evalOpcode he
  | false =>
    have hpa : passesSigop (op, s) = false := by simp [passesSigop, ha]
    rw [hpa]
    simp only [execute, ha, Bool.false_and, Bool.false_eq_true, if_false, Bool.false_or,
      Bool.and_eq_true, decide_eq_true_eq] at he
    split at he
    · next hi =>
      have := @unchanged_evalOpcode crypto flags checker false op (isSigop_of_le hi.2)
      exact .of_unchanged he
    · exact .of_unchanged he

theorem weightLeft_evalOps {ops : List (Option ScriptOp)}
    (h : Ends (evalOps crypto flags checker .tapscript ops) s u t) (hs : 0 ≤ s.weightLeft) :
    (turns crypto flags checker .tapscript ops s).map (fun turn => some turn.1) = ops ∧
    t.weightLeft =
      s.weightLeft - 50 * (turns crypto flags checker .tapscript ops s).countP passesSigop ∧
    0 ≤ t.weightLeft := by
  induction ops generalizing s with
  | nil =>
    obtain rfl := ends_evalOps_nil.mp h
    exact ⟨rfl, by simp [turns], hs⟩
  | cons o ops ih =>
    cases o with
    | none => exact absurd h ends_throw
    | some op =>
      obtain ⟨w, hst, hr⟩ := ends_evalOps_cons.mp h
      obtain ⟨hp, hpo⟩ := pays_evalStep hst
      obtain ⟨ho, hl, he⟩ := ih hr (hpo hs)
      rw [turns_cons hst, map_cons, ho, countP_cons]
      refine ⟨rfl, ?_, he⟩
      rw [hl, hp]
      cases passesSigop (op, s)
      · simp
      · simp
        omega

theorem schnorr_logChecksig (sig pubkey : Valtype) : AtMost isSchnorr
    (!sig.isEmpty).toNat (logChecksig crypto flags checker .tapscript sig pubkey) s := by
  rw [logChecksig, if_pos rfl]
  refine .quiet_bind fun _ _ _ => .quiet_bind fun _ _ _ => .quiet_bind fun _ _ _ =>
    .quiet_bind fun _ _ _ => .bind (n := 0) ?_ fun _ _ _ => atMost_pure _
  unfold logTapscriptSig
  by_cases h : (!sig.isEmpty) = true ∧ pubkey.length = 32
  · rw [if_pos h, h.1]
    exact (atMost_call _ _).bind_quiet
  · rw [if_neg h]
    exact atMost_quiet _

theorem schnorr_logCheckSig {verify : Bool}
    (ho : Opcode.ofByte op.opcode = .opCheckSig ∨ Opcode.ofByte op.opcode = .opCheckSigVerify) :
    AtMost isSchnorr ((sigopArgs op s.stack).any fun (sig, _) => !sig.isEmpty).toNat
      (logCheckSig crypto flags checker .tapscript verify) s := by
  refine .quiet_bind fun _ _ hn => .quiet_bind fun sig _ h₂ => .quiet_bind fun pubkey _ h₁ =>
    .bind_quiet ?_
  obtain ⟨-, rfl⟩ := ends_needs.mp hn
  obtain ⟨hs : s.stack[1]? = some sig, rfl⟩ := ends_stackTop.mp h₂
  obtain ⟨hk : s.stack[0]? = some pubkey, rfl⟩ := ends_stackTop.mp h₁
  rcases ho with ho | ho <;> simpa [sigopArgs, ho, hs, hk] using schnorr_logChecksig sig pubkey

theorem schnorr_logCheckSigAdd (ho : Opcode.ofByte op.opcode = .opCheckSigAdd) :
    AtMost isSchnorr ((sigopArgs op s.stack).any fun (sig, _) => !sig.isEmpty).toNat
      (logCheckSigAdd crypto flags checker .tapscript) s := by
  refine .quiet_bind fun _ _ hl => .quiet_bind fun _ _ hn => .quiet_bind fun sig _ h₃ =>
    .quiet_bind fun _ _ hnu => .quiet_bind fun pubkey _ h₁ => .bind_quiet ?_
  obtain ⟨-, rfl⟩ := ends_lift.mp hl
  obtain ⟨-, rfl⟩ := ends_needs.mp hn
  obtain ⟨hs : s.stack[2]? = some sig, rfl⟩ := ends_stackTop.mp h₃
  obtain ⟨-, -, -, rfl⟩ := ends_scriptNum.mp hnu
  obtain ⟨hk : s.stack[0]? = some pubkey, rfl⟩ := ends_stackTop.mp h₁
  simpa [sigopArgs, ho, hs, hk] using schnorr_logChecksig sig pubkey

theorem schnorr_logCheckMultiSig {verify : Bool} {n : ℕ} :
    AtMost isSchnorr n (logCheckMultiSig crypto flags checker .tapscript verify) s := by
  refine .quiet_bind fun _ _ ha => ?_
  obtain ⟨_, hc, -⟩ := ends_bind_punit.mp ha
  simp at hc

theorem schnorr_logOpcode (fExec : Bool) : AtMost isSchnorr
    ((sigopArgs op s.stack).any fun (sig, _) => !sig.isEmpty).toNat
    (logOpcode crypto flags checker .tapscript fExec op) s := by
  unfold logOpcode
  split
  · next ho => exact schnorr_logCheckSig (.inl ho)
  · next ho => exact schnorr_logCheckSig (.inr ho)
  · next ho => exact schnorr_logCheckSigAdd ho
  · exact schnorr_logCheckMultiSig
  · exact schnorr_logCheckMultiSig
  · exact atMost_quiet _

theorem schnorr_logStep : AtMost isSchnorr (passesSigop (op, s)).toNat
    (logStep crypto flags checker .tapscript op) s := by
  refine .quiet_bind fun _ w hw => .quiet_bind fun w' v hv => .quiet_bind fun _ t hc =>
    .bind_quiet ?_
  obtain rfl := ends_modify.mp hw
  obtain ⟨rfl, rfl⟩ := ends_get.mp hv
  have hst : t.stack = s.stack := (Prod.mk.inj ((unchanged_checkOp op).eq hc)).1
  have ho := @schnorr_logOpcode crypto flags checker t op
  rw [hst] at ho
  unfold logExecute
  split
  · exact atMost_quiet _
  · split
    · next hi =>
      cases hf : s.vfExec.allTrue with
      | true => simpa [passesSigop, hf] using ho true
      | false =>
        simp only [hf, Bool.false_or, Bool.and_eq_true, decide_eq_true_eq] at hi
        simpa [sigopArgs_of_not_isSigop (isSigop_of_le hi.2), passesSigop] using ho false
    · exact atMost_pure _

theorem schnorr_logOps (ops : List (Option ScriptOp)) : AtMost isSchnorr
    ((turns crypto flags checker .tapscript ops s).countP passesSigop)
    (logOps crypto flags checker .tapscript ops) s := by
  induction ops generalizing s with
  | nil => exact atMost_pure _
  | cons o ops ih =>
    cases o with
    | none => exact atMost_quiet _
    | some op =>
      have hc : ∀ n, (passesSigop (op, s)).toNat + n =
          n + if passesSigop (op, s) then 1 else 0 := by
        cases passesSigop (op, s) <;> simp [Nat.add_comm]
      rw [turns, countP_cons, ← hc]
      refine .bind schnorr_logStep fun u t ht => ?_
      rw [erase_logStep] at ht
      rw [ends_iff_run.mp ht]
      exact ih

end Run

theorem witnessSize_reverse (witness : List Valtype) :
    witnessSize witness.reverse = witnessSize witness := by
  simp only [witnessSize, length_reverse, map_reverse, sum_reverse]

theorem findOpSuccess_eq_ok {flags : ScriptFlags} {ops : List (Option ScriptOp)} {b : Bool}
    (h : findOpSuccess flags ops = .ok b)
    (ho : ∀ op, some op ∈ ops → isOpSuccess op.opcode = false) : b = false := by
  induction ops with
  | nil =>
    cases h
    rfl
  | cons o ops ih =>
    cases o with
    | none => cases h
    | some op =>
      rw [findOpSuccess, if_neg (by simp [ho op])] at h
      exact ih h fun op hop => ho op (mem_cons_of_mem _ hop)

def tapscriptStart (crypto : Crypto) (witness : List Valtype) (annex : Option Valtype)
    (control : Valtype) (script : CScript) (stack : List Valtype) : EvalState :=
  .start stack script
    { annexData crypto annex with
      tapleafHash := computeTapleafHash crypto (control.getD 0 0 &&& taprootLeafMask) script
      tapleafHashInit := true
      validationWeightLeft := witnessSize witness + validationWeightOffset
      validationWeightLeftInit := true }

section Accepted
variable (crypto : Crypto) (flags : ScriptFlags) (checker : SignatureChecker)
  {scriptSig scriptPubKey script : CScript} {witness stack : List Valtype}
  {program control : Valtype} {annex : Option Valtype} (hwitness : flags.has .witness)
  (htaproot : flags.has .taproot) (hprogram : scriptPubKey.isWitnessProgram = some (1, program))
  (hlen : program.length = 32)
  (hspend : popAnnex witness.reverse = (annex, control :: script :: stack))
  (hleaf : control.getD 0 0 &&& taprootLeafMask = taprootLeafTapscript)
  (hsuccess : ∀ op, some op ∈ script.ops → isOpSuccess op.opcode = false)
  (haccept : verifyScript crypto flags checker scriptSig scriptPubKey (some witness) = .ok ())
include hwitness htaproot hprogram hlen hspend hleaf hsuccess haccept

theorem exists_evalOps_of_verifyScript :
    ∃ t, Ends (evalOps crypto flags checker .tapscript script.ops)
      (tapscriptStart crypto witness annex control script stack) () t := by
  obtain ⟨⟨sc, bare⟩, -, h₁⟩ := bind_eq_ok.mp haccept
  obtain ⟨s, hb, -⟩ := bind_eq_ok.mp h₁
  rw [verifyBareWitness, if_pos hwitness, followWitnessProgram, hprogram] at hb
  obtain ⟨_, -, h₂⟩ := bind_eq_ok.mp hb
  obtain ⟨_, hv, -⟩ := bind_eq_ok.mp h₂
  rw [verifyWitnessProgram, if_neg one_ne_zero, if_pos (by simp [hlen]), verifyTaproot,
    checkIf_eq_ok, Option.getD_some, hspend] at hv
  have hs := hv htaproot
  rw [verifyTaprootSpend, verifyTaprootScript] at hs
  obtain ⟨_, -, h₃⟩ := bind_eq_ok.mp hs
  obtain ⟨_, -, h₄⟩ := bind_eq_ok.mp h₃
  obtain ⟨_, -, h₅⟩ := bind_eq_ok.mp h₄
  rw [verifyTaprootLeaf, if_pos hleaf, executeWitnessScript, if_pos rfl] at h₅
  obtain ⟨b, hf, h₆⟩ := bind_eq_ok.mp h₅
  obtain rfl := findOpSuccess_eq_ok hf hsuccess
  obtain ⟨_, -, h₇⟩ := bind_eq_ok.mp (checkIf_eq_ok.mp h₆ rfl)
  obtain ⟨_, -, h₈⟩ := bind_eq_ok.mp h₇
  obtain ⟨r, he, -⟩ := bind_eq_ok.mp h₈
  obtain ⟨-, -, t, ht, -⟩ := evalScript_eq_ok.mp he
  rw [witnessSize_reverse] at ht
  exact ⟨t, ht⟩

/-- A tapscript that is accepted checks at most one signature more than its witness has weight for,
and calls the checker for these alone. -/
theorem tapscript_sigops_le : ∃ run, turns crypto flags checker .tapscript script.ops
        (tapscriptStart crypto witness annex control script stack) = run ∧
      run.map (fun turn => some turn.1) = script.ops ∧
      50 * run.countP passesSigop ≤ witnessSize witness + 50 ∧
      (logOps crypto flags checker .tapscript script.ops).erase =
        evalOps crypto flags checker .tapscript script.ops ∧
      (logOps crypto flags checker .tapscript script.ops (tapscriptStart crypto witness annex control
        script stack)).1.countP isSchnorr ≤ run.countP passesSigop := by
  obtain ⟨t, ht⟩ := exists_evalOps_of_verifyScript crypto flags checker hwitness htaproot hprogram
    hlen hspend hleaf hsuccess haccept
  have hs : (tapscriptStart crypto witness annex control script stack).weightLeft =
      witnessSize witness + 50 := rfl
  obtain ⟨ho, hl, hp⟩ := weightLeft_evalOps ht (by rw [hs]; omega)
  exact ⟨_, rfl, ho, by omega, erase_logOps _, schnorr_logOps _⟩

end Accepted

theorem tapscript_sigops_le_spentKey : ∃ run, turns plainCrypto 0x1fffff keyChecker .tapscript
        (CScript.ops (CScript.push [] spentKey ++ [opCheckSigByte]))
        (tapscriptStart plainCrypto tapscriptWitness none (taprootLeafTapscript :: spentKey)
          (CScript.push [] spentKey ++ [opCheckSigByte]) [spentKey]) = run ∧
      (logOps plainCrypto 0x1fffff keyChecker .tapscript
        (CScript.ops (CScript.push [] spentKey ++ [opCheckSigByte]))
        (tapscriptStart plainCrypto tapscriptWitness none (taprootLeafTapscript :: spentKey)
          (CScript.push [] spentKey ++ [opCheckSigByte]) [spentKey])).1 =
        [.checkSchnorrSignature spentKey spentKey] ∧ 50 * run.countP passesSigop ≤ 103 + 50 := by
  have ho : (CScript.ops (CScript.push [] spentKey ++ [opCheckSigByte])).all
      (fun o => o.all fun op => !isOpSuccess op.opcode) = true := rfl
  have hprogram : CScript.isWitnessProgram (op1 :: CScript.push [] spentKey) =
      some (1, spentKey) := rfl
  have hspend : popAnnex tapscriptWitness.reverse = (none, [taprootLeafTapscript :: spentKey,
      CScript.push [] spentKey ++ [opCheckSigByte], spentKey]) := rfl
  have haccept : verifyScript plainCrypto 0x1fffff keyChecker [] (op1 :: CScript.push [] spentKey)
      (some tapscriptWitness) = .ok () := rfl
  obtain ⟨run, rfl, -, hl, -, -⟩ := tapscript_sigops_le plainCrypto 0x1fffff keyChecker (by decide)
    (by decide) hprogram rfl hspend (by decide)
    (fun op hop => by simpa using all_eq_true.mp ho _ hop) haccept
  exact ⟨_, rfl, rfl, hl⟩

end Palladium
