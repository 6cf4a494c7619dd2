import Palladium.Lib.Meets
import Palladium.Script.ScriptNum
import Palladium.Script.SoftFork

/-! # Safety of the interpreter

Every opcode looks at the size of the stack before it uses it.
-/

namespace Palladium
open EvalM Except StateT

/-- `return set_error(..)`. -/
def IsScriptError : ScriptHalt → Prop
  | .error _ => True
  | _ => False

/-- How an evaluation may end. Only the assertion on the weight left can fail, in a tapscript for
which it was not initialised. -/
def EvalFailure (sigversion : SigVersion) (init : Bool) : ScriptHalt → Prop
  | .error _ | .scriptnumError _ => True
  | .outOfRange | .runtimeError _ => False
  | .assertion => sigversion = .tapscript ∧ init = false

section Rules
variable {crypto : Crypto} {flags : ScriptFlags} {checker : SignatureChecker}
  {sigversion : SigVersion}

theorem meets_check (ok : Bool) (e : ScriptError) :
    (check ok e).Meets IsScriptError fun _ => ok = true := by
  cases ok <;> trivial

/-- Ends, or fails with an error of a script. -/
abbrev IsRule {α : Type} (x : Except ScriptHalt α) : Prop := x.Meets IsScriptError fun _ => True

theorem meets_rule (ok : Bool) (e : ScriptError) : IsRule (check ok e) :=
  (meets_check ok e).imp fun _ _ => trivial

theorem meets_checkIf {on : Bool} {x : Except ScriptHalt Unit} (hx : on → IsRule x) :
    IsRule (checkIf on x) := by
  cases on with
  | false => trivial
  | true => exact hx rfl

theorem meets_checkIf_check (on ok : Bool) (e : ScriptError) : IsRule (checkIf on (check ok e)) :=
  meets_checkIf fun _ => meets_rule ok e

theorem meets_assert {E : ScriptHalt → Prop} {ok : Bool} (h : ok) :
    (assert ok).Meets E fun _ => True := by
  rw [h]
  trivial

theorem meets_mapError (x : Except ScriptError Unit) : IsRule (x.mapError ScriptHalt.error) := by
  cases x <;> trivial

theorem meets_checkSignatureEncoding (vchSig : Valtype) :
    IsRule (checkSignatureEncoding crypto flags vchSig) := by
  refine meets_checkIf fun _ => (meets_checkIf_check _ _ _).bind fun _ _ => ?_
  refine (meets_checkIf fun _ => ?_).bind fun _ _ => meets_checkIf_check _ _ _
  exact (meets_check _ _).bind fun _ _ => meets_rule _ _

theorem meets_checkPubKeyEncoding (vchPubKey : Valtype) :
    IsRule (checkPubKeyEncoding flags sigversion vchPubKey) :=
  (meets_checkIf_check _ _ _).bind fun _ _ => meets_checkIf_check _ _ _

theorem meets_dropSignature (vchSig : Valtype) (scriptCode : CScript) :
    IsRule (dropSignature flags sigversion vchSig scriptCode) := by
  unfold dropSignature
  split
  · exact (meets_checkIf_check _ _ _).bind fun _ _ => trivial
  · trivial

theorem meets_checkTapscriptSig (success : Bool) (sig pubkey : Valtype)
    (execdata : ScriptExecutionData) :
    (checkTapscriptSig flags checker sigversion success sig pubkey execdata).Meets
      IsScriptError fun _ => True := by
  unfold checkTapscriptSig
  split
  · exact meets_checkIf fun _ => meets_mapError _
  · exact meets_checkIf fun _ => trivial

end Rules

section Opcodes
variable {crypto : Crypto} {flags : ScriptFlags} {checker : SignatureChecker}
  {sigversion : SigVersion} {init : Bool} {α β : Type} {k m n : ℕ}

def Deep (init : Bool) (n : ℕ) (s : EvalState) : Prop :=
  s.execdata.validationWeightLeftInit = init ∧ n ≤ s.stack.length

theorem Deep.mono {s : EvalState} (h : Deep init n s) (hm : m ≤ n) : Deep init m s :=
  ⟨h.1, hm.trans h.2⟩

/-- `x` is safe on a stack of `n` elements and leaves at least `m`. -/
def Safe (sigversion : SigVersion) (init : Bool) (n : ℕ) (x : EvalM α) (m : ℕ) : Prop :=
  Meets (EvalFailure sigversion init) (Deep init n) x fun _ => Deep init m

variable {x : EvalM α} {i nMaxNumSize isig : ℕ} {bn : CScriptNum}

theorem Safe.bind {f : α → EvalM β} (hx : Safe sigversion init n x m)
    (hf : ∀ {a}, Safe sigversion init m (f a) k) : Safe sigversion init n (x >>= f) k :=
  Meets.bind hx fun _ => hf

theorem Safe.mono {n' m' : ℕ} (hx : Safe sigversion init n x m) (hn : n ≤ n') (hm : m' ≤ m) :
    Safe sigversion init n' x m' :=
  hx.weaken (fun _ hs => hs.mono hn) fun _ _ hs => hs.mono hm

theorem Safe.done (hx : Safe sigversion init n x m) : Safe sigversion init n x 0 :=
  hx.mono le_rfl (Nat.zero_le m)

theorem safe_pure (a : α) : Safe sigversion init n (pure a : EvalM α) n :=
  (meets_pure a).post fun _ _ h => h.2

theorem safe_get : Safe sigversion init n (get : EvalM EvalState) n :=
  meets_get.post fun _ _ h => h.2

theorem safe_throw (e : ScriptError) : Safe sigversion init n (throw (.error e) : EvalM α) m :=
  meets_throw trivial

theorem safe_ite {c : Prop} [Decidable c] {y : EvalM α} (hx : Safe sigversion init n x m)
    (hy : Safe sigversion init n y m) : Safe sigversion init n (if c then x else y) m :=
  Meets.ite (fun _ => hx) fun _ => hy

theorem safe_modify {f : EvalState → EvalState} (h : ∀ s, Deep init n s → Deep init m (f s)) :
    Safe sigversion init n (modify f : EvalM Unit) m :=
  meets_modify h

theorem safe_lift {x : Except ScriptHalt α}
    (hx : x.Meets (EvalFailure sigversion init) fun _ => True) :
    Safe sigversion init n (liftM x : EvalM α) n :=
  (meets_lift hx).post fun _ _ h => h.2

theorem evalFailure_of_isScriptError {h : ScriptHalt} (he : IsScriptError h) :
    EvalFailure sigversion init h := by
  cases h with
  | error e => trivial
  | scriptnumError | outOfRange | runtimeError | assertion => cases he

theorem safe_rule {x : Except ScriptHalt α} (hx : IsRule x) :
    Safe sigversion init n (liftM x : EvalM α) n :=
  safe_lift (hx.permit fun _ => evalFailure_of_isScriptError)

theorem meets_liftCheck {P : EvalState → Prop} (ok : Bool) (e : ScriptError) :
    Meets (EvalFailure sigversion init) P (liftM (check ok e) : EvalM Unit)
      fun _ s => ok = true ∧ P s :=
  meets_lift ((meets_check ok e).permit fun _ => evalFailure_of_isScriptError)

theorem safe_check (ok : Bool) (e : ScriptError) :
    Safe sigversion init n (liftM (check ok e) : EvalM Unit) n :=
  safe_rule (meets_rule ok e)

theorem safe_needs (n : ℕ) : Safe sigversion init m (needs n) n := by
  refine meets_get.bind fun s => (meets_liftCheck _ _).post ?_
  rintro - s' ⟨hn, rfl, hs⟩
  exact ⟨hs.1, of_decide_eq_true hn⟩

theorem safe_checkSize {ok : EvalState → Bool} {e : ScriptError}
    (ho : ∀ s, ok s → m ≤ s.stack.length) (hx : Safe sigversion init m x k) :
    Safe sigversion init n (do check (ok (← get)) e; x) k := by
  refine meets_get.bind fun s => (meets_liftCheck _ _).bind fun _ => hx.pre ?_
  rintro s' ⟨hs, rfl, hi⟩
  exact ⟨hi.1, ho s hs⟩

theorem fromTop_meets {stack : List Valtype} (hp : 0 < i) (hi : i ≤ stack.length) :
    (fromTop stack i).Meets (EvalFailure sigversion init) fun _ => True := by
  rw [fromTop, List.getElem?_eq_getElem (by omega)]
  trivial

theorem safe_stackTop (hi : 0 < i ∧ i ≤ n) : Safe sigversion init n (stackTop i) n := by
  refine meets_get.bind fun s => Meets.pre (P := fun s' => Deep init n s ∧ Deep init n s') ?_ ?_
  · exact Meets.of_fact fun hs => safe_lift (fromTop_meets hi.1 (hi.2.trans hs.2))
  · rintro s' ⟨rfl, hs⟩
    exact ⟨hs, hs⟩

theorem safe_top {f : Valtype → EvalM α} (hi : 0 < i ∧ i ≤ n)
    (hf : ∀ {vch}, Safe sigversion init n (f vch) k) :
    Safe sigversion init n (stackTop i >>= f) k :=
  (safe_stackTop hi).bind hf

theorem safe_popStack : Safe sigversion init (n + 1) popStack n := by
  rintro ⟨_ | ⟨vch, stack⟩⟩ hs
  · exact absurd hs.2 (by simp)
  · exact ⟨hs.1, Nat.le_of_succ_le_succ hs.2⟩

variable (vch : Valtype)

theorem safe_push : Safe sigversion init n (push vch) (n + 1) :=
  meets_modify fun _ hs => ⟨hs.1, Nat.succ_le_succ hs.2⟩

theorem safe_pushNum (bn : CScriptNum) : Safe sigversion init n (pushNum bn) (n + 1) := safe_push _

theorem safe_pushBool (f : Bool) : Safe sigversion init n (pushBool f) (n + 1) := safe_push _

theorem safe_swapTop {j : ℕ} (hi : 0 < i ∧ i ≤ n) (hj : 0 < j ∧ j ≤ n) :
    Safe sigversion init n (swapTop i j) n := by
  refine (safe_stackTop hi).bind fun {vch1} => (safe_stackTop hj).bind fun {vch2} => ?_
  exact meets_modify fun s hs => ⟨hs.1, by simpa using hs.2⟩

theorem safe_eraseTop (i : ℕ) : Safe sigversion init (n + 1) (eraseTop i) n := by
  refine meets_modify fun s hs => ⟨hs.1, ?_⟩
  have := hs.2
  have := List.le_length_eraseIdx s.stack (i - 1)
  show n ≤ (s.stack.eraseIdx (i - 1)).length
  omega

theorem safe_verifyResult (verify fSuccess : Bool) (e : ScriptError) :
    Safe sigversion init (n + 1) (verifyResult verify fSuccess e) n :=
  safe_ite ((safe_pure ()).mono le_rfl n.le_succ) (safe_ite safe_popStack (safe_throw e))

theorem safe_checkTopEmpty (on : Bool) (e : ScriptError) :
    Safe sigversion init (n + 1) (checkTopEmpty on e) (n + 1) :=
  safe_ite ((safe_stackTop (by omega)).bind <| safe_check _ _) (safe_pure ())

theorem safe_evalVerify : Safe sigversion init n evalVerify 0 :=
  (safe_needs 1).bind <| safe_top (by decide) <| safe_verifyResult _ _ _

theorem pos_of_not_empty {c : ConditionStack} (h : (!c.empty)) : decide (0 < c.stackSize) := by
  simpa [ConditionStack.empty, Nat.pos_iff_ne_zero] using h

theorem safe_setConditions {f : ConditionStack → Except ScriptHalt ConditionStack}
    (hf : ∀ c, decide (0 < c.stackSize) → (f c).Meets (EvalFailure sigversion init) fun _ => True) :
    Safe sigversion init n (do
      let s ← get
      check (!s.vfExec.empty) .unbalancedConditional
      let vfExec ← f s.vfExec
      set { s with vfExec }) n := by
  refine meets_get.bind fun s => (meets_liftCheck _ _).bind fun _ => Meets.of_fact fun he => ?_
  refine (meets_lift (hf _ (pos_of_not_empty he))).bind fun vfExec s' hs' => ?_
  obtain ⟨-, rfl, hs⟩ := hs'
  exact hs

theorem safe_evalElse : Safe sigversion init n evalElse n :=
  safe_setConditions fun _ h => (meets_assert h).bind fun _ _ => trivial

theorem safe_evalEndIf : Safe sigversion init n evalEndIf n :=
  safe_setConditions fun _ h => (meets_assert h).bind fun _ _ => trivial

theorem safe_evalToAltStack : Safe sigversion init n evalToAltStack 0 :=
  (safe_needs 1).bind <| safe_top (by decide) <|
    Safe.bind (safe_modify fun _ hs => hs) <| safe_popStack

theorem safe_evalFromAltStack : Safe sigversion init n evalFromAltStack 0 := by
  refine meets_get.bind fun s => (meets_liftCheck _ _).bind fun _ => ?_
  refine Meets.of_fact fun halt => ?_
  have halt : 0 < s.altstack.length := of_decide_eq_true halt
  have hp : (popped s.altstack).Meets (EvalFailure sigversion init) fun _ => True := by
    cases hs : s.altstack with
    | nil => rw [hs] at halt; cases halt
    | cons vch stack => trivial
  refine Meets.pre (P := Deep init n) ?_ fun s' hs => hs.2
  exact (safe_lift (fromTop_meets one_pos halt)).bind fun {vch} => (safe_push vch).bind <|
    Safe.bind (safe_lift hp) <| safe_modify fun _ hs => hs.mono (Nat.zero_le _)

theorem safe_eval2Drop : Safe sigversion init n eval2Drop 0 :=
  (safe_needs 2).bind <| safe_popStack.bind <| safe_popStack

theorem safe_eval2Dup : Safe sigversion init n eval2Dup 0 :=
  (safe_needs 2).bind <| safe_top (by decide) <|
    safe_top (by decide) <| (safe_push _).bind <| (safe_push _).done

theorem safe_eval3Dup : Safe sigversion init n eval3Dup 0 :=
  (safe_needs 3).bind <| safe_top (by decide) <| safe_top (by decide) <| safe_top (by decide) <|
    (safe_push _).bind <| (safe_push _).bind <| (safe_push _).done

theorem safe_eval2Over : Safe sigversion init n eval2Over 0 :=
  (safe_needs 4).bind <| safe_top (by decide) <|
    safe_top (by decide) <| (safe_push _).bind <| (safe_push _).done

theorem safe_eval2Rot : Safe sigversion init n eval2Rot 0 :=
  (safe_needs 6).bind <| safe_top (by decide) <| safe_top (by decide) <| (safe_eraseTop 6).bind <|
    (safe_eraseTop 5).bind <| (safe_push _).bind <| (safe_push _).done

theorem safe_eval2Swap : Safe sigversion init n eval2Swap 0 :=
  (safe_needs 4).bind <| (safe_swapTop (by decide) (by decide)).bind <|
    (safe_swapTop (by decide) (by decide)).done

theorem safe_evalIfDup : Safe sigversion init n evalIfDup 0 :=
  (safe_needs 1).bind <| safe_top (by decide) <| safe_ite (safe_push _).done (safe_pure ()).done

theorem safe_evalDepth : Safe sigversion init n evalDepth 0 :=
  safe_get.bind <| (safe_pushNum _).done

theorem safe_evalDrop : Safe sigversion init n evalDrop 0 :=
  (safe_needs 1).bind <| safe_popStack

theorem safe_evalDup : Safe sigversion init n evalDup 0 :=
  (safe_needs 1).bind <| safe_top (by decide) <| (safe_push _).done

theorem safe_evalNip : Safe sigversion init n evalNip 0 :=
  (safe_needs 2).bind <| (safe_eraseTop 2).done

theorem safe_evalOver : Safe sigversion init n evalOver 0 :=
  (safe_needs 2).bind <| safe_top (by decide) <| (safe_push _).done

theorem safe_evalRot : Safe sigversion init n evalRot 0 :=
  (safe_needs 3).bind <| (safe_swapTop (by decide) (by decide)).bind <|
    (safe_swapTop (by decide) (by decide)).done

theorem safe_evalSwap : Safe sigversion init n evalSwap 0 :=
  (safe_needs 2).bind <| (safe_swapTop (by decide) (by decide)).done

theorem safe_evalTuck : Safe sigversion init n evalTuck 0 :=
  (safe_needs 2).bind <| safe_top (by decide) <| meets_modify fun _ hs => ⟨hs.1, Nat.zero_le _⟩

theorem safe_evalSize : Safe sigversion init n evalSize 0 :=
  (safe_needs 1).bind <| safe_top (by decide) <| (safe_pushNum _).done

variable (verify : Bool)

theorem safe_evalEqual : Safe sigversion init n (evalEqual verify) 0 :=
  (safe_needs 2).bind <| safe_top (by decide) <| safe_top (by decide) <| safe_popStack.bind <|
    safe_popStack.bind <| (safe_pushBool _).bind <| safe_verifyResult _ _ _

theorem safe_evalHash (hash : Valtype → Valtype) : Safe sigversion init n (evalHash hash) 0 :=
  (safe_needs 1).bind <| safe_top (by decide) <| safe_popStack.bind <| (safe_push _).done

theorem safe_evalCodeSeparator (pc : CScript) : Safe sigversion init n (evalCodeSeparator pc) n :=
  safe_modify fun _ hs => hs

theorem abs_setVch_le : |CScriptNum.setVch vch| ≤ 256 ^ vch.length := by
  have hl := CScriptNum.natAbs_signMagnitude_lt (le_refl vch.length)
  rw [CScriptNum.setVch_eq_signMagnitude, Int.abs_eq_natAbs]
  exact_mod_cast (by omega : (CScriptNum.signMagnitude vch).natAbs ≤ 256 ^ vch.length)

theorem meets_ofVch (fRequireMinimal : Bool) (nMaxNumSize : ℕ) :
    (CScriptNum.ofVch vch fRequireMinimal nMaxNumSize).Meets (EvalFailure sigversion init)
      fun bn => |bn| ≤ 256 ^ nMaxNumSize := by
  unfold CScriptNum.ofVch
  split_ifs with hs hm
  · trivial
  · trivial
  · refine (abs_setVch_le vch).trans ?_
    gcongr
    · norm_num
    · omega

theorem meets_numTop (hi : 0 < i ∧ i ≤ n) :
    Meets (EvalFailure sigversion init) (Deep init n) (numTop flags i nMaxNumSize)
      fun bn s => |bn| ≤ 256 ^ nMaxNumSize ∧ Deep init n s :=
  Meets.bind (safe_stackTop hi) fun vch => meets_lift (meets_ofVch vch _ _)

theorem safe_numTop (hi : 0 < i ∧ i ≤ n) : Safe sigversion init n (numTop flags i nMaxNumSize) n :=
  (meets_numTop hi).post fun _ _ h => h.2

theorem safe_scriptNum (hi : 0 < i ∧ i ≤ n) : Safe sigversion init n (scriptNum flags i) n :=
  safe_numTop hi

theorem safe_evalPush {op : ScriptOp} (ho : op.opcode ≤ opPushData4) :
    Safe sigversion init n (evalPush flags op) 0 := by
  refine (safe_rule (meets_checkIf fun _ => ?_)).bind <| (safe_push _).done
  exact (meets_assert (decide_eq_true ho)).bind fun _ _ => meets_rule _ _

theorem safe_evalCheckLockTimeVerify :
    Safe sigversion init n (evalCheckLockTimeVerify flags checker) 0 :=
  safe_ite ((safe_needs 1).bind <| (safe_numTop (by decide)).bind <|
    (safe_check _ _).bind <| (safe_check _ _).done) (safe_pure ()).done

theorem safe_evalCheckSequenceVerify :
    Safe sigversion init n (evalCheckSequenceVerify flags checker) 0 :=
  safe_ite ((safe_needs 1).bind <| (safe_numTop (by decide)).bind <|
    (safe_check _ _).bind <| (safe_check _ _).done) (safe_pure ()).done

theorem safe_evalUpgradableNop : Safe sigversion init n (evalUpgradableNop flags) n :=
  safe_rule (meets_checkIf fun _ => trivial)

theorem safe_ifValue (fExec notIf : Bool) :
    Safe sigversion init n (ifValue flags sigversion fExec notIf) 0 := by
  refine safe_ite (safe_checkSize (m := 1) (fun s hs => of_decide_eq_true hs) ?_)
    (safe_pure _).done
  exact safe_top (by decide) <| (safe_rule (meets_checkIf_check _ _ _)).bind <|
    (safe_rule (meets_checkIf_check _ _ _)).bind <| safe_popStack.bind <| safe_pure _

theorem safe_evalIf (fExec notIf : Bool) :
    Safe sigversion init n (evalIf flags sigversion fExec notIf) 0 :=
  (safe_ifValue fExec notIf).bind <| safe_modify fun _ hs => hs

theorem safe_evalPick (roll : Bool) : Safe sigversion init n (evalPick flags roll) 0 := by
  refine (safe_needs 2).bind <| (safe_scriptNum (by decide)).bind fun {bn} =>
    safe_popStack.bind <| ?_
  refine safe_checkSize (m := bn.getint.toNat + 1) (fun s hs => ?_) ?_
  · simp only [Bool.and_eq_true, decide_eq_true_eq] at hs
    omega
  · refine (safe_stackTop (by omega)).bind <| ?_
    exact safe_ite ((safe_eraseTop _).bind <| (safe_push _).done) (safe_push _).done

theorem safe_evalNumeric1 {f : CScriptNum → Except ScriptHalt CScriptNum}
    (hf : ∀ bn : CScriptNum, |bn| ≤ 256 ^ CScriptNum.nDefaultMaxNumSize →
      (f bn).Meets (EvalFailure sigversion init) fun _ => True) :
    Safe sigversion init n (evalNumeric1 flags f) 0 :=
  (safe_needs 1).bind <| Meets.bind (meets_numTop (by decide)) fun bn =>
    Meets.of_fact fun hbn => (safe_lift (hf bn hbn)).bind <| safe_popStack.bind <|
      (safe_pushNum _).done

theorem safe_evalNumeric2 (f : CScriptNum → CScriptNum → CScriptNum) :
    Safe sigversion init n (evalNumeric2 flags f) 1 :=
  (safe_needs 2).bind <| (safe_scriptNum (by decide)).bind <| (safe_scriptNum (by decide)).bind <|
    safe_popStack.bind <| safe_popStack.bind <| safe_pushNum _

theorem safe_evalNumEqualVerify : Safe sigversion init n (evalNumEqualVerify flags) 0 :=
  (safe_evalNumeric2 _).bind <| safe_top (by decide) <| safe_verifyResult _ _ _

theorem safe_evalWithin : Safe sigversion init n (evalWithin flags) 0 :=
  (safe_needs 3).bind <| (safe_scriptNum (by decide)).bind <| (safe_scriptNum (by decide)).bind <|
    (safe_scriptNum (by decide)).bind <| safe_popStack.bind <| safe_popStack.bind <|
    safe_popStack.bind <| (safe_pushBool _).done

section
variable (hbn : |bn| ≤ 256 ^ CScriptNum.nDefaultMaxNumSize)
include hbn

theorem meets_addAssign_one : (bn.addAssign 1).Meets (EvalFailure sigversion init) fun _ => True := by
  rw [abs_le] at hbn
  have hm : bn ≤ int64Max - 1 := hbn.2.trans (by decide)
  simp [CScriptNum.addAssign, assert, hm]
  trivial

theorem meets_subAssign_one : (bn.subAssign 1).Meets (EvalFailure sigversion init) fun _ => True := by
  rw [abs_le] at hbn
  have hm : int64Min + 1 ≤ bn := le_trans (by decide) hbn.1
  simp [CScriptNum.subAssign, assert, hm]
  trivial

theorem meets_neg : bn.neg.Meets (EvalFailure sigversion init) fun _ => True := by
  rw [abs_le] at hbn
  have hn : bn ≠ int64Min := (lt_of_lt_of_le (by decide) hbn.1).ne'
  simp [CScriptNum.neg, assert, hn]
  trivial

end

theorem safe_evalChecksigPreTapscript (vchSig vchPubKey : Valtype) : Safe sigversion init n
      (evalChecksigPreTapscript crypto flags checker sigversion vchSig vchPubKey) n :=
  safe_get.bind <| (safe_rule (meets_dropSignature _ _)).bind <|
    (safe_rule (meets_checkSignatureEncoding _)).bind <|
    (safe_rule (meets_checkPubKeyEncoding _)).bind <|
    (safe_rule (meets_checkIf_check _ _ _)).bind <| safe_pure _

theorem safe_chargeSigop (hsv : sigversion = .tapscript) (success : Bool) :
    Safe sigversion init n (chargeSigop success) n := by
  refine safe_ite (meets_get.bind fun s => ?_) (safe_pure ())
  refine Meets.pre (P := fun s' => Deep init n s ∧ Deep init n s') ?_ ?_
  · refine Meets.of_fact fun hs => ?_
    have ha : (assert s.execdata.validationWeightLeftInit).Meets
        (EvalFailure sigversion init) fun _ => True := by
      cases hi : s.execdata.validationWeightLeftInit with
      | false => exact ⟨hsv, hs.1 ▸ hi⟩
      | true => trivial
    refine Safe.bind (safe_lift ha) <| ?_
    exact Meets.bind (meets_set hs) fun _ => safe_check _ _
  · rintro s' ⟨rfl, hs⟩
    exact ⟨hs, hs⟩

theorem safe_evalChecksig (sig pubkey : Valtype) :
    Safe sigversion init n (evalChecksig crypto flags checker sigversion sig pubkey) n := by
  refine Meets.ite (fun hs => ?_) fun _ => safe_evalChecksigPreTapscript sig pubkey
  exact (safe_lift (meets_assert (decide_eq_true hs))).bind <|
    (safe_chargeSigop hs _).bind <| (safe_check _ _).bind <| safe_get.bind <|
      (safe_rule (meets_checkTapscriptSig _ _ _ _)).bind <| safe_pure _

theorem safe_evalCheckSig :
    Safe sigversion init n (evalCheckSig crypto flags checker sigversion verify) 0 :=
  (safe_needs 2).bind <| safe_top (by decide) <| safe_top (by decide) <|
    (safe_evalChecksig _ _).bind <| safe_popStack.bind <| safe_popStack.bind <|
    (safe_pushBool _).bind <| safe_verifyResult _ _ _

theorem safe_evalCheckSigAdd :
    Safe sigversion init n (evalCheckSigAdd crypto flags checker sigversion) 0 :=
  (safe_check _ _).bind <| (safe_needs 3).bind <| safe_top (by decide) <|
    (safe_scriptNum (by decide)).bind <| safe_top (by decide) <| (safe_evalChecksig _ _).bind <|
    safe_popStack.bind <| safe_popStack.bind <| safe_popStack.bind <| (safe_pushNum _).done

theorem safe_dropSignatures {k : ℕ} (hi : isig + k ≤ n + 1) (hp : 0 < isig)
    (scriptCode : CScript) :
    Safe sigversion init n (dropSignatures flags sigversion k isig scriptCode) n := by
  induction k generalizing isig scriptCode with
  | zero => exact safe_pure _
  | succ k ih =>
    exact (safe_stackTop (by omega)).bind <|
      (safe_rule (meets_dropSignature _ _)).bind <| ih (by omega) (Nat.succ_pos _) _

theorem safe_multisigLoop {nKeysCount nSigsCount ikey : ℕ} (hi : ikey + nKeysCount ≤ n + 1)
    (his : isig + nSigsCount ≤ n + 1) (hk : 0 < ikey) (hs : 0 < isig) (scriptCode : CScript) :
    Safe sigversion init n
      (multisigLoop crypto flags checker sigversion scriptCode nKeysCount nSigsCount ikey isig)
      n := by
  induction nKeysCount generalizing nSigsCount ikey isig with
  | zero => cases nSigsCount <;> exact safe_pure _
  | succ nKeysCount ih =>
    cases nSigsCount with
    | zero => exact safe_pure _
    | succ nSigsCount =>
      refine (safe_stackTop (by omega)).bind fun {v} =>
        (safe_stackTop (by omega)).bind fun {vpk} =>
          (safe_rule (meets_checkSignatureEncoding _)).bind <|
            (safe_rule (meets_checkPubKeyEncoding _)).bind <| ?_
      refine safe_ite (safe_pure _) (ih (by omega) ?_ (by omega) ?_)
      all_goals split_ifs <;> omega

theorem safe_cleanUp (fSuccess : Bool) (i ikey2 : ℕ) :
    Safe sigversion init (n + i) (cleanUp flags fSuccess i ikey2) n := by
  induction i generalizing ikey2 with
  | zero => exact safe_pure _
  | succ i ih =>
    exact (safe_checkTopEmpty _ _).bind <| safe_popStack.bind <| ih _

theorem safe_countKeys (nKeysCount : ℕ) : Safe sigversion init n (countKeys nKeysCount) n :=
  Safe.bind (safe_modify fun _ hs => hs) <| safe_get.bind <| safe_check _ _

theorem safe_evalCheckMultiSig :
    Safe sigversion init n (evalCheckMultiSig crypto flags checker sigversion verify) 0 := by
  refine (safe_check _ _).bind <| (safe_needs 1).bind <|
    (safe_scriptNum (by decide)).bind fun {nKeys} => (safe_check _ _).bind <|
      (safe_countKeys _).bind <| (safe_needs _).bind <|
        (safe_scriptNum (by omega)).bind fun {nSigs} => (safe_check _ _).bind <|
          (safe_needs _).bind <| safe_get.bind <|
            (safe_dropSignatures (by omega) (by omega) _).bind fun {scriptCode} =>
              (safe_multisigLoop (by omega) (by omega) (by omega) (by omega) scriptCode).bind
                fun {fSuccess} => ?_
  refine Safe.bind (m := 1) ((safe_cleanUp fSuccess _ _).mono (by omega) le_rfl) <| ?_
  exact (safe_needs 1).bind <| (safe_checkTopEmpty _ _).bind <|
    safe_popStack.bind <| (safe_pushBool _).bind <| safe_verifyResult _ _ _

theorem safe_evalOpcode (fExec : Bool) (op : ScriptOp) :
    Safe sigversion init n (evalOpcode crypto flags checker sigversion fExec op) 0 := by
  unfold evalOpcode
  cases Opcode.ofByte op.opcode with
  | opN k => exact (safe_pushNum k).done
  | opNop => exact (safe_pure ()).done
  | opCheckLockTimeVerify => exact safe_evalCheckLockTimeVerify
  | opCheckSequenceVerify => exact safe_evalCheckSequenceVerify
  | opNop1 | opNop4 | opNop5 | opNop6 | opNop7 | opNop8 | opNop9 | opNop10 =>
    exact safe_evalUpgradableNop.done
  | opIf | opNotIf => exact safe_evalIf fExec _
  | opElse => exact safe_evalElse.done
  | opEndIf => exact safe_evalEndIf.done
  | opVerify => exact safe_evalVerify
  | opToAltStack => exact safe_evalToAltStack
  | opFromAltStack => exact safe_evalFromAltStack
  | op2Drop => exact safe_eval2Drop
  | op2Dup => exact safe_eval2Dup
  | op3Dup => exact safe_eval3Dup
  | op2Over => exact safe_eval2Over
  | op2Rot => exact safe_eval2Rot
  | op2Swap => exact safe_eval2Swap
  | opIfDup => exact safe_evalIfDup
  | opDepth => exact safe_evalDepth
  | opDrop => exact safe_evalDrop
  | opDup => exact safe_evalDup
  | opNip => exact safe_evalNip
  | opOver => exact safe_evalOver
  | opPick | opRoll => exact safe_evalPick _
  | opRot => exact safe_evalRot
  | opSwap => exact safe_evalSwap
  | opTuck => exact safe_evalTuck
  | opSize => exact safe_evalSize
  | opEqual | opEqualVerify => exact safe_evalEqual _
  | op1Add => exact safe_evalNumeric1 fun _ => meets_addAssign_one
  | op1Sub => exact safe_evalNumeric1 fun _ => meets_subAssign_one
  | opNegate => exact safe_evalNumeric1 fun _ => meets_neg
  | opAbs =>
    refine safe_evalNumeric1 fun bn hbn => ?_
    split
    · exact meets_neg hbn
    · trivial
  | opNot | op0NotEqual => exact safe_evalNumeric1 fun _ _ => trivial
  | opAdd | opSub | opMin | opMax | opBoolAnd | opBoolOr | opNumEqual | opNumNotEqual | opLessThan
  | opGreaterThan | opLessThanOrEqual | opGreaterThanOrEqual => exact (safe_evalNumeric2 _).done
  | opNumEqualVerify => exact safe_evalNumEqualVerify
  | opWithin => exact safe_evalWithin
  | opRipemd160 | opSha1 | opSha256 | opHash160 | opHash256 => exact safe_evalHash _
  | opCodeSeparator => exact (safe_evalCodeSeparator _).done
  | opCheckSig | opCheckSigVerify => exact safe_evalCheckSig _
  | opCheckSigAdd => exact safe_evalCheckSigAdd
  | opCheckMultiSig | opCheckMultiSigVerify => exact safe_evalCheckMultiSig _
  | _ => exact safe_throw _

theorem safe_execute (fExec : Bool) (op : ScriptOp) :
    Safe sigversion init n (execute crypto flags checker sigversion fExec op) 0 :=
  Meets.ite (fun hp => safe_evalPush (of_decide_eq_true (Bool.and_eq_true_iff.mp hp).2))
    fun _ => safe_ite (safe_evalOpcode fExec op) (safe_pure ()).done

theorem safe_checkOp (op : ScriptOp) : Safe sigversion init n (checkOp flags sigversion op) n := by
  refine (safe_check _ _).bind <| Safe.bind (m := n) (safe_ite ?_ (safe_pure ())) <|
    (safe_check _ _).bind <| safe_rule (meets_checkIf_check _ _ _)
  exact Safe.bind (safe_modify fun _ hs => hs) <| safe_get.bind <| safe_check _ _

theorem safe_evalStep (op : ScriptOp) :
    Safe sigversion init n (evalStep crypto flags checker sigversion op) 0 :=
  Safe.bind (safe_modify fun _ hs => hs) <| safe_get.bind <| (safe_checkOp op).bind <|
    (safe_execute _ op).bind <| safe_get.bind <| safe_check _ _

theorem safe_evalOps (ops : List (Option ScriptOp)) :
    Safe sigversion init 0 (evalOps crypto flags checker sigversion ops) 0 := by
  induction ops with
  | nil => exact safe_pure _
  | cons op ops ih =>
    cases op with
    | none => exact safe_throw _
    | some op => exact (safe_evalStep op).bind <| ih

end Opcodes

section Evaluation
variable {crypto : Crypto} {flags : ScriptFlags} {checker : SignatureChecker}
  {sigversion : SigVersion}

theorem meets_catchAll {α : Type} {init : Bool} {x : Except ScriptHalt α}
    (hx : x.Meets (EvalFailure sigversion init) fun _ => True)
    (hi : sigversion = .tapscript → init) :
    IsRule (catchAll x) := by
  match x, hx with
  | .ok _, _ | .error (.error _), _ | .error (.scriptnumError _), _ => trivial
  | .error .assertion, ⟨hs, hf⟩ => rw [hi hs] at hf; cases hf

variable {execdata : ScriptExecutionData} {program : Valtype}

theorem meets_evalScript (hs : sigversion ≠ .taproot)
    (hi : sigversion = .tapscript → execdata.validationWeightLeftInit)
    (stack : List Valtype) (script : CScript) :
    IsRule (evalScript crypto flags checker sigversion stack script execdata) := by
  refine (meets_assert (decide_eq_true hs)).bind fun _ _ => (meets_check _ _).bind fun _ _ => ?_
  refine (meets_catchAll ((safe_evalOps script.ops _ ⟨rfl, Nat.zero_le _⟩).imp fun _ _ => trivial)
    hi).bind fun _ _ => ?_
  exact (meets_check _ _).bind fun _ _ => trivial

theorem meets_evalBase (stack : List Valtype) (script : CScript) :
    IsRule (evalBase crypto flags checker stack script) :=
  Except.Meets.bind (meets_evalScript (by decide) (by decide) stack script) fun _ _ => trivial

def NoArguments (s : EvalState) : Prop := s.stack = [] ∧ s.vfExec = {}

theorem checkOp_noArguments (op : ScriptOp) :
    Meets (fun _ => True) NoArguments (checkOp flags sigversion op) fun _ => NoArguments := by
  have hl : ∀ {x : Except ScriptHalt Unit},
      Meets (fun _ => True) NoArguments (liftM x : EvalM Unit) fun _ => NoArguments := by
    intro x
    refine (meets_lift (Q := fun _ => True) ?_).post fun _ _ h => h.2
    cases x <;> trivial
  refine Meets.bind hl fun _ => Meets.bind (Q := fun _ => NoArguments) (Meets.ite (fun _ => ?_)
    fun _ => (meets_pure ()).post fun _ _ h => h.2) fun _ => hl.bind fun _ => hl
  refine Meets.bind (Q := fun _ => NoArguments) (meets_modify fun s hs => hs) fun _ => ?_
  exact meets_get.bind fun s => hl.pre fun _ h => h.2

theorem evalStep_hash160 (pc : CScript) : Meets (fun _ => True) NoArguments
      (evalStep crypto flags checker sigversion ⟨opHash160Byte, [], pc⟩) fun _ _ => False := by
  refine Meets.bind (Q := fun _ => NoArguments) (meets_modify fun s hs => hs) fun _ => ?_
  refine meets_get.bind fun s => Meets.pre (P := fun s' => NoArguments s ∧ NoArguments s') ?_ ?_
  · refine Meets.of_fact fun hs => (checkOp_noArguments _).bind fun _ => ?_
    refine Meets.bind (Q := fun _ _ => False) ?_ fun _ _ h => h.elim
    rw [hs.2]
    -- `OP_HASH160` asks for one argument
    refine Meets.bind (Q := fun _ _ => False) ?_ fun _ _ h => h.elim
    rintro s' ⟨hst, -⟩
    simp [needs, hst, check, Except.Meets, liftM, monadLift, MonadLift.monadLift]
  · rintro s' ⟨rfl, hs⟩
    exact ⟨hs, hs⟩

theorem evalBase_scriptHash {script : CScript} (h : script.isPayToScriptHash)
    {stack : List Valtype} : evalBase crypto flags checker [] script ≠ .ok stack := by
  cases script with
  | nil => cases h
  | cons b pc =>
    simp only [CScript.isPayToScriptHash, Bool.and_eq_true, decide_eq_true_eq] at h
    obtain rfl : b = opHash160Byte := h.1.1.2
    intro ho
    obtain ⟨r, hr, -⟩ := bind_eq_ok.mp ho
    obtain ⟨_, -, hr⟩ := bind_eq_ok.mp hr
    obtain ⟨_, -, hr⟩ := bind_eq_ok.mp hr
    obtain ⟨s, hs, -⟩ := bind_eq_ok.mp hr
    have hop : CScript.ops (opHash160Byte :: pc) = some ⟨opHash160Byte, [], pc⟩ :: CScript.ops pc :=
      ops_of_getScriptOp rfl
    rw [catchAll_eq_ok, hop] at hs
    obtain ⟨t, ht, -⟩ := bind_eq_ok.mp hs
    exact Except.Meets.of_ok ht (evalStep_hash160 pc _ ⟨rfl, rfl⟩)

theorem meets_runWitnessScript (hs : sigversion ≠ .taproot)
    (hi : sigversion = .tapscript → execdata.validationWeightLeftInit)
    (stack : List Valtype) (scriptPubKey : CScript) :
    (runWitnessScript crypto flags checker stack scriptPubKey sigversion execdata).Meets
      IsScriptError fun _ => True :=
  (meets_check _ _).bind fun _ _ => (meets_evalScript hs hi stack scriptPubKey).bind fun _ _ =>
    (meets_check _ _).bind fun _ _ => meets_rule _ _

theorem meets_findOpSuccess (ops : List (Option ScriptOp)) : IsRule (findOpSuccess flags ops) := by
  induction ops with
  | nil => trivial
  | cons op ops ih =>
    cases op with
    | none => trivial
    | some op =>
      simp only [findOpSuccess]
      split
      · exact Except.Meets.bind (meets_checkIf fun _ => trivial) fun _ _ => trivial
      · exact ih

theorem meets_executeWitnessScript (hs : sigversion ≠ .taproot)
    (hi : sigversion = .tapscript → execdata.validationWeightLeftInit)
    (stack : List Valtype) (scriptPubKey : CScript) :
    (executeWitnessScript crypto flags checker stack scriptPubKey sigversion execdata).Meets
      IsScriptError fun _ => True := by
  unfold executeWitnessScript
  split
  · rename_i htap
    subst htap
    exact (meets_findOpSuccess _).bind fun _ _ => meets_checkIf fun _ =>
      (meets_check _ _).bind fun _ _ => meets_runWitnessScript hs hi stack scriptPubKey
  · exact meets_runWitnessScript hs hi stack scriptPubKey

theorem meets_verifyWitnessV0 (program : Valtype) (stack : List Valtype) :
    IsRule (verifyWitnessV0 crypto flags checker program stack) := by
  have he : ∀ stack scriptPubKey, IsRule (executeWitnessScript crypto flags checker stack
      scriptPubKey .witnessV0 {}) :=
    meets_executeWitnessScript (by decide) (by decide)
  unfold verifyWitnessV0
  split
  · cases stack with
    | nil => trivial
    | cons scriptBytes stack => exact (meets_check _ _).bind fun _ _ => he _ _
  · split
    · exact (meets_check _ _).bind fun _ _ => he _ _
    · trivial

theorem meets_verifyTaprootCommitment {control : Valtype} (tapleafHash : Valtype)
    (hm : taprootControlBaseSize ≤ control.length) (hma : control.length ≤ taprootControlMaxSize)
    (hn : (control.length - taprootControlBaseSize) % taprootControlNodeSize = 0)
    (hp : program.length = 32) :
    IsRule (verifyTaprootCommitment crypto control program tapleafHash) := by
  refine (meets_assert (decide_eq_true hm)).bind fun _ _ =>
    (meets_assert (decide_eq_true hp)).bind fun _ _ =>
      Except.Meets.ite (fun _ => Except.Meets.bind (P := fun _ => True) ?_ fun _ _ => trivial)
        fun _ => trivial
  exact (meets_assert (decide_eq_true hm)).bind fun _ _ =>
    (meets_assert (decide_eq_true hma)).bind fun _ _ =>
      (meets_assert (decide_eq_true hn)).bind fun _ _ => trivial

theorem meets_verifyTaprootLeaf (witnessLen : ℕ) (control : Valtype) (script : CScript)
    (stack : List Valtype) (execdata : ScriptExecutionData) :
    (verifyTaprootLeaf crypto flags checker witnessLen control script stack execdata).Meets
      IsScriptError fun _ => True := by
  unfold verifyTaprootLeaf
  split
  · exact meets_executeWitnessScript (by decide) (fun _ => rfl) _ _
  · exact meets_checkIf fun _ => trivial

theorem meets_verifyTaprootSpend (hp : program.length = 32) (witnessLen : ℕ)
    (execdata : ScriptExecutionData) (stack : List Valtype) :
    (verifyTaprootSpend crypto flags checker witnessLen program execdata stack).Meets
      IsScriptError fun _ => True := by
  match stack with
  | [] => trivial
  | [sig] => exact meets_mapError _
  | control :: script :: stack =>
    refine (meets_check _ _).bind fun _ hs => ?_
    simp only [Bool.and_eq_true, decide_eq_true_eq] at hs
    exact (meets_verifyTaprootCommitment _ hs.1.1 hs.1.2 hs.2 hp).bind fun _ _ =>
      (meets_check _ _).bind fun _ _ => meets_verifyTaprootLeaf _ _ _ _ _

theorem meets_verifyWitnessProgram (witness : List Valtype) (witversion : ℕ) (program : Valtype)
    (isP2sh : Bool) :
    (verifyWitnessProgram crypto flags checker witness witversion program isP2sh).Meets
      IsScriptError fun _ => True := by
  unfold verifyWitnessProgram
  split
  · exact meets_verifyWitnessV0 _ _
  · split
    · rename_i ht
      simp only [Bool.and_eq_true, decide_eq_true_eq] at ht
      exact meets_checkIf fun _ => meets_verifyTaprootSpend ht.1.2 _ _ _
    · exact meets_checkIf fun _ => trivial

theorem meets_followWitnessProgram (script : CScript) (exact : Bool) (malleated : ScriptError)
    (isP2sh : Bool) (witness : List Valtype) (s : VerifyState) :
    (followWitnessProgram crypto flags checker script exact malleated isP2sh witness s).Meets
      IsScriptError fun _ => True := by
  unfold followWitnessProgram
  split
  · trivial
  · exact (meets_check _ _).bind fun _ _ => (meets_verifyWitnessProgram _ _ _ _).bind fun _ _ =>
      trivial

theorem meets_evalBoth (scriptSig scriptPubKey : CScript) :
    (evalBoth crypto flags checker scriptSig scriptPubKey).Meets IsScriptError
      fun r => scriptPubKey.isPayToScriptHash → r.1 ≠ [] := by
  refine (meets_checkIf_check _ _ _).bind fun _ _ => (meets_evalBase _ _).bind fun s _ => ?_
  cases hs : evalBase crypto flags checker s scriptPubKey with
  | error e => exact (meets_evalBase _ _).error_of hs
  | ok stack =>
    refine (meets_check _ _).bind fun _ _ hp2sh he => ?_
    obtain rfl : s = [] := he
    exact evalBase_scriptHash hp2sh hs

theorem meets_verifyScriptHash {scriptPubKey : CScript} {stackCopy : List Valtype}
    (hs : scriptPubKey.isPayToScriptHash → stackCopy ≠ []) (scriptSig : CScript)
    (witness : List Valtype) (s : VerifyState) :
    (verifyScriptHash crypto flags checker scriptSig scriptPubKey witness stackCopy s).Meets
      IsScriptError fun _ => True := by
  unfold verifyScriptHash
  split
  · rename_i hp2sh
    rw [Bool.and_eq_true] at hp2sh
    cases stackCopy with
    | nil => exact absurd rfl (hs hp2sh.2)
    | cons pubKey2 stack =>
      refine Except.Meets.bind (P := fun _ => True) ?_ fun r _ => ?_
      · exact (meets_check _ _).bind fun _ _ => (meets_evalBase stack pubKey2).bind fun _ _ =>
          (meets_check _ _).bind fun _ _ => trivial
      · exact Except.Meets.ite (fun _ => meets_followWitnessProgram _ _ _ _ _ _) fun _ => trivial
  · trivial

theorem meets_verifyScript (h : flags.WellFormed) (scriptSig scriptPubKey : CScript)
    (witness : Option (List Valtype)) :
    IsRule (verifyScript crypto flags checker scriptSig scriptPubKey witness) := by
  refine (meets_evalBoth _ _).bind fun e he => ?_
  refine Except.Meets.bind (P := fun _ => True) ?_ fun bare _ => ?_
  · exact Except.Meets.ite (fun _ => meets_followWitnessProgram _ _ _ _ _ _) fun _ => trivial
  refine (meets_verifyScriptHash he _ _ _).bind fun final _ => ?_
  refine (meets_checkIf fun hc => ?_).bind fun _ _ => meets_checkIf fun hw => ?_
  · exact (meets_assert (h.p2sh_of_cleanStack hc)).bind fun _ _ =>
      (meets_assert (h.witness_of_cleanStack hc)).bind fun _ _ => meets_rule _ _
  · exact (meets_assert (h.p2sh_of_witness hw)).bind fun _ _ => meets_rule _ _

end Evaluation

/-- `VerifyScript` with flags that may be combined returns, and if it returns false it has set an
error. Whatever `EvalScript` is called with, its loop throws for script numbers only: no access to
the stacks is out of range and none is popped while it is empty. -/
theorem verifyScript_safe (crypto : Crypto) (flags : ScriptFlags) (checker : SignatureChecker) :
    (flags.WellFormed → ∀ scriptSig scriptPubKey witness halt,
      verifyScript crypto flags checker scriptSig scriptPubKey witness = .error halt →
        ∃ e, halt = .error e) ∧
    ∀ sigversion script s halt,
      (evalOps crypto flags checker sigversion (CScript.ops script)).run s = .error halt →
        halt ≠ .outOfRange ∧ (∀ what, halt ≠ .runtimeError what) ∧
          (halt = .assertion → sigversion = .tapscript ∧
            s.execdata.validationWeightLeftInit = false) := by
  constructor
  · intro hf scriptSig scriptPubKey witness halt h
    have hh := (meets_verifyScript hf scriptSig scriptPubKey witness).error_of h
    match halt, hh with
    | .error e, _ => exact ⟨e, rfl⟩
  · intro sigversion script s halt h
    have hh := (safe_evalOps (CScript.ops script) s ⟨rfl, Nat.zero_le _⟩).error_of h
    match halt, hh with
    | .error e, _ | .scriptnumError what, _ => exact ⟨nofun, nofun, nofun⟩
    | .assertion, ha => exact ⟨nofun, nofun, fun _ => ha⟩

def scriptHashOutput : CScript :=
  CScript.push [opHash160Byte] (List.replicate 20 0) ++ [opEqualByte]

/-- A spend without the script: `OP_HASH160` finds the stack empty. -/
theorem verifyScript_safe_scriptHash :
    ∃ e, verifyScript plainCrypto 0x1fffff keyChecker [] scriptHashOutput none =
      .error (.error e) := by
  obtain ⟨e, he⟩ := (verifyScript_safe plainCrypto 0x1fffff keyChecker).1
    ⟨by decide, by decide, by decide⟩ [] scriptHashOutput none _ rfl
  exact ⟨e, congrArg Except.error he⟩

end Palladium
