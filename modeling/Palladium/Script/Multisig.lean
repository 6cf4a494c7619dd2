import Mathlib.Data.List.Forall2
import Mathlib.Tactic.IntervalCases
import Palladium.Script.Execution

/-! # Scripts of several signatures

`OP_CHECKMULTISIG` on the lists of its arguments, and the instructions of a multisig script.
-/

namespace Palladium
open EvalM Except List StateT
section Loop
variable (crypto : Crypto) (flags : ScriptFlags) (checker : SignatureChecker)
  (sigversion : SigVersion)

/-- `multisigLoop` on the keys and signatures that are left, which come from the top. -/
def matchSigs (scriptCode : CScript) : (keys sigs : List Valtype) → Except ScriptHalt Bool
  | _, [] => .ok true
  | [], _ :: _ => .ok false
  | key :: keys, sig :: sigs => do
    checkSignatureEncoding crypto flags sig
    checkPubKeyEncoding flags sigversion key
    if checker.checkSig sig key scriptCode sigversion then
      if keys.length < sigs.length then return false else matchSigs scriptCode keys sigs
    else
      if keys.length < sigs.length + 1 then return false else matchSigs scriptCode keys (sig :: sigs)

def dropAll : (sigs : List Valtype) → (scriptCode : CScript) → Except ScriptHalt CScript
  | [], scriptCode => .ok scriptCode
  | sig :: sigs, scriptCode => do
    let scriptCode ← dropSignature flags sigversion sig scriptCode
    dropAll sigs scriptCode

/-- How many keys and signatures `OP_CHECKMULTISIG` has, and the script that is signed. -/
structure MultisigArgs where
  nKeysCount : ℕ
  nSigsCount : ℕ
  scriptCode : CScript
  deriving DecidableEq, Repr

/-- The part of `evalCheckMultiSig` before its loop. -/
def multisigArgs : EvalM MultisigArgs := do
  check (sigversion ≠ .tapscript) .tapscriptCheckMultisig
  needs 1
  let nKeys ← scriptNum flags 1
  check (0 ≤ nKeys.getint && nKeys.getint ≤ maxPubkeysPerMultisig) .pubkeyCount
  let nKeysCount := nKeys.getint.toNat
  countKeys nKeysCount
  needs (2 + nKeysCount)
  let nSigs ← scriptNum flags (2 + nKeysCount)
  check (0 ≤ nSigs.getint && nSigs.getint ≤ nKeysCount) .sigCount
  let nSigsCount := nSigs.getint.toNat
  needs (3 + nKeysCount + nSigsCount)
  let scriptCode ←
    dropSignatures flags sigversion nSigsCount (3 + nKeysCount) (← get).pbegincodehash
  return ⟨nKeysCount, nSigsCount, scriptCode⟩

def finishMultisig (verify fSuccess : Bool) (nKeysCount nSigsCount : ℕ) : EvalM Unit := do
  cleanUp flags fSuccess (2 + nKeysCount + nSigsCount) (nKeysCount + 2)
  needs 1
  checkTopEmpty (flags.has .nullDummy) .sigNullDummy
  popStack
  pushBool fSuccess
  verifyResult verify fSuccess .checkMultisigVerify

variable {crypto flags checker sigversion} {s t : EvalState} {u : Unit}
  {n isig ikey nKeys nSigs : ℕ} {code' scriptCode : CScript}

theorem take_drop_succ {l : List Valtype} {i : ℕ} (hi : 1 ≤ i) (h : i + (n + 1) ≤ l.length + 1) :
    ∃ v, l[i - 1]? = some v ∧ (l.drop (i - 1)).take (n + 1) = v :: (l.drop i).take n := by
  have hl : i - 1 < l.length := by omega
  refine ⟨l[i - 1], List.getElem?_eq_getElem hl, ?_⟩
  rw [drop_eq_getElem_cons hl, take_succ_cons, Nat.sub_add_cancel hi]

theorem ends_dropSignatures (hp : 1 ≤ isig) (h : isig + n ≤ s.stack.length + 1) :
    Ends (dropSignatures flags sigversion n isig scriptCode) s code' t ↔
      dropAll flags sigversion ((s.stack.drop (isig - 1)).take n) scriptCode = .ok code' ∧ s = t := by
  induction n generalizing isig scriptCode with
  | zero => simp [dropSignatures, dropAll]
  | succ n ih =>
    obtain ⟨v, hv, ht⟩ := take_drop_succ hp h
    have hr := fun code => @ih (isig + 1) code (by omega) (by omega)
    rw [Nat.add_sub_cancel] at hr
    rw [ht, dropAll, bind_eq_ok]
    simp only [dropSignatures, ends_bind, ends_stackTop, hv, ends_lift]
    constructor
    · rintro ⟨_, _, ⟨⟨rfl⟩, rfl⟩, code, _, ⟨hc, rfl⟩, he⟩
      obtain ⟨hd, rfl⟩ := (hr code).mp he
      exact ⟨⟨code, hc, hd⟩, rfl⟩
    · rintro ⟨⟨code, hc, hd⟩, rfl⟩
      exact ⟨v, s, ⟨rfl, rfl⟩, code, s, ⟨hc, rfl⟩, (hr code).mpr ⟨hd, rfl⟩⟩

theorem run_multisigLoop (hik : 1 ≤ ikey) (hi : 1 ≤ isig)
    (hke : ikey + nKeys ≤ s.stack.length + 1) (hs : isig + nSigs ≤ s.stack.length + 1) :
    (multisigLoop crypto flags checker sigversion scriptCode nKeys nSigs ikey isig).run s =
      (matchSigs crypto flags checker sigversion scriptCode ((s.stack.drop (ikey - 1)).take nKeys)
        ((s.stack.drop (isig - 1)).take nSigs)).map (·, s) := by
  induction nKeys generalizing nSigs ikey isig with
  | zero =>
    cases nSigs with
    | zero => rfl
    | succ nSigs =>
      obtain ⟨v, hv, ht⟩ := take_drop_succ hi hs
      simp [multisigLoop, matchSigs, ht]; rfl
  | succ nKeys ih =>
    cases nSigs with
    | zero =>
      rw [take_zero, multisigLoop, matchSigs]
      rfl
    | succ nSigs =>
      obtain ⟨key, hk, hke'⟩ := take_drop_succ hik hke
      obtain ⟨sig, hsi, hs'⟩ := take_drop_succ hi hs
      have hl : ((s.stack.drop ikey).take nKeys).length = nKeys := by simp; omega
      have hls : ((s.stack.drop isig).take nSigs).length = nSigs := by simp; omega
      have hm := @ih (isig + 1) (ikey + 1) nSigs (by omega)
        (by omega) (by omega) (by omega)
      have hn := @ih isig (ikey + 1) (nSigs + 1) (by omega)
        (by omega) (by omega) (by omega)
      rw [Nat.add_sub_cancel] at hm hn
      rw [hs'] at hn
      rw [hke', hs', matchSigs, multisigLoop]
      simp only [hl, hls]
      rw [(ends_stackTop.mpr ⟨hsi, rfl⟩).run_bind, (ends_stackTop.mpr ⟨hk, rfl⟩).run_bind]
      cases checkSignatureEncoding crypto flags sig with
      | error e => rfl
      | ok _ =>
        cases checkPubKeyEncoding flags sigversion key with
        | error e => rfl
        | ok _ =>
          cases ho : checker.checkSig sig key scriptCode sigversion
          · by_cases hlt : nKeys < nSigs + 1
            · simp only [hlt, if_true, if_false, Bool.false_eq_true]
              rfl
            · simp only [hlt, if_false, Bool.false_eq_true]
              exact hn
          · by_cases hlt : nKeys < nSigs
            · simp only [hlt, if_true]
              rfl
            · simp only [hlt, if_true, if_false]
              exact hm

theorem ends_multisigLoop {b : Bool} (hi : 1 ≤ ikey) (his : 1 ≤ isig)
    (hk : ikey + nKeys ≤ s.stack.length + 1) (hs : isig + nSigs ≤ s.stack.length + 1) :
    Ends (multisigLoop crypto flags checker sigversion scriptCode nKeys nSigs ikey isig) s b t ↔
      matchSigs crypto flags checker sigversion scriptCode ((s.stack.drop (ikey - 1)).take nKeys)
        ((s.stack.drop (isig - 1)).take nSigs) = .ok b ∧ s = t := by
  rw [ends_iff_run, run_multisigLoop hi his hk hs]
  cases matchSigs crypto flags checker sigversion scriptCode _ _ <;> simp [Except.map]

theorem evalCheckMultiSig_eq (verify : Bool) :
    evalCheckMultiSig crypto flags checker sigversion verify = (do
      let args ← multisigArgs flags sigversion
      let fSuccess ← multisigLoop crypto flags checker sigversion args.scriptCode args.nKeysCount
        args.nSigsCount 2 (3 + args.nKeysCount)
      finishMultisig flags verify fSuccess args.nKeysCount args.nSigsCount) := by
  simp [evalCheckMultiSig, multisigArgs, finishMultisig]

@[simp] theorem ends_scriptNum {i : ℕ} {n : CScriptNum} :
    Ends (scriptNum flags i) s n t ↔ ∃ vch, s.stack[i - 1]? = some vch ∧
      CScriptNum.ofVch vch (flags.has .minimalData) CScriptNum.nDefaultMaxNumSize = .ok n ∧ s = t := by
  simp [scriptNum, numTop, and_left_comm, and_comm]

@[simp] theorem ends_countKeys {n : ℕ} :
    Ends (countKeys n) s u t ↔ s.nOpCount + n ≤ maxOpsPerScript ∧
      { s with nOpCount := s.nOpCount + n } = t := by
  simp [countKeys, and_comm]

theorem ofVch_small (hp : 1 ≤ n) (hl : n ≤ 16) (fRequireMinimal : Bool) :
    CScriptNum.ofVch [UInt8.ofNat n] fRequireMinimal CScriptNum.nDefaultMaxNumSize = .ok (n : ℤ) := by
  interval_cases n <;> cases fRequireMinimal <;> rfl

theorem getint_small (hl : n ≤ 16) : CScriptNum.getint (n : ℤ) = n := by
  unfold CScriptNum.getint
  omega

theorem ends_multisigArgs {m : ℕ} {keys st : List Valtype} {args : MultisigArgs}
    (hs : s.stack = [UInt8.ofNat keys.length] :: keys.reverse ++ [UInt8.ofNat m] :: st)
    (hm : 1 ≤ m) (hmn : m ≤ keys.length) (hn : keys.length ≤ 16) :
    Ends (multisigArgs flags sigversion) s args t ↔
      sigversion ≠ .tapscript ∧ s.nOpCount + keys.length ≤ maxOpsPerScript ∧ m + 1 ≤ st.length ∧
      dropAll flags sigversion (st.take m) s.pbegincodehash = .ok args.scriptCode ∧
      args.nKeysCount = keys.length ∧ args.nSigsCount = m ∧
      { s with nOpCount := s.nOpCount + keys.length } = t := by
  have hl : s.stack.length = keys.length + 2 + st.length := by
    simp [hs]
    omega
  have hnk : ∀ {n : CScriptNum} {w : EvalState},
      Ends (scriptNum flags 1) s n w ↔ (keys.length : ℤ) = n ∧ s = w := by
    simp [hs, ofVch_small (hm.trans hmn) hn]
  have hns : ∀ {k : ℕ} {n : CScriptNum} {w : EvalState},
      Ends (scriptNum flags (2 + keys.length)) { s with nOpCount := k } n w ↔
        (m : ℤ) = n ∧ { s with nOpCount := k } = w := by
    have hg : s.stack[2 + keys.length - 1]? = some [UInt8.ofNat m] := by
      rw [hs, show 2 + keys.length - 1 = keys.length + 1 by omega]
      simp
    simp only [ends_scriptNum, hg, Option.some.injEq]
    simp [ofVch_small hm (hmn.trans hn)]
  have hsi : s.stack.drop (3 + keys.length - 1) = st := by
    rw [hs, show 3 + keys.length - 1 = keys.length + 1 + 1 by omega, cons_append,
      drop_succ_cons, drop_append]
    simp
  have hma : (keys.length : ℤ) ≤ maxPubkeysPerMultisig := by
    rw [show maxPubkeysPerMultisig = 20 from rfl]
    omega
  have hdr : ∀ {k : ℕ} {code : CScript}, 3 + keys.length + m ≤ keys.length + 2 + st.length →
      (Ends (dropSignatures flags sigversion m (3 + keys.length) s.pbegincodehash)
        { s with nOpCount := k } code t ↔
      dropAll flags sigversion (st.take m) s.pbegincodehash = .ok code ∧
        { s with nOpCount := k } = t) := by
    intro k code h
    rw [ends_dropSignatures (by omega) (by simp only [hl]; omega)]
    simp only [hsi]
  obtain ⟨k, n, code⟩ := args
  have hp : Ends (multisigArgs flags sigversion) s ⟨k, n, code⟩ t ↔
      sigversion ≠ .tapscript ∧ s.nOpCount + keys.length ≤ maxOpsPerScript ∧
      3 + keys.length + m ≤ keys.length + 2 + st.length ∧
      Ends (dropSignatures flags sigversion m (3 + keys.length) s.pbegincodehash)
        { s with nOpCount := s.nOpCount + keys.length } code t ∧ keys.length = k ∧ m = n := by
    simp [multisigArgs, -ends_scriptNum, hnk, hns, hl, getint_small hn,
      getint_small (hmn.trans hn), hma, hmn, show 1 ≤ keys.length + 2 + st.length by omega,
      show 2 + keys.length ≤ keys.length + 2 + st.length by omega]
  rw [hp]
  constructor
  · rintro ⟨hsv, ho, hle, he, rfl, rfl⟩
    obtain ⟨hd, rfl⟩ := (hdr hle).mp he
    exact ⟨hsv, ho, by omega, hd, rfl, rfl, rfl⟩
  · rintro ⟨hsv, ho, hle, hd, rfl, rfl, rfl⟩
    exact ⟨hsv, ho, by omega, (hdr (by omega)).mpr ⟨hd, rfl⟩, rfl, rfl⟩

theorem findAndDelete_of_zero {script b : CScript} (h : (findAndDelete script b).1 = 0) :
    (findAndDelete script b).2 = script := by
  unfold findAndDelete at h ⊢
  split_ifs at h ⊢ with hb
  · rfl
  · exact if_neg (by simpa using h)

theorem dropSignature_eq_ok (hc : flags.has .constScriptCode) {sig : Valtype} :
    dropSignature flags sigversion sig scriptCode = .ok code' ↔
      (sigversion = .base → (findAndDelete scriptCode (CScript.push [] sig)).1 = 0) ∧
        scriptCode = code' := by
  by_cases hb : sigversion = .base
  · simp only [dropSignature, hb, if_true, hc, bind_eq_ok_punit, checkIf_eq_ok,
      check_eq_ok, decide_eq_true_eq, forall_const, pure_eq_ok]
    refine and_congr_right fun h => ?_
    rw [findAndDelete_of_zero h]
  · simp [dropSignature, hb, pure_eq_ok]

theorem dropAll_eq_ok (hc : flags.has .constScriptCode) {sigs : List Valtype} :
    dropAll flags sigversion sigs scriptCode = .ok code' ↔
      (sigversion = .base → ∀ sig ∈ sigs, (findAndDelete scriptCode (CScript.push [] sig)).1 = 0) ∧
        scriptCode = code' := by
  induction sigs with
  | nil => simp [dropAll]
  | cons sig sigs ih =>
    rw [dropAll, bind_eq_ok]
    simp only [dropSignature_eq_ok hc, forall_mem_cons]
    constructor
    · rintro ⟨_, ⟨hsi, rfl⟩, hr⟩
      obtain ⟨hs, rfl⟩ := ih.mp hr
      exact ⟨fun hb => ⟨hsi hb, hs hb⟩, rfl⟩
    · rintro ⟨ha, rfl⟩
      exact ⟨scriptCode, ⟨fun hb => (ha hb).1, rfl⟩, ih.mpr ⟨fun hb => (ha hb).2, rfl⟩⟩
end Loop

variable {op : ScriptOp} {pc : CScript} {keys : List Valtype}

theorem getScriptOp_spec (h : getScriptOp pc = some op) :
    op.pc <:+ pc ∧ (op.opcode ≤ opPushData4 ∨ op.vch = []) := by
  cases pc with
  | nil => cases h
  | cons opcode pc =>
    obtain ⟨ho, hs⟩ := getScriptOp_cons h
    refine ⟨hs.trans (suffix_cons _ _), (UInt8.le_or_lt op.opcode opPushData4).imp_right ?_⟩
    intro hl
    rw [ho] at hl
    rw [getScriptOp_opcode hl] at h
    cases h
    rfl

theorem ops_eq_cons {ops : List (Option ScriptOp)} (h : pc.ops = some op :: ops) :
    getScriptOp pc = some op ∧ op.pc.ops = ops := by
  cases ho : getScriptOp pc with
  | none =>
    cases pc with
    | nil => cases h
    | cons b pc => simp [CScript.ops, opsFrom, ho] at h
  | some op' =>
    rw [ops_of_getScriptOp ho] at h
    cases h
    exact ⟨rfl, rfl⟩

theorem pushed_of_le (h : op.opcode ≤ opPushData4) : op.pushed = some op.vch := by
  rcases ofByte_range op.opcode with ⟨-, ho⟩ | ⟨hl, -⟩ | ⟨hl, -⟩
  · rw [ScriptOp.pushed, ho]
  · exact absurd h (UInt8.not_le.mpr hl)
  · exact absurd h (UInt8.not_le.mpr (UInt8.lt_trans (by decide) hl))

theorem serialize_small {n : ℕ} (hp : 1 ≤ n) (hl : n ≤ 16) :
    CScriptNum.serialize (n : ℤ) = [UInt8.ofNat n] := by
  interval_cases n <;> rfl

theorem pushed_of_isSmallInteger (h : isSmallInteger op.opcode) :
    op.pushed = some [UInt8.ofNat (decodeOpN op.opcode)] ∧ 1 ≤ decodeOpN op.opcode ∧
      decodeOpN op.opcode ≤ 16 ∧ opPushData4 < op.opcode := by
  simp only [isSmallInteger, Bool.and_eq_true, decide_eq_true_eq] at h
  have hg : 0x51 ≤ op.opcode.toNat := UInt8.le_iff_toNat_le.mp h.1
  have hle : op.opcode.toNat ≤ 0x60 := UInt8.le_iff_toNat_le.mp h.2
  have hl : opPushData4 < op.opcode := UInt8.lt_of_lt_of_le (by decide) h.1
  have hn : op.opcode ≠ 0x50 := by
    rintro ho
    rw [ho] at hg
    exact absurd hg (by decide)
  have ho : Opcode.ofByte op.opcode = .opN (op.opcode.toNat - 0x50) := by
    rw [Opcode.ofByte, if_neg (show ¬ op.opcode ≤ 0x4e from UInt8.not_le.mpr hl), if_neg hn,
      if_pos (show op.opcode ≤ 0x60 from h.2)]
  refine ⟨?_, by unfold decodeOpN; omega, by unfold decodeOpN; omega, hl⟩
  have hc : (op.opcode.toNat : ℤ) - 0x50 = (decodeOpN op.opcode : ℕ) := by
    unfold decodeOpN
    omega
  rw [ScriptOp.pushed, ho]
  dsimp only
  rw [hc, serialize_small (by unfold decodeOpN; omega) (by unfold decodeOpN; omega)]

theorem matchKeys_spec {nOp : ScriptOp} (h : matchKeys pc.ops = (keys, some nOp)) :
    ∃ keyOps : List ScriptOp, pc.ops = keyOps.map some ++ some nOp :: nOp.pc.ops ∧
      PushesAll keyOps keys ∧ (∀ op ∈ keyOps, op.opcode ≤ opPushData4 ∧ op.vch ∈ keys) ∧
      (∀ key ∈ keys, CPubKey.validSize key) ∧ nOp.pc <:+ pc ∧
      (nOp.opcode ≤ opPushData4 ∨ nOp.vch = []) := by
  induction hos : pc.ops generalizing pc keys with
  | nil =>
    rw [hos] at h
    cases h
  | cons o ops ih =>
    rw [hos] at h
    cases o with
    | none => cases h
    | some op =>
      obtain ⟨hop, rfl⟩ := ops_eq_cons hos
      obtain ⟨hs, hd⟩ := getScriptOp_spec hop
      simp only [matchKeys] at h
      split_ifs at h with hv
      · obtain ⟨hk, hn⟩ := Prod.mk.inj h
        subst hk
        obtain ⟨keyOps, hsp, hp, hl, hk, hpc, hvc⟩ :=
          @ih op.pc _ (Prod.ext rfl hn) rfl
        have hop4 : op.opcode ≤ opPushData4 := by
          refine hd.resolve_right fun hni => ?_
          rw [hni] at hv
          cases hv
        refine ⟨op :: keyOps, by rw [hsp]; rfl, .cons (pushed_of_le hop4) hp, ?_,
          forall_mem_cons.mpr ⟨hv, hk⟩, hpc.trans hs, hvc⟩
        rintro o (_ | ⟨_, ho⟩)
        · exact ⟨hop4, mem_cons_self⟩
        · exact ⟨(hl o ho).1, mem_cons_of_mem _ (hl o ho).2⟩
      · cases h
        exact ⟨[], rfl, .nil, by simp, by simp, hs, hd⟩

structure IsMultisig (script : CScript) (m : ℕ) (keys : List Valtype) (pushOps : List ScriptOp) :
    Prop where
  ops_eq : script.ops = pushOps.map some ++ [some ⟨opCheckMultisigByte, [], []⟩]
  pushes : PushesAll pushOps ([UInt8.ofNat m] :: keys ++ [[UInt8.ofNat keys.length]])
  data_mem : ∀ op ∈ pushOps, op.vch = [] ∨ op.vch ∈ keys
  validSize : ∀ key ∈ keys, CPubKey.validSize key = true
  one_le : 1 ≤ m
  le_length : m ≤ keys.length
  length_le : keys.length ≤ 16

theorem exists_isMultisig {script : CScript} {m : ℕ} (h : matchMultisig script = some (m, keys)) :
    ∃ pushOps, IsMultisig script m keys pushOps := by
  unfold matchMultisig at h
  split_ifs at h with hl
  split at h
  · next mOp ops hos =>
    obtain ⟨ho, rfl⟩ := ops_eq_cons hos
    split_ifs at h with hm
    obtain ⟨hmp, hmo, -, hmOp⟩ := pushed_of_isSmallInteger hm
    cases hk : matchKeys mOp.pc.ops with
    | mk keys' o =>
      rw [hk] at h
      cases o with
      | none => cases h
      | some nOp =>
        simp only [matchKeyCount] at h
        split_ifs at h with hn
        cases h
        simp only [Bool.and_eq_true, decide_eq_true_eq] at hn
        obtain ⟨⟨⟨hsm, hc⟩, hr⟩, he⟩ := hn
        obtain ⟨hnp, -, hnl, hno⟩ := pushed_of_isSmallInteger hsm
        obtain ⟨keyOps, hsp, hp, hd, hv, hs, hnv⟩ := matchKeys_spec hk
        obtain ⟨hms, hmv⟩ := getScriptOp_spec ho
        have hpc : nOp.pc = [opCheckMultisigByte] := by
          obtain ⟨b, hb⟩ := length_eq_one_iff.mp he
          have hs' := hs.trans hms
          rw [hb] at hs' ⊢
          obtain ⟨front, rfl⟩ := hs'
          simpa using hl
        refine ⟨mOp :: keyOps ++ [nOp], ?_, ?_, ?_, hv, hmo, hr, hc ▸ hnl⟩
        · rw [hos, hsp, hpc]
          simp
          rfl
        · refine .cons hmp (rel_append hp (.cons ?_ .nil))
          rw [hnp, hc]
        · intro op ho
          simp only [cons_append, mem_cons, mem_append, not_mem_nil, or_false] at ho
          rcases ho with rfl | ho | rfl
          · exact .inl (hmv.resolve_left (UInt8.not_le.mpr hmOp))
          · exact .inr (hd op ho).2
          · exact .inl (hnv.resolve_left (UInt8.not_le.mpr hno))
  · cases h

end Palladium
