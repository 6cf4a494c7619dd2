import Palladium.Script.Multisig

/-! # The scripts of destinations

What the scripts that wallets pay to are taken for, and what they do with a stack.
-/

namespace Palladium
open EvalM List StateT
section Shape
variable {hash program : Valtype}

theorem getScriptForScriptHash_eq (hl : hash.length = 20) :
    getScriptForScriptHash hash = opHash160Byte :: 20 :: hash ++ [opEqualByte] := by
  simp [getScriptForScriptHash, CScript.push, hl, opPushData1]

theorem isPayToScriptHash_getScriptForScriptHash (hl : hash.length = 20) :
    (getScriptForScriptHash hash).isPayToScriptHash := by
  rw [getScriptForScriptHash_eq hl]
  simp [CScript.isPayToScriptHash, hl, List.getD]

theorem solver_getScriptForScriptHash (hl : hash.length = 20) :
    solver (getScriptForScriptHash hash) = .scripthash hash := by
  rw [solver, if_pos (isPayToScriptHash_getScriptForScriptHash hl), getScriptForScriptHash_eq hl]
  simp [← hl]

theorem isWitnessProgram_getScriptForScriptHash (hl : hash.length = 20) :
    (getScriptForScriptHash hash).isWitnessProgram = none := by
  rw [getScriptForScriptHash_eq hl]
  simp [CScript.isWitnessProgram, hl, opHash160Byte, op1, op16]

theorem getScriptForWitnessV0_eq (hl : program.length < 76) :
    getScriptForWitnessV0 program = 0 :: UInt8.ofNat program.length :: program := by
  simp [getScriptForWitnessV0, CScript.push, opPushData1, hl]

theorem isWitnessProgram_getScriptForWitnessV0 (hl : 2 ≤ program.length)
    (hl' : program.length ≤ 40) :
    (getScriptForWitnessV0 program).isWitnessProgram = some (0, program) := by
  rw [getScriptForWitnessV0_eq (by omega)]
  have hb : (UInt8.ofNat program.length).toNat = program.length := by
    rw [UInt8.toNat_ofNat', Nat.mod_eq_of_lt (by omega)]
  simp [CScript.isWitnessProgram, hb]
  omega

theorem isPayToScriptHash_getScriptForWitnessV0 (hl : program.length < 76) :
    (getScriptForWitnessV0 program).isPayToScriptHash = false := by
  rw [getScriptForWitnessV0_eq hl]
  simp [CScript.isPayToScriptHash, opHash160Byte]

theorem solver_getScriptForWitnessV0 (hl : 2 ≤ program.length) (hl' : program.length ≤ 40) :
    solver (getScriptForWitnessV0 program) = solveWitnessProgram 0 program := by
  have hn := isPayToScriptHash_getScriptForWitnessV0 (show program.length < 76 by omega)
  rw [solver, if_neg (by simp [hn]), isWitnessProgram_getScriptForWitnessV0 hl hl']

end Shape

section Run
variable {crypto : Crypto} {flags : ScriptFlags} {checker : SignatureChecker}
  {sigversion : SigVersion} {s t : EvalState} {u : Unit} {pc : CScript}

theorem ends_evalHash {f : Valtype → Valtype} :
    Ends (evalHash f) s u t ↔ ∃ v st, s.stack = v :: st ∧ { s with stack := f v :: st } = t := by
  cases hs : s.stack <;> simp [evalHash, hs]

theorem ends_evalEqual : Ends (evalEqual false) s u t ↔ ∃ v₁ v₂ st, s.stack = v₂ :: v₁ :: st ∧
      { s with stack := (if v₁ = v₂ then [1] else []) :: st } = t := by
  rcases hs : s.stack with _ | ⟨v₂, _ | ⟨v₁, st⟩⟩ <;>
    simp [evalEqual, hs, verifyResult]

theorem ends_evalStep_byte (b : UInt8) (ho : op16 < b)
    (hd : (Opcode.ofByte b).isDisabled = false)
    (hs : Opcode.ofByte b ≠ .opCodeSeparator) (he : s.vfExec.allTrue) :
    Ends (evalStep crypto flags checker sigversion ⟨b, [], pc⟩) s u t ↔
      (sigversion.isLimited → s.nOpCount + 1 ≤ maxOpsPerScript) ∧
      Ends (evalOpcode crypto flags checker sigversion true ⟨b, [], pc⟩) (s.counted sigversion) u
        t ∧
      t.stack.length + t.altstack.length ≤ maxStackSize :=
  ends_evalStep_opcode he ho rfl hd hs

theorem ends_evalStep_hash160 (he : s.vfExec.allTrue) :
    Ends (evalStep crypto flags checker sigversion ⟨opHash160Byte, [], pc⟩) s u t ↔
      (sigversion.isLimited → s.nOpCount + 1 ≤ maxOpsPerScript) ∧
      (∃ v st, s.stack = v :: st ∧
        { s.counted sigversion with stack := crypto.hash160 v :: st } = t) ∧
      t.stack.length + t.altstack.length ≤ maxStackSize := by
  rw [ends_evalStep_byte opHash160Byte (by decide) (by decide) (by decide) he,
    show evalOpcode crypto flags checker sigversion true ⟨opHash160Byte, [], pc⟩ =
      evalHash crypto.hash160 from rfl, ends_evalHash]
  rfl

theorem ends_evalStep_equal (he : s.vfExec.allTrue) :
    Ends (evalStep crypto flags checker sigversion ⟨opEqualByte, [], pc⟩) s u t ↔
      (sigversion.isLimited → s.nOpCount + 1 ≤ maxOpsPerScript) ∧
      (∃ v₁ v₂ st, s.stack = v₂ :: v₁ :: st ∧
        { s.counted sigversion with stack := (if v₁ = v₂ then [1] else []) :: st } = t) ∧
      t.stack.length + t.altstack.length ≤ maxStackSize := by
  rw [ends_evalStep_byte opEqualByte (by decide) (by decide) (by decide) he,
    show evalOpcode crypto flags checker sigversion true ⟨opEqualByte, [], pc⟩ =
      evalEqual false from rfl, ends_evalEqual]
  rfl

theorem pushAllowed_pushOp {b : Valtype} (hb : b.length ≠ 1)
    (hl : b.length ≤ maxScriptElementSize) : (pushOp b pc).pushAllowed flags :=
  pushAllowed_iff.mpr ⟨hl, fun _ _ => checkMinimalPush_pushOp hb
    (hl.trans (by unfold maxScriptElementSize; omega)) pc⟩

theorem pushed_pushOp (b : Valtype) : (pushOp b pc).pushed = some b :=
  pushed_of_le (pushOp_opcode_le b pc)

variable {hash program : Valtype} {r st : List Valtype}

theorem ops_getScriptForScriptHash (hl : hash.length = 20) : (getScriptForScriptHash hash).ops =
      [some ⟨opHash160Byte, [], CScript.push [] hash ++ [opEqualByte]⟩,
        some (pushOp hash [opEqualByte]), some ⟨opEqualByte, [], []⟩] := by
  have hs : getScriptForScriptHash hash =
      opHash160Byte :: (CScript.push [] hash ++ [opEqualByte]) := by
    rw [getScriptForScriptHash, push_eq_append]
    rfl
  rw [hs, ops_opcode (by decide), ops_push (by omega), ops_opcode (by decide), ops_nil]

theorem evalBase_getScriptForScriptHash {v : Valtype} (hl : hash.length = 20) :
    evalBase crypto flags checker (v :: st) (getScriptForScriptHash hash) = .ok r ↔
      st.length + 2 ≤ maxStackSize ∧ (if crypto.hash160 v = hash then [1] else []) :: st = r := by
  rw [evalBase_eq_ok, ops_getScriptForScriptHash hl]
  simp only [ends_evalOps_cons, ends_evalOps_nil]
  constructor
  · rintro ⟨-, t, ⟨w₁, h₁, w₂, h₂, w₃, h₃, rfl⟩, -, rfl⟩
    obtain ⟨-, ⟨v', st', hst, rfl⟩, -⟩ := (ends_evalStep_hash160 rfl).mp h₁
    cases hst
    obtain ⟨-, hs, rfl⟩ := (ends_evalStep_pushed (pushed_pushOp hash) rfl).mp h₂
    obtain ⟨-, ⟨v₁, v₂, st', hst, rfl⟩, -⟩ := (ends_evalStep_equal rfl).mp h₃
    cases hst
    exact ⟨hs, rfl⟩
  · rintro ⟨hs, rfl⟩
    have hsc : (getScriptForScriptHash hash).length ≤ maxScriptSize := by
      rw [getScriptForScriptHash_eq hl]
      simp [hl, maxScriptSize]
    have ha : (pushOp hash [opEqualByte]).pushAllowed flags = true :=
      pushAllowed_pushOp (by omega) (by rw [hl]; decide)
    have hsk : st.length + 1 + 0 ≤ maxStackSize := by omega
    refine ⟨hsc, _, ⟨_, (ends_evalStep_hash160 rfl).mpr ⟨fun _ => ?_, ⟨v, st, rfl, rfl⟩, hsk⟩,
      _, (ends_evalStep_pushed (pushed_pushOp hash) rfl).mpr ⟨ha, hs, rfl⟩,
      _, (ends_evalStep_equal rfl).mpr ⟨fun _ => ?_, ⟨_, _, _, rfl, rfl⟩, hsk⟩, rfl⟩, rfl, rfl⟩
    · exact (by decide : 0 + 1 ≤ maxOpsPerScript)
    · exact (by decide : 1 + 1 ≤ maxOpsPerScript)

theorem ops_getScriptForWitnessV0 (hle : program.length ≤ 40) :
    (getScriptForWitnessV0 program).ops =
      [pushOp [] (CScript.push [] program), pushOp program []].map some := by
  have hs : getScriptForWitnessV0 program = CScript.push [] [] ++ CScript.push [] program := by
    rw [getScriptForWitnessV0, push_eq_append]
    rfl
  have hl := ops_push (b := program) (by omega) []
  rw [append_nil] at hl
  rw [hs, ops_push (by simp), hl, ops_nil]
  rfl

theorem evalBase_getScriptForWitnessV0 (hl : 2 ≤ program.length) (hl' : program.length ≤ 40) :
    evalBase crypto flags checker st (getScriptForWitnessV0 program) = .ok r ↔
      st.length + 2 ≤ maxStackSize ∧ program :: [] :: st = r := by
  have hp : PushesAll [pushOp [] (CScript.push [] program), pushOp program []] [[], program] :=
    .cons (pushed_pushOp _) (.cons (pushed_pushOp _) .nil)
  have hs : (getScriptForWitnessV0 program).length ≤ maxScriptSize := by
    rw [getScriptForWitnessV0_eq (by omega), length_cons, length_cons, maxScriptSize]
    omega
  have ha : pushesAllowed flags [pushOp [] (CScript.push [] program), pushOp program []]
      st.length ↔ st.length + 2 ≤ maxStackSize := by
    have hn : (pushOp [] (CScript.push [] program)).pushAllowed flags = true :=
      pushAllowed_pushOp (by simp) (by simp)
    have hpr : (pushOp program []).pushAllowed flags = true :=
      pushAllowed_pushOp (by omega) (by unfold maxScriptElementSize; omega)
    simp [pushesAllowed, hn, hpr]
  rw [evalBase_pushes (ops_getScriptForWitnessV0 hl') hp, and_iff_right hs, ha]
  rfl

end Run

section Multisig
variable (flags : ScriptFlags) (sigversion : SigVersion)

/-- The rules let a multisig script with `m` of `n` keys get to its signatures, on a stack that has
its top in front. -/
structure RunsToSignatures (script : CScript) (m n : ℕ) (stack : List Valtype) : Prop where
  script_length : script.length ≤ maxScriptSize
  minimal : flags.has .minimalData = true → script.pushesMinimal = true
  stack_length : stack.length + (n + 2) ≤ maxStackSize
  enough : m + 1 ≤ stack.length
  not_in_script : sigversion = .base → ∀ sig ∈ stack.take m,
    (findAndDelete script (CScript.push [] sig)).1 = 0

variable {flags sigversion} {crypto : Crypto} {checker : SignatureChecker} {script : CScript}
  {m : ℕ} {keys : List Valtype} {pushOps : List ScriptOp} {stack : List Valtype} {call : SigCall}

theorem IsMultisig.length_pushOps (h : IsMultisig script m keys pushOps) :
    pushOps.length = keys.length + 2 := by
  rw [h.pushes.length_eq]
  simp

theorem length_le_of_validSize {key : Valtype} (h : CPubKey.validSize key) : key.length ≤ 65 := by
  have hl : CPubKey.getLen (key.getD 0 0) = key.length :=
    (by simpa [CPubKey.validSize] using h : _ ∧ _).2
  unfold CPubKey.getLen at hl
  split_ifs at hl <;> omega

theorem IsMultisig.pushesAllowed_iff (h : IsMultisig script m keys pushOps) {height : ℕ} :
    pushesAllowed flags pushOps height ↔ (flags.has .minimalData →
      script.pushesMinimal) ∧ height + (keys.length + 2) ≤ maxStackSize := by
  have hm : script.pushesMinimal = true ↔
      ∀ op ∈ pushOps, op.opcode ≤ opPushData4 → checkMinimalPush op.vch op.opcode = true := by
    have hl : opPushData4 < opCheckMultisigByte := by decide
    simp only [CScript.pushesMinimal, h.ops_eq, all_append, all_map, all_cons,
      all_nil, Bool.and_eq_true, all_eq_true, Function.comp_apply,
      Bool.or_eq_true, decide_eq_true_eq, ← UInt8.not_le, ← imp_iff_not_or]
    simp [UInt8.not_le.mpr hl]
  have hs : ∀ op ∈ pushOps, op.vch.length ≤ maxScriptElementSize := by
    intro op ho
    rcases h.data_mem op ho with hn | hk
    · rw [hn]
      exact Nat.zero_le _
    · exact (length_le_of_validSize (h.validSize _ hk)).trans (by decide)
  have hne : pushOps ≠ [] := by
    rw [← length_pos_iff, h.length_pushOps]
    omega
  simp only [pushesAllowed, pushAllowed_iff, hm, forall_and, and_iff_right hs,
    h.length_pushOps, hne, ne_eq, not_false_eq_true, forall_const]
  exact and_congr_left fun _ => ⟨fun h hf op ho => h op ho hf, fun h op ho hf => h hf op ho⟩

variable {s t : EvalState} {u : Unit}

theorem ends_cleanUp_true {i ikey2 : ℕ} : Ends (cleanUp flags true i ikey2) s u t ↔
      i ≤ s.stack.length ∧ { s with stack := s.stack.drop i } = t := by
  induction i generalizing s ikey2 with
  | zero => simp [cleanUp]
  | succ i ih =>
    cases hs : s.stack with
    | nil => simp [cleanUp, checkTopEmpty, hs]
    | cons v st => simp [cleanUp, checkTopEmpty, hs, ih]

variable {nKeysCount nSigsCount : ℕ}

@[simp] theorem ends_checkTopEmpty {on : Bool} {e : ScriptError} :
    Ends (checkTopEmpty on e) s u t ↔ (on → s.stack[0]? = some []) ∧ s = t := by
  cases on
  · simp [checkTopEmpty]
  · cases hs : s.stack <;> simp [checkTopEmpty, hs]

theorem ends_finishMultisig_true :
    Ends (finishMultisig flags false true nKeysCount nSigsCount) s u t ↔
      ∃ dummy st, s.stack.drop (2 + nKeysCount + nSigsCount) = dummy :: st ∧
        (flags.has .nullDummy → dummy = []) ∧ { s with stack := [1] :: st } = t := by
  simp only [finishMultisig, ends_bind_punit, ends_cleanUp_true, ends_needs, ends_checkTopEmpty,
    ends_popStack, ends_pushBool, verifyResult, if_true, Bool.not_false, ends_pure, true_and]
  constructor
  · rintro ⟨_, ⟨-, rfl⟩, _, ⟨-, rfl⟩, _, ⟨hd, rfl⟩, _, ⟨dummy, st, hs, rfl⟩, _, rfl, rfl⟩
    refine ⟨dummy, st, hs, fun hf => ?_, rfl⟩
    have ht := hd hf
    dsimp only at hs ht
    rw [hs] at ht
    simpa using ht
  · rintro ⟨dummy, st, hs, hd, rfl⟩
    have hl := congrArg List.length hs
    rw [length_drop, length_cons] at hl
    refine ⟨_, ⟨by omega, rfl⟩, _, ⟨?_, rfl⟩, _, ⟨fun hf => ?_, rfl⟩, _,
      ⟨dummy, st, hs, rfl⟩, _, rfl, rfl⟩
    · simp [hs]
    · simp [hs, hd hf]

theorem stack_of_finishMultisig {fSuccess : Bool}
    (h : Ends (finishMultisig flags false fSuccess nKeysCount nSigsCount) s u t) :
    ∃ st, t.stack = (if fSuccess then [1] else []) :: st := by
  simp only [finishMultisig, ends_bind_punit, ends_pushBool, verifyResult, Bool.not_false, if_true,
    ends_pure, true_and] at h
  obtain ⟨_, -, _, -, _, -, s', -, _, rfl, rfl⟩ := h
  exact ⟨s'.stack, rfl⟩

theorem split_multisigStack {x y : Valtype} {stack' : List Valtype}
    (h : stack' = x :: keys.reverse ++ y :: stack) :
    (stack'.drop 1).take keys.length = keys.reverse ∧ stack'.drop (2 + keys.length) = stack := by
  rw [h, cons_append, drop_succ_cons, drop_zero, take_left' keys.length_reverse,
    show 2 + keys.length = (keys.length + 1) + 1 by omega, drop_succ_cons, ← drop_drop,
    drop_left' keys.length_reverse, drop_succ_cons, drop_zero]
  exact ⟨rfl, rfl⟩

theorem IsMultisig.ends_checkMultisig_true (h : IsMultisig script m keys pushOps)
    (hex : s.vfExec.allTrue) (hc : s.nOpCount = 0)
    (hs : s.stack = [UInt8.ofNat keys.length] :: keys.reverse ++ [UInt8.ofNat m] :: stack)
    (hco : flags.has .constScriptCode) (hli : sigversion.isLimited) :
    (Ends (evalStep crypto flags checker sigversion ⟨opCheckMultisigByte, [], []⟩) s u t ∧
        castToBool (t.stack.headD [])) ↔
      m + 1 ≤ stack.length ∧ (sigversion = .base → ∀ sig ∈ stack.take m,
        (findAndDelete s.pbegincodehash (CScript.push [] sig)).1 = 0) ∧
      matchSigs crypto flags checker sigversion s.pbegincodehash keys.reverse (stack.take m) =
        .ok true ∧ (flags.has .nullDummy → stack[m]? = some []) ∧
      { s.counted sigversion with
        stack := [1] :: stack.drop (m + 1)
        nOpCount := (s.counted sigversion).nOpCount + keys.length } = t ∧
      t.stack.length + t.altstack.length ≤ maxStackSize := by
  have hke := h.length_le
  have ht : sigversion ≠ .tapscript := by
    rintro rfl
    cases hli
  have ha : ∀ args w, Ends (multisigArgs flags sigversion) (s.counted sigversion) args w ↔ _ :=
    fun args w => ends_multisigArgs (by exact hs) h.one_le h.le_length h.length_le
  have hcd : (s.counted sigversion).nOpCount = 1 := by
    simp [EvalState.counted, hli, hc]
  obtain ⟨hk, hr⟩ := split_multisigStack hs
  have hle : s.stack.length = keys.length + 2 + stack.length := by
    rw [hs]
    simp
    omega
  have hi : 3 + keys.length - 1 = 2 + keys.length := by omega
  have hl : 2 + keys.length ≤ (s.counted sigversion).stack.length + 1 := by
    rw [show (s.counted sigversion).stack = s.stack from rfl, hle]
    omega
  have hls : m + 1 ≤ stack.length →
      3 + keys.length + m ≤ (s.counted sigversion).stack.length + 1 := by
    rw [show (s.counted sigversion).stack = s.stack from rfl, hle]
    omega
  rw [ends_evalStep_byte opCheckMultisigByte (by decide) (by decide) (by decide) hex,
    show evalOpcode crypto flags checker sigversion true ⟨opCheckMultisigByte, [], []⟩ =
      evalCheckMultiSig crypto flags checker sigversion false from rfl, evalCheckMultiSig_eq]
  simp only [ends_bind, ha]
  constructor
  · rintro ⟨⟨-, ⟨⟨_, nSigs, code⟩, _, ⟨-, -, he, hdp, rfl, hss, rfl⟩, b, w, hlo, hf⟩, hsi⟩, htr⟩
    obtain rfl : m = nSigs := hss.symm
    dsimp only at hdp hlo hf
    obtain ⟨hn, rfl⟩ := (dropAll_eq_ok hco).mp hdp
    obtain ⟨hm, rfl⟩ := (ends_multisigLoop (by omega) (by omega)
      (by dsimp only; exact hl) (by dsimp only; exact hls he)).mp hlo
    rw [hi] at hm
    obtain ⟨st, hst⟩ := stack_of_finishMultisig hf
    obtain rfl : b = true := by
      cases b
      · rw [hst] at htr
        cases htr
      · rfl
    obtain ⟨dummy, st', hst', hd, rfl⟩ := ends_finishMultisig_true.mp hf
    have hdr : stack.drop m = dummy :: st' := by
      rw [← hr, drop_drop]
      exact hst'
    refine ⟨he, hn, ?_, fun hfl => ?_, ?_, hsi⟩
    · rw [← hk, ← hr]
      exact hm
    · rw [← List.head?_drop, hdr, List.head?_cons, hd hfl]
    · rw [← drop_drop, hdr]
      rfl
  · rintro ⟨he, hn, hm, hd, rfl, hsi⟩
    have hlt : m < stack.length := by omega
    refine ⟨⟨fun _ => by rw [hc]; decide, ⟨⟨keys.length, m, s.pbegincodehash⟩, _,
      ⟨ht, ?_, he, (dropAll_eq_ok hco).mpr ⟨hn, rfl⟩, rfl, rfl, rfl⟩, true, _,
      (ends_multisigLoop (by omega) (by omega) (by dsimp only; exact hl)
        (by dsimp only; exact hls he)).mpr ⟨?_, rfl⟩, ends_finishMultisig_true.mpr
          ⟨stack[m], stack.drop (m + 1), ?_, fun hfl => ?_, ?_⟩⟩, hsi⟩, rfl⟩
    · rw [hcd, maxOpsPerScript]
      omega
    · rw [← hk, ← hr] at hm
      rw [hi]
      exact hm
    · rw [← drop_eq_getElem_cons hlt, ← hr, drop_drop]
      rfl
    · simpa [List.getElem?_eq_getElem hlt] using hd hfl
    · rfl

theorem IsMultisig.evalScript_true (h : IsMultisig script m keys pushOps)
    (hc : flags.has .constScriptCode) (hl : sigversion.isLimited)
    {execdata : ScriptExecutionData} {r : List Valtype} :
    (∃ execdata', evalScript crypto flags checker sigversion stack script execdata =
        .ok (r, execdata') ∧ castToBool (r.headD [])) ↔
      RunsToSignatures flags sigversion script m keys.length stack ∧
      matchSigs crypto flags checker sigversion script keys.reverse (stack.take m) = .ok true ∧
      (flags.has .nullDummy → stack[m]? = some []) ∧ [1] :: stack.drop (m + 1) = r := by
  have ht : sigversion ≠ .taproot := by
    rintro rfl
    cases hl
  have hs : ((EvalState.start stack script execdata).pushedAll
      ([UInt8.ofNat m] :: keys ++ [[UInt8.ofNat keys.length]])).stack =
        [UInt8.ofNat keys.length] :: keys.reverse ++ [UInt8.ofNat m] :: stack := by
    simp [EvalState.pushedAll, EvalState.start]
  have hrn : ∀ t, Ends (evalOps crypto flags checker sigversion script.ops)
      (.start stack script execdata) () t ↔
      ((flags.has .minimalData = true → script.pushesMinimal = true) ∧
        stack.length + (keys.length + 2) ≤ maxStackSize) ∧
      Ends (evalStep crypto flags checker sigversion ⟨opCheckMultisigByte, [], []⟩)
        ((EvalState.start stack script execdata).pushedAll
          ([UInt8.ofNat m] :: keys ++ [[UInt8.ofNat keys.length]])) () t := by
    intro t
    rw [h.ops_eq, ends_evalOps_pushes h.pushes _ rfl, h.pushesAllowed_iff]
    simp only [ends_evalOps_cons, ends_evalOps_nil, exists_eq_right]
    rfl
  simp only [evalScript_eq_ok, hrn]
  constructor
  · rintro ⟨_, ⟨-, hsi, t, ⟨⟨hmi, hh⟩, hen⟩, -, hr⟩, htr⟩
    obtain ⟨rfl, -⟩ := Prod.mk.inj hr
    obtain ⟨he, hn, hm, hd, rfl, -⟩ :=
      (h.ends_checkMultisig_true rfl rfl hs hc hl).mp ⟨hen, htr⟩
    exact ⟨⟨hsi hl, hmi, hh, he, hn⟩, hm, hd, rfl⟩
  · rintro ⟨hru, hm, hd, rfl⟩
    have hle : (stack.drop (m + 1)).length + 1 + 0 ≤ maxStackSize := by
      have := hru.stack_length
      rw [length_drop]
      omega
    obtain ⟨hen, -⟩ := (h.ends_checkMultisig_true rfl rfl hs hc hl).mpr
      ⟨hru.enough, hru.not_in_script, hm, hd, rfl, hle⟩
    exact ⟨_, ⟨ht, fun _ => hru.script_length, _, ⟨⟨hru.minimal, hru.stack_length⟩,
      hen⟩, rfl, rfl⟩, rfl⟩

end Multisig

end Palladium
