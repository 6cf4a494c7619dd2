import Palladium.Lib.Ends
import Palladium.Script.SoftFork
import Palladium.Script.Standard

/-! # Running instructions

What single instructions do to the machine when they succeed, and runs of pushes.
-/

namespace Palladium
open EvalM List StateT

/-- The instruction that pushes the given data. -/
def pushOp (b : Valtype) (pc : CScript) : ScriptOp :=
  ⟨if b.length < opPushData1.toNat then UInt8.ofNat b.length
    else if b.length ≤ 0xff then opPushData1
    else if b.length ≤ 0xffff then opPushData2
    else opPushData4, b, pc⟩

theorem push_eq_append (script : CScript) (b : Valtype) :
    script.push b = script ++ CScript.push [] b := by
  unfold CScript.push
  split_ifs <;> rfl

theorem takePush_append (opcode : UInt8) (b : Valtype) (rest : CScript) :
    takePush opcode b.length (b ++ rest) = some ⟨opcode, b, rest⟩ := by
  rw [takePush, if_neg (by simp), take_left, drop_left]

variable {b : Valtype} {opcode : UInt8}

theorem takeSizedPush_append {k : ℕ} (opcode : UInt8) (hb : b.length < 256 ^ k) (rest : CScript) :
    takeSizedPush opcode k (writeLE k b.length ++ (b ++ rest)) = some ⟨opcode, b, rest⟩ := by
  rw [takeSizedPush, if_neg (by simp), take_left' (length_writeLE k _),
    drop_left' (length_writeLE k _), readLE_writeLE hb, takePush_append]

theorem getScriptOp_push (hb : b.length < 2 ^ 32) (rest : CScript) :
    getScriptOp (CScript.push [] b ++ rest) = some (pushOp b rest) := by
  unfold CScript.push pushOp
  split_ifs with h₁ h₂ h₃
  · have hl : b.length < 76 := h₁
    have hn : (UInt8.ofNat b.length).toNat = b.length := by
      rw [UInt8.toNat_ofNat', Nat.mod_eq_of_lt (by omega)]
    have ho : UInt8.ofNat b.length < opPushData1 := by
      rw [UInt8.lt_iff_toNat_lt, hn]
      exact h₁
    simp only [nil_append, cons_append, getScriptOp, if_pos ho, hn, takePush_append]
  · have hon : opPushData1 :: UInt8.ofNat b.length :: b ++ rest =
        opPushData1 :: (writeLE 1 b.length ++ (b ++ rest)) := by
      simp [writeLE, Nat.mod_eq_of_lt (show b.length < 256 by omega)]
    have hl : b.length < 256 ^ 1 := by omega
    rw [nil_append, hon, getScriptOp, if_neg (by decide), if_pos rfl, takeSizedPush_append _ hl]
  · have ht : opPushData2 :: (writeLE 2 b.length ++ b) ++ rest =
        opPushData2 :: (writeLE 2 b.length ++ (b ++ rest)) := by simp
    have hl : b.length < 256 ^ 2 := by omega
    rw [nil_append, ht, getScriptOp, if_neg (by decide), if_neg (by decide), if_pos rfl,
      takeSizedPush_append _ hl]
  · have hf : opPushData4 :: (writeLE 4 b.length ++ b) ++ rest =
        opPushData4 :: (writeLE 4 b.length ++ (b ++ rest)) := by simp
    have hl : b.length < 256 ^ 4 := by omega
    rw [nil_append, hf, getScriptOp, if_neg (by decide), if_neg (by decide),
      if_neg (by decide), if_pos rfl, takeSizedPush_append _ hl]

theorem getScriptOp_opcode (h : opPushData4 < opcode) (rest : CScript) :
    getScriptOp (opcode :: rest) = some ⟨opcode, [], rest⟩ := by
  have hl : opPushData4.toNat < opcode.toNat := UInt8.lt_iff_toNat_lt.mp h
  have hn : ∀ b : UInt8, b.toNat ≤ opPushData4.toNat → opcode ≠ b := by
    rintro b hb rfl
    omega
  rw [getScriptOp, if_neg, if_neg (hn _ (by decide)), if_neg (hn _ (by decide)),
    if_neg (hn _ (by decide))]
  rw [UInt8.lt_iff_toNat_lt, not_lt]
  exact le_trans (by decide) hl.le

theorem ops_push (hb : b.length < 2 ^ 32) (rest : CScript) :
    CScript.ops (CScript.push [] b ++ rest) = some (pushOp b rest) :: CScript.ops rest :=
  ops_of_getScriptOp (getScriptOp_push hb rest)

theorem ops_opcode (h : opPushData4 < opcode) (rest : CScript) :
    CScript.ops (opcode :: rest) = some ⟨opcode, [], rest⟩ :: CScript.ops rest :=
  ops_of_getScriptOp (getScriptOp_opcode h rest)

@[simp] theorem ops_nil : CScript.ops [] = [] := rfl

theorem checkMinimalPush_pushOp (hb : b.length ≠ 1) (hl : b.length ≤ 65535) (rest : CScript) :
    checkMinimalPush b (pushOp b rest).opcode := by
  have hop : opPushData1.toNat = 76 := rfl
  have ho : ∀ p : Bool, ¬ ((b.length = 1 && p) = true) := by simp [hb]
  have hs : b.length = 0 ∨ 1 < b.length ∧ b.length < 76 ∨ 76 ≤ b.length ∧ b.length ≤ 255 ∨
      255 < b.length := by omega
  unfold checkMinimalPush
  rcases hs with hz | ⟨hp, hlt⟩ | ⟨hg, hle⟩ | hgt
  · rw [if_pos hz]
    simp [pushOp, hz, hop]
  · rw [if_neg (by omega), if_neg (by simp [hb]), if_neg (ho _), if_pos (by omega), pushOp,
      if_pos (by omega), UInt8.toNat_ofNat', Nat.mod_eq_of_lt (by omega)]
    exact decide_eq_true rfl
  · rw [if_neg (by omega), if_neg (by simp [hb]), if_neg (ho _), if_neg (by omega), if_pos hle,
      pushOp, if_neg (by omega), if_pos hle]
    rfl
  · rw [if_neg (by omega), if_neg (by simp [hb]), if_neg (ho _), if_neg (by omega),
      if_neg (by omega), if_pos hl, pushOp, if_neg (by omega), if_neg (by omega), if_pos hl]
    rfl

theorem pushOp_opcode_le (b : Valtype) (rest : CScript) : (pushOp b rest).opcode ≤ opPushData4 := by
  unfold pushOp
  dsimp only
  split_ifs with h
  · have hl : b.length < 76 := h
    rw [UInt8.le_iff_toNat_le, UInt8.toNat_ofNat', Nat.mod_eq_of_lt (by omega)]
    exact le_trans hl.le (by decide)
  all_goals decide

@[simp] theorem check_eq_ok {ok : Bool} {e : ScriptError} {u : Unit} : check ok e = .ok u ↔ ok := by
  cases ok <;> simp [check]

@[simp] theorem assert_eq_ok {ok : Bool} {u : Unit} : assert ok = .ok u ↔ ok := by
  cases ok <;> simp [assert]

@[simp] theorem checkIf_eq_ok {on : Bool} {x : Except ScriptHalt Unit} {u : Unit} :
    checkIf on x = .ok u ↔ (on → x = .ok u) := by
  cases on <;> simp [checkIf]

section Rules
variable {s t : EvalState} {u : Unit} {v : Valtype} {i n : ℕ}

@[simp] theorem ends_needs : Ends (needs n) s u t ↔ n ≤ s.stack.length ∧ s = t := by
  simp [needs, and_comm]

@[simp] theorem ends_stackTop : Ends (stackTop i) s v t ↔ s.stack[i - 1]? = some v ∧ s = t := by
  cases h : s.stack[i - 1]? <;> simp [stackTop, fromTop, h, and_comm]

@[simp] theorem ends_popStack :
    Ends popStack s u t ↔ ∃ v st, s.stack = v :: st ∧ { s with stack := st } = t := by
  cases h : s.stack <;> simp [popStack, popped, h]

@[simp] theorem ends_push : Ends (push v) s u t ↔ { s with stack := v :: s.stack } = t := ends_modify

@[simp] theorem ends_pushNum {bn : CScriptNum} :
    Ends (pushNum bn) s u t ↔ { s with stack := bn.serialize :: s.stack } = t := ends_modify

@[simp] theorem ends_pushBool {f : Bool} :
    Ends (pushBool f) s u t ↔ { s with stack := (if f then [1] else []) :: s.stack } = t :=
  ends_modify

end Rules

/-- The element that an instruction pushes, if it only pushes. -/
def ScriptOp.pushed (op : ScriptOp) : Option Valtype :=
  match Opcode.ofByte op.opcode with
  | .opPushData => some op.vch
  | .opN n => some (CScriptNum.serialize n)
  | _ => none

def ScriptOp.pushAllowed (flags : ScriptFlags) (op : ScriptOp) : Bool :=
  op.vch.length ≤ maxScriptElementSize &&
    (!flags.has .minimalData || opPushData4 < op.opcode || checkMinimalPush op.vch op.opcode)

theorem fromNop_not_pushed {o : Opcode} (h : o ∈ Opcode.fromNop) :
    o ≠ .opPushData ∧ ∀ n, o ≠ .opN n := by
  have ha : (Opcode.fromNop.all fun
    | .opPushData | .opN _ => false
    | _ => true) = true := by decide
  have ho := all_eq_true.mp ha o h
  constructor
  · rintro rfl
    cases ho
  · rintro n rfl
    cases ho

theorem ofByte_range (b : UInt8) : (b ≤ opPushData4 ∧ Opcode.ofByte b = .opPushData) ∨
    (opPushData4 < b ∧ b ≤ op16 ∧
      (Opcode.ofByte b = .opReserved ∨ Opcode.ofByte b = .opN (b.toNat - 0x50))) ∨
    (op16 < b ∧ Opcode.ofByte b ≠ .opPushData ∧ ∀ n, Opcode.ofByte b ≠ .opN n) := by
  unfold Opcode.ofByte
  by_cases hd : b ≤ 0x4e
  · exact .inl ⟨hd, if_pos hd⟩
  by_cases hr : b = 0x50
  · subst hr
    exact .inr (.inl (by decide))
  by_cases hn : b ≤ 0x60
  · rw [if_neg hd, if_neg hr, if_pos hn]
    exact .inr (.inl ⟨UInt8.not_le.mp hd, hn, .inr rfl⟩)
  · rw [if_neg hd, if_neg hr, if_neg hn]
    refine .inr (.inr ⟨UInt8.not_le.mp hn, ?_⟩)
    cases ho : Opcode.fromNop[b.toNat - 0x61]? with
    | none => simp
    | some o => exact fromNop_not_pushed (mem_of_getElem? ho)

section Instructions
variable {crypto : Crypto} {flags : ScriptFlags} {checker : SignatureChecker}
  {sigversion : SigVersion} {s t : EvalState} {u : Unit} {op : ScriptOp}

theorem ends_checkOp_of_le (hl : op.opcode ≤ op16) :
    Ends (checkOp flags sigversion op) s u t ↔ op.vch.length ≤ maxScriptElementSize ∧ s = t := by
  have hc : ¬ op16 < op.opcode := UInt8.not_lt.mpr hl
  have ho : (Opcode.ofByte op.opcode).isDisabled = false ∧
      Opcode.ofByte op.opcode ≠ .opCodeSeparator := by
    rcases ofByte_range op.opcode with ⟨-, h⟩ | ⟨-, -, h | h⟩ | ⟨h, -⟩
    · simp [h, Opcode.isDisabled]
    · simp [h, Opcode.isDisabled]
    · simp [h, Opcode.isDisabled]
    · exact absurd h hc
  simp [checkOp, countOp, hc, ho]

theorem ends_evalStep_iff : Ends (evalStep crypto flags checker sigversion op) s u t ↔
      (∃ w, Ends (checkOp flags sigversion op) { s with opcodePos := s.opcodePos + 1 } () w ∧
        Ends (execute crypto flags checker sigversion s.vfExec.allTrue op) w u t) ∧
      t.stack.length + t.altstack.length ≤ maxStackSize := by
  simp [evalStep, ← and_assoc]

theorem ends_evalStep (he : s.vfExec.allTrue) :
    Ends (evalStep crypto flags checker sigversion op) s u t ↔
      (∃ w, Ends (checkOp flags sigversion op) { s with opcodePos := s.opcodePos + 1 } () w ∧
        Ends (execute crypto flags checker sigversion true op) w u t) ∧
      t.stack.length + t.altstack.length ≤ maxStackSize := by
  rw [ends_evalStep_iff, he]

variable {v : Valtype} {ops : List ScriptOp} {vs stack : List Valtype} {script : CScript}

theorem ends_execute_pushed (hv : op.pushed = some v) :
    Ends (execute crypto flags checker sigversion true op) s u t ↔
      (flags.has .minimalData → op.opcode ≤ opPushData4 →
        checkMinimalPush op.vch op.opcode) ∧ { s with stack := v :: s.stack } = t := by
  rcases ofByte_range op.opcode with ⟨hl, ho⟩ | ⟨hlt, hl, ho | ho⟩ | ⟨_, hn, hn'⟩
  · simp only [ScriptOp.pushed, ho, Option.some.injEq] at hv
    subst hv
    simp [execute, hl, evalPush, Except.bind_eq_ok]
  · simp [ScriptOp.pushed, ho] at hv
  · have hnl : ¬ op.opcode ≤ opPushData4 := UInt8.not_le.mpr hlt
    simp only [ScriptOp.pushed, ho, Option.some.injEq] at hv
    subst hv
    simp [execute, hnl, evalOpcode, ho]
  · simp [ScriptOp.pushed] at hv

theorem opcode_le_of_pushed (hv : op.pushed = some v) : op.opcode ≤ op16 := by
  rcases ofByte_range op.opcode with ⟨hl, -⟩ | ⟨-, hl, -⟩ | ⟨-, hn, hn'⟩
  · exact UInt8.le_trans hl (by decide)
  · exact hl
  · simp [ScriptOp.pushed] at hv

theorem pushAllowed_iff : op.pushAllowed flags ↔ op.vch.length ≤ maxScriptElementSize ∧
    (flags.has .minimalData → op.opcode ≤ opPushData4 → checkMinimalPush op.vch op.opcode) := by
  simp only [ScriptOp.pushAllowed, Bool.and_eq_true, Bool.or_eq_true, decide_eq_true_eq,
    Bool.not_eq_true', ← UInt8.not_le]
  cases flags.has .minimalData <;> by_cases h : op.opcode ≤ opPushData4 <;> simp [h]

theorem ends_evalStep_pushed (hv : op.pushed = some v) (he : s.vfExec.allTrue) :
    Ends (evalStep crypto flags checker sigversion op) s u t ↔
      op.pushAllowed flags ∧ s.stack.length + 1 + s.altstack.length ≤ maxStackSize ∧
      { s with stack := v :: s.stack, opcodePos := s.opcodePos + 1 } = t := by
  simp only [ends_evalStep he, ends_checkOp_of_le (opcode_le_of_pushed hv),
    ends_execute_pushed hv, pushAllowed_iff]
  constructor
  · rintro ⟨⟨_, ⟨hl, rfl⟩, hm, rfl⟩, hs⟩
    exact ⟨⟨hl, hm⟩, hs, rfl⟩
  · rintro ⟨⟨hl, hm⟩, hs, rfl⟩
    exact ⟨⟨_, ⟨hl, rfl⟩, hm, rfl⟩, hs⟩

/-- The state in which an opcode is executed. -/
def EvalState.counted (sigversion : SigVersion) (s : EvalState) : EvalState :=
  { s with
    opcodePos := s.opcodePos + 1
    nOpCount := if sigversion.isLimited then s.nOpCount + 1 else s.nOpCount }

theorem ends_checkOp_opcode (ho : op16 < op.opcode) (hv : op.vch = [])
    (hd : (Opcode.ofByte op.opcode).isDisabled = false)
    (hs : Opcode.ofByte op.opcode ≠ .opCodeSeparator) :
    Ends (checkOp flags sigversion op) { s with opcodePos := s.opcodePos + 1 } u t ↔
      (sigversion.isLimited → s.nOpCount + 1 ≤ maxOpsPerScript) ∧ s.counted sigversion = t := by
  cases hl : sigversion.isLimited <;>
    simp [checkOp, countOp, ho, hv, hd, hs, hl, EvalState.counted, and_comm]

theorem ends_evalStep_opcode (he : s.vfExec.allTrue) (ho : op16 < op.opcode)
    (hv : op.vch = []) (hd : (Opcode.ofByte op.opcode).isDisabled = false)
    (hs : Opcode.ofByte op.opcode ≠ .opCodeSeparator) :
    Ends (evalStep crypto flags checker sigversion op) s u t ↔
      (sigversion.isLimited → s.nOpCount + 1 ≤ maxOpsPerScript) ∧
      Ends (evalOpcode crypto flags checker sigversion true op) (s.counted sigversion) u t ∧
      t.stack.length + t.altstack.length ≤ maxStackSize := by
  have hn : ¬ op.opcode ≤ opPushData4 := by
    rw [UInt8.not_le]
    exact UInt8.lt_trans (by decide) ho
  rw [ends_evalStep he]
  simp [ends_checkOp_opcode ho hv hd hs, execute, hn, and_assoc]

@[simp] theorem ends_evalOps_nil : Ends (evalOps crypto flags checker sigversion []) s u t ↔ s = t := by
  simp [evalOps]

@[simp] theorem ends_evalOps_cons {ops : List (Option ScriptOp)} :
    Ends (evalOps crypto flags checker sigversion (some op :: ops)) s u t ↔
      ∃ w, Ends (evalStep crypto flags checker sigversion op) s () w ∧
        Ends (evalOps crypto flags checker sigversion ops) w u t := by
  simp [evalOps]

variable (crypto flags checker sigversion) in
def turns : List (Option ScriptOp) → EvalState → List (ScriptOp × EvalState)
  | some op :: ops, s =>
    (op, s) :: match (evalStep crypto flags checker sigversion op).run s with
      | .ok (_, t) => turns ops t
      | .error _ => []
  | _, _ => []

theorem turns_cons {ops : List (Option ScriptOp)}
    (h : Ends (evalStep crypto flags checker sigversion op) s () t) :
    turns crypto flags checker sigversion (some op :: ops) s =
      (op, s) :: turns crypto flags checker sigversion ops t := by
  rw [turns, ends_iff_run.mp h]

abbrev PushesAll : List ScriptOp → List Valtype → Prop :=
  List.Forall₂ fun op v => op.pushed = some v

def EvalState.pushedAll (s : EvalState) (vs : List Valtype) : EvalState :=
  { s with stack := vs.reverse ++ s.stack, opcodePos := s.opcodePos + vs.length }

def pushesAllowed (flags : ScriptFlags) (ops : List ScriptOp) (height : ℕ) : Prop :=
  (∀ op ∈ ops, op.pushAllowed flags = true) ∧ (ops ≠ [] → height + ops.length ≤ maxStackSize)

theorem ends_evalOps_pushes (h : PushesAll ops vs) (rest : List (Option ScriptOp))
    (he : s.vfExec.allTrue) :
    Ends (evalOps crypto flags checker sigversion (ops.map some ++ rest)) s u t ↔
      pushesAllowed flags ops (s.stack.length + s.altstack.length) ∧
      Ends (evalOps crypto flags checker sigversion rest) (s.pushedAll vs) u t := by
  induction h generalizing s with
  | nil => simp [pushesAllowed, EvalState.pushedAll]
  | @cons op v ops vs hv _ ih =>
    simp only [map_cons, cons_append, ends_evalOps_cons,
      ends_evalStep_pushed hv he, pushesAllowed, forall_mem_cons, ne_eq, reduceCtorEq,
      not_false_eq_true, forall_const, length_cons]
    constructor
    · rintro ⟨w, ⟨ha, hs, rfl⟩, hr⟩
      obtain ⟨⟨hal, hl⟩, hr⟩ := (ih (by exact he)).mp hr
      refine ⟨⟨⟨ha, hal⟩, ?_⟩, ?_⟩
      · cases ops with
        | nil => simp; omega
        | cons op' ops' =>
          have := hl (by simp)
          simp at this ⊢
          omega
      · simpa [EvalState.pushedAll, add_comm, add_left_comm, add_assoc] using hr
    · rintro ⟨⟨⟨ha, hal⟩, hl⟩, hr⟩
      refine ⟨_, ⟨ha, by omega, rfl⟩, (ih (by exact he)).mpr ⟨⟨hal, fun _ => ?_⟩, ?_⟩⟩
      · simp
        omega
      · simpa [EvalState.pushedAll, add_comm, add_left_comm, add_assoc] using hr
/-- Whether all data is pushed by its shortest instruction. -/
def CScript.pushesMinimal (script : CScript) : Bool :=
  script.ops.all fun
    | none => true
    | some op => opPushData4 < op.opcode || checkMinimalPush op.vch op.opcode

def EvalState.start (stack : List Valtype) (script : CScript) (execdata : ScriptExecutionData) :
    EvalState where
  stack := stack
  pbegincodehash := script
  execdata := { execdata with codeseparatorPos := 0xFFFFFFFF, codeseparatorPosInit := true }

theorem evalScript_eq_ok {execdata : ScriptExecutionData} {r : List Valtype × ScriptExecutionData} :
    evalScript crypto flags checker sigversion stack script execdata = .ok r ↔
      sigversion ≠ .taproot ∧ (sigversion.isLimited → script.length ≤ maxScriptSize) ∧
      ∃ t, Ends (evalOps crypto flags checker sigversion script.ops)
          (.start stack script execdata) () t ∧ t.vfExec.empty ∧ (t.stack, t.execdata) = r
  := by
  simp only [evalScript, Except.bind_eq_ok, assert_eq_ok, check_eq_ok, catchAll_eq_ok,
    decide_eq_true_eq, Bool.or_eq_true, Bool.not_eq_true', pure, Except.pure, Except.ok.injEq]
  rw [show sigversion.isLimited = false ∨ script.length ≤ maxScriptSize ↔
    (sigversion.isLimited = true → script.length ≤ maxScriptSize) by
      cases sigversion.isLimited <;> simp]
  constructor
  · rintro ⟨_, hta, _, hs, ⟨⟨⟩, t⟩, ht, _, he, hr⟩
    exact ⟨hta, hs, t, ht, he, hr⟩
  · rintro ⟨hta, hs, t, ht, he, hr⟩
    exact ⟨(), hta, (), hs, ((), t), ht, (), he, hr⟩

theorem evalBase_eq_ok {stack' : List Valtype} :
    evalBase crypto flags checker stack script = .ok stack' ↔ script.length ≤ maxScriptSize ∧
      ∃ t, Ends (evalOps crypto flags checker .base script.ops) (.start stack script {}) () t ∧
        t.vfExec.empty ∧ t.stack = stack' := by
  simp [evalBase, Except.bind_eq_ok, evalScript_eq_ok, SigVersion.isLimited, pure, Except.pure]

theorem exists_pushesAll {ops : List (Option ScriptOp)} (he : s.vfExec.allTrue)
    (hon : ∀ o ∈ ops, ∃ op, o = some op ∧ op.opcode ≤ op16)
    (h : Ends (evalOps crypto flags checker sigversion ops) s u t) :
    ∃ pushOps vs, ops = pushOps.map some ∧ PushesAll pushOps vs := by
  induction ops generalizing s with
  | nil => exact ⟨[], [], rfl, .nil⟩
  | cons o ops ih =>
    rw [forall_mem_cons] at hon
    obtain ⟨⟨op, rfl, hle⟩, hon⟩ := hon
    obtain ⟨w, hs, hr⟩ := ends_evalOps_cons.mp h
    cases hp : op.pushed with
    | none =>
      -- only `OP_RESERVED` is left, which fails
      obtain ⟨⟨v, -, hex⟩, -⟩ := (ends_evalStep he).mp hs
      rcases ofByte_range op.opcode with ⟨-, ho⟩ | ⟨hl, -, ho | ho⟩ | ⟨hl, -⟩
      · simp [ScriptOp.pushed, ho] at hp
      · simp [execute, UInt8.not_le.mpr hl, evalOpcode, ho] at hex
      · simp [ScriptOp.pushed, ho] at hp
      · exact absurd hle (UInt8.not_le.mpr hl)
    | some v =>
      obtain ⟨-, -, rfl⟩ := (ends_evalStep_pushed hp he).mp hs
      obtain ⟨pushOps, vs, rfl, ha⟩ := ih (by exact he) hon hr
      exact ⟨op :: pushOps, v :: vs, rfl, .cons hp ha⟩

theorem isPushOnly_iff :
    script.isPushOnly ↔ ∀ o ∈ script.ops, ∃ op, o = some op ∧ op.opcode ≤ op16 := by
  rw [CScript.isPushOnly, all_eq_true]
  refine forall₂_congr fun o _ => ?_
  cases o <;> simp

theorem pushesAllowed_iff {height : ℕ} (hos : script.ops = ops.map some) :
    pushesAllowed flags ops height ↔ (∀ op ∈ ops, op.vch.length ≤ maxScriptElementSize) ∧
      (flags.has .minimalData → script.pushesMinimal) ∧
      (ops ≠ [] → height + ops.length ≤ maxStackSize) := by
  have hm : script.pushesMinimal = true ↔
      ∀ op ∈ ops, op.opcode ≤ opPushData4 → checkMinimalPush op.vch op.opcode = true := by
    simp only [CScript.pushesMinimal, hos, all_map, all_eq_true, Function.comp_apply,
      Bool.or_eq_true, decide_eq_true_eq, ← UInt8.not_le, ← imp_iff_not_or]
  simp only [pushesAllowed, pushAllowed_iff, hm, forall_and, and_assoc]
  exact and_congr_right fun _ => and_congr_left fun _ =>
    ⟨fun h hf op ho => h op ho hf, fun h op ho hf => h hf op ho⟩

theorem evalBase_pushes {r : List Valtype} (ho : script.ops = ops.map some)
    (hal : PushesAll ops vs) :
    evalBase crypto flags checker stack script = .ok r ↔ script.length ≤ maxScriptSize ∧
      pushesAllowed flags ops stack.length ∧ vs.reverse ++ stack = r := by
  have hr : ∀ t, Ends (evalOps crypto flags checker .base script.ops) (.start stack script {}) () t
      ↔ pushesAllowed flags ops stack.length ∧
        (EvalState.start stack script {}).pushedAll vs = t := by
    intro t
    rw [ho, ← append_nil (ops.map some), ends_evalOps_pushes hal _ rfl, ends_evalOps_nil]
    rfl
  rw [evalBase_eq_ok]
  refine and_congr_right fun _ => ?_
  constructor
  · rintro ⟨t, ht, -, rfl⟩
    obtain ⟨ha, rfl⟩ := (hr t).mp ht
    exact ⟨ha, rfl⟩
  · rintro ⟨ha, rfl⟩
    exact ⟨_, (hr _).mpr ⟨ha, rfl⟩, rfl, rfl⟩

end Instructions

/-- Under other rules and another checker, a script that only pushes leaves the same stack or is
refused because it could be shorter. -/
theorem evalBase_of_isPushOnly {crypto : Crypto} {flags flags' : ScriptFlags}
    {checker checker' : SignatureChecker} {stack stack' : List Valtype} {script : CScript}
    (hon : script.isPushOnly)
    (h : evalBase crypto flags checker stack script = .ok stack') {r : List Valtype} :
    evalBase crypto flags' checker' stack script = .ok r ↔
      (flags'.has .minimalData → script.pushesMinimal) ∧ stack' = r := by
  obtain ⟨-, t, he, -⟩ := evalBase_eq_ok.mp h
  obtain ⟨ops, vs, ho, ha⟩ := exists_pushesAll rfl (isPushOnly_iff.mp hon) he
  rw [evalBase_pushes ho ha, pushesAllowed_iff ho] at h
  obtain ⟨hs, ⟨hl, -, hh⟩, rfl⟩ := h
  rw [evalBase_pushes ho ha, pushesAllowed_iff ho]
  constructor
  · rintro ⟨-, ⟨-, hm, -⟩, rfl⟩
    exact ⟨hm, rfl⟩
  · rintro ⟨hm, rfl⟩
    exact ⟨hs, ⟨hl, hm, hh⟩, rfl⟩

end Palladium
