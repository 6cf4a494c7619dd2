import Palladium.Script.Multisig
import Palladium.Script.SignatureHash

/-! # The script code of a signature

`SerializeScriptCode` writes the signed script without its separators, as slices between them.
-/

namespace Palladium
open List Nat

/-- The second loop of `SerializeScriptCode`, where the slice that is not written yet begins at
`itBegin`. -/
def writeSlices : ℕ → (itBegin it : CScript) → List UInt8
  | 0, _, _ => []
  | fuel + 1, itBegin, it =>
    match getScriptOp it with
    | none =>
      if itBegin.isEmpty then []
      else itBegin.take (itBegin.length - (it.length - (failedRead it).length))
    | some op =>
      if op.opcode = opCodeSeparatorByte then
        itBegin.take (itBegin.length - op.pc.length - 1) ++ writeSlices fuel op.pc op.pc
      else writeSlices fuel itBegin op.pc

/-- Where `GetOp` fails, after at most `fuel` instructions. -/
def unreadFrom : ℕ → CScript → CScript
  | 0, pc => pc
  | fuel + 1, pc =>
    match getScriptOp pc with
    | none => pc
    | some op => unreadFrom fuel op.pc

/-- The end of the script that `GetOp` cannot read. -/
def CScript.unread (script : CScript) : CScript := unreadFrom script.length script

variable (opcode : UInt8)

/-- The script ends inside a push, and not right behind its opcode or its size. -/
def CScript.endsInsidePush (script : CScript) : Bool :=
  match script.unread with
  | [] => false
  | opcode :: pc => !pc.isEmpty && pc.length ≠ nSizeBytes opcode

/-- Reading `pc` meets `n` separators, other instructions with the bytes `kept`, and then fails
before `rest`. -/
inductive Scans : (pc : CScript) → (n : ℕ) → (kept rest : CScript) → Prop
  | stop {pc : CScript} : getScriptOp pc = none → Scans pc 0 [] pc
  | separator {pc kept rest : CScript} {n : ℕ} :
    Scans pc n kept rest → Scans (opCodeSeparatorByte :: pc) (n + 1) kept rest
  | op {bytes kept rest : CScript} {op : ScriptOp} {n : ℕ} :
    getScriptOp (bytes ++ op.pc) = some op → op.opcode ≠ opCodeSeparatorByte →
      Scans op.pc n kept rest → Scans (bytes ++ op.pc) n (bytes ++ kept) rest

variable (pc : CScript)

theorem getScriptOp_separator :
    getScriptOp (opCodeSeparatorByte :: pc) = some ⟨opCodeSeparatorByte, [], pc⟩ :=
  getScriptOp_opcode (by decide) pc

theorem exists_scans : ∃ n kept rest, Scans pc n kept rest := by
  induction hl : pc.length using Nat.strong_induction_on generalizing pc with
  | _ len ih =>
    cases ho : getScriptOp pc with
    | none => exact ⟨0, [], pc, .stop ho⟩
    | some op =>
      obtain ⟨n, kept, rest, hs⟩ := ih _ (hl ▸ getScriptOp_length ho) op.pc rfl
      by_cases hse : op.opcode = opCodeSeparatorByte
      · cases pc with
        | nil => cases ho
        | cons opcode pc =>
          obtain rfl : opcode = opCodeSeparatorByte := (getScriptOp_cons ho).1.symm.trans hse
          rw [getScriptOp_separator] at ho
          cases ho
          exact ⟨n + 1, kept, rest, hs.separator⟩
      · obtain ⟨bytes, rfl⟩ := (getScriptOp_spec ho).1
        exact ⟨n, bytes ++ kept, rest, .op ho hse hs⟩

theorem failedRead_initial : failedRead pc <+: pc := by
  cases pc with
  | nil => exact prefix_rfl
  | cons opcode pc =>
    rw [failedRead, prefix_cons_inj]
    split
    · exact nil_prefix
    · exact take_prefix _ _

theorem failedRead_eq_self_iff :
    failedRead (opcode :: pc) = opcode :: pc ↔ pc = [] ∨ pc.length = nSizeBytes opcode := by
  rw [failedRead, cons_inj_right]
  split
  · next h =>
    refine ⟨fun hn => .inl hn.symm, ?_⟩
    rintro (rfl | hl)
    · rfl
    · omega
  · next h =>
    constructor
    · intro ht
      have hl := congrArg List.length ht
      rw [length_take] at hl
      exact .inr (by omega)
    · rintro (rfl | hl)
      · exact take_nil
      · exact take_of_length_le hl.le

theorem dropMatches_of_ne {pc : CScript} (hn : ∀ pc', pc ≠ opCodeSeparatorByte :: pc')
    (fuel : ℕ) : dropMatches [opCodeSeparatorByte] fuel pc = (0, pc) := by
  cases fuel with
  | zero => rfl
  | succ fuel =>
    rw [dropMatches, if_neg]
    cases pc with
    | nil => simp
    | cons b pc =>
      have hb : opCodeSeparatorByte ≠ b := by
        rintro rfl
        exact hn pc rfl
      simp [List.isPrefixOf, hb]

theorem findAndDeleteFrom_separator (fuel : ℕ) (pc : CScript) :
    findAndDeleteFrom [opCodeSeparatorByte] (fuel + 1) (opCodeSeparatorByte :: pc) =
      ((findAndDeleteFrom [opCodeSeparatorByte] (fuel + 1) pc).1 + 1,
        (findAndDeleteFrom [opCodeSeparatorByte] (fuel + 1) pc).2) := by
  have hd : dropMatches [opCodeSeparatorByte] (opCodeSeparatorByte :: pc).length
      (opCodeSeparatorByte :: pc) =
      ((dropMatches [opCodeSeparatorByte] pc.length pc).1 + 1,
        (dropMatches [opCodeSeparatorByte] pc.length pc).2) := by
    simp [dropMatches, List.isPrefixOf]
  rw [findAndDeleteFrom, findAndDeleteFrom, hd]
  dsimp only
  cases getScriptOp (dropMatches [opCodeSeparatorByte] pc.length pc).2 with
  | none => rfl
  | some op => simp only [Nat.add_right_comm]

namespace Scans
variable {pc kept rest : CScript} {n : ℕ}
variable (h : Scans pc n kept rest)

include h

theorem length_eq : pc.length = n + (kept ++ rest).length := by
  induction h with
  | stop => simp
  | separator _ ih =>
    rw [length_cons, ih]
    omega
  | op _ _ _ ih =>
    simp only [length_append] at ih ⊢
    omega

theorem countP_ops :
    (pc.ops.countP fun op => op.any fun op => op.opcode = opCodeSeparatorByte) = n := by
  induction h with
  | @stop pc ho =>
    cases pc with
    | nil => rfl
    | cons b pc => simp [CScript.ops, opsFrom, ho]
  | separator _ ih =>
    rw [ops_of_getScriptOp (getScriptOp_separator _), countP_cons, ih]
    simp
  | op ho hn _ ih =>
    rw [ops_of_getScriptOp ho, countP_cons, ih]
    simp [hn]

variable {fuel : ℕ}

theorem scriptCodeFrom_eq (hf : pc.length < fuel) :
    scriptCodeFrom fuel pc = kept ++ failedRead rest := by
  induction h generalizing fuel with
  | stop ho =>
    obtain _ | fuel := fuel
    · cases hf
    simp [scriptCodeFrom, ho]
  | separator _ ih =>
    obtain _ | fuel := fuel
    · cases hf
    simp [scriptCodeFrom, getScriptOp_separator, ih (lt_of_succ_lt_succ hf)]
  | @op bytes _ _ op _ ho hn _ ih =>
    obtain _ | fuel := fuel
    · cases hf
    have hl := getScriptOp_length ho
    simp [scriptCodeFrom, ho, hn, ih (show op.pc.length < fuel by omega)]

theorem writeSlices_eq (hf : pc.length < fuel) (before : CScript) :
    writeSlices fuel (before ++ pc) pc = before ++ (kept ++ failedRead rest) := by
  induction h generalizing fuel before with
  | @stop pc ho =>
    obtain _ | fuel := fuel
    · cases hf
    rw [writeSlices, ho]
    dsimp only
    split
    · next hn =>
      obtain ⟨rfl, rfl⟩ := append_eq_nil_iff.mp (isEmpty_iff.mp hn)
      rfl
    · have hl := (failedRead_initial pc).length_le
      have ht : before.length + pc.length - (pc.length - (failedRead pc).length) =
          before.length + (failedRead pc).length := by omega
      rw [length_append, ht, take_length_add_append,
        ← prefix_iff_eq_take.mp (failedRead_initial pc), nil_append]
  | @separator pc _ _ _ _ ih =>
    obtain _ | fuel := fuel
    · cases hf
    have hr := ih (lt_of_succ_lt_succ hf) []
    rw [nil_append, nil_append] at hr
    rw [writeSlices, getScriptOp_separator]
    dsimp only
    rw [if_pos rfl, hr, length_append, length_cons,
      show before.length + (pc.length + 1) - pc.length - 1 = before.length by omega, take_left]
  | @op bytes _ _ op _ ho hne _ ih =>
    obtain _ | fuel := fuel
    · cases hf
    have hlt := getScriptOp_length ho
    rw [writeSlices, ho]
    dsimp only
    rw [if_neg hne, ← append_assoc, ih (by omega), append_assoc, append_assoc]

theorem unreadFrom_eq (hf : pc.length ≤ fuel) : unreadFrom fuel pc = rest := by
  induction h generalizing fuel with
  | stop ho =>
    cases fuel with
    | zero => rfl
    | succ fuel => rw [unreadFrom, ho]
  | separator _ ih =>
    obtain _ | fuel := fuel
    · cases hf
    rw [unreadFrom, getScriptOp_separator]
    exact ih (le_of_succ_le_succ hf)
  | op ho hn _ ih =>
    have hl := getScriptOp_length ho
    obtain ⟨fuel, rfl⟩ := exists_eq_add_one.mpr (zero_lt_of_lt (hl.trans_le hf))
    rw [unreadFrom, ho]
    exact ih (by omega)

theorem eq_of_zero (hn : n = 0) : kept ++ rest = pc := by
  induction h with
  | stop => rfl
  | separator => cases hn
  | op _ _ _ ih => rw [append_assoc, ih hn]

theorem findAndDeleteFrom_eq (hf : pc.length < fuel) :
    findAndDeleteFrom [opCodeSeparatorByte] fuel pc = (n, kept ++ rest) := by
  induction h generalizing fuel with
  | stop ho =>
    obtain _ | fuel := fuel
    · cases hf
    rw [findAndDeleteFrom, dropMatches_of_ne]
    · simp [ho]
    · rintro pc rfl
      rw [getScriptOp_separator] at ho
      cases ho
  | separator _ ih =>
    obtain _ | fuel := fuel
    · cases hf
    rw [findAndDeleteFrom_separator, ih (lt_of_succ_lt hf)]
  | @op bytes _ _ op _ ho hn _ ih =>
    obtain _ | fuel := fuel
    · cases hf
    have hl := getScriptOp_length ho
    rw [findAndDeleteFrom, dropMatches_of_ne]
    · simp [ho, ih (show op.pc.length < fuel by omega)]
    · intro pc hp
      rw [hp] at ho
      exact hn (getScriptOp_cons ho).1

theorem findAndDelete_eq : findAndDelete pc [opCodeSeparatorByte] = (n, kept ++ rest) := by
  rw [findAndDelete, if_neg (by simp), h.findAndDeleteFrom_eq (lt_succ_self _)]
  dsimp only
  split
  · rfl
  · rw [h.eq_of_zero (by omega)]

end Scans

theorem serializeScriptCode_eq_writeSlices (scriptCode : CScript) : serializeScriptCode scriptCode =
      writeCompactSize (scriptCode.length - scriptCode.ops.countP fun op =>
        op.any fun op => op.opcode = opCodeSeparatorByte) ++
      writeSlices (scriptCode.length + 1) scriptCode scriptCode := by
  obtain ⟨n, kept, rest, h⟩ := exists_scans scriptCode
  have hs := h.writeSlices_eq (lt_succ_self _) []
  rw [nil_append, nil_append] at hs
  rw [hs, ← h.scriptCodeFrom_eq (lt_succ_self _)]
  rfl

/-- What is written is the script without its separators exactly if the script does not end inside
the size or the data of a push. -/
theorem serializeScriptCode_eq_iff (scriptCode : CScript) : serializeScriptCode scriptCode =
        serializeVch (findAndDelete scriptCode [opCodeSeparatorByte]).2 ↔
      scriptCode.endsInsidePush = false := by
  obtain ⟨n, kept, rest, h⟩ := exists_scans scriptCode
  have hl : scriptCode.length - n = (kept ++ rest).length := by
    rw [h.length_eq, Nat.add_sub_cancel_left]
  rw [serializeScriptCode, serializeVch, h.countP_ops, h.findAndDelete_eq,
    h.scriptCodeFrom_eq (lt_succ_self _), hl, append_cancel_left_eq,
    append_cancel_left_eq, CScript.endsInsidePush, CScript.unread, h.unreadFrom_eq le_rfl]
  cases rest with
  | nil => exact iff_of_true rfl rfl
  | cons opcode pc =>
    rw [failedRead_eq_self_iff]
    cases pc <;> simp

/-- One byte of the data of a push of five bytes is there, and is not written. -/
theorem serializeScriptCode_truncated :
    serializeScriptCode [0x51, 0x4c, 5, 1] = [4, 0x51, 0x4c, 5] ∧
      serializeScriptCode [0x51, 0x4c, 5, 1] ≠
        serializeVch (findAndDelete [0x51, 0x4c, 5, 1] [opCodeSeparatorByte]).2 := by decide

end Palladium
