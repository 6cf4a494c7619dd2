import Palladium.Script.Execution

/-! # Building and parsing scripts

`GetScriptOp` on iterators whose difference is an `int32_t`, with every read checked against the
end.
-/

namespace Palladium
open List

/-- How `GetScriptOp` ends without an instruction. -/
inductive ReadFailure
  | returnFalse | beyondEnd
  deriving DecidableEq, Repr

def iteratorDiff (stop pc : ℕ) : ℤ := ((stop : ℤ) - pc).bmod (2 ^ 32)

variable (script : CScript)

/-- The `n` bytes from an iterator on. -/
def CScript.read (pc n : ℕ) : Except ReadFailure (List UInt8) :=
  if pc + n ≤ script.length then .ok ((script.drop pc).take n) else .error .beyondEnd

def CScript.readPushAt (opcode : UInt8) (nSize pc : ℕ) :
    Except ReadFailure (UInt8 × Valtype × ℕ) := do
  if iteratorDiff script.length pc < 0 ∨ (iteratorDiff script.length pc).toNat < nSize then
    throw .returnFalse
  return (opcode, ← script.read pc nSize, pc + nSize)

/-- The push whose size stands in the next `k` bytes. -/
def CScript.readSizedPushAt (opcode : UInt8) (k pc : ℕ) :
    Except ReadFailure (UInt8 × Valtype × ℕ) := do
  if iteratorDiff script.length pc < k then throw .returnFalse
  script.readPushAt opcode (readLE (← script.read pc k)) (pc + k)

def getScriptOpAt (pc : ℕ) : Except ReadFailure (UInt8 × Valtype × ℕ) := do
  if script.length ≤ pc then throw .returnFalse
  if iteratorDiff script.length pc < 1 then throw .returnFalse
  let opcode := (← script.read pc 1).headD 0
  let pc := pc + 1
  if opcode < opPushData1 then script.readPushAt opcode opcode.toNat pc
  else if opcode = opPushData1 then script.readSizedPushAt opcode 1 pc
  else if opcode = opPushData2 then script.readSizedPushAt opcode 2 pc
  else if opcode = opPushData4 then script.readSizedPushAt opcode 4 pc
  else return (opcode, [], pc)

/-- What successive calls return, if the last one stops at the end. -/
def scanOps (script : CScript) : (fuel pc : ℕ) → Option (List (UInt8 × Valtype))
  | 0, _ => none
  | fuel + 1, pc =>
    if pc = script.length then some []
    else match getScriptOpAt script pc with
      | .ok (opcode, vch, pc) => (scanOps script fuel pc).map ((opcode, vch) :: ·)
      | .error _ => none

variable {script : CScript} {pc j n : ℕ}

def window (script : CScript) (pc : ℕ) : CScript :=
  (script.drop pc).take (iteratorDiff script.length pc).toNat

theorem iteratorDiff_le (h : pc ≤ n) : iteratorDiff n pc ≤ n - pc := by
  unfold iteratorDiff Int.bmod
  dsimp only
  split <;> omega

theorem iteratorDiff_add (h : j ≤ iteratorDiff n pc) :
    iteratorDiff n (pc + j) = iteratorDiff n pc - j := by
  unfold iteratorDiff Int.bmod at *
  push_cast at *
  split at h <;> split <;> omega

theorem length_window (h : pc ≤ script.length) :
    (window script pc).length = (iteratorDiff script.length pc).toNat := by
  have := iteratorDiff_le h
  rw [window, length_take, length_drop]
  omega

theorem read_window (h : pc ≤ script.length) (hn : j + n ≤ (window script pc).length) :
    script.read (pc + j) n = .ok (((window script pc).drop j).take n) := by
  have hl := iteratorDiff_le h
  rw [length_window h] at hn
  rw [CScript.read, if_pos (by omega), window, drop_take, take_take, drop_drop,
    min_eq_left (by omega)]

def ofWindow (script : CScript) (pc : ℕ) :
    Option ScriptOp → Except ReadFailure (UInt8 × Valtype × ℕ)
  | none => .error .returnFalse
  | some op => .ok (op.opcode, op.vch, pc + ((window script pc).length - op.pc.length))

variable (opcode : UInt8) (nSize : ℕ)

theorem readPushAt_window (h : pc ≤ script.length) (hpo : 0 < j)
    (hj : j ≤ (window script pc).length) : script.readPushAt opcode nSize (pc + j) =
      ofWindow script pc (takePush opcode nSize ((window script pc).drop j)) := by
  have hl := length_window h
  rw [CScript.readPushAt, iteratorDiff_add (by omega), takePush, length_drop]
  by_cases hs : (window script pc).length - j < nSize
  · rw [if_pos (by omega), if_pos hs]
    rfl
  · have hp : pc + j + nSize =
        pc + ((window script pc).length - ((window script pc).length - j - nSize)) := by omega
    rw [if_neg (by omega), if_neg hs, read_window h (by omega), ofWindow, length_drop,
      length_drop, ← hp]
    rfl

theorem readSizedPushAt_window (h : pc ≤ script.length) (hp : 0 < (window script pc).length)
    (k : ℕ) : script.readSizedPushAt opcode k (pc + 1) =
      ofWindow script pc (takeSizedPush opcode k ((window script pc).drop 1)) := by
  have hl := length_window h
  rw [CScript.readSizedPushAt, iteratorDiff_add (by omega), takeSizedPush, length_drop]
  by_cases hs : (window script pc).length - 1 < k
  · rw [if_pos (by omega), if_pos hs]
    rfl
  · rw [if_neg (by omega), if_neg hs, read_window h (by omega), drop_drop, add_assoc,
      ← readPushAt_window opcode _ h (by omega) (by omega)]
    rfl

theorem getScriptOpAt_eq (h : pc ≤ script.length) :
    getScriptOpAt script pc = ofWindow script pc (getScriptOp (window script pc)) := by
  have hln := length_window h
  have hle := iteratorDiff_le h
  unfold getScriptOpAt
  rcases Nat.eq_zero_or_pos (window script pc).length with hn | hp
  · rw [length_eq_zero_iff.mp hn, if_pos (show iteratorDiff script.length pc < 1 by omega)]
    split <;> rfl
  · obtain ⟨o, w, hw⟩ := exists_cons_of_length_pos hp
    have hr : script.read pc 1 = .ok [o] := by
      rw [← Nat.add_zero pc, read_window h hp, hw]
      rfl
    have ho : getScriptOp (window script pc) =
        if o < opPushData1 then takePush o o.toNat ((window script pc).drop 1)
        else if o = opPushData1 then takeSizedPush o 1 ((window script pc).drop 1)
        else if o = opPushData2 then takeSizedPush o 2 ((window script pc).drop 1)
        else if o = opPushData4 then takeSizedPush o 4 ((window script pc).drop 1)
        else some ⟨o, [], (window script pc).drop 1⟩ := by
      rw [hw]
      rfl
    rw [if_neg (by omega), if_neg (by omega), hr, ho]
    change (if o < opPushData1 then script.readPushAt o o.toNat (pc + 1)
      else if o = opPushData1 then script.readSizedPushAt o 1 (pc + 1)
      else if o = opPushData2 then script.readSizedPushAt o 2 (pc + 1)
      else if o = opPushData4 then script.readSizedPushAt o 4 (pc + 1)
      else .ok (o, [], pc + 1)) = _
    have hl : ofWindow script pc (some ⟨o, [], (window script pc).drop 1⟩) =
        .ok (o, [], pc + 1) := by
      rw [ofWindow, length_drop, Nat.sub_sub_self hp]
    simp only [readPushAt_window o _ h one_pos hp, readSizedPushAt_window o h hp,
      apply_ite (ofWindow script pc), hl]

theorem window_eq_drop (h : script.length < pc + 2 ^ 31) : window script pc = script.drop pc := by
  refine take_of_length_le ?_
  rw [length_drop]
  unfold iteratorDiff Int.bmod
  dsimp only
  split <;> omega

/-- What is appended to a script by `operator<<`. -/
inductive ScriptItem
  | opcode (opcode : UInt8) (h : opPushData4 < opcode)
  | data (b : Valtype) (h : b.length < 2 ^ 32)

def ScriptItem.append (script : CScript) : ScriptItem → CScript
  | .opcode opcode _ => script ++ [opcode]
  | .data b _ => script.push b

def ScriptItem.op : ScriptItem → UInt8 × Valtype
  | .opcode opcode _ => (opcode, [])
  | .data b _ => ((pushOp b []).opcode, b)

variable (items : List ScriptItem)

def CScript.ofItems : CScript := items.foldl ScriptItem.append []

theorem foldl_append (script : CScript) :
    items.foldl ScriptItem.append script = script ++ items.flatMap (ScriptItem.append []) := by
  induction items generalizing script with
  | nil => simp
  | cons item items ih =>
    have ha : item.append script = script ++ item.append [] := by
      cases item with
      | opcode => rfl
      | data b => exact push_eq_append script b
    rw [foldl_cons, ih, ha, flatMap_cons, append_assoc]

theorem getScriptOp_item (item : ScriptItem) (rest : CScript) :
    getScriptOp (item.append [] ++ rest) = some ⟨item.op.1, item.op.2, rest⟩ := by
  cases item with
  | opcode opcode h => exact getScriptOp_opcode h rest
  | data b h => exact getScriptOp_push h rest

theorem scanOps_items {items : List ScriptItem} {fuel : ℕ}
    (h : script.length < 2 ^ 31) (hp : pc ≤ script.length)
    (hd : script.drop pc = items.flatMap (ScriptItem.append []))
    (hf : items.length < fuel) : scanOps script fuel pc = some (items.map ScriptItem.op) := by
  induction items generalizing pc fuel with
  | nil =>
    obtain ⟨fuel, rfl⟩ : ∃ n, fuel = n + 1 := ⟨fuel - 1, by simp at hf; omega⟩
    have := drop_eq_nil_iff.mp hd
    rw [scanOps, if_pos (by omega)]
    rfl
  | cons item items ih =>
    obtain ⟨fuel, rfl⟩ : ∃ n, fuel = n + 1 := ⟨fuel - 1, by simp at hf; omega⟩
    rw [flatMap_cons] at hd
    have hw : window script pc = _ := (window_eq_drop (by omega)).trans hd
    have hl := congrArg List.length hd
    rw [length_drop, length_append] at hl
    have hpo : 0 < (item.append []).length := by
      have := getScriptOp_length (getScriptOp_item item [])
      simpa using this
    rw [scanOps, if_neg (by omega), getScriptOpAt_eq hp, hw, getScriptOp_item, ofWindow,
      hw]
    simp only [length_append, Nat.add_sub_cancel]
    rw [ih (by omega) (by rw [← drop_drop, hd, drop_left])
      (by simpa using hf)]
    rfl

theorem iteratorDiff_neg (h : 2 ^ 31 ≤ n) (hn : n < 2 ^ 32) : iteratorDiff n 0 < 1 := by
  unfold iteratorDiff Int.bmod
  dsimp only
  split <;> omega

theorem scanOps_eq_none (hp : 0 < script.length) (hd : iteratorDiff script.length 0 < 1)
    (fuel : ℕ) : scanOps script (fuel + 1) 0 = none := by
  have hw : window script 0 = [] := by
    rw [← length_eq_zero_iff, length_window (Nat.zero_le _)]
    omega
  rw [scanOps, if_neg hp.ne, getScriptOpAt_eq (Nat.zero_le _), hw]
  rfl

/-- The script built from a list of items is parsed into them if it is shorter than `2 ^ 31` bytes,
and only then; and no call reads beyond the end. -/
theorem scanOps_ofItems (items : List ScriptItem) (hlen : (CScript.ofItems items).length < 2 ^ 32) :
    (scanOps (.ofItems items) (items.length + 1) 0 = some (items.map ScriptItem.op) ↔
      (CScript.ofItems items).length < 2 ^ 31) ∧
    ∀ (script : CScript) (pc : ℕ), pc ≤ script.length →
      getScriptOpAt script pc ≠ .error .beyondEnd ∧
      ∀ opcode vch pc', getScriptOpAt script pc = .ok (opcode, vch, pc') →
        pc < pc' ∧ pc' ≤ script.length := by
  refine ⟨⟨fun hs => ?_, fun h => ?_⟩, fun script pc hp => ?_⟩
  · by_contra hlong
    rw [scanOps_eq_none (by omega) (iteratorDiff_neg (Nat.not_lt.mp hlong) hlen)] at hs
    cases hs
  · exact scanOps_items h (Nat.zero_le _) (foldl_append items []) (Nat.lt_succ_self _)
  · rw [getScriptOpAt_eq hp]
    have hlen := length_window hp
    have hl := iteratorDiff_le hp
    cases ho : getScriptOp (window script pc) with
    | none => simp [ofWindow]
    | some op =>
      have hlt := getScriptOp_length ho
      refine ⟨by simp [ofWindow], fun opcode vch pc' h => ?_⟩
      cases h
      omega

theorem scanOps_ofItems_nopAndPush :
    scanOps (.ofItems [.opcode 0x61 (by decide), .data [7, 8] (by decide)]) 3 0 =
      some [(0x61, []), (2, [7, 8])] :=
  (scanOps_ofItems [.opcode 0x61 (by decide), .data [7, 8] (by decide)] (by decide)).1.mpr
    (by decide)

def longPush : ScriptItem :=
  .data (List.replicate (2 ^ 31) 0) (by rw [length_replicate]; omega)

theorem length_ofItems_data {b : Valtype} {h : b.length < 2 ^ 32} (hb : 2 ^ 16 ≤ b.length) :
    (CScript.ofItems [.data b h]).length = b.length + 5 := by
  have hp : CScript.ofItems [.data b h] = CScript.push [] b := rfl
  have hs : ¬ b.length < opPushData1.toNat := by
    rw [show opPushData1.toNat = 76 from rfl]
    omega
  rw [hp, CScript.push, if_neg hs, if_neg (by omega), if_neg (by omega), nil_append,
    length_cons, length_append, length_writeLE]
  omega

/-- A push of `2 ^ 31` bytes is built and not parsed. -/
theorem longPush_not_parsed : (CScript.ofItems [longPush]).length = 2 ^ 31 + 5 ∧
    scanOps (.ofItems [longPush]) 2 0 ≠ some [longPush.op] := by
  have hl : (CScript.ofItems [longPush]).length = 2 ^ 31 + 5 := by
    rw [longPush, length_ofItems_data (by rw [length_replicate]; omega), length_replicate]
  refine ⟨hl, ?_⟩
  rw [scanOps_eq_none (by omega) (iteratorDiff_neg (by omega) (by omega))]
  exact (Option.some_ne_none _).symm

end Palladium
