import Mathlib.Data.List.Infix
import Palladium.Script.Interpreter

/-! # The condition stack as a vector of booleans

`ConditionStack` keeps a size and the position of the first false value.
-/

namespace Palladium.ConditionStack
open List

inductive Call
  | pushBack (f : Bool)
  | popBack
  | toggleTop

def call (c : ConditionStack) : Call → Except ScriptHalt ConditionStack
  | .pushBack f => .ok (c.pushBack f)
  | .popBack => c.popBack
  | .toggleTop => c.toggleTop

/-- A call on the vector, whose last element is the head of the list. -/
def callVector : List Bool → Call → Option (List Bool)
  | v, .pushBack f => some (f :: v)
  | _ :: v, .popBack => some v
  | f :: v, .toggleTop => some ((!f) :: v)
  | [], _ => none

/-- The two words of the class. -/
structure Words where
  stackSize : ℕ := 0
  firstFalsePos : ℕ := 2 ^ 32 - 1

def noFalse : ℕ := 2 ^ 32 - 1

namespace Words
variable (c : Words)

def empty : Bool := c.stackSize = 0

def allTrue : Bool := c.firstFalsePos = noFalse

def pushBack (f : Bool) : Words :=
  { stackSize := (c.stackSize + 1) % 2 ^ 32
    firstFalsePos := if c.firstFalsePos = noFalse && !f then c.stackSize else c.firstFalsePos }

/-- A call, unless its assertion fails. -/
def call : Call → Option Words
  | .pushBack f => c.pushBack f
  | .popBack =>
    if 0 < c.stackSize then
      some { stackSize := c.stackSize - 1
             firstFalsePos :=
               if c.firstFalsePos = c.stackSize - 1 then noFalse else c.firstFalsePos }
    else none
  | .toggleTop =>
    if 0 < c.stackSize then
      some { c with firstFalsePos :=
               if c.firstFalsePos = noFalse then c.stackSize - 1
               else if c.firstFalsePos = c.stackSize - 1 then noFalse
               else c.firstFalsePos }
    else none

end Words

/-- The position of the first false value, counted from the bottom. -/
def firstFalse : List Bool → Option ℕ
  | [] => none
  | f :: v => (firstFalse v).or (if f then none else some v.length)

def ofVector (v : List Bool) : ConditionStack := ⟨v.length, firstFalse v⟩

def words (c : ConditionStack) : Words := ⟨c.stackSize, c.firstFalsePos.getD noFalse⟩

variable {v v' : List Bool} {c : Call} {n : ℕ}

theorem firstFalse_lt (h : firstFalse v = some n) : n < v.length := by
  induction v with
  | nil => cases h
  | cons f v ih =>
    rw [firstFalse, Option.or_eq_some_iff] at h
    rcases h with h | ⟨-, h⟩
    · exact (ih h).trans (Nat.lt_succ_self _)
    · cases f <;> cases h
      exact Nat.lt_succ_self _

theorem firstFalse_eq_none : firstFalse v = none ↔ v.all id := by
  induction v with
  | nil => simp [firstFalse]
  | cons f v ih => cases f <;> simp [firstFalse, ih]

theorem ne_noFalse {m : ℕ} (hn : n < m) (hm : m < 2 ^ 32) : n ≠ noFalse := by
  unfold noFalse
  omega

/-- The values above the first false one are never asked for. -/
theorem call_ofVector (h : callVector v c = some v') (hv : v.length < 2 ^ 32)
    (hv' : v'.length < 2 ^ 32) : (ofVector v).call c = .ok (ofVector v') ∧
      (ofVector v).words.call c = some (ofVector v').words := by
  obtain ⟨f⟩ | _ | _ := c
  · cases h
    rw [length_cons] at hv'
    cases hf : firstFalse v with
    | none =>
      cases f <;> simpa [call, pushBack, allTrue, Words.call, Words.pushBack, words, ofVector,
        firstFalse, hf] using hv'
    | some n =>
      simpa [call, pushBack, allTrue, Words.call, Words.pushBack, words, ofVector, firstFalse, hf,
        ne_noFalse (firstFalse_lt hf) hv] using hv'
  all_goals
    obtain _ | ⟨f, w⟩ := v
    · cases h
    obtain rfl := Option.some.inj h
    have ht : w.length ≠ noFalse := ne_noFalse (Nat.lt_succ_self _) hv
    cases hw : firstFalse w with
    | none =>
      cases f <;> simp [call, popBack, toggleTop, assert, allTrue, Words.call, words, ofVector,
        firstFalse, hw, ht, ht.symm]
    | some n =>
      have hn := firstFalse_lt hw
      have hne : n ≠ noFalse := ne_noFalse (hn.trans (Nat.lt_succ_self _)) hv
      simp [call, popBack, toggleTop, assert, allTrue, Words.call, words, ofVector, firstFalse, hw,
        hn.ne, hne]

theorem calls_ofVector (calls : List Call) (h : calls.foldlM callVector v = some v')
    (hd : ∀ pre ∈ calls.inits, (pre.foldlM callVector v).all (·.length < 2 ^ 32)) :
    calls.foldlM Words.call (ofVector v).words = some (ofVector v').words := by
  induction calls generalizing v with
  | nil => cases h; rfl
  | cons c calls ih =>
    rw [foldlM_cons] at h
    obtain ⟨w, hw, hr⟩ := Option.bind_eq_some_iff.mp h
    simp only [inits_cons, mem_cons, forall_eq_or_imp, mem_map, forall_exists_index, and_imp,
      forall_apply_eq_imp_iff₂, foldlM_cons, hw] at hd
    have hl := hd.2 [] (by simp)
    rw [foldlM_cons, (call_ofVector hw (by simpa using hd.1) (by simpa using hl)).2]
    exact ih hr hd.2

/-- The answers after any legal calls during which the vector is never too long. -/
theorem answers_of_calls (calls : List Call) (v : List Bool)
    (hlegal : calls.foldlM callVector [] = some v)
    (hdepth : ∀ pre ∈ calls.inits, (pre.foldlM callVector []).all (·.length < 2 ^ 32)) :
    ∃ c : Words, calls.foldlM Words.call {} = some c ∧
      c.allTrue = v.all id ∧ c.empty = v.isEmpty := by
  refine ⟨(ofVector v).words, calls_ofVector calls hlegal hdepth, ?_, ?_⟩
  · have hl : v.length < 2 ^ 32 := by
      simpa [hlegal] using hdepth calls ((mem_inits _ _).mpr (prefix_refl calls))
    rw [Bool.eq_iff_iff, ← firstFalse_eq_none]
    cases hv : firstFalse v with
    | none => simp [Words.allTrue, words, ofVector, hv]
    | some n => simpa [Words.allTrue, words, ofVector, hv] using ne_noFalse (firstFalse_lt hv) hl
  · cases v <;> rfl

theorem answers_of_calls_toggled : ∃ c : Words,
    [Call.pushBack false, .pushBack true, .popBack, .toggleTop].foldlM Words.call {} = some c ∧
      c.allTrue = true ∧ c.empty = false :=
  answers_of_calls _ [true] rfl (by decide)

/-- The size is back at zero after `2 ^ 32` values. -/
theorem empty_after_wrap : ∃ (calls : List Call) (v : List Bool) (c : Words),
    calls.foldlM callVector [] = some v ∧ calls.foldlM Words.call {} = some c ∧
      c.empty = true ∧ v.isEmpty = false := by
  have hr : ∀ n, (replicate n (Call.pushBack true)).foldlM callVector [] = some (replicate n true) ∧
      (replicate n (Call.pushBack true)).foldlM Words.call {} = some ⟨n % 2 ^ 32, noFalse⟩ := by
    intro n
    induction n with
    | zero => exact ⟨rfl, rfl⟩
    | succ n ih =>
      rw [replicate_succ', foldlM_append, foldlM_append, ih.1, ih.2]
      constructor
      · rfl
      · simp [Words.call, Words.pushBack]
  obtain ⟨n, hp, hz⟩ : ∃ n, 0 < n ∧ n % 2 ^ 32 = 0 := ⟨2 ^ 32, by decide, by decide⟩
  refine ⟨_, _, _, (hr n).1, (hr n).2, decide_eq_true hz, ?_⟩
  rw [isEmpty_replicate, decide_eq_false_iff_not]
  exact hp.ne'

end Palladium.ConditionStack
