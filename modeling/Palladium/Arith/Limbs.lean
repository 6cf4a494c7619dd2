import Palladium.Arith.BaseUint

/-! # The operators of `base_uint`, word by word

The operators of `base_uint<256>` as they run over the words.
-/

namespace Palladium.BaseUint
open LeadingBits List Nat

/-- The loop of `+=`. -/
def addLoop : UInt64 → List UInt32 → List UInt32 → List UInt32
  | carry, x :: a, y :: b =>
    let n := carry + x.toUInt64 + y.toUInt64
    (n &&& 0xffffffff).toUInt32 :: addLoop (n >>> 32) a b
  | _, a, _ => a

/-- The loop of `*=` by a word. -/
def mulWordLoop (b32 : UInt32) : UInt64 → List UInt32 → List UInt32
  | carry, x :: a =>
    let n := carry + b32.toUInt64 * x.toUInt64
    (n &&& 0xffffffff).toUInt32 :: mulWordLoop b32 (n >>> 32) a
  | _, [] => []

/-- The loop of `++`: go on while a word wraps to zero. -/
def incLoop : List UInt32 → List UInt32
  | x :: a => if x + 1 = 0 then (x + 1) :: incLoop a else (x + 1) :: a
  | [] => []

/-- The loop of `--`: go on while a word wraps to the largest one. -/
def decLoop : List UInt32 → List UInt32
  | x :: a => if x - 1 = 0xffffffff then (x - 1) :: decLoop a else (x - 1) :: a
  | [] => []

variable (pn : List UInt32)

/-- `pn[i] |= x`. -/
def orWord (i : ℕ) (x : UInt32) : List UInt32 := pn.modify i (· ||| x)

variable (a : List UInt32)

/-- The body of the loop of `<<=`. -/
def shlRound (k : ℕ) (shift : UInt32) (pn : List UInt32) (i : ℕ) : List UInt32 :=
  let pn := if i + k + 1 < a.length ∧ shift ≠ 0 then
      orWord pn (i + k + 1) (a.getD i 0 >>> (32 - shift)) else pn
  if i + k < a.length then orWord pn (i + k) (a.getD i 0 <<< shift) else pn

/-- The body of the loop of `>>=`. -/
def shrRound (k : ℕ) (shift : UInt32) (pn : List UInt32) (i : ℕ) : List UInt32 :=
  let pn := if k + 1 ≤ i ∧ shift ≠ 0 then
      orWord pn (i - k - 1) (a.getD i 0 <<< (32 - shift)) else pn
  if k ≤ i then orWord pn (i - k) (a.getD i 0 >>> shift) else pn

def compareLoop (a b : List UInt32) : ℕ → ℤ
  | 0 => 0
  | i + 1 =>
    if a.getD i 0 < b.getD i 0 then -1
    else if b.getD i 0 < a.getD i 0 then 1
    else compareLoop a b i

/-- The inner loop of `bits`, over the bits of a word from `nbits` down. -/
def wordBits (x : UInt32) : ℕ → ℕ
  | 0 => 1
  | nbits + 1 =>
    if x &&& (1 <<< UInt32.ofNat (nbits + 1)) ≠ 0 then nbits + 2 else wordBits x nbits

/-- The outer loop of `bits`, for the words below `n`. -/
def bitsLoop (pn : List UInt32) : ℕ → ℕ
  | 0 => 0
  | pos + 1 =>
    if pn.getD pos 0 ≠ 0 then 32 * pos + wordBits (pn.getD pos 0) 31 else bitsLoop pn pos

section Length
variable (a : List UInt32)

@[simp] theorem length_addLoop (carry : UInt64) (a b : List UInt32) :
    (addLoop carry a b).length = a.length := by
  induction a generalizing carry b with
  | nil => simp [addLoop]
  | cons x a ih => cases b <;> simp [addLoop, ih]

@[simp] theorem length_mulWordLoop (b32 : UInt32) (carry : UInt64) (a : List UInt32) :
    (mulWordLoop b32 carry a).length = a.length := by
  induction a generalizing carry with
  | nil => rfl
  | cons x a ih => simp [mulWordLoop, ih]

@[simp] theorem length_incLoop : (incLoop a).length = a.length := by
  induction a with
  | nil => rfl
  | cons x a ih => rw [incLoop]; split <;> simp [ih]

@[simp] theorem length_decLoop : (decLoop a).length = a.length := by
  induction a with
  | nil => rfl
  | cons x a ih => rw [decLoop]; split <;> simp [ih]

@[simp] theorem length_orWord (i : ℕ) (x : UInt32) :
    (orWord pn i x).length = pn.length := length_modify ..

@[simp] theorem length_shlRound (k : ℕ) (shift : UInt32) (pn : List UInt32) (i : ℕ) :
    (shlRound a k shift pn i).length = pn.length := by
  simp only [shlRound]
  split_ifs <;> simp

@[simp] theorem length_shrRound (k : ℕ) (shift : UInt32) (pn : List UInt32) (i : ℕ) :
    (shrRound a k shift pn i).length = pn.length := by
  simp only [shrRound]
  split_ifs <;> simp

theorem length_foldl_round {round : List UInt32 → ℕ → List UInt32}
    (h : ∀ pn i, (round pn i).length = pn.length) (l : List ℕ) (pn : List UInt32) :
    (l.foldl round pn).length = pn.length := by
  induction l generalizing pn with
  | nil => rfl
  | cons i l ih => rw [foldl_cons, ih, h]

end Length

@[simp] theorem value_replicate_zero (m : ℕ) : value (List.replicate m 0) = 0 := by
  induction m with
  | zero => rfl
  | succ m ih => simp [replicate_succ, ih]

/-- The eight words of a `base_uint<256>`, the lowest one first. -/
structure Words where
  pn : List UInt32
  length_pn : pn.length = 8

namespace Words
variable (a : Words)

def toNat : ℕ := value a.pn

def zero : Words := ⟨List.replicate 8 0, rfl⟩

def add (a b : Words) : Words := ⟨addLoop 0 a.pn b.pn, by simp [a.length_pn]⟩

def inc : Words := ⟨incLoop a.pn, by simp [a.length_pn]⟩

def dec : Words := ⟨decLoop a.pn, by simp [a.length_pn]⟩

def neg : Words := inc ⟨a.pn.map (~~~ ·), by simp [a.length_pn]⟩

/-- The operator `-=` adds the negated number. -/
def sub (a b : Words) : Words := a.add b.neg

/-- The operator `*=` of a word. -/
def mulWord (b32 : UInt32) : Words :=
  ⟨mulWordLoop b32 0 a.pn, by simp [a.length_pn]⟩

/-- The operator `*=`. -/
def mul (a b : Words) : Words :=
  ⟨mulLoop b.pn a.pn (List.replicate 8 0),
    (mulLoop_value (by rw [a.length_pn]; rfl) (by rw [b.length_pn]; rfl)).1⟩

def shiftLeft (shift : UInt32) : Words :=
  ⟨(List.range a.pn.length).foldl (shlRound a.pn (shift / 32).toNat (shift % 32))
    (List.replicate 8 0), by rw [length_foldl_round (by simp)]; rfl⟩

def shiftRight (shift : UInt32) : Words :=
  ⟨(List.range a.pn.length).foldl (shrRound a.pn (shift / 32).toNat (shift % 32))
    (List.replicate 8 0), by rw [length_foldl_round (by simp)]; rfl⟩

def compareTo (a b : Words) : ℤ := compareLoop a.pn b.pn a.pn.length

def bits : ℕ := bitsLoop a.pn a.pn.length

/-- The loop of `/=` for the shifts below `n`, on the number, the divisor and the quotient. -/
def divLoop : ℕ → Words → Words → Words → Words
  | 0, _, _, q => q
  | shift + 1, num, div, q =>
    if num.compareTo div ≥ 0 then
      divLoop shift (num.sub div) (div.shiftRight 1)
        ⟨orWord q.pn (shift / 32) (1 <<< UInt32.ofNat (shift % 32)), by simp [q.length_pn]⟩
    else divLoop shift num (div.shiftRight 1) q

/-- The operator `/=`. -/
def div (a b : Words) : Except Abort Words :=
  let numBits := a.bits
  let divBits := b.bits
  if divBits = 0 then .error .divisionByZero
  else if divBits > numBits then .ok zero
  else .ok (divLoop (numBits - divBits + 1) a (b.shiftLeft (UInt32.ofNat (numBits - divBits)))
    zero)

theorem toNat_lt : a.toNat < 2 ^ 256 := by
  have h := value_lt a.pn
  rw [a.length_pn, ← pow_mul] at h
  exact h

end Words

theorem addLoop_value {a b : List UInt32} {carry : UInt64} (hc : carry.toNat ≤ 1)
    (hl : a.length = b.length) :
    value (addLoop carry a b) ≡ carry.toNat + value a + value b [MOD (2 ^ 32) ^ a.length] := by
  induction a generalizing b carry with
  | nil => simp [modEq_one]
  | cons x a ih =>
    cases b with
    | nil => simp at hl
    | cons y b =>
      have hx := x.toNat_lt
      have hy := y.toNat_lt
      simp only [addLoop, value_cons, length_cons, pow_succ' (2 ^ 32)]
      generalize hn : carry + x.toUInt64 + y.toUInt64 = n
      have hsu : n.toNat = carry.toNat + x.toNat + y.toNat := by
        rw [← hn]
        simp only [UInt64.toNat_add, UInt32.toNat_toUInt64]
        omega
      have hs := split_word n
      have hv := @ih b (n >>> 32) (by omega) (Nat.succ.inj hl)
      refine ((hv.mul_left' (2 ^ 32)).add_left _).trans ?_
      rw [mul_add, mul_add, ← add_assoc, ← add_assoc, hs, hsu]
      exact congrArg (· % _) (by ring)

theorem mulWordLoop_value (b32 : UInt32) {a : List UInt32} {carry : UInt64}
    (hc : carry.toNat < 2 ^ 32) :
    value (mulWordLoop b32 carry a) ≡ carry.toNat + b32.toNat * value a
      [MOD (2 ^ 32) ^ a.length] := by
  induction a generalizing carry with
  | nil => simp [modEq_one]
  | cons x a ih =>
    have hp : b32.toNat * x.toNat ≤ (2 ^ 32 - 1) * (2 ^ 32 - 1) :=
      Nat.mul_le_mul (le_sub_one_of_lt b32.toNat_lt) (le_sub_one_of_lt x.toNat_lt)
    simp only [mulWordLoop, value_cons, length_cons, pow_succ' (2 ^ 32)]
    generalize hn : carry + b32.toUInt64 * x.toUInt64 = n
    have hsu : n.toNat = carry.toNat + b32.toNat * x.toNat := by
      rw [← hn]
      simp only [UInt64.toNat_add, UInt64.toNat_mul, UInt32.toNat_toUInt64]
      omega
    have hs := split_word n
    have hv := @ih (n >>> 32) (by have := n.toNat_lt; omega)
    refine ((hv.mul_left' (2 ^ 32)).add_left _).trans ?_
    rw [mul_add, ← add_assoc, hs, hsu]
    exact congrArg (· % _) (by ring)

theorem incLoop_value : value (incLoop a) ≡ value a + 1 [MOD (2 ^ 32) ^ a.length] := by
  induction a with
  | nil => simp [modEq_one]
  | cons x a ih =>
    have hx := x.toNat_lt
    have ha : (x + 1).toNat = (x.toNat + 1) % 2 ^ 32 := UInt32.toNat_add x 1
    simp only [incLoop, length_cons, pow_succ' (2 ^ 32)]
    split_ifs with h
    · have h0 : (x + 1).toNat = 0 := congrArg UInt32.toNat h
      have hm : x.toNat + 1 = 2 ^ 32 := by omega
      rw [value_cons, value_cons, h0, Nat.zero_add, Nat.add_right_comm, hm]
      refine (ih.mul_left' (2 ^ 32)).trans (congrArg (· % _) ?_)
      ring
    · have h0 : (x + 1).toNat ≠ 0 := fun h0 => h (UInt32.toNat_inj.mp h0)
      have hs : (x + 1).toNat = x.toNat + 1 := by omega
      rw [value_cons, value_cons, hs, Nat.add_right_comm]

theorem decLoop_value : value (decLoop a) + 1 ≡ value a [MOD (2 ^ 32) ^ a.length] := by
  induction a with
  | nil => simp [modEq_one]
  | cons x a ih =>
    have hx := x.toNat_lt
    have hs : (x - 1).toNat = (2 ^ 32 - 1 + x.toNat) % 2 ^ 32 := UInt32.toNat_sub x 1
    simp only [decLoop, length_cons, pow_succ' (2 ^ 32)]
    split_ifs with h
    · have hm : (x - 1).toNat = 2 ^ 32 - 1 := congrArg UInt32.toNat h
      have h0 : x.toNat = 0 := by omega
      rw [value_cons, value_cons, hm, h0, Nat.zero_add, Nat.add_right_comm]
      refine Eq.trans (congrArg (· % _) ?_) (ih.mul_left' (2 ^ 32))
      rw [Nat.sub_add_cancel (by norm_num)]
      ring
    · have hm : (x - 1).toNat ≠ 2 ^ 32 - 1 := fun h0 => h (UInt32.toNat_inj.mp h0)
      have hp : (x - 1).toNat + 1 = x.toNat := by omega
      rw [value_cons, value_cons, ← hp, Nat.add_right_comm]

theorem value_map_not : value (a.map (~~~ ·)) + value a + 1 = (2 ^ 32) ^ a.length := by
  induction a with
  | nil => rfl
  | cons x a ih =>
    have hx := x.toNat_lt
    have hn : (~~~ x).toNat = 2 ^ 32 - 1 - x.toNat := UInt32.toNat_not x
    rw [map_cons, value_cons, value_cons, hn, length_cons, pow_succ' (2 ^ 32), ← ih]
    omega

theorem testBit_value (t : ℕ) : (value pn).testBit t = (pn.getD (t / 32) 0).toNat.testBit (t % 32) := by
  induction pn generalizing t with
  | nil => simp
  | cons x pn ih =>
    rw [value_cons, Nat.add_comm, testBit_two_pow_mul_add _ x.toNat_lt]
    split_ifs with ht
    · rw [div_eq_of_lt ht, Nat.mod_eq_of_lt ht, getD_cons_zero]
    · obtain ⟨u, rfl⟩ := Nat.exists_eq_add_of_le' (not_lt.mp ht)
      rw [Nat.add_sub_cancel, ih, add_div_right _ (by norm_num), add_mod_right, getD_cons_succ]

theorem testBit_orWord {pn : List UInt32} {i : ℕ} (hi : i < pn.length) (x : UInt32) (t : ℕ) :
    (value (orWord pn i x)).testBit t =
      ((value pn).testBit t || (decide (t / 32 = i) && x.toNat.testBit (t % 32))) := by
  rw [testBit_value, testBit_value, orWord, getD_eq_getElem?_getD, List.getElem?_modify,
    getD_eq_getElem?_getD]
  by_cases h : i = t / 32
  · subst h
    simp [List.getElem?_eq_getElem hi]
  · cases hg : pn[t / 32]? <;> simp [h, Ne.symm h]

theorem testBit_getD {a : List UInt32} {i r t : ℕ} (hr : r < 32) (ht : t = 32 * i + r) :
    (a.getD i 0).toNat.testBit r = (value a).testBit t := by
  rw [testBit_value, ht, mul_add_div (by norm_num), mul_add_mod, div_eq_of_lt hr,
    Nat.mod_eq_of_lt hr, Nat.add_zero]

theorem testBit_word_of_le (x : UInt32) {r : ℕ} (hr : 32 ≤ r) : x.toNat.testBit r = false :=
  testBit_lt_two_pow (x.toNat_lt.trans_le (Nat.pow_le_pow_right (by norm_num) hr))

theorem testBit_shiftLeft_word {shift : UInt32} {s : ℕ} (hs : shift.toNat = s) (hs32 : s < 32)
    (x : UInt32) {r : ℕ} (hr : r < 32) :
    (x <<< shift).toNat.testBit r = (decide (s ≤ r) && x.toNat.testBit (r - s)) := by
  rw [UInt32.toNat_shiftLeft, hs, Nat.mod_eq_of_lt hs32, Nat.testBit_mod_two_pow,
    Nat.testBit_shiftLeft]
  simp [hr]

theorem testBit_shiftRight_word {shift : UInt32} {s : ℕ} (hs : shift.toNat = s) (hs32 : s < 32)
    (x : UInt32) (r : ℕ) : (x >>> shift).toNat.testBit r = x.toNat.testBit (s + r) := by
  rw [UInt32.toNat_shiftRight, hs, Nat.mod_eq_of_lt hs32, testBit_shiftRight]

section Round
variable {a pn : List UInt32} {k i t : ℕ} {shift : UInt32} {s : ℕ}

theorem testBit_orWord_if {c : Prop} [Decidable c] {j : ℕ} (hj : c → j < pn.length) (x : UInt32) :
    (value (if c then orWord pn j x else pn)).testBit t =
      ((value pn).testBit t || (decide (c ∧ t / 32 = j) && x.toNat.testBit (t % 32))) := by
  split_ifs with h
  · rw [testBit_orWord (hj h)]
    simp [h]
  · simp [h]

theorem length_orWord_if {c : Prop} [Decidable c] (pn : List UInt32) (j : ℕ) (x : UInt32) :
    (if c then orWord pn j x else pn).length = pn.length := by
  split_ifs <;> simp

theorem toNat_sub_shift (hs : shift.toNat = s) (hs32 : s < 32) : (32 - shift).toNat = 32 - s := by
  rw [UInt32.toNat_sub_of_le _ _ (UInt32.le_iff_toNat_le.mpr (by rw [hs]; exact hs32.le)), hs]
  rfl

theorem shift_ne_zero (hs : shift.toNat = s) : shift ≠ 0 ↔ s ≠ 0 := by
  rw [← hs, Ne, Ne, ← UInt32.toNat_inj]
  rfl

theorem and_testBit_getD {c : Prop} [Decidable c] {r u : ℕ} (h : c → r < 32 ∧ u = 32 * i + r) :
    (decide c && (a.getD i 0).toNat.testBit r) = (decide c && (value a).testBit u) := by
  by_cases hc : c
  · rw [testBit_getD (h hc).1 (h hc).2]
  · simp only [hc, decide_false, Bool.false_and]

theorem testBit_shlRound (hs : shift.toNat = s) (hs32 : s < 32) (hl : pn.length = a.length)
    (ht : t < 32 * a.length) :
    (value (shlRound a k shift pn i)).testBit t =
      ((value pn).testBit t || (decide (32 * k + s ≤ t ∧ (t - (32 * k + s)) / 32 = i) &&
        (value a).testBit (t - (32 * k + s)))) := by
  have hr : t % 32 < 32 := Nat.mod_lt _ (by norm_num)
  simp only [shlRound, shift_ne_zero hs]
  rw [testBit_orWord_if (by rw [length_orWord_if]; omega), testBit_orWord_if (by omega),
    Bool.or_assoc, testBit_shiftLeft_word hs hs32 _ hr]
  congr 1
  -- the bit comes from the upper part of the word below or from the lower part of this one
  rcases lt_or_ge (t % 32) s with hlt | hg
  · rw [testBit_shiftRight_word (toNat_sub_shift hs hs32) (by omega)]
    have hq : (i + k + 1 < a.length ∧ s ≠ 0) ∧ t / 32 = i + k + 1 ↔
        32 * k + s ≤ t ∧ (t - (32 * k + s)) / 32 = i := by omega
    simp only [hq, not_le.mpr hlt, decide_false, Bool.false_and, Bool.and_false, Bool.or_false]
    exact and_testBit_getD (by omega)
  · have hf : (decide ((i + k + 1 < a.length ∧ s ≠ 0) ∧ t / 32 = i + k + 1) &&
        (a.getD i 0 >>> (32 - shift)).toNat.testBit (t % 32)) = false := by
      by_cases hs0 : s = 0
      · simp [hs0]
      · rw [testBit_shiftRight_word (toNat_sub_shift hs hs32) (by omega),
          testBit_word_of_le _ (by omega), Bool.and_false]
    have hq : i + k < a.length ∧ t / 32 = i + k ↔
        32 * k + s ≤ t ∧ (t - (32 * k + s)) / 32 = i := by omega
    simp only [hf, hq, hg, decide_true, Bool.true_and, Bool.false_or]
    exact and_testBit_getD (by omega)

theorem testBit_shrRound (hs : shift.toNat = s) (hs32 : s < 32) (hl : pn.length = a.length)
    (hi : i < a.length) :
    (value (shrRound a k shift pn i)).testBit t =
      ((value pn).testBit t || (decide ((t + (32 * k + s)) / 32 = i) &&
        (value a).testBit (t + (32 * k + s)))) := by
  have hr : t % 32 < 32 := Nat.mod_lt _ (by norm_num)
  simp only [shrRound, shift_ne_zero hs]
  rw [testBit_orWord_if (by rw [length_orWord_if]; omega), testBit_orWord_if (by omega),
    Bool.or_assoc, testBit_shiftRight_word hs hs32]
  congr 1
  rcases lt_or_ge (s + t % 32) 32 with hlt | hg
  · have hf : (decide ((k + 1 ≤ i ∧ s ≠ 0) ∧ t / 32 = i - k - 1) &&
        (a.getD i 0 <<< (32 - shift)).toNat.testBit (t % 32)) = false := by
      by_cases hs0 : s = 0
      · simp [hs0]
      · rw [testBit_shiftLeft_word (toNat_sub_shift hs hs32) (by omega) _ hr]
        simp only [show ¬ 32 - s ≤ t % 32 by omega, decide_false, Bool.false_and, Bool.and_false]
    have hq : k ≤ i ∧ t / 32 = i - k ↔ (t + (32 * k + s)) / 32 = i := by omega
    simp only [hf, hq, Bool.false_or]
    exact and_testBit_getD (by omega)
  · rw [testBit_word_of_le _ hg, testBit_shiftLeft_word (toNat_sub_shift hs hs32) (by omega) _ hr]
    have hq : (k + 1 ≤ i ∧ s ≠ 0) ∧ t / 32 = i - k - 1 ↔ (t + (32 * k + s)) / 32 = i := by omega
    simp only [hq, show 32 - s ≤ t % 32 by omega, decide_true, Bool.true_and, Bool.and_false,
      Bool.or_false]
    exact and_testBit_getD (by omega)

/-- When each round sets the bit of its own word, the loop sets the bits of the words run over. -/
theorem testBit_foldl_round {round : List UInt32 → ℕ → List UInt32} {m : ℕ} {p : ℕ → Bool}
    (hle : ∀ pn i, (round pn i).length = pn.length) {n : ℕ}
    (h : ∀ pn i, pn.length = m → i < n →
      (value (round pn i)).testBit t = ((value pn).testBit t || p i)) :
    (value ((List.range n).foldl round (List.replicate m 0))).testBit t = decide (∃ i < n, p i) := by
  induction n with
  | zero =>
    simp
  | succ n ih =>
    rw [range_succ, foldl_append, foldl_cons, foldl_nil,
      h _ _ (by rw [length_foldl_round hle, length_replicate]) (lt_succ_self n),
      ih fun pn i hl hi => h pn i hl (hi.trans (lt_succ_self n))]
    rw [Bool.eq_iff_iff]
    simp only [Bool.or_eq_true, decide_eq_true_eq, Nat.lt_succ_iff_lt_or_eq]
    constructor
    · rintro (⟨i, hi, hp⟩ | hp)
      · exact ⟨i, .inl hi, hp⟩
      · exact ⟨n, .inr rfl, hp⟩
    · rintro ⟨i, hi | rfl, hp⟩
      · exact .inl ⟨i, hi, hp⟩
      · exact .inr hp

end Round

theorem value_take_succ (i : ℕ) :
    value (pn.take (i + 1)) = value (pn.take i) + (2 ^ 32) ^ i * (pn.getD i 0).toNat := by
  induction pn generalizing i with
  | nil => simp
  | cons x pn ih =>
    cases i with
    | zero => simp
    | succ i =>
      rw [take_succ_cons, take_succ_cons, value_cons, value_cons, ih, getD_cons_succ]
      ring

theorem value_take_lt (i : ℕ) : value (pn.take i) < (2 ^ 32) ^ i :=
  (value_lt _).trans_le (Nat.pow_le_pow_right (by norm_num) (length_take_le i pn))

theorem compareLoop_eq (a b : List UInt32) (i : ℕ) :
    compareLoop a b i = Int.sign ((value (a.take i) : ℤ) - value (b.take i)) := by
  induction i with
  | zero => simp [compareLoop]
  | succ i ih =>
    have ha := value_take_lt a i
    have hb := value_take_lt b i
    simp only [compareLoop, value_take_succ, UInt32.lt_iff_toNat_lt]
    generalize (a.getD i 0).toNat = x
    generalize (b.getD i 0).toNat = y
    generalize (2 ^ 32) ^ i = m at ha hb
    split_ifs with hl hg
    · have : m * (x + 1) ≤ m * y := Nat.mul_le_mul_left m hl
      rw [eq_comm, Int.sign_eq_neg_one_iff_neg]
      rw [mul_add] at this
      omega
    · have : m * (y + 1) ≤ m * x := Nat.mul_le_mul_left m hg
      rw [eq_comm, Int.sign_eq_one_iff_pos]
      rw [mul_add] at this
      omega
    · obtain rfl : x = y := by omega
      rw [ih]
      congr 1
      omega

theorem toNat_one_shiftLeft {n : ℕ} (hn : n < 32) : (1 <<< UInt32.ofNat n).toNat = 2 ^ n := by
  have ho : (UInt32.ofNat n).toNat = n := UInt32.toNat_ofNat_of_lt' (hn.trans (by norm_num))
  rw [UInt32.toNat_shiftLeft, ho, Nat.mod_eq_of_lt hn, UInt32.toNat_one, Nat.shiftLeft_eq,
    one_mul, Nat.mod_eq_of_lt (Nat.pow_lt_pow_right (by norm_num) hn)]

theorem wordBits_eq {x : UInt32} (hx : x ≠ 0) {n : ℕ} (hn : n < 32) (hl : x.toNat < 2 ^ (n + 1)) :
    wordBits x n = bitLength x.toNat := by
  have hp : 0 < x.toNat := Nat.pos_of_ne_zero fun h => hx (UInt32.toNat_inj.mp h)
  induction n with
  | zero =>
    have h1 : x.toNat = 1 := by omega
    rw [wordBits, h1]
    rfl
  | succ n ih =>
    have hb : x &&& (1 <<< UInt32.ofNat (n + 1)) ≠ 0 ↔ 2 ^ (n + 1) ≤ x.toNat := by
      rw [Ne, ← UInt32.toNat_inj, UInt32.toNat_and, toNat_one_shiftLeft hn, and_two_pow]
      constructor
      · intro hne
        by_contra hl'
        exact hne (by simp [testBit_lt_two_pow (not_le.mp hl')])
      · intro hle
        simp [testBit_of_two_pow_le_and_two_pow_add_one_gt hle hl]
    rw [wordBits]
    split_ifs with h
    · have hg := lt_bitLength.mpr (hb.mp h)
      have hle := bitLength_le.mpr hl
      omega
    · exact ih (by omega) (not_le.mp fun hle => h (hb.mpr hle))

theorem bitsLoop_eq (n : ℕ) : bitsLoop pn n = bitLength (value (pn.take n)) := by
  induction n with
  | zero => rfl
  | succ pos ih =>
    have hl := value_take_lt pn pos
    rw [← pow_mul] at hl
    rw [bitsLoop, value_take_succ, ← pow_mul]
    split_ifs with h
    · generalize pn.getD pos 0 = x at h
      have hx : x.toNat < 2 ^ 32 := x.toNat_lt
      rw [wordBits_eq h (by norm_num) hx, bitLength_add_mul hl]
      exact Nat.pos_of_ne_zero fun h0 => h (UInt32.toNat_inj.mp h0)
    · have h0 : pn.getD pos 0 = 0 := not_not.mp h
      rw [h0, ih]
      rfl

namespace Words
variable (a b : Words)

theorem toNat_add : (a.add b).toNat = (a.toNat + b.toNat) % 2 ^ 256 := by
  have h := @addLoop_value a.pn b.pn 0 (by norm_num) (a.length_pn.trans b.length_pn.symm)
  rw [a.length_pn, ← pow_mul, UInt64.toNat_zero, Nat.zero_add] at h
  exact (Nat.mod_eq_of_lt (a.add b).toNat_lt).symm.trans h

theorem toNat_inc : a.inc.toNat = (a.toNat + 1) % 2 ^ 256 := by
  have h := incLoop_value a.pn
  rw [a.length_pn, ← pow_mul] at h
  exact (Nat.mod_eq_of_lt a.inc.toNat_lt).symm.trans h

theorem toNat_dec : (a.dec.toNat : ℤ) = ((a.toNat : ℤ) - 1) % 2 ^ 256 := by
  have h := decLoop_value a.pn
  rw [a.length_pn, ← pow_mul] at h
  have hl := a.dec.toNat_lt
  have halt := a.toNat_lt
  change (a.dec.toNat + 1) % 2 ^ 256 = a.toNat % 2 ^ 256 at h
  omega

theorem toNat_neg : (a.neg.toNat : ℤ) = -(a.toNat : ℤ) % 2 ^ 256 := by
  have h := value_map_not a.pn
  rw [a.length_pn, ← pow_mul] at h
  have hi := toNat_inc ⟨a.pn.map (~~~ ·), by simp [a.length_pn]⟩
  change a.neg.toNat = (value (a.pn.map (~~~ ·)) + 1) % 2 ^ 256 at hi
  change value (a.pn.map (~~~ ·)) + a.toNat + 1 = 2 ^ 256 at h
  omega

theorem toNat_sub : ((a.sub b).toNat : ℤ) = ((a.toNat : ℤ) - b.toNat) % 2 ^ 256 := by
  have h := toNat_add a b.neg
  have hn := toNat_neg b
  rw [sub]
  omega

theorem toNat_mulWord (b32 : UInt32) : (a.mulWord b32).toNat = a.toNat * b32.toNat % 2 ^ 256 := by
  have h := @mulWordLoop_value b32 a.pn 0 (by norm_num)
  rw [a.length_pn, ← pow_mul, UInt64.toNat_zero, Nat.zero_add, mul_comm b32.toNat] at h
  exact (Nat.mod_eq_of_lt (a.mulWord b32).toNat_lt).symm.trans h

theorem toNat_mul : (a.mul b).toNat = a.toNat * b.toNat % 2 ^ 256 := by
  have h := (@mulLoop_value b.pn a.pn (List.replicate 8 0) (by rw [a.length_pn]; rfl)
    (by rw [b.length_pn]; rfl)).2
  rw [length_replicate, ← pow_mul, value_replicate_zero, Nat.zero_add] at h
  exact (Nat.mod_eq_of_lt (a.mul b).toNat_lt).symm.trans h

theorem toNat_shiftLeft (shift : UInt32) :
    (a.shiftLeft shift).toNat = a.toNat * 2 ^ shift.toNat % 2 ^ 256 := by
  have hS : 32 * (shift / 32).toNat + (shift % 32).toNat = shift.toNat := Nat.div_add_mod _ 32
  apply Nat.eq_of_testBit_eq
  intro t
  rw [Nat.testBit_mod_two_pow, ← Nat.shiftLeft_eq, Nat.testBit_shiftLeft]
  rcases lt_or_ge t 256 with ht | ht
  · have hr := testBit_foldl_round (t := t) (m := 8) (n := a.pn.length)
      (length_shlRound a.pn (shift / 32).toNat (shift % 32)) fun pn i hl _ =>
        testBit_shlRound rfl (Nat.mod_lt _ (by norm_num)) (hl.trans a.length_pn.symm)
          (by rw [a.length_pn]; omega)
    rw [hS] at hr
    rw [toNat, shiftLeft, hr, Bool.eq_iff_iff, a.length_pn]
    simp only [Bool.and_eq_true, decide_eq_true_eq]
    constructor
    · rintro ⟨i, -, ⟨hle, -⟩, hb⟩
      exact ⟨ht, hle, hb⟩
    · rintro ⟨-, hle, hb⟩
      exact ⟨(t - shift.toNat) / 32, by omega, ⟨hle, rfl⟩, hb⟩
  · have hlt := (a.shiftLeft shift).toNat_lt.trans_le (Nat.pow_le_pow_right (by norm_num) ht)
    rw [testBit_lt_two_pow hlt]
    simp only [not_lt.mpr ht, decide_false, Bool.false_and]

theorem toNat_shiftRight (shift : UInt32) : (a.shiftRight shift).toNat = a.toNat / 2 ^ shift.toNat := by
  have hS : 32 * (shift / 32).toNat + (shift % 32).toNat = shift.toNat := Nat.div_add_mod _ 32
  apply Nat.eq_of_testBit_eq
  intro t
  rw [← shiftRight_eq_div_pow, testBit_shiftRight]
  have hr := testBit_foldl_round (t := t) (m := 8) (n := a.pn.length)
    (length_shrRound a.pn (shift / 32).toNat (shift % 32)) fun pn i hl hi =>
      testBit_shrRound rfl (Nat.mod_lt _ (by norm_num)) (hl.trans a.length_pn.symm) hi
  rw [hS] at hr
  rw [toNat, shiftRight, hr, Bool.eq_iff_iff, a.length_pn, Nat.add_comm t]
  simp only [Bool.and_eq_true, decide_eq_true_eq]
  constructor
  · rintro ⟨i, -, -, hb⟩
    exact hb
  · intro hb
    have hlt : shift.toNat + t < 256 := by
      by_contra hge
      have := a.toNat_lt.trans_le (Nat.pow_le_pow_right (by norm_num) (not_lt.mp hge))
      rw [testBit_lt_two_pow this] at hb
      exact Bool.noConfusion hb
    exact ⟨(shift.toNat + t) / 32, by omega, rfl, hb⟩

theorem compareTo_eq : a.compareTo b = Int.sign ((a.toNat : ℤ) - b.toNat) := by
  rw [compareTo, compareLoop_eq, take_length, a.length_pn, ← b.length_pn, take_length]
  rfl

theorem bits_eq : a.bits = bitLength a.toNat := by
  rw [bits, bitsLoop_eq, take_length]
  rfl

def toArith : ArithUint256 := BitVec.ofNat 256 a.toNat

@[simp] theorem toNat_toArith : a.toArith.toNat = a.toNat := by
  rw [toArith, BitVec.toNat_ofNat, Nat.mod_eq_of_lt a.toNat_lt]

theorem toArith_sub : (a.sub b).toArith = a.toArith - b.toArith := by
  apply BitVec.eq_of_toNat_eq
  have h := toNat_sub a b
  have hb := b.toNat_lt
  rw [BitVec.toNat_sub, toNat_toArith, toNat_toArith, toNat_toArith]
  omega

theorem toArith_shiftRight_one : (a.shiftRight 1).toArith = a.toArith >>> 1 := by
  apply BitVec.eq_of_toNat_eq
  rw [BitVec.toNat_ushiftRight, toNat_toArith, toNat_toArith, toNat_shiftRight,
    shiftRight_eq_div_pow]
  rfl

theorem compareTo_nonneg : 0 ≤ a.compareTo b ↔ a.toArith ≥ b.toArith := by
  rw [compareTo_eq, Int.sign_nonneg_iff, ge_iff_le, BitVec.le_def, toNat_toArith, toNat_toArith]
  omega

theorem toArith_setBit {shift : ℕ} (hs : shift < 256) (h) :
    toArith ⟨orWord a.pn (shift / 32) (1 <<< UInt32.ofNat (shift % 32)), h⟩ =
      a.toArith ||| (1 : ArithUint256) <<< shift := by
  have hr : shift % 32 < 32 := Nat.mod_lt _ (by norm_num)
  apply BitVec.eq_of_toNat_eq
  apply Nat.eq_of_testBit_eq
  intro t
  rw [toNat_toArith, toNat, testBit_orWord (by rw [a.length_pn]; omega), toNat_one_shiftLeft hr,
    BitVec.toNat_or, testBit_or, toNat_toArith, toNat]
  congr 1
  have hb : ((1 : ArithUint256) <<< shift).toNat = 2 ^ shift := by
    rw [BitVec.toNat_shiftLeft, show (1 : ArithUint256).toNat = 1 from rfl, Nat.shiftLeft_eq,
      one_mul, Nat.mod_eq_of_lt (Nat.pow_lt_pow_right (by norm_num) hs)]
  rw [hb, Nat.testBit_two_pow, Nat.testBit_two_pow, ← Bool.decide_and]
  congr 1
  rw [eq_iff_iff]
  omega

theorem toArith_divLoop {n : ℕ} (hn : n ≤ 256) (num div q : Words) :
    (divLoop n num div q).toArith = BaseUint.divLoop n num.toArith div.toArith q.toArith := by
  induction n generalizing num div q with
  | zero => rfl
  | succ shift ih =>
    rw [divLoop, BaseUint.divLoop, apply_ite toArith, ih (by omega), ih (by omega), toArith_sub,
      toArith_shiftRight_one, toArith_setBit q (by omega)]
    simp only [ge_iff_le, compareTo_nonneg]

theorem toArith_shiftLeft {n : ℕ} (hn : n < 2 ^ 32) :
    (a.shiftLeft (UInt32.ofNat n)).toArith = a.toArith <<< n := by
  apply BitVec.eq_of_toNat_eq
  rw [BitVec.toNat_shiftLeft, toNat_toArith, toNat_toArith, toNat_shiftLeft, Nat.shiftLeft_eq,
    UInt32.toNat_ofNat_of_lt' hn]

theorem toArith_div : (a.div b).map toArith = BaseUint.div a.toArith b.toArith := by
  have hb : a.bits ≤ 256 := by
    rw [bits_eq]
    exact bitLength_le.mpr a.toNat_lt
  simp only [div, BaseUint.div, toNat_toArith, ← bits_eq]
  split_ifs with h0 hg
  · rfl
  · rfl
  · simp only [Except.map]
    rw [toArith_divLoop (by omega), toArith_shiftLeft b (by omega)]
    rfl

theorem toNat_div : (a.div b).map toNat =
    if b.toNat = 0 then .error .divisionByZero else .ok (a.toNat / b.toNat) := by
  have h := (toArith_div a b).trans (div_eq _ _)
  have hz : b.toArith = 0 ↔ b.toNat = 0 := by
    rw [← toNat_toArith b]
    exact ⟨fun h0 => by rw [h0]; rfl, fun h0 => BitVec.eq_of_toNat_eq h0⟩
  simp only [divArith, hz] at h
  split_ifs at h ⊢ with h0
  · cases hd : a.div b with
    | error e => rw [hd] at h; cases h; rfl
    | ok q => rw [hd] at h; cases h
  · cases hd : a.div b with
    | error e => rw [hd] at h; cases h
    | ok q =>
      rw [hd] at h
      have hq : q.toArith = a.toArith / b.toArith := Except.ok.inj h
      rw [Except.map, ← toNat_toArith q, hq, BitVec.toNat_udiv, toNat_toArith, toNat_toArith]

end Words

/-- The operators of `arith_uint256` are those of the integers modulo `2 ^ 256`; a division
fails exactly when the divisor is zero. -/
theorem words_exact (a b : Words) (b32 shift : UInt32) :
    (a.add b).toNat = (a.toNat + b.toNat) % 2 ^ 256 ∧
    ((a.sub b).toNat : ℤ) = ((a.toNat : ℤ) - b.toNat) % 2 ^ 256 ∧
    (a.neg.toNat : ℤ) = -(a.toNat : ℤ) % 2 ^ 256 ∧
    (a.mul b).toNat = a.toNat * b.toNat % 2 ^ 256 ∧
    (a.mulWord b32).toNat = a.toNat * b32.toNat % 2 ^ 256 ∧
    a.inc.toNat = (a.toNat + 1) % 2 ^ 256 ∧
    (a.dec.toNat : ℤ) = ((a.toNat : ℤ) - 1) % 2 ^ 256 ∧
    (a.shiftLeft shift).toNat = a.toNat * 2 ^ shift.toNat % 2 ^ 256 ∧
    (a.shiftRight shift).toNat = a.toNat / 2 ^ shift.toNat ∧
    a.compareTo b = Int.sign ((a.toNat : ℤ) - b.toNat) ∧
    (a.div b).map Words.toNat =
      if b.toNat = 0 then .error .divisionByZero else .ok (a.toNat / b.toNat) :=
  ⟨a.toNat_add b, a.toNat_sub b, a.toNat_neg, a.toNat_mul b, a.toNat_mulWord b32, a.toNat_inc,
    a.toNat_dec, a.toNat_shiftLeft shift, a.toNat_shiftRight shift, a.compareTo_eq b,
    a.toNat_div b⟩

end Palladium.BaseUint
