import Mathlib.Data.Nat.Digits.Lemmas
import Palladium.Pow.Work

/-! # Multiplication and division of `base_uint`

A number has eight words of 32 bits.
-/

namespace Palladium
open LeadingBits List
namespace BaseUint

def words (x : ArithUint256) : List UInt32 :=
  (List.range 8).map fun i => UInt32.ofNat (x.toNat / (2 ^ 32) ^ i)

def value (pn : List UInt32) : ℕ := Nat.ofDigits (2 ^ 32) (pn.map UInt32.toNat)

/-- The inner loop: add a multiple of the words `b` to the words of the accumulator. -/
def mulRow (p : UInt32) : UInt64 → List UInt32 → List UInt32 → List UInt32
  | carry, x :: a, y :: b =>
    let n := carry + x.toUInt64 + p.toUInt64 * y.toUInt64
    (n &&& 0xffffffff).toUInt32 :: mulRow p (n >>> 32) a b
  | _, a, _ => a

/-- The outer loop. Each round is done with the lowest word of what is left. -/
def mulLoop (b : List UInt32) : List UInt32 → List UInt32 → List UInt32
  | p :: pn, a =>
    match mulRow p 0 a b with
    | x :: a => x :: mulLoop b pn a
    | [] => []
  | [], a => a

variable (x b : ArithUint256)

/-- The operator `*=`. -/
def mul : ArithUint256 :=
  BitVec.ofNat 256 (value (mulLoop (words b) (words x) (List.replicate 8 0)))

/-- The loop of the division, for the shifts below `n`. -/
def divLoop : ℕ → ArithUint256 → ArithUint256 → ArithUint256 → ArithUint256
  | 0, _, _, q => q
  | shift + 1, num, div, q =>
    if num ≥ div then divLoop shift (num - div) (div >>> 1) (q ||| (1 : ArithUint256) <<< shift)
    else divLoop shift num (div >>> 1) q

/-- The operator `/=`. -/
def div : Except Abort ArithUint256 :=
  let numBits := bitLength x.toNat
  let divBits := bitLength b.toNat
  if divBits = 0 then .error .divisionByZero
  else if divBits > numBits then .ok 0
  else .ok (divLoop (numBits - divBits + 1) x (b <<< (numBits - divBits)) 0)

@[simp] theorem value_nil : value [] = 0 := rfl

@[simp] theorem value_cons (x : UInt32) (pn : List UInt32) :
    value (x :: pn) = x.toNat + 2 ^ 32 * value pn := by
  simp [value, Nat.ofDigits_cons]

theorem value_lt (pn : List UInt32) : value pn < (2 ^ 32) ^ pn.length := by
  have := Nat.ofDigits_lt_base_pow_length (b := 2 ^ 32) (l := pn.map UInt32.toNat) (by norm_num)
    (by rintro d hd; obtain ⟨x, -, rfl⟩ := mem_map.mp hd; exact x.toNat_lt)
  rwa [length_map] at this

theorem value_words : value (words x) = x.toNat := by
  have := x.isLt
  simp only [words, List.range, List.range.loop, map_cons, map_nil, value_cons,
    value_nil, UInt32.toNat_ofNat']
  norm_num
  omega

theorem split_word (n : UInt64) :
    (n &&& 0xffffffff).toUInt32.toNat + 2 ^ 32 * (n >>> 32).toNat = n.toNat := by
  have hl : (n &&& 0xffffffff).toUInt32.toNat = n.toNat % 2 ^ 32 := by
    rw [UInt64.toNat_toUInt32, UInt64.toNat_and,
      show (0xffffffff : UInt64).toNat = 2 ^ 32 - 1 from rfl, Nat.and_two_pow_sub_one_eq_mod,
      Nat.mod_mod]
  have hh : (n >>> 32).toNat = n.toNat / 2 ^ 32 := by
    rw [UInt64.toNat_shiftRight, Nat.shiftRight_eq_div_pow]
    rfl
  rw [hl, hh]
  omega

theorem mulRow_digit {p x y : UInt32} {carry : UInt64} (hc : carry.toNat < 2 ^ 32) :
    let n := carry + x.toUInt64 + p.toUInt64 * y.toUInt64
    (n >>> 32).toNat < 2 ^ 32 ∧ (n &&& 0xffffffff).toUInt32.toNat + 2 ^ 32 * (n >>> 32).toNat =
        carry.toNat + x.toNat + p.toNat * y.toNat := by
  have hx := x.toNat_lt
  have hp : p.toNat * y.toNat ≤ (2 ^ 32 - 1) * (2 ^ 32 - 1) :=
    Nat.mul_le_mul (Nat.le_sub_one_of_lt p.toNat_lt) (Nat.le_sub_one_of_lt y.toNat_lt)
  have hn : (carry + x.toUInt64 + p.toUInt64 * y.toUInt64).toNat =
      carry.toNat + x.toNat + p.toNat * y.toNat := by
    simp only [UInt64.toNat_add, UInt64.toNat_mul, UInt32.toNat_toUInt64]
    omega
  dsimp only
  generalize carry + x.toUInt64 + p.toUInt64 * y.toUInt64 = n at hn
  have hs := split_word n
  have hl := n.toNat_lt
  omega

theorem mulRow_value (p : UInt32) {a b : List UInt32} {carry : UInt64} (hc : carry.toNat < 2 ^ 32)
    (hl : a.length ≤ b.length) :
    (mulRow p carry a b).length = a.length ∧
      value (mulRow p carry a b) ≡ carry.toNat + value a + p.toNat * value b
        [MOD (2 ^ 32) ^ a.length] := by
  induction a generalizing b carry with
  | nil => simp [mulRow, Nat.modEq_one]
  | cons x a ih =>
    cases b with
    | nil => simp at hl
    | cons y b =>
      obtain ⟨hc', hn⟩ := mulRow_digit (p := p) (x := x) (y := y) hc
      obtain ⟨hle, hv⟩ := ih hc' (Nat.le_of_succ_le_succ hl)
      refine ⟨by simp only [mulRow, length_cons, hle], ?_⟩
      simp only [mulRow, value_cons, length_cons, pow_succ']
      have hs := (hv.mul_left' (2 ^ 32)).add_left
        ((carry + x.toUInt64 + p.toUInt64 * y.toUInt64) &&& 0xffffffff).toUInt32.toNat
      refine hs.trans ?_
      rw [mul_add, mul_add, ← add_assoc, ← add_assoc, hn]
      exact congrArg (· % _) (by ring)

theorem mulLoop_value {b pn a : List UInt32} (hp : pn.length = a.length)
    (hl : a.length ≤ b.length) :
    (mulLoop b pn a).length = a.length ∧
      value (mulLoop b pn a) ≡ value a + value pn * value b [MOD (2 ^ 32) ^ a.length] := by
  induction pn generalizing a with
  | nil =>
    obtain rfl := length_eq_zero_iff.mp hp.symm
    simp [mulLoop, Nat.modEq_one]
  | cons p pn ih =>
    obtain ⟨hle, hv⟩ := @mulRow_value p _ _ 0 (by norm_num) hl
    cases hr : mulRow p 0 a b with
    | nil => simp [hr, ← hp] at hle
    | cons x r =>
      rw [hr] at hle hv
      simp only [length_cons] at hp hle
      obtain ⟨hle', hv'⟩ := ih (a := r) (by omega) (by omega)
      simp only [mulLoop, hr, length_cons]
      refine ⟨by omega, ?_⟩
      rw [← hle, pow_succ', value_cons, value_cons]
      rw [← hle, pow_succ', value_cons] at hv
      calc x.toNat + 2 ^ 32 * value (mulLoop b pn r)
          ≡ x.toNat + 2 ^ 32 * (value r + value pn * value b) [MOD 2 ^ 32 * (2 ^ 32) ^ r.length] :=
            (hv'.mul_left' (2 ^ 32)).add_left _
        _ = x.toNat + 2 ^ 32 * value r + 2 ^ 32 * (value pn * value b) := by ring
        _ ≡ (0 : UInt64).toNat + value a + p.toNat * value b + 2 ^ 32 * (value pn * value b)
            [MOD 2 ^ 32 * (2 ^ 32) ^ r.length] := hv.add_right _
        _ = value a + (p.toNat + 2 ^ 32 * value pn) * value b := by
            rw [UInt64.toNat_zero]
            ring

theorem mul_eq : mul x b = x * b := by
  obtain ⟨hl, hv⟩ := @mulLoop_value (words b) (words x) (List.replicate 8 0) rfl le_rfl
  have h0 : value (List.replicate 8 0) = 0 := by simp [List.replicate]
  have hlt := value_lt (mulLoop (words b) (words x) (List.replicate 8 0))
  rw [hl, length_replicate] at hlt
  rw [h0, Nat.zero_add, value_words, value_words, length_replicate] at hv
  apply BitVec.eq_of_toNat_eq
  rw [mul, BitVec.toNat_ofNat, BitVec.toNat_mul]
  rw [show (2 : ℕ) ^ 256 = (2 ^ 32) ^ 8 by norm_num]
  exact hv

theorem or_shift_toNat {q : ArithUint256} {n : ℕ} (hn : n < 256) (hq : 2 ^ (n + 1) ∣ q.toNat) :
    (q ||| (1 : ArithUint256) <<< n).toNat = q.toNat + 2 ^ n := by
  have hb : ((1 : ArithUint256) <<< n).toNat = 2 ^ n := by
    rw [BitVec.toNat_shiftLeft, show (1 : ArithUint256).toNat = 1 from rfl, Nat.shiftLeft_eq,
      one_mul, Nat.mod_eq_of_lt (Nat.pow_lt_pow_right (by norm_num) hn)]
  obtain ⟨k, hk⟩ := hq
  rw [BitVec.toNat_or, hb, hk,
    Nat.two_pow_add_eq_or_of_lt (Nat.pow_lt_pow_right (by norm_num) (Nat.lt_succ_self n))]

/-- The loop invariant: the divisor is shifted up by one less than the rounds left, the rest of the
number is below twice that, and the quotient has no bit set yet below. -/
theorem divLoop_eq {b x : ℕ} (hb : 0 < b) {n : ℕ} : ∀ {num div q : ArithUint256},
    (n ≠ 0 → div.toNat = b * 2 ^ (n - 1)) → num.toNat < b * 2 ^ n → 2 ^ n ∣ q.toNat →
    x = q.toNat * b + num.toNat → x < 2 ^ 256 → (divLoop n num div q).toNat = x / b := by
  induction n with
  | zero =>
    intro num div q _ hnu _ hx _
    rw [pow_zero, mul_one] at hnu
    rw [divLoop, hx, mul_comm, Nat.mul_add_div hb, Nat.div_eq_of_lt hnu, Nat.add_zero]
  | succ n ih =>
    intro num div q hdi hnu hq hx hl
    have hd : div.toNat = b * 2 ^ n := hdi (Nat.succ_ne_zero n)
    have hh : n ≠ 0 → (div >>> 1).toNat = b * 2 ^ (n - 1) := by
      intro hn
      obtain ⟨m, rfl⟩ := Nat.exists_eq_succ_of_ne_zero hn
      rw [BitVec.toNat_ushiftRight, Nat.shiftRight_eq_div_pow, hd]
      rw [Nat.succ_eq_add_one, Nat.add_sub_cancel, pow_succ, ← mul_assoc, pow_one,
        Nat.mul_div_cancel _ (by norm_num)]
    have hdv : 2 ^ n ∣ q.toNat := (Nat.pow_dvd_pow 2 (Nat.le_succ n)).trans hq
    rw [divLoop]
    split_ifs with hg
    · have hle : b * 2 ^ n ≤ num.toNat := hd ▸ BitVec.le_def.mp hg
      have hs : (num - div).toNat = num.toNat - b * 2 ^ n := by
        rw [BitVec.toNat_sub_of_le hg, hd]
      have hn : n < 256 := by
        have hp : 2 ^ n ≤ b * 2 ^ n := Nat.le_mul_of_pos_left _ hb
        exact (Nat.pow_lt_pow_iff_right (by norm_num)).mp (hp.trans_lt (hd ▸ div.isLt))
      have hq' := or_shift_toNat hn hq
      refine ih hh ?_ ?_ ?_ hl
      · rw [hs, Nat.sub_lt_iff_lt_add hle]
        calc num.toNat < b * 2 ^ (n + 1) := hnu
          _ = b * 2 ^ n + b * 2 ^ n := by rw [pow_succ]; ring
      · rw [hq']
        exact Nat.dvd_add hdv dvd_rfl
      · rw [hq', hs, hx]
        have : (q.toNat + 2 ^ n) * b = q.toNat * b + b * 2 ^ n := by ring
        omega
    · have hnu' : num.toNat < b * 2 ^ n := by
        rw [← hd]
        exact BitVec.lt_def.mp (BitVec.not_le.mp hg)
      exact ih hh hnu' hdv hx hl

theorem div_eq : div x b = divArith x b := by
  unfold div divArith
  dsimp only
  rcases Nat.eq_zero_or_pos b.toNat with h0 | hp
  · have hb : b = 0 := BitVec.eq_of_toNat_eq h0
    rw [if_pos hb, if_pos (by rw [h0]; rfl)]
  · have hb : b ≠ 0 := by rintro rfl; simp at hp
    have hbi : 0 < bitLength b.toNat := lt_bitLength.mpr hp
    have hl : 2 ^ (bitLength b.toNat - 1) ≤ b.toNat := lt_bitLength.mp (by omega)
    rw [if_neg hb, if_neg hbi.ne']
    split_ifs with hg
    · have hlt : x.toNat < b.toNat := by
        by_contra hge
        exact absurd (bitLength_mono (not_lt.mp hge)) (not_le.mpr hg)
      congr 1
      apply BitVec.eq_of_toNat_eq
      rw [BitVec.toNat_udiv, Nat.div_eq_of_lt hlt]
      rfl
    · congr 1
      apply BitVec.eq_of_toNat_eq
      have hx : bitLength x.toNat ≤ 256 := bitLength_le.mpr x.isLt
      generalize hs : bitLength x.toNat - bitLength b.toNat = shift
      have hu : b.toNat * 2 ^ shift < 2 ^ 256 :=
        calc b.toNat * 2 ^ shift < 2 ^ bitLength b.toNat * 2 ^ shift :=
              Nat.mul_lt_mul_of_pos_right (lt_two_pow_bitLength _) (by positivity)
          _ = 2 ^ (bitLength b.toNat + shift) := (pow_add ..).symm
          _ ≤ 2 ^ 256 := Nat.pow_le_pow_right (by norm_num) (by omega)
      rw [BitVec.toNat_udiv]
      refine divLoop_eq hp (fun _ => ?_) ?_ (by simp) (by simp) x.isLt
      · rw [BitVec.toNat_shiftLeft, Nat.shiftLeft_eq, Nat.mod_eq_of_lt hu, Nat.add_sub_cancel]
      · calc x.toNat < 2 ^ bitLength x.toNat := lt_two_pow_bitLength _
          _ = 2 ^ (bitLength b.toNat - 1) * 2 ^ (shift + 1) := by rw [← pow_add]; congr 1; omega
          _ ≤ b.toNat * 2 ^ (shift + 1) := Nat.mul_le_mul_right _ hl

end BaseUint

end Palladium
