import Mathlib.Tactic.Linarith

/-! # Rounding a natural number down to its leading bits

A format with a bounded number of leading bits drops the low ones; how many is a function of the bit
length.
-/

namespace LeadingBits

def bitLength (x : ℕ) : ℕ := if x = 0 then 0 else x.log2 + 1

theorem bitLength_le {x n : ℕ} : bitLength x ≤ n ↔ x < 2 ^ n := by
  unfold bitLength
  split_ifs with h
  · simp [h]
  · rw [Nat.succ_le_iff, Nat.log2_lt h]

theorem lt_bitLength {x n : ℕ} : n < bitLength x ↔ 2 ^ n ≤ x := by
  rw [← not_le, bitLength_le, not_lt]

theorem lt_two_pow_bitLength (x : ℕ) : x < 2 ^ bitLength x := bitLength_le.mp le_rfl

theorem bitLength_mono {x y : ℕ} (h : x ≤ y) : bitLength x ≤ bitLength y :=
  bitLength_le.mpr (h.trans_lt (lt_two_pow_bitLength y))

theorem bitLength_add_mul {low x n : ℕ} (hl : low < 2 ^ n) (hx : 0 < x) :
    bitLength (low + 2 ^ n * x) = n + bitLength x := by
  have hb : 0 < bitLength x := lt_bitLength.mpr hx
  apply le_antisymm
  · rw [bitLength_le, pow_add]
    calc low + 2 ^ n * x < 2 ^ n * (x + 1) := by rw [mul_add]; omega
      _ ≤ 2 ^ n * 2 ^ bitLength x := Nat.mul_le_mul_left _ (lt_two_pow_bitLength x)
  · have hle : 2 ^ (n + (bitLength x - 1)) ≤ low + 2 ^ n * x := by
      rw [pow_add]
      exact (Nat.mul_le_mul_left _ (lt_bitLength.mp (by omega))).trans (Nat.le_add_left _ _)
    have := lt_bitLength.mpr hle
    omega

def roundDown (d : ℕ → ℕ) (x : ℕ) : ℕ := x / 2 ^ d (bitLength x) * 2 ^ d (bitLength x)

variable {d : ℕ → ℕ}

theorem roundDown_le (x : ℕ) : roundDown d x ≤ x := Nat.div_mul_le_self _ _

theorem roundDown_eq_self {x : ℕ} (h : 2 ^ d (bitLength x) ∣ x) : roundDown d x = x :=
  Nat.div_mul_cancel h

theorem two_pow_le_roundDown {x n : ℕ} (hx : n < bitLength x) (hd : d (bitLength x) ≤ n) :
    2 ^ n ≤ roundDown d x := by
  obtain ⟨k, rfl⟩ := Nat.exists_eq_add_of_le hd
  have hl := lt_bitLength.mp hx
  rw [pow_add, mul_comm] at hl
  unfold roundDown
  rw [pow_add, mul_comm]
  exact Nat.mul_le_mul_right _ ((Nat.le_div_iff_mul_le (by positivity)).mpr hl)

theorem roundDown_pos (hd : ∀ n, 0 < n → d n < n) {x : ℕ} (hx : 0 < x) : 0 < roundDown d x := by
  have hl : 0 < bitLength x := lt_bitLength.mpr hx
  have hlt := hd _ hl
  have h := two_pow_le_roundDown (d := d) (x := x) (n := bitLength x - 1) (by omega) (by omega)
  exact lt_of_lt_of_le (by positivity) h

theorem roundDown_mono (hd : ∀ n, 0 < n → d n < n) : Monotone (roundDown d) := by
  intro x y hx
  rcases (bitLength_mono hx).eq_or_lt with he | hl
  · unfold roundDown
    rw [he]
    exact Nat.mul_le_mul_right _ (Nat.div_le_div_right hx)
  · have hd' := hd (bitLength y) (by omega)
    calc roundDown d x ≤ x := roundDown_le x
      _ ≤ 2 ^ bitLength x := (lt_two_pow_bitLength x).le
      _ ≤ 2 ^ (bitLength y - 1) := Nat.pow_le_pow_right (by norm_num) (by omega)
      _ ≤ roundDown d y := two_pow_le_roundDown (by omega) (by omega)

end LeadingBits
