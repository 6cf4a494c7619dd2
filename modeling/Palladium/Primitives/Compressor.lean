import Palladium.Consensus.TxVerify

/-! # Compressed amounts

`CompressAmount` takes up to nine zeros off the end of an amount and writes how many there were.
-/

namespace Palladium

/-- The loop of `CompressAmount`, which has `k` turns left: the number and what `9 - e` is then. -/
def stripZeros : (k n : ℕ) → ℕ × ℕ
  | 0, n => (n, 0)
  | k + 1, n => if n % 10 = 0 then stripZeros k (n / 10) else (n, k + 1)

def exactCompressAmount (n : ℕ) : ℕ :=
  if n = 0 then 0
  else
    let (n, k) := stripZeros 9 n
    if 9 - k < 9 then 1 + (n / 10 * 9 + n % 10 - 1) * 10 + (9 - k) else 1 + (n - 1) * 10 + 9

def compressAmount (n : ℕ) : ℕ := exactCompressAmount n % 2 ^ 64

/-- The loop of `DecompressAmount`. -/
def appendZeros : (e n : ℕ) → ℕ
  | 0, n => n
  | e + 1, n => appendZeros e (n * 10)

def exactDecompressAmount (x : ℕ) : ℕ :=
  if x = 0 then 0
  else
    let e := (x - 1) % 10
    let x := (x - 1) / 10
    appendZeros e (if e < 9 then x / 9 * 10 + (x % 9 + 1) else x + 1)

def decompressAmount (x : ℕ) : ℕ := exactDecompressAmount x % 2 ^ 64

theorem appendZeros_eq (e n : ℕ) : appendZeros e n = n * 10 ^ e := by
  induction e generalizing n with
  | zero => simp [appendZeros]
  | succ e ih => rw [appendZeros, ih, pow_succ', mul_assoc]

theorem stripZeros_append (k n e : ℕ) : stripZeros (k + e) (n * 10 ^ e) = stripZeros k n := by
  induction e with
  | zero => rw [Nat.add_zero, pow_zero, mul_one]
  | succ e ih =>
    rw [← Nat.add_assoc, stripZeros, pow_succ, ← mul_assoc, if_pos (Nat.mul_mod_left _ _),
      Nat.mul_div_cancel _ (by norm_num), ih]

theorem stripZeros_spec (k n : ℕ) (hn : 0 < n) : ∃ m k', stripZeros k n = (m, k') ∧ k' ≤ k ∧
    0 < m ∧ n = m * 10 ^ (k - k') ∧ (0 < k' → m % 10 ≠ 0) := by
  induction k generalizing n with
  | zero => exact ⟨n, 0, rfl, le_rfl, hn, by simp, nofun⟩
  | succ k ih =>
    unfold stripZeros
    split_ifs with h
    · obtain ⟨m, k', hs, hle, hm, he, hl⟩ := ih (n / 10) (by omega)
      refine ⟨m, k', hs, by omega, hm, ?_, hl⟩
      rw [Nat.succ_sub hle, pow_succ, ← mul_assoc, ← he]
      omega
    · exact ⟨n, k + 1, rfl, le_rfl, hn, by simp, fun _ => h⟩

theorem exactCompressAmount_eq {n m k : ℕ} (hn : n ≠ 0) (hs : stripZeros 9 n = (m, k)) :
    exactCompressAmount n = if 9 - k < 9 then 1 + (m / 10 * 9 + m % 10 - 1) * 10 + (9 - k)
      else 1 + (m - 1) * 10 + 9 := by
  simp only [exactCompressAmount, if_neg hn, hs]

theorem exactDecompressAmount_exactCompressAmount (n : ℕ) :
    exactDecompressAmount (exactCompressAmount n) = n ∧ exactCompressAmount n ≤ 9 * n + 10 := by
  rcases Nat.eq_zero_or_pos n with rfl | hn
  · exact ⟨rfl, by decide⟩
  obtain ⟨m, k, hs, hle, hm, he, hl⟩ := stripZeros_spec 9 n hn
  have hmn : m ≤ n := he ▸ Nat.le_mul_of_pos_right m (by positivity)
  rw [exactCompressAmount_eq hn.ne' hs]
  split_ifs with hk
  · have hd := hl (by omega)
    refine ⟨?_, by omega⟩
    rw [exactDecompressAmount, if_neg (by omega)]
    generalize hy : m / 10 * 9 + m % 10 - 1 = y
    simp only [show (1 + y * 10 + (9 - k) - 1) % 10 = 9 - k by omega, if_pos hk,
      show (1 + y * 10 + (9 - k) - 1) / 10 = y by omega, show y / 9 * 10 + (y % 9 + 1) = m by omega]
    rw [appendZeros_eq, ← he]
  · obtain rfl : k = 0 := by omega
    refine ⟨?_, by omega⟩
    rw [exactDecompressAmount, if_neg (by omega)]
    simp only [show (1 + (m - 1) * 10 + 9 - 1) % 10 = 9 by omega, lt_irrefl, if_false,
      show (1 + (m - 1) * 10 + 9 - 1) / 10 + 1 = m by omega]
    rw [appendZeros_eq, he]

theorem exactCompressAmount_exactDecompressAmount (x : ℕ) :
    exactCompressAmount (exactDecompressAmount x) = x := by
  rcases Nat.eq_zero_or_pos x with rfl | hx
  · rfl
  simp only [exactDecompressAmount, if_neg hx.ne', appendZeros_eq]
  split_ifs with he
  · -- the last digit is not zero, so that only the zeros that were appended are taken off
    generalize hn : (x - 1) / 10 / 9 * 10 + ((x - 1) / 10 % 9 + 1) = n
    have hs : stripZeros 9 (n * 10 ^ ((x - 1) % 10)) = (n, 9 - (x - 1) % 10) := by
      obtain ⟨j, hj⟩ : ∃ j, 9 = j + 1 + (x - 1) % 10 := ⟨8 - (x - 1) % 10, by omega⟩
      rw [hj, stripZeros_append, stripZeros, if_neg (by omega), Nat.add_sub_cancel]
    have hp : n * 10 ^ ((x - 1) % 10) ≠ 0 := Nat.mul_ne_zero (by omega) (by positivity)
    rw [exactCompressAmount_eq hp hs, if_pos (by omega)]
    omega
  · obtain he : (x - 1) % 10 = 9 := by omega
    have hs := stripZeros_append 0 ((x - 1) / 10 + 1) 9
    rw [Nat.zero_add, stripZeros] at hs
    have hp : ((x - 1) / 10 + 1) * 10 ^ 9 ≠ 0 := Nat.mul_ne_zero (by omega) (by positivity)
    rw [he, exactCompressAmount_eq hp hs, if_neg (lt_irrefl 9)]
    omega

/-- Amounts survive, and so do compressed amounts whose meaning fits `uint64_t`. -/
theorem compressAmount_decompressAmount : (∀ n : ℕ, n ≤ maxMoney → exactCompressAmount n < 2 ^ 64 ∧
      decompressAmount (compressAmount n) = n) ∧
    ∀ x < 2 ^ 64, exactDecompressAmount x < 2 ^ 64 → compressAmount (decompressAmount x) = x := by
  constructor
  · intro n hn
    have hm : maxMoney = 2100000000000000 := rfl
    obtain ⟨hi, hle⟩ := exactDecompressAmount_exactCompressAmount n
    have hl : exactCompressAmount n < 2 ^ 64 := by omega
    refine ⟨hl, ?_⟩
    rw [decompressAmount, compressAmount, Nat.mod_eq_of_lt hl, hi]
    omega
  · intro x hx hl
    rw [compressAmount, decompressAmount, Nat.mod_eq_of_lt hl,
      exactCompressAmount_exactDecompressAmount, Nat.mod_eq_of_lt hx]

theorem compressAmount_decompressAmount_coin :
    decompressAmount (compressAmount 100000000) = 100000000 ∧
      compressAmount (decompressAmount 9) = 9 :=
  ⟨(compressAmount_decompressAmount.1 100000000 (by decide)).2,
    compressAmount_decompressAmount.2 9 (by decide) (by decide)⟩

end Palladium
