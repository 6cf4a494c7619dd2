import Mathlib.Data.Nat.Bitwise
import Palladium.Lib.LeadingBits

/-! # The compact encoding of 256-bit targets

A compact number has a one-byte exponent of base 256 and a 23-bit mantissa below a sign bit.
-/

namespace Palladium
open LeadingBits Nat

abbrev ArithUint256 := BitVec 256

/-- A decoded compact number with the two out-parameters of `SetCompact`. -/
structure SetCompact where
  value : ArithUint256
  fNegative : Bool
  fOverflow : Bool
  deriving DecidableEq, Repr

def setCompact (nCompact : UInt32) : SetCompact :=
  let nSize := nCompact.toNat >>> 24
  let nWord := nCompact.toNat &&& 0x007fffff
  let nWord := if nSize ≤ 3 then nWord >>> (8 * (3 - nSize)) else nWord
  { value := if nSize ≤ 3 then BitVec.ofNat 256 nWord
      else BitVec.ofNat 256 nWord <<< (8 * (nSize - 3))
    fNegative := nWord ≠ 0 && nCompact.toNat &&& 0x00800000 ≠ 0
    fOverflow := nWord ≠ 0 && (nSize > 34 || (nWord > 0xff && nSize > 33) ||
      (nWord > 0xffff && nSize > 32)) }

variable (x : ArithUint256)

def getLow64 : ℕ := x.toNat % 2 ^ 64

def compactSize : ℕ := (bitLength x.toNat + 7) / 8

def compactWord : ℕ :=
  if compactSize x ≤ 3 then getLow64 x <<< (8 * (3 - compactSize x)) % 2 ^ 64 % 2 ^ 32
  else getLow64 (x >>> (8 * (compactSize x - 3))) % 2 ^ 32

/-- The encoder. A failed assertion is `none`. -/
def getCompact (fNegative : Bool := false) : Option UInt32 :=
  -- a set sign bit moves the mantissa down by a byte
  let sign := compactWord x &&& 0x00800000 ≠ 0
  let nSize := if sign then compactSize x + 1 else compactSize x
  let nCompact := if sign then compactWord x >>> 8 else compactWord x
  if nCompact &&& 0xff800000 ≠ 0 ∨ ¬ nSize < 256 then none
  else
    let nCompact := nCompact ||| nSize <<< 24
    some (UInt32.ofNat
      (nCompact ||| if fNegative && nCompact &&& 0x007fffff ≠ 0 then 0x00800000 else 0))

def compactDrop (n : ℕ) : ℕ := 8 * (n / 8 - 2)

theorem compactDrop_lt : ∀ n, 0 < n → compactDrop n < n := by
  intro n hn; unfold compactDrop; omega

def compactTrunc (x : ℕ) : ℕ := roundDown compactDrop x

theorem compactTrunc_le (x : ℕ) : compactTrunc x ≤ x := roundDown_le x

theorem compactTrunc_pos {x : ℕ} (h : 0 < x) : 0 < compactTrunc x :=
  roundDown_pos compactDrop_lt h

theorem compactTrunc_mono : Monotone compactTrunc := roundDown_mono compactDrop_lt

namespace Compact

theorem and_signBit {m : ℕ} (h : m < 2 ^ 24) : m &&& 0x00800000 ≠ 0 ↔ 2 ^ 23 ≤ m := by
  rw [show 0x00800000 = 2 ^ 23 by norm_num, and_two_pow, testBit_eq_decide_div_mod_eq]
  simp only [ne_eq, mul_eq_zero, Bool.toNat_eq_zero, decide_eq_false_iff_not, not_or, not_not]
  constructor
  · rintro ⟨h', -⟩; omega
  · intro h'; exact ⟨by omega, by norm_num⟩

theorem and_highBits {m : ℕ} (h : m < 2 ^ 23) : m &&& 0xff800000 = 0 := by
  apply eq_of_testBit_eq
  intro i
  rw [testBit_and, zero_testBit, show 0xff800000 = 511 <<< 23 by rfl, testBit_shiftLeft]
  by_cases hi : 23 ≤ i
  · rw [testBit_lt_two_pow (h.trans_le (Nat.pow_le_pow_right (by norm_num) hi))]
    rfl
  · simp [hi]

theorem or_exponent {m : ℕ} (h : m < 2 ^ 23) (e : ℕ) : m ||| e <<< 24 = m + e * 2 ^ 24 := by
  rw [shiftLeft_eq, Nat.or_comm, mul_comm e, ← two_pow_add_eq_or_of_lt (by omega)]
  omega

theorem setCompact_pack {m e : ℕ} (hm : m < 2 ^ 23) (he : e ≤ 33) (hl : e = 33 → m < 2 ^ 16) :
    setCompact (UInt32.ofNat (m + e * 2 ^ 24)) =
      { value := BitVec.ofNat 256
          (if e ≤ 3 then m / 2 ^ (8 * (3 - e)) else m * 2 ^ (8 * (e - 3)))
        fNegative := false
        fOverflow := false } := by
  have hn : (UInt32.ofNat (m + e * 2 ^ 24)).toNat = m + e * 2 ^ 24 := by
    rw [UInt32.toNat_ofNat']; omega
  have hs : (m + e * 2 ^ 24) >>> 24 = e := by rw [shiftRight_eq_div_pow]; omega
  have hw : (m + e * 2 ^ 24) &&& 0x007fffff = m := by
    rw [show 0x007fffff = 2 ^ 23 - 1 by norm_num, and_two_pow_sub_one_eq_mod]; omega
  have hz : (m + e * 2 ^ 24) &&& 0x00800000 = 0 := by
    rw [show 0x00800000 = 2 ^ 23 by norm_num, and_two_pow, testBit_eq_decide_div_mod_eq]
    have : (m + e * 2 ^ 24) / 2 ^ 23 % 2 = 0 := by omega
    simp only [this, zero_ne_one, decide_false, Bool.toNat_false, zero_mul]
  unfold setCompact
  simp only [hn, hs, hw, hz, shiftRight_eq_div_pow]
  split_ifs with h3
  · have h32 : ¬ 34 < e ∧ ¬ 33 < e ∧ ¬ 32 < e := by omega
    simp [h32]
  · have h16 : 65535 < m → e ≤ 32 := by intro h; have := hl; omega
    have h34 : ¬ 34 < e ∧ ¬ 33 < e := by omega
    have hv : BitVec.ofNat 256 m <<< (8 * (e - 3)) = BitVec.ofNat 256 (m * 2 ^ (8 * (e - 3))) := by
      apply BitVec.eq_of_toNat_eq
      simp [shiftLeft_eq]
    rw [hv]
    simpa [h34] using fun _ => h16

variable (x : ArithUint256)

theorem lt_two_pow_compactSize : x.toNat < 2 ^ (8 * compactSize x) :=
  bitLength_le.mp (by unfold compactSize; omega)

theorem word_lt {x : ArithUint256} (h : compactSize x ≤ 3) :
    x.toNat * 2 ^ (8 * (3 - compactSize x)) < 2 ^ 24 := by
  calc x.toNat * 2 ^ (8 * (3 - compactSize x))
      < 2 ^ (8 * compactSize x) * 2 ^ (8 * (3 - compactSize x)) :=
        Nat.mul_lt_mul_of_pos_right (lt_two_pow_compactSize x) (by positivity)
    _ = 2 ^ 24 := by rw [← pow_add]; congr 1; omega

theorem word_lt' {x : ArithUint256} (h : ¬ compactSize x ≤ 3) :
    x.toNat / 2 ^ (8 * (compactSize x - 3)) < 2 ^ 24 := by
  rw [Nat.div_lt_iff_lt_mul (by positivity), ← pow_add]
  refine (lt_two_pow_compactSize x).trans_eq ?_
  congr 1; omega

theorem compactWord_eq : compactWord x =
      if compactSize x ≤ 3 then x.toNat * 2 ^ (8 * (3 - compactSize x))
      else x.toNat / 2 ^ (8 * (compactSize x - 3)) := by
  unfold compactWord
  split_ifs with h
  · have hx : getLow64 x = x.toNat := by
      have := (lt_two_pow_compactSize x).trans_le
        (Nat.pow_le_pow_right (n := 2) (by norm_num) (show 8 * compactSize x ≤ 64 by omega))
      exact mod_eq_of_lt this
    have := word_lt h
    rw [hx, shiftLeft_eq, mod_eq_of_lt (a := _ * _) (by omega), mod_eq_of_lt (by omega)]
  · have := word_lt' h
    unfold getLow64
    rw [BitVec.toNat_ushiftRight, shiftRight_eq_div_pow, mod_eq_of_lt (a := _ / _) (by omega),
      mod_eq_of_lt (by omega)]

theorem compactWord_lt : compactWord x < 2 ^ 24 := by
  rw [compactWord_eq]
  split_ifs with h
  · exact word_lt h
  · exact word_lt' h

theorem compactWord_of_le {x : ArithUint256} (h : 3 ≤ compactSize x) :
    compactWord x = x.toNat / 2 ^ (8 * (compactSize x - 3)) := by
  rw [compactWord_eq]
  split_ifs with h'
  · rw [show compactSize x = 3 by omega]; simp
  · rfl

theorem signBit_iff :
    2 ^ 23 ≤ compactWord x ↔ bitLength x.toNat = 8 * compactSize x ∧ 0 < bitLength x.toNat := by
  have hs : compactSize x = (bitLength x.toNat + 7) / 8 := rfl
  have key : 2 ^ 23 ≤ compactWord x ↔ 0 < compactSize x ∧ 2 ^ (8 * compactSize x - 1) ≤ x.toNat := by
    rw [compactWord_eq]
    split_ifs with h
    · rcases Nat.eq_zero_or_pos (compactSize x) with h0 | h0
      · have : x.toNat = 0 := by have := lt_two_pow_compactSize x; simp [h0] at this; exact this
        simp [this, h0]
      · simp only [h0, true_and]
        rw [show 2 ^ 23 = 2 ^ (8 * compactSize x - 1) * 2 ^ (8 * (3 - compactSize x)) by
          rw [← pow_add]; congr 1; omega]
        exact Nat.mul_le_mul_right_iff (by positivity)
    · rw [Nat.le_div_iff_mul_le (by positivity), ← pow_add]
      have : 23 + 8 * (compactSize x - 3) = 8 * compactSize x - 1 := by omega
      rw [this]
      simp only [iff_and_self]
      intro; omega
  rw [key, ← lt_bitLength]
  omega

theorem getCompact_pack : ∃ m e, m < 2 ^ 23 ∧ e ≤ 33 ∧ (e = 33 → m < 2 ^ 16) ∧
      getCompact x = some (UInt32.ofNat (m + e * 2 ^ 24)) ∧
      (if e ≤ 3 then m / 2 ^ (8 * (3 - e)) else m * 2 ^ (8 * (e - 3))) = compactTrunc x.toNat := by
  have hlt := compactWord_lt x
  have hb : bitLength x.toNat ≤ 256 := bitLength_le.mpr x.isLt
  have hs : compactSize x = (bitLength x.toNat + 7) / 8 := rfl
  have hpa : ∀ {m e : ℕ}, m < 2 ^ 23 → e < 256 →
      (m = if compactWord x &&& 0x00800000 ≠ 0 then compactWord x >>> 8 else compactWord x) →
      (e = if compactWord x &&& 0x00800000 ≠ 0 then compactSize x + 1 else compactSize x) →
      getCompact x = some (UInt32.ofNat (m + e * 2 ^ 24)) := by
    intro m e hm he h₁ h₂
    unfold getCompact
    simp only [← h₁, ← h₂, and_highBits hm, he, or_exponent hm]
    simp
  by_cases hsi : 2 ^ 23 ≤ compactWord x
  · obtain ⟨hl, hp⟩ := (signBit_iff x).mp hsi
    refine ⟨compactWord x / 2 ^ 8, compactSize x + 1, by omega, by omega, by omega, ?_, ?_⟩
    · apply hpa (by omega) (by omega)
      · rw [if_pos ((and_signBit hlt).mpr hsi), shiftRight_eq_div_pow]
      · rw [if_pos ((and_signBit hlt).mpr hsi)]
    · unfold compactTrunc roundDown compactDrop
      rw [show bitLength x.toNat / 8 - 2 = compactSize x - 2 by omega]
      split_ifs with h3
      · rw [compactWord_eq, if_pos (by omega), Nat.div_div_eq_div_mul, ← pow_add,
          show 8 + 8 * (3 - (compactSize x + 1)) = 8 * (3 - compactSize x) by omega,
          Nat.mul_div_cancel _ (by positivity), show compactSize x - 2 = 0 by omega]
        simp
      · rw [compactWord_of_le (by omega), Nat.div_div_eq_div_mul, ← pow_add,
          show 8 * (compactSize x - 3) + 8 = 8 * (compactSize x - 2) by omega,
          show compactSize x + 1 - 3 = compactSize x - 2 by omega]
  · have hl : ¬ (bitLength x.toNat = 8 * compactSize x ∧ 0 < bitLength x.toNat) :=
      fun h => hsi ((signBit_iff x).mpr h)
    refine ⟨compactWord x, compactSize x, by omega, by omega, by omega, ?_, ?_⟩
    · apply hpa (by omega) (by omega)
      all_goals rw [if_neg (fun h => hsi ((and_signBit hlt).mp h))]
    · unfold compactTrunc roundDown compactDrop
      split_ifs with h3
      · rw [compactWord_eq, if_pos h3, Nat.mul_div_cancel _ (by positivity),
          show bitLength x.toNat / 8 - 2 = 0 by omega]
        simp
      · rw [compactWord_of_le (by omega), show bitLength x.toNat / 8 - 2 = compactSize x - 3 by omega]

end Compact

/-- Every number encodes, and its encoding decodes to it rounded down to its leading bits, without
flags. -/
theorem getCompact_setCompact : ∃ c, getCompact x = some c ∧
      setCompact c = ⟨BitVec.ofNat 256 (compactTrunc x.toNat), false, false⟩ := by
  obtain ⟨m, e, hm, he, hl, hc, hv⟩ := Compact.getCompact_pack x
  exact ⟨_, hc, by rw [Compact.setCompact_pack hm he hl, hv]⟩

end Palladium
