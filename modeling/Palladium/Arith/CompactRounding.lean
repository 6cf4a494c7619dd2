import Mathlib.Algebra.Order.Field.Basic
import Mathlib.Algebra.Order.Field.Power
import Mathlib.Tactic.FieldSimp
import Palladium.Arith.Compact

/-! # The compact encoding as a rounding

The numbers a compact word stands for are the fixed points of the round trip, which gives the
largest such number that is not above its argument.
-/

namespace Palladium
open LeadingBits Nat

def compactMantissa (nCompact : UInt32) : ℕ := nCompact.toNat % 2 ^ 23

def compactExponent (nCompact : UInt32) : ℕ := nCompact.toNat / 2 ^ 24

def Representable (v : ArithUint256) : Prop := ∃ nCompact, setCompact nCompact = ⟨v, false, false⟩

namespace Compact
variable (c : UInt32)

theorem compactMantissa_lt : compactMantissa c < 2 ^ 23 := mod_lt _ (by norm_num)

theorem and_mantissa : c.toNat &&& 0x007fffff = compactMantissa c := by
  rw [show 0x007fffff = 2 ^ 23 - 1 by norm_num, and_two_pow_sub_one_eq_mod, compactMantissa]

theorem shiftRight_exponent : c.toNat >>> 24 = compactExponent c :=
  shiftRight_eq_div_pow ..

def fieldsValue (m e : ℕ) : ℕ := if e ≤ 3 then m / 2 ^ (8 * (3 - e)) else m * 2 ^ (8 * (e - 3))

theorem setCompact_value : (setCompact c).value =
      BitVec.ofNat 256 (fieldsValue (compactMantissa c) (compactExponent c)) := by
  simp only [setCompact, fieldsValue, and_mantissa, shiftRight_exponent]
  split_ifs with h3
  · rw [shiftRight_eq_div_pow]
  · apply BitVec.eq_of_toNat_eq
    simp [Nat.shiftLeft_eq]

theorem setCompact_fOverflow :
    (setCompact c).fOverflow ↔ compactMantissa c ≠ 0 ∧ (34 < compactExponent c ∨
      (0xff < compactMantissa c ∧ 33 < compactExponent c) ∨
      (0xffff < compactMantissa c ∧ 32 < compactExponent c)) := by
  simp only [setCompact, and_mantissa, shiftRight_exponent]
  split_ifs with h3
  · have h32 : ¬ 34 < compactExponent c ∧ ¬ 33 < compactExponent c ∧ ¬ 32 < compactExponent c := by
      omega
    simp [h32]
  · simp [or_assoc]

theorem setCompact_fOverflow_iff_le : (setCompact c).fOverflow ↔
      2 ^ 256 ≤ fieldsValue (compactMantissa c) (compactExponent c) := by
  have hm := compactMantissa_lt c
  rw [setCompact_fOverflow]
  generalize compactMantissa c = m at hm ⊢
  generalize compactExponent c = e
  unfold fieldsValue
  split_ifs with h3
  · have := Nat.div_le_self m (2 ^ (8 * (3 - e)))
    omega
  · rcases Nat.lt_or_ge 34 e with h | h
    · have hp : 2 ^ 256 ≤ 2 ^ (8 * (e - 3)) := Nat.pow_le_pow_right (by norm_num) (by omega)
      constructor
      · rintro ⟨h0, -⟩
        exact hp.trans (Nat.le_mul_of_pos_left _ (by omega))
      · intro hl
        refine ⟨?_, .inl h⟩
        rintro rfl
        simp at hl
    · rcases (by omega : e = 34 ∨ e = 33 ∨ e ≤ 32) with rfl | rfl | h32
      · norm_num; omega
      · norm_num; omega
      · have hp : 2 ^ (8 * (e - 3)) ≤ 2 ^ 232 := Nat.pow_le_pow_right (by norm_num) (by omega)
        have hlt : m * 2 ^ (8 * (e - 3)) < 2 ^ 256 :=
          (Nat.mul_lt_mul_of_lt_of_le hm hp (by positivity)).trans_le (by norm_num)
        omega

theorem setCompact_fOverflow_iff : (setCompact c).fOverflow ↔
      (2 : ℚ) ^ 256 ≤ compactMantissa c * 256 ^ ((compactExponent c : ℤ) - 3) := by
  have hm := compactMantissa_lt c
  rw [setCompact_fOverflow_iff_le]
  generalize compactMantissa c = m at hm ⊢
  generalize compactExponent c = e
  unfold fieldsValue
  split_ifs with h3
  · have hd := Nat.div_le_self m (2 ^ (8 * (3 - e)))
    have hm' : (m : ℚ) < 2 ^ 23 := by exact_mod_cast hm
    have hz : (256 : ℚ) ^ ((e : ℤ) - 3) ≤ 1 := zpow_le_one_of_nonpos₀ (by norm_num) (by omega)
    have hl : (m : ℚ) * 256 ^ ((e : ℤ) - 3) ≤ m := mul_le_of_le_one_right (by positivity) hz
    constructor
    · omega
    · intro h
      have : (2 : ℚ) ^ 256 < 2 ^ 23 := (h.trans hl).trans_lt hm'
      norm_num at this
  · rw [show (e : ℤ) - 3 = (e - 3 : ℕ) by omega, zpow_natCast, pow_mul]
    norm_cast

theorem compactTrunc_fieldsValue {m : ℕ} (hm : m < 2 ^ 23) (e : ℕ) :
    compactTrunc (fieldsValue m e) = fieldsValue m e := by
  apply roundDown_eq_self
  unfold fieldsValue compactDrop
  split_ifs with h3
  · have hd := Nat.div_le_self m (2 ^ (8 * (3 - e)))
    have hb : bitLength (m / 2 ^ (8 * (3 - e))) ≤ 23 := bitLength_le.mpr (by omega)
    rw [show bitLength (m / 2 ^ (8 * (3 - e))) / 8 - 2 = 0 by omega]
    simp
  · have hb : bitLength (m * 2 ^ (8 * (e - 3))) ≤ 23 + 8 * (e - 3) := by
      rw [bitLength_le, pow_add]
      exact Nat.mul_lt_mul_of_pos_right hm (by positivity)
    exact Dvd.dvd.mul_left (Nat.pow_dvd_pow 2 (by omega)) m

theorem compactTrunc_representable {v : ArithUint256} (h : Representable v) :
    compactTrunc v.toNat = v.toNat := by
  obtain ⟨c, hc⟩ := h
  have hv := setCompact_value c
  have ho := (setCompact_fOverflow_iff_le c).not
  simp only [hc, Bool.false_eq_true, not_false_eq_true, true_iff, not_le] at hv ho
  rw [hv, BitVec.toNat_ofNat, mod_eq_of_lt ho]
  exact compactTrunc_fieldsValue (compactMantissa_lt c) _

end Compact

variable (x : ArithUint256)

def compactRound : ArithUint256 := BitVec.ofNat 256 (compactTrunc x.toNat)

theorem compactRound_toNat : (compactRound x).toNat = compactTrunc x.toNat := by
  rw [compactRound, BitVec.toNat_ofNat, mod_eq_of_lt]
  exact (compactTrunc_le _).trans_lt x.isLt

theorem getCompact_map_setCompact :
    (getCompact x).map setCompact = some ⟨compactRound x, false, false⟩ := by
  obtain ⟨c, hc, hs⟩ := getCompact_setCompact x
  rw [hc, Option.map_some, hs, compactRound]

theorem compactRound_representable : Representable (compactRound x) := by
  obtain ⟨c, -, hs⟩ := getCompact_setCompact x
  exact ⟨c, hs⟩

theorem compactRound_of_representable {v : ArithUint256} (h : Representable v) :
    compactRound v = v := by
  apply BitVec.eq_of_toNat_eq
  rw [compactRound_toNat, Compact.compactTrunc_representable h]

theorem compactRound_le : compactRound x ≤ x := by
  rw [BitVec.le_def, compactRound_toNat]
  exact compactTrunc_le _

theorem compactRound_mono {x y : ArithUint256} (h : x ≤ y) : compactRound x ≤ compactRound y := by
  rw [BitVec.le_def, compactRound_toNat, compactRound_toNat]
  exact compactTrunc_mono (BitVec.le_def.mp h)

theorem sub_compactTrunc_mul_lt {x : ℕ} (hx : 0 < x) : (x - compactTrunc x) * 2 ^ 15 < x := by
  have hb : 0 < bitLength x := lt_bitLength.mpr hx
  have hl : 2 ^ (bitLength x - 1) ≤ x := lt_bitLength.mp (by omega)
  have hlo : x - compactTrunc x < 2 ^ compactDrop (bitLength x) := by
    have hp := Nat.two_pow_pos (compactDrop (bitLength x))
    have := lt_div_mul_add (a := x) hp
    unfold compactTrunc roundDown
    omega
  rcases Nat.lt_or_ge (bitLength x) 24 with h | h
  · have hd : compactDrop (bitLength x) = 0 := by unfold compactDrop; omega
    rw [hd, pow_zero] at hlo
    omega
  · calc (x - compactTrunc x) * 2 ^ 15
        < 2 ^ compactDrop (bitLength x) * 2 ^ 15 := Nat.mul_lt_mul_of_pos_right hlo (by norm_num)
      _ = 2 ^ (compactDrop (bitLength x) + 15) := (pow_add ..).symm
      _ ≤ 2 ^ (bitLength x - 1) :=
        Nat.pow_le_pow_right (by norm_num) (by unfold compactDrop; omega)
      _ ≤ x := hl

theorem compactRound_relative_error :
    ((x.toNat : ℚ) - (compactRound x).toNat) / x.toNat < 1 / 2 ^ 15 := by
  rcases Nat.eq_zero_or_pos x.toNat with h0 | hp
  · rw [h0]; norm_num
  · rw [div_lt_div_iff₀ (by exact_mod_cast hp) (by norm_num), one_mul, compactRound_toNat,
      ← cast_sub (compactTrunc_le _)]
    exact_mod_cast sub_compactTrunc_mul_lt hp

theorem getCompact_isSome (fNegative : Bool) : (getCompact x fNegative).isSome := by
  obtain ⟨c, hc, -⟩ := getCompact_setCompact x
  have h : (getCompact x fNegative).isSome = (getCompact x).isSome := by
    unfold getCompact
    dsimp only
    split_ifs <;> rfl
  rw [h, hc, Option.isSome_some]

/-- Encoding is a canonical rounding. The round trip gives the largest representable number not
above its argument, it is exact on decoded words, and the flags say when there is no number. -/
theorem getCompact_canonical : (∃ round : ArithUint256 → ArithUint256,
      (∀ x, (getCompact x).map setCompact = some ⟨round x, false, false⟩) ∧
      (∀ x, Representable (round x) ∧ round x ≤ x ∧ ∀ v, Representable v → v ≤ x → v ≤ round x) ∧
      (∀ x, ((x.toNat : ℚ) - (round x).toNat) / x.toNat < 1 / 2 ^ 15) ∧
      (∀ x y, x ≤ y → round x ≤ round y) ∧ ∀ x, round (round x) = round x) ∧
    (∀ nCompact, (setCompact nCompact).fNegative = false → (setCompact nCompact).fOverflow = false →
      (getCompact (setCompact nCompact).value).map setCompact = some (setCompact nCompact)) ∧
    (∀ nCompact, (setCompact nCompact).fOverflow = true ↔
      (2 : ℚ) ^ 256 ≤ compactMantissa nCompact * 256 ^ ((compactExponent nCompact : ℤ) - 3)) ∧
    ∀ x fNegative, (getCompact x fNegative).isSome = true := by
  refine ⟨⟨compactRound, getCompact_map_setCompact, fun x => ?_, compactRound_relative_error,
    fun _ _ => compactRound_mono, fun x => ?_⟩, fun c hn ho => ?_,
    Compact.setCompact_fOverflow_iff, getCompact_isSome⟩
  · refine ⟨compactRound_representable x, compactRound_le x, fun v hv hl => ?_⟩
    rw [← compactRound_of_representable hv]
    exact compactRound_mono hl
  · exact compactRound_of_representable (compactRound_representable x)
  · have hc : setCompact c = ⟨(setCompact c).value, false, false⟩ := by
      generalize setCompact c = r at hn ho
      cases r
      simp_all only
    rw [getCompact_map_setCompact, compactRound_of_representable ⟨c, hc⟩, ← hc]

theorem getCompact_canonical_difficultyOne :
    (getCompact (setCompact 0x1d00ffff).value).map setCompact = some (setCompact 0x1d00ffff) :=
  getCompact_canonical.2.1 0x1d00ffff (by decide +kernel) (by decide +kernel)

end Palladium
