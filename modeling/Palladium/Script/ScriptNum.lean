import Mathlib
import Palladium.Primitives.Unserialize
import Palladium.Script.Script

/-! # Script numbers

`CScriptNum::serialize` and the constructor from a stack element.
-/

namespace Palladium
open List

theorem forall_byte {p : UInt8 → Prop} (h : ∀ n < 256, p (UInt8.ofNat n)) (b : UInt8) : p b := by
  have hb := h b.toNat b.toNat_lt
  rwa [UInt8.ofNat_toNat] at hb

theorem and_signBit : ∀ b : UInt8, b &&& 0x80 ≠ 0 ↔ 128 ≤ b.toNat :=
  forall_byte (by decide +kernel)

theorem and_magnitudeBits : ∀ b : UInt8, (b &&& 0x7f).toNat = b.toNat % 128 :=
  forall_byte (by decide +kernel)

theorem or_signBit : ∀ b : UInt8, b.toNat < 128 → (b ||| 0x80).toNat = b.toNat + 128 :=
  forall_byte (by decide +kernel)

theorem readLE_concat (init : List UInt8) (b : UInt8) :
    readLE (init ++ [b]) = readLE init + b.toNat * 256 ^ init.length := by
  induction init with
  | nil => simp [readLE]
  | cons c init ih =>
    rw [cons_append, readLE, readLE, ih, length_cons, pow_succ]
    ring

theorem readLE_inj {v w : List UInt8} (hl : v.length = w.length) (h : readLE v = readLE w) : v = w := by
  rw [← writeLE_readLE v, ← writeLE_readLE w, hl, h]

namespace CScriptNum

def magnitude (vch : Valtype) : ℕ := readLE (vch.dropLast ++ [vch.getLastD 0 &&& 0x7f])

/-- The sign-magnitude reading, which does not follow `set_vch`. -/
def signMagnitude (vch : Valtype) : ℤ :=
  if vch.getLastD 0 < 0x80 then magnitude vch else -magnitude vch

variable {init v w : Valtype} {b : UInt8} {n : ℤ}

theorem magnitude_concat :
    magnitude (init ++ [b]) = readLE init + b.toNat % 128 * 256 ^ init.length := by
  rw [magnitude, dropLast_concat, getLastD_concat, readLE_concat, and_magnitudeBits]

theorem readLE_eq_magnitude : readLE (init ++ [b]) =
    magnitude (init ++ [b]) + (if 128 ≤ b.toNat then 128 else 0) * 256 ^ init.length := by
  have hb : b.toNat = b.toNat % 128 + (if 128 ≤ b.toNat then 128 else 0) := by
    have := b.toNat_lt
    split <;> omega
  rw [readLE_concat, magnitude_concat, add_assoc, ← add_mul, ← hb]

theorem signMagnitude_concat : signMagnitude (init ++ [b]) =
    if 128 ≤ b.toNat then -(magnitude (init ++ [b]) : ℤ) else magnitude (init ++ [b]) := by
  have hl : b < 0x80 ↔ ¬ 128 ≤ b.toNat := by rw [UInt8.lt_iff_toNat_lt, Nat.not_le]; rfl
  rw [signMagnitude, getLastD_concat, if_congr hl rfl rfl, ite_not]

variable (v)

theorem setVch_eq_signMagnitude : setVch v = signMagnitude v := by
  rcases eq_nil_or_concat' v with rfl | ⟨init, b, rfl⟩
  · decide
  · rw [setVch, signMagnitude_concat, getLastD_concat, readLE_eq_magnitude,
      if_congr (and_signBit b) rfl rfl]
    split
    · simp
    · simp

theorem signMagnitude_neg_iff (hp : 0 < magnitude (init ++ [b])) :
    signMagnitude (init ++ [b]) < 0 ↔ 128 ≤ b.toNat := by
  rw [signMagnitude_concat]
  split <;> omega

theorem natAbs_signMagnitude : (signMagnitude v).natAbs = magnitude v := by
  rw [signMagnitude]
  split <;> omega

theorem two_mul_magnitude_lt (hv : v ≠ []) : 2 * magnitude v < 256 ^ v.length := by
  obtain ⟨init, b, rfl⟩ := (eq_nil_or_concat' v).resolve_left hv
  have hi := readLE_lt init
  have hb : b.toNat % 128 * 256 ^ init.length ≤ 127 * 256 ^ init.length :=
    Nat.mul_le_mul_right _ (by omega)
  rw [magnitude_concat, length_append, length_singleton, pow_succ]
  omega

theorem isMinimal_iff : isMinimal v ↔ v = [] ∨ 256 ^ (v.length - 1) ≤ 2 * magnitude v := by
  rcases eq_nil_or_concat' v with rfl | ⟨init, b, rfl⟩
  · decide
  have hb : b &&& 0x7f ≠ 0 ↔ b.toNat % 128 ≠ 0 := by
    rw [← and_magnitudeBits, Ne, ← UInt8.toNat_inj]
    rfl
  rw [magnitude_concat]
  rcases Nat.eq_zero_or_pos (b.toNat % 128) with hz | hp
  · rcases eq_nil_or_concat' init with rfl | ⟨init, c, rfl⟩
    · simp [isMinimal, hb, hz, readLE]
    · -- the byte before the last one needs its highest bit
      have ht : isMinimal (init ++ [c] ++ [b]) ↔ 128 ≤ c.toNat := by
        rw [← and_signBit]
        simp [isMinimal, hb, hz]
      have hi := readLE_lt init
      rw [ht, hz, readLE_concat]
      simp only [append_eq_nil_iff, cons_ne_nil, and_false, false_or, length_append,
        length_singleton, Nat.add_sub_cancel, pow_succ, zero_mul, add_zero]
      constructor
      · intro hc
        have := Nat.mul_le_mul_right (256 ^ init.length) hc
        omega
      · intro hl
        by_contra hc
        have := Nat.mul_le_mul_right (256 ^ init.length) (show c.toNat ≤ 127 by omega)
        omega
  · have hl : 256 ^ init.length ≤ b.toNat % 128 * 256 ^ init.length :=
      Nat.le_mul_of_pos_left _ hp
    refine iff_of_true ?_ (.inr ?_)
    · simp [isMinimal, hb, hp.ne']
    · simp only [length_append, length_singleton, Nat.add_sub_cancel]
      omega

variable {v}

theorem length_le_of_isMinimal (hv : isMinimal v) (hm : magnitude v = magnitude w) :
    v.length ≤ w.length := by
  by_contra hlt
  have hn : v ≠ [] := length_pos_iff.mp (by omega)
  have hl := ((isMinimal_iff v).mp hv).resolve_left hn
  have hp : 0 < 256 ^ (v.length - 1) := by positivity
  rcases eq_or_ne w [] with rfl | hw
  · rw [hm, show magnitude [] = 0 by decide] at hl
    omega
  · have := two_mul_magnitude_lt w hw
    have := Nat.pow_le_pow_right (show 0 < 256 by omega) (show w.length ≤ v.length - 1 by omega)
    omega

theorem eq_of_isMinimal (hv : isMinimal v) (hw : isMinimal w)
    (h : signMagnitude v = signMagnitude w) : v = w := by
  have hm : magnitude v = magnitude w := by rw [← natAbs_signMagnitude, h, natAbs_signMagnitude]
  have hl : v.length = w.length :=
    (length_le_of_isMinimal hv hm).antisymm (length_le_of_isMinimal hw hm.symm)
  refine readLE_inj hl ?_
  rcases eq_nil_or_concat' v with rfl | ⟨init, b, rfl⟩
  · rw [length_eq_zero_iff.mp hl.symm]
  obtain ⟨init', c, rfl⟩ := (eq_nil_or_concat' w).resolve_left fun h => by simp [h] at hl
  have hp : 0 < magnitude (init ++ [b]) := by
    have hle := ((isMinimal_iff _).mp hv).resolve_left (by simp)
    have : 0 < 256 ^ ((init ++ [b]).length - 1) := by positivity
    omega
  have hs : 128 ≤ b.toNat ↔ 128 ≤ c.toNat := by
    rw [← signMagnitude_neg_iff hp, h, signMagnitude_neg_iff (hm ▸ hp)]
  have hl' : init.length = init'.length := by simpa using hl
  rw [readLE_eq_magnitude, readLE_eq_magnitude, hm, hl', if_congr hs rfl rfl]

theorem absBytes_spec {k a : ℕ} (ha : a < 256 ^ k) : readLE (absBytes k a) = a ∧
    (absBytes k a).length ≤ k ∧ (absBytes k a = [] ∨ 256 ^ ((absBytes k a).length - 1) ≤ a) := by
  induction k generalizing a with
  | zero => simp_all [absBytes, readLE]
  | succ k ih =>
    cases a with
    | zero => simp [absBytes, readLE]
    | succ a =>
      obtain ⟨hr, hl, hle⟩ := ih (a := (a + 1) / 256) (by rw [pow_succ] at ha; omega)
      have hs : absBytes (k + 1) (a + 1) =
          UInt8.ofNat ((a + 1) % 256) :: absBytes k ((a + 1) / 256) := rfl
      rw [hs, length_cons, Nat.add_sub_cancel]
      refine ⟨?_, Nat.succ_le_succ hl, .inr ?_⟩
      · rw [readLE, hr, UInt8.toNat_ofNat']
        omega
      · rcases hle with hn | hle
        · simp [hn]
        · cases hk : (absBytes k ((a + 1) / 256)).length with
          | zero => simp
          | succ l =>
            rw [hk, Nat.add_sub_cancel] at hle
            rw [pow_succ]
            omega

theorem serialize_spec (hn : n.natAbs < 2 ^ 63) : signMagnitude (serialize n) = n ∧
    isMinimal (serialize n) ∧ (serialize n).length ≤ 8 := by
  obtain ⟨hr, hl, hle⟩ := absBytes_spec (k := 8) (a := n.natAbs) (by omega)
  unfold serialize
  rcases eq_nil_or_concat' (absBytes 8 n.natAbs) with hni | ⟨init, c, hc⟩
  · have hz : n = 0 := by
      rw [hni] at hr
      exact Int.natAbs_eq_zero.mp hr.symm
    rw [hz]
    decide
  rw [hc] at hr hl hle
  replace hle := hle.resolve_left (by simp)
  simp only [length_append, length_singleton, Nat.add_sub_cancel] at hl hle
  rw [isMinimal_iff, hc]
  simp only [getLastD_concat, and_signBit, dropLast_concat]
  rw [readLE_concat] at hr
  by_cases hs : 128 ≤ c.toNat
  · -- the highest bit is taken, so that a byte for the sign follows
    have hle := Nat.mul_le_mul_right (256 ^ init.length) hs
    have hsh : init.length < 7 := by
      by_contra hlong
      have := Nat.pow_le_pow_right (show 0 < 256 by omega) (Nat.not_lt.mp hlong)
      omega
    rw [if_pos hs, signMagnitude_concat, magnitude_concat, readLE_concat]
    simp only [length_append, length_singleton, Nat.add_sub_cancel, pow_succ]
    by_cases hng : n < 0
    · simp only [hng, decide_true, if_true, show (0x80 : UInt8).toNat = 128 from rfl]
      omega
    · simp only [hng, decide_false, Bool.false_eq_true, if_false, UInt8.toNat_zero]
      omega
  · have hm : c.toNat % 128 = c.toNat := Nat.mod_eq_of_lt (by omega)
    rw [if_neg hs]
    by_cases hng : n < 0
    · rw [if_pos (decide_eq_true hng), signMagnitude_concat, magnitude_concat,
        or_signBit c (by omega), Nat.add_mod_right, hm, hr, if_pos (by omega)]
      simp only [length_append, length_singleton, Nat.add_sub_cancel]
      omega
    · rw [if_neg (by simpa using hng), signMagnitude_concat, magnitude_concat, hm, hr, if_neg hs]
      simp only [length_append, length_singleton, Nat.add_sub_cancel]
      omega

theorem natAbs_lt_iff : n.natAbs < 2 ^ 63 ↔ int64Min < n ∧ n ≤ int64Max := by
  unfold int64Min int64Max
  omega

theorem natAbs_signMagnitude_lt {k : ℕ} (hv : v.length ≤ k) :
    2 * (signMagnitude v).natAbs < 256 ^ k := by
  rw [natAbs_signMagnitude]
  rcases eq_or_ne v [] with rfl | hn
  · simp [show magnitude [] = 0 by decide]
  · exact (two_mul_magnitude_lt v hn).trans_le (Nat.pow_le_pow_right (by omega) hv)

theorem natAbs_lt_of_ofVch {fRequireMinimal : Bool} {a : CScriptNum}
    (h : ofVch v fRequireMinimal nDefaultMaxNumSize = .ok a) : 2 * a.natAbs < 256 ^ 4 := by
  unfold ofVch at h
  split_ifs at h with hs
  cases h
  rw [setVch_eq_signMagnitude]
  exact natAbs_signMagnitude_lt (Nat.not_lt.mp hs)

/-- The script number codec, for sizes up to that of an `int64_t`. -/
theorem serialize_ofVch : (∀ n, int64Min < n → n ≤ int64Max →
      ofVch (serialize n) true 8 = .ok n ∧ ∀ v, setVch v = n → (serialize n).length ≤ v.length) ∧
    (∀ v nMaxNumSize, nMaxNumSize ≤ 8 → v.length ≤ nMaxNumSize →
      ((∃ n, ofVch v true nMaxNumSize = .ok n) ↔
        ∃ n, (int64Min < n ∧ n ≤ int64Max) ∧ serialize n = v) ∧
      ofVch v false nMaxNumSize = .ok (signMagnitude v)) ∧
    Set.InjOn serialize (Set.Ioc int64Min int64Max) ∧
    ∀ v w fRequireMinimal fRequireMinimal' (a b : ℤ),
      ofVch v fRequireMinimal nDefaultMaxNumSize = .ok a →
      ofVch w fRequireMinimal' nDefaultMaxNumSize = .ok b →
      a + b ∈ Set.Icc int64Min int64Max ∧ a - b ∈ Set.Icc int64Min int64Max := by
  refine ⟨fun n hmn hma => ?_, fun v nMaxNumSize hma hl => ⟨?_, ?_⟩, ?_, ?_⟩
  · obtain ⟨hva, hmi, hl⟩ := serialize_spec (natAbs_lt_iff.mpr ⟨hmn, hma⟩)
    refine ⟨?_, fun v hv => length_le_of_isMinimal hmi ?_⟩
    · rw [ofVch, if_neg (by omega), hmi, setVch_eq_signMagnitude, hva]
      rfl
    · rw [setVch_eq_signMagnitude] at hv
      rw [← natAbs_signMagnitude, ← natAbs_signMagnitude, hva, hv]
  · have hs := natAbs_signMagnitude_lt (show v.length ≤ 8 by omega)
    have hac : (∃ n, ofVch v true nMaxNumSize = .ok n) ↔ isMinimal v := by
      rw [ofVch, if_neg (by omega)]
      cases isMinimal v <;> simp
    rw [hac]
    constructor
    · intro hv
      obtain ⟨hva, hmi, -⟩ := serialize_spec (n := signMagnitude v) (by omega)
      exact ⟨signMagnitude v, natAbs_lt_iff.mp (by omega), eq_of_isMinimal hmi hv hva⟩
    · rintro ⟨n, hn, rfl⟩
      exact (serialize_spec (natAbs_lt_iff.mpr hn)).2.1
  · rw [ofVch, if_neg (by omega), setVch_eq_signMagnitude]
    rfl
  · intro m hm n hn h
    rw [← (serialize_spec (natAbs_lt_iff.mpr hm)).1, h, (serialize_spec (natAbs_lt_iff.mpr hn)).1]
  · intro v w f g a b ha hb
    have ha := natAbs_lt_of_ofVch ha
    have hb := natAbs_lt_of_ofVch hb
    simp only [Set.mem_Icc, int64Min, int64Max]
    refine ⟨⟨?_, ?_⟩, ?_, ?_⟩
    all_goals omega

theorem serialize_ofVch_negative : ofVch (serialize (-255)) true 8 = .ok (-255) :=
  (serialize_ofVch.1 (-255) (by decide) (by decide)).1

end CScriptNum

end Palladium
