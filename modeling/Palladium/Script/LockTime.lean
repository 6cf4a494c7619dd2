import Palladium.Chain.VersionBits
import Palladium.Consensus.SequenceLocks
import Palladium.Script.Interpreter

/-! # Lock times in scripts

`CheckLockTime` and `CheckSequence` of the signature checkers of transactions.
-/

namespace Palladium
open Bool List Nat

/-- Out of the range of the inputs nothing is checked. -/
def checkLockTime (txTo : CTransaction) (nIn : ℕ) (nLockTime : ℤ) : Option Bool :=
  match txTo.vin[nIn]? with
  | none => none
  | some txin => some <|
    if !((txTo.nLockTime < lockTimeThreshold && nLockTime < lockTimeThreshold) ||
        (txTo.nLockTime ≥ lockTimeThreshold && nLockTime ≥ lockTimeThreshold)) then false
    else if nLockTime > txTo.nLockTime then false
    else if txin.nSequence = sequenceFinal then false
    else true

def maskSequence (nSequence : ℤ) : ℕ :=
  (nSequence % 2 ^ 64).toNat &&& (CTxIn.sequenceLocktimeTypeFlag ||| CTxIn.sequenceLocktimeMask)

def checkSequence (txTo : CTransaction) (nIn : ℕ) (nSequence : ℤ) : Option Bool :=
  match txTo.vin[nIn]? with
  | none => none
  | some txin => some <|
    if txTo.nVersion % 2 ^ 32 < 2 then false
    else if txin.nSequence &&& CTxIn.sequenceLocktimeDisableFlag ≠ 0 then false
    else
      let txToSequenceMasked := maskSequence txin.nSequence
      let nSequenceMasked := maskSequence nSequence
      if !((txToSequenceMasked < CTxIn.sequenceLocktimeTypeFlag &&
            nSequenceMasked < CTxIn.sequenceLocktimeTypeFlag) ||
          (txToSequenceMasked ≥ CTxIn.sequenceLocktimeTypeFlag &&
            nSequenceMasked ≥ CTxIn.sequenceLocktimeTypeFlag)) then false
      else if nSequenceMasked > txToSequenceMasked then false
      else true

theorem lt_of_checkLockTime {tx : CTransaction} {nIn : ℕ} {n nHeight nTime : ℤ}
    (hh : n < lockTimeThreshold → 0 < nHeight) (hc : checkLockTime tx nIn n = some true)
    (hf : isFinalTx tx nHeight nTime) : if n < lockTimeThreshold then n < nHeight else n < nTime := by
  unfold checkLockTime at hc
  split at hc
  · cases hc
  · next txin hi =>
    simp only [Option.some.injEq] at hc
    split_ifs at hc with hk hl hs
    simp only [not_eq_true', not_eq_false, or_eq_true, and_eq_true, decide_eq_true_eq] at hk
    have ht : (0 : ℕ) < lockTimeThreshold := by decide
    have all_final (ha : (tx.vin.all fun txin => txin.nSequence = sequenceFinal) = true) :
        txin.nSequence = sequenceFinal :=
      of_decide_eq_true (all_eq_true.mp ha txin (mem_of_getElem? hi))
    unfold isFinalTx at hf
    split_ifs at hf with hz hb hp hp
    · have := hh (by omega)
      split <;> omega
    · rw [if_pos (by omega)]
      omega
    · exact absurd (all_final hf) hs
    · rw [if_neg (by omega)]
      omega
    · exact absurd (all_final hf) hs

theorem maskSequence_eq (n : ℤ) : maskSequence n =
    2 ^ 22 * ((n % 2 ^ 64).toNat.testBit 22).toNat + (n % 2 ^ 64).toNat % 2 ^ 16 := by
  have hl : (n % 2 ^ 64).toNat % 2 ^ 16 < 2 ^ 22 := (Nat.mod_lt _ (by decide)).trans (by decide)
  have ht : (n % 2 ^ 64).toNat &&& CTxIn.sequenceLocktimeTypeFlag =
      2 ^ 22 * ((n % 2 ^ 64).toNat.testBit 22).toNat := by
    rw [mul_comm]
    exact and_two_pow _ 22
  have hv : (n % 2 ^ 64).toNat &&& CTxIn.sequenceLocktimeMask = (n % 2 ^ 64).toNat % 2 ^ 16 :=
    and_two_pow_sub_one_eq_mod _ 16
  rw [maskSequence, Nat.and_or_distrib_left, Nat.two_pow_add_eq_or_of_lt hl, ht, hv]

theorem maskSequence_mod (n : ℤ) : (maskSequence n : ℤ) % 2 ^ 16 = n % 2 ^ 16 := by
  rw [maskSequence_eq]
  omega

theorem maskSequence_range (n : ℤ) :
    maskSequence n < 2 ^ 16 ∨ 2 ^ 22 ≤ maskSequence n ∧ maskSequence n < 2 ^ 22 + 2 ^ 16 := by
  have hm : (n % 2 ^ 64).toNat % 2 ^ 16 < 2 ^ 16 := Nat.mod_lt _ (by decide)
  rw [maskSequence_eq]
  cases (n % 2 ^ 64).toNat.testBit 22
  · exact .inl (by simpa using hm)
  · exact .inr ⟨Nat.le_add_right _ _, Nat.add_lt_add_left hm _⟩

theorem CTxIn.lockIsTime_iff (txin : CTxIn) :
    txin.lockIsTime ↔ sequenceLocktimeTypeFlag ≤ maskSequence txin.nSequence := by
  have hm : ((txin.nSequence : ℤ) % 2 ^ 64).toNat = txin.nSequence % 2 ^ 64 := by omega
  have hb : txin.lockIsTime = txin.nSequence.testBit 22 := by
    have ha : txin.nSequence &&& sequenceLocktimeTypeFlag = (txin.nSequence.testBit 22).toNat * 2 ^ 22 :=
      and_two_pow _ 22
    rw [lockIsTime, ha]
    cases txin.nSequence.testBit 22 <;> rfl
  have hl : txin.nSequence % 2 ^ 64 % 2 ^ 16 < 2 ^ 16 := Nat.mod_lt _ (by decide)
  rw [maskSequence_eq, hm, hb, testBit_mod_two_pow]
  cases txin.nSequence.testBit 22
  · simp [sequenceLocktimeTypeFlag]
    omega
  · simp [sequenceLocktimeTypeFlag]

theorem CTxIn.lockValue_eq (txin : CTxIn) : (txin.lockValue : ℤ) = txin.nSequence % 2 ^ 16 := by
  have hv : txin.lockValue = txin.nSequence % 2 ^ 16 := and_two_pow_sub_one_eq_mod _ 16
  rw [hv, Int.natCast_mod]
  rfl

theorem checkSequence_spec {tx : CTransaction} {nIn : ℕ} {n : ℤ}
    (h : checkSequence tx nIn n = some true) :
    ∃ txin, tx.vin[nIn]? = some txin ∧ 2 ≤ tx.nVersion % 2 ^ 32 ∧ txin.lockDisabled = false ∧
      (txin.lockIsTime ↔ CTxIn.sequenceLocktimeTypeFlag ≤ maskSequence n) ∧
      n % 2 ^ 16 ≤ txin.lockValue := by
  unfold checkSequence at h
  split at h
  · cases h
  · next txin hi =>
    simp only [Option.some.injEq] at h
    split_ifs at h with hv hd hk hl
    simp only [not_eq_true', not_eq_false, or_eq_true, and_eq_true, decide_eq_true_eq] at hk
    have hf : CTxIn.sequenceLocktimeTypeFlag = 2 ^ 22 := rfl
    have hr := maskSequence_range n
    have hr' := maskSequence_range txin.nSequence
    have hm := maskSequence_mod n
    have hm' := maskSequence_mod txin.nSequence
    refine ⟨txin, hi, by omega, by simpa [CTxIn.lockDisabled] using hd, ?_, ?_⟩
    · rw [txin.lockIsTime_iff]
      omega
    · rw [txin.lockValue_eq]
      omega

/-- The lock times that scripts check have passed. -/
theorem locktimes_passed {ι : Type*} (T : IndexChain ι) (tx : CTransaction) (nIn : ℕ) (n : ℤ) :
    (∀ nHeight nTime : ℤ, (n < lockTimeThreshold → 0 < nHeight) →
      checkLockTime tx nIn n = some true → isFinalTx tx nHeight nTime = true →
      if n < lockTimeThreshold then n < nHeight else n < nTime) ∧
    ∀ (block pprev : ι) (prevHeights : List ℤ) (nCoinHeight : ℤ), T.parent block = some pprev →
      prevHeights[nIn]? = some nCoinHeight → checkSequence tx nIn n = some true →
      sequenceLocks T.toIndexEntries block tx locktimeVerifySequence prevHeights = some true →
      if maskSequence n < CTxIn.sequenceLocktimeTypeFlag then
        n % 2 ^ 16 ≤ T.height block - nCoinHeight
      else ∃ ancestor ∈ T.path block, T.height ancestor = max (nCoinHeight - 1) 0 ∧
        n % 2 ^ 16 * 512 ≤ T.getMedianTimePast pprev - T.getMedianTimePast ancestor := by
  refine ⟨fun nHeight nTime => lt_of_checkLockTime, ?_⟩
  intro block pprev prevHeights nCoinHeight hp hhe hc hl
  obtain ⟨txin, hi, hv, he, ht, hva⟩ := checkSequence_spec hc
  have hen : enforceBIP68 tx locktimeVerifySequence = true := by
    rw [enforceBIP68, and_eq_true]
    exact ⟨decide_eq_true hv, rfl⟩
  have hm : (txin, nCoinHeight) ∈ tx.vin.zip prevHeights :=
    mem_of_getElem? (getElem?_zip_eq_some.mpr ⟨hi, hhe⟩)
  have hme := lockMet_of_sequenceLocks hp hen hl _ hm he
  split
  · next hlt =>
    have hh : txin.lockIsTime = false := by
      rw [eq_false_iff, ne_eq, ht]
      exact not_le.mpr hlt
    rw [hh] at hme
    simp only [false_eq_true, if_false] at hme
    omega
  · next hg =>
    rw [ht.mpr (not_lt.mp hg)] at hme
    simp only [if_true] at hme
    obtain ⟨ancestor, han, hle⟩ := hme
    obtain ⟨hpa, ha⟩ := IndexChain.getAncestor_eq_some_iff.mp han
    exact ⟨ancestor, hpa, ha, by omega⟩

/-- A transaction of version 2 with one input. -/
def lockedTx (nLockTime nSequence : ℕ) : CTransaction where
  vin := [⟨⟨0, 0⟩, [], nSequence, []⟩]
  vout := []
  nVersion := 2
  nLockTime := nLockTime
  hash := 0

open ThresholdConditionChecker in
theorem locktimes_passed_fiveBlocks : (2 : ℤ) < 6 ∧
    (2 : ℤ) % 2 ^ 16 ≤ fiveBlocks.height 4 - 1 := by
  obtain ⟨ha, hr⟩ := locktimes_passed fiveBlocks (lockedTx 5 3) 0 2
  have hh := ha 6 0 (fun _ => by decide) (by decide) (by decide)
  have hb := hr 4 3 [1] 1 (by decide) (by decide) (by decide) (by decide)
  rw [if_pos (by decide)] at hh hb
  exact ⟨hh, hb⟩

/-- At height 0 a lock time of 0 has not passed. -/
theorem locktime_zero_at_genesis : checkLockTime (lockedTx 0 0) 0 0 = some true ∧
    isFinalTx (lockedTx 0 0) 0 0 = true ∧ (0 : ℤ) < lockTimeThreshold ∧ ¬ (0 : ℤ) < 0 := by decide

end Palladium
