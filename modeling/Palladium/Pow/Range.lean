import Palladium.Pow.Work

/-! # The required work is always in range

Along every header chain of the main and the test network the three algorithms run without an abort,
and the work they require passes the range check of `CheckProofOfWork` as long as targets stay far
enough from zero.
-/

namespace Palladium
open BitVec CBlockIndex List Nat

/-- The encoded target passes the range check. -/
structure InRange (params : Params) (nBits : UInt32) : Prop where
  notNegative : (setCompact nBits).fNegative = false
  notOverflow : (setCompact nBits).fOverflow = false
  pos : 0 < (targetOf nBits).toNat
  le : targetOf nBits ≤ uintToArith256 params.powLimit

variable {params : Params} {x : ArithUint256} {b : CBlockIndex}

theorem InRange.checkProofOfWork_iff {nBits : UInt32} (h : InRange params nBits) (hash : Uint256) :
    checkProofOfWork hash nBits params ↔ uintToArith256 hash ≤ targetOf nBits := by
  have h₀ : (setCompact nBits).value ≠ 0 := by
    intro h₀
    have := h.pos
    simp [targetOf, h₀] at this
  have h₁ : ¬ (setCompact nBits).value > uintToArith256 params.powLimit :=
    BitVec.not_lt.mpr h.le
  simp only [checkProofOfWork, h.notNegative, h.notOverflow, h₀, h₁, decide_false, Bool.false_or,
    Bool.false_eq_true, if_false, targetOf]
  split_ifs with hh
  · simpa using hh
  · simpa using hh

theorem compactBits_inRange (hx : 0 < x.toNat) (hl : x ≤ uintToArith256 params.powLimit) :
    ∃ c, compactBits x = .ok c ∧ InRange params c := by
  obtain ⟨c, hc, hs⟩ := getCompact_setCompact x
  have hle := compactTrunc_le x.toNat
  have hv : (targetOf c).toNat = compactTrunc x.toNat := by
    rw [targetOf, hs, toNat_ofNat, mod_eq_of_lt (hle.trans_lt x.isLt)]
  refine ⟨c, by rw [compactBits, hc], by rw [hs], by rw [hs], ?_, ?_⟩
  · rw [hv]; exact compactTrunc_pos hx
  · exact le_def.mpr (hv ▸ hle.trans (le_def.mp hl))

theorem compactBits_cap_inRange (hx : 0 < x.toNat) (hp : 0 < params.powLimit.toNat) :
    ∃ c, compactBits (if x > uintToArith256 params.powLimit then uintToArith256 params.powLimit
      else x) = .ok c ∧ InRange params c := by
  split_ifs with h
  · exact compactBits_inRange hp (BitVec.le_refl _)
  · exact compactBits_inRange hx (BitVec.not_lt.mp h)

theorem arithOfInt64_toNat {n : ℤ} (h₀ : 0 ≤ n) (h : n < 2 ^ 64) :
    (arithOfInt64 n).toNat = n.toNat := by
  rw [arithOfInt64, Int.emod_eq_of_lt h₀ h, toNat_ofNat, mod_eq_of_lt (by omega)]

theorem divArith_ok {a b : ArithUint256} (hb : 0 < b.toNat) : divArith a b = .ok (a / b) := by
  have : b ≠ 0 := by rintro rfl; simp at hb
  rw [divArith, if_neg this]

/-- What the loop knows after `n` blocks whose shares lie between `lo` and `hi`. -/
structure LwmaInv (T lo hi n : ℕ) (s : LwmaState) : Prop where
  j_eq : s.j = n
  t_ge : (n : ℤ) ≤ s.t
  t_le : s.t ≤ 6 * T * (n * n)
  sum_ge : n * lo ≤ s.sumTarget.toNat
  sum_le : s.sumTarget.toNat ≤ n * hi

section Lwma
variable {T kN lo hi n : ℕ} {s : LwmaState}

theorem lwmaStep_inv {block : CBlockIndex} (h : LwmaInv T lo hi n s) (hT : 0 < T) (hkN : 0 < kN)
    (hk : kN < 2 ^ 64) (hl : lo ≤ (targetOf block.nBits).toNat / kN)
    (hh : (targetOf block.nBits).toNat / kN ≤ hi) (hn : (n + 1) * hi < 2 ^ 256) :
    ∃ s', lwmaStep T kN s block = .ok s' ∧ LwmaInv T lo hi (n + 1) s' := by
  have hd : (arithOfInt64 kN).toNat = kN := by
    rw [arithOfInt64_toNat (by omega) (by exact_mod_cast hk), Int.toNat_natCast]
  have hs : (targetOf block.nBits / arithOfInt64 kN).toNat = (targetOf block.nBits).toNat / kN := by
    rw [toNat_udiv, hd]
  have hso : ∀ p : ℤ, 1 ≤ min (6 * (T : ℤ))
      ((if block.getBlockTime > p then block.getBlockTime else p + 1) - p) := by
    intro p; split_ifs <;> omega
  have hsu : (s.sumTarget + targetOf block.nBits / arithOfInt64 kN).toNat =
      s.sumTarget.toNat + (targetOf block.nBits).toNat / kN := by
    rw [toNat_add, hs, mod_eq_of_lt]
    have := h.sum_le
    rw [Nat.add_mul, Nat.one_mul] at hn
    omega
  rw [lwmaStep, divArith_ok (by rw [hd]; exact hkN)]
  refine ⟨_, rfl, ?_, ?_, ?_, ?_, ?_⟩
  · have := h.j_eq; push_cast; omega
  · have := h.t_ge
    have := h.j_eq
    have := hso s.previousTimestamp
    push_cast
    nlinarith
  · have := h.t_le
    have := h.j_eq
    have hle := min_le_left (6 * (T : ℤ))
      ((if block.getBlockTime > s.previousTimestamp then block.getBlockTime
        else s.previousTimestamp + 1) - s.previousTimestamp)
    push_cast
    have : min (6 * (T : ℤ)) ((if block.getBlockTime > s.previousTimestamp then block.getBlockTime
        else s.previousTimestamp + 1) - s.previousTimestamp) * (s.j + 1) ≤ 6 * T * (n + 1) := by
      rw [h.j_eq]; exact mul_le_mul_of_nonneg_right hle (by omega)
    nlinarith
  · have := h.sum_ge; rw [hsu, Nat.add_mul, Nat.one_mul]; omega
  · have := h.sum_le; rw [hsu, Nat.add_mul, Nat.one_mul]; omega

theorem lwmaLoop_inv {pindexLast : CBlockIndex} (hT : 0 < T) (hkN : 0 < kN) (hk : kN < 2 ^ 64)
    (hl : ∀ a ∈ pindexLast.branch, lo ≤ (targetOf a.nBits).toNat / kN)
    (hh : ∀ a ∈ pindexLast.branch, (targetOf a.nBits).toNat / kN ≤ hi) (m : ℕ) :
    ∀ {i : ℕ} {n : ℕ} {s : LwmaState}, LwmaInv T lo hi n s → i + m ≤ pindexLast.nHeight + 1 →
      (n + m) * hi < 2 ^ 256 →
      ∃ s', lwmaLoop pindexLast T kN m i s = .ok s' ∧ LwmaInv T lo hi (n + m) s' := by
  induction m with
  | zero => intro i n s h _ _; exact ⟨s, rfl, h⟩
  | succ m ih =>
    intro i n s h hi' hb
    obtain ⟨a, ha, han, -⟩ := getAncestor_some (b := pindexLast) (h := i) (by omega)
    have hn : (n + 1) * hi < 2 ^ 256 :=
      (Nat.mul_le_mul_right hi (by omega : n + 1 ≤ n + (m + 1))).trans_lt hb
    obtain ⟨s₁, h₁, hin⟩ := lwmaStep_inv h hT hkN hk (hl a ha) (hh a ha) hn
    obtain ⟨s₂, h₂, hin₂⟩ := ih (i := i + 1) hin (by omega) (by rwa [show n + 1 + m = n + (m + 1)
      by omega])
    refine ⟨s₂, ?_, by rwa [show n + (m + 1) = n + 1 + m by omega]⟩
    simp only [lwmaLoop, han, deref, h₁, bind, Except.bind]
    exact_mod_cast h₂

theorem lwmaCalculateNextWorkRequired_eq {params : Params} {b a : CBlockIndex}
    (hT : params.nPowTargetSpacingV2 = 120) (hh : 240 ≤ b.nHeight)
    (ha : b.getAncestor (b.nHeight - 240 : ℕ) = some a)
    (hs : lwmaLoop b 120 832896000 240 ((b.nHeight - 240 : ℕ) + 1) ⟨a.getBlockTime, 0, 0, 0⟩ =
      .ok s) :
    lwmaCalculateNextWorkRequired b params =
      compactBits (if arithOfInt64 s.t * s.sumTarget > uintToArith256 params.powLimit then
        uintToArith256 params.powLimit else arithOfInt64 s.t * s.sumTarget) := by
  have hi : (b.nHeight : ℤ) - ((240 : ℕ) : ℤ) = ((b.nHeight - 240 : ℕ) : ℤ) := by omega
  have hk : ((240 : ℕ) : ℤ) * (((240 : ℕ) : ℤ) + 1) * ((120 : ℕ) : ℤ) / 2 * ((240 : ℕ) : ℤ) =
      832896000 := by norm_num
  have hl : ¬ (b.nHeight : ℤ) < ((240 : ℕ) : ℤ) := by omega
  simp only [lwmaCalculateNextWorkRequired, lwmaWindow, hT, if_neg hl, hi, hk, ha, deref, bind,
    Except.bind]
  rw [show ((120 : ℕ) : ℤ) = 120 from rfl, hs]

end Lwma

theorem clampTimespan_ge (T x : ℤ) (hT : 0 ≤ T) : T / 4 ≤ clampTimespan T x := by
  unfold clampTimespan; dsimp only; split_ifs <;> omega

theorem clampTimespan_le (T x : ℤ) : clampTimespan T x ≤ T * 4 := by
  unfold clampTimespan; dsimp only; split_ifs <;> omega

theorem calculateNextWorkRequired_eq (params : Params) (nFirstBlockTime : ℤ)
    (hr : params.fPowNoRetargeting = false) (hT : 0 < nTargetTimespan b params)
    (hT' : nTargetTimespan b params ≤ 1209600) (hp : params.powLimit.toNat < 2 ^ 224)
    (hl : targetOf b.nBits ≤ uintToArith256 params.powLimit) :
    ∃ (x : ArithUint256) (c : ℕ),
      (c : ℤ) = clampTimespan (nTargetTimespan b params) (b.getBlockTime - nFirstBlockTime) ∧
      (targetOf b.nBits).toNat * c < 2 ^ 256 ∧
      x.toNat = (targetOf b.nBits).toNat * c / nTargetTimespan b params ∧
      calculateNextWorkRequired b nFirstBlockTime params =
        compactBits (if x > uintToArith256 params.powLimit then uintToArith256 params.powLimit
          else x) := by
  set T := nTargetTimespan b params with hTdef
  set z := clampTimespan T (b.getBlockTime - nFirstBlockTime) with hz
  have h₁ := clampTimespan_ge T (b.getBlockTime - nFirstBlockTime) (by omega)
  have h₂ := clampTimespan_le T (b.getBlockTime - nFirstBlockTime)
  rw [← hz] at h₁ h₂
  have hold : (targetOf b.nBits).toNat < 2 ^ 224 := (le_def.mp hl).trans_lt hp
  have hpr : (targetOf b.nBits).toNat * z.toNat < 2 ^ 256 :=
    calc (targetOf b.nBits).toNat * z.toNat ≤ 2 ^ 224 * 2 ^ 23 :=
          Nat.mul_le_mul hold.le (by omega)
      _ < 2 ^ 256 := by norm_num
  have hd : (arithOfInt64 T).toNat = T := by
    rw [arithOfInt64_toNat (by omega) (by omega), Int.toNat_natCast]
  have hf : (z % 2 ^ 32).toNat = z.toNat := by rw [Int.emod_eq_of_lt (by omega) (by omega)]
  refine ⟨targetOf b.nBits * BitVec.ofNat 256 (z % 2 ^ 32).toNat / arithOfInt64 T, z.toNat,
    by omega, hpr, ?_, ?_⟩
  · rw [toNat_udiv, hd, toNat_mul, toNat_ofNat, hf,
      mod_eq_of_lt (a := z.toNat) (by omega), mod_eq_of_lt hpr]
  · simp only [calculateNextWorkRequired, hr, ← hTdef, ← hz,
      divArith_ok (b := arithOfInt64 T) (by omega), bind, Except.bind]
    rfl

theorem retarget_eq (params : Params) {interval : ℕ} (h : interval ≤ b.nHeight + 1)
    (hi : 0 < interval) :
    ∃ a ∈ b.branch, b.getAncestor ((b.nHeight + 1 - interval : ℕ) : ℤ) = some a ∧
      retarget b interval params = calculateNextWorkRequired b a.getBlockTime params := by
  obtain ⟨a, ha, han, -⟩ :=
    getAncestor_some (b := b) (h := b.nHeight + 1 - interval) (by omega)
  refine ⟨a, ha, han, ?_⟩
  have hh : (b.nHeight : ℤ) - (interval - 1) = ((b.nHeight + 1 - interval : ℕ) : ℤ) := by omega
  have h0 : ¬ ((b.nHeight + 1 - interval : ℕ) : ℤ) < 0 := by omega
  simp only [retarget, hh, han, if_neg h0]

section Networks
variable {net : Network} {b : CBlockIndex}
section
variable (hnet : net ≠ .regtest)
include hnet

theorem lwma_inRange
    (hl : ∀ a ∈ b.branch, targetOf a.nBits ≤ uintToArith256 net.consensus.powLimit)
    (hg : ∀ a ∈ b.branch, uintToArith256 net.consensus.powLimit >>> 100 ≤ targetOf a.nBits) :
    ∃ c, lwmaCalculateNextWorkRequired b net.consensus = .ok c ∧ InRange net.consensus c := by
  have hT : net.consensus.nPowTargetSpacingV2 = 120 := by cases net <;> rfl
  have hp : net.consensus.powLimit.toNat = 2 ^ 224 - 1 := by
    cases net <;> first | rfl | contradiction
  have hg' : ∀ a ∈ b.branch, (2 ^ 224 - 1) / 2 ^ 100 / 832896000 ≤
      (targetOf a.nBits).toNat / 832896000 := by
    intro a ha
    have := le_def.mp (hg a ha)
    rw [uintToArith256, toNat_ushiftRight, hp, shiftRight_eq_div_pow] at this
    exact Nat.div_le_div_right this
  have hl' : ∀ a ∈ b.branch, (targetOf a.nBits).toNat / 832896000 ≤ (2 ^ 224 - 1) / 832896000 := by
    intro a ha
    have := le_def.mp (hl a ha)
    rw [uintToArith256, hp] at this
    exact Nat.div_le_div_right this
  rcases Nat.lt_or_ge b.nHeight 240 with hh | hh'
  · have hlt : (b.nHeight : ℤ) < ((lwmaWindow : ℕ) : ℤ) := by simp only [lwmaWindow]; omega
    simp only [lwmaCalculateNextWorkRequired, if_pos hlt]
    exact compactBits_inRange (by rw [uintToArith256, hp]; norm_num) (BitVec.le_refl _)
  · obtain ⟨a, ha, han, -⟩ :=
      getAncestor_some (b := b) (h := b.nHeight - 240) (by omega)
    obtain ⟨s, hs, hin⟩ := lwmaLoop_inv (T := 120) (by norm_num) (by norm_num)
      (by norm_num) hg' hl' 240 (i := b.nHeight - 240 + 1) (n := 0)
      (s := ⟨a.getBlockTime, 0, 0, 0⟩) ⟨rfl, le_rfl, by simp, by simp, by simp⟩ (by omega)
      (by norm_num)
    have hr : lwmaLoop b 120 832896000 240 ((b.nHeight - 240 : ℕ) + 1 : ℤ)
        ⟨a.getBlockTime, 0, 0, 0⟩ = .ok s := by exact_mod_cast hs
    have h₁ := hin.t_ge
    have h₂ := hin.t_le
    have h₃ := hin.sum_ge
    have h₄ := hin.sum_le
    have ht : (arithOfInt64 s.t).toNat = s.t.toNat := arithOfInt64_toNat (by omega) (by omega)
    have hm : (arithOfInt64 s.t * s.sumTarget).toNat = s.t.toNat * s.sumTarget.toNat := by
      rw [toNat_mul, ht, mod_eq_of_lt]
      calc s.t.toNat * s.sumTarget.toNat ≤ 2 ^ 26 * 2 ^ 203 :=
            Nat.mul_le_mul (by omega) (by omega)
        _ < 2 ^ 256 := by norm_num
    have hpo : 0 < (arithOfInt64 s.t * s.sumTarget).toNat := by
      rw [hm]; exact Nat.mul_pos (by omega) (by omega)
    rw [lwmaCalculateNextWorkRequired_eq hT hh' han hr]
    exact compactBits_cap_inRange hpo (by rw [hp]; norm_num)

theorem retarget_inRange {interval : ℕ} (hi : 0 < interval) (h : interval ≤ b.nHeight + 1)
    (hle : targetOf b.nBits ≤ uintToArith256 net.consensus.powLimit)
    (hg : uintToArith256 net.consensus.powLimit >>> 100 ≤ targetOf b.nBits) :
    ∃ c, retarget b interval net.consensus = .ok c ∧ InRange net.consensus c := by
  have hp : net.consensus.powLimit.toNat = 2 ^ 224 - 1 := by
    cases net <;> first | rfl | contradiction
  have hr : net.consensus.fPowNoRetargeting = false := by
    cases net <;> first | rfl | contradiction
  have hT : nTargetTimespan b net.consensus = 7200 ∨ nTargetTimespan b net.consensus = 1209600 := by
    unfold nTargetTimespan
    split_ifs
    · left; cases net <;> rfl
    · right; cases net <;> first | rfl | contradiction
  obtain ⟨a, -, -, hre⟩ := retarget_eq net.consensus h hi
  obtain ⟨x, c, hc, -, hx, he⟩ := calculateNextWorkRequired_eq _ a.getBlockTime hr (by omega)
    (by omega) (by omega) hle
  have hl : (2 ^ 224 - 1) / 2 ^ 100 ≤ (targetOf b.nBits).toNat := by
    have := le_def.mp hg
    rwa [uintToArith256, toNat_ushiftRight, hp, shiftRight_eq_div_pow] at this
  have hc1 : 1 ≤ c := by
    have := clampTimespan_ge (nTargetTimespan b net.consensus) (b.getBlockTime - a.getBlockTime)
      (by omega)
    omega
  have hxp : 0 < x.toNat := by
    rw [hx]
    apply Nat.div_pos _ (by omega)
    calc nTargetTimespan b net.consensus ≤ (targetOf b.nBits).toNat * 1 := by omega
      _ ≤ (targetOf b.nBits).toNat * c := Nat.mul_le_mul_left _ hc1
  rw [hre, he]
  exact compactBits_cap_inRange hxp (by omega)

theorem getNextWorkRequired_inRange (hr : ∀ a ∈ b.branch, InRange net.consensus a.nBits)
    (hg : ∀ a ∈ b.branch, uintToArith256 net.consensus.powLimit >>> 100 ≤ targetOf a.nBits)
    (pblock : CBlockHeader) :
    ∃ c, getNextWorkRequired b pblock net.consensus = .ok c ∧ InRange net.consensus c := by
  have hle := fun a ha => (hr a ha).le
  have hb := self_mem_branch b
  have hli : ∃ c, compactBits (uintToArith256 net.consensus.powLimit) = .ok c ∧
      InRange net.consensus c :=
    compactBits_inRange (by cases net <;> decide) (BitVec.le_refl _)
  have hlw := lwma_inRange hnet hle hg
  have hre : net.consensus.fPowNoRetargeting = false := by
    cases net <;> first | rfl | contradiction
  have hd : 0 < net.consensus.difficultyAdjustmentInterval := by cases net <;> decide
  obtain ⟨limit, hl, hlr⟩ := hli
  simp only [getNextWorkRequired, hl, hre, bind, Except.bind, pure, Except.pure,
    Bool.false_eq_true, if_false]
  split_ifs with h₁ h₂ h₃ h₄ h₅ h₆ h₇ h₈
  · exact ⟨_, rfl, hlr⟩
  · exact ⟨_, rfl, hlr⟩
  · exact hlw
  · exact ⟨_, rfl, hr b hb⟩
  · exact retarget_inRange hnet (by norm_num) (by omega) (hle b hb) (hg b hb)
  · exact hlw
  · exact ⟨_, rfl, hr _ (skipMinDifficulty_mem _ _ b)⟩
  · exact ⟨_, rfl, hr b hb⟩
  · exact retarget_inRange hnet hd
      (le_of_dvd (by omega) (dvd_of_mod_eq_zero (by omega))) (hle b hb) (hg b hb)

theorem HeaderChain.inRange (h : HeaderChain net b)
    (hg : ∀ a ∈ b.branch, uintToArith256 net.consensus.powLimit >>> 100 ≤ targetOf a.nBits) :
    ∀ a ∈ b.branch, InRange net.consensus a.nBits := by
  induction h with
  | genesis =>
    intro a ha
    cases net with
    | regtest => contradiction
    | main | test =>
      obtain rfl : a = _ := mem_singleton.mp ha
      exact ⟨rfl, rfl, by decide, by decide⟩
  | child hb hw ih =>
    have ih := ih fun a ha => hg a (mem_cons_of_mem _ ha)
    obtain ⟨c, hc, hr⟩ := getNextWorkRequired_inRange hnet ih
      (fun a ha => hg a (mem_cons_of_mem _ ha)) _
    rw [hw] at hc
    intro a ha
    rcases mem_cons.mp ha with rfl | ha
    · cases hc; exact hr
    · exact ih a ha

end

/-- Along a header chain of the main or the test network whose targets stay at or above
`powLimit >> 100`, `GetNextWorkRequired` returns, and what it returns decodes to a target that
is non-negative, does not overflow, is not zero and is at most `powLimit`. -/
theorem HeaderChain.getNextWorkRequired_wellFormed (hnet : net ≠ .regtest)
    (h : HeaderChain net b)
    (hge : ∀ a ∈ b.branch, uintToArith256 net.consensus.powLimit >>> 100 ≤ targetOf a.nBits)
    (pblock : CBlockHeader) :
    ∃ nBits, getNextWorkRequired b pblock net.consensus = .ok nBits ∧
      (setCompact nBits).fNegative = false ∧ (setCompact nBits).fOverflow = false ∧
      (setCompact nBits).value ≠ 0 ∧
      (setCompact nBits).value ≤ uintToArith256 net.consensus.powLimit ∧
      ∀ hash, checkProofOfWork hash nBits net.consensus = true ↔
        uintToArith256 hash ≤ (setCompact nBits).value := by
  obtain ⟨c, hc, hr⟩ := getNextWorkRequired_inRange hnet (h.inRange hnet hge) hge pblock
  refine ⟨c, hc, hr.notNegative, hr.notOverflow, ?_, hr.le, hr.checkProofOfWork_iff⟩
  intro h₀
  have := hr.pos
  simp [targetOf, h₀] at this

/-- The first block after genesis of the main network. -/
theorem HeaderChain.getNextWorkRequired_wellFormed_first :
    ∃ nBits, getNextWorkRequired (.child Network.main.genesis 1231469665 0x1d00ffff) ⟨1231469744⟩
        Network.main.consensus = .ok nBits ∧
      (setCompact nBits).fNegative = false ∧ (setCompact nBits).fOverflow = false ∧
      (setCompact nBits).value ≠ 0 ∧
      (setCompact nBits).value ≤ uintToArith256 Network.main.consensus.powLimit ∧
      ∀ hash, checkProofOfWork hash nBits Network.main.consensus = true ↔
        uintToArith256 hash ≤ (setCompact nBits).value :=
  HeaderChain.getNextWorkRequired_wellFormed (by decide) (.child .genesis rfl) (by decide) _

end Networks

end Palladium
