import Palladium.Pow.Range

/-! # Difficulty after the resilience fork

From the fork height on, the target of the main network changes every 60 blocks only,
by the clamped time the last 60 blocks took.
-/

namespace Palladium
open BitVec List Network
variable {a b p : CBlockIndex} {net : Network} {nBits : UInt32} {c old : ℕ}

theorem CBlockIndex.branch_trans (ha : a ∈ p.branch) (hp : p ∈ b.branch) : a ∈ b.branch := by
  induction b with
  | genesis => rw [mem_singleton.mp hp] at ha; exact ha
  | child q t n ih =>
    rcases mem_cons.mp hp with rfl | hp
    · exact ha
    · exact mem_cons_of_mem _ (ih hp)

theorem HeaderChain.of_mem_branch (h : HeaderChain net b) (ha : a ∈ b.branch) : HeaderChain net a := by
  induction h with
  | genesis =>
    have : net.genesis.branch = [net.genesis] := by cases net <;> rfl
    rw [this] at ha
    rw [mem_singleton.mp ha]
    exact .genesis
  | child hb hw ih =>
    rcases mem_cons.mp ha with rfl | ha
    · exact .child hb hw
    · exact ih ha

theorem HeaderChain.work {nTime : UInt32} (h : HeaderChain net (.child p nTime nBits)) :
    getNextWorkRequired p ⟨nTime⟩ net.consensus = .ok nBits := by
  generalize hb : CBlockIndex.child p nTime nBits = b at h
  cases h with
  | genesis => cases net <;> cases hb
  | child _ hw => cases hb; exact hw

theorem getNextWorkRequired_of_resilience (hp : 340000 ≤ p.nHeight + 1) (pblock : CBlockHeader) :
    getNextWorkRequired p pblock main.consensus =
      if (p.nHeight + 1) % 60 ≠ 0 then .ok p.nBits
      else retarget p 60 main.consensus := by
  have hc : compactBits (uintToArith256 main.consensus.powLimit) = .ok 0x1d00ffff := rfl
  have h₁ : ¬ (p.nHeight ≥ diffResetFirst ∧ p.nHeight ≤ diffResetLast) := by
    simp only [diffResetFirst, diffResetLast]; omega
  have h₂ : p.nHeight + 1 ≥ main.consensus.nResilienceForkHeight := hp
  simp only [getNextWorkRequired, hc, bind, Except.bind, pure, Except.pure, if_neg h₁, if_pos h₂]
  rfl

theorem clampTimespan_resilience (x : ℤ) : clampTimespan (7200 : ℕ) x = max 1800 (min 28800 x) := by
  unfold clampTimespan; dsimp only; split_ifs <;> omega

theorem toNat_cap (x l : ArithUint256) : (if x > l then l else x).toNat = min l.toNat x.toNat := by
  split_ifs with h
  · have := lt_def.mp h; omega
  · have := le_def.mp (BitVec.not_lt.mp h); omega

/-- The target after a retarget: the old one scaled by `c / 7200` and capped at the limit. -/
def resilienceTarget (old c : ℕ) : ℕ := min main.consensus.powLimit.toNat (old * c / 7200)

theorem resilienceTarget_le (hc : c ≤ 28800) : resilienceTarget old c ≤ 4 * old :=
  calc resilienceTarget old c ≤ old * c / 7200 := min_le_right _ _
    _ ≤ old * 28800 / 7200 := Nat.div_le_div_right (Nat.mul_le_mul_left _ hc)
    _ = 4 * old := by omega

theorem le_resilienceTarget (hc : 1800 ≤ c) (hold : old ≤ main.consensus.powLimit.toNat) :
    old / 4 ≤ resilienceTarget old c := by
  have : old / 4 ≤ old * c / 7200 :=
    calc old / 4 = old * 1800 / 7200 := by omega
      _ ≤ old * c / 7200 := Nat.div_le_div_right (Nat.mul_le_mul_left _ hc)
  unfold resilienceTarget
  omega

theorem retarget_resilience (hp : 340000 ≤ p.nHeight + 1)
    (hle : targetOf p.nBits ≤ uintToArith256 main.consensus.powLimit)
    (h : retarget p 60 main.consensus = .ok nBits) :
    ∃ (first : CBlockIndex) (c : ℕ), p.getAncestor ((p.nHeight + 1 - 60 : ℕ) : ℤ) = some first ∧
      (c : ℤ) = max 1800 (min 28800 (p.getBlockTime - first.getBlockTime)) ∧
      (targetOf p.nBits).toNat * c < 2 ^ 256 ∧
      getCompact (BitVec.ofNat 256 (resilienceTarget (targetOf p.nBits).toNat c)) = some nBits ∧
      (targetOf nBits).toNat = compactTrunc (resilienceTarget (targetOf p.nBits).toNat c) := by
  have hT : nTargetTimespan p main.consensus = 7200 := if_pos hp
  have hl : main.consensus.powLimit.toNat = 2 ^ 224 - 1 := rfl
  obtain ⟨first, -, ha, hr⟩ := retarget_eq main.consensus
    (show 60 ≤ p.nHeight + 1 by omega) (by norm_num)
  obtain ⟨x, c, hc, ho, hx, hca⟩ := calculateNextWorkRequired_eq main.consensus
    first.getBlockTime rfl (by omega) (by omega) (by omega) hle
  rw [hT, clampTimespan_resilience] at hc
  rw [hr, hca] at h
  set new := if x > uintToArith256 main.consensus.powLimit then
    uintToArith256 main.consensus.powLimit else x with hnw
  have hn : new.toNat = resilienceTarget (targetOf p.nBits).toNat c := by
    rw [hnw, toNat_cap, hx, hT]; rfl
  obtain ⟨bits, hb, hs⟩ := getCompact_setCompact new
  rw [compactBits, hb] at h
  obtain rfl : bits = nBits := Except.ok.inj h
  refine ⟨first, c, ha, hc, ho, ?_, ?_⟩
  · rw [← hn, ofNat_toNat, setWidth_eq]; exact hb
  · rw [← hn, targetOf, hs, toNat_ofNat, Nat.mod_eq_of_lt ((compactTrunc_le _).trans_lt new.isLt)]

/-- The law of the resilience fork: between two multiples of 60 a block repeats the work of its
parent; at a multiple of 60 the target is the compact truncation of the old target scaled by the
clamped time span and capped at the limit. -/
theorem HeaderChain.resilience_law {b p : CBlockIndex} {nTime nBits : UInt32}
    (h : HeaderChain .main b)
    (hle : ∀ a ∈ b.branch, targetOf a.nBits ≤ uintToArith256 main.consensus.powLimit)
    (hmem : .child p nTime nBits ∈ b.branch)
    (hh : 340000 ≤ (CBlockIndex.child p nTime nBits).nHeight) :
    ((CBlockIndex.child p nTime nBits).nHeight % 60 ≠ 0 → nBits = p.nBits) ∧
    ((CBlockIndex.child p nTime nBits).nHeight % 60 = 0 → ∃ (first : CBlockIndex) (c : ℕ),
      (CBlockIndex.child p nTime nBits).getAncestor
        ((CBlockIndex.child p nTime nBits).nHeight - 60) = some first ∧
      (c : ℤ) = max 1800 (min 28800 (p.getBlockTime - first.getBlockTime)) ∧
      (targetOf p.nBits).toNat * c < 2 ^ 256 ∧
      getCompact (BitVec.ofNat 256 (min main.consensus.powLimit.toNat
        ((targetOf p.nBits).toNat * c / 7200))) = some nBits ∧
      (targetOf nBits).toNat = compactTrunc (min main.consensus.powLimit.toNat
        ((targetOf p.nBits).toNat * c / 7200)) ∧
      (targetOf nBits).toNat ≤ 4 * (targetOf p.nBits).toNat ∧
      compactTrunc ((targetOf p.nBits).toNat / 4) ≤ (targetOf nBits).toNat) := by
  have hp : 340000 ≤ p.nHeight + 1 := hh
  have hpm : p ∈ b.branch := CBlockIndex.branch_trans (p := .child p nTime nBits)
    (mem_cons_of_mem _ (CBlockIndex.self_mem_branch p)) hmem
  have hw := (h.of_mem_branch hmem).work
  rw [getNextWorkRequired_of_resilience hp] at hw
  simp only [CBlockIndex.nHeight]
  refine ⟨fun hn => ?_, fun he => ?_⟩
  · rw [if_pos hn] at hw
    exact (Except.ok.inj hw).symm
  · rw [if_neg (not_not.mpr he)] at hw
    obtain ⟨first, c, ha, hc, ho, hb, hv⟩ := retarget_resilience hp (hle p hpm) hw
    have hold := le_def.mp (hle p hpm)
    refine ⟨first, c, ?_, hc, ho, hb, hv, ?_, ?_⟩
    · rw [CBlockIndex.getAncestor, if_neg (by omega), ← ha]
      congr 1
      omega
    · rw [hv]
      exact (compactTrunc_le _).trans (resilienceTarget_le (by omega))
    · rw [hv]
      exact compactTrunc_mono (le_resilienceTarget (by omega) hold)

/-! ## A chain that reaches the fork

With a block every 2000 seconds all three algorithms ask for more than the limit, so the
required work never changes.
-/

def steadyChain : ℕ → CBlockIndex
  | 0 => main.genesis
  | n + 1 => .child (steadyChain n) (UInt32.ofNat (1231006505 + 2000 * (n + 1))) 0x1d00ffff

namespace SteadyChain
variable {n : ℕ}

@[simp] theorem nHeight_eq (n : ℕ) : (steadyChain n).nHeight = n := by
  induction n with
  | zero => rfl
  | succ n ih => simp [steadyChain, CBlockIndex.nHeight, ih]

@[simp] theorem nBits_eq (n : ℕ) : (steadyChain n).nBits = 0x1d00ffff := by
  cases n <;> rfl

theorem getBlockTime_eq (h : n ≤ 1500000) : (steadyChain n).getBlockTime = 1231006505 + 2000 * n := by
  cases n with
  | zero => rfl
  | succ n =>
    simp only [steadyChain, CBlockIndex.getBlockTime, CBlockIndex.nTime, UInt32.toNat_ofNat']
    omega

theorem getAncestor_eq {i : ℕ} (h : i ≤ n) : (steadyChain n).getAncestor i = some (steadyChain i) := by
  induction n with
  | zero => obtain rfl : i = 0 := by omega
            rfl
  | succ n ih =>
    simp only [steadyChain, CBlockIndex.getAncestor, nHeight_eq]
    split_ifs with he
    · obtain rfl : i = n + 1 := by omega
      rfl
    · exact ih (by omega)

def round (s : ℤ × ℤ × ArithUint256) : ℤ × ℤ × ArithUint256 :=
  (s.1 + 720 * (s.2.1 + 1), s.2.1 + 1, s.2.2 + targetOf 0x1d00ffff / arithOfInt64 832896000)

theorem lwmaLoop_eq (hn : n ≤ 1500000) (m : ℕ) :
    ∀ {i : ℕ} (t j : ℤ) (sum : ArithUint256), i + m ≤ n →
    lwmaLoop (steadyChain n) 120 832896000 m (i + 1) ⟨(steadyChain i).getBlockTime, t, j, sum⟩ =
      .ok ⟨(steadyChain (i + m)).getBlockTime, (round^[m] (t, j, sum)).1,
        (round^[m] (t, j, sum)).2.1, (round^[m] (t, j, sum)).2.2⟩ := by
  induction m with
  | zero => intro i t j sum _; rfl
  | succ m ih =>
    intro i t j sum h
    have hi := getBlockTime_eq (n := i) (by omega)
    have hi' := getBlockTime_eq (n := i + 1) (by omega)
    have hs : lwmaStep 120 832896000 ⟨(steadyChain i).getBlockTime, t, j, sum⟩
        (steadyChain (i + 1)) =
        .ok ⟨(steadyChain (i + 1)).getBlockTime, (round (t, j, sum)).1, (round (t, j, sum)).2.1,
          (round (t, j, sum)).2.2⟩ := by
      have hm : min (6 * 120) ((steadyChain (i + 1)).getBlockTime - (steadyChain i).getBlockTime)
          = 720 := by omega
      simp only [lwmaStep, if_pos (show (steadyChain (i + 1)).getBlockTime >
        (steadyChain i).getBlockTime by omega), hm, nBits_eq]
      rfl
    have ha := getAncestor_eq (i := i + 1) (n := n) (by omega)
    push_cast at ha
    simp only [lwmaLoop, ha, deref, bind, Except.bind, hs]
    rw [Function.iterate_succ_apply, show i + (m + 1) = i + 1 + m by omega]
    exact_mod_cast ih (i := i + 1) _ _ _ (by omega)

theorem lwma_eq (h : 240 ≤ n) (hn : n ≤ 1500000) :
    lwmaCalculateNextWorkRequired (steadyChain n) main.consensus = .ok 0x1d00ffff := by
  have hl := lwmaLoop_eq hn 240 0 0 0 (show n - 240 + 240 ≤ n by omega)
  have ha := getAncestor_eq (i := n - 240) (n := n) (by omega)
  have hc : arithOfInt64 (round^[240] (0, 0, 0)).1 * (round^[240] (0, 0, 0)).2.2 >
      uintToArith256 main.consensus.powLimit := by decide +kernel
  rw [lwmaCalculateNextWorkRequired_eq rfl (by rwa [nHeight_eq]) (by rwa [nHeight_eq])
    (by rw [nHeight_eq]; exact hl), if_pos hc]
  rfl

theorem retarget_eq_limit {interval : ℕ} (h : interval ≤ n + 1) (hn : n ≤ 1500000)
    (hi : 0 < interval) (hT : 0 < nTargetTimespan (steadyChain n) main.consensus)
    (hT' : nTargetTimespan (steadyChain n) main.consensus ≤ 1209600)
    (hs : nTargetTimespan (steadyChain n) main.consensus ≤ 1000 * (interval - 1)) :
    retarget (steadyChain n) interval main.consensus = .ok 0x1d00ffff := by
  obtain ⟨a, -, ha, hr⟩ := retarget_eq main.consensus
    (show interval ≤ (steadyChain n).nHeight + 1 by simpa using h) hi
  rw [nHeight_eq, getAncestor_eq (by omega)] at ha
  obtain rfl := Option.some.inj ha
  have hl : main.consensus.powLimit.toNat = 2 ^ 224 - 1 := rfl
  obtain ⟨x, c, hc, -, hx, hca⟩ := calculateNextWorkRequired_eq main.consensus
    (steadyChain (n + 1 - interval)).getBlockTime rfl hT hT'
    (by omega) (by rw [nBits_eq]; decide)
  set T := nTargetTimespan (steadyChain n) main.consensus
  have hc2 : 2 * T ≤ c := by
    rw [getBlockTime_eq hn, getBlockTime_eq (by omega)] at hc
    have : (T : ℤ) ≤ 1000 * (interval - 1) := by omega
    unfold clampTimespan at hc
    dsimp only at hc
    split_ifs at hc <;> omega
  have hold : (targetOf (steadyChain n).nBits).toNat = 0xffff * 2 ^ 208 := by rw [nBits_eq]; rfl
  have hcp : x > uintToArith256 main.consensus.powLimit := by
    apply lt_def.mpr
    rw [hx, hold, uintToArith256, hl, Nat.lt_iff_add_one_le, Nat.le_div_iff_mul_le hT]
    calc (2 ^ 224 - 1 + 1) * T ≤ 0xffff * 2 ^ 208 * (2 * T) := by omega
      _ ≤ 0xffff * 2 ^ 208 * c := Nat.mul_le_mul_left _ hc2
  rw [hr, hca, if_pos hcp]
  rfl

theorem work_eq (hn : n ≤ 1500000) (pblock : CBlockHeader) :
    getNextWorkRequired (steadyChain n) pblock main.consensus = .ok 0x1d00ffff := by
  have hc : compactBits (uintToArith256 main.consensus.powLimit) = .ok 0x1d00ffff := rfl
  have hT : nTargetTimespan (steadyChain n) main.consensus =
      if n + 1 ≥ 340000 then 7200 else 1209600 := by
    unfold nTargetTimespan; rw [nHeight_eq]; rfl
  have hr : main.consensus.fPowNoRetargeting = false := rfl
  have hm : main.consensus.fPowAllowMinDifficultyBlocks = false := rfl
  have hf : main.consensus.nResilienceForkHeight = 340000 := rfl
  have hd : main.consensus.difficultyAdjustmentInterval = 2016 := rfl
  simp only [getNextWorkRequired, hc, hr, hm, hf, hd, bind, Except.bind, pure,
    Except.pure, Bool.false_eq_true, false_and, if_false, nHeight_eq, nBits_eq]
  split_ifs with h₁ h₂ h₃ h₄ h₅
  · rfl
  · rfl
  · rw [if_pos h₂] at hT
    exact retarget_eq_limit (by omega) hn (by norm_num) (by omega) (by omega) (by omega)
  · exact lwma_eq (by simp only [lwmaStartHeight] at h₄; omega) hn
  · rfl
  · rw [if_neg h₂] at hT
    exact retarget_eq_limit (by omega) hn (by norm_num) (by omega) (by omega) (by omega)

theorem headerChain (hn : n ≤ 1500000) : HeaderChain .main (steadyChain n) := by
  induction n with
  | zero => exact .genesis
  | succ n ih => exact .child (ih (by omega)) (work_eq (by omega) _)

theorem nBits_of_mem_branch (h : a ∈ (steadyChain n).branch) : a.nBits = 0x1d00ffff := by
  induction n with
  | zero => rw [mem_singleton.mp h]; rfl
  | succ n ih =>
    rcases mem_cons.mp h with rfl | h
    · rfl
    · exact ih h

end SteadyChain

/-- The law at the first retarget of the fork on the steady chain. -/
theorem HeaderChain.resilience_law_steadyChain :
    (340020 % 60 ≠ 0 → (0x1d00ffff : UInt32) = (steadyChain 340019).nBits) ∧
    (340020 % 60 = 0 → ∃ (first : CBlockIndex) (c : ℕ),
      (steadyChain 340020).getAncestor ((steadyChain 340020).nHeight - 60) = some first ∧
      (c : ℤ) = max 1800 (min 28800
        ((steadyChain 340019).getBlockTime - first.getBlockTime)) ∧
      (targetOf (steadyChain 340019).nBits).toNat * c < 2 ^ 256 ∧
      getCompact (BitVec.ofNat 256 (min main.consensus.powLimit.toNat
        ((targetOf (steadyChain 340019).nBits).toNat * c / 7200))) = some 0x1d00ffff ∧
      (targetOf 0x1d00ffff).toNat = compactTrunc (min main.consensus.powLimit.toNat
        ((targetOf (steadyChain 340019).nBits).toNat * c / 7200)) ∧
      (targetOf 0x1d00ffff).toNat ≤ 4 * (targetOf (steadyChain 340019).nBits).toNat ∧
      compactTrunc ((targetOf (steadyChain 340019).nBits).toNat / 4) ≤
        (targetOf 0x1d00ffff).toNat) := by
  have h := HeaderChain.resilience_law (SteadyChain.headerChain (n := 340020) (by norm_num))
    (fun a ha => by rw [SteadyChain.nBits_of_mem_branch ha]; decide)
    (CBlockIndex.self_mem_branch (steadyChain 340020))
    (le_of_le_of_eq (by norm_num) (SteadyChain.nHeight_eq 340020).symm)
  have hh := SteadyChain.nHeight_eq 340020
  unfold steadyChain at hh
  rw [hh] at h
  unfold steadyChain
  rw [hh]
  exact h

end Palladium
