import Palladium.Arith.BaseUint
import Palladium.Lib.Increasing
import Palladium.Pow.Resilience

/-! # The moving average in closed form

The loop reads the times of the window only through their strictly increasing normalisation.
-/

namespace Palladium
open BitVec CBlockIndex Finset Increasing Nat Option
namespace CBlockIndex
variable (b : CBlockIndex) (i : ℕ)

def windowBlock : CBlockIndex :=
  (b.getAncestor (b.nHeight - lwmaWindow + i)).getD b

def windowTime : ℤ := (b.windowBlock i).getBlockTime

def windowTarget : ArithUint256 := targetOf (b.windowBlock i).nBits

def normalisedTime : ℕ → ℤ := normalise b.windowTime

def solvetime : ℤ := b.normalisedTime (i + 1) - b.normalisedTime i

theorem getAncestor_window {b : CBlockIndex} (hh : 240 ≤ b.nHeight) {i : ℕ} (hi : i ≤ 240) :
    b.getAncestor (b.nHeight - lwmaWindow + i) = some (b.windowBlock i) := by
  obtain ⟨a, -, ha, -⟩ := getAncestor_some (b := b) (h := b.nHeight - 240 + i) (by omega)
  have hz : (b.nHeight : ℤ) - lwmaWindow + i = (b.nHeight - 240 + i : ℕ) := by
    simp only [lwmaWindow]
    omega
  rw [windowBlock, hz, ha, getD_some]

theorem one_le_solvetime : 1 ≤ b.solvetime i := by
  have := normalise_lt_succ b.windowTime i
  simp only [solvetime, normalisedTime]
  omega

theorem windowTime_nonneg : 0 ≤ b.windowTime i :=
  Int.natCast_nonneg _

theorem windowTime_lt : b.windowTime i < 2 ^ 32 := by
  have := (b.windowBlock i).nTime.toNat_lt
  simp only [windowTime, getBlockTime]
  omega

theorem normalisedTime_nonneg : 0 ≤ b.normalisedTime i :=
  (b.windowTime_nonneg i).trans (le_normalise _ i)

theorem normalisedTime_lt : b.normalisedTime i < 2 ^ 32 + i := by
  have := normalise_le (f := b.windowTime) (n := i) (M := 2 ^ 32 - 1)
    fun j _ => by have := b.windowTime_lt j; omega
  simp only [normalisedTime]
  omega

end CBlockIndex

def shareSum (kN : ℤ) (target : ℕ → ArithUint256) : ℕ → ArithUint256
  | 0 => 0
  | n + 1 => shareSum kN target n + target (n + 1) / arithOfInt64 kN

/-- The variables of the loop after `n` blocks of the window. -/
def windowState (b : CBlockIndex) (T kN : ℤ) (n : ℕ) : LwmaState :=
  ⟨b.normalisedTime n, weightedGaps (6 * T) b.solvetime n, n, shareSum kN b.windowTarget n⟩

section Loop
variable {b : CBlockIndex} {T kN : ℤ}

theorem thisTimestamp_window (n : ℕ) :
    (if (b.windowBlock (n + 1)).getBlockTime > (windowState b T kN n).previousTimestamp
      then (b.windowBlock (n + 1)).getBlockTime
      else (windowState b T kN n).previousTimestamp + 1) = b.normalisedTime (n + 1) := by
  simp only [windowState, normalisedTime, normalise, windowTime]
  split_ifs <;> omega

theorem lwmaStep_window (hk : arithOfInt64 kN ≠ 0) (n : ℕ) :
    lwmaStep T kN (windowState b T kN n) (b.windowBlock (n + 1)) =
      .ok (windowState b T kN (n + 1)) := by
  simp only [lwmaStep, thisTimestamp_window, divArith, if_neg hk, bind, Except.bind, pure,
    Except.pure]
  simp only [windowState, weightedGaps_succ, shareSum, solvetime, windowTarget]
  push_cast
  rfl

theorem lwmaLoop_window (hh : 240 ≤ b.nHeight) (hk : arithOfInt64 kN ≠ 0) (m : ℕ) :
    ∀ n : ℕ, n + m ≤ 240 →
      lwmaLoop b T kN m (b.nHeight - lwmaWindow + 1 + n) (windowState b T kN n) =
        .ok (windowState b T kN (n + m)) := by
  induction m with
  | zero => intro n _; rfl
  | succ m ih =>
    intro n hn
    have ha := getAncestor_window hh (i := n + 1) (by omega)
    have hi : (b.nHeight : ℤ) - lwmaWindow + 1 + n = b.nHeight - lwmaWindow + (n + 1 : ℕ) := by
      push_cast; ring
    have hnt := ih (n + 1) (by omega)
    simp only [lwmaLoop, hi, ha, deref, bind, Except.bind, lwmaStep_window hk]
    rw [show n + (m + 1) = n + 1 + m by omega, ← hnt]
    congr 1
    push_cast; ring

theorem lwmaLoop_divisionByZero {a : CBlockIndex} {i : ℤ} (ha : b.getAncestor i = some a)
    (hk : arithOfInt64 kN = 0) (m : ℕ) (s : LwmaState) :
    lwmaLoop b T kN (m + 1) i s = .error .divisionByZero := by
  simp only [lwmaLoop, ha, deref, lwmaStep, divArith, if_pos hk, bind, Except.bind]

end Loop

variable (params : Params)

def lwmaTarget (t : ℤ) (sumTarget : ArithUint256) : Except Abort UInt32 :=
  compactBits (if arithOfInt64 t * sumTarget > uintToArith256 params.powLimit then
    uintToArith256 params.powLimit else arithOfInt64 t * sumTarget)

/-- The divisor `k * N` of the shares. -/
def lwmaDivisor : ℤ :=
  (lwmaWindow : ℤ) * (lwmaWindow + 1) * params.nPowTargetSpacingV2 / 2 * lwmaWindow

variable {b : CBlockIndex} {x y : ArithUint256}

theorem lwmaCalculateNextWorkRequired_window (hh : 240 ≤ b.nHeight) :
    lwmaCalculateNextWorkRequired b params =
      if arithOfInt64 (lwmaDivisor params) = 0 then .error .divisionByZero
      else lwmaTarget params (weightedGaps (6 * params.nPowTargetSpacingV2) b.solvetime lwmaWindow)
        (shareSum (lwmaDivisor params) b.windowTarget lwmaWindow) := by
  have hlt : ¬ (b.nHeight : ℤ) < (lwmaWindow : ℕ) := by simp only [lwmaWindow]; omega
  have ha := getAncestor_window hh (i := 0) (by omega)
  rw [Int.natCast_zero, add_zero] at ha
  simp only [lwmaCalculateNextWorkRequired, if_neg hlt, ha, deref, bind, Except.bind]
  rw [← lwmaDivisor]
  split_ifs with hk
  · have ha₁ := getAncestor_window hh (i := 1) (by omega)
    rw [cast_one] at ha₁
    rw [show lwmaWindow = 239 + 1 from rfl] at ha₁ ⊢
    rw [lwmaLoop_divisionByZero ha₁ hk]
  · have hr := lwmaLoop_window (T := params.nPowTargetSpacingV2) hh hk 240 0 (by omega)
    rw [Int.natCast_zero, add_zero, Nat.zero_add] at hr
    rw [show (⟨(b.windowBlock 0).getBlockTime, 0, 0, 0⟩ : LwmaState) =
      windowState b params.nPowTargetSpacingV2 (lwmaDivisor params) 0 from rfl]
    rw [show lwmaWindow = 240 from rfl] at hr ⊢
    rw [hr]
    rfl

theorem lwmaCalculateNextWorkRequired_congr {b' : CBlockIndex} (hh : 240 ≤ b.nHeight)
    (hh' : 240 ≤ b'.nHeight)
    (hg : ∀ i < 240, min (6 * (params.nPowTargetSpacingV2 : ℤ)) (b'.solvetime i) =
      min (6 * (params.nPowTargetSpacingV2 : ℤ)) (b.solvetime i))
    (hb : ∀ i < 240, (b'.windowBlock (i + 1)).nBits = (b.windowBlock (i + 1)).nBits) :
    lwmaCalculateNextWorkRequired b' params = lwmaCalculateNextWorkRequired b params := by
  have hs : ∀ n ≤ 240, shareSum (lwmaDivisor params) b'.windowTarget n =
      shareSum (lwmaDivisor params) b.windowTarget n := by
    intro n hn
    induction n with
    | zero => rfl
    | succ n ih =>
      rw [shareSum, shareSum, ih (by omega), windowTarget, windowTarget, hb n hn]
  rw [lwmaCalculateNextWorkRequired_window params hh,
    lwmaCalculateNextWorkRequired_window params hh', weightedGaps_congr (n := lwmaWindow) hg,
    hs lwmaWindow le_rfl]

/-- The times of the window matter only through their normalisation: they can be replaced by it or
all be shifted, and a gap that reaches the cap can grow. -/
theorem lwma_time_normalisation (params : Params) {b b' : CBlockIndex} (hh : 240 ≤ b.nHeight)
    (hh' : 240 ≤ b'.nHeight)
    (hbits : ∀ i < 240, (b'.windowBlock (i + 1)).nBits = (b.windowBlock (i + 1)).nBits) :
    ((∀ i ≤ 240, b'.normalisedTime i = b.normalisedTime i) →
      lwmaCalculateNextWorkRequired b' params = lwmaCalculateNextWorkRequired b params) ∧
    ((∀ i ≤ 240, b'.windowTime i = b.normalisedTime i) →
      lwmaCalculateNextWorkRequired b' params = lwmaCalculateNextWorkRequired b params) ∧
    (∀ c : ℤ, (∀ i ≤ 240, b'.windowTime i = b.windowTime i + c) →
      lwmaCalculateNextWorkRequired b' params = lwmaCalculateNextWorkRequired b params) ∧
    (∀ j < 240, 6 * (params.nPowTargetSpacingV2 : ℤ) ≤ b.solvetime j →
      b.solvetime j ≤ b'.solvetime j → (∀ i < 240, i ≠ j → b'.solvetime i = b.solvetime i) →
      lwmaCalculateNextWorkRequired b' params = lwmaCalculateNextWorkRequired b params) := by
  -- a shift of the normalised times leaves every gap as it is
  have hs : ∀ c : ℤ, (∀ i ≤ 240, b'.normalisedTime i = b.normalisedTime i + c) →
      lwmaCalculateNextWorkRequired b' params = lwmaCalculateNextWorkRequired b params := by
    intro c hc
    refine lwmaCalculateNextWorkRequired_congr params hh hh' (fun i hi => ?_) hbits
    rw [solvetime, solvetime, hc i (by omega), hc (i + 1) (by omega), add_sub_add_right_eq_sub]
  refine ⟨fun h => ?_, fun h => ?_, fun c h => ?_, fun j hj hca hle hk => ?_⟩
  · exact hs 0 fun i hi => by rw [h i hi, add_zero]
  · refine hs 0 fun i hi => ?_
    rw [normalisedTime, normalise_congr fun j hj => h j (hj.trans hi), add_zero]
    exact normalise_normalise _ _
  · refine hs c fun i hi => ?_
    rw [normalisedTime, normalise_congr fun j hj => h j (hj.trans hi)]
    exact normalise_add _ _ _
  · refine lwmaCalculateNextWorkRequired_congr params hh hh' (fun i hi => ?_) hbits
    rcases eq_or_ne i j with rfl | hn
    · rw [min_eq_left hca, min_eq_left (hca.trans hle)]
    · rw [hk i hi hn]

def timedChain (time : ℕ → UInt32) (nBits : UInt32) : ℕ → CBlockIndex
  | 0 => .genesis (time 0) nBits
  | n + 1 => .child (timedChain time nBits n) (time (n + 1)) nBits

namespace TimedChain
variable {time : ℕ → UInt32} {nBits : UInt32} {i : ℕ}

@[simp] theorem nHeight_eq (n : ℕ) : (timedChain time nBits n).nHeight = n := by
  induction n with
  | zero => rfl
  | succ n ih => simp [timedChain, nHeight, ih]

theorem getAncestor_eq {n : ℕ} (h : i ≤ n) :
    (timedChain time nBits n).getAncestor i = some (timedChain time nBits i) := by
  induction n with
  | zero => obtain rfl : i = 0 := by omega
            rfl
  | succ n ih =>
    simp only [timedChain, getAncestor, nHeight_eq]
    split_ifs with he
    · obtain rfl : i = n + 1 := by omega
      rfl
    · exact ih (by omega)

theorem windowBlock_eq (h : i ≤ 240) :
    (timedChain time nBits 240).windowBlock i = timedChain time nBits i := by
  have hz : ((timedChain time nBits 240).nHeight : ℤ) - lwmaWindow + i = i := by
    rw [nHeight_eq, lwmaWindow]
    omega
  rw [windowBlock, hz, getAncestor_eq h, getD_some]

theorem nBits_windowBlock (h : i ≤ 240) :
    ((timedChain time nBits 240).windowBlock i).nBits = nBits := by
  rw [windowBlock_eq h]
  cases i <;> rfl

theorem windowTime_eq (h : i ≤ 240) : (timedChain time nBits 240).windowTime i = (time i).toNat := by
  rw [windowTime, windowBlock_eq h]
  cases i <;> rfl

end TimedChain

open TimedChain

/-- Blocks that all carry the same time count as one second apart. -/
theorem lwma_time_normalisation_constant :
    lwmaCalculateNextWorkRequired (timedChain (fun i => UInt32.ofNat (7 + i)) 0x1d00ffff 240)
        Network.main.consensus =
      lwmaCalculateNextWorkRequired (timedChain (fun _ => 7) 0x1d00ffff 240)
        Network.main.consensus := by
  refine (lwma_time_normalisation Network.main.consensus (by simp) (by simp) fun i hi => ?_).2.1
    fun i hi => ?_
  · rw [nBits_windowBlock hi, nBits_windowBlock hi]
  · have hn : ∀ n ≤ 240, (timedChain (fun _ => 7) 0x1d00ffff 240).normalisedTime n = 7 + n := by
      intro n hn
      induction n with
      | zero => exact windowTime_eq (Nat.zero_le _)
      | succ n ih =>
        have ih := ih (by omega)
        have ht := @windowTime_eq (fun _ => 7) 0x1d00ffff _ hn
        simp only [normalisedTime] at ih ⊢
        rw [normalise, ih, ht, show (7 : UInt32).toNat = 7 from rfl]
        push_cast
        omega
    rw [windowTime_eq hi, hn i hi, UInt32.toNat_ofNat']
    omega

section Exact
variable {params : Params} {b : CBlockIndex}

theorem lwmaTarget_ok {t : ℤ} {sumTarget : ArithUint256} (h₀ : 0 ≤ t) (ht : t < 2 ^ 64)
    (hp : t.toNat * sumTarget.toNat < 2 ^ 256) :
    ∃ nBits, lwmaTarget params t sumTarget = .ok nBits ∧
      getCompact (BitVec.ofNat 256 (min params.powLimit.toNat (t.toNat * sumTarget.toNat))) =
        some nBits ∧
      (targetOf nBits).toNat =
        compactTrunc (min params.powLimit.toNat (t.toNat * sumTarget.toNat)) := by
  have hm : (arithOfInt64 t * sumTarget).toNat = t.toNat * sumTarget.toNat := by
    rw [toNat_mul, arithOfInt64_toNat h₀ ht, mod_eq_of_lt hp]
  have hca := toNat_cap (arithOfInt64 t * sumTarget) (uintToArith256 params.powLimit)
  rw [hm] at hca
  rw [lwmaTarget]
  generalize (if arithOfInt64 t * sumTarget > uintToArith256 params.powLimit then
    uintToArith256 params.powLimit else arithOfInt64 t * sumTarget) = x at hca
  obtain ⟨c, hc, hs⟩ := getCompact_setCompact x
  refine ⟨c, by rw [compactBits, hc], ?_, ?_⟩
  · rw [show min params.powLimit.toNat (t.toNat * sumTarget.toNat) = x.toNat from hca.symm,
      ofNat_toNat, setWidth_eq, hc]
  · rw [show min params.powLimit.toNat (t.toNat * sumTarget.toNat) = x.toNat from hca.symm,
      targetOf, hs, toNat_ofNat, mod_eq_of_lt ((compactTrunc_le _).trans_lt x.isLt)]

variable {n : ℕ}

theorem shareSum_toNat {target : ℕ → ArithUint256} {kN hi : ℕ} (hk : kN < 2 ^ 64)
    (hle : ∀ i < n, (target (i + 1)).toNat / kN ≤ hi) (hn : n * hi < 2 ^ 256) :
    (shareSum kN target n).toNat = ∑ i ∈ Finset.range n, (target (i + 1)).toNat / kN ∧
      (shareSum kN target n).toNat ≤ n * hi := by
  have hd : (arithOfInt64 kN).toNat = kN := by
    rw [arithOfInt64_toNat (by omega) (by exact_mod_cast hk), Int.toNat_natCast]
  induction n with
  | zero => simp [shareSum]
  | succ n ih =>
    have hst : (n + 1) * hi = n * hi + hi := succ_mul n hi
    obtain ⟨hs, hb⟩ := ih (fun i h => hle i (by omega)) (by omega)
    have hla := hle n (lt_succ_self n)
    have ha : (shareSum kN target (n + 1)).toNat =
        (shareSum kN target n).toNat + (target (n + 1)).toNat / kN := by
      rw [shareSum, toNat_add, toNat_udiv, hd, mod_eq_of_lt (by omega)]
    rw [ha]
    exact ⟨by rw [hs, sum_range_succ], by omega⟩

theorem lwma_sums (hl : params.powLimit.toNat < 2 ^ 224)
    (hle : ∀ i < 240, b.windowTarget (i + 1) ≤ uintToArith256 params.powLimit) (hn : n ≤ 240) :
    (shareSum 832896000 b.windowTarget n).toNat =
        ∑ i ∈ Finset.range n, (b.windowTarget (i + 1)).toNat / 832896000 ∧
      (shareSum 832896000 b.windowTarget n).toNat < 2 ^ 203 := by
  have hsh : ∀ i < n, (b.windowTarget (i + 1)).toNat / 832896000 ≤ 2 ^ 224 / 832896000 := by
    intro i hi
    have := le_def.mp (hle i (by omega))
    exact Nat.div_le_div_right (this.trans hl.le)
  have h240 : 240 * (2 ^ 224 / 832896000) < 2 ^ 203 := by norm_num
  generalize 2 ^ 224 / 832896000 = M at hsh h240
  have hb : n * M ≤ 240 * M := Nat.mul_le_mul_right M hn
  have hs := shareSum_toNat (by norm_num) hsh (by omega)
  rw [Nat.cast_ofNat] at hs
  exact ⟨hs.1, by have := hs.2; omega⟩

theorem weightedSolvetimes_bounds (b : CBlockIndex) :
    240 * (240 + 1) / 2 ≤ weightedGaps (6 * 120) b.solvetime 240 ∧
      weightedGaps (6 * 120) b.solvetime 240 ≤ 6 * (240 * (240 + 1) * 120 / 2) := by
  have hlo := le_two_mul_weightedGaps (n := 240) (by norm_num : (1 : ℤ) ≤ 6 * 120)
    fun i _ => b.one_le_solvetime i
  have hu := two_mul_weightedGaps_le (6 * 120) b.solvetime 240
  norm_num at hlo hu ⊢
  omega

end Exact

/-! ## Arithmetic with its overflows

The same algorithm once more, with the word-wise operators of `base_uint` and with every
signed 64-bit and every 256-bit operation checked.
-/

def int64 (x : ℤ) : Option ℤ := if -2 ^ 63 ≤ x ∧ x < 2 ^ 63 then some x else none

def arithOfInt64Checked (x : ℤ) : Option ArithUint256 :=
  if 0 ≤ x then some (arithOfInt64 x) else none

def addChecked (x y : ArithUint256) : Option ArithUint256 :=
  if x.toNat + y.toNat < 2 ^ 256 then some (x + y) else none

def mulChecked (x y : ArithUint256) : Option ArithUint256 :=
  if x.toNat * y.toNat < 2 ^ 256 then some (BaseUint.mul x y) else none

def lwmaStepChecked (T kN : ℤ) (s : LwmaState) (block : CBlockIndex) : Option LwmaState := do
  let thisTimestamp ← int64 (
    if block.getBlockTime > s.previousTimestamp then block.getBlockTime
    else s.previousTimestamp + 1)
  let solvetime := min (← int64 (6 * T)) (← int64 (thisTimestamp - s.previousTimestamp))
  let j ← int64 (s.j + 1)
  let t ← int64 (s.t + (← int64 (solvetime * j)))
  let share ← (BaseUint.div (targetOf block.nBits) (← arithOfInt64Checked kN)).toOption
  let sumTarget ← addChecked s.sumTarget share
  return { previousTimestamp := thisTimestamp, t, j, sumTarget }

def lwmaLoopChecked (pindexLast : CBlockIndex) (T kN : ℤ) :
    ℕ → ℤ → LwmaState → Option LwmaState
  | 0, _, s => some s
  | n + 1, i, s => do
    let block ← pindexLast.getAncestor i
    let s ← lwmaStepChecked T kN s block
    lwmaLoopChecked pindexLast T kN n (← int64 (i + 1)) s

def lwmaChecked (pindexLast : CBlockIndex) (params : Params) : Option UInt32 := do
  let T ← int64 params.nPowTargetSpacingV2
  let N : ℤ := lwmaWindow
  let k := (← int64 ((← int64 (N * (← int64 (N + 1)))) * T)) / 2
  let height ← int64 pindexLast.nHeight
  let powLimit := uintToArith256 params.powLimit
  if height < N then getCompact powLimit
  else
    let blockPreviousTimestamp ← pindexLast.getAncestor (← int64 (height - N))
    let s ← lwmaLoopChecked pindexLast T (← int64 (k * N)) lwmaWindow (← int64 (height - N + 1))
      ⟨blockPreviousTimestamp.getBlockTime, 0, 0, 0⟩
    let nextTarget ← mulChecked (← arithOfInt64Checked s.t) s.sumTarget
    getCompact (if nextTarget > powLimit then powLimit else nextTarget)

theorem int64_eq {x : ℤ} (h₀ : -2 ^ 63 ≤ x) (h : x < 2 ^ 63) : int64 x = some x :=
  if_pos ⟨h₀, h⟩

theorem addChecked_eq (h : x.toNat + y.toNat < 2 ^ 256) : addChecked x y = some (x + y) := if_pos h

theorem mulChecked_eq (h : x.toNat * y.toNat < 2 ^ 256) : mulChecked x y = some (x * y) := by
  rw [mulChecked, if_pos h, BaseUint.mul_eq]

section Checked
variable {params : Params} {b : CBlockIndex} {n : ℕ} {kN : ℤ}

theorem weightedSolvetimes_small (b : CBlockIndex) (hn : n ≤ 240) :
    0 ≤ weightedGaps (6 * 120) b.solvetime n ∧ weightedGaps (6 * 120) b.solvetime n < 2 ^ 26 := by
  have hlo := le_two_mul_weightedGaps (n := n) (by norm_num : (1 : ℤ) ≤ 6 * 120)
    fun i _ => b.one_le_solvetime i
  have hu := two_mul_weightedGaps_le (6 * 120) b.solvetime n
  have hs : (n : ℤ) * (n + 1) ≤ 240 * (240 + 1) := by
    exact_mod_cast Nat.mul_le_mul hn (succ_le_succ hn)
  have hp : (0 : ℤ) ≤ n * (n + 1) := by positivity
  omega

/-- One round of the checked loop: times and weights fit, and the sum of the shares if its next
value does. -/
theorem lwmaStepChecked_window (hk : 0 ≤ kN) (hkN : arithOfInt64 kN ≠ 0) (hn : n < 240)
    (hf : (shareSum kN b.windowTarget n).toNat +
      (b.windowTarget (n + 1) / arithOfInt64 kN).toNat < 2 ^ 256) :
    lwmaStepChecked 120 kN (windowState b 120 kN n) (b.windowBlock (n + 1)) =
      some (windowState b 120 kN (n + 1)) := by
  have hno := b.normalisedTime_lt (n + 1)
  have hno₀ := b.normalisedTime_nonneg (n + 1)
  have hla := b.normalisedTime_lt n
  have hla₀ := b.normalisedTime_nonneg n
  have hth : int64 (b.normalisedTime (n + 1)) = some (b.normalisedTime (n + 1)) :=
    int64_eq (by omega) (by push_cast at *; omega)
  have hs : int64 (6 * 120) = some (6 * 120) := int64_eq (by norm_num) (by norm_num)
  have hg : int64 (b.normalisedTime (n + 1) - b.normalisedTime n) = some (b.solvetime n) :=
    int64_eq (by omega) (by push_cast at *; omega)
  have hj : int64 ((n : ℤ) + 1) = some ((n : ℤ) + 1) := int64_eq (by omega) (by omega)
  obtain ⟨hW₀, hW⟩ := weightedSolvetimes_small b hn.le
  obtain ⟨hW₀', hW'⟩ := weightedSolvetimes_small b (n := n + 1) hn
  rw [weightedGaps_succ] at hW₀' hW'
  have hte : int64 (min (6 * 120) (b.solvetime n) * ((n : ℤ) + 1)) =
      some (min (6 * 120) (b.solvetime n) * ((n : ℤ) + 1)) := int64_eq (by omega) (by omega)
  have ht := int64_eq (x := weightedGaps (6 * 120) b.solvetime n +
    min (6 * 120) (b.solvetime n) * ((n : ℤ) + 1)) (by omega) (by omega)
  have hd : (BaseUint.div (targetOf (b.windowBlock (n + 1)).nBits) (arithOfInt64 kN)).toOption =
      some (b.windowTarget (n + 1) / arithOfInt64 kN) := by
    rw [BaseUint.div_eq, divArith, if_neg hkN]
    rfl
  have hc : arithOfInt64Checked kN = some (arithOfInt64 kN) := if_pos hk
  simp only [lwmaStepChecked, thisTimestamp_window]
  simp only [windowState, hth, hs, hg, hj, hte, ht, hc, hd, addChecked_eq hf,
    bind_eq_bind, bind_some, Option.pure_def, weightedGaps_succ, shareSum]
  push_cast
  rfl

theorem lwmaLoopChecked_window (hk : 0 ≤ kN) (hkN : arithOfInt64 kN ≠ 0)
    (hf : ∀ n < 240, (shareSum kN b.windowTarget n).toNat +
      (b.windowTarget (n + 1) / arithOfInt64 kN).toNat < 2 ^ 256) (hh : 240 ≤ b.nHeight)
    (hint : b.nHeight < 2 ^ 31) (m : ℕ) :
    ∀ n : ℕ, n + m ≤ 240 →
      lwmaLoopChecked b 120 kN m (b.nHeight - lwmaWindow + 1 + n) (windowState b 120 kN n) =
        some (windowState b 120 kN (n + m)) := by
  induction m with
  | zero => intro n _; rfl
  | succ m ih =>
    intro n hn
    have ha := getAncestor_window hh (i := n + 1) (by omega)
    have hi : (b.nHeight : ℤ) - lwmaWindow + 1 + n = b.nHeight - lwmaWindow + (n + 1 : ℕ) := by
      push_cast; ring
    have hnt := ih (n + 1) (by omega)
    have hnext64 : int64 ((b.nHeight : ℤ) - lwmaWindow + (n + 1 : ℕ) + 1) =
        some ((b.nHeight : ℤ) - lwmaWindow + (n + 1 : ℕ) + 1) :=
      int64_eq (by simp only [lwmaWindow]; omega) (by simp only [lwmaWindow]; omega)
    simp only [lwmaLoopChecked, hi, ha, bind, Option.bind,
      lwmaStepChecked_window hk hkN (show n < 240 by omega) (hf n (by omega)), hnext64]
    rw [show n + (m + 1) = n + 1 + m by omega, ← hnt]
    congr 1
    push_cast; ring

theorem lwmaDivisor_eq (hT : params.nPowTargetSpacingV2 = 120) : lwmaDivisor params = 832896000 := by
  rw [lwmaDivisor, hT]
  norm_num [lwmaWindow]

theorem arithOfInt64_divisor : (arithOfInt64 832896000).toNat = 832896000 := by
  rw [arithOfInt64_toNat (by norm_num) (by norm_num)]
  rfl

theorem arithOfInt64_divisor_ne_zero : arithOfInt64 832896000 ≠ 0 := by
  intro h
  have := arithOfInt64_divisor
  simp [h] at this

theorem lwma_product_lt (hl : params.powLimit.toNat < 2 ^ 224)
    (hle : ∀ i < 240, b.windowTarget (i + 1) ≤ uintToArith256 params.powLimit) :
    (weightedGaps (6 * 120) b.solvetime 240).toNat *
      (shareSum 832896000 b.windowTarget 240).toNat < 2 ^ 256 := by
  have ht := weightedSolvetimes_small b (le_refl 240)
  have hS := (lwma_sums hl hle (le_refl 240)).2
  calc (weightedGaps (6 * 120) b.solvetime 240).toNat *
        (shareSum 832896000 b.windowTarget 240).toNat ≤ 2 ^ 26 * 2 ^ 203 :=
          Nat.mul_le_mul (by omega) hS.le
    _ < 2 ^ 256 := by norm_num

section Exact
variable (hT : params.nPowTargetSpacingV2 = 120) (hl : params.powLimit.toNat < 2 ^ 224)
  (hh : 240 ≤ b.nHeight) (hint : b.nHeight < 2 ^ 31)
  (hle : ∀ i < 240, b.windowTarget (i + 1) ≤ uintToArith256 params.powLimit)
include hT hl hh hint hle

theorem lwmaChecked_eq :
    lwmaChecked b params = (lwmaTarget params (weightedGaps (6 * 120) b.solvetime 240)
      (shareSum 832896000 b.windowTarget 240)).toOption := by
  have hfi : ∀ n < 240, (shareSum 832896000 b.windowTarget n).toNat +
      (b.windowTarget (n + 1) / arithOfInt64 832896000).toNat < 2 ^ 256 := by
    intro n hn
    have hS := (lwma_sums hl hle hn.le).2
    have hsh := Nat.div_le_self (b.windowTarget (n + 1)).toNat (arithOfInt64 832896000).toNat
    have hta := (le_def.mp (hle n hn)).trans_lt hl
    rw [toNat_udiv]
    omega
  have hr := lwmaLoopChecked_window (by norm_num) arithOfInt64_divisor_ne_zero hfi hh hint 240 0
    (by omega)
  have hN : (lwmaWindow : ℤ) = 240 := rfl
  have hlt : ¬ (b.nHeight : ℤ) < 240 := by omega
  have ha := getAncestor_window hh (i := 0) (by omega)
  obtain ⟨ht₀, ht⟩ := weightedSolvetimes_small b (le_refl 240)
  have hm : mulChecked (arithOfInt64 (weightedGaps (6 * 120) b.solvetime 240))
      (shareSum 832896000 b.windowTarget 240) =
      some (arithOfInt64 (weightedGaps (6 * 120) b.solvetime 240) *
        shareSum 832896000 b.windowTarget 240) := by
    apply mulChecked_eq
    rw [arithOfInt64_toNat ht₀ (by omega)]
    exact lwma_product_lt hl hle
  have hc : arithOfInt64Checked (weightedGaps (6 * 120) b.solvetime 240) =
      some (arithOfInt64 (weightedGaps (6 * 120) b.solvetime 240)) := if_pos ht₀
  have h₁ : int64 (240 + 1) = some 241 := int64_eq (by norm_num) (by norm_num)
  have h₂ : int64 (240 * 241) = some 57840 := int64_eq (by norm_num) (by norm_num)
  have h₃ : int64 (57840 * 120) = some 6940800 := int64_eq (by norm_num) (by norm_num)
  have h₄ : int64 (6940800 / 2 * 240) = some 832896000 := int64_eq (by norm_num) (by norm_num)
  have hT64 : int64 ((120 : ℕ) : ℤ) = some 120 := int64_eq (by norm_num) (by norm_num)
  have hhe : int64 (b.nHeight : ℤ) = some (b.nHeight : ℤ) := int64_eq (by omega) (by omega)
  have hf := int64_eq (x := (b.nHeight : ℤ) - 240) (by omega) (by omega)
  have hs := int64_eq (x := (b.nHeight : ℤ) - 240 + 1) (by omega) (by omega)
  simp only [Int.natCast_zero, add_zero, Nat.zero_add, hN] at hr ha
  simp only [lwmaChecked, hN, hT, hT64, h₁, h₂, h₃, h₄, hhe, bind_eq_bind,
    bind_some, if_neg hlt, hf, ha, hs]
  rw [show (⟨(b.windowBlock 0).getBlockTime, 0, 0, 0⟩ : LwmaState) =
    windowState b 120 832896000 0 from rfl, show lwmaWindow = 240 from rfl, hr]
  simp only [bind_some, windowState, hc, hm, lwmaTarget, compactBits]
  generalize getCompact _ = c
  cases c <;> rfl

omit hint in
theorem lwma_ok : ∃ nBits, lwmaCalculateNextWorkRequired b params = .ok nBits ∧
      lwmaCalculateNextWorkRequired b params =
        lwmaTarget params (weightedGaps (6 * 120) b.solvetime 240)
          (shareSum 832896000 b.windowTarget 240) ∧
      getCompact (BitVec.ofNat 256 (min params.powLimit.toNat
        ((weightedGaps (6 * 120) b.solvetime 240).toNat *
          ∑ i ∈ Finset.range 240, (b.windowTarget (i + 1)).toNat / 832896000))) = some nBits ∧
      (targetOf nBits).toNat = compactTrunc (min params.powLimit.toNat
        ((weightedGaps (6 * 120) b.solvetime 240).toNat *
          ∑ i ∈ Finset.range 240, (b.windowTarget (i + 1)).toNat / 832896000)) := by
  obtain ⟨ht₀, ht⟩ := weightedSolvetimes_small b (le_refl 240)
  obtain ⟨hs, -⟩ := lwma_sums hl hle (le_refl 240)
  obtain ⟨nBits, hr, hc, hv⟩ := @lwmaTarget_ok params _ _ ht₀ (by omega)
    (lwma_product_lt hl hle)
  have hca : lwmaCalculateNextWorkRequired b params =
      lwmaTarget params (weightedGaps (6 * 120) b.solvetime 240)
        (shareSum 832896000 b.windowTarget 240) := by
    rw [lwmaCalculateNextWorkRequired_window params hh, lwmaDivisor_eq hT,
      if_neg arithOfInt64_divisor_ne_zero, hT]
    rfl
  rw [hs] at hc hv
  exact ⟨nBits, hca.trans hr, hca, hc, hv⟩

/-- The moving average is exact. For targets up to a limit below `2 ^ 224` no operation overflows,
and the result encodes the product of the two sums, capped at the limit. -/
theorem lwma_exact : (240 * (240 + 1) / 2 ≤ weightedGaps (6 * 120) b.solvetime 240 ∧
      weightedGaps (6 * 120) b.solvetime 240 ≤ 6 * (240 * (240 + 1) * 120 / 2)) ∧
    ∃ nBits, lwmaChecked b params = some nBits ∧
      lwmaCalculateNextWorkRequired b params = .ok nBits ∧
      getCompact (BitVec.ofNat 256 (min params.powLimit.toNat
        ((weightedGaps (6 * 120) b.solvetime 240).toNat *
          ∑ i ∈ Finset.range 240,
            (b.windowTarget (i + 1)).toNat / (240 * (240 + 1) * 120 / 2 * 240)))) = some nBits := by
  obtain ⟨nBits, hr, hca, hc, -⟩ := lwma_ok hT hl hh hle
  refine ⟨weightedSolvetimes_bounds b, nBits, ?_, hr, hc⟩
  rw [lwmaChecked_eq hT hl hh hint hle, ← hca, hr]
  rfl

end Exact

theorem lwma_exact_constant :
    ∃ nBits, lwmaChecked (timedChain (fun _ => 7) 0x1d00ffff 240) Network.main.consensus =
        some nBits ∧
      lwmaCalculateNextWorkRequired (timedChain (fun _ => 7) 0x1d00ffff 240)
        Network.main.consensus = .ok nBits := by
  obtain ⟨-, nBits, hc, hr, -⟩ := @lwma_exact Network.main.consensus
    (timedChain (fun _ => 7) 0x1d00ffff 240) rfl (by decide) (by simp) (by simp) fun i hi => by
      rw [windowTarget, nBits_windowBlock hi]
      decide
  exact ⟨nBits, hc, hr⟩

end Checked

section Monotone
variable {b b' : CBlockIndex}

theorem CBlockIndex.solvetime_le (ht : ∀ i < 240, b'.windowTime i = b.windowTime i)
    (hla : b.windowTime 240 ≤ b'.windowTime 240) : ∀ i < 240, b.solvetime i ≤ b'.solvetime i := by
  have hs : ∀ i < 240, b'.normalisedTime i = b.normalisedTime i :=
    fun i hi => normalise_congr fun j hj => ht j (by omega)
  have he : b.normalisedTime 240 ≤ b'.normalisedTime 240 := normalise_mono fun i hi => by
    rcases Nat.lt_or_ge i 240 with h | h
    · exact (ht i h).ge
    · rwa [show i = 240 by omega]
  intro i hi
  rw [solvetime, solvetime, hs i hi]
  rcases Nat.lt_or_ge (i + 1) 240 with h | h
  · rw [hs (i + 1) h]
  · rw [show i + 1 = 240 by omega]
    omega

/-- On a network that retargets, easier blocks in the window or a later last block never make
the next block harder. -/
theorem lwma_monotone {net : Network} (hret : net.consensus.fPowNoRetargeting = false)
    (hh : 240 ≤ b.nHeight) (hh' : 240 ≤ b'.nHeight)
    (htime : ∀ i < 240, b'.windowTime i = b.windowTime i)
    (hlast : b.windowTime 240 ≤ b'.windowTime 240)
    (htarget : ∀ i < 240, b.windowTarget (i + 1) ≤ b'.windowTarget (i + 1))
    (hle : ∀ i < 240, b'.windowTarget (i + 1) ≤ uintToArith256 net.consensus.powLimit) :
    ∃ nBits nBits', lwmaCalculateNextWorkRequired b net.consensus = .ok nBits ∧
      lwmaCalculateNextWorkRequired b' net.consensus = .ok nBits' ∧
      targetOf nBits ≤ targetOf nBits' := by
  have hT : net.consensus.nPowTargetSpacingV2 = 120 := by cases net <;> rfl
  have hl : net.consensus.powLimit.toNat < 2 ^ 224 := by
    cases net <;> first | decide | contradiction
  have hle₀ : ∀ i < 240, b.windowTarget (i + 1) ≤ uintToArith256 net.consensus.powLimit :=
    fun i hi => BitVec.le_trans (htarget i hi) (hle i hi)
  obtain ⟨nBits, hr, -, -, hv⟩ := lwma_ok hT hl hh hle₀
  obtain ⟨nBits', hr', -, -, hv'⟩ := lwma_ok hT hl hh' hle
  refine ⟨nBits, nBits', hr, hr', ?_⟩
  have hg := weightedGaps_mono (6 * 120) (solvetime_le htime hlast)
  have hs := sum_le_sum fun i hi =>
    Nat.div_le_div_right (c := 832896000)
      (le_def.mp (htarget i (mem_range.mp hi)))
  rw [le_def, hv, hv']
  exact compactTrunc_mono (min_le_min_left _
    (Nat.mul_le_mul (Int.toNat_le_toNat hg) hs))

/-- A last block that comes later, on a chain with easier blocks. -/
theorem lwma_monotone_late : ∃ nBits nBits',
      lwmaCalculateNextWorkRequired (timedChain (fun _ => 7) 0x1c00ffff 240)
        Network.main.consensus = .ok nBits ∧
      lwmaCalculateNextWorkRequired
        (timedChain (fun i => if i = 240 then 1000 else 7) 0x1d00ffff 240)
        Network.main.consensus = .ok nBits' ∧
      targetOf nBits ≤ targetOf nBits' := by
  apply @lwma_monotone _ _ .main rfl (by simp) (by simp)
  · intro i hi
    rw [windowTime_eq hi.le, windowTime_eq hi.le, if_neg hi.ne]
  · rw [windowTime_eq le_rfl, windowTime_eq le_rfl]
    decide
  · intro i hi
    rw [windowTarget, windowTarget, nBits_windowBlock hi, nBits_windowBlock hi]
    decide
  · intro i hi
    rw [windowTarget, nBits_windowBlock hi]
    decide

end Monotone

end Palladium
