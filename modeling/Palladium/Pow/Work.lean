import Palladium.Consensus.Params

/-! # The difficulty rules

Three algorithms decide the next target: the retarget every 2016 blocks, the linearly weighted
moving average and the retarget every 60 blocks.
-/

namespace Palladium

inductive Abort | assertion | nullDereference | divisionByZero
  deriving DecidableEq, Repr

/-- The fields of a block header the difficulty rules read. -/
structure CBlockHeader where
  nTime : UInt32
  deriving DecidableEq, Repr

def CBlockHeader.getBlockTime (b : CBlockHeader) : ℤ := b.nTime.toNat

/-- A block index entry, linked to its predecessor. Its height is the number of its
predecessors. -/
inductive CBlockIndex
  | genesis (nTime nBits : UInt32)
  | child (pprev : CBlockIndex) (nTime nBits : UInt32)
  deriving DecidableEq, Repr

namespace CBlockIndex

def nHeight : CBlockIndex → ℕ
  | genesis _ _ => 0
  | child pprev _ _ => pprev.nHeight + 1

def nTime : CBlockIndex → UInt32
  | genesis nTime _ => nTime
  | child _ nTime _ => nTime

def nBits : CBlockIndex → UInt32
  | genesis _ nBits => nBits
  | child _ _ nBits => nBits

def getBlockTime (b : CBlockIndex) : ℤ := b.nTime.toNat

def branch : CBlockIndex → List CBlockIndex
  | genesis nTime nBits => [genesis nTime nBits]
  | child pprev nTime nBits => child pprev nTime nBits :: pprev.branch

def getAncestor : CBlockIndex → ℤ → Option CBlockIndex
  | genesis nTime nBits, height => if height = 0 then some (genesis nTime nBits) else none
  | child pprev nTime nBits, height =>
      if height = pprev.nHeight + 1 then some (child pprev nTime nBits)
      else pprev.getAncestor height

theorem getAncestor_some {b : CBlockIndex} {h : ℕ} (hh : h ≤ b.nHeight) :
    ∃ a ∈ b.branch, b.getAncestor h = some a ∧ a.nHeight = h := by
  induction b with
  | genesis t n =>
    obtain rfl : h = 0 := by simpa [nHeight] using hh
    exact ⟨_, List.mem_singleton_self _, rfl, rfl⟩
  | child p t n ih =>
    simp only [getAncestor]
    split_ifs with he
    · exact ⟨_, List.mem_cons_self, rfl, by simp only [nHeight]; omega⟩
    · obtain ⟨a, ha, h'⟩ := ih (by simp only [nHeight] at hh; omega)
      exact ⟨a, List.mem_cons_of_mem _ ha, h'⟩

theorem self_mem_branch (b : CBlockIndex) : b ∈ b.branch := by
  cases b <;> simp [branch]

/-- The walk back over blocks mined under the special rule for minimum difficulty. -/
def skipMinDifficulty (interval : ℕ) (nProofOfWorkLimit : UInt32) : CBlockIndex → CBlockIndex
  | genesis nTime nBits => genesis nTime nBits
  | child pprev nTime nBits =>
      if (pprev.nHeight + 1) % interval ≠ 0 ∧ nBits = nProofOfWorkLimit then
        pprev.skipMinDifficulty interval nProofOfWorkLimit
      else child pprev nTime nBits

theorem skipMinDifficulty_mem (interval : ℕ) (limit : UInt32) (b : CBlockIndex) :
    b.skipMinDifficulty interval limit ∈ b.branch := by
  induction b with
  | genesis => exact self_mem_branch _
  | child p t n ih =>
    simp only [skipMinDifficulty]
    split_ifs
    · exact List.mem_cons_of_mem _ ih
    · exact self_mem_branch _

end CBlockIndex

def deref {α : Type*} : Option α → Except Abort α
  | some a => .ok a
  | none => .error .nullDereference

def compactBits (x : ArithUint256) : Except Abort UInt32 :=
  match getCompact x with
  | some c => .ok c
  | none => .error .assertion

def arithOfInt64 (n : ℤ) : ArithUint256 := BitVec.ofNat 256 (n % 2 ^ 64).toNat

def divArith (a b : ArithUint256) : Except Abort ArithUint256 :=
  if b = 0 then .error .divisionByZero else .ok (a / b)

def targetOf (nBits : UInt32) : ArithUint256 := (setCompact nBits).value

/-- Variables of the loop of the moving average. -/
structure LwmaState where
  previousTimestamp : ℤ
  t : ℤ
  j : ℤ
  sumTarget : ArithUint256
  deriving DecidableEq, Repr

def lwmaWindow : ℕ := 240

/-- The body of the loop, for the block at one height. -/
def lwmaStep (T kN : ℤ) (s : LwmaState) (block : CBlockIndex) : Except Abort LwmaState := do
  let thisTimestamp :=
    if block.getBlockTime > s.previousTimestamp then block.getBlockTime
    else s.previousTimestamp + 1
  let solvetime := min (6 * T) (thisTimestamp - s.previousTimestamp)
  let share ← divArith (targetOf block.nBits) (arithOfInt64 kN)
  return { previousTimestamp := thisTimestamp
           t := s.t + solvetime * (s.j + 1)
           j := s.j + 1
           sumTarget := s.sumTarget + share }

/-- The loop over `n` blocks upwards from a height. -/
def lwmaLoop (pindexLast : CBlockIndex) (T kN : ℤ) :
    ℕ → ℤ → LwmaState → Except Abort LwmaState
  | 0, _, s => .ok s
  | n + 1, i, s => do
    let block ← deref (pindexLast.getAncestor i)
    let s ← lwmaStep T kN s block
    lwmaLoop pindexLast T kN n (i + 1) s

variable (pindexLast : CBlockIndex)

def lwmaCalculateNextWorkRequired (params : Params) : Except Abort UInt32 := do
  let T : ℤ := params.nPowTargetSpacingV2
  let N : ℤ := lwmaWindow
  let k : ℤ := N * (N + 1) * T / 2
  let height : ℤ := pindexLast.nHeight
  let powLimit := uintToArith256 params.powLimit
  if height < N then compactBits powLimit
  else
    let blockPreviousTimestamp ← deref (pindexLast.getAncestor (height - N))
    let s ← lwmaLoop pindexLast T (k * N) lwmaWindow (height - N + 1)
      ⟨blockPreviousTimestamp.getBlockTime, 0, 0, 0⟩
    let nextTarget := arithOfInt64 s.t * s.sumTarget
    compactBits (if nextTarget > powLimit then powLimit else nextTarget)

/-- The time span a retarget aims at: 14 days, and 60 blocks from the resilience fork on. -/
def nTargetTimespan (params : Params) : ℕ :=
  if pindexLast.nHeight + 1 ≥ params.nResilienceForkHeight then 60 * params.nPowTargetSpacingV2
  else params.nPowTargetTimespan

/-- The limits on the adjustment step. -/
def clampTimespan (nTargetTimespan nActualTimespan : ℤ) : ℤ :=
  let nActualTimespan :=
    if nActualTimespan < nTargetTimespan / 4 then nTargetTimespan / 4 else nActualTimespan
  if nActualTimespan > nTargetTimespan * 4 then nTargetTimespan * 4 else nActualTimespan

def calculateNextWorkRequired (nFirstBlockTime : ℤ) (params : Params) : Except Abort UInt32 := do
  if params.fPowNoRetargeting then return pindexLast.nBits
  let nActualTimespan := clampTimespan (nTargetTimespan pindexLast params)
    (pindexLast.getBlockTime - nFirstBlockTime)
  let bnPowLimit := uintToArith256 params.powLimit
  -- the factor of the multiplication is a 32-bit number
  let bnNew := targetOf pindexLast.nBits * BitVec.ofNat 256 (nActualTimespan % 2 ^ 32).toNat
  let bnNew ← divArith bnNew (arithOfInt64 (nTargetTimespan pindexLast params))
  compactBits (if bnNew > bnPowLimit then bnPowLimit else bnNew)

def retarget (interval : ℕ) (params : Params) : Except Abort UInt32 := do
  let nHeightFirst : ℤ := pindexLast.nHeight - (interval - 1)
  if nHeightFirst < 0 then .error .assertion
  else match pindexLast.getAncestor nHeightFirst with
    | none => .error .assertion
    | some pindexFirst => calculateNextWorkRequired pindexLast pindexFirst.getBlockTime params

def diffResetFirst : ℕ := 28930
def diffResetLast : ℕ := 28999
def lwmaStartHeight : ℕ := 29000

def getNextWorkRequired (pblock : CBlockHeader) (params : Params) : Except Abort UInt32 := do
  let nProofOfWorkLimit ← compactBits (uintToArith256 params.powLimit)
  if pindexLast.nHeight ≥ diffResetFirst ∧ pindexLast.nHeight ≤ diffResetLast then
    return nProofOfWorkLimit
  if params.fPowNoRetargeting then return pindexLast.nBits
  if params.fPowAllowMinDifficultyBlocks ∧
      pblock.getBlockTime > pindexLast.getBlockTime + 20 * 60 then
    return nProofOfWorkLimit
  if params.fPowAllowMinDifficultyBlocks ∧ pindexLast.nHeight ≥ 0 then
    lwmaCalculateNextWorkRequired pindexLast params
  else if pindexLast.nHeight + 1 ≥ params.nResilienceForkHeight then
    if (pindexLast.nHeight + 1) % 60 ≠ 0 then return pindexLast.nBits
    else retarget pindexLast 60 params
  else if pindexLast.nHeight ≥ lwmaStartHeight then
    lwmaCalculateNextWorkRequired pindexLast params
  else if (pindexLast.nHeight + 1) % params.difficultyAdjustmentInterval ≠ 0 then
    if params.fPowAllowMinDifficultyBlocks then
      return (pindexLast.skipMinDifficulty params.difficultyAdjustmentInterval
        nProofOfWorkLimit).nBits
    else return pindexLast.nBits
  else retarget pindexLast params.difficultyAdjustmentInterval params

def checkProofOfWork (hash : Uint256) (nBits : UInt32) (params : Params) : Bool :=
  let bnTarget := setCompact nBits
  if bnTarget.fNegative || bnTarget.value = 0 || bnTarget.fOverflow ||
      bnTarget.value > uintToArith256 params.powLimit then false
  else if uintToArith256 hash > bnTarget.value then false
  else true

def Network.genesis : Network → CBlockIndex
  | main => .genesis 1231006505 0x1d00ffff
  | test => .genesis 1296688602 0x1d00ffff
  | regtest => .genesis 1296688602 0x207fffff

/-- A header chain from genesis in which every header has the work its parent requires, at any
times. -/
inductive HeaderChain (net : Network) : CBlockIndex → Prop
  | genesis : HeaderChain net net.genesis
  | child {b : CBlockIndex} {nTime nBits : UInt32} : HeaderChain net b →
      getNextWorkRequired b ⟨nTime⟩ net.consensus = .ok nBits →
      HeaderChain net (.child b nTime nBits)

end Palladium
