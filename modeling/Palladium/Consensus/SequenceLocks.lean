import Palladium.Chain.Index
import Palladium.Consensus.TxVerify

/-! # Relative lock times

`CalculateSequenceLocks` and `EvaluateSequenceLocks`.
-/

namespace Palladium
open Option
namespace CTxIn

def sequenceLocktimeDisableFlag : ℕ := 1 <<< 31
def sequenceLocktimeTypeFlag : ℕ := 1 <<< 22
def sequenceLocktimeMask : ℕ := 0x0000ffff
def sequenceLocktimeGranularity : ℕ := 9

variable (txin : CTxIn)

def lockDisabled : Bool := txin.nSequence &&& sequenceLocktimeDisableFlag ≠ 0

def lockIsTime : Bool := txin.nSequence &&& sequenceLocktimeTypeFlag ≠ 0

def lockValue : ℕ := txin.nSequence &&& sequenceLocktimeMask

end CTxIn

def locktimeVerifySequence : ℕ := 1 <<< 0

variable {ι : Type*} (T : IndexEntries ι) (block : ι)

/-- One input of the loop: the bounds after it, and what is left of its height; nothing without an
ancestor to take the time from. -/
def sequenceLock (txin : CTxIn) (nCoinHeight : ℤ) (lockPair : ℤ × ℤ) : Option ((ℤ × ℤ) × ℤ) :=
  if txin.lockDisabled then some (lockPair, 0)
  else if txin.lockIsTime then
    match T.getAncestor block (max (nCoinHeight - 1) 0) with
    | none => none
    | some ancestor =>
      let nCoinTime := T.getMedianTimePast ancestor
      let nTime := nCoinTime + (txin.lockValue <<< CTxIn.sequenceLocktimeGranularity : ℕ) - 1
      some ((lockPair.1, max lockPair.2 nTime), nCoinHeight)
  else some ((max lockPair.1 (nCoinHeight + txin.lockValue - 1), lockPair.2), nCoinHeight)

def sequenceLocksLoop : List (CTxIn × ℤ) → ℤ × ℤ → Option ((ℤ × ℤ) × List ℤ)
  | [], lockPair => some (lockPair, [])
  | (txin, nCoinHeight) :: inputs, lockPair => do
    let (lockPair, nCoinHeight) ← sequenceLock T block txin nCoinHeight lockPair
    let (lockPair, prevHeights) ← sequenceLocksLoop inputs lockPair
    some (lockPair, nCoinHeight :: prevHeights)

variable (tx : CTransaction) (flags : ℕ)

def enforceBIP68 : Bool :=
  tx.nVersion % 2 ^ 32 ≥ 2 && flags &&& locktimeVerifySequence ≠ 0

variable (prevHeights : List ℤ)

/-- The bounds, and the heights as the function leaves them. -/
def calculateSequenceLocks : Option ((ℤ × ℤ) × List ℤ) :=
  if prevHeights.length ≠ tx.vin.length then none
  else if !enforceBIP68 tx flags then some ((-1, -1), prevHeights)
  else sequenceLocksLoop T block (tx.vin.zip prevHeights) (-1, -1)

def evaluateSequenceLocks (lockPair : ℤ × ℤ) : Option Bool :=
  match T.parent block with
  | none => none
  | some pprev =>
    let nBlockTime := T.getMedianTimePast pprev
    some !(lockPair.1 ≥ T.height block || lockPair.2 ≥ nBlockTime)

def sequenceLocks : Option Bool := do
  let (lockPair, _) ← calculateSequenceLocks T block tx flags prevHeights
  evaluateSequenceLocks T block lockPair

variable (nHeight nTime : ℤ)

def LockMet (txin : CTxIn) (nCoinHeight : ℤ) : Prop :=
  txin.lockDisabled = false →
    if txin.lockIsTime then
      ∃ ancestor, T.getAncestor block (max (nCoinHeight - 1) 0) = some ancestor ∧
        T.getMedianTimePast ancestor + 512 * txin.lockValue ≤ nTime
    else nCoinHeight + txin.lockValue ≤ nHeight

def keptHeight (txin : CTxIn) (nCoinHeight : ℤ) : ℤ := if txin.lockDisabled then 0 else nCoinHeight

variable {T block} {txin : CTxIn} {nCoinHeight : ℤ} {lockPair : ℤ × ℤ}

theorem sequenceLock_spec {r : (ℤ × ℤ) × ℤ}
    (h : sequenceLock T block txin nCoinHeight lockPair = some r) :
    r.2 = keptHeight txin nCoinHeight ∧ (r.1.1 < nHeight ∧ r.1.2 < nTime ↔
        (lockPair.1 < nHeight ∧ lockPair.2 < nTime) ∧
          LockMet T block nHeight nTime txin nCoinHeight) := by
  unfold sequenceLock at h
  unfold keptHeight LockMet
  split at h
  · next hd =>
    cases h
    simp [hd]
  · next hd =>
    simp only [Bool.not_eq_true] at hd
    split at h
    · next ht =>
      split at h
      · cases h
      · next ancestor ha =>
        cases h
        simp [hd, ht, ha, CTxIn.sequenceLocktimeGranularity, Nat.shiftLeft_eq]
        omega
    · next ht =>
      cases h
      simp [hd, ht]
      omega

variable {inputs : List (CTxIn × ℤ)}

theorem sequenceLocksLoop_spec {r : (ℤ × ℤ) × List ℤ}
    (h : sequenceLocksLoop T block inputs lockPair = some r) :
    r.2 = inputs.map (fun p => keptHeight p.1 p.2) ∧ (r.1.1 < nHeight ∧ r.1.2 < nTime ↔
        (lockPair.1 < nHeight ∧ lockPair.2 < nTime) ∧
          ∀ p ∈ inputs, LockMet T block nHeight nTime p.1 p.2) := by
  induction inputs generalizing lockPair r with
  | nil =>
    cases h
    simp
  | cons p inputs ih =>
    simp only [sequenceLocksLoop, bind_eq_bind, bind_eq_some_iff, Option.some.injEq] at h
    obtain ⟨⟨mid, height⟩, hs, ⟨rest, heights⟩, hl, rfl⟩ := h
    obtain ⟨hhe, hm⟩ := sequenceLock_spec nHeight nTime hs
    obtain ⟨hh, hme⟩ := ih hl
    refine ⟨?_, ?_⟩
    · rw [List.map_cons, ← hh, ← hhe]
    · rw [List.forall_mem_cons, ← and_assoc, ← hm]
      exact hme

theorem sequenceLocksLoop_isSome (h : ∀ p ∈ inputs, (T.getAncestor block (max (p.2 - 1) 0)).isSome)
    (lockPair : ℤ × ℤ) : (sequenceLocksLoop T block inputs lockPair).isSome := by
  induction inputs generalizing lockPair with
  | nil => rfl
  | cons p inputs ih =>
    obtain ⟨a, ha⟩ := isSome_iff_exists.mp (h p List.mem_cons_self)
    have hs : (sequenceLock T block p.1 p.2 lockPair).isSome := by
      unfold sequenceLock
      rw [ha]
      split
      · rfl
      · split <;> rfl
    obtain ⟨r, hr⟩ := isSome_iff_exists.mp hs
    have hre := ih (fun q hq => h q (List.mem_cons_of_mem _ hq)) r.1
    obtain ⟨r', hr'⟩ := isSome_iff_exists.mp hre
    simp [sequenceLocksLoop, hr, hr']

theorem evaluateSequenceLocks_eq {pprev : ι} (hp : T.parent block = some pprev) :
    evaluateSequenceLocks T block lockPair =
      some (lockPair.1 < T.height block && lockPair.2 < T.getMedianTimePast pprev : Bool) := by
  simp only [evaluateSequenceLocks, hp, Bool.not_or, ge_iff_le, ← decide_not, not_le]

theorem lockMet_of_sequenceLocks {tx : CTransaction} {flags : ℕ} {prevHeights : List ℤ} {pprev : ι}
    (hp : T.parent block = some pprev) (hen : enforceBIP68 tx flags)
    (h : sequenceLocks T block tx flags prevHeights = some true) :
    ∀ p ∈ tx.vin.zip prevHeights,
      LockMet T block (T.height block) (T.getMedianTimePast pprev) p.1 p.2 := by
  simp only [sequenceLocks, bind_eq_bind, bind_eq_some_iff] at h
  obtain ⟨r, hc, he⟩ := h
  rw [calculateSequenceLocks, hen] at hc
  split at hc
  · cases hc
  · rw [evaluateSequenceLocks_eq hp] at he
    simp only [Option.some.injEq, Bool.and_eq_true, decide_eq_true_eq] at he
    exact ((sequenceLocksLoop_spec _ _ hc).2.mp he).2

end Palladium
