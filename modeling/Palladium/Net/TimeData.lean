import Mathlib.Algebra.Order.Group.Abs
import Mathlib.Algebra.Order.Group.Int
import Mathlib.Data.List.Induction
import Palladium.Lib.Rank

/-! # The time offset of the network

`AddTimeData` with its `CMedianFilter`.
-/

namespace Palladium
open List Option

structure CMedianFilter where
  vValues : List ℤ
  vSorted : List ℤ
  nSize : ℕ

namespace CMedianFilter
variable (f : CMedianFilter)

def input (value : ℤ) : CMedianFilter :=
  let vValues := (if f.vValues.length = f.nSize then f.vValues.tail else f.vValues) ++ [value]
  { f with vValues, vSorted := vValues.insertionSort (· ≤ ·) }

def median : Option ℤ :=
  let vSortedSize := f.vSorted.length
  if vSortedSize % 2 = 1 then f.vSorted[vSortedSize / 2]?
  else do
    let sum := (← f.vSorted[vSortedSize / 2 - 1]?) + (← f.vSorted[vSortedSize / 2]?)
    if -2 ^ 63 ≤ sum ∧ sum < 2 ^ 63 then return sum.tdiv 2 else none

theorem forall_mem_input {f : CMedianFilter} {P : ℤ → Prop} {value : ℤ} (h : ∀ n ∈ f.vValues, P n)
    (hv : P value) : ∀ n ∈ (f.input value).vValues, P n := by
  refine forall_mem_append.mpr ⟨fun n hn => h n ?_, by simpa using hv⟩
  split at hn
  · exact mem_of_mem_tail hn
  · exact hn

end CMedianFilter

def abs64 (n : ℤ) : Option ℤ := if n ≥ 0 then some n else if n = -2 ^ 63 then none else some (-n)

def maxSamples : ℕ := 200

/-- The static variables of `AddTimeData`. -/
structure TimeData (CNetAddr : Type) where
  setKnown : List CNetAddr := []
  vTimeOffsets : CMedianFilter := ⟨[0], [0], maxSamples⟩
  nTimeOffset : ℤ := 0
  fDone : Bool := false

variable {CNetAddr : Type} [DecidableEq CNetAddr]
namespace TimeData

/-- The new `nTimeOffset` and `fDone`. The user is warned once, if no clock is close to ours. -/
def adjust (maxTimeAdjustment : ℤ) (f : CMedianFilter) (nTimeOffset : ℤ) (fDone : Bool) :
    Option (ℤ × Bool) := do
  if 5 ≤ f.vValues.length ∧ f.vValues.length % 2 = 1 then
    let nMedian ← f.median
    if (← abs64 nMedian) ≤ max 0 maxTimeAdjustment then return (nMedian, fDone)
    if fDone then return (0, true)
    let distances ← (f.vSorted.filter (· ≠ 0)).mapM abs64
    return (0, distances.all (5 * 60 ≤ ·))
  return (nTimeOffset, fDone)

def addTimeData (maxTimeAdjustment : ℤ) (s : TimeData CNetAddr) (sample : CNetAddr × ℤ) :
    Option (TimeData CNetAddr) :=
  if s.setKnown.length = maxSamples ∨ sample.1 ∈ s.setKnown then some s
  else
    let vTimeOffsets := s.vTimeOffsets.input sample.2
    (adjust maxTimeAdjustment vTimeOffsets s.nTimeOffset s.fDone).map fun r =>
      { setKnown := s.setKnown ++ [sample.1], vTimeOffsets, nTimeOffset := r.1, fDone := r.2 }

/-- The first sample of each address. -/
def used (samples : List (CNetAddr × ℤ)) : List (CNetAddr × ℤ) :=
  samples.foldl
    (fun known sample => if sample.1 ∈ known.map Prod.fst then known else known ++ [sample]) []

/-- Every interval that contains at least half of the values contains `n`. -/
def WithMajority (values : List ℤ) (n : ℤ) : Prop :=
  ∀ a b, values.length ≤ 2 * values.countP (fun x => a ≤ x ∧ x ≤ b) → a ≤ n ∧ n ≤ b

variable {samples : List (CNetAddr × ℤ)} {sample : CNetAddr × ℤ} {s : TimeData CNetAddr}
  {m n : ℤ} {l : List ℤ}

theorem used_concat : used (samples ++ [sample]) =
    if sample.1 ∈ (used samples).map Prod.fst then used samples
    else used samples ++ [sample] := by
  rw [used, foldl_append]
  rfl

theorem abs64_eq (h : |n| ≤ 2 ^ 51) : abs64 n = some |n| := by
  rw [abs_le] at h
  unfold abs64
  split_ifs with hn hm
  · rw [abs_of_nonneg hn]
  · omega
  · rw [abs_of_neg (not_le.mp hn)]

theorem mapM_abs64 (h : ∀ n ∈ l, |n| ≤ 2 ^ 51) : l.mapM abs64 = some (l.map (|·|)) := by
  induction l with
  | nil => rfl
  | cons n l ih =>
    rw [forall_mem_cons] at h
    rw [mapM_cons, abs64_eq h.1, ih h.2]
    rfl

theorem withMajority_median (ho : l.length % 2 = 1)
    (h : (l.insertionSort (· ≤ ·))[l.length / 2]? = some n) : WithMajority l n := by
  obtain ⟨hl, rfl⟩ := List.getElem?_eq_some_iff.mp h
  intro a b hh
  constructor
  · rw [le_getElem_insertionSort_iff hl]
    have hs := l.length_eq_countP_add_countP (· < a)
    have hi : l.countP (fun x => a ≤ x ∧ x ≤ b) ≤ l.countP (fun x => ¬ decide (x < a)) :=
      countP_mono_left fun x _ hx => by simp at hx ⊢; omega
    omega
  · by_contra hgt
    rw [not_le] at hgt
    have hr := (le_getElem_insertionSort_iff hl).mp le_rfl
    have hb : l.countP (fun x => a ≤ x ∧ x ≤ b) ≤
        l.countP (· < (l.insertionSort (· ≤ ·))[l.length / 2]) :=
      countP_mono_left fun x _ hx => by simp at hx ⊢; omega
    omega

omit [DecidableEq CNetAddr] in
theorem adjust_spec (nSize : ℕ) (fDone : Bool) (hl : ∀ n ∈ l, |n| ≤ 2 ^ 51) (hn : |n| ≤ max 0 m) :
    ∃ r, adjust m ⟨l, l.insertionSort (· ≤ ·), nSize⟩ n fDone = some r ∧
      |r.1| ≤ max 0 m ∧
      (r.1 = n ∨ l.length % 2 = 1 ∧ (r.1 = 0 ∨ WithMajority l r.1)) := by
  by_cases ho : 5 ≤ l.length ∧ l.length % 2 = 1
  · have hs : ∀ n ∈ l.insertionSort (· ≤ ·), |n| ≤ 2 ^ 51 := by
      simpa only [mem_insertionSort] using hl
    obtain ⟨k, hk⟩ : ∃ k, (l.insertionSort (· ≤ ·))[l.length / 2]? = some k := by
      rw [← isSome_iff_exists, isSome_getElem?, length_insertionSort]
      omega
    have hm : CMedianFilter.median ⟨l, l.insertionSort (· ≤ ·), nSize⟩ = some k := by
      rw [CMedianFilter.median, length_insertionSort, if_pos ho.2]
      exact hk
    have ha := abs64_eq (hs k (mem_of_getElem? hk))
    have hd := mapM_abs64 fun n hn => hs n (mem_of_mem_filter (p := (· ≠ 0)) hn)
    rw [adjust, if_pos ho, hm]
    simp only [Option.bind_eq_bind, Option.bind_some, ha, hd]
    split_ifs with hle
    · exact ⟨_, rfl, hle, .inr ⟨ho.2, .inr (withMajority_median ho.2 hk)⟩⟩
    all_goals exact ⟨_, rfl, le_max_left 0 _, .inr ⟨ho.2, .inl rfl⟩⟩
  · exact ⟨(n, fDone), if_neg ho, hn, .inl rfl⟩

/-- Until there are as many addresses as the filter takes values, it has all the samples. -/
inductive Holds (m : ℤ) (samples : List (CNetAddr × ℤ)) : TimeData CNetAddr → Prop
  | filling {vSorted : List ℤ} {nTimeOffset : ℤ} {fDone : Bool}
      (hlen : (used samples).length < maxSamples)
      (hsmall : ∀ n ∈ 0 :: (used samples).map Prod.snd, |n| ≤ 2 ^ 51)
      (hbound : |nTimeOffset| ≤ max 0 m) :
      Holds m samples ⟨(used samples).map Prod.fst,
        ⟨0 :: (used samples).map Prod.snd, vSorted, maxSamples⟩, nTimeOffset, fDone⟩
  | full {s : TimeData CNetAddr} (hknown : s.setKnown.length = maxSamples)
      (hlen : maxSamples ≤ (used samples).length)
      (hbound : |s.nTimeOffset| ≤ max 0 m) : Holds m samples s

theorem Holds.addTimeData (h : Holds m samples s) (hs : |sample.2| ≤ 2 ^ 51) :
    ∃ s', s.addTimeData m sample = some s' ∧ Holds m (samples ++ [sample]) s' ∧
      (s'.nTimeOffset = s.nTimeOffset ∨ (used samples).length < maxSamples ∧ (s'.nTimeOffset = 0 ∨
          WithMajority (0 :: (used (samples ++ [sample])).map Prod.snd) s'.nTimeOffset)) := by
  have hu := @used_concat _ _ samples sample
  cases h with
  | full hk hle hb =>
    refine ⟨s, if_pos (.inl hk), .full hk ?_ hb, .inl rfl⟩
    rw [hu]
    split
    · exact hle
    · rw [length_append]
      omega
  | @filling vSorted nTimeOffset fDone hle hsm hb =>
    by_cases hm : sample.1 ∈ (used samples).map Prod.fst
    · rw [if_pos hm] at hu
      refine ⟨_, if_pos (.inr hm), ?_, .inl rfl⟩
      rw [← hu] at hle hsm ⊢
      exact .filling hle hsm hb
    rw [if_neg hm] at hu
    have hn : ¬ (((used samples).map Prod.fst).length = maxSamples ∨
        sample.1 ∈ (used samples).map Prod.fst) := by
      rw [length_map]
      exact not_or_intro hle.ne hm
    have hsm' := CMedianFilter.forall_mem_input (f := ⟨_, vSorted, maxSamples⟩) hsm hs
    obtain ⟨r, hr, hb', hc⟩ := adjust_spec maxSamples fDone hsm' hb
    refine ⟨_, (if_neg hn).trans (congrArg (Option.map _) hr), ?_⟩
    have hk : (used samples).map Prod.fst ++ [sample.1] =
        (used (samples ++ [sample])).map Prod.fst := by
      rw [hu, map_append]
      rfl
    by_cases hl : (used samples).length + 1 = maxSamples
    · -- the initial value leaves the filter, whose size is even from now on
      have hle' : (used (samples ++ [sample])).length = maxSamples := by
        rw [hu, length_append]
        exact hl
      refine ⟨.full ?_ hle'.ge hb', .inl ?_⟩
      · rw [hk, length_map, hle']
      · refine hc.resolve_right fun h => ?_
        simp [CMedianFilter.input, hl] at h
        exact absurd h.1 (by decide)
    · have hi : CMedianFilter.input ⟨0 :: (used samples).map Prod.snd, vSorted,
          maxSamples⟩ sample.2 = ⟨0 :: (used (samples ++ [sample])).map Prod.snd,
            (0 :: (used (samples ++ [sample])).map Prod.snd).insertionSort (· ≤ ·),
            maxSamples⟩ := by
        simp [CMedianFilter.input, hl, hu]
      rw [hi] at hsm' hc ⊢
      refine ⟨?_, hc.imp_right fun h => ⟨hle, h.2⟩⟩
      rw [hk]
      refine .filling ?_ hsm' hb'
      rw [hu, length_append]
      exact lt_of_le_of_ne hle hl

theorem run_holds (h : ∀ sample ∈ samples, |sample.2| ≤ 2 ^ 51) :
    ∃ s, samples.foldlM (TimeData.addTimeData m) {} = some s ∧ Holds m samples s := by
  induction samples using reverseRecOn with
  | nil => exact ⟨{}, rfl, .filling (Nat.succ_pos _) (by simp [used]) (by simp)⟩
  | append_singleton samples sample ih =>
    rw [forall_mem_append, forall_mem_singleton] at h
    obtain ⟨s, hr, hs⟩ := ih h.1
    obtain ⟨s', hs', hh, -⟩ := hs.addTimeData h.2
    rw [foldlM_append, hr]
    exact ⟨s', by simpa using hs', hh⟩

/-- Whoever controls less than half of the samples cannot move the offset out of the range of the
others. -/
theorem addTimeData_bounded (maxTimeAdjustment : ℤ) (samples : List (CNetAddr × ℤ))
    (h : ∀ sample ∈ samples, |sample.2| ≤ 2 ^ 51) :
    ∃ s, samples.foldlM (TimeData.addTimeData maxTimeAdjustment) {} = some s ∧
      |s.nTimeOffset| ≤ max 0 maxTimeAdjustment ∧
      ∀ sample : CNetAddr × ℤ, |sample.2| ≤ 2 ^ 51 →
        ∃ s', s.addTimeData maxTimeAdjustment sample = some s' ∧
          (200 ≤ (used samples).length → s'.nTimeOffset = s.nTimeOffset) ∧
          (s'.nTimeOffset ≠ s.nTimeOffset → s'.nTimeOffset = 0 ∨
            WithMajority (0 :: (used (samples ++ [sample])).map Prod.snd) s'.nTimeOffset) := by
  obtain ⟨s, hr, hs⟩ := run_holds (m := maxTimeAdjustment) h
  refine ⟨s, hr, by cases hs <;> assumption, fun sample hsa => ?_⟩
  obtain ⟨s', hs', -, hc⟩ := hs.addTimeData hsa
  refine ⟨s', hs', fun hf => ?_, fun hn => ?_⟩
  · rcases hc with he | ⟨hl, -⟩
    · exact he
    · exact absurd hf (not_le.mpr hl)
  · rcases hc with he | ⟨-, hm⟩
    · exact absurd he hn
    · exact hm

theorem addTimeData_bounded_four : ∃ s : TimeData ℕ,
    [(1, 5), (2, 7), (3, 6), (4, 9)].foldlM (TimeData.addTimeData 100) {} = some s ∧
      s.nTimeOffset = 6 ∧ |s.nTimeOffset| ≤ max 0 100 := by
  obtain ⟨s, hr, hs, -⟩ := addTimeData_bounded 100 [(1, 5), (2, 7), (3, 6), (4, 9)] (by decide)
  have ho : ([(1, 5), (2, 7), (3, 6), (4, 9)].foldlM (TimeData.addTimeData 100)
      ({} : TimeData ℕ)).map (·.nTimeOffset) = some 6 := by decide
  rw [hr] at ho
  exact ⟨s, hr, Option.some.inj ho, hs⟩

end TimeData

end Palladium
