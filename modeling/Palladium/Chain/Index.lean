import Palladium.Lib.Forest
import Palladium.Lib.Rank

/-! # Ancestors and median times in the block index

`CBlockIndex::GetAncestor` with the skip pointers of `BuildSkip`, and `GetMedianTimePast`.
-/

namespace Palladium
open Forest List

def invertLowestOne (n : ℕ) : ℕ := n &&& (n - 1)

/-- The height `pskip` points to. -/
def getSkipHeight (height : ℕ) : ℕ :=
  if height < 2 then 0
  else if height % 2 = 1 then invertLowestOne (invertLowestOne (height - 1)) + 1
  else invertLowestOne height

structure IndexEntries (ι : Type*) extends Forest ι where
  pskip : ι → Option ι
  nTime : ι → ℤ

namespace IndexEntries
variable {ι : Type*} (T : IndexEntries ι)

/-- Whether `GetAncestor` prefers `pskip` to `pprev` at a height. -/
def followsSkip (heightWalk height : ℕ) : Bool :=
  let heightSkip := getSkipHeight heightWalk
  let heightSkipPrev := getSkipHeight (heightWalk - 1)
  heightSkip = height ||
    (heightSkip > height && !(heightSkipPrev + 2 < heightSkip && heightSkipPrev ≥ height))

/-- The loop of `GetAncestor`; nothing is returned if the assertion that there is a `pprev`
fails. -/
def walkTo (height : ℕ) : (fuel : ℕ) → (pindexWalk : ι) → (heightWalk : ℕ) → Option ι
  | 0, pindexWalk, _ => some pindexWalk
  | fuel + 1, pindexWalk, heightWalk =>
    if height < heightWalk then
      match if followsSkip heightWalk height then T.pskip pindexWalk else none with
      | some pskip => walkTo height fuel pskip (getSkipHeight heightWalk)
      | none =>
        match T.parent pindexWalk with
        | some pprev => walkTo height fuel pprev (heightWalk - 1)
        | none => none
    else some pindexWalk

def getAncestor (pindex : ι) (height : ℤ) : Option ι :=
  if height > T.height pindex ∨ height < 0 then none
  else T.walkTo height.toNat (T.height pindex) pindex (T.height pindex)

def nMedianTimeSpan : ℕ := 11

def getMedianTimePast (pindex : ι) : ℤ :=
  let pmedian := (((T.path pindex).take nMedianTimeSpan).map T.nTime).insertionSort (· ≤ ·)
  pmedian.getD (pmedian.length / 2) 0

end IndexEntries

/-- Index entries that start at height 0 and whose skip pointers are null or set by `BuildSkip`. -/
structure IndexChain (ι : Type*) extends IndexEntries ι where
  height_root : ∀ {b}, parent b = none → height b = 0
  buildSkip : ∀ {b s}, pskip b = some s →
    ∃ pprev, parent b = some pprev ∧
      toIndexEntries.getAncestor pprev (getSkipHeight (height b)) = some s

theorem invertLowestOne_lt {n : ℕ} (h : 0 < n) : invertLowestOne n < n := by
  have := Nat.and_le_right (n := n) (m := n - 1)
  unfold invertLowestOne
  omega

theorem invertLowestOne_le (n : ℕ) : invertLowestOne n ≤ n := Nat.and_le_left

theorem getSkipHeight_lt {height : ℕ} (h : 0 < height) : getSkipHeight height < height := by
  unfold getSkipHeight
  split_ifs with h₁ h₂
  · exact h
  · have hl := invertLowestOne_lt (n := height - 1) (by omega)
    have hle := invertLowestOne_le (invertLowestOne (height - 1))
    omega
  · exact invertLowestOne_lt h

theorem IndexEntries.followsSkip_le {he height : ℕ} (h : followsSkip he height) :
    height ≤ getSkipHeight he := by
  simp only [followsSkip, Bool.or_eq_true, decide_eq_true_eq, Bool.and_eq_true] at h
  omega

theorem IndexEntries.walkTo_eq {ι : Type*} {T : IndexEntries ι} {n fuel height : ℕ}
    (hr : ∀ b, T.parent b = none → T.height b = 0)
    (hsp : ∀ w s, T.height w ≤ n → T.pskip w = some s →
      s ∈ T.path w ∧ T.height s = getSkipHeight (T.height w))
    {w : ι} (hw : T.height w ≤ n) (hle : height ≤ T.height w) (hfu : T.height w ≤ height + fuel) :
    T.walkTo height fuel w (T.height w) = T.ancestorAt w height := by
  induction fuel generalizing w with
  | zero =>
    obtain rfl : height = T.height w := by omega
    exact (ancestorAt_self w).symm
  | succ fuel ih =>
    have hpr : height < T.height w →
        (match T.parent w with
          | some pprev => T.walkTo height fuel pprev (T.height w - 1)
          | none => none) = T.ancestorAt w height := by
      intro hl
      cases hp : T.parent w with
      | none =>
        have := hr w hp
        omega
      | some p =>
        have hh := T.height_parent hp
        dsimp only
        rw [show T.height w - 1 = T.height p by omega,
          ancestorAt_of_mem_path (parent_mem_path hp) (by omega)]
        exact ih (by omega) (by omega) (by omega)
    unfold IndexEntries.walkTo
    split_ifs with hl hf
    · cases hs : T.pskip w with
      | some s =>
        obtain ⟨hm, hh⟩ := hsp w s hw hs
        have hsk : getSkipHeight (T.height w) < T.height w := getSkipHeight_lt (by omega)
        have hg := followsSkip_le hf
        dsimp only
        rw [← hh, ancestorAt_of_mem_path hm (by omega)]
        exact ih (by omega) (by omega) (by omega)
      | none => exact hpr hl
    · exact hpr hl
    · obtain rfl : height = T.height w := by omega
      exact (ancestorAt_self w).symm

namespace IndexChain
variable {ι : Type*} {T : IndexChain ι} {a b : ι} {n : ℕ}

theorem exists_ancestorAt (h : n ≤ T.height b) :
    ∃ a ∈ T.path b, T.height a = n ∧ T.ancestorAt b n = some a :=
  Forest.exists_ancestorAt (fun _ => T.height_root) h

theorem length_path (T : IndexChain ι) (b : ι) : (T.path b).length = T.height b + 1 := by
  induction b using T.toForest.induction with
  | root b hb => rw [path_root hb, T.height_root hb, length_singleton]
  | child b p hp ih => rw [path_child hp, length_cons, ih, T.height_parent hp]

theorem pskip_spec {s : ι} (h : T.pskip b = some s) :
    s ∈ T.path b ∧ T.height s = getSkipHeight (T.height b) := by
  induction hn : T.height b using Nat.strong_induction_on generalizing b s with
  | _ n ih =>
    subst hn
    obtain ⟨p, hp, han⟩ := T.buildSkip h
    have hh := T.height_parent hp
    have hl : getSkipHeight (T.height b) < T.height b := getSkipHeight_lt (by omega)
    rw [IndexEntries.getAncestor, if_neg (by omega), Int.toNat_natCast,
      IndexEntries.walkTo_eq (n := T.height p) (fun _ => T.height_root)
        (fun w s hw hs => ih _ (by omega) hs rfl) le_rfl (by omega) (by omega)] at han
    obtain ⟨a, ha, hah, he⟩ := exists_ancestorAt (T := T)
      (show getSkipHeight (T.height b) ≤ T.height p by omega)
    rw [he] at han
    cases han
    exact ⟨(mem_path_child hp).mpr (.inr ha), hah⟩

theorem getAncestor_eq (h : n ≤ T.height b) : T.getAncestor b n = T.ancestorAt b n := by
  rw [IndexEntries.getAncestor, if_neg (by omega), Int.toNat_natCast]
  exact IndexEntries.walkTo_eq (fun _ => T.height_root) (fun _ _ _ => pskip_spec) le_rfl h
    (by omega)

variable {height : ℤ}

theorem getAncestor_isSome (T : IndexChain ι) (h₀ : 0 ≤ height) (h : height ≤ T.height b) :
    (T.getAncestor b height).isSome := by
  obtain ⟨n, rfl⟩ := Int.eq_ofNat_of_zero_le h₀
  obtain ⟨a, -, -, he⟩ := exists_ancestorAt (T := T) (b := b) (n := n) (by omega)
  rw [getAncestor_eq (by omega), he]
  rfl

theorem getAncestor_of_neg (h : height < 0) : T.getAncestor b height = none :=
  if_pos (.inr h)

theorem getAncestor_eq_some_iff :
    T.getAncestor b height = some a ↔ a ∈ T.path b ∧ T.height a = height := by
  constructor
  · intro h
    have hr : ¬ (height > T.height b ∨ height < 0) := fun ho => by
      rw [IndexEntries.getAncestor, if_pos ho] at h
      cases h
    obtain ⟨n, rfl⟩ := Int.eq_ofNat_of_zero_le (show 0 ≤ height by omega)
    have hl : n ≤ T.height b := by omega
    obtain ⟨c, hc, hh, he⟩ := exists_ancestorAt (T := T) hl
    rw [getAncestor_eq hl, he] at h
    cases h
    exact ⟨hc, by rw [hh]⟩
  · rintro ⟨ha, rfl⟩
    rw [getAncestor_eq (height_le ha)]
    exact ancestorAt_eq_some.mpr ha

def timesPast (T : IndexChain ι) (b : ι) : List ℤ :=
  ((T.path b).take IndexEntries.nMedianTimeSpan).map T.nTime

theorem le_getMedianTimePast_iff {m : ℤ} : m ≤ T.getMedianTimePast b ↔
    (timesPast T b).countP (· < m) ≤ (timesPast T b).length / 2 := by
  have hp : 0 < (timesPast T b).length := by
    have hs := length_pos_of_mem (T.self_mem_path b)
    rw [timesPast, length_map, length_take]
    exact lt_min (by decide) hs
  have hl : (timesPast T b).length / 2 < ((timesPast T b).insertionSort (· ≤ ·)).length := by
    rw [length_insertionSort]
    omega
  have hm : T.getMedianTimePast b =
      ((timesPast T b).insertionSort (· ≤ ·))[(timesPast T b).length / 2] := by
    unfold IndexEntries.getMedianTimePast
    dsimp only
    rw [length_insertionSort]
    exact (getElem_eq_getD _).symm
  rw [hm, le_getElem_insertionSort_iff hl]

theorem getMedianTimePast_le {p : ι} (hp : T.parent b = some p)
    (ht : T.getMedianTimePast p ≤ T.nTime b) : T.getMedianTimePast p ≤ T.getMedianTimePast b := by
  rw [le_getMedianTimePast_iff]
  have hti : timesPast T b = T.nTime b ::
      ((T.path p).take (IndexEntries.nMedianTimeSpan - 1)).map T.nTime := by
    rw [timesPast, path_child hp]
    rfl
  have hs : (((T.path p).take (IndexEntries.nMedianTimeSpan - 1)).map T.nTime).Sublist
      (timesPast T p) := (take_sublist_take_left (by decide)).map T.nTime
  have hl : (timesPast T p).length ≤ (timesPast T b).length := by
    rw [timesPast, timesPast, length_map, length_map, path_child hp]
    simp only [length_take, length_cons]
    omega
  -- the new time is not below the median, and no other time is new
  calc (timesPast T b).countP (· < T.getMedianTimePast p)
      ≤ (timesPast T p).countP (· < T.getMedianTimePast p) := by
        rw [hti, countP_cons_of_neg (by simpa using ht)]
        exact hs.countP_le
    _ ≤ (timesPast T p).length / 2 := le_getMedianTimePast_iff.mp le_rfl
    _ ≤ (timesPast T b).length / 2 := Nat.div_le_div_right hl

theorem getMedianTimePast_mono
    (ht : ∀ b p, T.parent b = some p → T.getMedianTimePast p < T.nTime b) (ha : a ∈ T.path b) :
    T.getMedianTimePast a ≤ T.getMedianTimePast b :=
  Forest.descends (P := fun c => T.getMedianTimePast a ≤ T.getMedianTimePast c)
    (fun b p hp h => h.trans (getMedianTimePast_le hp (ht b p hp).le)) ha le_rfl

/-- A header is accepted only if its time is above the median time past of its parent. -/
theorem getMedianTimePast_of_accepted (T : IndexChain ι)
    (htime : ∀ b p, T.parent b = some p → T.getMedianTimePast p < T.nTime b) :
    (∀ b p, T.parent b = some p → T.getMedianTimePast p ≤ T.getMedianTimePast b) ∧
      ∀ b, ∀ a ∈ T.path b, T.getMedianTimePast a ≤ T.getMedianTimePast b := by
  constructor
  · intro b p hp
    exact getMedianTimePast_le hp (htime b p hp).le
  · intro b a ha
    exact getMedianTimePast_mono htime ha

def genesisAndChild : IndexChain Bool where
  parent b := if b then some false else none
  height b := b.toNat
  height_parent := by decide
  pskip _ := none
  nTime b := b.toNat
  height_root := by decide
  buildSkip h := by cases h

theorem getMedianTimePast_genesisAndChild :
    genesisAndChild.getMedianTimePast false ≤ genesisAndChild.getMedianTimePast true :=
  (getMedianTimePast_of_accepted genesisAndChild (by decide)).1 true false rfl

end IndexChain

end Palladium
