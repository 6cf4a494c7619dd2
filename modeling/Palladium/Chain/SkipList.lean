import Mathlib
import Palladium.Chain.Index
import Palladium.Pow.Work

/-! # Building the skip list

The tree grows by blocks linked to their predecessors, with `BuildSkip` in between.
-/

namespace Palladium
open Finset Forest Function
namespace IndexEntries
variable {ι : Type*} (T : IndexEntries ι)

/-- The skip pointer that a turn of the loop of `GetAncestor` follows. -/
def skips (height : ℕ) (pindexWalk : ι) (heightWalk : ℕ) : Option ι :=
  if followsSkip heightWalk height then T.pskip pindexWalk else none

/-- The loop of `GetAncestor` with its assertion. -/
def walk (height : ℕ) (pindexWalk : ι) (heightWalk : ℕ) : Except Abort ι :=
  if _ : height < heightWalk then
    match T.skips height pindexWalk heightWalk with
    | some pskip => walk height pskip (getSkipHeight heightWalk)
    | none =>
      match T.parent pindexWalk with
      | some pprev => walk height pprev (heightWalk - 1)
      | none => .error .assertion
  else .ok pindexWalk
termination_by heightWalk
decreasing_by
  · exact getSkipHeight_lt (by omega)
  · omega

/-- `GetAncestor`; a null pointer is `none`. -/
def findAncestor (pindex : ι) (height : ℤ) : Except Abort (Option ι) :=
  if height > T.height pindex ∨ height < 0 then .ok none
  else (T.walk height.toNat pindex (T.height pindex)).map some

/-- The turns of the loop, on its two variables. -/
inductive Turn (height : ℕ) : ι × ℕ → ι × ℕ → Prop
  | skip {pindexWalk pskip : ι} {heightWalk : ℕ} (hlt : height < heightWalk)
      (hskip : T.skips height pindexWalk heightWalk = some pskip) :
      Turn height (pindexWalk, heightWalk) (pskip, getSkipHeight heightWalk)
  | step {pindexWalk pprev : ι} {heightWalk : ℕ} (hlt : height < heightWalk)
      (hskip : T.skips height pindexWalk heightWalk = none)
      (hprev : T.parent pindexWalk = some pprev) :
      Turn height (pindexWalk, heightWalk) (pprev, heightWalk - 1)

/-- Skip pointers lead to the ancestor at the height of `GetSkipHeight`, roots are at height 0. -/
structure SkipsLead : Prop where
  height_root : ∀ b, T.parent b = none → T.height b = 0
  pskip : ∀ b s, T.pskip b = some s → s ∈ T.path b ∧ T.height s = getSkipHeight (T.height b)
  parent : ∀ b s, T.pskip b = some s → ∃ p, T.parent b = some p

variable {T} {b : ι}

theorem walk_eq_walkTo {height fuel he : ℕ} (w : ι) (h : he ≤ fuel) : T.walk height w he =
      match T.walkTo height fuel w he with
      | some a => .ok a
      | none => .error .assertion := by
  induction fuel generalizing w he with
  | zero =>
    obtain rfl : he = 0 := by omega
    rw [walk, dif_neg (Nat.not_lt_zero _)]
    rfl
  | succ fuel ih =>
    rw [walk, walkTo, skips]
    by_cases hl : height < he
    · have hs := getSkipHeight_lt (Nat.zero_lt_of_lt hl)
      rw [dif_pos hl, if_pos hl]
      cases if followsSkip he height then T.pskip w else none with
      | some s => exact ih s (by omega)
      | none =>
        cases T.parent w with
        | some p => exact ih p (by omega)
        | none => rfl
    · rw [dif_neg hl, if_neg hl]

namespace SkipsLead
variable (h : T.SkipsLead)

include h

variable {height : ℕ}

theorem walk_eq (hl : height ≤ T.height b) :
    ∃ a ∈ T.path b, T.height a = height ∧ T.ancestorAt b height = some a ∧
      T.walk height b (T.height b) = .ok a := by
  obtain ⟨a, ha, hh, he⟩ := exists_ancestorAt h.height_root hl
  refine ⟨a, ha, hh, he, ?_⟩
  rw [walk_eq_walkTo b le_rfl, walkTo_eq h.height_root (fun w s _ => h.pskip w s) le_rfl hl
    (by omega), he]

theorem findAncestor_eq (height : ℤ) : T.findAncestor b height =
    .ok (if 0 ≤ height ∧ height ≤ T.height b then T.ancestorAt b height.toNat else none) := by
  unfold findAncestor
  by_cases hi : 0 ≤ height ∧ height ≤ T.height b
  · obtain ⟨a, -, -, he, hw⟩ := h.walk_eq (show height.toNat ≤ T.height b by omega)
    rw [if_neg (by omega), if_pos hi, hw, he]
    rfl
  · rw [if_pos (by omega), if_neg hi]

theorem turns_mem (hl : height ≤ T.height b) {w : ι × ℕ}
    (hw : Relation.ReflTransGen (T.Turn height) (b, T.height b) w) :
    w.1 ∈ T.path b ∧ w.2 = T.height w.1 ∧ height ≤ w.2 := by
  induction hw with
  | refl => exact ⟨self_mem_path b, rfl, hl⟩
  | tail _ ht ih =>
    obtain ⟨hm, hh, -⟩ := ih
    cases ht with
    | skip hlt hsk =>
      dsimp only at hh ⊢
      obtain ⟨hf, hs⟩ := Option.ite_none_right_eq_some.mp hsk
      obtain ⟨hpa, hsh⟩ := h.pskip _ _ hs
      exact ⟨mem_path_trans hpa hm, by rw [hsh, hh], followsSkip_le hf⟩
    | step hlt _ hp =>
      dsimp only at hh ⊢
      have := T.height_parent hp
      exact ⟨mem_path_trans (parent_mem_path hp) hm, by omega, by omega⟩

theorem skips_mem (hl : height ≤ T.height b) {w s : ι} {he : ℕ}
    (hw : Relation.ReflTransGen (T.Turn height) (b, T.height b) (w, he))
    (hs : T.skips height w he = some s) : s ∈ T.path w ∧ height ≤ T.height s := by
  have hh : he = T.height w := (h.turns_mem hl hw).2.1
  obtain ⟨hf, hs⟩ := Option.ite_none_right_eq_some.mp hs
  obtain ⟨hp, hsh⟩ := h.pskip _ _ hs
  refine ⟨hp, ?_⟩
  rw [hsh, ← hh]
  exact followsSkip_le hf

end SkipsLead

end IndexEntries

/-- The blocks that are linked so far; the pointers of all others are null. -/
structure SkipTree (ι : Type*) extends IndexEntries ι where
  blocks : Finset ι
  height_root : ∀ {b}, parent b = none → height b = 0
  parent_mem : ∀ {b p}, parent b = some p → b ∈ blocks ∧ p ∈ blocks

namespace SkipTree
variable {ι : Type*} [DecidableEq ι] (T : SkipTree ι)

def empty (ι : Type*) : SkipTree ι where
  parent _ := none
  height _ := 0
  height_parent h := by cases h
  pskip _ := none
  nTime _ := 0
  blocks := ∅
  height_root _ := rfl
  parent_mem h := by cases h

def addRoot (b : ι) : SkipTree ι :=
  { T with
    blocks := insert b T.blocks
    parent_mem := fun h => ⟨mem_insert_of_mem (T.parent_mem h).1,
      mem_insert_of_mem (T.parent_mem h).2⟩ }

def link (b p : ι) (hb : b ∉ T.blocks) (hp : p ∈ T.blocks) : SkipTree ι :=
  { T with
    blocks := insert b T.blocks
    parent := Function.update T.parent b (some p)
    height := Function.update T.height b (T.height p + 1)
    height_parent := by
      intro c q hq
      have hqb : q ≠ b := by
        rintro rfl
        rcases eq_or_ne c q with rfl | hc
        · rw [update_self, Option.some.injEq] at hq
          exact hb (hq ▸ hp)
        · rw [update_of_ne hc] at hq
          exact hb (T.parent_mem hq).2
      rw [update_of_ne hqb]
      rcases eq_or_ne c b with rfl | hc
      · rw [update_self, Option.some.injEq] at hq
        rw [update_self, hq]
      · rw [update_of_ne hc] at hq ⊢
        exact T.height_parent hq
    height_root := by
      intro c hc
      rcases eq_or_ne c b with rfl | hne
      · rw [update_self] at hc
        cases hc
      · rw [update_of_ne hne] at hc ⊢
        exact T.height_root hc
    parent_mem := by
      intro c q hq
      rcases eq_or_ne c b with rfl | hne
      · rw [update_self, Option.some.injEq] at hq
        exact ⟨mem_insert_self .., mem_insert_of_mem (hq ▸ hp)⟩
      · rw [update_of_ne hne] at hq
        exact ⟨mem_insert_of_mem (T.parent_mem hq).1,
          mem_insert_of_mem (T.parent_mem hq).2⟩ }

def buildSkip (b : ι) : Except Abort (SkipTree ι) :=
  match T.parent b with
  | some pprev => do
    let pskip ← T.findAncestor pprev (getSkipHeight (T.height b))
    return { T with pskip := Function.update T.pskip b pskip }
  | none => return T

/-- The trees built by linking new blocks and calling `BuildSkip`, in any order. -/
inductive Built : SkipTree ι → Prop
  | empty : Built (empty ι)
  | addRoot {T : SkipTree ι} {b : ι} (h : Built T) (hb : b ∉ T.blocks) : Built (T.addRoot b)
  | link {T : SkipTree ι} {b p : ι} (h : Built T) (hb : b ∉ T.blocks) (hp : p ∈ T.blocks) :
      Built (T.link b p hb hp)
  | buildSkip {T T' : SkipTree ι} {b : ι} (h : Built T) (hb : b ∈ T.blocks)
      (hok : T.buildSkip b = .ok T') : Built T'

variable {T} {b c p : ι}

theorem path_link (hb : b ∉ T.blocks) (hp : p ∈ T.blocks) (hc : c ∈ T.blocks) :
    (T.link b p hb hp).path c = T.path c := by
  have hpa : ∀ c ∈ T.blocks, (T.link b p hb hp).parent c = T.parent c := fun c hc =>
    update_of_ne (by rintro rfl; exact hb hc) ..
  induction c using T.toForest.induction with
  | root c hr =>
    rw [path_root hr, path_root ((hpa c hc).trans hr)]
  | child c q hq ih =>
    rw [path_child hq, path_child ((hpa c hc).trans hq), ih (T.parent_mem hq).2]

theorem height_link (hb : b ∉ T.blocks) (hp : p ∈ T.blocks) (hc : c ∈ T.blocks) :
    (T.link b p hb hp).height c = T.height c :=
  update_of_ne (by rintro rfl; exact hb hc) ..

omit [DecidableEq ι] in
theorem mem_blocks_of_mem_path (hc : c ∈ T.blocks) {a : ι} (ha : a ∈ T.path c) : a ∈ T.blocks := by
  induction c using T.toForest.induction with
  | root c hr => rwa [(mem_path_root hr).mp ha]
  | child c q hq ih =>
    rcases (mem_path_child hq).mp ha with rfl | ha
    · exact hc
    · exact ih (T.parent_mem hq).2 ha

theorem skipsLead_link (h : T.SkipsLead) (hb : b ∉ T.blocks) (hp : p ∈ T.blocks) :
    (T.link b p hb hp).SkipsLead where
  height_root _ := (T.link b p hb hp).height_root
  pskip c s hs := by
    obtain ⟨q, hq⟩ := h.parent c s hs
    obtain ⟨hpa, hh⟩ := h.pskip c s hs
    have hc := (T.parent_mem hq).1
    rw [path_link hb hp hc, height_link hb hp hc, height_link hb hp (mem_blocks_of_mem_path hc hpa)]
    exact ⟨hpa, hh⟩
  parent c s hs := by
    obtain ⟨q, hq⟩ := h.parent c s hs
    refine ⟨q, (update_of_ne ?_ ..).trans hq⟩
    rintro rfl
    exact hb (T.parent_mem hq).1

theorem buildSkip_spec (h : T.SkipsLead) (b : ι) :
    ∃ T', T.buildSkip b = .ok T' ∧ T'.toForest = T.toForest ∧ T'.SkipsLead := by
  unfold buildSkip
  cases hp : T.parent b with
  | none => exact ⟨T, rfl, rfl, h⟩
  | some p =>
    have hh := T.height_parent hp
    have hl : getSkipHeight (T.height b) < T.height b := getSkipHeight_lt (by omega)
    obtain ⟨a, ha, hah, he⟩ := exists_ancestorAt h.height_root
      (show getSkipHeight (T.height b) ≤ T.height p by omega)
    have hf : T.findAncestor p (getSkipHeight (T.height b)) = .ok (some a) := by
      rw [h.findAncestor_eq, if_pos (by omega), Int.toNat_natCast, he]
    simp only [hf]
    refine ⟨_, rfl, rfl, h.height_root, fun c s hs => ?_, fun c s hs => ?_⟩ <;>
      change Function.update T.pskip b (some a) c = some s at hs
    · rcases eq_or_ne c b with rfl | hn
      · rw [update_self, Option.some.injEq] at hs
        subst hs
        exact ⟨(mem_path_child hp).mpr (.inr ha), hah⟩
      · rw [update_of_ne hn] at hs
        exact h.pskip c s hs
    · rcases eq_or_ne c b with rfl | hn
      · exact ⟨p, hp⟩
      · rw [update_of_ne hn] at hs
        exact h.parent c s hs

theorem Built.skipsLead (h : Built T) : T.SkipsLead := by
  induction h with
  | empty =>
    exact ⟨fun _ _ => rfl, fun _ _ hs => (nomatch hs), fun _ _ hs => (nomatch hs)⟩
  | addRoot _ _ ih => exact ⟨ih.height_root, ih.pskip, ih.parent⟩
  | link _ hb hp ih => exact skipsLead_link ih hb hp
  | buildSkip _ _ ho ih =>
    obtain ⟨T'', ho', -, h'⟩ := buildSkip_spec ih _
    cases ho.symm.trans ho'
    exact h'

/-- `GetAncestor` returns the block that following `pprev` reaches at the height, and null when
there is none. No assertion fails, and each skip pointer it follows leads to an ancestor that is not
below the height. -/
theorem findAncestor_built (h : Built T) (b : ι) (height : ℤ) :
    T.findAncestor b height = .ok (if 0 ≤ height ∧ height ≤ T.height b then
        T.ancestorAt b height.toNat else none) ∧
      (0 ≤ height ∧ height ≤ T.height b →
        (∃ a ∈ T.path b, (T.height a : ℤ) = height ∧ T.ancestorAt b height.toNat = some a) ∧
        ∀ w heightWalk s,
          Relation.ReflTransGen (T.Turn height.toNat) (b, T.height b) (w, heightWalk) →
          T.skips height.toNat w heightWalk = some s →
          s ∈ T.path w ∧ height ≤ T.height s) ∧
      ∃ T', T.buildSkip b = .ok T' := by
  have hl := h.skipsLead
  refine ⟨hl.findAncestor_eq height, fun ⟨h0, hle⟩ => ⟨?_, fun w heightWalk s hw hs => ?_⟩, ?_⟩
  · obtain ⟨a, ha, hh, he, -⟩ := hl.walk_eq (show height.toNat ≤ T.height b by omega)
    exact ⟨a, ha, by omega, he⟩
  · obtain ⟨hp, hg⟩ := hl.skips_mem (by omega) hw hs
    exact ⟨hp, by omega⟩
  · obtain ⟨T', ho, -⟩ := buildSkip_spec hl b
    exact ⟨T', ho⟩

def threeInRow : SkipTree (Fin 3) :=
  (((empty (Fin 3)).addRoot 0).link 1 0 (by decide) (by decide)).link 2 1 (by decide) (by decide)

theorem built_threeInRow : Built threeInRow :=
  .link (.link (.addRoot .empty (by decide)) (by decide) (by decide)) (by decide) (by decide)

/-- The last block gets a skip pointer and finds the first one. -/
theorem findAncestor_built_three :
    ∃ T, threeInRow.buildSkip 2 = .ok T ∧ T.findAncestor 2 0 = .ok (some 0) := by
  obtain ⟨T, ho, hfo, -⟩ := buildSkip_spec built_threeInRow.skipsLead 2
  have hf := (findAncestor_built (built_threeInRow.buildSkip (by decide) ho) 2 0).1
  rw [hfo] at hf
  exact ⟨T, ho, hf⟩

end SkipTree

end Palladium
