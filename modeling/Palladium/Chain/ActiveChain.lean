import Palladium.Chain.Index
import Palladium.Pow.Work

/-! # The active chain

`CChain` is a vector of blocks indexed by height.
-/

namespace Palladium
open Forest List

/-- An in-memory indexed chain of blocks. -/
structure CChain (ι : Type*) where
  vChain : List (Option ι) := []

namespace CChain
variable {ι : Type*} [DecidableEq ι] (T : IndexChain ι) (C : CChain ι)

/-- The operator `[]`. -/
def get (nHeight : ℤ) : Option ι :=
  if nHeight < 0 ∨ nHeight ≥ C.vChain.length then none else C.vChain.getD nHeight.toNat none

def genesis : Option ι := if C.vChain.length > 0 then C.vChain.getD 0 none else none

def tip : Option ι :=
  if C.vChain.length > 0 then C.vChain.getD (C.vChain.length - 1) none else none

def height : ℤ := C.vChain.length - 1

def contains (pindex : ι) : Bool := C.get (T.height pindex) = some pindex

/-- The loop of `SetTip`. -/
def fill (pindex : ι) (vChain : List (Option ι)) : List (Option ι) :=
  if vChain.getD (T.height pindex) none = some pindex then vChain
  else
    let vChain := vChain.set (T.height pindex) (some pindex)
    match _h : T.parent pindex with
    | some pprev => fill pprev vChain
    | none => vChain
termination_by T.height pindex
decreasing_by
  have := T.height_parent ‹T.parent pindex = some pprev›
  omega

/-- `vector::resize` with null pointers. -/
def resize (vChain : List (Option ι)) (n : ℕ) : List (Option ι) :=
  vChain.take n ++ List.replicate (n - vChain.length) none

def setTip (pindex : Option ι) : CChain ι :=
  match pindex with
  | none => ⟨[]⟩
  | some pindex => ⟨fill T pindex (resize C.vChain (T.height pindex + 1))⟩

def findForkLoop (pindex : ι) : Option ι :=
  if C.contains T pindex then some pindex
  else
    match _h : T.parent pindex with
    | some pprev => findForkLoop pprev
    | none => none
termination_by T.height pindex
decreasing_by
  have := T.height_parent ‹T.parent pindex = some pprev›
  omega

def findFork (pindex : Option ι) : Option ι :=
  match pindex with
  | none => none
  | some pindex =>
    (if T.height pindex > C.height then T.getAncestor pindex C.height
      else some pindex).bind (C.findForkLoop T)

end CChain

namespace IndexChain
variable {ι : Type*} [DecidableEq ι] (T : IndexChain ι)

/-- The loop of `LastCommonAncestor` and the values of its variables at the end. -/
def meet (pa pb : ι) : Option ι × Option ι :=
  if pa = pb then (some pa, some pb)
  else
    match _h : T.parent pa, T.parent pb with
    | some pprev, some pprev' => meet pprev pprev'
    | pprev, pprev' => (pprev, pprev')
termination_by T.height pa
decreasing_by
  have := T.height_parent ‹T.parent pa = some pprev›
  omega

def lastCommonAncestor (pa pb : ι) : Except Abort (Option ι) :=
  let pa' := if T.height pa > T.height pb then T.getAncestor pa (T.height pb) else some pa
  let pb' := if T.height pb > T.height pa then T.getAncestor pb (T.height pa) else some pb
  let ends :=
    match pa', pb' with
    | some pa, some pb => T.meet pa pb
    | pa, pb => (pa, pb)
  if ends.1 = ends.2 then .ok ends.1 else .error .assertion

end IndexChain

namespace CChain
variable {ι : Type*} {T : IndexChain ι} {C : CChain ι} {b tip : ι}

/-- The chain holds the tip's ancestors by their heights. -/
structure Follows (T : IndexChain ι) (C : CChain ι) (tip : ι) : Prop where
  length : C.vChain.length = T.height tip + 1
  entry : ∀ i ≤ T.height tip, C.vChain.getD i none = T.ancestorAt tip i

def Consistent (T : IndexChain ι) (vChain : List (Option ι)) (n : ℕ) : Prop :=
  ∀ i ≤ n, ∀ c, vChain.getD i none = some c →
    ∀ j ≤ i, vChain.getD j none = T.ancestorAt c j

variable {l : List (Option ι)}

theorem getD_set_self {i : ℕ} (h : i < l.length) (o : Option ι) : (l.set i o).getD i none = o := by
  rw [getD_eq_getElem?_getD, List.getElem?_set_self h, Option.getD_some]

theorem getD_set_ne {i j : ℕ} (h : i ≠ j) (o : Option ι) : (l.set i o).getD j none = l.getD j none := by
  rw [getD_eq_getElem?_getD, List.getElem?_set_ne h, getD_eq_getElem?_getD]

variable [DecidableEq ι] {vChain : List (Option ι)}

theorem fill_spec (hln : T.height b < vChain.length) (hc : Consistent T vChain (T.height b)) :
    (fill T b vChain).length = vChain.length ∧
      (∀ i ≤ T.height b, (fill T b vChain).getD i none = T.ancestorAt b i) ∧
      ∀ i > T.height b, (fill T b vChain).getD i none = vChain.getD i none := by
  induction b using T.toForest.induction generalizing vChain with
  | root b hr =>
    have hz := T.height_root hr
    rw [fill]
    split_ifs with h
    · exact ⟨rfl, hc _ le_rfl b h, fun _ _ => rfl⟩
    · dsimp only
      split
      · next p hp => rw [hr] at hp; cases hp
      · refine ⟨length_set, fun i hi => ?_, fun i hi => getD_set_ne hi.ne _⟩
        obtain rfl : i = T.height b := by omega
        rw [getD_set_self hln, ancestorAt_self]
  | child b p hp ih =>
    have hh := T.height_parent hp
    rw [fill]
    split_ifs with h
    · exact ⟨rfl, hc _ le_rfl b h, fun _ _ => rfl⟩
    · dsimp only
      split
      · next q hq =>
        cases hp.symm.trans hq
        have hlo : ∀ i ≤ T.height p, (vChain.set (T.height b) (some b)).getD i none =
            vChain.getD i none := fun i hi => getD_set_ne (by omega) _
        obtain ⟨hl, hb, ha⟩ := @ih (vChain.set (T.height b) (some b))
          (by rw [length_set]; omega) (fun i hi c hic j hj => by
            rw [hlo i hi] at hic
            rw [hlo j (by omega)]
            exact hc i (by omega) c hic j hj)
        refine ⟨hl.trans length_set, fun i hi => ?_, fun i hi => ?_⟩
        · rcases Nat.lt_or_ge (T.height p) i with hlt | hle
          · obtain rfl : i = T.height b := by omega
            rw [ha _ hlt, getD_set_self hln, ancestorAt_self]
          · rw [hb i hle, ancestorAt_of_mem_path (parent_mem_path hp) hle]
        · rw [ha i (by omega), getD_set_ne hi.ne]
      · next hq => rw [hp] at hq; cases hq

omit [DecidableEq ι] in
theorem getD_resize (vChain : List (Option ι)) (n i : ℕ) :
    (resize vChain n).getD i none = if i < n then vChain.getD i none else none := by
  simp only [resize, getD_eq_getElem?_getD, List.getElem?_append, length_take,
    List.getElem?_take, List.getElem?_replicate]
  split_ifs with h₁ h₂ h₃ h₄ <;> first | rfl | omega | skip
  · rw [List.getElem?_eq_none (by omega)]
    rfl

omit [DecidableEq ι] in
theorem length_resize (vChain : List (Option ι)) (n : ℕ) : (resize vChain n).length = n := by
  rw [resize, length_append, length_take, length_replicate]
  omega

omit [DecidableEq ι] in
theorem Follows.consistent (h : Follows T C tip) (n : ℕ) : Consistent T (resize C.vChain n) n := by
  intro i _ c hi j hj
  rw [getD_resize] at hi ⊢
  rcases Nat.lt_or_ge i n with hin | hin
  · rcases Nat.lt_or_ge (T.height tip) i with hlt | hl
    · rw [if_pos hin, getD_eq_default _ _ (by rw [h.length]; omega)] at hi
      cases hi
    · rw [if_pos hin, h.entry i hl] at hi
      obtain ⟨hm, hh⟩ := ancestorAt_eq_some_iff.mp hi
      rw [if_pos (by omega), h.entry j (by omega), ancestorAt_of_mem_path hm (by omega)]
  · rw [if_neg (by omega)] at hi
    cases hi

theorem follows_fill {n : ℕ} (hn : n = T.height b + 1) (hc : Consistent T (resize vChain n) n) :
    Follows T ⟨fill T b (resize vChain n)⟩ b := by
  have hle := length_resize vChain n
  obtain ⟨hl, hb, -⟩ := @fill_spec _ T b _ (resize vChain n) (by omega)
    (fun i hi => hc i (by omega))
  exact ⟨by rw [hl, hle, hn], hb⟩

theorem follows_setTip (h : C.vChain = [] ∨ ∃ tip, Follows T C tip) (b : ι) :
    Follows T (C.setTip T (some b)) b := by
  refine follows_fill rfl ?_
  rcases h with he | ⟨tip, ht⟩
  · intro i _ c hi
    rw [he, getD_resize] at hi
    simp at hi
  · exact ht.consistent _

theorem follows_foldl (h : C.vChain = [] ∨ ∃ tip, Follows T C tip) (calls : List (Option ι)) :
    (calls.foldl (setTip T) C).vChain = [] ∨ ∃ tip, Follows T (calls.foldl (setTip T) C) tip := by
  induction calls generalizing C with
  | nil => exact h
  | cons pindex calls ih =>
    refine ih ?_
    cases pindex with
    | none => exact .inl rfl
    | some b => exact .inr ⟨b, follows_setTip h b⟩

namespace Follows
variable (h : Follows T C tip)

include h

omit [DecidableEq ι] in
theorem height_eq : C.height = T.height tip := by
  rw [height, h.length]
  omega

omit [DecidableEq ι] in
theorem get_eq (n : ℕ) : C.get n = if n ≤ T.height tip then T.ancestorAt tip n else none := by
  unfold get
  rw [h.length]
  by_cases hn : n ≤ T.height tip
  · rw [if_neg (by omega), if_pos hn, Int.toNat_natCast, h.entry n hn]
  · rw [if_pos (by omega), if_neg hn]

theorem contains_iff : C.contains T b ↔ b ∈ T.path tip := by
  rw [contains, decide_eq_true_iff, h.get_eq]
  constructor
  · intro he
    exact (ancestorAt_eq_some_iff.mp (Option.ite_none_right_eq_some.mp he).2).1
  · intro hm
    rw [if_pos (height_le hm), ancestorAt_eq_some.mpr hm]

end Follows

end CChain

namespace IndexChain
variable {ι : Type*} {T : IndexChain ι}

def OneGenesis (T : IndexChain ι) : Prop :=
  ∀ a b, T.parent a = none → T.parent b = none → a = b

theorem OneGenesis.mem_path (h : T.OneGenesis) {r : ι} (hr : T.parent r = none) (b : ι) :
    r ∈ T.path b := by
  obtain ⟨r', hm, hr'⟩ := T.exists_root b
  rwa [h r r' hr hr']

theorem getAncestor_of_le {b : ι} {n : ℕ} (h : n ≤ T.height b) :
    ∃ a ∈ T.path b, T.height a = n ∧ T.getAncestor b n = some a := by
  obtain ⟨a, ha, hh, he⟩ := exists_ancestorAt (T := T) h
  exact ⟨a, ha, hh, (getAncestor_eq h).trans he⟩

variable [DecidableEq ι]

theorem meet_spec (h : T.OneGenesis) {a b : ι} (he : T.height a = T.height b) :
    ∃ c, T.IsLastCommon a b c ∧ T.meet a b = (some c, some c) := by
  induction a using T.toForest.induction generalizing b with
  | root a ha =>
    obtain rfl : a = b := by
      cases hb : T.parent b with
      | none => exact h a b ha hb
      | some q =>
        have := T.height_root ha
        have := T.height_parent hb
        omega
    exact ⟨a, .of_mem (self_mem_path a), by rw [meet, if_pos rfl]⟩
  | child a p hp ih =>
    by_cases hab : a = b
    · subst hab
      exact ⟨a, .of_mem (self_mem_path a), by rw [meet, if_pos rfl]⟩
    have hph := T.height_parent hp
    cases hb : T.parent b with
    | none =>
      have := T.height_root hb
      omega
    | some q =>
      have hqh := T.height_parent hb
      obtain ⟨c, hc, hme⟩ := ih (b := q) (by omega)
      have hmq : a ∉ T.path q := fun hm => by
        have := height_le hm
        omega
      have hma : b ∉ T.path a := fun hm => hab (eq_of_height_ge hm he.le).symm
      refine ⟨c, ((hc.of_parent hp hmq).symm.of_parent hb hma).symm, ?_⟩
      rw [meet, if_neg hab]
      split
      · next p' q' hp' hq' =>
        cases hp.symm.trans hp'
        cases hb.symm.trans hq'
        exact hme
      · next hn => exact absurd hb (hn p q hp)

theorem lastCommonAncestor_spec (h : T.OneGenesis) (a b : ι) :
    ∃ c, T.IsLastCommon a b c ∧ T.lastCommonAncestor a b = .ok (some c) := by
  unfold lastCommonAncestor
  rcases lt_trichotomy (T.height a) (T.height b) with hl | he | hg
  · obtain ⟨b', hb', hh, han⟩ := getAncestor_of_le (T := T) hl.le
    obtain ⟨c, hc, hm⟩ := meet_spec h hh.symm
    refine ⟨c, (hc.symm.of_ancestor hb' fun d hd ha => ?_).symm, ?_⟩
    · exact mem_path_of_height_le hd hb' (by have := height_le ha; omega)
    · simp [hl, hl.not_gt, han, hm]
  · obtain ⟨c, hc, hm⟩ := meet_spec h he
    exact ⟨c, hc, by simp [he, hm]⟩
  · obtain ⟨a', ha', hh, han⟩ := getAncestor_of_le (T := T) hg.le
    obtain ⟨c, hc, hm⟩ := meet_spec h hh
    refine ⟨c, hc.of_ancestor ha' fun d hd hb => ?_, ?_⟩
    · exact mem_path_of_height_le hd ha' (by have := height_le hb; omega)
    · simp [hg, hg.not_gt, han, hm]

end IndexChain

namespace CChain
variable {ι : Type*} [DecidableEq ι] {T : IndexChain ι} {C : CChain ι} {b tip : ι}

theorem Follows.findForkLoop_spec (h : Follows T C tip) (ho : T.OneGenesis) (b : ι) :
    ∃ c, T.IsLastCommon b tip c ∧ C.findForkLoop T b = some c := by
  induction b using T.toForest.induction with
  | root b hb =>
    have hm := ho.mem_path hb tip
    exact ⟨b, .of_mem hm, by rw [findForkLoop, if_pos (h.contains_iff.mpr hm)]⟩
  | child b p hp ih =>
    by_cases hm : b ∈ T.path tip
    · exact ⟨b, .of_mem hm, by rw [findForkLoop, if_pos (h.contains_iff.mpr hm)]⟩
    · obtain ⟨c, hc, hl⟩ := ih
      refine ⟨c, hc.of_parent hp hm, ?_⟩
      rw [findForkLoop, if_neg (mt h.contains_iff.mp hm)]
      split
      · next p' hp' =>
        cases hp.symm.trans hp'
        exact hl
      · next hn => rw [hp] at hn; cases hn

theorem Follows.findFork_spec (h : Follows T C tip) (ho : T.OneGenesis) (b : ι) :
    ∃ c, T.IsLastCommon b tip c ∧ C.findFork T (some b) = some c := by
  simp only [findFork, h.height_eq]
  by_cases hg : T.height b > T.height tip
  · obtain ⟨b', hb', hh, ha⟩ := IndexChain.getAncestor_of_le (T := T) hg.le
    obtain ⟨c, hc, hl⟩ := h.findForkLoop_spec ho b'
    refine ⟨c, hc.of_ancestor hb' fun d hd ht => ?_, ?_⟩
    · exact mem_path_of_height_le hd hb' (by have := height_le ht; omega)
    · rw [if_pos (by omega), ha, Option.bind_some, hl]
  · rw [if_neg (by omega)]
    exact h.findForkLoop_spec ho b

/-- After any calls of `SetTip` the chain holds the ancestors of the last tip by their heights and
contains no other block; `FindFork` and `LastCommonAncestor` return the highest common ancestor of
a block and the tip. -/
theorem setTip_follows (T : IndexChain ι) (hone : T.OneGenesis) (calls : List (Option ι))
    (tip : ι) :
    let C := (calls ++ [some tip]).foldl (setTip T) {}
    C.vChain.length = T.height tip + 1 ∧
      (∀ i ≤ T.height tip, ∃ a ∈ T.path tip, T.height a = i ∧ C.vChain[i]? = some (some a)) ∧
      (∀ b, C.contains T b = true ↔ b ∈ T.path tip) ∧
      ∀ b, ∃ c, T.IsLastCommon b tip c ∧ C.findFork T (some b) = some c ∧
        T.lastCommonAncestor b tip = .ok (some c) := by
  intro C
  have h : Follows T C tip := by
    simp only [C, foldl_append, foldl_cons, foldl_nil]
    exact follows_setTip (follows_foldl (.inl rfl) calls) tip
  refine ⟨h.length, fun i hi => ?_, fun b => h.contains_iff, fun b => ?_⟩
  · obtain ⟨a, ha, hh, heq⟩ := IndexChain.exists_ancestorAt (T := T) hi
    have he := h.entry i hi
    have hlt : i < C.vChain.length := by rw [h.length]; omega
    rw [heq, getD_eq_getElem _ _ hlt] at he
    exact ⟨a, ha, hh, by rw [List.getElem?_eq_getElem hlt, he]⟩
  · obtain ⟨c, hc, hf⟩ := h.findFork_spec hone b
    obtain ⟨c', hc', hl⟩ := T.lastCommonAncestor_spec hone b tip
    obtain rfl : c = c' := mem_path_antisymm (hc'.mem_path hc.left hc.right)
      (hc.mem_path hc'.left hc'.right)
    exact ⟨c, hc, hf, hl⟩

def forked : IndexChain (Fin 3) where
  parent b := if b = 0 then none else some 0
  height b := if b = 0 then 0 else 1
  height_parent := by decide
  pskip _ := none
  nTime _ := 0
  height_root := by decide
  buildSkip h := by cases h

/-- The tip moves from one branch to the other. -/
theorem setTip_follows_forked : let C := [some 1, some 2].foldl (setTip forked) {}
    C.contains forked 0 = true ∧ C.contains forked 1 = false ∧ C.contains forked 2 = true := by
  obtain ⟨-, -, hm, -⟩ := setTip_follows forked (by unfold IndexChain.OneGenesis; decide)
    [some 1] 2
  refine ⟨(hm 0).mpr (by decide), ?_, (hm 2).mpr (by decide)⟩
  exact Bool.eq_false_iff.mpr fun h => absurd ((hm 1).mp h) (by decide)

end CChain

end Palladium
