import Palladium.Chain.ActiveChain

/-! # Block locators

`GetLocator` lists hashes at growing distances below a block, `FindForkInGlobalIndex` returns the
first on the receiver's chain.
-/

namespace Palladium.CChain
open Forest List Option
variable {ι : Type*} [DecidableEq ι] (T : IndexChain ι) (C : CChain ι)

/-- The block that the loop of `GetLocator` goes back to. -/
def locatorNext (pindex : ι) (nStep : ℤ) : Option ι :=
  let nHeight := max (T.height pindex - nStep) 0
  if C.contains T pindex then C.get nHeight else T.getAncestor pindex nHeight

/-- The loop of `GetLocator` with `size` entries so far; nothing if it goes on after the given
turns. -/
def locatorLoop : (turns : ℕ) → (pindex : Option ι) → (nStep : ℤ) → (size : ℕ) → Option (List ι)
  | _, none, _, _ => some []
  | 0, some _, _, _ => none
  | turns + 1, some pindex, nStep, size =>
    if T.height pindex = 0 then some [pindex]
    else
      -- the step is a 32-bit number
      let nStep' := if size + 1 > 10 then Int.bmod (nStep * 2) (2 ^ 32) else nStep
      (locatorLoop turns (C.locatorNext T pindex nStep) nStep' (size + 1)).map (pindex :: ·)

/-- `GetLocator`; the loop has at most one turn for each height. -/
def getLocator (hash : ι → Uint256) (pindex : Option ι) : Option (List Uint256) :=
  let pindex := pindex.or C.tip
  (C.locatorLoop T (pindex.elim 0 (T.height · + 1)) pindex 1 0).map (List.map hash)

def findForkInGlobalIndex (lookupBlockIndex : Uint256 → Option ι) : List Uint256 → Option ι
  | [] => C.genesis
  | hash :: vHave =>
    match lookupBlockIndex hash with
    | some pindex =>
      if C.contains T pindex then some pindex
      else if T.getAncestor pindex C.height = C.tip then C.tip
      else findForkInGlobalIndex lookupBlockIndex vHave
    | none => findForkInGlobalIndex lookupBlockIndex vHave

variable {T C} {p b b' tip F : ι}

omit [DecidableEq ι] in
theorem Follows.tip_eq (h : Follows T C tip) : C.tip = some tip := by
  have hl := h.length
  rw [CChain.tip, if_pos (by omega), hl, Nat.add_sub_cancel, h.entry _ le_rfl, ancestorAt_self]

variable {nStep : ℤ} {size : ℕ}

theorem Follows.locatorNext_eq (h : Follows T C tip) (hs : 0 ≤ nStep) (b : ι) :
    C.locatorNext T b nStep = T.ancestorAt b (T.height b - nStep).toNat := by
  have hn : max (T.height b - nStep) 0 = ((T.height b - nStep).toNat : ℤ) := by omega
  unfold locatorNext
  rw [hn]
  dsimp only
  split_ifs with hm
  · have hp := h.contains_iff.mp hm
    have hl := height_le hp
    rw [h.get_eq, if_pos (by omega), ancestorAt_of_mem_path hp (by omega)]
  · exact IndexChain.getAncestor_eq (by omega)

/-- The step is one for the first entries, then it grows with the distance from the start. At the
genesis block it does not matter. -/
def Stepping (T : IndexChain ι) (p b : ι) (nStep : ℤ) (size : ℕ) : Prop :=
  T.height b = 0 ∨
    (size ≤ 10 ∧ nStep = 1 ∧ T.height p = T.height b + size) ∨
    (11 ≤ size ∧ nStep = T.height p - T.height b - 9 ∧ 2 ≤ nStep)

omit [DecidableEq ι] in
theorem Stepping.step_pos (h : Stepping T p b nStep size) (hb : T.height b ≠ 0) : 1 ≤ nStep := by
  rcases h with h | ⟨-, h, -⟩ | ⟨-, -, h⟩
  · exact absurd h hb
  · exact h.ge
  · omega

omit [DecidableEq ι] in
theorem Stepping.next (h : Stepping T p b nStep size) (hp : T.height p < 2 ^ 31)
    (hb : T.height b ≠ 0) (hh : T.height b' = (T.height b - nStep).toNat) :
    T.height b' < T.height b ∧
      (T.height b ≤ T.height b' + 1 ∨ 2 * T.height b ≤ T.height p + T.height b') ∧
      Stepping T p b' (if size + 1 > 10 then Int.bmod (nStep * 2) (2 ^ 32) else nStep)
        (size + 1) := by
  have hpo := h.step_pos hb
  have hw : (T.height b : ℤ) - nStep > 0 → 2 * nStep ≤ T.height p →
      Int.bmod (nStep * 2) (2 ^ 32) = nStep * 2 := by
    intro _ hl
    exact Int.bmod_eq_of_le (by omega) (by omega)
  rcases h with h | ⟨hs, rfl, hd⟩ | ⟨hs, hst, ht⟩
  · exact absurd h hb
  · refine ⟨by omega, by omega, ?_⟩
    unfold Stepping
    split_ifs with hte
    · obtain rfl : size = 10 := by omega
      rcases Nat.eq_zero_or_pos (T.height b') with hz | hpo'
      · exact .inl hz
      · rw [hw (by omega) (by omega)]
        omega
    · omega
  · refine ⟨by omega, by omega, ?_⟩
    unfold Stepping
    rw [if_pos (by omega)]
    rcases Nat.eq_zero_or_pos (T.height b') with hz | hpo'
    · exact .inl hz
    · rw [hw (by omega) (by omega)]
      omega

/-- The blocks of a locator: each is an ancestor of the one before, and further from the start by
one or by at most a factor of two. -/
inductive Spaced (T : IndexChain ι) (p : ι) : ι → List ι → Prop
  | genesis {b : ι} (h : T.height b = 0) : Spaced T p b [b]
  | back {b b' : ι} {l : List ι} (hmem : b' ∈ T.path b) (hlt : T.height b' < T.height b)
      (hgap : T.height b ≤ T.height b' + 1 ∨ 2 * T.height b ≤ T.height p + T.height b')
      (h : Spaced T p b' l) : Spaced T p b (b :: l)

theorem locatorLoop_spec (hp : T.height p < 2 ^ 31) {turns : ℕ} (h : Stepping T p b nStep size)
    (ht : T.height b < turns) :
    ∃ l, Spaced T p b l ∧ ∀ C tip, Follows T C tip →
      C.locatorLoop T turns (some b) nStep size = some l := by
  induction turns generalizing b nStep size with
  | zero => omega
  | succ turns ih =>
    by_cases hb : T.height b = 0
    · exact ⟨[b], .genesis hb, fun C tip _ => by rw [locatorLoop, if_pos hb]⟩
    · obtain ⟨b', hm, hh, ha⟩ := IndexChain.exists_ancestorAt (T := T) (b := b)
        (n := (T.height b - nStep).toNat) (by have := h.step_pos hb; omega)
      obtain ⟨hlt, hg, hn⟩ := h.next hp hb hh
      obtain ⟨l, hl, hlo⟩ := ih hn (by omega)
      refine ⟨b :: l, .back hm hlt hg hl, fun C tip hC => ?_⟩
      have hs : C.locatorNext T b nStep = some b' := by
        rw [hC.locatorNext_eq (by have := h.step_pos hb; omega), ha]
      rw [locatorLoop, if_neg hb, hs]
      dsimp only
      rw [hlo C tip hC]
      rfl

theorem getLocator_spec (hp : T.height p < 2 ^ 31) :
    ∃ l, Spaced T p p l ∧ ∀ C tip, Follows T C tip → ∀ hash : ι → Uint256,
      C.getLocator T hash (some p) = some (l.map hash) := by
  have hs : Stepping T p p 1 0 := .inr (.inl ⟨by omega, rfl, by omega⟩)
  obtain ⟨l, hl, hlo⟩ := locatorLoop_spec hp hs (Nat.lt_succ_self (T.height p))
  refine ⟨l, hl, fun C tip hC hash => ?_⟩
  simp only [getLocator, some_or, elim_some, hlo C tip hC, map_some]

omit [DecidableEq ι] in
theorem Spaced.heights {l : List ι} (h : Spaced T p b l) :
    (∀ c ∈ l, T.height c ≤ T.height b) ∧ (l.map T.height).Pairwise (· > ·) ∧
      ∃ g, l.getLast? = some g ∧ T.parent g = none := by
  induction h with
  | @genesis b hb =>
    refine ⟨by simp, by simp, b, rfl, ?_⟩
    cases hp : T.parent b with
    | none => rfl
    | some q =>
      have := T.height_parent hp
      omega
  | @back b b' l _ hl _ _ ih =>
    obtain ⟨hle, hpa, g, hg, hr⟩ := ih
    refine ⟨?_, ?_, g, ?_, hr⟩
    · rw [forall_mem_cons]
      exact ⟨le_rfl, fun c hc => (hle c hc).trans hl.le⟩
    · rw [map_cons, pairwise_cons]
      refine ⟨fun n hn => ?_, hpa⟩
      obtain ⟨c, hc, rfl⟩ := mem_map.mp hn
      exact (hle c hc).trans_lt hl
    · rw [getLast?_cons, hg]
      rfl

section Receiver
variable {hash : ι → Uint256} {lookup : Uint256 → Option ι}

/-- The receiver knows the ancestors of a block on its chain, and takes none for another one. -/
def Knows (T : IndexChain ι) (hash : ι → Uint256) (lookup : Uint256 → Option ι) (tip p : ι) :
    Prop :=
  ∀ a ∈ T.path p, lookup (hash a) = some a ∨ lookup (hash a) = none ∧ a ∉ T.path tip

theorem findFork_cons_mem (hC : Follows T C tip) (hb : lookup (hash b) = some b)
    (hm : b ∈ T.path tip) (l : List ι) :
    C.findForkInGlobalIndex T lookup ((b :: l).map hash) = some b := by
  simp only [map_cons, findForkInGlobalIndex, hb, if_pos (hC.contains_iff.mpr hm)]

theorem Spaced.findFork {l : List ι} (h : Spaced T p b l) (hC : Follows T C tip)
    (hF : T.IsLastCommon p tip F) (hk : Knows T hash lookup tip p) (hb : b ∈ T.path p)
    (hFb : F ∈ T.path b) :
    ∃ R ∈ T.path F, C.findForkInGlobalIndex T lookup (l.map hash) = some R ∧
      2 * T.height F ≤ T.height p + T.height R := by
  have hFp := height_le hF.left
  have hf : ∀ {a}, a ∈ T.path p → a ∈ T.path tip → lookup (hash a) = some a :=
    fun ha hti => (hk _ ha).resolve_right fun hno => hno.2 hti
  -- the first entry on the chain is the fork
  have hh : ∀ {b l}, b ∈ T.path p → F ∈ T.path b → b ∈ T.path tip →
      ∃ R ∈ T.path F, C.findForkInGlobalIndex T lookup ((b :: l).map hash) = some R ∧
        2 * T.height F ≤ T.height p + T.height R := by
    intro b l hb hFb hm
    obtain rfl : F = b := mem_path_antisymm hFb (hF.mem_path hb hm)
    exact ⟨F, self_mem_path F, findFork_cons_mem hC (hf hb hm) hm l, by omega⟩
  induction h with
  | @genesis b hz =>
    obtain rfl : F = b := eq_of_height_ge hFb (by omega)
    exact hh hb hFb hF.right
  | @back b b' l hm hlt hg hl ih =>
    by_cases hti : b ∈ T.path tip
    · exact hh hb hFb hti
    have hb' := mem_path_trans hm hb
    have hr : ∃ R ∈ T.path F, C.findForkInGlobalIndex T lookup (l.map hash) = some R ∧
        2 * T.height F ≤ T.height p + T.height R := by
      rcases Nat.lt_or_ge (T.height b') (T.height F) with hbe | hab
      · -- the next entry is on the chain already
        have hbF : b' ∈ T.path F := mem_path_of_height_le hm hFb hbe.le
        have hbt := mem_path_trans hbF hF.right
        have hne : T.height F < T.height b := lt_of_le_of_ne (height_le hFb) fun he =>
          hti (eq_of_height_ge hFb he.ge ▸ hF.right)
        refine ⟨b', hbF, ?_, by omega⟩
        cases hl <;> exact findFork_cons_mem hC (hf hb' hbt) hbt _
      · exact ih hb' (mem_path_of_height_le hFb hm hab)
    rw [map_cons, findForkInGlobalIndex]
    rcases hk b hb with hs | ⟨hn, -⟩
    · simp only [hs, if_neg (mt hC.contains_iff.mp hti)]
      split_ifs with han
      · rw [hC.tip_eq, hC.height_eq, IndexChain.getAncestor_eq_some_iff] at han
        have ht := mem_path_trans han.1 hb
        obtain rfl : F = tip := mem_path_antisymm hF.right
          (hF.mem_path ht (self_mem_path tip))
        exact ⟨F, self_mem_path F, hC.tip_eq, by omega⟩
      · exact hr
    · simp only [hn]
      exact hr

/-- The locator of a block is the same on all chains, its heights fall strictly and end at the
genesis block. On the receiver's chain it finds a block not further below the fork than that is
below the block. -/
theorem locator_findFork (T : IndexChain ι) (hC : Follows T C tip) (hp : T.height p < 2 ^ 31)
    (hF : T.IsLastCommon p tip F) (hknown : Knows T hash lookup tip p) :
    ∃ l : List ι,
      (∀ C' tip', Follows T C' tip' → C'.getLocator T hash (some p) = some (l.map hash)) ∧
      (l.map T.height).Pairwise (· > ·) ∧ (∃ g, l.getLast? = some g ∧ T.parent g = none) ∧
      ∃ R, C.findForkInGlobalIndex T lookup (l.map hash) = some R ∧ C.contains T R = true ∧
        R ∈ T.path F ∧ (T.height F : ℤ) - T.height R ≤ T.height p - T.height F := by
  obtain ⟨l, hl, hlo⟩ := getLocator_spec hp
  obtain ⟨-, hpa, hla⟩ := hl.heights
  obtain ⟨R, hR, hf, hb⟩ := hl.findFork hC hF hknown (self_mem_path p) hF.left
  exact ⟨l, fun C' tip' hC' => hlo C' tip' hC' hash, hpa, hla, R, hf,
    hC.contains_iff.mpr (mem_path_trans hR hF.right), hR, by omega⟩

end Receiver

def smallHash (b : Fin 3) : Uint256 := b.val

/-- The block 1 and a chain with the block 2 fork at the genesis block. -/
theorem locator_findFork_forked :
    ∃ l : List (Fin 3), (CChain.setTip forked {} (some 1)).getLocator forked smallHash (some 1) =
        some (l.map smallHash) ∧
      ∃ R, (CChain.setTip forked {} (some 2)).findForkInGlobalIndex forked
          (fun h => (List.finRange 3).find? (smallHash · = h)) (l.map smallHash) = some R ∧
        R ∈ forked.path 0 := by
  obtain ⟨l, hl, -, -, R, hf, -, hR, -⟩ := @locator_findFork (Fin 3) _ _ 1 2 0 smallHash
    (fun h => (List.finRange 3).find? (smallHash · = h)) forked (follows_setTip (.inl rfl) 2)
    (by decide) ⟨by decide, by decide, by decide⟩ (by unfold Knows; decide)
  exact ⟨l, hl _ 1 (follows_setTip (.inl rfl) 1), R, hf, hR⟩

end Palladium.CChain
