import Palladium.Consensus.TxVerify
import Palladium.Merkle.Root

/-! # Partial merkle trees

A `CPartialMerkleTree` stands for a part of the hash tree of a block: a depth-first walk records a
bit for every node visited, and a hash where it does not descend.
-/

namespace Palladium
open List MerkleTree Option

def minTransactionWeight : ℕ := witnessScaleFactor * 60

structure CPartialMerkleTree (α : Type*) where
  nTransactions : ℕ
  vBits : List Bool
  vHash : List α
  fBad : Bool
  deriving DecidableEq, Repr

def calcTreeWidth (nTransactions height : ℕ) : ℕ :=
  (nTransactions + (1 <<< height) - 1) >>> height

/-- `while (CalcTreeWidth(nHeight) > 1) nHeight++`, at most `fuel` times. -/
def calcTreeHeight (nTransactions : ℕ) : (fuel nHeight : ℕ) → ℕ
  | 0, nHeight => nHeight
  | fuel + 1, nHeight =>
    if 1 < calcTreeWidth nTransactions nHeight then calcTreeHeight nTransactions fuel (nHeight + 1)
    else nHeight

section Build
variable {α : Type*} [Zero α] (H : α → α → α) (vTxid : List α) (vMatch : List Bool)

def calcHash : (height pos : ℕ) → α
  | 0, pos => vTxid.getD pos 0
  | height + 1, pos =>
    let left := calcHash height (pos * 2)
    H left (if pos * 2 + 1 < calcTreeWidth vTxid.length height then calcHash height (pos * 2 + 1)
      else left)

def parentOfMatch (height pos : ℕ) : Bool :=
  ((vMatch.drop (pos <<< height)).take (1 <<< height)).any id

def traverseAndBuild : (height pos : ℕ) → List Bool × List α
  | 0, pos => ([parentOfMatch vMatch 0 pos], [calcHash H vTxid 0 pos])
  | height + 1, pos =>
    if parentOfMatch vMatch (height + 1) pos then
      let left := traverseAndBuild height (pos * 2)
      let right := if pos * 2 + 1 < calcTreeWidth vTxid.length height then
        traverseAndBuild height (pos * 2 + 1) else ([], [])
      (true :: (left.1 ++ right.1), left.2 ++ right.2)
    else ([false], [calcHash H vTxid (height + 1) pos])

def CPartialMerkleTree.ofMatches : CPartialMerkleTree α :=
  let built := traverseAndBuild H vTxid vMatch (calcTreeHeight vTxid.length vTxid.length 0) 0
  { nTransactions := vTxid.length, vBits := built.1, vHash := built.2, fBad := false }

end Build

section Extract
variable {α : Type*} [DecidableEq α] [Zero α] (H : α → α → α)

/-- The variables that `TraverseAndExtract` updates. -/
structure ExtractState (α : Type*) where
  nBitsUsed : ℕ := 0
  nHashUsed : ℕ := 0
  vMatch : List α := []
  vnIndex : List ℕ := []
  fBad : Bool
  deriving DecidableEq, Repr

namespace ExtractState
variable {α : Type*}

def report (s : ExtractState α) (hash : α) (pos : ℕ) : ExtractState α :=
  { s with vMatch := s.vMatch ++ [hash], vnIndex := s.vnIndex ++ [pos] }

def bad (s : ExtractState α) : ExtractState α := { s with fBad := true }

end ExtractState

namespace CPartialMerkleTree
variable (t : CPartialMerkleTree α)

/-- Use the next hash; a leaf that is matched is reported. -/
def useHash (isMatch : Bool) (pos : ℕ) (s : ExtractState α) : α × ExtractState α :=
  match t.vHash[s.nHashUsed]? with
  | none => (0, s.bad)
  | some hash =>
    let s := { s with nHashUsed := s.nHashUsed + 1 }
    (hash, if isMatch then s.report hash pos else s)

def combine (left right : α) (s : ExtractState α) : α × ExtractState α :=
  (H left right, if right = left then s.bad else s)

def traverseAndExtract : (height pos : ℕ) → ExtractState α → α × ExtractState α
  | 0, pos, s =>
    match t.vBits[s.nBitsUsed]? with
    | none => (0, s.bad)
    | some fParentOfMatch =>
      useHash t fParentOfMatch pos { s with nBitsUsed := s.nBitsUsed + 1 }
  | height + 1, pos, s =>
    match t.vBits[s.nBitsUsed]? with
    | none => (0, s.bad)
    | some false => useHash t false pos { s with nBitsUsed := s.nBitsUsed + 1 }
    | some true =>
      let left := traverseAndExtract height (pos * 2) { s with nBitsUsed := s.nBitsUsed + 1 }
      if pos * 2 + 1 < calcTreeWidth t.nTransactions height then
        let right := traverseAndExtract height (pos * 2 + 1) left.2
        combine H left.1 right.1 right.2
      else (H left.1 left.1, left.2)

def isPlausible : Bool :=
  t.nTransactions ≠ 0 && t.nTransactions ≤ maxBlockWeight / minTransactionWeight &&
    t.vHash.length ≤ t.nTransactions && t.vHash.length ≤ t.vBits.length

/-- `ExtractMatches`: the root, or zero, with what is in the vectors then. Only `vMatch` is cleared
before. -/
def extractMatches (vnIndex : List ℕ) : α × List α × List ℕ :=
  if t.isPlausible then
    let nHeight := calcTreeHeight t.nTransactions t.nTransactions 0
    let (hashMerkleRoot, s) := traverseAndExtract H t nHeight 0 { vnIndex, fBad := t.fBad }
    let valid := !s.fBad && (s.nBitsUsed + 7) / 8 = (t.vBits.length + 7) / 8 &&
      s.nHashUsed = t.vHash.length
    (if valid then hashMerkleRoot else 0, s.vMatch, s.vnIndex)
  else (0, [], vnIndex)

end CPartialMerkleTree

end Extract

theorem calcTreeWidth_eq (nTransactions height : ℕ) :
    calcTreeWidth nTransactions height = width nTransactions height := by
  rw [calcTreeWidth, width, Nat.shiftRight_eq_div_pow, Nat.one_shiftLeft]

theorem calcTreeHeight_eq {nTransactions fuel nHeight : ℕ}
    (hh : nHeight ≤ Nat.clog 2 nTransactions)
    (hf : Nat.clog 2 nTransactions ≤ nHeight + fuel) :
    calcTreeHeight nTransactions fuel nHeight = Nat.clog 2 nTransactions := by
  induction fuel generalizing nHeight with
  | zero => exact le_antisymm hh hf
  | succ fuel ih =>
    rw [calcTreeHeight, calcTreeWidth_eq]
    split
    · rename_i hlt
      exact ih (one_lt_width_iff.mp hlt) (by omega)
    · rename_i hlt
      exact le_antisymm hh (Nat.not_lt.mp (mt one_lt_width_iff.mpr hlt))

theorem calcTreeHeight_self (nTransactions : ℕ) :
    calcTreeHeight nTransactions nTransactions 0 = Nat.clog 2 nTransactions :=
  calcTreeHeight_eq (Nat.zero_le _) (by simpa using clog_two_le_self nTransactions)

section Nodes
variable {α : Type*} [Zero α] {H : α → α → α} {vTxid : List α} {height pos : ℕ}

theorem two_mul_lt_width {n : ℕ} (h : pos < width n (height + 1)) : pos * 2 < width n height := by
  rw [width_succ] at h
  omega

theorem getElem?_levels (h : pos < width vTxid.length height) :
    (levels H height vTxid)[pos]? = some (calcHash H vTxid height pos) := by
  induction height generalizing pos with
  | zero =>
    have hp : pos < vTxid.length := by simpa [width] using h
    simp [calcHash, hp]
  | succ height ih =>
    rw [levels_succ, getElem?_level, Nat.mul_comm, ih (two_mul_lt_width h), calcHash, map_some,
      calcTreeWidth_eq]
    split
    · rename_i hright
      rw [ih hright, getD_some]
    · rename_i hright
      rw [List.getElem?_eq_none (by rw [length_levels]; omega), getD_none]

theorem mem_pairs_levels (h : pos < width vTxid.length (height + 1)) :
    (calcHash H vTxid height (pos * 2),
      if pos * 2 + 1 < width vTxid.length height then calcHash H vTxid height (pos * 2 + 1)
      else calcHash H vTxid height (pos * 2)) ∈ pairs (levels H height vTxid) := by
  refine mem_of_getElem? (i := pos) ?_
  rw [getElem?_pairs, Nat.mul_comm, getElem?_levels (two_mul_lt_width h), map_some]
  split
  · rename_i hright
    rw [getElem?_levels hright, getD_some]
  · rename_i hright
    rw [List.getElem?_eq_none (by rw [length_levels]; omega), getD_none]

theorem calcHash_top [DecidableEq α] (h : vTxid ≠ []) :
    calcHash H vTxid (Nat.clog 2 vTxid.length) 0 = (computeMerkleRoot H vTxid).1 := by
  have hp := width_clog_pos h
  rw [computeMerkleRoot_fst, headD_eq_head?_getD, List.head?_eq_getElem?,
    getElem?_levels hp, getD_some]

end Nodes

section Reports
variable {α : Type*}

/-- From `s` to `s'` the leaves `ms` were reported, in order and all below the node. -/
structure Reported (height pos : ℕ) (s s' : ExtractState α) (ms : List (ℕ × α)) : Prop where
  vnIndex : s'.vnIndex = s.vnIndex ++ ms.map Prod.fst
  vMatch : s'.vMatch = s.vMatch ++ ms.map Prod.snd
  increasing : (ms.map Prod.fst).Pairwise (· < ·)
  below : ∀ m ∈ ms, pos * 2 ^ height ≤ m.1 ∧ m.1 < (pos + 1) * 2 ^ height

namespace Reported
variable {height pos : ℕ} {s s₁ s₂ : ExtractState α} {ms ms₁ ms₂ : List (ℕ × α)}

theorem nothing (hv : s₁.vnIndex = s.vnIndex) (hvm : s₁.vMatch = s.vMatch) :
    Reported height pos s s₁ [] :=
  ⟨by simp [hv], by simp [hvm], .nil, nofun⟩

theorem left (h : Reported height (pos * 2) s s₁ ms) : Reported (height + 1) pos s s₁ ms := by
  refine ⟨h.vnIndex, h.vMatch, h.increasing, fun m hm => ?_⟩
  have hm := h.below m hm
  rw [Nat.pow_succ, Nat.mul_comm _ 2, ← Nat.mul_assoc, ← Nat.mul_assoc]
  constructor
  · exact hm.1
  · refine hm.2.trans_le (Nat.mul_le_mul_right _ ?_)
    omega

theorem append (h₁ : Reported height (pos * 2) s s₁ ms₁)
    (h₂ : Reported height (pos * 2 + 1) s₁ s₂ ms₂) :
    Reported (height + 1) pos s s₂ (ms₁ ++ ms₂) := by
  refine ⟨by simp [h₂.vnIndex, h₁.vnIndex], by simp [h₂.vMatch, h₁.vMatch], ?_, fun m hm => ?_⟩
  · rw [map_append, pairwise_append]
    refine ⟨h₁.increasing, h₂.increasing, ?_⟩
    intro i hi j hj
    obtain ⟨m₁, hm₁, rfl⟩ := mem_map.mp hi
    obtain ⟨m₂, hm₂, rfl⟩ := mem_map.mp hj
    exact (h₁.below m₁ hm₁).2.trans_le (h₂.below m₂ hm₂).1
  · rw [Nat.pow_succ, Nat.mul_comm _ 2, ← Nat.mul_assoc, ← Nat.mul_assoc, Nat.add_mul pos 1 2]
    rcases mem_append.mp hm with hm | hm
    · have hm := h₁.below m hm
      exact ⟨hm.1, hm.2.trans_le (Nat.mul_le_mul_right _ (Nat.le_succ _))⟩
    · have hm := h₂.below m hm
      exact ⟨(Nat.mul_le_mul_right _ (Nat.le_succ _)).trans hm.1, hm.2⟩

theorem single {hash : α} (hv : s₁.vnIndex = s.vnIndex ++ [pos])
    (hvm : s₁.vMatch = s.vMatch ++ [hash]) : Reported 0 pos s s₁ [(pos, hash)] :=
  ⟨hv, hvm, pairwise_singleton .., by simp⟩

end Reported

end Reports

section Soundness
variable {α : Type*} [DecidableEq α] [Zero α] {H : α → α → α} {t : CPartialMerkleTree α}
  {vTxid : List α}

/-- No other pair has the hash of a pair hashed in the tree over the list, as with an injective
hash. -/
def NoSecondPreimage (H : α → α → α) (l : List α) : Prop :=
  ∀ k < Nat.clog 2 l.length, ∀ p ∈ pairs (levels H k l), ∀ a b, H a b = H p.1 p.2 → (a, b) = p

omit [Zero α] in
theorem vnIndex_combine {left right : α} {s : ExtractState α} :
    (CPartialMerkleTree.combine H left right s).2.vnIndex = s.vnIndex := by
  unfold CPartialMerkleTree.combine
  split <;> rfl

omit [Zero α] in
theorem vMatch_combine {left right : α} {s : ExtractState α} :
    (CPartialMerkleTree.combine H left right s).2.vMatch = s.vMatch := by
  unfold CPartialMerkleTree.combine
  split <;> rfl

theorem traverseAndExtract_sound (ht : t.nTransactions = vTxid.length)
    (hb : NoSecondPreimage H vTxid) {height pos : ℕ}
    (hhe : height ≤ Nat.clog 2 vTxid.length) (hpo : pos < width vTxid.length height)
    (s : ExtractState α) :
    ∃ ms, Reported height pos s (t.traverseAndExtract H height pos s).2 ms ∧
      ((t.traverseAndExtract H height pos s).1 = calcHash H vTxid height pos →
        ∀ m ∈ ms, vTxid[m.1]? = some m.2) := by
  induction height generalizing pos s with
  | zero =>
    unfold CPartialMerkleTree.traverseAndExtract
    cases t.vBits[s.nBitsUsed]? with
    | none => exact ⟨[], .nothing rfl rfl, fun _ => nofun⟩
    | some isMatch =>
      simp only [CPartialMerkleTree.useHash]
      cases t.vHash[s.nHashUsed]? with
      | none => exact ⟨[], .nothing rfl rfl, fun _ => nofun⟩
      | some hash =>
        cases isMatch with
        | false => exact ⟨[], .nothing rfl rfl, fun _ => nofun⟩
        | true =>
          refine ⟨[(pos, hash)], .single rfl rfl, fun hh m hm => ?_⟩
          rw [mem_singleton.mp hm]
          exact (getElem?_levels hpo).trans (congrArg some hh.symm)
  | succ height ih =>
    unfold CPartialMerkleTree.traverseAndExtract
    match t.vBits[s.nBitsUsed]? with
    | none => exact ⟨[], .nothing rfl rfl, fun _ => nofun⟩
    | some false =>
      refine ⟨[], .nothing ?_ ?_, fun _ => nofun⟩ <;>
        cases h : t.vHash[s.nHashUsed]? <;> simp [CPartialMerkleTree.useHash, h, ExtractState.bad]
    | some true =>
      have hp := mem_pairs_levels (H := H) hpo
      have hl := two_mul_lt_width hpo
      rw [calcTreeWidth_eq, ht, calcHash, calcTreeWidth_eq]
      obtain ⟨ms₁, hms₁, hs₁⟩ := ih (by omega) hl { s with nBitsUsed := s.nBitsUsed + 1 }
      dsimp only
      split
      · rename_i hr
        obtain ⟨ms₂, hms₂, hs₂⟩ := ih (by omega) hr
          (t.traverseAndExtract H height (pos * 2) { s with nBitsUsed := s.nBitsUsed + 1 }).2
        refine ⟨ms₁ ++ ms₂, ?_, fun hh m hm => ?_⟩
        · have h := hms₁.append hms₂
          exact ⟨vnIndex_combine.trans h.vnIndex, vMatch_combine.trans h.vMatch, h.increasing,
            h.below⟩
        · rw [if_pos hr] at hp
          have he := hb height (by omega) _ hp _ _ hh
          rw [Prod.mk.injEq] at he
          rcases mem_append.mp hm with hm | hm
          · exact hs₁ he.1 m hm
          · exact hs₂ he.2 m hm
      · rename_i hr
        refine ⟨ms₁, ?_, fun hh m hm => ?_⟩
        · exact ⟨hms₁.left.vnIndex, hms₁.left.vMatch, hms₁.left.increasing, hms₁.left.below⟩
        · rw [if_neg hr] at hp
          have he := hb height (by omega) _ hp _ _ hh
          rw [Prod.mk.injEq] at he
          exact hs₁ he.1 m hm

/-- The proof is bound to the root: what is reported beside the root of a list are entries of the
list at their positions, each once and in order. -/
theorem extractMatches_sound (H : α → α → α) (L : List α) (hne : L ≠ [])
    (hbind : NoSecondPreimage H L) (t : CPartialMerkleTree α) (ht : t.nTransactions = L.length)
    (vnIndex : List ℕ) (hroot : (t.extractMatches H vnIndex).1 = (computeMerkleRoot H L).1)
    (hnull : (computeMerkleRoot H L).1 ≠ 0) :
    ∃ ms : List (ℕ × α), (t.extractMatches H vnIndex).2.2 = vnIndex ++ ms.map Prod.fst ∧
      (t.extractMatches H vnIndex).2.1 = ms.map Prod.snd ∧
      (∀ m ∈ ms, ∃ h : m.1 < L.length, m.2 = L[m.1]) ∧ (ms.map Prod.fst).Pairwise (· < ·) := by
  rw [← hroot] at hnull
  unfold CPartialMerkleTree.extractMatches at hroot hnull ⊢
  split at hnull
  · rename_i hplausible
    rw [if_pos hplausible] at hroot ⊢
    rw [calcTreeHeight_self, ht] at hroot hnull ⊢
    have hp := width_clog_pos hne
    obtain ⟨ms, hms, hs⟩ := traverseAndExtract_sound ht hbind le_rfl hp
      { vnIndex, fBad := t.fBad }
    refine ⟨ms, hms.vnIndex, hms.vMatch, fun m hm => ?_, hms.increasing⟩
    dsimp only at hroot hnull
    split at hnull
    · rename_i hvalid
      rw [if_pos hvalid, ← calcHash_top hne] at hroot
      obtain ⟨hl, he⟩ := List.getElem?_eq_some_iff.mp (hs hroot m hm)
      exact ⟨hl, he.symm⟩
    · exact absurd rfl hnull
  · exact absurd rfl hnull

/-- The three leaves 5, 6 and 7 with an injective hash, and a proof for the second. -/
theorem extractMatches_sound_second : ∃ ms : List (ℕ × ℕ),
      ((CPartialMerkleTree.ofMatches (fun a b => Nat.pair a b + 1) [5, 6, 7]
        [false, true, false]).extractMatches (fun a b => Nat.pair a b + 1) []).2.2 =
          [] ++ ms.map Prod.fst ∧
      ((CPartialMerkleTree.ofMatches (fun a b => Nat.pair a b + 1) [5, 6, 7]
        [false, true, false]).extractMatches (fun a b => Nat.pair a b + 1) []).2.1 =
          ms.map Prod.snd ∧
      (∀ m ∈ ms, ∃ h : m.1 < [5, 6, 7].length, m.2 = [5, 6, 7][m.1]) ∧
      (ms.map Prod.fst).Pairwise (· < ·) := by
  refine extractMatches_sound (fun a b => Nat.pair a b + 1) [5, 6, 7] (by decide) ?_ _ rfl [] ?_ ?_
  · intro k _ p _ a b h
    obtain ⟨ha, hb⟩ := Nat.pair_eq_pair.mp (Nat.succ_injective h)
    exact Prod.ext ha hb
  · decide +kernel
  · decide +kernel

end Soundness

end Palladium
