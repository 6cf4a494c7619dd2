import Mathlib.Data.Nat.Pairing
import Palladium.Lib.MerkleTree

/-! # Merkle roots

`ComputeMerkleRoot` goes up the levels of the hash tree and looks for equal nodes hashed together,
which hint at repeated transactions (CVE-2012-2459).
-/

namespace Palladium
open MerkleTree
variable {α : Type*} [DecidableEq α] [Zero α] (H : α → α → α)

def computeMerkleRootFrom : (fuel : ℕ) → (hashes : List α) → (mutation : Bool) → α × Bool
  | 0, hashes, mutation => (hashes.headD 0, mutation)
  | fuel + 1, hashes, mutation =>
    if 1 < hashes.length then
      computeMerkleRootFrom fuel (level H hashes) (mutation || hasTwins hashes)
    else (hashes.headD 0, mutation)

def computeMerkleRoot (hashes : List α) : α × Bool :=
  computeMerkleRootFrom H hashes.length hashes false

variable {H}

theorem computeMerkleRootFrom_eq {l : List α} (fuel height : ℕ) (mutation : Bool)
    (hh : height ≤ Nat.clog 2 l.length) (hf : Nat.clog 2 l.length ≤ height + fuel) :
    (computeMerkleRootFrom H fuel (levels H height l) mutation).1 =
        (levels H (Nat.clog 2 l.length) l).headD 0 ∧
      ((computeMerkleRootFrom H fuel (levels H height l) mutation).2 = false ↔
        mutation = false ∧ ∀ k, height ≤ k → hasTwins (levels H k l) = false) := by
  induction fuel generalizing height mutation with
  | zero =>
    obtain rfl : height = Nat.clog 2 l.length := by omega
    exact ⟨rfl, fun h => ⟨h, fun _ => hasTwins_levels_of_clog_le⟩, And.left⟩
  | succ fuel ih =>
    unfold computeMerkleRootFrom
    rw [length_levels]
    split
    · rename_i hl
      rw [one_lt_width_iff] at hl
      rw [← levels_succ]
      obtain ⟨hr, ht⟩ := ih (height + 1) (mutation || hasTwins (levels H height l)) hl
        (by omega)
      refine ⟨hr, ht.trans ?_⟩
      rw [Bool.or_eq_false_iff, and_assoc]
      refine and_congr_right fun _ => ⟨fun h k hk => ?_, fun h => ⟨h height le_rfl, fun k hk =>
        h k (by omega)⟩⟩
      rcases Nat.eq_or_lt_of_le hk with rfl | hk
      · exact h.1
      · exact h.2 k hk
    · rename_i hl
      rw [one_lt_width_iff] at hl
      obtain rfl : height = Nat.clog 2 l.length := by omega
      exact ⟨rfl, fun h => ⟨h, fun _ => hasTwins_levels_of_clog_le⟩, And.left⟩

theorem computeMerkleRoot_fst (l : List α) :
    (computeMerkleRoot H l).1 = (levels H (Nat.clog 2 l.length) l).headD 0 :=
  (computeMerkleRootFrom_eq l.length 0 false (Nat.zero_le _)
    (by simpa using clog_two_le_self l.length)).1

theorem levels_clog_eq {l : List α} (h : l ≠ []) :
    levels H (Nat.clog 2 l.length) l = [(computeMerkleRoot H l).1] := by
  have hle : ¬ 1 < (levels H (Nat.clog 2 l.length) l).length := by
    rw [length_levels, one_lt_width_iff]
    exact lt_irrefl _
  have hp : 0 < (levels H (Nat.clog 2 l.length) l).length := by
    rw [length_levels, lt_width_iff, Nat.zero_mul]
    exact List.length_pos_iff.mpr h
  rw [computeMerkleRoot_fst]
  match hl : levels H (Nat.clog 2 l.length) l with
  | [] => simp [hl] at hp
  | [a] => rfl
  | _ :: _ :: _ => simp [hl] at hle

theorem computeMerkleRoot_snd (l : List α) :
    (computeMerkleRoot H l).2 = false ↔ ∀ k, hasTwins (levels H k l) = false := by
  have h := (computeMerkleRootFrom_eq (H := H) l.length 0 false (Nat.zero_le _)
    (by simpa using clog_two_le_self l.length)).2
  simpa [computeMerkleRoot] using h

/-- Lists of leaves with trees of one height and the same root are equal if no mutation is
reported for either. -/
theorem eq_of_computeMerkleRoot_eq (hH : Function.Injective2 H) {l₁ l₂ : List α} (h₁ : l₁ ≠ [])
    (h₂ : l₂ ≠ []) (hheight : Nat.clog 2 l₁.length = Nat.clog 2 l₂.length)
    (hroot : (computeMerkleRoot H l₁).1 = (computeMerkleRoot H l₂).1)
    (hmut₁ : (computeMerkleRoot H l₁).2 = false) (hmut₂ : (computeMerkleRoot H l₂).2 = false) :
    l₁ = l₂ := by
  have hf : ∀ ps qs : List (α × α), CollisionFree H ps qs :=
    fun _ _ _ _ _ _ h => Prod.ext (hH h).1 (hH h).2
  refine eq_of_levels_eq (fun _ _ => hf _ _) ((computeMerkleRoot_snd l₁).mp hmut₁)
    ((computeMerkleRoot_snd l₂).mp hmut₂) (?_ : levels H (Nat.clog 2 l₁.length) l₁ = _)
  rw [levels_clog_eq h₁, hheight, levels_clog_eq h₂, hroot]

/-- Lists that differ in the last leaf have different roots. -/
theorem eq_of_computeMerkleRoot_eq_sixLeaves : (computeMerkleRoot Nat.pair [1, 2, 3, 4, 5, 7]).1 ≠
      (computeMerkleRoot Nat.pair [1, 2, 3, 4, 5, 6]).1 := by
  intro h
  have he : [1, 2, 3, 4, 5, 7] = [1, 2, 3, 4, 5, 6] :=
    eq_of_computeMerkleRoot_eq (fun _ _ _ _ h => Nat.pair_eq_pair.mp h) (by decide) (by decide) rfl
      h (by decide +kernel) (by decide +kernel)
  exact absurd he (by decide)

end Palladium
