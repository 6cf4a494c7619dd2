import Mathlib.Algebra.Ring.Nat
import Mathlib.Data.List.Infix
import Mathlib.Data.Nat.Log

/-! # Hash trees over lists

The levels of a tree of hashes over a list.
-/

universe u
namespace MerkleTree
open List
variable {α : Type u} (H : α → α → α)

def pairs : List α → List (α × α)
  | [] => []
  | [a] => [(a, a)]
  | a :: b :: l => (a, b) :: pairs l

def level (l : List α) : List α := (pairs l).map fun p => H p.1 p.2

/-- Two nodes that are hashed together are equal, other than at the end of an odd level. -/
def hasTwins [DecidableEq α] : List α → Bool
  | a :: b :: l => a = b || hasTwins l
  | _ => false

def width (n height : ℕ) : ℕ := (n + 2 ^ height - 1) / 2 ^ height

def levels (height : ℕ) (l : List α) : List α := (level H)^[height] l

variable {H} (l : List α)

@[simp] theorem levels_zero : levels H 0 l = l := rfl

theorem levels_succ (height : ℕ) (l : List α) :
    levels H (height + 1) l = level H (levels H height l) :=
  Function.iterate_succ_apply' ..

theorem levels_add (m n : ℕ) (l : List α) : levels H (m + n) l = levels H m (levels H n l) :=
  Function.iterate_add_apply ..

theorem length_pairs : (pairs l).length = (l.length + 1) / 2 := by
  induction l using pairs.induct with
  | case1 => simp [pairs]
  | case2 a => simp [pairs]
  | case3 a b l ih =>
    simp only [pairs, length_cons, ih]
    omega

@[simp] theorem length_level : (level H l).length = (l.length + 1) / 2 := by
  rw [level, length_map, length_pairs]

theorem width_succ (n height : ℕ) : width n (height + 1) = (width n height + 1) / 2 := by
  have hp := Nat.two_pow_pos height
  unfold width
  rw [Nat.pow_succ, ← Nat.div_div_eq_div_mul, show n + 2 ^ height * 2 - 1 =
    (n + 2 ^ height - 1) + 2 ^ height by omega, Nat.add_div_right _ hp]

theorem length_levels (height : ℕ) (l : List α) :
    (levels H height l).length = width l.length height := by
  induction height with
  | zero => simp [width]
  | succ height ih => rw [levels_succ, length_level, ih, width_succ]

theorem getElem?_pairs (i : ℕ) : (pairs l)[i]? = l[2 * i]?.map fun a => (a, l[2 * i + 1]?.getD a) := by
  induction l using pairs.induct generalizing i with
  | case1 => rfl
  | case2 a => cases i <;> simp [pairs]
  | case3 a b l ih =>
    cases i with
    | zero => simp [pairs]
    | succ i => simp [pairs, ih, Nat.mul_succ]

theorem getElem?_level (i : ℕ) :
    (level H l)[i]? = l[2 * i]?.map fun a => H a (l[2 * i + 1]?.getD a) := by
  rw [level, getElem?_map, getElem?_pairs, Option.map_map]
  rfl

theorem hasTwins_eq_false [DecidableEq α] {l : List α} :
    hasTwins l = false ↔ ∀ i a b, l[2 * i]? = some a → l[2 * i + 1]? = some b → a ≠ b := by
  induction l using pairs.induct with
  | case1 => simp [hasTwins]
  | case2 a => simp [hasTwins]
  | case3 a b l ih =>
    simp only [hasTwins, Bool.or_eq_false_iff, decide_eq_false_iff_not, ih]
    constructor
    · rintro ⟨ha, hl⟩ (_ | i) x y hx hy
      · simp only [Nat.mul_zero, getElem?_cons_zero, getElem?_cons_succ, Nat.zero_add,
          Option.some.injEq] at hx hy
        rwa [← hx, ← hy]
      · exact hl i x y (by simpa [Nat.mul_succ] using hx) (by simpa [Nat.mul_succ] using hy)
    · intro h
      refine ⟨h 0 a b rfl rfl, fun i x y hx hy => h (i + 1) x y ?_ ?_⟩
      · simpa [Nat.mul_succ] using hx
      · simpa [Nat.mul_succ] using hy

variable {β : Type u} {height n pos m : ℕ} {l : List β} {l₁ l₂ : List α}

theorem lt_width_iff : pos < width n height ↔ pos * 2 ^ height < n := by
  have hp := Nat.two_pow_pos height
  rw [width, Nat.lt_iff_add_one_le, Nat.le_div_iff_mul_le hp, Nat.add_mul]
  omega

theorem width_clog_pos (h : l ≠ []) : 0 < width l.length (Nat.clog 2 l.length) := by
  rw [lt_width_iff, Nat.zero_mul]
  exact length_pos_iff.mpr h

theorem one_lt_width_iff : 1 < width n height ↔ height < Nat.clog 2 n := by
  rw [lt_width_iff, Nat.one_mul, Nat.lt_clog_iff_pow_lt Nat.one_lt_two]

theorem clog_two_le_self (n : ℕ) : Nat.clog 2 n ≤ n :=
  Nat.clog_le_of_le_pow n.lt_two_pow_self.le

theorem hasTwins_levels_of_clog_le [DecidableEq α] {l : List α} (h : Nat.clog 2 l.length ≤ height) :
    hasTwins (levels H height l) = false := by
  have hle : ¬ 1 < (levels H height l).length := by
    rw [length_levels, one_lt_width_iff]
    omega
  match hl : levels H height l with
  | [] | [_] => rfl
  | _ :: _ :: _ => rw [hl] at hle; simp at hle

def under (height pos : ℕ) (l : List β) : List β := (l.drop (pos * 2 ^ height)).take (2 ^ height)

theorem under_zero (pos : ℕ) (l : List β) : under 0 pos l = l[pos]?.toList := by
  rw [under, Nat.pow_zero, Nat.mul_one, take_one, head?_drop]

theorem under_succ (height pos : ℕ) (l : List β) :
    under (height + 1) pos l = under height (2 * pos) l ++ under height (2 * pos + 1) l := by
  have hl : pos * 2 ^ (height + 1) = 2 * pos * 2 ^ height := by
    rw [Nat.pow_succ, Nat.mul_comm 2 pos, Nat.mul_assoc, Nat.mul_comm 2]
  have hr : (2 * pos + 1) * 2 ^ height = 2 * pos * 2 ^ height + 2 ^ height := Nat.succ_mul ..
  rw [under, under, under, hl, hr, Nat.pow_succ, Nat.mul_two, take_add, drop_drop]

theorem under_map {γ : Type u} (f : β → γ) (height pos : ℕ) (l : List β) :
    under height pos (l.map f) = (under height pos l).map f := by
  rw [under, under, ← map_drop, ← map_take]

theorem under_eq_nil (h : width l.length height ≤ pos) : under height pos l = [] := by
  rw [under, drop_eq_nil_of_le, take_nil]
  exact Nat.not_lt.mp fun hl => Nat.not_lt.mpr h (lt_width_iff.mpr hl)

theorem length_under_pos (h : pos < width l.length height) : 0 < (under height pos l).length := by
  have hp := Nat.two_pow_pos height
  rw [lt_width_iff] at h
  rw [under, length_take, length_drop]
  omega

theorem under_top (h : width l.length height ≤ 1) : under height 0 l = l := by
  have hl : ¬ 1 * 2 ^ height < l.length := fun hl => Nat.not_lt.mpr h (lt_width_iff.mpr hl)
  rw [under, Nat.zero_mul, drop_zero, take_of_length_le]
  omega

def CollisionFree (H : α → α → α) (ps qs : List (α × α)) : Prop :=
  ∀ p ∈ ps, ∀ q ∈ qs, H p.1 p.2 = H q.1 q.2 → p = q

theorem map_eq_map_of_imp {β γ δ : Type*} {f : β → γ} {g : β → δ} {l₁ l₂ : List β}
    (hf : ∀ a ∈ l₁, ∀ b ∈ l₂, f a = f b → g a = g b) (h : l₁.map f = l₂.map f) :
    l₁.map g = l₂.map g := by
  induction l₁ generalizing l₂ with
  | nil => rw [map_eq_nil_iff.mp h.symm]
  | cons a l₁ ih =>
    cases l₂ with
    | nil => cases h
    | cons b l₂ =>
      rw [map_cons, map_cons, List.cons.injEq] at h ⊢
      exact ⟨hf a (by simp) b (by simp) h.1,
        ih (fun a ha b hb => hf a (by simp [ha]) b (by simp [hb])) h.2⟩

theorem pairs_eq_of_level_eq (hfree : CollisionFree H (pairs l₁) (pairs l₂))
    (h : level H l₁ = level H l₂) : pairs l₁ = pairs l₂ := by
  simpa using map_eq_map_of_imp hfree h

theorem eq_of_pairs_eq [DecidableEq α] (h : pairs l₁ = pairs l₂) (h₁ : hasTwins l₁ = false)
    (h₂ : hasTwins l₂ = false) : l₁ = l₂ := by
  induction l₁ using pairs.induct generalizing l₂ with
  | case1 =>
    match l₂ with
    | [] => rfl
    | [_] | _ :: _ :: _ => simp [pairs] at h
  | case2 a =>
    match l₂ with
    | [] => simp [pairs] at h
    | [c] => simpa [pairs] using h
    | c :: d :: l₂ =>
      simp only [pairs, List.cons.injEq, Prod.mk.injEq] at h
      simp [hasTwins, ← h.1.1, ← h.1.2] at h₂
  | case3 a b l ih =>
    match l₂ with
    | [] => simp [pairs] at h
    | [c] =>
      simp only [pairs, List.cons.injEq, Prod.mk.injEq] at h
      simp [hasTwins, h.1.1, h.1.2] at h₁
    | c :: d :: l₂ =>
      simp only [pairs, List.cons.injEq, Prod.mk.injEq] at h
      simp only [hasTwins, Bool.or_eq_false_iff] at h₁ h₂
      rw [h.1.1, h.1.2, ih h.2 h₁.2 h₂.2]

theorem eq_of_pairs_eq_of_length (h : pairs l₁ = pairs l₂) (hl : l₁.length = l₂.length) : l₁ = l₂ := by
  induction l₁ using pairs.induct generalizing l₂ with
  | case1 => exact (length_eq_zero_iff.mp hl.symm).symm
  | case2 a =>
    match l₂, hl with
    | [c], _ => simpa [pairs] using h
  | case3 a b l ih =>
    match l₂, hl with
    | c :: d :: l₂, hl =>
      simp only [pairs, List.cons.injEq, Prod.mk.injEq] at h
      rw [h.1.1, h.1.2, ih h.2 (by simpa using hl)]

/-- A level determines the leaves below it if nothing collides and no equal nodes are hashed
together. -/
theorem eq_of_levels_eq [DecidableEq α]
    (hfree : ∀ k < height, CollisionFree H (pairs (levels H k l₁)) (pairs (levels H k l₂)))
    (h₁ : ∀ k, hasTwins (levels H k l₁) = false) (h₂ : ∀ k, hasTwins (levels H k l₂) = false)
    (h : levels H height l₁ = levels H height l₂) : l₁ = l₂ := by
  induction height with
  | zero => exact h
  | succ height ih =>
    rw [levels_succ, levels_succ] at h
    refine ih (fun k hk => hfree k (by omega)) ?_
    exact eq_of_pairs_eq (pairs_eq_of_level_eq (hfree height (by omega)) h) (h₁ height) (h₂ height)

section Twins
variable [DecidableEq α]
  (hfree : ∀ j < m, ∀ k < n, CollisionFree H (pairs (levels H j l₁)) (pairs (levels H k l₂)))
  (h₁ : ∀ k, hasTwins (levels H k l₁) = false) (h₂ : ∀ k, hasTwins (levels H k l₂) = false)
include hfree h₁ h₂

/-- A list of leaves that are not nodes of the other tree has no tree of a smaller height with the
same top. -/
theorem eq_of_levels_eq_of_le (hn : l₁ ≠ []) (hl : ∀ a ∈ l₁, ∀ k < n, a ∉ levels H (k + 1) l₂)
    (hm : m ≤ n) (h : levels H m l₁ = levels H n l₂) : l₁ = l₂ := by
  obtain ⟨d, rfl⟩ := Nat.exists_eq_add_of_le hm
  rw [levels_add] at h
  have he : l₁ = levels H d l₂ := by
    refine eq_of_levels_eq (fun k hk => ?_) h₁ (fun k => ?_) h
    · rw [← levels_add]
      exact hfree k hk _ (by omega)
    · rw [← levels_add]
      exact h₂ _
  cases d with
  | zero => exact he
  | succ d =>
    obtain ⟨a, ha⟩ := exists_mem_of_ne_nil l₁ hn
    exact absurd (he ▸ ha) (hl a ha d (by omega))

theorem eq_of_root_eq (hn₁ : l₁ ≠ []) (hn₂ : l₂ ≠ [])
    (hl₁ : ∀ a ∈ l₁, ∀ k < n, a ∉ levels H (k + 1) l₂)
    (hl₂ : ∀ a ∈ l₂, ∀ k < m, a ∉ levels H (k + 1) l₁) (h : levels H m l₁ = levels H n l₂) :
    l₁ = l₂ := by
  rcases le_total m n with hm | hm
  · exact eq_of_levels_eq_of_le hfree h₁ h₂ hn₁ hl₁ hm h
  · refine (eq_of_levels_eq_of_le (fun j hj k hk p hp q hq hpq => ?_) h₂ h₁ hn₂ hl₂ hm
      h.symm).symm
    exact (hfree k hk j hj q hq p hp hpq.symm).symm

end Twins

theorem eq_of_levels_eq_of_length
    (hfree : ∀ k < height, CollisionFree H (pairs (levels H k l₁)) (pairs (levels H k l₂)))
    (hl : l₁.length = l₂.length) (h : levels H height l₁ = levels H height l₂) : l₁ = l₂ := by
  induction height with
  | zero => exact h
  | succ height ih =>
    rw [levels_succ, levels_succ] at h
    refine ih (fun k hk => hfree k (by omega)) ?_
    refine eq_of_pairs_eq_of_length (pairs_eq_of_level_eq (hfree height (by omega)) h) ?_
    rw [length_levels, length_levels, hl]

end MerkleTree
