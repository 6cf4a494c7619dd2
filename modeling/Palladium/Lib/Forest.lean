import Mathlib.Data.List.Basic
import Mathlib.Order.Nat

/-! # Forests of parent pointers

A node knows its parent and its height.
-/

/-- Nodes with parent pointers; heights grow by one along each pointer. -/
structure Forest (ι : Type*) where
  parent : ι → Option ι
  height : ι → ℕ
  height_parent : ∀ {b p}, parent b = some p → height b = height p + 1

-- Literals of `Fin 3` to `Fin 5` use these.
instance neZero3 : @NeZero ℕ Zero.ofOfNat0 3 := ⟨nofun⟩

instance neZero4 : @NeZero ℕ Zero.ofOfNat0 4 := ⟨nofun⟩

instance neZero5 : @NeZero ℕ Zero.ofOfNat0 5 := ⟨nofun⟩

namespace Forest
open List
variable {ι : Type*} (T : Forest ι)

def climb : ℕ → ι → List ι
  | 0, b => [b]
  | n + 1, b =>
    match T.parent b with
    | none => [b]
    | some p => b :: climb n p

def path (b : ι) : List ι := T.climb (T.height b) b

variable {T} {a b c p : ι}

theorem path_root (h : T.parent b = none) : T.path b = [b] := by
  unfold path
  cases T.height b <;> simp [climb, h]

theorem path_child (h : T.parent b = some p) : T.path b = b :: T.path p := by
  unfold path
  rw [T.height_parent h, climb, h]

@[elab_as_elim]
theorem induction {P : ι → Prop} (root : ∀ b, T.parent b = none → P b)
    (child : ∀ b p, T.parent b = some p → P p → P b) (b : ι) : P b := by
  induction hn : T.height b generalizing b with
  | zero =>
    cases h : T.parent b with
    | none => exact root b h
    | some p => have := T.height_parent h; omega
  | succ n ih =>
    cases h : T.parent b with
    | none => exact root b h
    | some p => exact child b p h (ih p (by have := T.height_parent h; omega))

theorem exists_root (b : ι) : ∃ r ∈ T.path b, T.parent r = none := by
  induction b using T.induction with
  | root b h => exact ⟨b, by simp [path_root h], h⟩
  | child b p h ih =>
    obtain ⟨r, hr, hro⟩ := ih
    exact ⟨r, by simp [path_child h, hr], hro⟩

theorem self_mem_path (b : ι) : b ∈ T.path b := by
  cases h : T.parent b with
  | none => simp [path_root h]
  | some p => simp [path_child h]

theorem mem_path_child (h : T.parent b = some p) : a ∈ T.path b ↔ a = b ∨ a ∈ T.path p := by
  rw [path_child h, mem_cons]

theorem mem_path_root (h : T.parent b = none) : a ∈ T.path b ↔ a = b := by
  rw [path_root h, mem_singleton]

theorem parent_mem_path (h : T.parent b = some p) : p ∈ T.path b :=
  (mem_path_child h).mpr (.inr (self_mem_path p))

theorem mem_path_trans (ha : a ∈ T.path b) (hb : b ∈ T.path c) : a ∈ T.path c := by
  induction c using T.induction with
  | root c h => rw [(mem_path_root h).mp hb] at ha; exact ha
  | child c p h ih =>
    rcases (mem_path_child h).mp hb with rfl | hbp
    · exact ha
    · exact (mem_path_child h).mpr (.inr (ih hbp))

theorem height_le (h : a ∈ T.path b) : T.height a ≤ T.height b := by
  induction b using T.induction with
  | root b hb => rw [(mem_path_root hb).mp h]
  | child b p hb ih =>
    rcases (mem_path_child hb).mp h with rfl | h
    · exact le_rfl
    · exact (ih h).trans (by have := T.height_parent hb; omega)

theorem eq_of_height_ge (h : a ∈ T.path b) (hh : T.height b ≤ T.height a) : a = b := by
  cases hb : T.parent b with
  | none => exact (mem_path_root hb).mp h
  | some p =>
    rcases (mem_path_child hb).mp h with rfl | h
    · rfl
    · have := height_le h; have := T.height_parent hb; omega

theorem mem_path_antisymm (ha : a ∈ T.path b) (hb : b ∈ T.path a) : a = b :=
  eq_of_height_ge ha (height_le hb)

theorem mem_path_of_height_le (ha : a ∈ T.path c) (hb : b ∈ T.path c)
    (h : T.height a ≤ T.height b) : a ∈ T.path b := by
  induction c using T.induction with
  | root c hc => rw [(mem_path_root hc).mp ha, (mem_path_root hc).mp hb]; exact self_mem_path c
  | child c p hc ih =>
    rcases (mem_path_child hc).mp hb with rfl | hb'
    · exact ha
    · rcases (mem_path_child hc).mp ha with rfl | ha'
      · have := height_le hb'; have := T.height_parent hc; omega
      · exact ih ha' hb'

theorem eq_of_height_eq (ha : a ∈ T.path c) (hb : b ∈ T.path c)
    (h : T.height a = T.height b) : a = b :=
  eq_of_height_ge (mem_path_of_height_le ha hb h.le) h.ge

theorem mem_path_parent (h : a ∈ T.path b) (hn : a ≠ b) : ∃ p, T.parent b = some p ∧ a ∈ T.path p := by
  cases hb : T.parent b with
  | none => exact absurd ((mem_path_root hb).mp h) hn
  | some p => exact ⟨p, rfl, ((mem_path_child hb).mp h).resolve_left hn⟩

theorem exists_child_on_path (h : a ∈ T.path b) (hn : a ≠ b) : ∃ c ∈ T.path b, T.parent c = some a := by
  induction b using T.induction with
  | root b hb => exact absurd ((mem_path_root hb).mp h) hn
  | child b p hb ih =>
    rcases (mem_path_child hb).mp h with rfl | h
    · exact absurd rfl hn
    · rcases eq_or_ne a p with rfl | ha
      · exact ⟨b, self_mem_path b, hb⟩
      · obtain ⟨c, hc, hca⟩ := ih h ha
        exact ⟨c, (mem_path_child hb).mpr (.inr hc), hca⟩

theorem descends {P : ι → Prop} (step : ∀ b p, T.parent b = some p → P p → P b)
    (hab : a ∈ T.path b) (ha : P a) : P b := by
  induction b using T.induction with
  | root b hb => rwa [← (mem_path_root hb).mp hab]
  | child b p hb ih =>
    rcases (mem_path_child hb).mp hab with rfl | h
    · exact ha
    · exact step b p hb (ih h)

theorem exists_mem_path_height {n : ℕ} (h : a ∈ T.path b) (ha : T.height a ≤ n)
    (hb : n ≤ T.height b) : ∃ c ∈ T.path b, T.height c = n := by
  induction b using T.induction with
  | root b hr => exact ⟨b, self_mem_path b, by rw [(mem_path_root hr).mp h] at ha; omega⟩
  | child b p hp ih =>
    rcases (mem_path_child hp).mp h with rfl | h'
    · exact ⟨_, self_mem_path _, by omega⟩
    · rcases Nat.lt_or_ge n (T.height b) with hn | hn
      · obtain ⟨c, hc, hcn⟩ := ih h' (by have := T.height_parent hp; omega)
        exact ⟨c, (mem_path_child hp).mpr (.inr hc), hcn⟩
      · exact ⟨b, self_mem_path b, by omega⟩

theorem exists_append_path (h : a ∈ T.path b) :
    ∃ l, T.path b = l ++ T.path a ∧ l.length + T.height a = T.height b := by
  induction b using T.induction with
  | root b hb =>
    rw [(mem_path_root hb).mp h]
    exact ⟨[], rfl, Nat.zero_add _⟩
  | child b p hp ih =>
    rcases (mem_path_child hp).mp h with rfl | h
    · exact ⟨[], rfl, Nat.zero_add _⟩
    · obtain ⟨l, hl, hle⟩ := ih h
      have := T.height_parent hp
      exact ⟨b :: l, by rw [path_child hp, hl]; rfl, by rw [length_cons]; omega⟩

theorem filter_path (b : ι) (n : ℕ) :
    (T.path b).filter (n ≤ T.height ·) = (T.path b).take (T.height b + 1 - n) := by
  have hno : ∀ b, T.height b < n → (T.path b).filter (n ≤ T.height ·) = [] := fun b hn => by
    simp only [filter_eq_nil_iff, decide_eq_true_eq, not_le]
    exact fun a ha => (height_le ha).trans_lt hn
  induction b using T.induction with
  | root b hb =>
    rcases Nat.lt_or_ge (T.height b) n with hn | hn
    · rw [hno b hn, Nat.sub_eq_zero_of_le hn, take_zero]
    · rw [path_root hb, take_of_length_le (by rw [length_singleton]; omega)]
      simp [hn]
  | child b p hp ih =>
    have hh := T.height_parent hp
    rcases Nat.lt_or_ge (T.height b) n with hn | hn
    · rw [hno b hn, Nat.sub_eq_zero_of_le hn, take_zero]
    · rw [path_child hp, Nat.succ_sub hn, take_succ_cons, filter_cons_of_pos (by simpa), ih, hh]

variable (T) in
def ancestorAt (b : ι) (h : ℕ) : Option ι := (T.path b).find? (T.height · = h)

theorem ancestorAt_eq_some : T.ancestorAt b (T.height a) = some a ↔ a ∈ T.path b := by
  constructor
  · exact mem_of_find?_eq_some
  · intro h
    unfold ancestorAt
    cases hf : (T.path b).find? (T.height · = T.height a) with
    | none => have := List.find?_eq_none.mp hf a h; simp at this
    | some x =>
      have hx := List.find?_some hf
      rw [eq_of_height_eq (mem_of_find?_eq_some hf) h (by simpa using hx)]

theorem ancestorAt_eq_some_iff {n : ℕ} : T.ancestorAt b n = some a ↔ a ∈ T.path b ∧ T.height a = n := by
  constructor
  · intro h
    have hn : T.height a = n := by simpa using List.find?_some h
    subst hn
    exact ⟨ancestorAt_eq_some.mp h, rfl⟩
  · rintro ⟨ha, rfl⟩
    exact ancestorAt_eq_some.mpr ha

theorem ancestorAt_self (b : ι) : T.ancestorAt b (T.height b) = some b :=
  ancestorAt_eq_some.mpr (self_mem_path b)

theorem ancestorAt_of_mem_path {n : ℕ} (ha : a ∈ T.path b) (h : n ≤ T.height a) :
    T.ancestorAt b n = T.ancestorAt a n := by
  ext c
  rw [ancestorAt_eq_some_iff, ancestorAt_eq_some_iff]
  constructor
  · rintro ⟨hc, rfl⟩
    exact ⟨mem_path_of_height_le hc ha h, rfl⟩
  · rintro ⟨hc, rfl⟩
    exact ⟨mem_path_trans hc ha, rfl⟩

theorem exists_ancestorAt (hro : ∀ b, T.parent b = none → T.height b = 0) {n : ℕ}
    (h : n ≤ T.height b) : ∃ a ∈ T.path b, T.height a = n ∧ T.ancestorAt b n = some a := by
  obtain ⟨r, hr, hn⟩ := T.exists_root b
  obtain ⟨a, ha, rfl⟩ := exists_mem_path_height hr (by rw [hro r hn]; omega) h
  exact ⟨a, ha, rfl, ancestorAt_eq_some.mpr ha⟩

variable (T) in
/-- The common ancestor of two nodes with the greatest height. -/
structure IsLastCommon (a b c : ι) : Prop where
  left : c ∈ T.path a
  right : c ∈ T.path b
  greatest : ∀ d, d ∈ T.path a → d ∈ T.path b → T.height d ≤ T.height c

namespace IsLastCommon

theorem symm (h : T.IsLastCommon a b c) : T.IsLastCommon b a c :=
  ⟨h.right, h.left, fun d hb ha => h.greatest d ha hb⟩

theorem of_mem (h : a ∈ T.path b) : T.IsLastCommon a b a :=
  ⟨self_mem_path a, h, fun _ hd _ => height_le hd⟩

theorem mem_path (h : T.IsLastCommon a b c) {d : ι} (ha : d ∈ T.path a) (hb : d ∈ T.path b) :
    d ∈ T.path c := mem_path_of_height_le ha h.left (h.greatest d ha hb)

theorem of_ancestor {a' : ι} (h : T.IsLastCommon a' b c) (ha : a' ∈ T.path a)
    (hc : ∀ d, d ∈ T.path a → d ∈ T.path b → d ∈ T.path a') : T.IsLastCommon a b c :=
  ⟨mem_path_trans h.left ha, h.right, fun d hd hb => h.greatest d (hc d hd hb) hb⟩

theorem of_parent (h : T.IsLastCommon p b c) (hp : T.parent a = some p) (ha : a ∉ T.path b) :
    T.IsLastCommon a b c := by
  refine h.of_ancestor (parent_mem_path hp) fun d hd hb => ?_
  exact ((mem_path_child hp).mp hd).resolve_left fun he => ha (he ▸ hb)

end IsLastCommon

end Forest
