import Mathlib.Data.List.Basic

/-! # Records laid over each other

A record is seen through partial views, one for each field.
-/

universe u v w
variable {α : Type u} {ι : Type v} {β : ι → Type w} (view : (i : ι) → α → Option (β i))

def Agree (a b : α) : Prop := ∀ i x y, view i a = some x → view i b = some y → x = y

/-- On the records in `P`, the operation fills the fields that its first argument leaves open. -/
structure Overlays (P : α → Prop) (merge : α → α → α) : Prop where
  closed : ∀ a b, P a → P b → P (merge a b)
  view_merge : ∀ i a b, P a → P b → view i (merge a b) = (view i a).or (view i b)

variable {view} {P : α → Prop} {merge : α → α → α}

theorem Agree.refl (a : α) : Agree view a a := by
  intro i x y hx hy
  exact Option.some.inj (hx.symm.trans hy)

theorem Agree.symm {a b : α} (h : Agree view a b) : Agree view b a :=
  fun i x y hx hy => (h i y x hy hx).symm

theorem findSome?_eq_some_iff_of_agree {i : ι} {l : List α}
    (hag : ∀ a ∈ l, ∀ b ∈ l, Agree view a b) {x : β i} :
    l.findSome? (view i) = some x ↔ ∃ a ∈ l, view i a = some x := by
  constructor
  · exact List.exists_of_findSome?_eq_some
  · rintro ⟨a, ha, hx⟩
    obtain ⟨y, hy⟩ := Option.isSome_iff_exists.mp
      (List.findSome?_isSome_iff.mpr ⟨a, ha, Option.isSome_of_eq_some hx⟩)
    obtain ⟨b, hb, hby⟩ := List.exists_of_findSome?_eq_some hy
    rw [hy, hag a ha b hb i x y hx hby]

namespace Overlays
open List
variable {l : List α}

theorem foldl_mem (h : Overlays view P merge) {a : α} (hl : ∀ b ∈ a :: l, P b) :
    P (l.foldl merge a) := by
  induction l generalizing a with
  | nil => exact hl a mem_cons_self
  | cons b l ih =>
    rw [forall_mem_cons, forall_mem_cons] at hl
    exact ih (forall_mem_cons.mpr ⟨h.closed a b hl.1 hl.2.1, hl.2.2⟩)

theorem view_foldl (h : Overlays view P merge) (i : ι) {a : α} (hl : ∀ b ∈ a :: l, P b) :
    view i (l.foldl merge a) = (a :: l).findSome? (view i) := by
  induction l generalizing a with
  | nil => cases hi : view i a <;> simp [hi]
  | cons b l ih =>
    rw [forall_mem_cons, forall_mem_cons] at hl
    rw [foldl_cons, ih (forall_mem_cons.mpr ⟨h.closed a b hl.1 hl.2.1, hl.2.2⟩),
      findSome?_cons, findSome?_cons, findSome?_cons,
      h.view_merge i a b hl.1 hl.2.1]
    cases view i a <;> rfl

theorem view_foldl_eq_some_iff (h : Overlays view P merge) {i : ι} {a : α} (hl : ∀ b ∈ a :: l, P b)
    (ha : ∀ b ∈ a :: l, ∀ c ∈ a :: l, Agree view b c) {x : β i} :
    view i (l.foldl merge a) = some x ↔ ∃ b ∈ a :: l, view i b = some x := by
  rw [h.view_foldl i hl, findSome?_eq_some_iff_of_agree ha]

theorem view_foldl_perm (h : Overlays view P merge) {a a' : α} {l l' : List α}
    (hl : ∀ b ∈ a :: l, P b) (ha : ∀ b ∈ a :: l, ∀ c ∈ a :: l, Agree view b c)
    (hp : (a' :: l').Perm (a :: l)) (i : ι) :
    view i (l'.foldl merge a') = view i (l.foldl merge a) := by
  have hl' : ∀ b ∈ a' :: l', P b := fun b hb => hl b (hp.mem_iff.mp hb)
  have ha' : ∀ b ∈ a' :: l', ∀ c ∈ a' :: l', Agree view b c := fun b hb c hc =>
    ha b (hp.mem_iff.mp hb) c (hp.mem_iff.mp hc)
  ext x
  rw [h.view_foldl_eq_some_iff hl ha, h.view_foldl_eq_some_iff hl' ha']
  simp only [hp.mem_iff]

end Overlays
