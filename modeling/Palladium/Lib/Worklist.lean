import Mathlib.Algebra.BigOperators.Group.Finset.Basic
import Mathlib.Data.List.Sort

/-! # Searches with a worklist

A search through a finite graph keeps the nodes visited and those still to visit.
-/

open Relation

/-- An order in which the elements of a finite set are visited. -/
structure SetOrder (ι : Type*) where
  elems : Finset ι → List ι
  nodup : ∀ s, (elems s).Nodup
  mem_elems : ∀ {s a}, a ∈ elems s ↔ a ∈ s

namespace SetOrder
open Finset
variable {ι : Type*} (σ : SetOrder ι)

/-- From the smallest key to the largest. -/
def ascending (key : ι → ℕ) (hkey : Function.Injective key) : SetOrder ι where
  elems s := Quot.liftOn s.val (List.insertionSort fun a b => key a ≤ key b) fun l₁ l₂ hperm => by
    have : Std.Total fun a b : ι => key a ≤ key b := ⟨fun a b => le_total (key a) (key b)⟩
    have : IsTrans ι fun a b => key a ≤ key b := ⟨fun _ _ _ => le_trans⟩
    refine List.Perm.eq_of_pairwise (fun a b _ _ hab hba => hkey (le_antisymm hab hba))
      (List.pairwise_insertionSort _ l₁) (List.pairwise_insertionSort _ l₂) ?_
    exact (List.perm_insertionSort _ l₁).trans (hperm.trans (List.perm_insertionSort _ l₂).symm)
  nodup := by
    rintro ⟨⟨l⟩, hl⟩
    exact (List.perm_insertionSort _ l).nodup_iff.mpr hl
  mem_elems {s a} := by
    obtain ⟨⟨l⟩, hl⟩ := s
    exact (List.perm_insertionSort _ l).mem_iff

def first (s : Finset ι) : Option ι := (σ.elems s).head?

variable {σ} {s : Finset ι} {a : ι}

theorem mem_of_first (h : σ.first s = some a) : a ∈ s :=
  σ.mem_elems.mp (List.mem_of_mem_head? h)

theorem first_eq_none (h : σ.first s = none) : s = ∅ := by
  rw [eq_empty_iff_forall_notMem]
  intro a ha
  have hn : σ.elems s = [] := List.head?_eq_none_iff.mp h
  have hm := σ.mem_elems.mpr ha
  rw [hn] at hm
  cases hm

variable [DecidableEq ι]

theorem toFinset_elems (s : Finset ι) : (σ.elems s).toFinset = s := by
  ext a
  rw [List.mem_toFinset, σ.mem_elems]

theorem sum_map_elems {M : Type*} [AddCommMonoid M] (s : Finset ι) (f : ι → M) :
    ((σ.elems s).map f).sum = ∑ a ∈ s, f a := by
  rw [← List.sum_toFinset f (σ.nodup s), toFinset_elems]

variable (σ) in
/-- The search from the nodes in `stage`, at most `fuel` of them, with those in `done` visited. -/
def search (next : ι → Finset ι) : (fuel : ℕ) → (stage done : Finset ι) → Finset ι
  | 0, _, done => done
  | fuel + 1, stage, done =>
    match σ.first stage with
    | none => done
    | some a => search next fuel (stage.erase a ∪ (next a \ insert a done)) (insert a done)

variable {next : ι → Finset ι} {V stage done : Finset ι} {x : ι}

/-- What holds at every step of a search inside `V`. -/
structure SearchInv (next : ι → Finset ι) (V stage done : Finset ι) : Prop where
  stage_subset : stage ⊆ V
  done_subset : done ⊆ V
  disjoint : Disjoint stage done
  next_subset : ∀ a ∈ done, next a ⊆ done ∪ stage

namespace SearchInv

theorem step (h : SearchInv next V stage done) (hV : ∀ a ∈ V, next a ⊆ V) (ha : a ∈ stage) :
    SearchInv next V (stage.erase a ∪ (next a \ insert a done)) (insert a done) := by
  have hn : a ∉ done := disjoint_left.mp h.disjoint ha
  constructor
  · refine union_subset ((erase_subset a stage).trans h.stage_subset) ?_
    exact sdiff_subset.trans (hV a (h.stage_subset ha))
  · exact insert_subset (h.stage_subset ha) h.done_subset
  · rw [disjoint_left]
    intro b hb
    have hd : b ∈ stage → b ∉ done := fun hb => disjoint_left.mp h.disjoint hb
    simp only [mem_union, mem_erase, mem_sdiff, mem_insert] at hb ⊢
    tauto
  · intro b hb c hc
    have hca : c ∈ next a ∨ c ∈ done ∨ c ∈ stage := by
      rcases mem_insert.mp hb with rfl | hb
      · exact .inl hc
      · exact .inr (mem_union.mp (h.next_subset b hb hc))
    simp only [mem_union, mem_insert, mem_erase, mem_sdiff]
    tauto

theorem reaches (h : SearchInv next V stage done) (ha : a ∈ done)
    (hx : ReflTransGen (fun a b => b ∈ next a) a x) :
    x ∈ done ∨ ∃ b ∈ stage, ReflTransGen (fun a b => b ∈ next a) b x := by
  induction hx using ReflTransGen.head_induction_on with
  | refl => exact .inl ha
  | head hab hbx ih =>
    rcases mem_union.mp (h.next_subset _ ha hab) with hb | hb
    · exact ih hb
    · exact .inr ⟨_, hb, hbx⟩

theorem step_iff (h : SearchInv next V stage done) (hV : ∀ a ∈ V, next a ⊆ V) (ha : a ∈ stage) :
    (x ∈ insert a done ∨ ∃ b ∈ stage.erase a ∪ (next a \ insert a done),
        ReflTransGen (fun a b => b ∈ next a) b x) ↔
      x ∈ done ∨ ∃ b ∈ stage, ReflTransGen (fun a b => b ∈ next a) b x := by
  constructor
  · rintro (hx | ⟨b, hb, hbx⟩)
    · rcases mem_insert.mp hx with rfl | hx
      · exact .inr ⟨x, ha, .refl⟩
      · exact .inl hx
    · rcases mem_union.mp hb with hb | hb
      · exact .inr ⟨b, mem_of_mem_erase hb, hbx⟩
      · exact .inr ⟨a, ha, .head (mem_sdiff.mp hb).1 hbx⟩
  · rintro (hx | ⟨b, hb, hbx⟩)
    · exact .inl (mem_insert_of_mem hx)
    · rcases eq_or_ne b a with rfl | hn
      · exact (h.step hV ha).reaches (mem_insert_self b done) hbx
      · exact .inr ⟨b, mem_union_left _ (mem_erase.mpr ⟨hn, hb⟩), hbx⟩

end SearchInv

theorem mem_search {fuel : ℕ} (hV : ∀ a ∈ V, next a ⊆ V) (h : SearchInv next V stage done)
    (hfu : V.card ≤ done.card + fuel) : x ∈ σ.search next fuel stage done ↔
      x ∈ done ∨ ∃ a ∈ stage, ReflTransGen (fun a b => b ∈ next a) a x := by
  induction fuel generalizing stage done with
  | zero =>
    have heq : done = V := eq_of_subset_of_card_le h.done_subset (by omega)
    have he : stage = ∅ :=
      disjoint_self_iff_empty _ |>.mp (h.disjoint.mono_right (heq ▸ h.stage_subset))
    simp [search, he]
  | succ fuel ih =>
    unfold search
    cases hf : σ.first stage with
    | none => simp [first_eq_none hf]
    | some a =>
      have ha := mem_of_first hf
      have hn : a ∉ done := disjoint_left.mp h.disjoint ha
      refine (ih (h.step hV ha) ?_).trans (h.step_iff hV ha)
      rw [card_insert_of_notMem hn]
      omega

end SetOrder
