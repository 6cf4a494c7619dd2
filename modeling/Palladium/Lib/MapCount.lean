import Mathlib.Data.Finmap

/-! # Counting in maps and lists

How many values of a finite map pass a test, and how the count follows an update of the map.
-/

namespace Finmap
variable {κ V : Type*} [DecidableEq κ]

def countValues (p : V → Bool) (m : Finmap fun _ : κ => V) : ℕ :=
  (m.keys.filter fun k => (m.lookup k).any p).card

variable {p : V → Bool} {m : Finmap fun _ : κ => V} {k : κ} {v : V} (p)

theorem countValues_erase (h : m.lookup k = some v) :
    countValues p (m.erase k) + (p v).toNat = countValues p m := by
  have hk : k ∈ m.keys := mem_keys.mpr (mem_of_lookup_eq_some h)
  have he : (m.erase k).keys.filter (fun j => ((m.erase k).lookup j).any p) =
      (m.keys.filter fun j => (m.lookup j).any p).erase k := by
    ext j
    rw [Finset.mem_filter, keys_erase, Finset.mem_erase, Finset.mem_erase, Finset.mem_filter,
      and_assoc]
    refine and_congr_right fun hj => ?_
    rw [lookup_erase_ne hj]
  rw [countValues, he]
  cases hp : p v with
  | false =>
    rw [Finset.erase_eq_of_notMem (by simp [h, hp])]
    rfl
  | true =>
    exact Finset.card_erase_add_one (by simp [hk, h, hp])

theorem countValues_insert_of_notMem (v : V) (h : k ∉ m) :
    countValues p (m.insert k v) = countValues p m + (p v).toNat := by
  have hb : (m.insert k v).erase k = m := by
    refine ext_lookup fun j => ?_
    rcases eq_or_ne j k with rfl | hj
    · rw [lookup_erase, lookup_eq_none.mpr h]
    · rw [lookup_erase_ne hj, lookup_insert_of_ne _ hj]
  rw [← countValues_erase p (lookup_insert m), hb]

theorem countValues_insert (v' : V) (h : m.lookup k = some v) :
    countValues p (m.insert k v') + (p v).toNat = countValues p m + (p v').toNat := by
  have hs : m.insert k v' = (m.erase k).insert k v' := by
    refine ext_lookup fun j => ?_
    rcases eq_or_ne j k with rfl | hj
    · rw [lookup_insert, lookup_insert]
    · rw [lookup_insert_of_ne _ hj, lookup_insert_of_ne _ hj, lookup_erase_ne hj]
  rw [hs, countValues_insert_of_notMem p v' notMem_erase_self, ← countValues_erase p h]
  omega

theorem countValues_insert_of_eq {v' : V} (h : m.lookup k = some v) (hp : p v' = p v) :
    countValues p (m.insert k v') = countValues p m := by
  have hc := countValues_insert p v' h
  rw [hp] at hc
  omega

variable {p}

theorem countValues_eq_zero_of_keys (h : m.keys = ∅) : countValues p m = 0 := by
  rw [countValues, h, Finset.filter_empty, Finset.card_empty]

end Finmap

namespace List
variable {α : Type*} {handle : α → ℕ} {l : List α} {a : α}

theorem exists_split_of_handle (hl : l.Pairwise fun a b => handle a ≠ handle b) (ha : a ∈ l) :
    ∃ l₁ l₂, l = l₁ ++ a :: l₂ ∧ l.find? (handle · = handle a) = some a ∧
      l.eraseP (handle · = handle a) = l₁ ++ l₂ ∧
      ∀ b, b ∈ l₁ ++ l₂ ↔ b ∈ l ∧ handle b ≠ handle a := by
  obtain ⟨l₁, l₂, rfl⟩ := List.append_of_mem ha
  have hs := List.pairwise_append.mp hl
  have hle : ∀ b ∈ l₁, handle b ≠ handle a := fun b hb => hs.2.2 b hb a mem_cons_self
  have hr : ∀ b ∈ l₂, handle b ≠ handle a :=
    fun b hb => ((List.pairwise_cons.mp hs.2.1).1 b hb).symm
  have hn : ∀ b ∈ l₁, ¬ decide (handle b = handle a) := by simpa using hle
  refine ⟨l₁, l₂, rfl, ?_, ?_, fun b => ?_⟩
  · rw [find?_append, find?_eq_none.mpr hn, find?_cons_of_pos (by simp)]
    rfl
  · rw [eraseP_append_right _ hn, eraseP_cons_of_pos (by simp)]
  · rw [mem_append, mem_append, mem_cons]
    constructor
    · rintro (hb | hb)
      · exact ⟨.inl hb, hle b hb⟩
      · exact ⟨.inr (.inr hb), hr b hb⟩
    · rintro ⟨hb | rfl | hb, hne⟩
      · exact .inl hb
      · exact absurd rfl hne
      · exact .inr hb

end List
