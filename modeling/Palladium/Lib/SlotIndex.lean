import Mathlib.Data.Finset.Card

/-! # Lists with back pointers

A list has one element for each key of a set, and each key knows the position of its element.
-/

variable {κ α : Type*}

/-- `l` holds the values of the keys in `s`, each at the position that `idx` gives. -/
structure SlotIndex (s : Finset κ) (val : κ → α) (l : List (α × κ)) (idx : κ → ℕ) : Prop where
  getElem?_idx : ∀ k ∈ s, l[idx k]? = some (val k, k)
  idx_eq : ∀ j p, l[j]? = some p → p.2 ∈ s ∧ idx p.2 = j

namespace SlotIndex
open Finset Function List
variable {s : Finset κ} {val val' : κ → α} {l : List (α × κ)} {idx : κ → ℕ} {k : κ}

theorem nil (val : κ → α) (idx : κ → ℕ) : SlotIndex ∅ val [] idx :=
  ⟨fun _ hk => absurd hk (notMem_empty _), fun _ _ hp => by cases hp⟩

section
variable (h : SlotIndex s val l idx)
include h

theorem congr (hv : ∀ k ∈ s, val' k = val k) : SlotIndex s val' l idx :=
  ⟨fun k hk => by rw [hv k hk]; exact h.getElem?_idx k hk, h.idx_eq⟩

theorem idx_lt (hk : k ∈ s) : idx k < l.length :=
  (List.getElem?_eq_some_iff.mp (h.getElem?_idx k hk)).1

theorem eq_of_idx_eq {k' : κ} (hk : k ∈ s) (hk' : k' ∈ s) (he : idx k = idx k') : k = k' := by
  have hg := h.getElem?_idx k hk
  rw [he, h.getElem?_idx k' hk'] at hg
  exact (Prod.mk.inj (Option.some.inj hg)).2.symm

theorem length_eq_card : l.length = s.card := by
  refine (card_eq_of_bijective (fun j hj => l[j].2) ?_ ?_ ?_).symm
  · intro k hk
    refine ⟨idx k, h.idx_lt hk, ?_⟩
    rw [(List.getElem?_eq_some_iff.mp (h.getElem?_idx k hk)).2]
  · intro j hj
    exact (h.idx_eq j _ (List.getElem?_eq_getElem hj)).1
  · intro i j hi hj he
    rw [← (h.idx_eq i _ (List.getElem?_eq_getElem hi)).2, he,
      (h.idx_eq j _ (List.getElem?_eq_getElem hj)).2]

end

variable [DecidableEq κ]

theorem push (h : SlotIndex s val l idx) (hk : k ∉ s) :
    SlotIndex (insert k s) val (l ++ [(val k, k)]) (Function.update idx k l.length) := by
  constructor
  · intro k' hk'
    rcases mem_insert.mp hk' with rfl | hk'
    · rw [update_self, getElem?_concat_length]
    · have hn : k' ≠ k := fun he => hk (he ▸ hk')
      rw [update_of_ne hn, getElem?_append_left (h.idx_lt hk')]
      exact h.getElem?_idx k' hk'
  · intro j p hp
    rcases Nat.lt_or_ge j l.length with hj | hj
    · rw [getElem?_append_left hj] at hp
      obtain ⟨hm, hi⟩ := h.idx_eq j p hp
      have hn : p.2 ≠ k := fun he => hk (he ▸ hm)
      exact ⟨mem_insert_of_mem hm, by rw [update_of_ne hn, hi]⟩
    · obtain ⟨hl, hg⟩ := List.getElem?_eq_some_iff.mp hp
      rw [List.length_append, List.length_singleton] at hl
      obtain rfl : j = l.length := by omega
      rw [getElem_concat_length rfl] at hg
      subst hg
      exact ⟨mem_insert_self k s, update_self ..⟩

theorem pop_last (h : SlotIndex s val l idx) (hk : k ∈ s) (hl : l.length ≤ 1) :
    SlotIndex (s.erase k) val [] idx := by
  have hs : s.erase k = ∅ := by
    rw [← card_eq_zero, card_erase_of_mem hk, ← h.length_eq_card]
    omega
  exact hs ▸ nil val idx

theorem pop (h : SlotIndex s val l idx) (hk : k ∈ s) (back : α × κ)
    (hba : l[l.length - 1]? = some back) :
    SlotIndex (s.erase k) val (l.set (idx k) back).dropLast
      (Function.update idx back.2 (idx k)) := by
  have hlt := h.idx_lt hk
  obtain ⟨hbm, hbi⟩ := h.idx_eq _ back hba
  have hg : ∀ j, (l.set (idx k) back).dropLast[j]? =
      if j < l.length - 1 then if idx k = j then some back else l[j]? else none := by
    intro j
    rw [getElem?_dropLast, length_set, getElem?_set]
    simp only [hlt, if_true]
  constructor
  · intro k' hk'
    obtain ⟨hn, hk'⟩ := mem_erase.mp hk'
    have hi : idx k' ≠ idx k := fun he => hn (h.eq_of_idx_eq hk' hk he)
    have hlt' := h.idx_lt hk'
    rcases eq_or_ne k' back.2 with rfl | hb
    · have hv : back = (val back.2, back.2) := by
        rw [← Option.some.injEq, ← hba, ← hbi]
        exact h.getElem?_idx _ hbm
      rw [update_self, hg, if_pos (by omega), if_pos rfl, ← hv]
    · have hl : idx k' ≠ idx back.2 := fun he => hb (h.eq_of_idx_eq hk' hbm he)
      rw [update_of_ne hb, hg, if_pos (by omega), if_neg hi.symm]
      exact h.getElem?_idx k' hk'
  · intro j p hp
    rw [hg] at hp
    split at hp
    · rename_i hj
      split at hp
      · rename_i hjk
        obtain rfl : back = p := Option.some.inj hp
        refine ⟨mem_erase.mpr ⟨?_, hbm⟩, by rw [update_self, hjk]⟩
        rintro rfl
        omega
      · rename_i hjk
        obtain ⟨hm, hi⟩ := h.idx_eq j p hp
        have hpk : p.2 ≠ k := fun he => hjk (he ▸ hi)
        have hpb : p.2 ≠ back.2 := fun he => by rw [he] at hi; omega
        exact ⟨mem_erase.mpr ⟨hpk, hm⟩, by rw [update_of_ne hpb, hi]⟩
    · cases hp

end SlotIndex
