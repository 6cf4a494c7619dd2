import Mathlib.Data.List.Nodup

/-! # Sequences of writes to a map

A write replaces the value at one key by one that does not depend on the map.
-/

open Function List
variable {κ ν : Type*} [DecidableEq κ]

def applyWrites (m : κ → ν) (ws : List (κ × ν)) : κ → ν :=
  ws.foldl (fun m w => Function.update m w.1 w.2) m

variable {m m' : κ → ν} {ws : List (κ × ν)} {k : κ} {v : ν}

@[simp] theorem applyWrites_nil (m : κ → ν) : applyWrites m [] = m := rfl

@[simp] theorem applyWrites_cons (m : κ → ν) (w : κ × ν) (ws : List (κ × ν)) :
    applyWrites m (w :: ws) = applyWrites (update m w.1 w.2) ws := rfl

theorem applyWrites_of_notMem (h : k ∉ ws.map Prod.fst) : applyWrites m ws k = m k := by
  induction ws generalizing m with
  | nil => rfl
  | cons w ws ih =>
    rw [map_cons, mem_cons, not_or] at h
    rw [applyWrites_cons, ih h.2, update_of_ne h.1]

theorem applyWrites_of_mem (hn : (ws.map Prod.fst).Nodup) (h : (k, v) ∈ ws) :
    applyWrites m ws k = v := by
  induction ws generalizing m with
  | nil => cases h
  | cons w ws ih =>
    rw [map_cons, nodup_cons] at hn
    rcases mem_cons.1 h with rfl | hw
    · rw [applyWrites_cons, applyWrites_of_notMem hn.1, update_self]
    · exact ih hn.2 hw

/-- Outside of its keys a sequence shows the map below, on them it shows the same value over
every map. -/
theorem applyWrites_congr (h : k ∈ ws.map Prod.fst ∨ m k = m' k) :
    applyWrites m ws k = applyWrites m' ws k := by
  induction ws generalizing m m' with
  | nil =>
    rcases h with h | h
    · cases h
    · exact h
  | cons w ws ih =>
    rw [applyWrites_cons, applyWrites_cons]
    apply ih
    by_cases hk : k = w.1
    · subst hk
      exact Or.inr (by rw [update_self, update_self])
    · rw [update_of_ne hk, update_of_ne hk]
      rw [map_cons, mem_cons, or_assoc] at h
      exact h.resolve_left hk

theorem applyWrites_mem_or_eq (m : κ → ν) (ws : List (κ × ν)) (k : κ) :
    (k, applyWrites m ws k) ∈ ws ∨ applyWrites m ws k = m k := by
  induction ws generalizing m with
  | nil => exact Or.inr rfl
  | cons w ws ih =>
    rw [applyWrites_cons]
    rcases ih (update m w.1 w.2) with h | h
    · exact Or.inl (mem_cons_of_mem _ h)
    · by_cases hk : k = w.1
      · subst hk
        rw [h, update_self]
        exact Or.inl mem_cons_self
      · rw [update_of_ne hk] at h
        exact Or.inr h

def Mixed (m m' n : κ → ν) : Prop := ∀ k, n k = m k ∨ n k = m' k

theorem applyWrites_of_mixed {n : κ → ν} (hn : Mixed m (applyWrites m ws) n) :
    applyWrites n ws = applyWrites m ws := by
  funext k
  apply applyWrites_congr
  by_cases hk : k ∈ ws.map Prod.fst
  · exact Or.inl hk
  · have hm := applyWrites_of_notMem (m := m) hk
    rcases hn k with h | h
    · exact Or.inr h
    · exact Or.inr (h.trans hm)

theorem Mixed.applyWrites {n : κ → ν} (hn : Mixed m m' n) (hw : ∀ w ∈ ws, w.2 = m' w.1) :
    Mixed m m' (applyWrites n ws) := by
  intro k
  rcases applyWrites_mem_or_eq n ws k with h | h
  · exact Or.inr (hw _ h)
  · rw [h]
    exact hn k
