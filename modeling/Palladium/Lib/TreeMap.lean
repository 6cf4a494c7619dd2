import Mathlib.Data.List.Nodup

/-! # Maps and their entries

A map is built from its entries, each of which is put in once.
-/

open Std
variable {κ β : Type} [Ord κ] [TransOrd κ] [LawfulEqOrd κ]

def AllNew (m : ExtTreeMap κ β) (l : List (κ × β)) : Prop :=
  (∀ e ∈ l, e.1 ∉ m) ∧ l.Pairwise fun e e' => e.1 ≠ e'.1

variable {l : List (κ × β)} {m : ExtTreeMap κ β} {k : κ} {v : β}

theorem AllNew.tail {e : κ × β} (h : AllNew m (e :: l)) : AllNew (m.insertIfNew e.1 e.2) l := by
  obtain ⟨hn, hp⟩ := h
  rw [List.forall_mem_cons] at hn
  rw [List.pairwise_cons] at hp
  refine ⟨fun e' he' hm => ?_, hp.2⟩
  rw [ExtTreeMap.mem_insertIfNew, LawfulEqCmp.compare_eq_iff_eq] at hm
  exact hm.elim (hp.1 e' he') (hn.2 e' he')

theorem allNew_toList (m : ExtTreeMap κ β) : AllNew ∅ m.toList :=
  ⟨fun _ _ => ExtTreeMap.not_mem_empty, m.distinct_keys_toList.imp fun h he => h (by simp [he])⟩

theorem getElem?_foldl_insertIfNew (h : AllNew m l) :
    (l.foldl (fun m e => m.insertIfNew e.1 e.2) m)[k]? = some v ↔ m[k]? = some v ∨ (k, v) ∈ l := by
  induction l generalizing m with
  | nil => simp
  | cons e l ih =>
    have hn : e.1 ∉ m := h.1 e List.mem_cons_self
    have hh : (m.insertIfNew e.1 e.2)[k]? = some v ↔ m[k]? = some v ∨ (k, v) = e := by
      rw [ExtTreeMap.getElem?_insertIfNew]
      by_cases hk : e.1 = k
      · subst hk
        rw [if_pos ⟨ReflCmp.compare_self, hn⟩, ExtTreeMap.getElem?_eq_none hn]
        simp [Prod.ext_iff, eq_comm]
      · rw [if_neg fun h => hk (LawfulEqCmp.eq_of_compare h.1)]
        simp [Prod.ext_iff, Ne.symm hk]
    rw [List.foldl_cons, ih h.tail, hh, List.mem_cons, or_assoc]

theorem foldl_insertIfNew_toList (m : ExtTreeMap κ β) :
    m.toList.foldl (fun m e => m.insertIfNew e.1 e.2) ∅ = m := by
  refine ExtTreeMap.ext_getElem? fun k => Option.ext fun v => ?_
  rw [getElem?_foldl_insertIfNew (allNew_toList m), ExtTreeMap.mem_toList_iff_getElem?_eq_some]
  simp

theorem eq_or_getElem?_of_insertIfNew {k' : κ} {v' : β} (h : (m.insertIfNew k v)[k']? = some v') :
    k = k' ∧ v = v' ∨ m[k']? = some v' := by
  rw [ExtTreeMap.getElem?_insertIfNew] at h
  split at h
  next hk => exact .inl ⟨LawfulEqCmp.eq_of_compare hk.1, Option.some.inj h⟩
  next => exact .inr h
