import Mathlib.Order.BooleanAlgebra.Set

/-! # The cuckoo cache

`CuckooCache::cache` with its epochs.
-/

namespace Palladium
open Function

/-- The default element fills the entries that were never written. -/
structure CuckooCache (Element : Type) (size : ℕ) where
  table : Fin size → Element
  collectionFlags : Fin size → Bool
  epochFlags : Fin size → Bool
  epochHeuristicCounter : ℕ
  epochSize : ℕ
  depthLimit : ℕ

namespace CuckooCache
variable {Element : Type} [Inhabited Element] {size : ℕ} (hash : Element → Fin 8 → Fin size)
  (c : CuckooCache Element size) (loc : Fin size) (e : Element)

/-- The depth limit, a rounded logarithm of the size, is left open. -/
def setup (size depthLimit : ℕ) : CuckooCache Element size :=
  let epochSize := max 1 (45 * size % UInt32.size / 100)
  ⟨fun _ => default, fun _ => true, fun _ => false, epochSize, epochSize, depthLimit⟩

def epochCheck (c : CuckooCache Element size) : CuckooCache Element size :=
  if c.epochHeuristicCounter ≠ 0 then
    { c with epochHeuristicCounter := c.epochHeuristicCounter - 1 }
  else
    let epochUnusedCount :=
      (List.finRange size).countP fun i => c.epochFlags i && !c.collectionFlags i
    if epochUnusedCount ≥ c.epochSize then
      { c with
        epochFlags := fun _ => false
        collectionFlags := fun i => if c.epochFlags i then c.collectionFlags i else true
        epochHeuristicCounter := c.epochSize }
    else
      { c with
        epochHeuristicCounter :=
          max 1 (max (c.epochSize / 16) (c.epochSize - epochUnusedCount)) }

/-- `please_keep`, with the epoch of the slot. -/
def pleaseKeep (epoch : Bool) : CuckooCache Element size :=
  { c with
    collectionFlags := update c.collectionFlags loc false
    epochFlags := update c.epochFlags loc epoch }

def write : CuckooCache Element size := { c with table := update c.table loc e }

/-- The location after the last one, the second if that is not one of the element's. -/
def nextLoc (lastLoc : Option (Fin size)) : Fin 8 :=
  Fin.ofNat 8 (1 + lastLoc.elim 8 ((List.finRange 8).map (hash e)).idxOf)

/-- The loop of `insert`. The element in hand is dropped when the depth is used up. -/
def displace : ℕ → CuckooCache Element size → Element → Option (Fin size) → Bool →
    CuckooCache Element size
  | 0, c, _, _, _ => c
  | depth + 1, c, e, lastLoc, lastEpoch =>
    match (List.finRange 8).find? fun i => c.collectionFlags (hash e i) with
    | some i => (c.write (hash e i) e).pleaseKeep (hash e i) lastEpoch
    | none =>
      let loc := hash e (nextLoc hash e lastLoc)
      displace depth { c.write loc e with epochFlags := update c.epochFlags loc lastEpoch }
        (c.table loc) (some loc) (c.epochFlags loc)

def find [DecidableEq Element] : Option (Fin 8) :=
  (List.finRange 8).find? fun i => c.table (hash e i) = e

protected def insert [DecidableEq Element] : CuckooCache Element size :=
  match c.epochCheck.find hash e with
  | some i => c.epochCheck.pleaseKeep (hash e i) true
  | none => displace hash c.epochCheck.depthLimit c.epochCheck e none true

def contains [DecidableEq Element] (erase : Bool) : Bool × CuckooCache Element size :=
  match c.find hash e with
  | some i => (true,
      if erase then { c with collectionFlags := update c.collectionFlags (hash e i) true } else c)
  | none => (false, c)

inductive Call (Element : Type)
  | insert (e : Element)
  | contains (e : Element) (erase : Bool)

def Call.element : Call Element → Element
  | .insert e | .contains e _ => e

def call [DecidableEq Element] (c : CuckooCache Element size) :
    Call Element → CuckooCache Element size
  | .insert e => c.insert hash e
  | .contains e erase => (c.contains hash e erase).2

def stored : Set Element := {x | x ≠ default ∧ ∃ loc, c.table loc = x}

/-- What holds of the table between two calls. -/
structure WellPlaced : Prop where
  own : ∀ loc, c.table loc ≠ default → ∃ i, hash (c.table loc) i = loc
  once : ∀ loc loc', c.table loc ≠ default → c.table loc = c.table loc' → loc = loc'
  kept : ∀ loc, c.collectionFlags loc = false → c.table loc ≠ default

/-- Nothing but the element is new, and one element is lost at most. -/
def Inserted (c' : CuckooCache Element size) : Prop :=
  c'.WellPlaced hash ∧ c'.stored ⊆ insert e c.stored ∧
    ∃ x, insert e c.stored ⊆ insert x c'.stored

variable {hash c loc e} (h : c.WellPlaced hash)

omit [Inhabited Element] in
theorem epochCheck_spec : c.epochCheck.table = c.table ∧
    ∀ loc, c.epochCheck.collectionFlags loc = false → c.collectionFlags loc = false := by
  unfold epochCheck
  dsimp only
  split_ifs <;> simp_all

include h

theorem WellPlaced.epochCheck : c.epochCheck.WellPlaced hash := by
  have hk loc hf := h.kept loc (epochCheck_spec.2 loc hf)
  have ht := (epochCheck_spec (c := c)).1
  exact ⟨ht ▸ h.own, ht ▸ h.once, ht ▸ hk⟩

theorem WellPlaced.pleaseKeep (hl : c.table loc ≠ default) (epoch : Bool) :
    (c.pleaseKeep loc epoch).WellPlaced hash := by
  refine ⟨h.own, h.once, fun l hf => ?_⟩
  by_cases he : l = loc
  · exact he ▸ hl
  · exact h.kept l ((update_of_ne he _ _).symm.trans hf)

/-- An element that is nowhere in the table is written at one of its locations. -/
theorem WellPlaced.write (he : e ≠ default) (hn : ∀ loc, c.table loc ≠ e) (i : Fin 8) :
    (c.write (hash e i) e).WellPlaced hash := by
  have hs : (c.write (hash e i) e).table (hash e i) = e := update_self ..
  have ho : ∀ loc ≠ hash e i, (c.write (hash e i) e).table loc = c.table loc :=
    fun loc hl => update_of_ne hl ..
  refine ⟨fun loc hl => ?_, fun loc loc' hl heq => ?_, fun loc hl => ?_⟩
  · have := h.own loc
    grind
  · have := h.once loc loc'
    grind
  · have := h.kept loc hl
    grind

omit h in
/-- Writing the element trades what the slot held for it. -/
theorem stored_write (he : e ≠ default) (loc : Fin size) :
    (c.write loc e).stored ⊆ insert e c.stored ∧
      insert e c.stored ⊆ insert (c.table loc) (c.write loc e).stored := by
  constructor
  · rintro x ⟨hx, l, rfl⟩
    by_cases hl : l = loc
    · exact .inl (hl ▸ update_self ..)
    · exact .inr ⟨hx, l, (update_of_ne hl ..).symm⟩
  · rintro x (rfl | ⟨hx, l, rfl⟩)
    · exact .inr ⟨he, loc, update_self ..⟩
    · by_cases hl : l = loc
      · exact .inl (hl ▸ rfl)
      · exact .inr ⟨hx, l, update_of_ne hl ..⟩

theorem WellPlaced.displace (depth : ℕ) (he : e ≠ default) (hn : ∀ loc, c.table loc ≠ e)
    (lastLoc : Option (Fin size)) (lastEpoch : Bool) :
    Inserted hash c e (displace hash depth c e lastLoc lastEpoch) := by
  induction depth generalizing c e lastLoc lastEpoch with
  | zero => exact ⟨h, Set.subset_insert _ _, _, subset_rfl⟩
  | succ depth ih =>
    rw [CuckooCache.displace]
    split
    · rename_i i _
      have hs := stored_write (c := c) he (hash e i)
      exact ⟨(h.write he hn i).pleaseKeep ((update_self ..).trans_ne he) _, hs.1, _, hs.2⟩
    · -- every location is kept, so that the displaced element is not the default one
      rename_i hf
      generalize nextLoc hash e lastLoc = j
      have hk : c.table (hash e j) ≠ default :=
        h.kept _ (by simpa using List.find?_eq_none.mp hf j (List.mem_finRange j))
      have hw := h.write he hn j
      have hs := stored_write (c := c) he (hash e j)
      have ho : ∀ l, (c.write (hash e j) e).table l ≠ c.table (hash e j) := by
        intro l heq
        by_cases hl : l = hash e j
        · exact hn (hash e j) (heq.symm.trans (hl ▸ update_self ..))
        · exact hl (h.once _ _ hk (heq.symm.trans (update_of_ne hl ..))).symm
      obtain ⟨hp, hsub, x, hx⟩ := ih
        (c := { c.write (hash e j) e with epochFlags := update c.epochFlags (hash e j) lastEpoch })
        ⟨hw.own, hw.once, hw.kept⟩ hk ho (some (hash e j)) (c.epochFlags (hash e j))
      exact ⟨hp, hsub.trans (Set.insert_subset (Or.inr ⟨hk, _, rfl⟩) hs.1), x, hs.2.trans hx⟩

variable [DecidableEq Element]

theorem WellPlaced.not_mem (he : e ≠ default) (hf : c.find hash e = none) (loc : Fin size) :
    c.table loc ≠ e := by
  rintro rfl
  obtain ⟨i, hi⟩ := h.own loc he
  simpa [hi] using List.find?_eq_none.mp hf i (List.mem_finRange i)

theorem WellPlaced.insert (he : e ≠ default) : Inserted hash c e (c.insert hash e) := by
  have hs : c.epochCheck.stored = c.stored := by simp only [stored, epochCheck_spec.1]
  rw [Inserted, ← hs, CuckooCache.insert]
  split
  · rename_i i hi
    have ht : c.epochCheck.table (hash e i) = e := by simpa using List.find?_some hi
    exact ⟨h.epochCheck.pleaseKeep (ht.trans_ne he) true, Set.subset_insert _ _, e, subset_rfl⟩
  · rename_i hf
    exact h.epochCheck.displace _ he (h.epochCheck.not_mem he hf) none true

theorem WellPlaced.contains (erase : Bool) : (c.contains hash e erase).2.WellPlaced hash := by
  unfold CuckooCache.contains
  split
  · split_ifs
    · refine ⟨h.own, h.once, fun l hf => h.kept l ?_⟩
      by_contra hl
      simp_all [update_apply]
    · exact h
  · exact h

theorem WellPlaced.calls (calls : List (Call Element)) (hd : ∀ a ∈ calls, a.element ≠ default) :
    (calls.foldl (call hash) c).WellPlaced hash := by
  induction calls generalizing c with
  | nil => exact h
  | cons a calls ih =>
    rw [List.forall_mem_cons] at hd
    cases a with
    | insert e => exact ih (h.insert hd.1).1 hd.2
    | contains e erase => exact ih (h.contains erase) hd.2

omit h in
/-- After any calls every element is in the table once, at one of its locations, and the next
insertion loses one element at most. -/
theorem insert_after_calls (hash : Element → Fin 8 → Fin size) (depthLimit : ℕ)
    (calls : List (Call Element)) (hd : ∀ a ∈ calls, a.element ≠ default) :
    let c := calls.foldl (call hash) (setup size depthLimit)
    (∀ loc, c.table loc ≠ default → (∃ i, hash (c.table loc) i = loc) ∧
      ∀ loc', c.table loc' = c.table loc → loc' = loc) ∧
    ∀ e ≠ default, (c.insert hash e).stored ⊆ insert e c.stored ∧
      ∃ x, insert e c.stored \ {x} ⊆ (c.insert hash e).stored := by
  intro c
  have h : c.WellPlaced hash := WellPlaced.calls
    ⟨fun _ h => absurd rfl h, fun _ _ h => absurd rfl h, fun _ h => Bool.noConfusion h⟩ calls hd
  refine ⟨fun loc hl => ⟨h.own loc hl, fun loc' heq => (h.once loc loc' hl heq.symm).symm⟩, ?_⟩
  intro e he
  obtain ⟨-, hsub, x, hx⟩ := h.insert he
  exact ⟨hsub, x, Set.sdiff_singleton_subset_iff.mpr hx⟩

omit h in
theorem insert_after_calls_seven :
    let c := [Call.insert 5, .contains 5 true, .insert 6].foldl
      (call fun e i => Fin.ofNat 2 (e + i)) (setup 2 1)
    (c.insert (fun e i => Fin.ofNat 2 (e + i)) 7).stored ⊆ {7} ∪ c.stored :=
  ((insert_after_calls _ 1 _ (by simp [Call.element])).2 7 (by decide)).1

end CuckooCache

end Palladium
