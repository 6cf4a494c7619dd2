import Mathlib.Data.List.Basic
import Mathlib.Order.Nat

/-! # Signatures in the order of their keys

Signatures are matched with keys from the front, each key tried once.
-/

open List
universe u
section Matching
variable {σ κ : Type u} (valid : σ → κ → Bool)

/-- The `i`-th element is a signature of the `q`-th key. -/
def SignsAt (keys : List κ) (elems : List σ) (i q : ℕ) : Prop :=
  ∃ sig key, elems[i]? = some sig ∧ keys[q]? = some key ∧ valid sig key = true

/-- Every signature belongs to one key, and the signatures are in the order of their keys. -/
structure InKeyOrder (keys : List κ) (elems : List σ) : Prop where
  unique : ∀ {i q q'}, SignsAt valid keys elems i q → SignsAt valid keys elems i q' → q = q'
  order : ∀ {i j q q'}, i < j → SignsAt valid keys elems i q → SignsAt valid keys elems j q' →
    q < q'

variable {valid} {keys passed : List κ} {elems : List σ} {i j q q' : ℕ} {key : κ} {sig : σ}

@[simp] theorem signsAt_succ_succ :
    SignsAt valid (key :: keys) (sig :: elems) (i + 1) (q + 1) ↔ SignsAt valid keys elems i q := by
  simp [SignsAt]

@[simp] theorem signsAt_succ_right :
    SignsAt valid (key :: keys) elems i (q + 1) ↔ SignsAt valid keys elems i q := by
  simp [SignsAt]

@[simp] theorem signsAt_succ_left :
    SignsAt valid keys (sig :: elems) (i + 1) q ↔ SignsAt valid keys elems i q := by
  simp [SignsAt]

@[simp] theorem signsAt_zero_zero : SignsAt valid (key :: keys) (sig :: elems) 0 0 ↔ valid sig key := by
  simp [SignsAt]

theorem SignsAt.lt_length (h : SignsAt valid keys elems i q) : i < elems.length ∧ q < keys.length := by
  obtain ⟨sig, key, hi, hq, -⟩ := h
  exact ⟨(List.getElem?_eq_some_iff.mp hi).1, (List.getElem?_eq_some_iff.mp hq).1⟩

theorem InKeyOrder.eq_of_signsAt (h : InKeyOrder valid keys elems)
    (hi : SignsAt valid keys elems i q) (hj : SignsAt valid keys elems j q) : i = j := by
  rcases lt_trichotomy i j with hl | he | hl
  · exact absurd (h.order hl hi hj) (lt_irrefl _)
  · exact he
  · exact absurd (h.order hl hj hi) (lt_irrefl _)

theorem InKeyOrder.tail (h : InKeyOrder valid (key :: keys) elems) :
    InKeyOrder valid keys elems where
  unique h₁ h₂ := by
    have := h.unique (signsAt_succ_right.mpr h₁) (signsAt_succ_right.mpr h₂)
    omega
  order hij h₁ h₂ := by
    have := h.order hij (signsAt_succ_right.mpr h₁) (signsAt_succ_right.mpr h₂)
    omega

theorem InKeyOrder.tail_elems (h : InKeyOrder valid keys (sig :: elems)) :
    InKeyOrder valid keys elems where
  unique h₁ h₂ := h.unique (signsAt_succ_left.mpr h₁) (signsAt_succ_left.mpr h₂)
  order hij h₁ h₂ :=
    h.order (Nat.succ_lt_succ hij) (signsAt_succ_left.mpr h₁) (signsAt_succ_left.mpr h₂)

theorem getElem?_append_add : (passed ++ keys)[passed.length + q]? = keys[q]? := by
  rw [getElem?_append_right (Nat.le_add_right _ _), Nat.add_sub_cancel_left]

theorem signsAt_append :
    SignsAt valid (passed ++ keys) elems i (passed.length + q) ↔ SignsAt valid keys elems i q := by
  simp only [SignsAt, getElem?_append_add]

theorem signsAt_of_mem (hs : sig ∈ elems) (hk : key ∈ keys)
    (hv : valid sig key) : ∃ i q, SignsAt valid keys elems i q ∧
      elems[i]? = some sig ∧ keys[q]? = some key := by
  obtain ⟨i, hi⟩ := mem_iff_getElem?.mp hs
  obtain ⟨q, hq⟩ := mem_iff_getElem?.mp hk
  exact ⟨i, q, ⟨sig, key, hi, hq, hv⟩, hi, hq⟩

theorem signsAt_reverse (h : SignsAt valid keys.reverse elems.reverse i q) :
    SignsAt valid keys elems (elems.length - 1 - i) (keys.length - 1 - q) := by
  obtain ⟨hi, hq⟩ := h.lt_length
  obtain ⟨sig, key, hs, hk, hv⟩ := h
  rw [length_reverse] at hi hq
  exact ⟨sig, key, getElem?_reverse hi ▸ hs, getElem?_reverse hq ▸ hk, hv⟩

theorem signsAt_take {m : ℕ} :
    SignsAt valid keys (elems.take m) i q ↔ i < m ∧ SignsAt valid keys elems i q := by
  by_cases hi : i < m
  · simp [SignsAt, getElem?_take_of_lt hi, hi]
  · have hn : (elems.take m)[i]? = none := getElem?_eq_none (by simp; omega)
    simp [SignsAt, hn, hi]

theorem InKeyOrder.reverse (h : InKeyOrder valid keys elems) :
    InKeyOrder valid keys.reverse elems.reverse where
  unique h₁ h₂ := by
    have := h.unique (signsAt_reverse h₁) (signsAt_reverse h₂)
    have := h₁.lt_length
    have := h₂.lt_length
    simp only [length_reverse] at *
    omega
  order hij h₁ h₂ := by
    have hl₁ := h₁.lt_length
    have hl₂ := h₂.lt_length
    simp only [length_reverse] at hl₁ hl₂
    have := h.order (by omega) (signsAt_reverse h₂) (signsAt_reverse h₁)
    omega

theorem InKeyOrder.take (h : InKeyOrder valid keys elems) (m : ℕ) :
    InKeyOrder valid keys (elems.take m) where
  unique h₁ h₂ := h.unique (signsAt_take.mp h₁).2 (signsAt_take.mp h₂).2
  order hij h₁ h₂ := h.order hij (signsAt_take.mp h₁).2 (signsAt_take.mp h₂).2

theorem mem_of_signsAt_reverse (hi : elems.reverse[i]? = some sig)
    (hq : keys.reverse[q]? = some key) : sig ∈ elems ∧ key ∈ keys :=
  ⟨mem_reverse.mp (mem_of_getElem? hi), mem_reverse.mp (mem_of_getElem? hq)⟩

instance :
    Decidable (SignsAt valid keys elems i q) :=
  decidable_of_iff ((elems[i]?.any fun sig => keys[q]?.any (valid sig)) = true)
    (by simp [SignsAt, Option.any_eq_true])

def SignsBefore (valid : σ → κ → Bool) (keys : List κ) (elems : List σ) (i j : ℕ) : Prop :=
  ∀ q < keys.length, ∀ q' < keys.length, SignsAt valid keys elems i q →
    SignsAt valid keys elems j q' → q < q'

instance :
    Decidable (SignsBefore valid keys elems i j) :=
  inferInstanceAs (Decidable (∀ _ < _, _))

variable (valid) in
/-- The matching comes to the signature at depth `j`: the elements above are signatures, each with
enough keys left for those below, and all on the way is admitted. -/
def SeenFromTop (sigOk : σ → Bool) (keyOk : κ → Bool) (keys : List κ) (sigs : List σ) (j : ℕ) :
    Prop :=
  ∀ i ≤ j, ∃ q, SignsAt valid keys sigs i q ∧ (∀ sig, sigs[i]? = some sig → sigOk sig = true) ∧
    (∀ k ≤ q, ∀ key, keys[k]? = some key → keyOk key = true) ∧ q + (sigs.length - i) ≤ keys.length

variable {sigOk : σ → Bool} {keyOk : κ → Bool} {sigs : List σ}

theorem SeenFromTop.of_le (h : SeenFromTop valid sigOk keyOk keys sigs j) (hi : i ≤ j) :
    SeenFromTop valid sigOk keyOk keys sigs i := fun k hk => h k (hk.trans hi)

theorem not_seenFromTop_of_not_ok (h : ¬ (sigOk sig ∧ keyOk key)) :
    ¬ SeenFromTop valid sigOk keyOk (key :: keys) (sig :: sigs) j := by
  intro hs
  obtain ⟨q, -, hsi, hk, -⟩ := hs 0 (Nat.zero_le j)
  exact h ⟨hsi sig rfl, hk 0 (Nat.zero_le q) key rfl⟩

theorem forall_le_succ_iff {P : ℕ → Prop} {q : ℕ} : (∀ k ≤ q + 1, P k) ↔ P 0 ∧ ∀ k ≤ q, P (k + 1) := by
  constructor
  · intro h
    exact ⟨h 0 (by omega), fun k hk => h (k + 1) (by omega)⟩
  · rintro ⟨h0, h⟩ (_ | k) hk
    · exact h0
    · exact h k (by omega)

theorem seenFromTop_zero (hv : valid sig key) (hs : sigOk sig)
    (hke : keyOk key) (hl : sigs.length ≤ keys.length) :
    SeenFromTop valid sigOk keyOk (key :: keys) (sig :: sigs) 0 := by
  intro i hi
  obtain rfl : i = 0 := Nat.le_zero.mp hi
  refine ⟨0, signsAt_zero_zero.mpr hv, by simpa using hs, ?_, by simpa using hl⟩
  rintro k hk key' hke'
  obtain rfl : k = 0 := Nat.le_zero.mp hk
  simp only [getElem?_cons_zero, Option.some.injEq] at hke'
  exact hke' ▸ hke

theorem seenFromTop_succ (hor : InKeyOrder valid (key :: keys) (sig :: sigs))
    (hv : valid sig key) (hsi : sigOk sig) (hk : keyOk key)
    (hle : sigs.length ≤ keys.length) :
    SeenFromTop valid sigOk keyOk (key :: keys) (sig :: sigs) (j + 1) ↔
      SeenFromTop valid sigOk keyOk keys sigs j := by
  rw [SeenFromTop, forall_le_succ_iff, and_iff_right (seenFromTop_zero hv hsi hk hle 0 le_rfl)]
  refine forall₂_congr fun i hi => ?_
  constructor
  · rintro ⟨q, hs, ho, hke, hl⟩
    obtain ⟨q, rfl⟩ : ∃ q', q = q' + 1 := by
      have := hor.order (Nat.succ_pos i) (signsAt_zero_zero.mpr hv) hs
      exact ⟨q - 1, by omega⟩
    refine ⟨q, signsAt_succ_succ.mp hs, by simpa using ho, ?_, ?_⟩
    · exact (forall_le_succ_iff.mp hke).2
    · simp only [length_cons] at hl
      omega
  · rintro ⟨q, hs, ho, hke, hl⟩
    refine ⟨q + 1, signsAt_succ_succ.mpr hs, by simpa using ho, ?_, ?_⟩
    · exact forall_le_succ_iff.mpr ⟨by simpa using hk, hke⟩
    · simp only [length_cons]
      omega

theorem seenFromTop_skip (hor : InKeyOrder valid (key :: keys) (sig :: sigs))
    (hv : valid sig key = false) (hk : keyOk key) :
    SeenFromTop valid sigOk keyOk (key :: keys) (sig :: sigs) j ↔
      SeenFromTop valid sigOk keyOk keys (sig :: sigs) j := by
  constructor
  · intro hse i hi
    obtain ⟨q₀, hs₀, -⟩ := hse 0 (Nat.zero_le j)
    obtain ⟨q, hs, ho, hke, hl⟩ := hse i hi
    obtain ⟨q, rfl⟩ : ∃ q', q = q' + 1 := by
      have hp : q₀ ≠ 0 := by
        rintro rfl
        rw [signsAt_zero_zero, hv] at hs₀
        cases hs₀
      rcases Nat.eq_zero_or_pos i with rfl | hi
      · have := hor.unique hs₀ hs
        exact ⟨q - 1, by omega⟩
      · have := hor.order hi hs₀ hs
        exact ⟨q - 1, by omega⟩
    refine ⟨q, signsAt_succ_right.mp hs, ho, (forall_le_succ_iff.mp hke).2, ?_⟩
    simp only [length_cons] at hl ⊢
    omega
  · intro hse i hi
    obtain ⟨q, hs, ho, hke, hl⟩ := hse i hi
    refine ⟨q + 1, signsAt_succ_right.mpr hs, ho,
      forall_le_succ_iff.mpr ⟨by simpa using hk, hke⟩, ?_⟩
    simp only [length_cons] at hl ⊢
    omega

end Matching
