import Mathlib.Data.List.Basic

/-! # Self-delimiting encodings and readers

A word that encodes a value can be told apart from whatever follows it.
-/

universe u v
namespace StateT
variable {β ε α γ : Type u}

/-- On the word `w`, whatever follows it, the reader returns `a` and stops behind the word. -/
def Reads (x : StateT (List β) (Except ε) α) (w : List β) (a : α) : Prop :=
  ∀ rest, x.run (w ++ rest) = .ok (a, rest)

theorem reads_pure (a : α) : Reads (pure a : StateT (List β) (Except ε) α) [] a := fun _ => rfl

variable {a : α} {c : γ} {f : α → StateT (List β) (Except ε) γ} {w : List β}
  {x : StateT (List β) (Except ε) α}

theorem Reads.bind {w' : List β} (hx : x.Reads w a) (hf : (f a).Reads w' c) :
    (x >>= f).Reads (w ++ w') c := by
  intro rest
  rw [StateT.run_bind, List.append_assoc, hx]
  exact hf rest

theorem Reads.bind_pure (hx : x.Reads w a) (hf : (f a).Reads [] c) : (x >>= f).Reads w c := by
  simpa using hx.bind hf

/-- Read a number of items, one after the other. -/
def readMany (x : StateT (List β) (Except ε) α) : ℕ → StateT (List β) (Except ε) (List α)
  | 0 => pure []
  | n + 1 => do
    let a ← x
    let l ← readMany x n
    pure (a :: l)

theorem Reads.many {w : α → List β} {l : List α} (h : ∀ a ∈ l, x.Reads (w a) a) :
    (readMany x l.length).Reads (l.flatMap w) l := by
  induction l with
  | nil => exact reads_pure []
  | cons a l ih =>
    rw [List.forall_mem_cons] at h
    exact h.1.bind ((ih h.2).bind_pure (reads_pure (a :: l)))

end StateT

/-- The words of the values in `P` can be told apart from whatever follows them. -/
def SelfDelimiting {α : Type u} {β : Type v} (P : α → Prop) (w : α → List β) : Prop :=
  ∀ a b r s, P a → P b → w a ++ r = w b ++ s → a = b ∧ r = s

namespace SelfDelimiting
variable {α α' γ : Type u} {β : Type v} {P : α → Prop} {Q : γ → Prop} {w : α → List β}
  {w' : γ → List β}

theorem of_length {n : ℕ} (hl : ∀ a, P a → (w a).length = n)
    (hi : ∀ a b, P a → P b → w a = w b → a = b) : SelfDelimiting P w := by
  intro a b r s ha hb h
  obtain ⟨hw, hr⟩ := List.append_inj h ((hl a ha).trans (hl b hb).symm)
  exact ⟨hi a b ha hb hw, hr⟩

theorem of_reads {α β ε : Type u} {P : α → Prop} {w : α → List β}
    {x : StateT (List β) (Except ε) α} (h : ∀ a, P a → x.Reads (w a) a) : SelfDelimiting P w := by
  intro a b r s ha hb he
  have hr := h a ha r
  rw [he, h b hb s] at hr
  cases hr
  exact ⟨rfl, rfl⟩

theorem injOn (h : SelfDelimiting P w) {a b : α} (ha : P a) (hb : P b) (hw : w a = w b) : a = b :=
  (h a b [] [] ha hb (by rw [hw])).1

theorem append (h : SelfDelimiting P w) (h' : SelfDelimiting Q w') :
    SelfDelimiting (fun p : α × γ => P p.1 ∧ Q p.2) fun p => w p.1 ++ w' p.2 := by
  rintro ⟨a, c⟩ ⟨b, d⟩ r s ⟨ha, hc⟩ ⟨hb, hd⟩ he
  rw [List.append_assoc, List.append_assoc] at he
  obtain ⟨rfl, hre⟩ := h a b _ _ ha hb he
  obtain ⟨rfl, hr⟩ := h' c d r s hc hd hre
  exact ⟨rfl, hr⟩

variable {f : α' → α} {l l' : List α}

theorem comp {P' : α' → Prop} (h : SelfDelimiting P w) (hf : ∀ a, P' a → P (f a))
    (hi : ∀ a b, P' a → P' b → f a = f b → a = b) : SelfDelimiting P' fun a => w (f a) := by
  intro a b r s ha hb he
  obtain ⟨hfa, hr⟩ := h (f a) (f b) r s (hf a ha) (hf b hb) he
  exact ⟨hi a b ha hb hfa, hr⟩

theorem flatMap (h : SelfDelimiting P w) {r s : List β} (hl : ∀ a ∈ l, P a) (hl' : ∀ a ∈ l', P a)
    (hle : l.length = l'.length) (he : l.flatMap w ++ r = l'.flatMap w ++ s) :
    l = l' ∧ r = s := by
  induction l generalizing l' with
  | nil =>
    obtain rfl := List.length_eq_zero_iff.mp hle.symm
    exact ⟨rfl, he⟩
  | cons a l ih =>
    match l', hle with
    | b :: l', hle =>
      rw [List.forall_mem_cons] at hl hl'
      rw [List.flatMap_cons, List.flatMap_cons, List.append_assoc, List.append_assoc] at he
      obtain ⟨rfl, hre⟩ := h a b _ _ hl.1 hl'.1 he
      obtain ⟨rfl, hr⟩ := ih hl.2 hl'.2 (Nat.succ.inj hle) hre
      exact ⟨rfl, hr⟩

theorem flatMap_injOn (h : SelfDelimiting P w) (hn : ∀ a, P a → w a ≠ []) (hl : ∀ a ∈ l, P a)
    (hl' : ∀ a ∈ l', P a) (he : l.flatMap w = l'.flatMap w) : l = l' := by
  induction l generalizing l' with
  | nil =>
    rcases l' with _ | ⟨b, l'⟩
    · rfl
    · rw [List.forall_mem_cons] at hl'
      exact absurd (List.append_eq_nil_iff.mp he.symm).1 (hn b hl'.1)
  | cons a l ih =>
    rw [List.forall_mem_cons] at hl
    rcases l' with _ | ⟨b, l'⟩
    · exact absurd (List.append_eq_nil_iff.mp he).1 (hn a hl.1)
    · rw [List.forall_mem_cons] at hl'
      obtain ⟨rfl, hr⟩ := h a b _ _ hl.1 hl'.1 he
      rw [ih hl.2 hl'.2 hr]

theorem map_eq_of_flatMap_eq (h : SelfDelimiting P w) (hn : ∀ a, P a → w a ≠ []) {l l' : List α'}
    (hl : ∀ a ∈ l, P (f a)) (hl' : ∀ a ∈ l', P (f a))
    (he : l.flatMap (fun a => w (f a)) = l'.flatMap fun a => w (f a)) : l.map f = l'.map f := by
  refine h.flatMap_injOn hn (List.forall_mem_map.mpr hl) (List.forall_mem_map.mpr hl') ?_
  rwa [List.flatMap_map, List.flatMap_map]

theorem counted {N : ℕ} {c : ℕ → List β} (hc : SelfDelimiting (· < N) c) (h : SelfDelimiting P w) :
    SelfDelimiting (fun l : List α => l.length < N ∧ ∀ a ∈ l, P a)
      fun l => c l.length ++ l.flatMap w := by
  intro l l' r s hl hl' he
  rw [List.append_assoc, List.append_assoc] at he
  obtain ⟨hle, hr⟩ := hc _ _ _ _ hl.1 hl'.1 he
  exact h.flatMap hl.2 hl'.2 hle hr

end SelfDelimiting
