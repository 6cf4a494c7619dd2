import Palladium.Lib.Codec
import Palladium.Lib.Ends

/-! # Readers of canonical encodings

A reader decodes an encoding if it accepts exactly the words of the values in a set.
-/

universe u
namespace StateT
variable {β ε α γ : Type u} {P : α → Prop} {w : α → List β}

/-- The reader accepts the words of the values in `P` and nothing else. -/
def Decodes (x : StateT (List β) (Except ε) α) (P : α → Prop) (w : α → List β) : Prop :=
  ∀ s a t, x.Ends s a t ↔ P a ∧ s = w a ++ t

variable {a : α} {x : StateT (List β) (Except ε) α}

theorem Decodes.reads (h : x.Decodes P w) (ha : P a) :
    x.Reads (w a) a := fun rest => (h (w a ++ rest) a rest).mpr ⟨ha, rfl⟩

theorem Reads.ends {v : List β} (h : x.Reads v a) (rest : List β) :
    x.Ends (v ++ rest) a rest := h rest

theorem decodes_of_reads (hr : ∀ a, P a → x.Reads (w a) a)
    (hac : ∀ s a t, x.Ends s a t → P a ∧ s = w a ++ t) : x.Decodes P w := by
  refine fun s a t => ⟨hac s a t, ?_⟩
  rintro ⟨ha, rfl⟩
  exact (hr a ha).ends t

theorem Decodes.many (h : x.Decodes P w) (n : ℕ) :
    (readMany x n).Decodes (fun l => l.length = n ∧ ∀ a ∈ l, P a) (List.flatMap w) := by
  induction n with
  | zero =>
    intro s l t
    rw [readMany, ends_pure]
    constructor
    · rintro ⟨rfl, rfl⟩
      exact ⟨⟨rfl, fun _ h => nomatch h⟩, rfl⟩
    · rintro ⟨⟨hl, -⟩, rfl⟩
      obtain rfl := List.length_eq_zero_iff.mp hl
      exact ⟨rfl, rfl⟩
  | succ n ih =>
    intro s l t
    simp only [readMany, ends_bind, ends_pure, h _ _ _, ih _ _ _]
    constructor
    · rintro ⟨a, u, ⟨ha, rfl⟩, l, v, ⟨⟨hl, hal⟩, rfl⟩, rfl, rfl⟩
      exact ⟨⟨by rw [List.length_cons, hl], List.forall_mem_cons.mpr ⟨ha, hal⟩⟩, by simp⟩
    · rintro ⟨⟨hl, hal⟩, rfl⟩
      obtain ⟨a, l, rfl⟩ := List.exists_cons_of_length_eq_add_one hl
      rw [List.forall_mem_cons] at hal
      exact ⟨a, l.flatMap w ++ t, ⟨hal.1, by simp⟩, l, t,
        ⟨⟨by simpa using hl, hal.2⟩, rfl⟩, rfl, rfl⟩

end StateT
