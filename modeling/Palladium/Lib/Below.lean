import Palladium.Lib.Except

/-! # The order of definedness

One computation is below another if the other succeeds wherever the first does, with the same result
and state.
-/

universe u v
namespace Except
variable {ε : Type u} {α β : Type v}

/-- Where `x` succeeds, `y` succeeds alike. -/
def Below (x y : Except ε α) : Prop := ∀ a, x = .ok a → y = .ok a

theorem Below.refl (x : Except ε α) : x.Below x := fun _ h => h

variable {f g : α → Except ε β}

theorem Below.bind {x y : Except ε α} (h : x.Below y) (hf : ∀ {a}, (f a).Below (g a)) :
    (x >>= f).Below (y >>= g) := by
  intro b hb
  obtain ⟨a, ha, hb⟩ := bind_eq_ok.mp hb
  exact bind_eq_ok.mpr ⟨a, h a ha, hf b hb⟩

theorem Below.bind_right {x : Except ε α} (hf : ∀ {a}, (f a).Below (g a)) :
    (x >>= f).Below (x >>= g) :=
  (Below.refl x).bind hf

end Except

namespace StateT
variable {σ ε α β : Type u}

/-- Where `x` succeeds, `y` succeeds alike and ends in the same state. -/
def Below (x y : StateT σ (Except ε) α) : Prop := ∀ s, (x.run s).Below (y.run s)

theorem Below.refl (x : StateT σ (Except ε) α) : x.Below x := fun _ => .refl _

variable {f g : α → StateT σ (Except ε) β} {x y : StateT σ (Except ε) α}

theorem Below.bind (h : x.Below y) (hf : ∀ {a}, (f a).Below (g a)) : (x >>= f).Below (y >>= g) :=
  fun s => (h s).bind fun {r} => hf r.2

theorem Below.bind_left (h : x.Below y) (f : α → StateT σ (Except ε) β) : (x >>= f).Below (y >>= f) :=
  h.bind (.refl _)

theorem Below.bind_right (hf : ∀ {a}, (f a).Below (g a)) : (x >>= f).Below (x >>= g) :=
  (Below.refl x).bind hf

theorem Below.ite {c : Prop} [Decidable c] {x' y' : StateT σ (Except ε) α} (hx : x.Below x')
    (hy : y.Below y') : Below (if c then x else y) (if c then x' else y') := by
  split
  · exact hx
  · exact hy

theorem Below.lift {x y : Except ε α} (h : x.Below y) :
    Below (liftM x : StateT σ (Except ε) α) (liftM y) :=
  fun s => h.bind fun {a} => .refl (.ok (a, s))

def Observes (x : StateT σ (Except ε) α) : Prop := ∀ s a s', x.run s = .ok (a, s') → s' = s

theorem observes_get : Observes (get : StateT σ (Except ε) σ) := by
  rintro s a s' h
  cases h
  rfl

theorem observes_lift (x : Except ε α) : Observes (liftM x : StateT σ (Except ε) α) := by
  intro s a s' h
  obtain ⟨_, -, h⟩ := Except.bind_eq_ok.mp h
  cases h
  rfl

theorem Observes.bind (hx : x.Observes) (hf : ∀ {a}, (f a).Observes) : (x >>= f).Observes := by
  intro s b s' h
  obtain ⟨⟨a, t⟩, ha, hb⟩ := Except.bind_eq_ok.mp h
  rw [hf t b s' hb, hx s a t ha]

theorem Observes.below_pure {x : StateT σ (Except ε) PUnit} (hx : x.Observes) : x.Below (pure ⟨⟩) := by
  rintro s ⟨⟨⟩, s'⟩ h
  cases hx s _ s' h
  rfl

end StateT
