import Palladium.Lib.Except

/-! # Computations that fail only in permitted ways

A computation meets a postcondition up to permitted failures if it ends in the postcondition or
fails in one of these ways.
-/

universe u v
namespace Except
variable {ε : Type u} {α β : Type v} {E : ε → Prop}

/-- `x` has a result in `Q`, or it fails as `E` permits. -/
def Meets (E : ε → Prop) (x : Except ε α) (Q : α → Prop) : Prop :=
  match x with
  | .ok a => Q a
  | .error e => E e

variable {Q P : α → Prop} {x : Except ε α}

theorem Meets.error_of {e : ε} (h : x.Meets E Q) (he : x = .error e) : E e := by
  rwa [he] at h

theorem Meets.of_ok {a : α} (ha : x = .ok a) (h : x.Meets E Q) : Q a := by
  rwa [ha] at h

theorem Meets.ite {c : Prop} [Decidable c] {y : Except ε α} (hx : c → x.Meets E Q)
    (hy : ¬ c → y.Meets E Q) : (if c then x else y).Meets E Q := by
  split
  · exact hx ‹_›
  · exact hy ‹_›

theorem Meets.bind {f : α → Except ε β} {Q : β → Prop} (hx : x.Meets E P)
    (hf : ∀ a, P a → (f a).Meets E Q) : (x >>= f).Meets E Q := by
  cases x with
  | error e => exact hx
  | ok a => exact hf a hx

theorem Meets.imp (hx : x.Meets E P) (h : ∀ a, P a → Q a) : x.Meets E Q := by
  cases x with
  | error e => exact hx
  | ok a => exact h a hx

theorem Meets.permit {E' : ε → Prop} (hx : x.Meets E Q) (h : ∀ e, E e → E' e) : x.Meets E' Q := by
  cases x with
  | error e => exact h e hx
  | ok a => exact hx

end Except

namespace StateT
variable {σ ε α β : Type u} {E : ε → Prop} {P P' : σ → Prop}

def Meets (E : ε → Prop) (P : σ → Prop) (x : StateT σ (Except ε) α) (Q : α → σ → Prop) : Prop :=
  ∀ s, P s → (x.run s).Meets E fun r => Q r.1 r.2

theorem meets_pure (a : α) : Meets E P (pure a) fun b s => b = a ∧ P s := fun _ h => ⟨rfl, h⟩

variable {Q Q' : α → σ → Prop} {x : StateT σ (Except ε) α}

theorem meets_throw {e : ε} (he : E e) : Meets E P (throw e : StateT σ (Except ε) α) Q :=
  fun _ _ => he

theorem meets_get : Meets E P (get : StateT σ (Except ε) σ) fun a s => a = s ∧ P s :=
  fun _ h => ⟨rfl, h⟩

theorem meets_set {s' : σ} {Q : PUnit → σ → Prop} (h : Q ⟨⟩ s') :
    Meets E P (set s' : StateT σ (Except ε) PUnit) Q :=
  fun _ _ => h

theorem meets_modify {f : σ → σ} {Q : PUnit → σ → Prop} (h : ∀ s, P s → Q ⟨⟩ (f s)) :
    Meets E P (modify f : StateT σ (Except ε) PUnit) Q :=
  h

theorem meets_lift {x : Except ε α} {Q : α → Prop} (h : x.Meets E Q) :
    Meets E P (liftM x : StateT σ (Except ε) α) fun a s => Q a ∧ P s :=
  fun _ hs => h.bind fun _ ha => ⟨ha, hs⟩

theorem Meets.bind {f : α → StateT σ (Except ε) β} {R : β → σ → Prop} (hx : Meets E P x Q)
    (hf : ∀ a, Meets E (Q a) (f a) R) : Meets E P (x >>= f) R :=
  fun s hs => (hx s hs).bind fun r hr => hf r.1 r.2 hr

theorem Meets.weaken (hx : Meets E P x Q) (hP : ∀ s, P' s → P s) (hQ : ∀ a s, Q a s → Q' a s) :
    Meets E P' x Q' :=
  fun s hs => (hx s (hP s hs)).imp fun r hr => hQ r.1 r.2 hr

theorem Meets.pre (hx : Meets E P x Q) (hP : ∀ s, P' s → P s) : Meets E P' x Q :=
  hx.weaken hP fun _ _ h => h

theorem Meets.post (hx : Meets E P x Q) (hQ : ∀ a s, Q a s → Q' a s) : Meets E P x Q' :=
  hx.weaken (fun _ h => h) hQ

theorem Meets.ite {c : Prop} [Decidable c] {y : StateT σ (Except ε) α} (hx : c → Meets E P x Q)
    (hy : ¬ c → Meets E P y Q) : Meets E P (if c then x else y) Q := by
  split
  · exact hx ‹_›
  · exact hy ‹_›

theorem Meets.of_fact {p : Prop} (h : p → Meets E P x Q) : Meets E (fun s => p ∧ P s) x Q :=
  fun s hs => h hs.1 s hs.2

end StateT
