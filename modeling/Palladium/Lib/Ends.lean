import Palladium.Lib.Except

/-! # Runs that succeed

A computation with a state that may fail ends with a result in a state.
-/

universe u
namespace Except
open StateT
variable {ε α β : Type u}

theorem pure_eq_ok {a b : α} : (pure a : Except ε α) = .ok b ↔ a = b := (Except.ok.injEq _ _).to_iff

theorem bind_eq_ok_punit {x : Except ε PUnit} {f : PUnit → Except ε β} {b : β} :
    (x >>= f) = .ok b ↔ x = .ok ⟨⟩ ∧ f ⟨⟩ = .ok b := by
  rw [bind_eq_ok]
  exact ⟨fun ⟨_, h⟩ => h, fun h => ⟨_, h⟩⟩

end Except

namespace StateT
variable {σ ε α β : Type u} {s t : σ} {a : α} {b : β}

/-- Started in `s`, `x` succeeds with the result `a` in the state `t`. -/
def Ends (x : StateT σ (Except ε) α) (s : σ) (a : α) (t : σ) : Prop := x.run s = .ok (a, t)

variable {x : StateT σ (Except ε) α}

theorem ends_iff_run : x.Ends s a t ↔ x.run s = .ok (a, t) := .rfl

@[simp] theorem ends_pure {a' : α} : Ends (pure a' : StateT σ (Except ε) α) s a t ↔ a' = a ∧ s = t := by
  rw [ends_iff_run, run_pure]
  exact (Except.ok.injEq _ _).to_iff.trans (by simp)

@[simp] theorem ends_bind {f : α → StateT σ (Except ε) β} :
    Ends (x >>= f) s b t ↔ ∃ a u, x.Ends s a u ∧ (f a).Ends u b t := by
  rw [ends_iff_run, StateT.run_bind, Except.bind_eq_ok, Prod.exists]
  rfl

@[simp] theorem ends_map {f : α → β} : Ends (f <$> x) s b t ↔ ∃ a, x.Ends s a t ∧ f a = b := by
  rw [← bind_pure_comp, ends_bind]
  constructor
  · rintro ⟨a, u, hx, hf⟩
    obtain ⟨rfl, rfl⟩ := ends_pure.mp hf
    exact ⟨a, hx, rfl⟩
  · rintro ⟨a, hx, rfl⟩
    exact ⟨a, t, hx, ends_pure.mpr ⟨rfl, rfl⟩⟩

theorem ends_bind_pure {f : α → β} :
    Ends (x >>= fun a => pure (f a)) s b t ↔ ∃ a, x.Ends s a t ∧ f a = b := by
  rw [bind_pure_comp, ends_map]

@[simp high] theorem ends_bind_punit {x : StateT σ (Except ε) PUnit}
    {f : PUnit → StateT σ (Except ε) β} :
    Ends (x >>= f) s b t ↔ ∃ u, x.Ends s ⟨⟩ u ∧ (f ⟨⟩).Ends u b t := by
  rw [ends_bind]
  exact ⟨fun ⟨_, h⟩ => h, fun h => ⟨_, h⟩⟩

@[simp] theorem ends_get {a : σ} : Ends (get : StateT σ (Except ε) σ) s a t ↔ s = a ∧ s = t := by
  rw [ends_iff_run, run_get]
  exact (Except.ok.injEq _ _).to_iff.trans (by simp)

@[simp] theorem ends_set {u : PUnit} {s' : σ} :
    Ends (set s' : StateT σ (Except ε) PUnit) s u t ↔ s' = t := by
  rw [ends_iff_run, run_set]
  exact (Except.ok.injEq _ _).to_iff.trans (by simp)

@[simp] theorem ends_modify {u : PUnit} {f : σ → σ} :
    Ends (modify f : StateT σ (Except ε) PUnit) s u t ↔ f s = t :=
  (Except.ok.injEq _ _).to_iff.trans (by simp)

@[simp] theorem ends_lift {x : Except ε α} :
    Ends (liftM x : StateT σ (Except ε) α) s a t ↔ x = .ok a ∧ s = t := by
  constructor
  · intro h
    obtain ⟨_, hx, h⟩ := Except.bind_eq_ok.mp h
    cases h
    exact ⟨hx, rfl⟩
  · rintro ⟨rfl, rfl⟩
    rfl

@[simp] theorem ends_throw {e : ε} : ¬ Ends (throw e : StateT σ (Except ε) α) s a t := by
  rintro ⟨⟩

@[simp] theorem ends_ite {c : Prop} [Decidable c] {x y : StateT σ (Except ε) α} :
    Ends (if c then x else y) s a t ↔ if c then x.Ends s a t else y.Ends s a t := by
  split <;> rfl

theorem ends_unless {c : Prop} [Decidable c] {e : ε} :
    Ends (if c then throw e else x) s a t ↔ ¬ c ∧ x.Ends s a t := by
  by_cases hc : c <;> simp [hc]

theorem Ends.run_bind (h : x.Ends s a t) (f : α → StateT σ (Except ε) β) :
    (x >>= f).run s = (f a).run t := by
  rw [StateT.run_bind, ends_iff_run.mp h]
  rfl

theorem run_bind_of_ite {c : Prop} [Decidable c] {e : ε}
    (h : x.run s = if c then .error e else .ok (a, t)) (f : α → StateT σ (Except ε) β) :
    (x >>= f).run s = if c then .error e else (f a).run t := by
  rw [StateT.run_bind, h]
  split <;> rfl

section Unchanged
universe v
variable {γ : Type v} {f : σ → γ}

/-- Where `x` succeeds, it leaves the value of `f` as it is. The instances follow the program. -/
class Unchanged (f : σ → γ) (x : StateT σ (Except ε) α) : Prop where
  eq : ∀ {s a t}, x.Ends s a t → f t = f s

instance (a : α) : Unchanged f (pure a : StateT σ (Except ε) α) :=
  ⟨fun h => by rw [(ends_pure.mp h).2]⟩

instance : Unchanged f (get : StateT σ (Except ε) σ) := ⟨fun h => by rw [(ends_get.mp h).2]⟩

instance (e : ε) : Unchanged f (throw e : StateT σ (Except ε) α) := ⟨fun h => absurd h ends_throw⟩

instance (x : Except ε α) : Unchanged f (liftM x : StateT σ (Except ε) α) :=
  ⟨fun h => by rw [(ends_lift.mp h).2]⟩

instance (x : StateT σ (Except ε) α) (g : α → StateT σ (Except ε) β) [hx : Unchanged f x]
    [hg : ∀ a, Unchanged f (g a)] : Unchanged f (x >>= g) := by
  constructor
  intro s b t h
  obtain ⟨a, w, hxw, hgt⟩ := ends_bind.mp h
  rw [(hg a).eq hgt, hx.eq hxw]

instance (c : Prop) [Decidable c] (x y : StateT σ (Except ε) α) [hx : Unchanged f x]
    [hy : Unchanged f y] : Unchanged f (if c then x else y) := by
  split
  · exact hx
  · exact hy

theorem unchanged_modify {g : σ → σ} (h : ∀ s, f (g s) = f s) :
    Unchanged f (modify g : StateT σ (Except ε) PUnit) :=
  ⟨fun he => by rw [← ends_modify.mp he, h]⟩

end Unchanged

end StateT
