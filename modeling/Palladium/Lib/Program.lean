import Mathlib.Logic.Basic

/-! # Programs over an interface of operations

A program is a tree of calls, each continued by the answer, that may stop with an error.
-/

universe u

/-- A computation that calls operations `Op`, answered in `Ans`, and may stop with `ε`. -/
inductive Program (ε : Type u) (Op : Type u) (Ans : Op → Type u) (α : Type u) : Type u
  | ret (a : α)
  | halt (e : ε)
  | call (op : Op) (next : Ans op → Program ε Op Ans α)

/-- How the operations are answered on states `σ`. -/
abbrev Machine (ε Op : Type u) (Ans : Op → Type u) (σ : Type u) :=
  (op : Op) → σ → Except ε (Ans op × σ)

namespace Program
variable {ε Op σ τ α β : Type u} {Ans : Op → Type u}

def bind (f : α → Program ε Op Ans β) : Program ε Op Ans α → Program ε Op Ans β
  | ret a => f a
  | halt e => halt e
  | call op next => call op fun a => (next a).bind f

instance : Monad (Program ε Op Ans) where
  pure := ret
  bind p f := p.bind f

def perform (op : Op) : Program ε Op Ans (Ans op) := call op ret

def lift : Except ε α → Program ε Op Ans α
  | .ok a => ret a
  | .error e => halt e

def run (M : Machine ε Op Ans σ) : Program ε Op Ans α → σ → Except ε (α × σ)
  | ret a, s => .ok (a, s)
  | halt e, _ => .error e
  | call op next, s =>
    match M op s with
    | .ok (a, s') => (next a).run M s'
    | .error e => .error e

section Run
variable (M : Machine ε Op Ans σ)

@[simp] theorem run_pure (a : α) (s : σ) : (pure a : Program ε Op Ans α).run M s = .ok (a, s) := rfl

@[simp] theorem run_halt (e : ε) (s : σ) : (halt e : Program ε Op Ans α).run M s = .error e := rfl

@[simp] theorem run_perform (op : Op) (s : σ) : (perform op).run M s = M op s := by
  simp only [perform, run]
  split <;> simp_all

theorem run_bind (p : Program ε Op Ans α) (f : α → Program ε Op Ans β) (s : σ) : (p >>= f).run M s =
      match p.run M s with
      | .ok (a, s') => (f a).run M s'
      | .error e => .error e := by
  induction p generalizing s with
  | ret a => rfl
  | halt e => rfl
  | call op next ih =>
    change (call op fun a => next a >>= f).run M s = _
    simp only [run]
    cases M op s with
    | error e => rfl
    | ok r => exact ih r.1 r.2

variable {a : α} {f : α → Program ε Op Ans β} {p : Program ε Op Ans α} {s s' : σ} {r : β × σ}
  {x : Except ε α}

theorem run_bind_of_ok (h : p.run M s = .ok (a, s')) : (p >>= f).run M s = (f a).run M s' := by
  rw [run_bind, h]

theorem run_bind_eq_ok :
    (p >>= f).run M s = .ok r ↔ ∃ a s', p.run M s = .ok (a, s') ∧ (f a).run M s' = .ok r := by
  rw [run_bind]
  constructor
  · intro h
    split at h
    · exact ⟨_, _, ‹_›, h⟩
    · cases h
  · rintro ⟨a, s', hp, hf⟩
    rw [hp]
    exact hf

theorem run_bind_eq_error {e : ε} : (p >>= f).run M s = .error e ↔
      p.run M s = .error e ∨ ∃ a s', p.run M s = .ok (a, s') ∧ (f a).run M s' = .error e := by
  rw [run_bind]
  cases p.run M s with
  | error e' => simp
  | ok r =>
    constructor
    · intro h
      exact Or.inr ⟨r.1, r.2, rfl, h⟩
    · rintro (h | ⟨a, s', h, hf⟩)
      · cases h
      · cases h
        exact hf

theorem run_lift_eq_error {e : ε} :
    (lift x : Program ε Op Ans α).run M s = .error e ↔ x = .error e := by
  cases x with
  | error e' => simp [lift]
  | ok b => simp [lift, run]

theorem run_lift_eq_ok : (lift x : Program ε Op Ans α).run M s = .ok (a, s') ↔ x = .ok a ∧ s' = s := by
  cases x with
  | error e => simp [lift]
  | ok b => simp [lift, run, eq_comm]

def Keeps (p : Program ε Op Ans α) : Prop := ∀ s a s', p.run M s = .ok (a, s') → s' = s

variable {M}

theorem keeps_pure (a : α) : Keeps M (pure a : Program ε Op Ans α) := by
  intro s b s' h
  cases h
  rfl

theorem keeps_halt (e : ε) : Keeps M (halt e : Program ε Op Ans α) := by
  intro s b s' h
  cases h

theorem keeps_lift (x : Except ε α) : Keeps M (lift x : Program ε Op Ans α) :=
  fun _ _ _ h => ((run_lift_eq_ok M).1 h).2

theorem Keeps.bind (hp : Keeps M p) (hf : ∀ a, Keeps M (f a)) : Keeps M (p >>= f) := by
  intro s b s' h
  obtain ⟨a, s₁, h₁, h₂⟩ := (run_bind_eq_ok M).1 h
  rw [hf a s₁ b s' h₂, hp s a s₁ h₁]

theorem Keeps.run_bind_eq_ok (hp : Keeps M p) :
    (p >>= f).run M s = .ok r ↔ ∃ a, p.run M s = .ok (a, s) ∧ (f a).run M s = .ok r := by
  rw [Program.run_bind_eq_ok]
  constructor
  · rintro ⟨a, s', h₁, h₂⟩
    obtain rfl := hp s a s' h₁
    exact ⟨a, h₁, h₂⟩
  · rintro ⟨a, h₁, h₂⟩
    exact ⟨a, s, h₁, h₂⟩

theorem Keeps.run_bind_eq_error {e : ε} (hp : Keeps M p) : (p >>= f).run M s = .error e ↔
      p.run M s = .error e ∨ ∃ a, p.run M s = .ok (a, s) ∧ (f a).run M s = .error e := by
  rw [Program.run_bind_eq_error]
  apply or_congr_right
  constructor
  · rintro ⟨a, s', h₁, h₂⟩
    obtain rfl := hp s a s' h₁
    exact ⟨a, h₁, h₂⟩
  · rintro ⟨a, h₁, h₂⟩
    exact ⟨a, s, h₁, h₂⟩

def Avoids (M : Machine ε Op Ans σ) (e : ε) (p : Program ε Op Ans α) : Prop :=
  ∀ s, p.run M s ≠ .error e

variable {e : ε}

theorem avoids_pure (a : α) : Avoids M e (pure a : Program ε Op Ans α) := by
  intro s h
  cases h

theorem avoids_halt {e' : ε} (he : e' ≠ e) : Avoids M e (halt e' : Program ε Op Ans α) := by
  intro s h
  cases h
  exact he rfl

theorem Avoids.bind (hp : Avoids M e p) (hf : ∀ a, Avoids M e (f a)) : Avoids M e (p >>= f) := by
  intro s h
  rcases (run_bind_eq_error M).1 h with h | ⟨a, s', -, h⟩
  · exact hp s h
  · exact hf a s' h

end Run

variable {M : Machine ε Op Ans σ} {a : α} {s : σ}

theorem run_invariant {P : σ → Prop} (hst : ∀ op s a s', P s → M op s = .ok (a, s') → P s')
    (p : Program ε Op Ans α) {s' : σ} (hs : P s) (h : p.run M s = .ok (a, s')) : P s' := by
  induction p generalizing s with
  | ret b =>
    cases h
    exact hs
  | halt e => cases h
  | call op k ih =>
    rw [run] at h
    split at h
    · rename_i b s₁ hop
      exact ih b (hst op s b s₁ hs hop) h
    · cases h

/-- `M` answers every call as `N` does whenever `N` answers it, and keeps `R`. -/
def Simulates (M : Machine ε Op Ans σ) (N : Machine ε Op Ans τ) (R : σ → τ → Prop) : Prop :=
  ∀ op s t a t', R s t → N op t = .ok (a, t') → ∃ s', M op s = .ok (a, s') ∧ R s' t'

theorem Simulates.run {N : Machine ε Op Ans τ} {R : σ → τ → Prop} (h : Simulates M N R)
    (p : Program ε Op Ans α) {t t' : τ} (hR : R s t) (hp : p.run N t = .ok (a, t')) :
    ∃ s', p.run M s = .ok (a, s') ∧ R s' t' := by
  induction p generalizing s t with
  | ret b =>
    cases hp
    exact ⟨s, rfl, hR⟩
  | halt e => cases hp
  | call op next ih =>
    obtain ⟨b, t₁, hN, hn⟩ : ∃ b t₁, N op t = .ok (b, t₁) ∧ (next b).run N t₁ = .ok (a, t') :=
      (run_bind_eq_ok N (p := perform op)).1 hp |>.imp fun b ⟨t₁, h₁, h₂⟩ =>
        ⟨t₁, by simpa only [run_perform] using h₁, h₂⟩
    obtain ⟨s₁, hM, hR₁⟩ := h op s t b t₁ hR hN
    obtain ⟨s', hs', hR'⟩ := ih b hR₁ hn
    refine ⟨s', ?_, hR'⟩
    simp only [Program.run, hM]
    exact hs'

end Program
