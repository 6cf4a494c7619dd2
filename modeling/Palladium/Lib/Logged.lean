import Palladium.Lib.Ends

/-! # Computations with a log

A computation with a state that may fail and that notes the calls it makes.
-/

open StateT
def Logged (ω σ ε α : Type) : Type := σ → List ω × Except ε (α × σ)

namespace Logged
variable {ω σ ε α β : Type}

instance instMonad : Monad (Logged ω σ ε) where
  pure a := fun s => ([], .ok (a, s))
  bind x f := fun s =>
    match x s with
    | (log, .ok (a, t)) => (log ++ (f a t).1, (f a t).2)
    | (log, .error e) => (log, .error e)

/-- A computation that makes no calls. -/
def quiet (x : StateT σ (Except ε) α) : Logged ω σ ε α := fun s => ([], x s)

def call (c : ω) (answer : α) : Logged ω σ ε α := fun s => ([c], .ok (answer, s))

def erase (x : Logged ω σ ε α) : StateT σ (Except ε) α := fun s => (x s).2

@[simp] theorem erase_pure (a : α) : (pure a : Logged ω σ ε α).erase = pure a := rfl

@[simp] theorem erase_quiet (x : StateT σ (Except ε) α) : (quiet x : Logged ω σ ε α).erase = x := rfl

@[simp] theorem erase_call (c : ω) (answer : α) :
    (call c answer : Logged ω σ ε α).erase = pure answer := rfl

theorem bind_of_ok {x : Logged ω σ ε α} {s t : σ} {log : List ω} {a : α} (f : α → Logged ω σ ε β)
    (h : x s = (log, .ok (a, t))) : (x >>= f) s = (log ++ (f a t).1, (f a t).2) := by
  simp only [Bind.bind, h]

theorem bind_of_error {x : Logged ω σ ε α} {s : σ} {log : List ω} {e : ε} (f : α → Logged ω σ ε β)
    (h : x s = (log, .error e)) : (x >>= f) s = (log, .error e) := by
  simp only [Bind.bind, h]

@[simp] theorem erase_bind (x : Logged ω σ ε α) (f : α → Logged ω σ ε β) :
    (x >>= f).erase = x.erase >>= fun a => (f a).erase := by
  funext s
  change ((x >>= f) s).2 = (x s).2 >>= fun r => (f r.1 r.2).2
  match h : x s with
  | (log, .ok (a, t)) => rw [bind_of_ok f h]; rfl
  | (log, .error e) => rw [bind_of_error f h]; rfl

@[simp] theorem erase_ite {c : Prop} [Decidable c] (x y : Logged ω σ ε α) :
    (if c then x else y).erase = if c then x.erase else y.erase := by
  split <;> rfl

variable {p : ω → Bool} {m n : Nat} {x : Logged ω σ ε α} {f : α → Logged ω σ ε β} {s : σ}

/-- Started in `s`, at most `n` calls of the kind `p` are made. -/
def AtMost (p : ω → Bool) (n : Nat) (x : Logged ω σ ε α) (s : σ) : Prop := (x s).1.countP p ≤ n

theorem AtMost.mono (h : AtMost p m x s) (hle : m ≤ n) : AtMost p n x s := Nat.le_trans h hle

theorem AtMost.bind (hx : AtMost p m x s) (hf : ∀ a t, x.erase.Ends s a t → AtMost p n (f a) t) :
    AtMost p (m + n) (x >>= f) s := by
  have he : ∀ a t, (x s).2 = .ok (a, t) → AtMost p n (f a) t := hf
  unfold AtMost at hx he ⊢
  match h : x s with
  | (log, .ok (a, t)) =>
    rw [h] at hx he
    rw [bind_of_ok f h, List.countP_append]
    exact Nat.add_le_add hx (he a t rfl)
  | (log, .error e) =>
    rw [h] at hx
    rw [bind_of_error f h]
    exact Nat.le_add_right_of_le hx

theorem atMost_quiet (x : StateT σ (Except ε) α) : AtMost p n (quiet x) s := Nat.zero_le n

theorem atMost_pure (a : α) : AtMost p n (pure a : Logged ω σ ε α) s := Nat.zero_le n

theorem atMost_call (c : ω) (answer : α) : AtMost p 1 (call c answer : Logged ω σ ε α) s :=
  List.countP_le_length

theorem atMost_call_of_not {c : ω} (h : p c = false) (answer : α) :
    AtMost p n (call c answer : Logged ω σ ε α) s := by
  simp [AtMost, call, h]

theorem AtMost.quiet_bind {x : StateT σ (Except ε) α}
    (hf : ∀ a t, x.Ends s a t → AtMost p n (f a) t) : AtMost p n (quiet x >>= f) s :=
  Nat.zero_add n ▸ AtMost.bind (atMost_quiet x) hf

theorem AtMost.bind_quiet {g : α → StateT σ (Except ε) β} (hx : AtMost p n x s) :
    AtMost p n (x >>= fun a => quiet (g a)) s :=
  AtMost.bind (n := 0) hx fun a _ _ => atMost_quiet (g a)

end Logged
