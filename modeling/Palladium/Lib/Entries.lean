import Palladium.Lib.Decoder

/-! # Maps that are read entry by entry

A map is written as a row of entries, each a key that is not empty and what belongs to it, and ends
with an empty key.
-/

universe u
namespace StateT
variable {β ε σ κ : Type u} (readKey : StateT (List β) (Except ε) (List κ))
  (step : σ → List κ → StateT (List β) (Except ε) σ) (missing : ε)

def readEntries : (fuel : ℕ) → σ → StateT (List β) (Except ε) σ
  | 0, _ => throw missing
  | fuel + 1, state => do
    let s ← get
    if s.isEmpty then throw missing
    else do
      let key ← readKey
      if key.isEmpty then pure state
      else do
        let state ← step state key
        readEntries fuel state

/-- Each entry takes at least one item, so all entries of the input can be read. -/
def readAllEntries (state : σ) : StateT (List β) (Except ε) σ := do
  let s ← get
  readEntries readKey step missing (s.length + 1) state

/-- Reading the entries in the word leads from one state to another. -/
inductive EntriesLead : σ → List β → σ → Prop
  | nil (state : σ) : EntriesLead state [] state
  | cons {state state' state'' : σ} {key : List κ} {w w' w'' : List β} (hne : w ≠ [])
      (hkey : readKey.Reads w key) (hkey_ne : key ≠ []) (hstep : (step state key).Reads w' state')
      (hrest : EntriesLead state' w'' state'') : EntriesLead state (w ++ (w' ++ w'')) state''

variable {readKey step missing} {state state' : σ} {w w' sep : List β}

theorem EntriesLead.trans {state'' : σ} (h : EntriesLead readKey step state w state')
    (h' : EntriesLead readKey step state' w' state'') :
    EntriesLead readKey step state (w ++ w') state'' := by
  induction h with
  | nil => exact h'
  | cons hn hk hkey_ne hs _ ih =>
    rw [List.append_assoc, List.append_assoc]
    exact .cons hn hk hkey_ne hs (ih h')

theorem EntriesLead.single {key : List κ} (hn : w ≠ []) (hk : readKey.Reads w key)
    (hkey_ne : key ≠ []) (hs : (step state key).Reads w' state') :
    EntriesLead readKey step state (w ++ w') state' := by
  simpa using EntriesLead.cons hn hk hkey_ne hs (.nil state')

theorem EntriesLead.readEntries {fuel : ℕ} (h : EntriesLead readKey step state w state')
    (hn : sep ≠ []) (hs : readKey.Reads sep []) (hf : w.length < fuel) :
    (readEntries readKey step missing fuel state).Reads (w ++ sep) state' := by
  induction h generalizing fuel with
  | nil state =>
    obtain ⟨fuel, rfl⟩ : ∃ k, fuel = k + 1 := ⟨fuel - 1, by omega⟩
    intro rest
    have he : Ends (StateT.readEntries readKey step missing (fuel + 1) state) (sep ++ rest) state
        rest := by
      simp only [StateT.readEntries, ends_bind, ends_get]
      refine ⟨_, _, ⟨rfl, rfl⟩, ?_⟩
      rw [if_neg (by simp [hn])]
      exact ends_bind.mpr ⟨[], rest, hs.ends rest, by simp⟩
    exact he
  | @cons state state' state'' key w w' w'' hw hk hkey_ne hst _ ih =>
    obtain ⟨fuel, rfl⟩ : ∃ k, fuel = k + 1 := ⟨fuel - 1, by omega⟩
    intro rest
    have hl : w''.length < fuel := by
      have := List.length_pos_iff.mpr hw
      simp only [List.length_append] at hf
      omega
    have he : Ends (StateT.readEntries readKey step missing (fuel + 1) state)
        (w ++ (w' ++ (w'' ++ sep ++ rest))) state'' rest := by
      simp only [StateT.readEntries, ends_bind, ends_get]
      refine ⟨_, _, ⟨rfl, rfl⟩, ?_⟩
      rw [if_neg (by simp [hw])]
      refine ends_bind.mpr ⟨key, _, hk.ends _, ?_⟩
      rw [if_neg (by simpa using hkey_ne)]
      exact ends_bind.mpr ⟨state', _, hst.ends _, ih hl rest⟩
    rw [← ends_iff_run]
    simpa only [List.append_assoc] using he

theorem EntriesLead.readAllEntries (h : EntriesLead readKey step state w state') (hn : sep ≠ [])
    (hs : readKey.Reads sep []) :
    (readAllEntries readKey step missing state).Reads (w ++ sep) state' := by
  intro rest
  have hf : w.length < (w ++ sep ++ rest).length + 1 := by
    simp only [List.length_append]
    omega
  exact ends_bind.mpr ⟨_, _, ends_get.mpr ⟨rfl, rfl⟩, (h.readEntries hn hs hf).ends rest⟩

theorem readAllEntries_induction {P : σ → Prop} {s t : List β}
    (h : Ends (StateT.readAllEntries readKey step missing state) s state' t) (hP : P state)
    (hs : ∀ state key s t u state', P state → readKey.Ends s key t → key ≠ [] →
      (step state key).Ends t state' u → P state') : P state' := by
  rw [StateT.readAllEntries, ends_bind] at h
  obtain ⟨_, u, -, h⟩ := h
  generalize List.length _ + 1 = fuel at h
  induction fuel generalizing state u with
  | zero => exact (ends_throw h).elim
  | succ fuel ih =>
    simp only [StateT.readEntries, ends_bind, ends_get, ends_ite, ends_throw, ends_pure] at h
    obtain ⟨_, _, ⟨rfl, rfl⟩, h⟩ := h
    split at h
    · exact h.elim
    · obtain ⟨key, u', hk, h⟩ := h
      split at h
      next => exact h.1 ▸ hP
      next hn =>
        obtain ⟨state₁, v, hke, h⟩ := h
        exact ih (hs _ _ _ _ _ _ hP hk (by simpa using hn) hke) v h

end StateT
