import Mathlib
import Palladium.Validation.BlockIndex

/-! # Failure flags below the Taproot height at startup

After the block index is loaded, the flags of failed blocks below the Taproot height are reset one
block after the other, in the order of a hash map.
-/

namespace Palladium.Validation
open Forest List
variable {ι : Type*}

theorem BlockStatus.clearFailed_of_not_failed {st : BlockStatus} (h : st.failed = false) :
    st.clearFailed = st := by
  cases st
  simp_all [BlockStatus.failed, BlockStatus.clearFailed]

@[simp] theorem BlockStatus.failed_clearFailed (st : BlockStatus) :
    st.clearFailed.failed = false := rfl

@[simp] theorem BlockStatus.clearFailed_clearFailed (st : BlockStatus) :
    st.clearFailed.clearFailed = st.clearFailed := rfl

abbrev ChainState.failed (s : ChainState ι) (b : ι) : Bool := (s.index b).nStatus.failed

/-- What a reset leaves alone: the known blocks, the tip and all of an entry but its failure
flags. -/
structure SameShape (s s' : ChainState ι) : Prop where
  keys : s'.m_block_index = s.m_block_index
  tip : s'.tip = s.tip
  entry : ∀ b, s'.index b = s.index b ∨
    s'.index b = { s.index b with nStatus := (s.index b).nStatus.clearFailed }

theorem SameShape.refl (s : ChainState ι) : SameShape s s := ⟨rfl, rfl, fun _ => .inl rfl⟩

theorem SameShape.trans {s s' s'' : ChainState ι} (h : SameShape s s') (h' : SameShape s' s'') :
    SameShape s s'' := by
  refine ⟨h'.keys.trans h.keys, h'.tip.trans h.tip, fun b => ?_⟩
  rcases h.entry b with e | e <;> rcases h'.entry b with e' | e' <;> rw [e', e] <;> simp

theorem BlockEntry.eq_of_failed_eq {e e₁ e₂ : BlockEntry}
    (h₁ : e₁ = e ∨ e₁ = { e with nStatus := e.nStatus.clearFailed })
    (h₂ : e₂ = e ∨ e₂ = { e with nStatus := e.nStatus.clearFailed })
    (hf : e₁.nStatus.failed = e₂.nStatus.failed) : e₁ = e₂ := by
  rcases h₁ with rfl | rfl <;> rcases h₂ with rfl | rfl
  · rfl
  · rw [BlockStatus.clearFailed_of_not_failed (by simpa using hf)]
  · rw [BlockStatus.clearFailed_of_not_failed (by simpa using hf.symm)]
  · rfl

theorem SameShape.failed_of_failed {s s' : ChainState ι} {b : ι} (h : SameShape s s')
    (hb : s'.failed b) : s.failed b := by
  rcases h.entry b with e | e <;> rw [ChainState.failed, e] at hb
  · exact hb
  · simp at hb

variable [LinearOrder ι] {T : BlockTree ι} {s s' : ChainState ι} {p b : ι}
variable (T s b) in
def Eligible : Prop :=
  BlockValidity.transactions.level ≤ (s.index b).nStatus.valid.level ∧
    (s.index b).haveTxsDownloaded = true ∧ ∃ tip, s.tip = some tip ∧ workLess T s tip b = true

theorem workLess_asymm {a b : ι} (h : workLess T s a b) : workLess T s b a = false := by
  rw [← Bool.not_eq_true, workLess_iff]
  exact (workLess_iff.mp h).asymm

theorem SameShape.workLess_eq (h : SameShape s s') (a b : ι) :
    workLess T s' a b = workLess T s a b := by
  have hs : ∀ b, (s'.index b).nSequenceId = (s.index b).nSequenceId := fun b => by
    rcases h.entry b with e | e <;> rw [e]
  simp only [workLess, hs]

omit [LinearOrder ι] in
theorem SameShape.haveTxsDownloaded_eq (h : SameShape s s') (b : ι) :
    (s'.index b).haveTxsDownloaded = (s.index b).haveTxsDownloaded := by
  rcases h.entry b with e | e <;> simp [e, BlockEntry.haveTxsDownloaded]

theorem SameShape.eligible_iff (h : SameShape s s') : Eligible T s' b ↔ Eligible T s b := by
  have hv : (s'.index b).nStatus.valid = (s.index b).nStatus.valid := by
    rcases h.entry b with e | e <;> simp [e, BlockStatus.clearFailed]
  simp only [Eligible, hv, h.haveTxsDownloaded_eq, h.tip, h.workLess_eq]

/-- One step keeps the shape, clears the flags of `clears` and adds the failed and eligible blocks
of `adds` to the candidates. -/
structure Resets (T : BlockTree ι) (s s' : ChainState ι) (clears adds : ι → Prop) : Prop where
  shape : SameShape s s'
  failed_iff : ∀ c, s'.failed c = true ↔ s.failed c = true ∧ ¬ clears c
  mem_candidates : ∀ c, c ∈ s'.setBlockIndexCandidates ↔ c ∈ s.setBlockIndexCandidates ∨
    adds c ∧ s.failed c = true ∧ Eligible T s c

theorem Resets.refl (T : BlockTree ι) (s : ChainState ι) :
    Resets T s s (fun _ => False) (fun _ => False) :=
  ⟨.refl s, by simp, by simp⟩

theorem Resets.congr {clears adds clears' adds' : ι → Prop} (h : Resets T s s' clears adds)
    (hc : ∀ c, clears c ↔ clears' c) (ha : ∀ c, adds c ↔ adds' c) :
    Resets T s s' clears' adds' :=
  ⟨h.shape, by simpa only [hc] using h.failed_iff, by simpa only [ha] using h.mem_candidates⟩

theorem Resets.trans {s'' : ChainState ι} {c₁ a₁ c₂ a₂ : ι → Prop} (h₁ : Resets T s s' c₁ a₁)
    (h₂ : Resets T s' s'' c₂ a₂) :
    Resets T s s'' (fun c => c₁ c ∨ c₂ c) (fun c => a₁ c ∨ ¬ c₁ c ∧ a₂ c) := by
  refine ⟨h₁.shape.trans h₂.shape, fun c => ?_, fun c => ?_⟩
  · rw [h₂.failed_iff, h₁.failed_iff]; tauto
  · rw [h₂.mem_candidates, h₁.mem_candidates, h₁.failed_iff, h₁.shape.eligible_iff]; tauto

theorem clearFailed_sameShape (s : ChainState ι) (b : ι) : SameShape s (s.clearFailed b) := by
  refine ⟨rfl, rfl, fun c => ?_⟩
  rcases eq_or_ne c b with rfl | hn
  · exact .inr (by simp [ChainState.clearFailed, ChainState.modify])
  · exact .inl (by simp [ChainState.clearFailed, ChainState.modify, hn])

theorem failed_clearFailed (s : ChainState ι) (b c : ι) :
    (s.clearFailed b).failed c ↔ s.failed c ∧ c ≠ b := by
  rcases eq_or_ne c b with rfl | hn
  · simp [ChainState.clearFailed, ChainState.modify, ChainState.failed]
  · simp [ChainState.clearFailed, ChainState.modify, ChainState.failed, hn]

theorem resetAncestor_resets (s : ChainState ι) (b : ι) :
    Resets T s (resetAncestor s b) (· = b) (fun _ => False) := by
  unfold resetAncestor
  split_ifs with h
  · have hm := clearFailed_sameShape s b
    exact ⟨⟨hm.keys, hm.tip, hm.entry⟩, failed_clearFailed s b,
      by simp [ChainState.clearFailed, ChainState.modify, ChainState.eraseFailed]⟩
  · refine ⟨.refl s, fun c => ?_, by simp⟩
    simp only [iff_self_and]
    rintro hc rfl
    exact h hc

theorem inserted_iff_eligible (s : ChainState ι) (b : ι) :
    (((s.clearFailed b).index b).isValid && ((s.clearFailed b).index b).haveTxsDownloaded &&
      betterThanTip T (s.clearFailed b) b) ↔ Eligible T s b := by
  have hf : ((s.clearFailed b).index b).nStatus.failed = false := by
    simp [ChainState.clearFailed, ChainState.modify]
  rw [← (clearFailed_sameShape s b).eligible_iff (T := T)]
  simp only [Eligible, BlockEntry.isValid, hf, betterThanTip, Bool.and_eq_true, Bool.false_eq_true,
    if_false, decide_eq_true_eq, and_assoc]
  cases (s.clearFailed b).tip <;> simp

theorem resetEntry_resets (s : ChainState ι) (b : ι) (h : (s.index b).isValid = false) :
    Resets T s (resetEntry T s b) (· = b) (· = b) := by
  have hm := clearFailed_sameShape s b
  have hf : Eligible T s b → s.failed b = true := fun he => by
    simp only [BlockEntry.isValid] at h
    split_ifs at h with hf
    · exact hf
    · simp only [decide_eq_false_iff_not] at h; exact absurd he.1 h
  unfold resetEntry
  dsimp only
  split_ifs with hi
  · have he := (inserted_iff_eligible s b).mp hi
    refine ⟨⟨hm.keys, hm.tip, hm.entry⟩, failed_clearFailed s b, fun c => ?_⟩
    show c ∈ insert b _ ↔ _
    rw [Finset.mem_insert]
    constructor
    · rintro (rfl | hc)
      · exact .inr ⟨rfl, hf he, he⟩
      · exact .inl hc
    · rintro (hc | ⟨rfl, -⟩)
      · exact .inr hc
      · exact .inl rfl
  · refine ⟨hm, failed_clearFailed s b, fun c => ⟨.inl, ?_⟩⟩
    rintro (hc | ⟨rfl, -, hc⟩)
    · exact hc
    · exact absurd ((inserted_iff_eligible s c).mpr hc) hi

theorem resetDescendant_resets (p : ι) (s : ChainState ι) (b : ι) :
    Resets T s (resetDescendant T p s b) (fun c => c = b ∧ p ∈ T.path b)
      (fun c => c = b ∧ p ∈ T.path b) := by
  unfold resetDescendant
  simp only [ancestorAt_eq_some, Bool.and_eq_true, Bool.not_eq_true', decide_eq_true_eq]
  by_cases h : (s.index b).isValid = false ∧ p ∈ T.path b
  · rw [if_pos h]
    have R : Resets T s (resetEntry T s b) (fun c => c = b ∧ p ∈ T.path b)
        (fun c => c = b ∧ p ∈ T.path b) :=
      (resetEntry_resets s b h.1).congr (by simp [h.2]) (by simp [h.2])
    exact ⟨⟨R.shape.keys, R.shape.tip, R.shape.entry⟩, R.failed_iff, R.mem_candidates⟩
  · rw [if_neg h]
    have hf : ∀ c, c = b ∧ p ∈ T.path b → ¬ s.failed c := by
      rintro c ⟨rfl, hp⟩ hc
      exact h ⟨by simp [BlockEntry.isValid, hc], hp⟩
    refine ⟨.refl s, fun c => ?_, fun c => ?_⟩
    all_goals have := hf c; tauto

theorem foldl_resetDescendant_resets (p : ι) (l : List ι) (s : ChainState ι) :
    Resets T s (l.foldl (resetDescendant T p) s) (fun c => c ∈ l ∧ p ∈ T.path c)
      (fun c => c ∈ l ∧ p ∈ T.path c) := by
  induction l generalizing s with
  | nil => exact (Resets.refl T s).congr (by simp) (by simp)
  | cons b l ih =>
    refine ((resetDescendant_resets p s b).trans (ih _)).congr (fun c => ?_) (fun c => ?_) <;>
    · rw [mem_cons]
      by_cases hc : c = b
      · subst hc; tauto
      · tauto

theorem foldl_resetAncestor_resets (l : List ι) (s : ChainState ι) :
    Resets T s (l.foldl resetAncestor s) (· ∈ l) (fun _ => False) := by
  induction l generalizing s with
  | nil => exact (Resets.refl T s).congr (by simp) (by simp)
  | cons b l ih =>
    exact ((resetAncestor_resets s b).trans (ih _)).congr (by simp) (by simp)

/-- `ResetBlockFailureFlags` clears flags of descendants and ancestors, but makes candidates of
descendants only. -/
theorem resetBlockFailureFlags_resets (s : ChainState ι) (p : ι) :
    Resets T s (resetBlockFailureFlags T s p)
      (fun c => c ∈ s.m_block_index ∧ p ∈ T.path c ∨ c ∈ T.path p)
      (fun c => c ∈ s.m_block_index ∧ p ∈ T.path c) :=
  ((foldl_resetDescendant_resets p s.m_block_index s).trans
    (foldl_resetAncestor_resets (T.path p) _)).congr (fun _ => Iff.rfl) (by simp)

variable (T s) in
/-- A block index as `LoadBlockIndex` and `LoadChainTip` leave it. -/
structure Loaded : Prop where
  parent_mem : ∀ b ∈ s.m_block_index, ∀ p, T.parent b = some p → p ∈ s.m_block_index
  failed_child : ∀ b ∈ s.m_block_index, ∀ p, T.parent b = some p → s.failed p = true →
    s.failed b = true
  valid_of_haveTxsDownloaded : ∀ b ∈ s.m_block_index, (s.index b).haveTxsDownloaded = true →
    BlockValidity.transactions.level ≤ (s.index b).nStatus.valid.level
  tip_mem : ∃ tip ∈ s.m_block_index, s.tip = some tip
  mem_candidates : ∀ b, b ∈ s.setBlockIndexCandidates ↔ b ∈ s.m_block_index ∧
    (s.index b).isValid = true ∧ ((s.index b).haveTxsDownloaded = true ∨ T.parent b = none) ∧
    ∀ tip, s.tip = some tip → workLess T s b tip = false

theorem Loaded.path_mem (h : Loaded T s) {a : ι} (hb : b ∈ s.m_block_index)
    (ha : a ∈ T.path b) : a ∈ s.m_block_index := by
  induction b using T.induction with
  | root b hr => rwa [(mem_path_root hr).mp ha]
  | child b p hp ih =>
    rcases (mem_path_child hp).mp ha with rfl | ha'
    · exact hb
    · exact ih (h.parent_mem b hb p hp) ha'

theorem Loaded.failed_descends (h : Loaded T s) {a : ι} (hb : b ∈ s.m_block_index)
    (hab : a ∈ T.path b) (ha : s.failed a) : s.failed b :=
  descends (P := fun b => b ∈ s.m_block_index → s.failed b = true)
    (fun b p hp ih hb => h.failed_child b hb p hp (ih (h.parent_mem b hb p hp))) hab
    (fun _ => ha) hb

def resetStep (T : BlockTree ι) (taprootHeight : ℕ) (s : ChainState ι) (b : ι) : ChainState ι :=
  if T.height b < taprootHeight && (s.index b).nStatus.failed then resetBlockFailureFlags T s b
  else s

/-- The loop of `AppInitMain`. -/
def resetBelowTaproot (T : BlockTree ι) (taprootHeight : ℕ) (s : ChainState ι) : ChainState ι :=
  s.m_block_index.foldl (resetStep T taprootHeight) s

/-- No failed block below the height that could become a candidate has a child below it. -/
def NoSkippedAncestor (T : BlockTree ι) (taprootHeight : ℕ) (s : ChainState ι) : Prop :=
  ∀ b ∈ s.m_block_index, T.height b < taprootHeight → s.failed b = true →
    (s.index b).haveTxsDownloaded = true → (∃ tip, s.tip = some tip ∧ workLess T s tip b = true) →
    ∀ c ∈ s.m_block_index, T.parent c = some b → taprootHeight ≤ T.height c

structure LoopInv (T : BlockTree ι) (h : ℕ) (s₀ s : ChainState ι) (done : List ι) : Prop where
  shape : SameShape s₀ s
  visited : ∀ b ∈ done, T.height b < h → s.failed b = false
  origin : ∀ b, s₀.failed b = true → s.failed b = false → b ∈ s₀.m_block_index ∧
    ∃ x, T.height x < h ∧ s₀.failed x = true ∧ (x ∈ T.path b ∨ b ∈ T.path x)
  boundary : ∀ b ∈ s₀.m_block_index, ∀ a ∈ T.path b, T.height a + 1 = h →
    s₀.failed a = true → s.failed a = false → s.failed b = false
  kept : s₀.setBlockIndexCandidates ⊆ s.setBlockIndexCandidates
  added : ∀ c ∈ s.setBlockIndexCandidates, c ∈ s₀.setBlockIndexCandidates ∨
    c ∈ s₀.m_block_index ∧ s₀.failed c = true ∧ s.failed c = false ∧ Eligible T s₀ c
  complete : NoSkippedAncestor T h s₀ → ∀ c ∈ s₀.m_block_index, s₀.failed c = true →
    s.failed c = false → Eligible T s₀ c → c ∈ s.setBlockIndexCandidates

theorem Resets.not_failed_iff {clears adds : ι → Prop} (h : Resets T s s' clears adds) (c : ι) :
    s'.failed c = false ↔ s.failed c = false ∨ clears c := by
  have := h.failed_iff c
  cases h₁ : s'.failed c <;> cases h₂ : s.failed c <;> simp_all

variable {n : ℕ} {s₀ : ChainState ι} {done : List ι} {x : ι}

theorem LoopInv.reset (hl : Loaded T s₀) (h : LoopInv T n s₀ s done) (hx : x ∈ s₀.m_block_index)
    (hn : T.height x < n) (hf : s.failed x) :
    LoopInv T n s₀ (resetBlockFailureFlags T s x) (x :: done) := by
  have R := resetBlockFailureFlags_resets (T := T) s x
  have hk : s.m_block_index = s₀.m_block_index := h.shape.keys
  rw [hk] at R
  have hf₀ := h.shape.failed_of_failed hf
  refine ⟨h.shape.trans R.shape, ?_, ?_, ?_, ?_, ?_, ?_⟩
  · rintro b hb hbn
    rw [R.not_failed_iff]
    rcases mem_cons.mp hb with rfl | hb
    · exact .inr (.inr (self_mem_path b))
    · exact .inl (h.visited b hb hbn)
  · intro b hb₀ hb
    rcases (R.not_failed_iff b).mp hb with hb | ⟨hm, hb⟩ | hb
    · exact h.origin b hb₀ hb
    · exact ⟨hm, x, hn, hf₀, .inl hb⟩
    · exact ⟨hl.path_mem hx hb, x, hn, hf₀, .inr hb⟩
  · intro b hb a hab han ha₀ ha
    rw [R.not_failed_iff]
    rcases (R.not_failed_iff a).mp ha with ha | ⟨-, ha⟩ | ha
    · exact .inl (h.boundary b hb a hab han ha₀ ha)
    · exact .inr (.inl ⟨hb, mem_path_trans ha hab⟩)
    · obtain rfl : a = x := eq_of_height_ge ha (by omega)
      exact .inr (.inl ⟨hb, hab⟩)
  · intro c hc
    exact (R.mem_candidates c).mpr (.inl (h.kept hc))
  · intro c hc
    rcases (R.mem_candidates c).mp hc with hc | ⟨hc, hcf, hce⟩
    · rcases h.added c hc with hc | ⟨hc, hc₀, hcf, hce⟩
      · exact .inl hc
      · exact .inr ⟨hc, hc₀, (R.not_failed_iff c).mpr (.inl hcf), hce⟩
    · exact .inr ⟨hc.1, h.shape.failed_of_failed hcf, (R.not_failed_iff c).mpr (.inr (.inl hc)),
        h.shape.eligible_iff.mp hce⟩
  · intro hg c hc hc₀ hcf hce
    rw [R.mem_candidates]
    rcases Bool.eq_false_or_eq_true (s.failed c) with hcs | hcs
    · refine .inr ⟨⟨hc, ?_⟩, hcs, h.shape.eligible_iff.mpr hce⟩
      rcases (R.not_failed_iff c).mp hcf with hcf | ⟨-, hxc⟩ | hcx
      · rw [hcs] at hcf; cases hcf
      · exact hxc
      · rcases eq_or_ne c x with rfl | hne
        · exact self_mem_path c
        · -- a proper ancestor of `x` has a child below the height
          obtain ⟨d, hd, hdc⟩ := exists_child_on_path hcx hne
          have hcn := height_le hcx
          have := hg c hc (by omega) hc₀ hce.2.1 hce.2.2 d (hl.path_mem hx hd) hdc
          have := height_le hd
          omega
    · exact .inl (h.complete hg c hc hc₀ hcs hce)

theorem LoopInv.step (hl : Loaded T s₀) (h : LoopInv T n s₀ s done) (hx : x ∈ s₀.m_block_index) :
    LoopInv T n s₀ (resetStep T n s x) (x :: done) := by
  unfold resetStep
  split_ifs with hc
  · simp only [Bool.and_eq_true, decide_eq_true_eq] at hc
    exact h.reset hl hx hc.1 hc.2
  · refine { h with visited := ?_ }
    intro b hb hbn
    rcases mem_cons.mp hb with rfl | hb
    · simpa [hbn] using hc
    · exact h.visited b hb hbn

theorem LoopInv.foldl (hl : Loaded T s₀) (l : List ι) (hs : ∀ x ∈ l, x ∈ s₀.m_block_index) :
    ∀ {s : ChainState ι} {done : List ι}, LoopInv T n s₀ s done →
      LoopInv T n s₀ (l.foldl (resetStep T n) s) (l.reverse ++ done) := by
  induction l with
  | nil => intro s done h; exact h
  | cons x l ih =>
    intro s done h
    rw [reverse_cons, append_assoc]
    exact ih (fun y hy => hs y (mem_cons_of_mem _ hy))
      (h.step hl (hs x mem_cons_self))

theorem resetBelowTaproot_inv (hl : Loaded T s₀) :
    LoopInv T n s₀ (resetBelowTaproot T n s₀) s₀.m_block_index := by
  have h₀ : LoopInv T n s₀ s₀ [] :=
    ⟨.refl s₀, by simp, fun b h h' => absurd (h.symm.trans h') (by simp),
      fun b hb a ha _ h h' => absurd (h.symm.trans h') (by simp), fun _ hc => hc,
      fun c hc => .inl hc, fun _ c _ h h' => absurd (h.symm.trans h') (by simp)⟩
  have h := LoopInv.foldl (n := n) hl s₀.m_block_index (fun _ hx => hx) h₀
  exact { h with visited := fun b hb => h.visited b (by simpa using hb) }

/-- The flags that remain are those of failed blocks without a failed ancestor-or-self below the
height. -/
theorem resetBelowTaproot_failed_iff (hl : Loaded T s₀) (hb : b ∈ s₀.m_block_index) :
    (resetBelowTaproot T n s₀).failed b ↔
      s₀.failed b ∧ ∀ a ∈ T.path b, T.height a < n → s₀.failed a = false := by
  have h := resetBelowTaproot_inv (n := n) hl
  constructor
  · intro hf
    refine ⟨h.shape.failed_of_failed hf, fun a ha han => ?_⟩
    by_contra hfa
    rw [Bool.not_eq_false] at hfa
    rcases Nat.lt_or_ge (T.height b) n with hbn | hbn
    · rw [h.visited b hb hbn] at hf; cases hf
    · obtain ⟨c, hc, hcn⟩ := exists_mem_path_height ha (show T.height a ≤ n - 1 by omega)
        (by omega)
      have hcm := hl.path_mem hb hc
      have hfc := hl.failed_descends hcm (mem_path_of_height_le ha hc (by omega)) hfa
      have hb' := h.boundary b hb c hc (by omega) hfc (h.visited c hcm (by omega))
      rw [hf] at hb'; cases hb'
  · rintro ⟨hf, hac⟩
    by_contra hb'
    rw [Bool.not_eq_true] at hb'
    obtain ⟨-, x, hxn, hx, hxb | hbx⟩ := h.origin b hf hb'
    · rw [hac x hxb hxn] at hx; cases hx
    · have := height_le hbx
      rw [hac b (self_mem_path b) (by omega)] at hf; cases hf

theorem resetBelowTaproot_mem_candidates (hl : Loaded T s₀) (hg : NoSkippedAncestor T n s₀)
    (c : ι) :
    c ∈ (resetBelowTaproot T n s₀).setBlockIndexCandidates ↔ c ∈ s₀.setBlockIndexCandidates ∨
      c ∈ s₀.m_block_index ∧ s₀.failed c ∧
        (resetBelowTaproot T n s₀).failed c = false ∧ Eligible T s₀ c := by
  have h := resetBelowTaproot_inv (n := n) hl
  constructor
  · exact h.added c
  · rintro (hc | ⟨hc, hc₀, hcf, hce⟩)
    · exact h.kept hc
    · exact h.complete hg c hc hc₀ hcf hce

def ChainState.iterated (s : ChainState ι) (order : List ι) : ChainState ι :=
  { s with m_block_index := order }

theorem Loaded.iterated (hl : Loaded T s) {order : List ι} (ho : order.Perm s.m_block_index) :
    Loaded T (s.iterated order) := by
  obtain ⟨tip, hti, ht⟩ := hl.tip_mem
  refine ⟨fun b hb p hp => ?_, fun b hb => ?_, fun b hb => ?_, ⟨tip, ho.mem_iff.mpr hti, ht⟩, ?_⟩
  · exact ho.mem_iff.mpr (hl.parent_mem b (ho.mem_iff.mp hb) p hp)
  · exact hl.failed_child b (ho.mem_iff.mp hb)
  · exact hl.valid_of_haveTxsDownloaded b (ho.mem_iff.mp hb)
  · exact fun b => (hl.mem_candidates b).trans (and_congr_left' ho.mem_iff.symm)

/-- The outcome is the same for all orders, no block below the height keeps a flag, and every block
now valid, complete and better than the tip is a candidate. -/
structure TaprootResetOk (T : BlockTree ι) (n : ℕ) (s : ChainState ι) : Prop where
  flags : ∀ o o' : List ι, o.Perm s.m_block_index → o'.Perm s.m_block_index → ∀ b,
    (resetBelowTaproot T n (s.iterated o)).index b =
      (resetBelowTaproot T n (s.iterated o')).index b
  candidates : ∀ o o' : List ι, o.Perm s.m_block_index → o'.Perm s.m_block_index →
    (resetBelowTaproot T n (s.iterated o)).setBlockIndexCandidates =
      (resetBelowTaproot T n (s.iterated o')).setBlockIndexCandidates
  cleared : ∀ o : List ι, o.Perm s.m_block_index → ∀ b ∈ s.m_block_index, T.height b < n →
    (resetBelowTaproot T n (s.iterated o)).failed b = false
  complete : ∀ o : List ι, o.Perm s.m_block_index → ∀ b ∈ s.m_block_index,
    (∀ a ∈ T.path b, (resetBelowTaproot T n (s.iterated o)).failed a = false) →
    ((resetBelowTaproot T n (s.iterated o)).index b).haveTxsDownloaded = true →
    (∃ tip, (resetBelowTaproot T n (s.iterated o)).tip = some tip ∧
      workLess T (resetBelowTaproot T n (s.iterated o)) tip b = true) →
    b ∈ (resetBelowTaproot T n (s.iterated o)).setBlockIndexCandidates

theorem resetBelowTaproot_failed_eq (hl : Loaded T s) {o o' : List ι}
    (ho : o.Perm s.m_block_index) (ho' : o'.Perm s.m_block_index) (b : ι) :
    (resetBelowTaproot T n (s.iterated o)).failed b =
      (resetBelowTaproot T n (s.iterated o')).failed b := by
  by_cases hb : b ∈ s.m_block_index
  · rw [Bool.eq_iff_iff, resetBelowTaproot_failed_iff (hl.iterated ho) (ho.mem_iff.mpr hb),
      resetBelowTaproot_failed_iff (hl.iterated ho') (ho'.mem_iff.mpr hb)]
    rfl
  · have key : ∀ {o : List ι}, o.Perm s.m_block_index →
        (resetBelowTaproot T n (s.iterated o)).failed b = s.failed b := by
      intro o ho
      have h := resetBelowTaproot_inv (n := n) (hl.iterated ho)
      rw [Bool.eq_iff_iff]
      refine ⟨h.shape.failed_of_failed, fun hf => ?_⟩
      by_contra hb'
      rw [Bool.not_eq_true] at hb'
      exact hb (ho.mem_iff.mp (h.origin b hf hb').1)
    rw [key ho, key ho']

theorem taprootResetOk_of_noSkippedAncestor (hl : Loaded T s) (hg : NoSkippedAncestor T n s) :
    TaprootResetOk T n s := by
  have hg' : ∀ {o : List ι}, o.Perm s.m_block_index → NoSkippedAncestor T n (s.iterated o) :=
    fun ho b hb hbn hf ht hw c hc =>
      hg b (ho.mem_iff.mp hb) hbn hf ht hw c (ho.mem_iff.mp hc)
  refine ⟨fun o o' ho ho' b => ?_, fun o o' ho ho' => ?_, fun o ho b hb hbn => ?_,
    fun o ho b hb ha ht hw => ?_⟩
  · have h := resetBelowTaproot_inv (n := n) (hl.iterated ho)
    have h' := resetBelowTaproot_inv (n := n) (hl.iterated ho')
    exact BlockEntry.eq_of_failed_eq (h.shape.entry b) (h'.shape.entry b)
      (resetBelowTaproot_failed_eq hl ho ho' b)
  · ext c
    rw [resetBelowTaproot_mem_candidates (hl.iterated ho) (hg' ho),
      resetBelowTaproot_mem_candidates (hl.iterated ho') (hg' ho'),
      resetBelowTaproot_failed_eq hl ho ho']
    simp only [ChainState.iterated, ho.mem_iff, ho'.mem_iff]
    rfl
  · exact (resetBelowTaproot_inv (hl.iterated ho)).visited b (ho.mem_iff.mpr hb) hbn
  · have h := resetBelowTaproot_inv (n := n) (hl.iterated ho)
    rw [h.shape.haveTxsDownloaded_eq] at ht
    simp only [h.shape.tip, h.shape.workLess_eq] at hw
    have hv := hl.valid_of_haveTxsDownloaded b hb ht
    rw [resetBelowTaproot_mem_candidates (hl.iterated ho) (hg' ho)]
    rcases Bool.eq_false_or_eq_true (s.failed b) with hf | hf
    · exact .inr ⟨ho.mem_iff.mpr hb, hf, ha b (self_mem_path b), hv, ht, hw⟩
    · refine .inl ((hl.mem_candidates b).mpr ⟨hb, ?_, .inl ht, fun tip hti => ?_⟩)
      · simp only [BlockEntry.isValid, show (s.index b).nStatus.failed = false from hf]
        simpa using hv
      · obtain ⟨tip', hti', hw⟩ := hw
        obtain rfl : tip' = tip := Option.some.inj (hti'.symm.trans hti)
        exact workLess_asymm hw

theorem foldl_resetStep_settled (l : List ι) (hb : s.failed b = false) :
    b ∈ (l.foldl (resetStep T n) s).setBlockIndexCandidates ↔ b ∈ s.setBlockIndexCandidates := by
  induction l generalizing s with
  | nil => rfl
  | cons x l ih =>
    rw [foldl_cons]
    unfold resetStep
    split_ifs
    · have R := resetBlockFailureFlags_resets (T := T) s x
      have := ih ((R.not_failed_iff b).mpr (.inl hb))
      unfold resetStep at this
      rw [this, R.mem_candidates, hb]
      simp
    · exact ih hb

theorem resetBelowTaproot_cons (hb : T.height b < n) (hf : s.failed b) (l : List ι) :
    resetBelowTaproot T n (s.iterated (b :: l)) =
      l.foldl (resetStep T n) (resetBlockFailureFlags T (s.iterated (b :: l)) b) := by
  have : resetStep T n (s.iterated (b :: l)) b =
      resetBlockFailureFlags T (s.iterated (b :: l)) b := by
    exact if_pos (Bool.and_eq_true_iff.mpr ⟨decide_eq_true hb, hf⟩)
  rw [← this]
  rfl

theorem Loaded.not_candidate_of_failed (hl : Loaded T s) (hf : s.failed b) :
    b ∉ s.setBlockIndexCandidates := by
  intro hb
  have := ((hl.mem_candidates b).mp hb).2.1
  simp [BlockEntry.isValid, show (s.index b).nStatus.failed = true from hf] at this

theorem not_candidate_of_child_first (hl : Loaded T s) {c : ι} (hf : s.failed b)
    (hc : c ∈ s.m_block_index) (hcb : T.parent c = some b) (hcn : T.height c < n) (l : List ι) :
    b ∉ (resetBelowTaproot T n (s.iterated (c :: l))).setBlockIndexCandidates := by
  have R := resetBlockFailureFlags_resets (T := T) (s.iterated (c :: l)) c
  rw [resetBelowTaproot_cons hcn (hl.failed_child c hc b hcb hf),
    foldl_resetStep_settled l ((R.not_failed_iff b).mpr (.inr (.inr (parent_mem_path hcb)))),
    R.mem_candidates]
  rintro (hb | ⟨⟨-, hcb'⟩, -⟩)
  · exact hl.not_candidate_of_failed hf hb
  · have := height_le hcb'
    have := T.height_parent hcb
    omega

theorem candidate_of_first (hf : s.failed b)
    (hb : T.height b < n) (he : Eligible T s b) (l : List ι) :
    b ∈ (resetBelowTaproot T n (s.iterated (b :: l))).setBlockIndexCandidates := by
  have R := resetBlockFailureFlags_resets (T := T) (s.iterated (b :: l)) b
  rw [resetBelowTaproot_cons hb hf,
    foldl_resetStep_settled l ((R.not_failed_iff b).mpr (.inr (.inr (self_mem_path b)))),
    R.mem_candidates]
  exact .inr ⟨⟨mem_cons_self, self_mem_path b⟩, hf, he⟩

/-- The loop is order independent and complete exactly if no failed block below the Taproot height
that is complete and better than the tip has a child below that height. -/
theorem taprootResetOk_iff (hl : Loaded T s) : TaprootResetOk T n s ↔ NoSkippedAncestor T n s := by
  refine ⟨fun h b hb hbn hf ht hw c hc hcb => ?_, taprootResetOk_of_noSkippedAncestor hl⟩
  by_contra hcn
  have ho : (b :: s.m_block_index.erase b).Perm s.m_block_index := (perm_cons_erase hb).symm
  have ho' : (c :: s.m_block_index.erase c).Perm s.m_block_index := (perm_cons_erase hc).symm
  have he : Eligible T s b := ⟨hl.valid_of_haveTxsDownloaded b hb ht, ht, hw⟩
  have hm := candidate_of_first hf hbn he (s.m_block_index.erase b)
  rw [h.candidates _ _ ho ho'] at hm
  exact not_candidate_of_child_first hl hf hc hcb (by omega) _ hm

def chainOfThree : BlockTree (Fin 3) where
  parent b := match b with
    | 0 => none
    | 1 => some 0
    | 2 => some 1
  height b := b
  height_parent := by decide
  nChainWork b := b + 1
  nChainWork_parent := by decide
  hashGenesisBlock := 0
  parent_genesis := rfl
  nMinimumChainWork := 0

/-- All three blocks are stored, the tip is genesis and the given blocks are failed. -/
def storedChain (failedValid failedChild : Fin 3 → Bool) : ChainState (Fin 3) where
  m_block_index := [0, 1, 2]
  index b :=
    { nStatus := ⟨.transactions, true, false, failedValid b, failedChild b⟩
      nTx := 1
      nChainTx := b + 1 }
  setBlockIndexCandidates :=
    Finset.univ.filter fun b => failedValid b = false ∧ failedChild b = false
  m_blocks_unlinked := []
  m_failed_blocks := ∅
  tip := some 0
  pindexBestInvalid := none
  pindexBestHeader := some 2
  nBlockSequenceId := 1
  fHavePruned := false

theorem loaded_of_decide {m : ℕ} {T : BlockTree (Fin m)} {s : ChainState (Fin m)}
    (h₁ : ∀ b ∈ s.m_block_index, ∀ p, T.parent b = some p → p ∈ s.m_block_index ∧
      (s.failed p → s.failed b))
    (h₂ : ∀ b ∈ s.m_block_index, (s.index b).haveTxsDownloaded →
      BlockValidity.transactions.level ≤ (s.index b).nStatus.valid.level)
    (h₃ : ∃ tip ∈ s.m_block_index, s.tip = some tip)
    (h₄ : ∀ b, b ∈ s.setBlockIndexCandidates ↔ b ∈ s.m_block_index ∧
      (s.index b).isValid ∧ ((s.index b).haveTxsDownloaded ∨ T.parent b = none) ∧
      ∀ tip, s.tip = some tip → workLess T s b tip = false) : Loaded T s :=
  ⟨fun b hb p hp => (h₁ b hb p hp).1, fun b hb p hp => (h₁ b hb p hp).2, h₂, h₃, h₄⟩

/-- A single failed block at the end of the chain becomes a candidate in every order. -/
theorem taprootResetOk_iff_leaf : Loaded chainOfThree (storedChain (· = 2) fun _ => false) ∧
      TaprootResetOk chainOfThree 3 (storedChain (· = 2) fun _ => false) := by
  have hl : Loaded chainOfThree (storedChain (· = 2) fun _ => false) :=
    loaded_of_decide (by decide) (by decide) (by decide) (by decide)
  have hle : ∀ b, (storedChain (· = 2) fun _ => false).failed b = true →
      ∀ c, chainOfThree.parent c = some b → 3 ≤ chainOfThree.height c := by decide
  exact ⟨hl, (taprootResetOk_iff hl).mpr fun b _ _ hf _ _ c _ => hle b hf c⟩

/-- A failed block with a child: when the child is reset first, the block loses its flag and does
not become a candidate. -/
theorem taprootResetOk_fails_of_child : Loaded chainOfThree (storedChain (· = 1) (· = 2)) ∧
      ¬ TaprootResetOk chainOfThree 3 (storedChain (· = 1) (· = 2)) := by
  refine ⟨loaded_of_decide (by decide) (by decide) (by decide) (by decide), fun h => ?_⟩
  have hc := h.candidates [2, 1, 0] [0, 1, 2] (by decide) (by decide)
  revert hc
  decide

end Palladium.Validation
