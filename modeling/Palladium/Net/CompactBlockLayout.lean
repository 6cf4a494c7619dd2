import Palladium.Lib.Meets
import Palladium.Net.CompactBlock

/-! # Positions of the transactions of a compact block

Whatever a message says, the prefilled transactions and the short ids get different positions of
the block, and no position outside of it is touched.
-/

namespace Palladium.Net
open List
variable {α : Type}

def Exit.IsStatus (e : Exit) : Prop := ∃ status, e = .status status

variable {i nPrefilled nShort pos indexOffset : ℕ} {v : List α} {lastprefilledindex : ℤ}
  {txnAvailable : List (Option CTransaction)} {ids : List ℕ} {shorttxids : ShortIdMap}
  {bucketSize : ShortIdMap → ℕ → ℕ}

theorem readAt_of_getElem? {a : α} (h : v[i]? = some a) : readAt v i = .ok a := by
  rw [readAt, h]

theorem writeAt_of_lt (h : i < v.length) (a : α) : writeAt v i a = .ok (v.set i a) := if_pos h

/-- All positions after the last one that was filled are free. -/
structure Prefilled (nShort nPrefilled i : ℕ) (lastprefilledindex : ℤ)
    (txnAvailable : List (Option CTransaction)) : Prop where
  length_eq : txnAvailable.length = nShort + nPrefilled
  neg_one_le : -1 ≤ lastprefilledindex
  free : ∀ j : ℕ, lastprefilledindex < j → j < txnAvailable.length → txnAvailable[j]? = some none
  countP_isNone : txnAvailable.countP Option.isNone + i = nShort + nPrefilled

theorem prefilled_replicate (nShort nPrefilled : ℕ) :
    Prefilled nShort nPrefilled 0 (-1) (.replicate (nShort + nPrefilled) none) where
  length_eq := length_replicate
  neg_one_le := le_rfl
  free j _ hj := by
    rw [length_replicate] at hj
    simp [hj]
  countP_isNone := by simp [countP_replicate]

section
variable (h : Prefilled nShort nPrefilled i lastprefilledindex txnAvailable)
include h

theorem Prefilled.set (hp : lastprefilledindex < pos) (hl : pos < txnAvailable.length)
    (tx : CTransaction) :
    Prefilled nShort nPrefilled (i + 1) pos (txnAvailable.set pos (some tx)) where
  length_eq := by rw [length_set, h.length_eq]
  neg_one_le := by omega
  free j hj hjlt := by
    rw [length_set] at hjlt
    rw [List.getElem?_set_ne (by omega)]
    exact h.free j (by omega) hjlt
  countP_isNone := by
    have hn : txnAvailable[pos] = none := by
      simpa [List.getElem?_eq_getElem hl] using h.free pos hp hl
    have hc := h.countP_isNone
    have hpo : 0 < txnAvailable.countP Option.isNone :=
      countP_pos_iff.mpr ⟨none, hn ▸ getElem_mem hl, rfl⟩
    rw [countP_set hl, hn]
    simp only [Option.isNone_none, Option.isNone_some, if_true, Bool.false_eq_true, if_false]
    omega

theorem prefill_meets {ps : List PrefilledTransaction} (hi : i + ps.length = nPrefilled) :
    (prefill nShort ps i lastprefilledindex txnAvailable).Meets Exit.IsStatus fun txnAvailable' =>
      txnAvailable'.length = nShort + nPrefilled ∧ txnAvailable'.countP Option.isNone = nShort := by
  induction ps generalizing i lastprefilledindex txnAvailable with
  | nil =>
    have := h.countP_isNone
    simp only [length_nil] at hi
    exact ⟨h.length_eq, by omega⟩
  | cons p ps ih =>
    rw [length_cons] at hi
    unfold prefill
    refine .ite (fun _ => ⟨_, rfl⟩) fun _ => .ite (fun _ => ⟨_, rfl⟩) fun _ =>
      .ite (fun _ => ⟨_, rfl⟩) fun hle => ?_
    have hla := h.neg_one_le
    have hl := h.length_eq
    obtain ⟨pos, hp⟩ := Int.eq_ofNat_of_zero_le
      (show 0 ≤ lastprefilledindex + p.index.toNat + 1 by omega)
    rw [hp, Int.toNat_natCast] at hle ⊢
    rw [writeAt_of_lt (by omega)]
    exact ih (h.set (by omega) (by omega) p.tx) (by omega)

end

theorem skipAvailable_eq (hl : txnAvailable.length ≤ 65535)
    (hf : i < txnAvailable.countP Option.isNone) {fuel : ℕ}
    (hfu : txnAvailable.length < fuel + (i + indexOffset))
    (hc : (txnAvailable.take (i + indexOffset)).countP Option.isNone = i) :
    ∃ indexOffset' ≥ indexOffset, skipAvailable txnAvailable i fuel indexOffset = .ok indexOffset' ∧
      txnAvailable[i + indexOffset']? = some none ∧
      (txnAvailable.take (i + indexOffset' + 1)).countP Option.isNone = i + 1 := by
  induction fuel generalizing indexOffset with
  | zero =>
    rw [take_of_length_le (by omega)] at hc
    omega
  | succ fuel ih =>
    have hlt : i + indexOffset < txnAvailable.length := by
      by_contra hge
      rw [take_of_length_le (by omega)] at hc
      omega
    have hg := List.getElem?_eq_getElem hlt
    have ht : txnAvailable.take (i + indexOffset + 1) =
        txnAvailable.take (i + indexOffset) ++ [txnAvailable[i + indexOffset]] :=
      take_succ_eq_append_getElem hlt
    unfold skipAvailable
    rw [readAt_of_getElem? hg]
    cases hs : txnAvailable[i + indexOffset] with
    | none =>
      rw [hs] at hg ht
      refine ⟨indexOffset, le_rfl, rfl, hg, ?_⟩
      rw [ht, countP_append, hc]
      rfl
    | some tx =>
      have hm : (indexOffset + 1) % 65536 = indexOffset + 1 := Nat.mod_eq_of_lt (by omega)
      obtain ⟨indexOffset', hge, he, hr⟩ := @ih (indexOffset + 1) (by omega) (by
        rw [← add_assoc, ht, countP_append, hc, hs]
        rfl)
      refine ⟨indexOffset', by omega, ?_, hr⟩
      simp only [bind, Except.bind, hm]
      exact he

structure Mapped (txnAvailable : List (Option CTransaction)) (ids : List ℕ) (bound : ℕ)
    (shorttxids : ShortIdMap) : Prop where
  mem_iff : ∀ id, id ∈ shorttxids ↔ id ∈ ids
  pos_lt : ∀ id pos, shorttxids.lookup id = some pos → pos < bound
  free : ∀ id pos, shorttxids.lookup id = some pos → txnAvailable[pos]? = some none
  injective : ∀ id id' pos, shorttxids.lookup id = some pos → shorttxids.lookup id' = some pos →
    id = id'

theorem Mapped.insert {bound : ℕ} (h : Mapped txnAvailable ids bound shorttxids) (id : ℕ)
    (hp : bound ≤ pos) (hf : txnAvailable[pos]? = some none) :
    Mapped txnAvailable (ids ++ [id]) (pos + 1) (shorttxids.insert id pos) := by
  -- the new position is not one of the old ones, which are below the bound
  have hc : ∀ id' pos', (shorttxids.insert id pos).lookup id' = some pos' →
      (id' = id ∧ pos' = pos) ∨ (shorttxids.lookup id' = some pos' ∧ pos' < bound) := by
    intro id' pos' hl
    rcases eq_or_ne id' id with rfl | hn
    · rw [Finmap.lookup_insert] at hl
      exact .inl ⟨rfl, (Option.some.inj hl).symm⟩
    · rw [Finmap.lookup_insert_of_ne _ hn] at hl
      exact .inr ⟨hl, h.pos_lt id' pos' hl⟩
  refine ⟨fun id' => ?_, fun id' pos' hl => ?_, fun id' pos' hl => ?_,
    fun id₁ id₂ pos' h₁ h₂ => ?_⟩
  · rw [Finmap.mem_insert, h.mem_iff, mem_append, mem_singleton, or_comm]
  · rcases hc id' pos' hl with ⟨-, rfl⟩ | ⟨-, hlt⟩ <;> omega
  · rcases hc id' pos' hl with ⟨-, rfl⟩ | ⟨hold, -⟩
    · exact hf
    · exact h.free id' pos' hold
  · rcases hc id₁ pos' h₁ with ⟨rfl, rfl⟩ | ⟨hold₁, hlt₁⟩ <;>
      rcases hc id₂ _ h₂ with ⟨rfl, he⟩ | ⟨hold₂, hlt₂⟩
    · rfl
    · omega
    · omega
    · exact h.injective id₁ id₂ pos' hold₁ hold₂

theorem mapShortIds_meets (hl : txnAvailable.length ≤ 65535) {mapped : List ℕ}
    (hn : txnAvailable.countP Option.isNone = mapped.length + ids.length)
    (hc : (txnAvailable.take (mapped.length + indexOffset)).countP Option.isNone =
      mapped.length) (h : Mapped txnAvailable mapped (mapped.length + indexOffset) shorttxids) :
    (mapShortIds bucketSize txnAvailable ids mapped.length indexOffset shorttxids).Meets
      Exit.IsStatus (Mapped txnAvailable (mapped ++ ids) txnAvailable.length) := by
  induction ids generalizing mapped indexOffset shorttxids with
  | nil =>
    rw [append_nil]
    refine ⟨h.mem_iff, fun id pos hlo => ?_, h.free, h.injective⟩
    exact (List.getElem?_eq_some_iff.mp (h.free id pos hlo)).1
  | cons id ids ih =>
    rw [length_cons] at hn
    obtain ⟨indexOffset', hg, he, hf, hc'⟩ :=
      @skipAvailable_eq _ indexOffset _ hl (by omega) 65536 (by omega) hc
    have hlt := (List.getElem?_eq_some_iff.mp hf).1
    unfold mapShortIds
    rw [he]
    refine .ite (fun _ => ⟨_, rfl⟩) fun _ => ?_
    rw [Nat.mod_eq_of_lt (by omega)]
    have hm := h.insert id (by omega) hf
    have hnt := @ih indexOffset' _ (mapped ++ [id]) (by simp; omega)
      (by simpa [add_right_comm] using hc')
      (by simpa [add_right_comm] using hm)
    simpa using hnt

/-- The positions that `InitData` works with. -/
structure Layout (c : CBlockHeaderAndShortTxIDs) (txnAvailable : List (Option CTransaction))
    (shorttxids : ShortIdMap) : Prop where
  length_eq : txnAvailable.length = c.blockTxCount
  mapped : Mapped txnAvailable c.shorttxids txnAvailable.length shorttxids
  card_eq : shorttxids.keys.card = c.shorttxids.length

theorem layout_meets {c : CBlockHeaderAndShortTxIDs} (h : c.Deserialized) :
    (layout bucketSize c).Meets Exit.IsStatus fun r => Layout c r.1 r.2 := by
  unfold layout
  refine .bind (prefill_meets (prefilled_replicate _ _) (Nat.zero_add _))
    fun txnAvailable hp => ?_
  have hl : txnAvailable.length ≤ 65535 := hp.1 ▸ h
  have he : Mapped txnAvailable [] 0 ∅ := by
    refine ⟨fun id => ?_, ?_, ?_, ?_⟩ <;> simp [Finmap.notMem_empty]
  refine .bind (@mapShortIds_meets _ _ _ _ _ hl [] (by simpa using hp.2) (by simp)
    (by simpa using he)) fun shorttxids hm => ?_
  exact .ite (fun _ => ⟨_, rfl⟩) fun hc => ⟨hp.1, hm, not_not.mp hc⟩

end Palladium.Net
