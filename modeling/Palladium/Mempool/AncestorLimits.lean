import Mathlib.Algebra.BigOperators.Ring.Finset
import Mathlib.Algebra.Order.BigOperators.Group.Finset
import Palladium.Lib.Except
import Palladium.Mempool.Runs

/-! # Limits on ancestors and descendants

`CalculateMemPoolAncestors` for a new transaction stops at the first limit exceeded, and none is
exceeded on the way unless by all ancestors together.
-/

namespace Palladium.CTxMemPool
open Finset Relation

structure AncestorLimits where
  ancestorCount : ℕ
  ancestorSize : ℕ
  descendantCount : ℕ
  descendantSize : ℕ

/-- What `errString` is set to. -/
inductive AncestorError
  | tooManyParents
  | descendantSize (tx : Txid)
  | tooManyDescendants (tx : Txid)
  | ancestorSize
  | tooManyAncestors
  deriving DecidableEq, Repr

/-- The loop over the inputs. -/
def searchForParents (pool : CTxMemPool) (limit : ℕ) :
    List COutPoint → Finset Txid → Except AncestorError (Finset Txid)
  | [], parentHashes => .ok parentHashes
  | o :: prevouts, parentHashes =>
    if o.hash ∈ pool.mapTx then
      if (insert o.hash parentHashes).card + 1 > limit then .error .tooManyParents
      else searchForParents pool limit prevouts (insert o.hash parentHashes)
    else searchForParents pool limit prevouts parentHashes

/-- The loop over `setMemPoolParents`. -/
def stageParents (limit : ℕ) (setAncestors : Finset Txid) :
    List Txid → Finset Txid → Except AncestorError (Finset Txid)
  | [], parentHashes => .ok parentHashes
  | phash :: rest, parentHashes =>
    let parentHashes := if phash ∈ setAncestors then parentHashes else insert phash parentHashes
    if parentHashes.card + setAncestors.card + 1 > limit then .error .tooManyAncestors
    else stageParents limit setAncestors rest parentHashes

variable (σ : SetOrder Txid) (pool : CTxMemPool) (limits : AncestorLimits)
  (entry : CTxMemPoolEntry)

def ancestorsLoop : (fuel : ℕ) → (parentHashes setAncestors : Finset Txid) →
    (totalSizeWithAncestors : ℕ) → Except AncestorError (Finset Txid)
  | 0, _, setAncestors, _ => .ok setAncestors
  | fuel + 1, parentHashes, setAncestors, totalSizeWithAncestors =>
    match σ.first parentHashes with
    | none => .ok setAncestors
    | some stageit =>
      let e := pool.entry stageit
      let total := totalSizeWithAncestors + e.nTxSize
      if e.nSizeWithDescendants + entry.nTxSize > limits.descendantSize then
        .error (.descendantSize stageit)
      else if e.nCountWithDescendants + 1 > limits.descendantCount then
        .error (.tooManyDescendants stageit)
      else if total > limits.ancestorSize then .error .ancestorSize
      else do
        let parentHashes ← stageParents limits.ancestorCount (insert stageit setAncestors)
          (σ.elems (pool.parents stageit)) (parentHashes.erase stageit)
        ancestorsLoop fuel parentHashes (insert stageit setAncestors) total

/-- The set of ancestors, if it returns true. -/
def ancestorsWithin : Except AncestorError (Finset Txid) := do
  let parentHashes ← searchForParents pool limits.ancestorCount entry.tx.prevouts ∅
  ancestorsLoop σ pool limits entry pool.mapTx.card parentHashes ∅ entry.nTxSize

variable {σ pool limits entry} {limit fuel : ℕ} {stage done s : Finset Txid}

theorem searchForParents_eq_ok {prevouts : List COutPoint} :
    searchForParents pool limit prevouts stage = .ok s ↔
      stage ∪ (prevouts.map (·.hash)).toFinset ∩ pool.mapTx = s ∧
        ((prevouts.map (·.hash)).toFinset ∩ pool.mapTx = ∅ ∨ s.card + 1 ≤ limit) := by
  induction prevouts generalizing stage with
  | nil => simp [searchForParents]
  | cons o prevouts ih =>
    rw [searchForParents, List.map_cons, List.toFinset_cons]
    split_ifs with hm hl
    · rw [insert_inter_of_mem hm, union_insert, ← insert_union]
      refine iff_of_false (by simp) ?_
      rintro ⟨rfl, he | hle⟩
      · exact insert_ne_empty _ _ he
      · have hsu : insert o.hash stage ⊆
            insert o.hash stage ∪ (prevouts.map (·.hash)).toFinset ∩ pool.mapTx := subset_union_left
        have hc := card_le_card hsu
        omega
    · rw [insert_inter_of_mem hm, union_insert, ← insert_union, ih]
      refine and_congr_right fun hs => ?_
      subst hs
      simp only [insert_ne_empty, false_or, or_iff_right_iff_imp]
      intro he
      rw [he, union_empty]
      omega
    · rw [insert_inter_of_notMem hm, ih]

theorem stageParents_eq_ok {ps : List Txid} (hle : stage.card + done.card + 1 ≤ limit) :
    stageParents limit done ps stage = .ok s ↔
      stage ∪ (ps.toFinset \ done) = s ∧ s.card + done.card + 1 ≤ limit := by
  induction ps generalizing stage with
  | nil =>
    simp only [stageParents, Except.ok.injEq, List.toFinset_nil, empty_sdiff, union_empty]
    exact ⟨fun hs => ⟨hs, hs ▸ hle⟩, And.left⟩
  | cons phash rest ih =>
    have hu : stage ∪ ((phash :: rest).toFinset \ done) =
        (if phash ∈ done then stage else insert phash stage) ∪ (rest.toFinset \ done) := by
      rw [List.toFinset_cons]
      split_ifs with hd
      · rw [insert_sdiff_of_mem _ hd]
      · rw [insert_sdiff_of_notMem _ hd, union_insert, insert_union]
    rw [stageParents, hu]
    generalize (if phash ∈ done then stage else insert phash stage) = staged
    split_ifs with hl
    · refine iff_of_false (by simp) ?_
      rintro ⟨rfl, hs⟩
      have hsu : staged ⊆ staged ∪ (rest.toFinset \ done) := subset_union_left
      have hc := card_le_card hsu
      omega
    · exact ih (by omega)

/-- The limits were kept so far. The size is checked as soon as there is an ancestor. -/
structure Within (pool : CTxMemPool) (limits : AncestorLimits) (entry : CTxMemPoolEntry)
    (stage done : Finset Txid) : Prop where
  nonempty : (done ∪ stage).Nonempty
  count : stage.card + done.card + 1 ≤ limits.ancestorCount
  size : done.Nonempty →
    entry.nTxSize + ∑ a ∈ done, (pool.entry a).nTxSize ≤ limits.ancestorSize
  descendants : ∀ a ∈ done,
    ∑ d ∈ pool.descendants a, (pool.entry d).nTxSize + entry.nTxSize ≤ limits.descendantSize ∧
      (pool.descendants a).card + 1 ≤ limits.descendantCount

theorem ancestorsLoop_eq_ok (ha : pool.Accounted)
    (h : SetOrder.SearchInv pool.parents pool.mapTx stage done)
    (hf : pool.mapTx.card ≤ done.card + fuel) (hw : Within pool limits entry stage done) :
    ancestorsLoop σ pool limits entry fuel stage done
        (entry.nTxSize + ∑ a ∈ done, (pool.entry a).nTxSize) = .ok s ↔
      σ.search pool.parents fuel stage done = s ∧ Within pool limits entry ∅ s := by
  have hV : ∀ a ∈ pool.mapTx, pool.parents a ⊆ pool.mapTx :=
    fun a _ b hb => ha.links.parent_mem (ha.links.mem_parents.mp hb)
  induction fuel generalizing stage done with
  | zero =>
    have hd : done = pool.mapTx := eq_of_subset_of_card_le h.done_subset (by omega)
    obtain rfl : stage = ∅ :=
      disjoint_self_iff_empty _ |>.mp (h.disjoint.mono_right (hd ▸ h.stage_subset))
    simp only [ancestorsLoop, SetOrder.search, Except.ok.injEq]
    exact ⟨fun hs => ⟨hs, hs ▸ hw⟩, And.left⟩
  | succ fuel ih =>
    unfold ancestorsLoop SetOrder.search
    cases hfi : σ.first stage with
    | none =>
      obtain rfl := SetOrder.first_eq_none hfi
      simp only [Except.ok.injEq]
      exact ⟨fun hs => ⟨hs, hs ▸ hw⟩, And.left⟩
    | some a =>
      have hst := SetOrder.mem_of_first hfi
      have hno : a ∉ done := disjoint_left.mp h.disjoint hst
      have hi := card_insert_of_notMem hno
      have hsp := h.step hV hst
      have hf' : pool.mapTx.card ≤ (insert a done).card + fuel := by omega
      have hsu : insert a done ∪ (stage.erase a ∪ (pool.parents a \ insert a done)) ⊆
          σ.search pool.parents fuel (stage.erase a ∪ (pool.parents a \ insert a done))
            (insert a done) := by
        intro x hx
        rw [SetOrder.mem_search hV hsp hf']
        exact (mem_union.mp hx).imp_right fun hx => ⟨x, hx, .refl⟩
      have hse := hsu (mem_union_left _ (mem_insert_self a done))
      have ht : entry.nTxSize + ∑ b ∈ done, (pool.entry b).nTxSize + (pool.entry a).nTxSize =
          entry.nTxSize + ∑ b ∈ insert a done, (pool.entry b).nTxSize := by
        rw [sum_insert hno]
        omega
      have hsi : (pool.entry a).nSizeWithDescendants =
          (∑ d ∈ pool.descendants a, (pool.entry d).nTxSize : ℕ) := by
        rw [ha.exact.nSizeWithDescendants a (h.stage_subset hst), Nat.cast_sum]
      dsimp only
      rw [hsi, ha.exact.nCountWithDescendants a (h.stage_subset hst), ht]
      split_ifs with hsz hco han
      · exact iff_of_false (by simp) fun hs => absurd (hs.2.descendants a (hs.1 ▸ hse)).1 (by omega)
      · exact iff_of_false (by simp) fun hs => absurd (hs.2.descendants a (hs.1 ▸ hse)).2 (by omega)
      · refine iff_of_false (by simp) fun hs => ?_
        have hle := sum_le_sum_of_subset (f := fun b => (pool.entry b).nTxSize)
          (subset_union_left.trans hsu)
        have hal := hs.2.size (hs.1 ▸ ⟨a, hse⟩)
        rw [← hs.1] at hal
        omega
      · have he := card_erase_add_one hst
        have hft := hw.count
        simp only [Except.bind_eq_ok, stageParents_eq_ok (by omega : (stage.erase a).card +
          (insert a done).card + 1 ≤ limits.ancestorCount), SetOrder.toFinset_elems]
        have hn := fun hle => ih hsp hf' ⟨⟨a, by simp⟩, hle, fun _ => by omega,
          (forall_mem_insert _ _ _).mpr ⟨by omega, hw.descendants⟩⟩
        constructor
        · rintro ⟨_, ⟨rfl, hle⟩, hl⟩
          exact (hn hle).mp hl
        · rintro ⟨rfl, hal⟩
          have hle := card_le_card hsu
          rw [card_union_of_disjoint hsp.disjoint.symm] at hle
          have hc := hal.count
          rw [card_empty, Nat.zero_add] at hc
          exact ⟨_, ⟨rfl, by omega⟩, (hn (by omega)).mpr ⟨rfl, hal⟩⟩

/-- In whatever order sets are visited, the result is the set of all ancestors if no limit is
exceeded, and an error otherwise. -/
theorem ancestorsWithin_eq_ok_iff (ha : pool.Accounted)
    (hparent : (pool.parentsOf entry.tx).Nonempty) (σ : SetOrder Txid) (A : Finset Txid) :
    ancestorsWithin σ pool limits entry = .ok A ↔
      (∀ x, x ∈ A ↔ ∃ p ∈ pool.parentsOf entry.tx, ReflTransGen pool.IsParent x p) ∧
      A.card + 1 ≤ limits.ancestorCount ∧
      entry.nTxSize + ∑ a ∈ A, (pool.entry a).nTxSize ≤ limits.ancestorSize ∧
      ∀ a ∈ A,
        ∑ d ∈ pool.descendants a, (pool.entry d).nTxSize + entry.nTxSize ≤ limits.descendantSize ∧
          (pool.descendants a).card + 1 ≤ limits.descendantCount := by
  obtain ⟨ancestors, han⟩ :
    ∃ s, calculateMemPoolAncestors σ pool (pool.parentsOf entry.tx) = s := ⟨_, rfl⟩
  have hm : ∀ x, x ∈ ancestors ↔ ∃ p ∈ pool.parentsOf entry.tx, ReflTransGen pool.IsParent x p :=
    han ▸ ha.mem_setAncestors entry.tx
  have hsu : pool.parentsOf entry.tx ⊆ ancestors := fun p hp => (hm p).mpr ⟨p, hp, .refl⟩
  have hl : (pool.parentsOf entry.tx).card + 1 ≤ limits.ancestorCount →
      (ancestorsLoop σ pool limits entry pool.mapTx.card (pool.parentsOf entry.tx) ∅ entry.nTxSize =
        .ok A ↔ ancestors = A ∧ Within pool limits entry ∅ A) := fun hle =>
    han ▸ ancestorsLoop_eq_ok ha
      ⟨inter_subset_right, empty_subset _, disjoint_empty_right _, by simp⟩
      (by simp) ⟨by simpa using hparent, by simpa using hle, by simp, by simp⟩
  constructor
  · intro ho
    obtain ⟨parentHashes, hs, hr⟩ := Except.bind_eq_ok.mp ho
    obtain ⟨hse, hle⟩ := searchForParents_eq_ok.mp hs
    obtain rfl : pool.parentsOf entry.tx = parentHashes := (empty_union _).symm.trans hse
    obtain ⟨rfl, hw⟩ := (hl (hle.resolve_left hparent.ne_empty)).mp hr
    exact ⟨hm, by simpa using hw.count, hw.size (hparent.mono hsu), hw.descendants⟩
  · rintro ⟨hA, hc, hsi, hd⟩
    obtain rfl : ancestors = A := Finset.ext fun x => (hm x).trans (hA x).symm
    have hle := card_le_card hsu
    refine Except.bind_eq_ok.mpr ⟨pool.parentsOf entry.tx, searchForParents_eq_ok.mpr
      ⟨empty_union _, .inr (by omega)⟩, (hl (by omega)).mpr ⟨rfl, ?_, ?_, fun _ => hsi,
        hd⟩⟩
    · simpa using hparent.mono hsu
    · simpa using hc

theorem ancestorsWithin_eq_ok_iff_grandchild :
    ancestorsWithin txidOrder parentAndChild ⟨25, 101000, 25, 101000⟩ (sampleEntry 3 [⟨2, 0⟩]) =
        .ok {1, 2} ∧
      ∀ x, x ∈ ({1, 2} : Finset Txid) ↔
        ∃ p ∈ parentAndChild.parentsOf (sampleEntry 3 [⟨2, 0⟩]).tx,
          ReflTransGen parentAndChild.IsParent x p := by
  have hr : ancestorsWithin txidOrder parentAndChild ⟨25, 101000, 25, 101000⟩
    (sampleEntry 3 [⟨2, 0⟩]) = .ok {1, 2} := by decide +kernel
  exact ⟨hr, ((ancestorsWithin_eq_ok_iff reachable_deltaStored.accounted
    ⟨2, by decide +kernel⟩ txidOrder {1, 2}).mp hr).1⟩

end Palladium.CTxMemPool
