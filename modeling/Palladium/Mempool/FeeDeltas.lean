import Palladium.Mempool.Runs

/-! # Fee deltas in 64 bits

`PrioritiseTransaction` adds what it is given to the stored delta and to the totals of the relatives
without a check.
-/

namespace Palladium
open Function

def InInt64 (x : ℤ) : Prop := -2 ^ 63 ≤ x ∧ x < 2 ^ 63

def wrapInt64 (x : ℤ) : ℤ := x.bmod (2 ^ 64)

theorem inInt64_wrapInt64 (x : ℤ) : InInt64 (wrapInt64 x) := by
  unfold wrapInt64 InInt64 Int.bmod
  dsimp only
  split <;> omega

theorem wrapInt64_eq_self {x : ℤ} (h : InInt64 x) : wrapInt64 x = x := by
  unfold InInt64 at h
  unfold wrapInt64 Int.bmod
  dsimp only
  split <;> omega

/-- The entry with its fee fields as 64-bit integers hold them. -/
def CTxMemPoolEntry.wrapFees (e : CTxMemPoolEntry) : CTxMemPoolEntry :=
  let wrapTotals {α : Type} (m : ℤ × ℤ × α) : ℤ × ℤ × α := (m.1, wrapInt64 m.2.1, m.2.2)
  { e with
    feeDelta := wrapInt64 e.feeDelta
    descendantState := wrapTotals e.descendantState
    ancestorState := wrapTotals e.ancestorState }

namespace CTxMemPool
variable (pool : CTxMemPool)

def wrapFees : CTxMemPool :=
  { pool with
    entry := fun h => if h ∈ pool.mapTx then (pool.entry h).wrapFees else pool.entry h
    mapDeltas := fun h => (pool.mapDeltas h).map wrapInt64 }

/-- The calls that change fees. -/
inductive FeeCall
  | prioritiseTransaction (hash : Txid) (nFeeDelta : ℤ)
  | addUnchecked (entry : CTxMemPoolEntry) (setAncestors : Finset Txid)

namespace FeeCall
variable (σ : SetOrder Txid) (getWitnessHash : CTransaction → Uint256)

def Valid (pool : CTxMemPool) : FeeCall → Prop
  | prioritiseTransaction _ _ => True
  | addUnchecked entry setAncestors => pool.Addable entry setAncestors

/-- The call with exact arithmetic. -/
def run (pool : CTxMemPool) : FeeCall → CTxMemPool
  | prioritiseTransaction hash nFeeDelta => CTxMemPool.prioritiseTransaction σ pool hash nFeeDelta
  | addUnchecked entry setAncestors => pool.addUnchecked getWitnessHash entry setAncestors

/-- The call with sums that wrap around. -/
def runInt64 (pool : CTxMemPool) (c : FeeCall) : CTxMemPool :=
  (c.run σ getWitnessHash pool).wrapFees

def deltaFor (hash : Txid) : FeeCall → ℤ
  | prioritiseTransaction hash' nFeeDelta => if hash = hash' then nFeeDelta else 0
  | addUnchecked _ _ => 0

end FeeCall

/-- What has been given for a transaction. -/
def deltaSum (calls : List FeeCall) (hash : Txid) : ℤ :=
  pool.storedDelta hash + (calls.map (·.deltaFor hash)).sum

/-- The exact sum for some transactions of a pool that is reached from `pool`. -/
def modifiedFeeSum (calls : List FeeCall) (reached : CTxMemPool) (txs : Finset Txid) : ℤ :=
  ∑ x ∈ txs, ((reached.entry x).nFee + pool.deltaSum calls x)

/-- The totals are exact, and the entries count what is stored. -/
structure Settled : Prop where
  accounted : pool.Accounted
  feeDelta : ∀ h ∈ pool.mapTx, (pool.entry h).feeDelta = pool.storedDelta h

section Run
variable {σ : SetOrder Txid} {getWitnessHash : CTransaction → Uint256} {pool} {c : FeeCall}

theorem feeDelta_modify {f : CTxMemPoolEntry → CTxMemPoolEntry}
    (hf : ∀ e, (f e).feeDelta = e.feeDelta) (s : Finset Txid) (h : Txid) :
    ((pool.modify s f).entry h).feeDelta = (pool.entry h).feeDelta := by
  rw [modify_entry]
  split
  · exact hf _
  · rfl

theorem storedDelta_run (c : FeeCall) (hash : Txid) :
    (c.run σ getWitnessHash pool).storedDelta hash = pool.storedDelta hash + c.deltaFor hash := by
  cases c with
  | prioritiseTransaction hash' nFeeDelta =>
    have hs : (prioritiseTransaction σ pool hash' nFeeDelta).mapDeltas =
        (pool.setDelta hash' (pool.storedDelta hash' + nFeeDelta)).mapDeltas := by
      unfold prioritiseTransaction
      dsimp only
      split <;> rfl
    rw [storedDelta, FeeCall.run, hs, FeeCall.deltaFor]
    rcases eq_or_ne hash hash' with rfl | hn
    · simp
    · simp [hn, storedDelta]
  | addUnchecked entry setAncestors => exact (add_zero _).symm

theorem feeDelta_prioritiseTransaction {hash hash' : Txid} (nFeeDelta : ℤ) (hm : hash ∈ pool.mapTx) :
    ((prioritiseTransaction σ pool hash' nFeeDelta).entry hash).feeDelta =
      if hash = hash' then pool.storedDelta hash + nFeeDelta else (pool.entry hash).feeDelta := by
  by_cases hm' : hash' ∈ pool.mapTx
  · rw [show prioritiseTransaction σ pool hash' nFeeDelta = _ from if_pos hm']
    rw [feeDelta_modify (f := .updateAncestorState _) fun _ => rfl,
      feeDelta_modify (f := .updateDescendantState _) fun _ => rfl, modify_entry]
    by_cases he : hash = hash'
    · subst he
      simp [CTxMemPoolEntry.updateFeeDelta]
    · simp [he]
  · rw [prioritiseTransaction_of_notMem hm', if_neg (by rintro rfl; exact hm' hm)]
    rfl

/-- A delta of zero is not applied, and to apply it would change nothing. -/
theorem storedEntry_eq {entry : CTxMemPoolEntry} (hf : entry.feeDelta = 0) :
    pool.storedEntry entry = entry.updateFeeDelta (pool.storedDelta entry.tx.hash) := by
  unfold storedEntry
  split_ifs with hz
  · rfl
  · rw [not_not.mp hz]
    cases entry
    simp_all [CTxMemPoolEntry.updateFeeDelta]

theorem feeDelta_addUnchecked {entry : CTxMemPoolEntry} {setAncestors : Finset Txid} (hash : Txid)
    (ha : pool.Addable entry setAncestors) :
    ((pool.addUnchecked getWitnessHash entry setAncestors).entry hash).feeDelta =
      if hash = entry.tx.hash then pool.storedDelta hash else (pool.entry hash).feeDelta := by
  have he : ((pool.addUnchecked getWitnessHash entry setAncestors).entry hash).feeDelta =
      ((pool.linkNew entry).entry hash).feeDelta := by
    rw [addUnchecked_eq]
    exact (feeDelta_modify (f := .updateAncestorState _) (fun _ => rfl) _ _).trans
      (feeDelta_modify (f := .updateDescendantState _) (fun _ => rfl) _ _)
  rw [he, linkNew_entry ha.notMem, update_apply, storedEntry_eq ha.fresh.feeDelta]
  split
  · next h => rw [h]; rfl
  · rfl

theorem Settled.run (h : pool.Settled) (hv : c.Valid pool) :
    (c.run σ getWitnessHash pool).Settled := by
  cases c with
  | prioritiseTransaction hash nFeeDelta =>
    refine ⟨h.accounted.prioritiseTransaction (fun hm => (h.feeDelta hash hm).symm) nFeeDelta,
      fun x hx => ?_⟩
    have hm : x ∈ pool.mapTx := by
      rwa [FeeCall.run, (sameTxs_prioritiseTransaction hash nFeeDelta).mapTx_eq] at hx
    rw [storedDelta_run, FeeCall.run, feeDelta_prioritiseTransaction nFeeDelta hm, FeeCall.deltaFor,
      h.feeDelta x hm]
    split <;> simp
  | addUnchecked entry setAncestors =>
    refine ⟨h.accounted.addUnchecked hv, fun x hx => ?_⟩
    rw [storedDelta_run, FeeCall.run, feeDelta_addUnchecked x hv, FeeCall.deltaFor, add_zero]
    split
    · rfl
    · next hn => exact h.feeDelta x ((Finset.mem_insert.mp hx).resolve_left hn)

def ValidCalls (σ : SetOrder Txid) (getWitnessHash : CTransaction → Uint256) (pool : CTxMemPool)
    (calls : List FeeCall) : Prop :=
  ∀ pre c, pre ++ [c] <+: calls → c.Valid (pre.foldl (FeeCall.run σ getWitnessHash) pool)

variable {calls : List FeeCall}

theorem Settled.runs (h : pool.Settled) (hv : ValidCalls σ getWitnessHash pool calls) :
    (calls.foldl (FeeCall.run σ getWitnessHash) pool).Settled ∧
      ∀ hash, (calls.foldl (FeeCall.run σ getWitnessHash) pool).storedDelta hash =
        pool.deltaSum calls hash := by
  induction calls using List.reverseRecOn with
  | nil => exact ⟨h, fun _ => by simp [deltaSum]⟩
  | append_singleton calls c ih =>
    obtain ⟨hs, hd⟩ := ih fun pre c' hc => hv pre c' (hc.trans (by simp))
    rw [List.foldl_concat]
    refine ⟨hs.run (hv calls c List.prefix_rfl), fun hash => ?_⟩
    rw [storedDelta_run, hd, deltaSum, deltaSum]
    simp [add_assoc]

end Run

/-- What is stored after some calls, next to the exact sum of what was given. -/
def EachSum (calls : List FeeCall) (reached : CTxMemPool) (P : (stored exact : ℤ) → Prop) : Prop :=
  (∀ hash, P (reached.storedDelta hash) (pool.deltaSum calls hash)) ∧ ∀ hash ∈ reached.mapTx,
    P (reached.entry hash).nModFeesWithDescendants
        (pool.modifiedFeeSum calls reached (reached.descendants hash)) ∧
      P (reached.entry hash).nModFeesWithAncestors
        (pool.modifiedFeeSum calls reached (reached.ancestors hash))

section Sums
variable {σ : SetOrder Txid} {getWitnessHash : CTransaction → Uint256} {calls : List FeeCall}
  {pool} {q : CTxMemPool} {P Q : ℤ → ℤ → Prop}

theorem EachSum.imp (hPQ : ∀ {x y}, P x y → Q x y) (h : pool.EachSum calls q P) :
    pool.EachSum calls q Q :=
  ⟨fun hash => hPQ (h.1 hash), fun hash hm => ⟨hPQ (h.2 hash hm).1, hPQ (h.2 hash hm).2⟩⟩

theorem EachSum.and (h : pool.EachSum calls q P) (h' : pool.EachSum calls q Q) :
    pool.EachSum calls q fun x y => P x y ∧ Q x y :=
  ⟨fun hash => ⟨h.1 hash, h'.1 hash⟩,
    fun hash hm => ⟨⟨(h.2 hash hm).1, (h'.2 hash hm).1⟩, (h.2 hash hm).2, (h'.2 hash hm).2⟩⟩

theorem Settled.eachSum (h : pool.Settled) (hv : ValidCalls σ getWitnessHash pool calls) :
    pool.EachSum calls (calls.foldl (FeeCall.run σ getWitnessHash) pool)
      fun stored exact => stored = exact := by
  obtain ⟨hs, hd⟩ := h.runs hv
  have he := hs.accounted.exact
  have hsum : ∀ txs ⊆ (calls.foldl (FeeCall.run σ getWitnessHash) pool).mapTx,
      pool.modifiedFeeSum calls (calls.foldl (FeeCall.run σ getWitnessHash) pool) txs =
        ∑ x ∈ txs, ((calls.foldl (FeeCall.run σ getWitnessHash) pool).entry x).modifiedFee :=
    fun txs ht => Finset.sum_congr rfl fun x hx => by
      rw [CTxMemPoolEntry.modifiedFee, hs.feeDelta x (ht hx), hd]
  classical
  refine ⟨hd, fun hash hm => ⟨?_, ?_⟩⟩
  · exact (he.nModFeesWithDescendants hash hm).trans (hsum _ (Finset.filter_subset _ _)).symm
  · exact (he.nModFeesWithAncestors hash hm).trans (hsum _ (Finset.filter_subset _ _)).symm

theorem eachSum_wrapFees {R : ℤ → Prop} :
    pool.EachSum calls q.wrapFees (fun _ exact => R exact) ↔
      pool.EachSum calls q fun _ exact => R exact := by
  have htx : ∀ h, (q.wrapFees.entry h).tx = (q.entry h).tx := by
    intro h
    unfold wrapFees
    dsimp only
    split <;> rfl
  have hfee : ∀ h, (q.wrapFees.entry h).nFee = (q.entry h).nFee := by
    intro h
    unfold wrapFees
    dsimp only
    split <;> rfl
  have hp : q.wrapFees.IsParent = q.IsParent := by
    funext a b
    rw [IsParent, IsParent, htx]
    rfl
  have hd : q.wrapFees.descendants = q.descendants := by
    unfold descendants
    rw [hp]
    rfl
  have ha : q.wrapFees.ancestors = q.ancestors := by
    unfold ancestors
    rw [hp]
    rfl
  simp only [EachSum, modifiedFeeSum, hfee, hd, ha]
  rfl

theorem eachSum_inInt64_wrapFees :
    pool.EachSum calls q.wrapFees fun stored _ => InInt64 stored := by
  refine ⟨fun hash => ?_, fun hash hm => ?_⟩
  · change InInt64 (((q.mapDeltas hash).map wrapInt64).getD 0)
    cases q.mapDeltas hash with
    | none => exact ⟨by decide, by decide⟩
    | some d => exact inInt64_wrapInt64 d
  · have he : q.wrapFees.entry hash = (q.entry hash).wrapFees := if_pos hm
    rw [he]
    exact ⟨inInt64_wrapInt64 _, inInt64_wrapInt64 _⟩

theorem Settled.wrapFees_eq (hq : q.Settled)
    (h : pool.EachSum calls q fun stored _ => InInt64 stored) : q.wrapFees = q := by
  have he : q.wrapFees.entry = q.entry := by
    funext x
    unfold wrapFees
    dsimp only
    split
    · next hm =>
      have hd := h.1 x
      obtain ⟨hde, han⟩ := h.2 x hm
      rw [← hq.feeDelta x hm] at hd
      unfold CTxMemPoolEntry.wrapFees
      dsimp only
      rw [wrapInt64_eq_self hd, show wrapInt64 (q.entry x).descendantState.2.1 = _ from
        wrapInt64_eq_self hde, show wrapInt64 (q.entry x).ancestorState.2.1 = _ from
        wrapInt64_eq_self han]
    · rfl
  have hd : q.wrapFees.mapDeltas = q.mapDeltas := by
    funext x
    have hx := h.1 x
    unfold storedDelta at hx
    unfold wrapFees
    cases hc : q.mapDeltas x with
    | none => simp [hc]
    | some d => simpa [hc] using wrapInt64_eq_self (by simpa [hc] using hx)
  calc q.wrapFees = { q with entry := q.wrapFees.entry, mapDeltas := q.wrapFees.mapDeltas } := rfl
    _ = q := by rw [he, hd]

theorem Settled.wrapFees_foldl (h : pool.Settled) (hv : ValidCalls σ getWitnessHash pool calls)
    (hf : pool.EachSum calls (calls.foldl (FeeCall.run σ getWitnessHash) pool).wrapFees
      fun _ exact => InInt64 exact) :
    (calls.foldl (FeeCall.run σ getWitnessHash) pool).wrapFees =
      calls.foldl (FeeCall.run σ getWitnessHash) pool :=
  (h.runs hv).1.wrapFees_eq
    (((h.eachSum hv).and (eachSum_wrapFees.mp hf)).imp fun ⟨he, hi⟩ => he ▸ hi)

theorem Settled.foldl_runInt64 (h : pool.Settled) (hv : ValidCalls σ getWitnessHash pool calls)
    (hf : ∀ pre, pre <+: calls → pool.EachSum pre (pre.foldl (FeeCall.runInt64 σ getWitnessHash)
      pool.wrapFees) fun _ exact => InInt64 exact) :
    calls.foldl (FeeCall.runInt64 σ getWitnessHash) pool.wrapFees =
      calls.foldl (FeeCall.run σ getWitnessHash) pool := by
  induction calls using List.reverseRecOn with
  | nil => exact h.wrapFees_foldl hv (hf [] List.prefix_rfl)
  | append_singleton calls c ih =>
    have hc : calls <+: calls ++ [c] := List.prefix_append ..
    have hfit := hf _ List.prefix_rfl
    rw [List.foldl_concat, ih (fun pre c' hp => hv pre c' (hp.trans hc))
      fun pre hp => hf pre (hp.trans hc)] at hfit ⊢
    rw [List.foldl_concat]
    rw [FeeCall.runInt64] at hfit ⊢
    have hw := h.wrapFees_foldl hv (by rwa [List.foldl_concat])
    rwa [List.foldl_concat] at hw

/-- After every call the stored deltas and the totals of modified fees are the sums of what was
given if and only if these sums are 64-bit numbers after every call. -/
theorem feeCalls_exact_iff (hpool : pool.Settled)
    (hcalls : ValidCalls σ getWitnessHash pool calls) :
    (∀ pre, pre <+: calls → pool.EachSum pre (pre.foldl (FeeCall.runInt64 σ getWitnessHash)
        pool.wrapFees) fun stored exact => stored = exact) ↔
      ∀ pre, pre <+: calls → pool.EachSum pre (pre.foldl (FeeCall.runInt64 σ getWitnessHash)
        pool.wrapFees) fun _ exact => InInt64 exact := by
  constructor
  · intro h pre hp
    have hr : ∃ q, pre.foldl (FeeCall.runInt64 σ getWitnessHash) pool.wrapFees = wrapFees q := by
      cases pre using List.reverseRecOn with
      | nil => exact ⟨pool, rfl⟩
      | append_singleton pre c => exact ⟨_, List.foldl_concat ..⟩
    obtain ⟨q, hq⟩ := hr
    have he := h pre hp
    rw [hq] at he ⊢
    exact (he.and eachSum_inInt64_wrapFees).imp fun ⟨he, hi⟩ => he ▸ hi
  · intro h pre hp
    have hv : ValidCalls σ getWitnessHash pool pre := fun pre' c hc => hcalls pre' c (hc.trans hp)
    rw [hpool.foldl_runInt64 hv fun pre' hp' => h pre' (hp'.trans hp)]
    exact hpool.eachSum hv

def maxDeltas : List FeeCall := List.replicate 2 (.prioritiseTransaction 1 (2 ^ 63 - 1))

theorem validCalls_maxDeltas : ValidCalls txidOrder (·.hash) parentAndChild maxDeltas := by
  intro pre c hc
  have hm : c ∈ maxDeltas := hc.subset (by simp)
  rw [List.eq_of_mem_replicate hm]
  trivial

theorem settled_parentAndChild : parentAndChild.Settled where
  accounted := reachable_deltaStored.accounted
  feeDelta := by
    have hm : parentAndChild.mapTx = {1, 2} := by decide +kernel
    simp only [hm, Finset.mem_insert, Finset.mem_singleton]
    rintro h (rfl | rfl)
    · rfl
    · rfl

theorem feeCalls_exact_iff_maxDeltas : ¬ ∀ pre, pre <+: maxDeltas →
    parentAndChild.EachSum pre (pre.foldl (FeeCall.runInt64 txidOrder (·.hash))
      parentAndChild.wrapFees) fun stored exact => stored = exact := by
  intro h
  have hf := (feeCalls_exact_iff settled_parentAndChild validCalls_maxDeltas).mp h
  exact absurd ((hf maxDeltas List.prefix_rfl).1 1).2 (by decide +kernel)

/-- The largest amount given twice for one transaction is stored as `-2`. -/
theorem maxDeltas_overflow : parentAndChild.Settled ∧
    ValidCalls txidOrder (·.hash) parentAndChild maxDeltas ∧
    (maxDeltas.foldl (FeeCall.runInt64 txidOrder (·.hash)) parentAndChild.wrapFees).storedDelta 1 =
      -2 ∧ parentAndChild.deltaSum maxDeltas 1 = 2 ^ 64 - 2 :=
  ⟨settled_parentAndChild, validCalls_maxDeltas, by decide +kernel, by decide +kernel⟩

end Sums

end CTxMemPool

end Palladium
