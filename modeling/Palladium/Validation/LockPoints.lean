import Mathlib
import Palladium.Chain.VersionBits
import Palladium.Consensus.SequenceLocks
import Palladium.Mempool.Runs

/-! # Cached lock points

`CheckSequenceLocks` stores the bounds it computed and a block that must stay in the active chain.
-/

namespace Palladium
open Forest IndexChain IndexEntries Option
namespace IndexEntries
variable {ι : Type*} (T : IndexEntries ι) (tip : ι)

/-- The index entry that `CheckSequenceLocks` makes for the block after the tip. -/
def withNext : IndexEntries (Option ι) where
  parent
    | none => some (some tip)
    | some b => (T.parent b).map some
  height
    | none => T.height tip + 1
    | some b => T.height b
  height_parent {b p} h := by
    cases b with
    | none =>
      cases h
      rfl
    | some b =>
      obtain ⟨q, hq, rfl⟩ := map_eq_some_iff.mp h
      exact T.height_parent hq
  pskip
    | none => none
    | some b => (T.pskip b).map some
  nTime
    | none => 0
    | some b => T.nTime b

variable {T tip} {height fuel : ℕ} {b : ι}

theorem climb_withNext (n : ℕ) (b : ι) : (T.withNext tip).climb n (some b) = (T.climb n b).map some := by
  induction n generalizing b with
  | zero => rfl
  | succ n ih =>
    have hp : (T.withNext tip).parent (some b) = (T.parent b).map some := rfl
    rw [Forest.climb, Forest.climb, hp]
    cases T.parent b with
    | none => rfl
    | some p => simp [ih]

theorem getMedianTimePast_withNext (b : ι) :
    (T.withNext tip).getMedianTimePast (some b) = T.getMedianTimePast b := by
  have hp : (T.withNext tip).path (some b) = (T.path b).map some := climb_withNext _ b
  have ht : (((T.withNext tip).path (some b)).take nMedianTimeSpan).map (T.withNext tip).nTime =
      ((T.path b).take nMedianTimeSpan).map T.nTime := by
    rw [hp, ← List.map_take, List.map_map]
    rfl
  rw [getMedianTimePast, getMedianTimePast, ht]

theorem walkTo_withNext (he : ℕ) : (T.withNext tip).walkTo height fuel (some b) he =
      (T.walkTo height fuel b he).map some := by
  induction fuel generalizing b he with
  | zero => rfl
  | succ fuel ih =>
    have hp : (T.withNext tip).parent (some b) = (T.parent b).map some := rfl
    have hs : (T.withNext tip).pskip (some b) = (T.pskip b).map some := rfl
    rw [walkTo, walkTo, hp, hs]
    split
    · cases followsSkip he height <;> cases T.pskip b <;> cases T.parent b <;> simp [ih]
    · rfl

theorem getAncestor_withNext (hl : height ≤ T.height tip) :
    (T.withNext tip).getAncestor none height = (T.getAncestor tip height).map some := by
  have hh : (T.withNext tip).height none = T.height tip + 1 := rfl
  have hp : (T.withNext tip).parent none = some (some tip) := rfl
  have hs : (T.withNext tip).pskip none = none := rfl
  rw [getAncestor, getAncestor, hh, if_neg (by omega), if_neg (by omega), walkTo, hp, hs,
    if_pos (by omega), ite_self]
  exact walkTo_withNext _

end IndexEntries

structure LockPoints (ι : Type*) where
  height : ℤ := 0
  time : ℤ := 0
  maxInputBlock : Option ι := none
  deriving DecidableEq

variable {ι : Type*}

/-- The chain, the heights of its unspent coins and the memory pool. -/
structure NodeView (ι : Type*) where
  tip : ι
  coinHeight : COutPoint → Option ℕ
  pool : CTxMemPool

namespace NodeView

/-- `CCoinsViewMemPool::GetCoin`, of which the height is used. -/
def getCoin (view : NodeView ι) (outpoint : COutPoint) : Option ℕ :=
  if outpoint.hash ∈ view.pool.mapTx then
    if outpoint.n < (view.pool.entry outpoint.hash).tx.vout.length then some mempoolHeight else none
  else view.coinHeight outpoint

variable (T : IndexEntries ι) (view : NodeView ι)

def testLockPointValidity [DecidableEq ι] (lp : LockPoints ι) : Bool :=
  match lp.maxInputBlock with
  | none => true
  | some b => T.ancestorAt view.tip (T.height b) = some b

def prevHeight (nHeight : ℕ) : ℤ := if nHeight = mempoolHeight then T.height view.tip + 1 else nHeight

def maxInputHeight (prevheights : List ℤ) : ℤ :=
  prevheights.foldl (fun m (height : ℤ) => if height ≠ T.height view.tip + 1 then max m height else m) 0

/-- The answer, and the lock points as the call leaves them. -/
def checkSequenceLocks (tx : CTransaction) (flags : ℕ) (lp : LockPoints ι)
    (useExistingLockPoints : Bool) : Option (Bool × LockPoints ι) :=
  let index := T.withNext view.tip
  if useExistingLockPoints then
    match evaluateSequenceLocks index none (lp.height, lp.time) with
    | none => none
    | some ok => some (ok, lp)
  else
    match tx.vin.mapM fun txin => (view.getCoin txin.prevout).map (prevHeight T view) with
    | none => some (false, lp)
    | some prevheights =>
      match calculateSequenceLocks index none tx flags prevheights with
      | none => none
      | some (lockPair, prevheights) =>
        let lp := ⟨lockPair.1, lockPair.2, T.getAncestor view.tip (maxInputHeight T view prevheights)⟩
        match evaluateSequenceLocks index none lockPair with
        | none => none
        | some ok => some (ok, lp)

end NodeView

variable {T : IndexChain ι} {tip tip' : ι} {nHeight nTime nCoinHeight : ℤ} {txin : CTxIn}

def InputMet (T : IndexChain ι) (tip : ι) (nHeight nTime : ℤ) (txin : CTxIn) (nCoinHeight : ℤ) : Prop :=
  txin.lockDisabled = false →
    if txin.lockIsTime then
      ∃ ancestor ∈ T.path tip, (T.height ancestor : ℤ) = max (nCoinHeight - 1) 0 ∧
        T.getMedianTimePast ancestor + 512 * txin.lockValue ≤ nTime
    else nCoinHeight + txin.lockValue ≤ nHeight

theorem getAncestor_next (hl : nCoinHeight ≤ T.height tip + 1) :
    (T.withNext tip).getAncestor none (max (nCoinHeight - 1) 0) =
      (T.getAncestor tip (max (nCoinHeight - 1) 0)).map some := by
  obtain ⟨n, hn⟩ := Int.eq_ofNat_of_zero_le (le_max_right (nCoinHeight - 1) 0)
  rw [hn]
  exact getAncestor_withNext (by omega)

theorem lockMet_withNext_iff (hl : nCoinHeight ≤ T.height tip + 1) :
    LockMet (T.withNext tip) none nHeight nTime txin nCoinHeight ↔
      InputMet T tip nHeight nTime txin nCoinHeight := by
  refine imp_congr_right fun _ => ?_
  split
  · rw [getAncestor_next hl]
    simp only [map_eq_some_iff]
    constructor
    · rintro ⟨_, ⟨a, ha, rfl⟩, ht⟩
      rw [getMedianTimePast_withNext] at ht
      obtain ⟨hp, hh⟩ := getAncestor_eq_some_iff.mp ha
      exact ⟨a, hp, hh, ht⟩
    · rintro ⟨a, hp, hh, ht⟩
      refine ⟨some a, ⟨a, ?_, rfl⟩, ?_⟩
      · exact getAncestor_eq_some_iff.mpr ⟨hp, hh⟩
      · rwa [getMedianTimePast_withNext]
  · rfl

theorem inputMet_congr {b : ι} (hb : b ∈ T.path tip) (hb' : b ∈ T.path tip')
    (hh : (T.height b : ℤ) = nCoinHeight) :
    InputMet T tip nHeight nTime txin nCoinHeight ↔ InputMet T tip' nHeight nTime txin nCoinHeight := by
  refine imp_congr_right fun _ => ?_
  split
  · have hm : ∀ a, (T.height a : ℤ) = max (nCoinHeight - 1) 0 →
        (a ∈ T.path tip ↔ a ∈ T.path tip') := by
      intro a ha
      constructor
      · exact fun h => mem_path_trans (mem_path_of_height_le h hb (by omega)) hb'
      · exact fun h => mem_path_trans (mem_path_of_height_le h hb' (by omega)) hb
    constructor
    · rintro ⟨a, hp, ha, ht⟩
      exact ⟨a, (hm a ha).mp hp, ha, ht⟩
    · rintro ⟨a, hp, ha, ht⟩
      exact ⟨a, (hm a ha).mpr hp, ha, ht⟩
  · rfl

/-- Which blocks create which outputs, none of them twice in a chain. -/
structure CreatedOutputs (T : IndexChain ι) where
  creates : ι → COutPoint → Prop
  created_once : ∀ {tip b c : ι} {o : COutPoint}, b ∈ T.path tip → c ∈ T.path tip →
    creates b o → creates c o → b = c

/-- The coins are created in the chain, and the outputs of the memory pool are not. -/
structure NodeView.Consistent (C : CreatedOutputs T) (view : NodeView ι) : Prop where
  height_lt : T.height view.tip < mempoolHeight
  created : ∀ {o h}, view.coinHeight o = some h →
    ∃ b ∈ T.path view.tip, T.height b = h ∧ C.creates b o
  pool_new : ∀ {o : COutPoint}, o.hash ∈ view.pool.mapTx → ∀ b ∈ T.path view.tip, ¬ C.creates b o

variable {C : CreatedOutputs T} {view view' : NodeView ι} {o : COutPoint} {h : ℕ}
  {tx : CTransaction} {flags : ℕ} {lp lp₀ : LockPoints ι}
namespace NodeView

theorem Consistent.getCoin_cases (hc : view.Consistent C) (hco : view.getCoin o = some h) :
    h = mempoolHeight ∨ h < mempoolHeight ∧ ∃ b ∈ T.path view.tip, T.height b = h ∧ C.creates b o := by
  unfold getCoin at hco
  split at hco
  · split at hco
    · cases hco
      exact .inl rfl
    · cases hco
  · obtain ⟨b, hb, rfl, hcr⟩ := hc.created hco
    exact .inr ⟨(height_le hb).trans_lt hc.height_lt, b, hb, rfl, hcr⟩

theorem Consistent.getCoin_of_creates (hc : view.Consistent C) (hco : view.getCoin o = some h)
    {b : ι} (hb : b ∈ T.path view.tip) (hcr : C.creates b o) : h = T.height b := by
  have hp : o.hash ∉ view.pool.mapTx := fun hm => hc.pool_new hm b hb hcr
  rw [getCoin, if_neg hp] at hco
  obtain ⟨c, hcp, rfl, hcc⟩ := hc.created hco
  rw [C.created_once hb hcp hcr hcc]

instance : Coe (IndexChain ι) (IndexEntries ι) := ⟨IndexChain.toIndexEntries⟩

def prev (T : IndexEntries ι) (view : NodeView ι) (txin : CTxIn) : ℤ :=
  ((view.getCoin txin.prevout).map (prevHeight T view)).getD 0

theorem prev_eq (hc : view.getCoin txin.prevout = some h) : view.prev T txin = view.prevHeight T h := by
  rw [prev, hc]
  rfl

theorem prev_unconfirmed (hc : view.getCoin txin.prevout = some mempoolHeight) :
    view.prev T txin = T.height view.tip + 1 := by
  rw [prev_eq hc, prevHeight, if_pos rfl]

theorem prev_confirmed (hc : view.getCoin txin.prevout = some h) (hl : h < mempoolHeight) :
    view.prev T txin = h := by
  rw [prev_eq hc, prevHeight, if_neg hl.ne]

theorem Consistent.prev_le (hc : view.Consistent C) (hf : (view.getCoin txin.prevout).isSome) :
    view.prev T txin ≤ T.height view.tip + 1 := by
  obtain ⟨h, hco⟩ := isSome_iff_exists.mp hf
  rcases hc.getCoin_cases hco with rfl | ⟨hl, b, hb, rfl, -⟩
  · exact (prev_unconfirmed hco).le
  · rw [prev_confirmed hco hl]
    have := height_le hb
    omega

theorem mapM_eq_some_iff {α β : Type*} {f : α → Option β} {l : List α} {r : List β} (d : β) :
    l.mapM f = some r ↔ (∀ a ∈ l, (f a).isSome) ∧ r = l.map fun a => (f a).getD d := by
  induction l generalizing r with
  | nil =>
    simp only [List.mapM_nil, pure_def, Option.some.injEq, List.not_mem_nil, false_implies,
      implies_true, true_and, List.map_nil]
    exact eq_comm
  | cons a l ih =>
    cases hf : f a with
    | none => simp [hf]
    | some b =>
      simp only [List.mapM_cons, hf, bind_eq_bind, bind_some, bind_eq_some_iff,
        ih, List.forall_mem_cons, isSome_some, true_and, List.map_cons, getD_some,
        pure_def, Option.some.injEq]
      constructor
      · rintro ⟨_, ⟨ha, rfl⟩, rfl⟩
        exact ⟨ha, rfl⟩
      · rintro ⟨ha, rfl⟩
        exact ⟨_, ⟨ha, rfl⟩, rfl⟩

structure BoundsOf (T : IndexChain ι) (view : NodeView ι) (tx : CTransaction) (flags : ℕ)
    (r : (ℤ × ℤ) × List ℤ) : Prop where
  lt_iff : ∀ nHeight nTime, r.1.1 < nHeight ∧ r.1.2 < nTime ↔ (-1 < nHeight ∧ -1 < nTime) ∧
    (enforceBIP68 tx flags = true → ∀ txin ∈ tx.vin,
      InputMet T view.tip nHeight nTime txin (view.prev T txin))
  heights : enforceBIP68 tx flags = true →
    r.2 = tx.vin.map fun txin => keptHeight txin (view.prev T txin)

theorem Consistent.calculateSequenceLocks (hc : view.Consistent C)
    (hf : ∀ txin ∈ tx.vin, (view.getCoin txin.prevout).isSome) :
    ∃ r, calculateSequenceLocks (T.withNext view.tip) none tx flags
        (tx.vin.map (view.prev T)) = some r ∧ BoundsOf T view tx flags r := by
  unfold Palladium.calculateSequenceLocks
  rw [if_neg (not_not.mpr (List.length_map _)), ← List.map_prod_left_eq_zip]
  cases he : enforceBIP68 tx flags with
  | false => exact ⟨_, rfl, fun _ _ => by simp [he], fun h => by simp [he] at h⟩
  | true =>
    have hl : ∀ txin ∈ tx.vin, view.prev T txin ≤ T.height view.tip + 1 :=
      fun txin ht => hc.prev_le (hf txin ht)
    have ha : ∀ p ∈ tx.vin.map fun txin => (txin, view.prev T txin),
        ((T.withNext view.tip).getAncestor none (max (p.2 - 1) 0)).isSome := by
      intro p hp
      obtain ⟨txin, ht, rfl⟩ := List.mem_map.mp hp
      rw [getAncestor_next (hl txin ht), isSome_map]
      exact T.getAncestor_isSome (le_max_right _ _) (by have := hl txin ht; omega)
    obtain ⟨r, hr⟩ := isSome_iff_exists.mp (sequenceLocksLoop_isSome ha (-1, -1))
    refine ⟨r, hr, fun nHeight nTime => ?_, fun _ => ?_⟩
    · rw [(sequenceLocksLoop_spec nHeight nTime hr).2, List.forall_mem_map]
      refine and_congr_right fun _ => ⟨fun h _ txin ht => ?_, fun h txin ht => ?_⟩
      · exact (lockMet_withNext_iff (hl txin ht)).mp (h txin ht)
      · exact (lockMet_withNext_iff (hl txin ht)).mpr (h he txin ht)
    · rw [(sequenceLocksLoop_spec 0 0 hr).1, List.map_map]
      rfl

theorem evaluateSequenceLocks_withNext (lockPair : ℤ × ℤ) :
    evaluateSequenceLocks (T.withNext tip) none lockPair =
      some (lockPair.1 < T.height tip + 1 && lockPair.2 < T.getMedianTimePast tip : Bool) := by
  have hp : (T.withNext tip).parent none = some (some tip) := rfl
  rw [evaluateSequenceLocks_eq hp, getMedianTimePast_withNext]
  rfl

theorem checkSequenceLocks_existing : checkSequenceLocks T view tx flags lp true =
    some (lp.height < T.height view.tip + 1 && lp.time < T.getMedianTimePast view.tip, lp) := by
  rw [checkSequenceLocks, if_pos rfl, evaluateSequenceLocks_withNext]

def lockPointsOf (T : IndexEntries ι) (view : NodeView ι) (r : (ℤ × ℤ) × List ℤ) : LockPoints ι :=
  ⟨r.1.1, r.1.2, T.getAncestor view.tip (maxInputHeight T view r.2)⟩

theorem checkSequenceLocks_recompute
    (hf : ∀ txin ∈ tx.vin, (view.getCoin txin.prevout).isSome) {r : (ℤ × ℤ) × List ℤ}
    (hr : calculateSequenceLocks (T.withNext view.tip) none tx flags
      (tx.vin.map (view.prev T)) = some r) :
    checkSequenceLocks T view tx flags lp false =
      some (r.1.1 < T.height view.tip + 1 && r.1.2 < T.getMedianTimePast view.tip,
        view.lockPointsOf T r) := by
  have hh : (tx.vin.mapM fun txin =>
      (view.getCoin txin.prevout).map (prevHeight T view)) =
      some (tx.vin.map (view.prev T)) := by
    refine (mapM_eq_some_iff 0).mpr ⟨fun txin ht => ?_, rfl⟩
    rw [isSome_map]
    exact hf txin ht
  rw [checkSequenceLocks, if_neg Bool.false_ne_true]
  dsimp only
  rw [hh]
  dsimp only
  rw [hr]
  dsimp only
  rw [evaluateSequenceLocks_withNext]
  rfl

theorem found_of_checkSequenceLocks
    (h : checkSequenceLocks T view tx flags lp₀ false = some (true, lp)) :
    ∀ txin ∈ tx.vin, (view.getCoin txin.prevout).isSome := by
  rw [checkSequenceLocks, if_neg Bool.false_ne_true] at h
  dsimp only at h
  split at h
  · cases h
  · next prevheights hh =>
    have ha := ((mapM_eq_some_iff 0).mp hh).1
    simpa only [isSome_map] using ha

theorem foldl_max_spec (n : ℤ) (l : List ℤ) (m : ℤ) :
    let r := l.foldl (fun m height => if height ≠ n then max m height else m) m
    m ≤ r ∧ (∀ height ∈ l, height ≠ n → height ≤ r) ∧ (m < n → (∀ height ∈ l, height ≤ n) → r < n) := by
  induction l generalizing m with
  | nil => simp
  | cons a l ih =>
    obtain ⟨hs, hme, hl⟩ := ih (if a ≠ n then max m a else m)
    have hle : m ≤ if a ≠ n then max m a else m := by split <;> omega
    refine ⟨hle.trans hs, List.forall_mem_cons.mpr ⟨fun hn => ?_, hme⟩, fun hm hal => ?_⟩
    · have hg : a ≤ if a ≠ n then max m a else m := by
        rw [if_pos hn]
        exact le_max_right m a
      exact hg.trans hs
    · obtain ⟨ha, hal⟩ := List.forall_mem_cons.mp hal
      refine hl ?_ hal
      split <;> omega

variable {r : (ℤ × ℤ) × List ℤ}

theorem Consistent.getCoin_kept (hc : view.Consistent C) (hr : BoundsOf T view tx flags r)
    (he : enforceBIP68 tx flags)
    (hf : ∀ txin ∈ tx.vin, (view.getCoin txin.prevout).isSome) [DecidableEq ι]
    (hv : testLockPointValidity T view' (view.lockPointsOf T r)) (ht : txin ∈ tx.vin)
    (hen : txin.lockDisabled = false) (hco : view.getCoin txin.prevout = some h)
    (hl : h < mempoolHeight) :
    ∃ b ∈ T.path view.tip, b ∈ T.path view'.tip ∧ T.height b = h ∧ C.creates b txin.prevout := by
  obtain ⟨b, hb, hhe, hcr⟩ := ((hc.getCoin_cases hco).resolve_left hl.ne).2
  have hle := height_le hb
  have hp : view.prev T txin = h := prev_confirmed hco hl
  obtain ⟨hn, hma, hbo⟩ := foldl_max_spec (T.height view.tip + 1) r.2 0
  have hm : (h : ℤ) ∈ r.2 := by
    rw [hr.heights he]
    refine List.mem_map.mpr ⟨txin, ht, ?_⟩
    rw [keptHeight, hen, hp]
    rfl
  have hh : ∀ height ∈ r.2, height ≤ T.height view.tip + 1 := by
    rw [hr.heights he]
    intro height hi
    obtain ⟨o, ho, rfl⟩ := List.mem_map.mp hi
    unfold keptHeight
    split
    · omega
    · exact hc.prev_le (hf o ho)
  -- the block that is kept is at least as high as the one with the coin
  obtain ⟨top, htp⟩ := isSome_iff_exists.mp (T.getAncestor_isSome (b := view.tip) hn
    (Int.lt_add_one_iff.mp (hbo (by omega) hh)))
  obtain ⟨hpa, hto⟩ := getAncestor_eq_some_iff.mp htp
  have hk : top ∈ T.path view'.tip := by
    unfold testLockPointValidity lockPointsOf maxInputHeight at hv
    dsimp only at hv
    rw [htp] at hv
    exact ancestorAt_eq_some.mp (of_decide_eq_true hv)
  have hbt : T.height b ≤ T.height top := by
    have := hma _ hm (by omega)
    omega
  exact ⟨b, hb, mem_path_trans (mem_path_of_height_le hb hpa hbt) hk, hhe, hcr⟩

theorem Consistent.inputMet_confirmed (hc' : view'.Consistent C)
    (hco : view.getCoin txin.prevout = some h) (hl : h < mempoolHeight) {b : ι}
    (hb : b ∈ T.path view.tip) (hb' : b ∈ T.path view'.tip) (hh : T.height b = h)
    (hcr : C.creates b txin.prevout) (hf : (view'.getCoin txin.prevout).isSome) :
    InputMet T view.tip nHeight nTime txin (view.prev T txin) ↔
      InputMet T view'.tip nHeight nTime txin (view'.prev T txin) := by
  obtain ⟨h', hco'⟩ := isSome_iff_exists.mp hf
  obtain rfl : h' = T.height b := hc'.getCoin_of_creates hco' hb' hcr
  rw [prev_confirmed hco hl, prev_confirmed hco' (hh ▸ hl), ← hh]
  exact inputMet_congr hb hb' rfl

/-- The lock of an input, counted for one tip, lets it into the block after another one. -/
abbrev MetAt (T : IndexChain ι) (view view' : NodeView ι) (txin : CTxIn) : Prop :=
  InputMet T view.tip (T.height view'.tip + 1) (T.getMedianTimePast view'.tip) txin
    (view.prev T txin)

theorem Consistent.inputMet_unconfirmed
    (ht : ∀ b p, T.parent b = some p → T.getMedianTimePast p < T.nTime b)
    (hc' : view'.Consistent C) (he : txin.lockDisabled = false)
    (hco : view.getCoin txin.prevout = some mempoolHeight)
    (hm : MetAt T view view txin) (hf : (view'.getCoin txin.prevout).isSome) :
    MetAt T view' view' txin ∧ (MetAt T view view' txin ↔
        if txin.lockIsTime then T.getMedianTimePast view.tip ≤ T.getMedianTimePast view'.tip
        else T.height view.tip ≤ T.height view'.tip) := by
  have hl := hc'.prev_le hf
  unfold MetAt at hm ⊢
  rw [prev_unconfirmed hco] at hm ⊢
  have hm := hm he
  unfold InputMet
  simp only [he, true_implies]
  cases hk : txin.lockIsTime with
  | false =>
    rw [hk] at hm
    simp only [Bool.false_eq_true, if_false] at hm ⊢
    omega
  | true =>
    rw [hk] at hm
    simp only [if_true] at hm ⊢
    have hti : ∀ a ∈ T.path view.tip,
        (T.height a : ℤ) = max ((T.height view.tip : ℤ) + 1 - 1) 0 → a = view.tip :=
      fun a ha hh => eq_of_height_ge ha (by omega)
    obtain ⟨ancestor, hp, hh, hv⟩ := hm
    obtain rfl := hti ancestor hp hh
    constructor
    · obtain ⟨ancestor', han'⟩ := isSome_iff_exists.mp (T.getAncestor_isSome (b := view'.tip)
        (le_max_right (view'.prev T txin - 1) 0) (by omega))
      obtain ⟨hp', hh'⟩ := getAncestor_eq_some_iff.mp han'
      have hmo := getMedianTimePast_mono ht hp'
      exact ⟨ancestor', hp', hh', by omega⟩
    · constructor
      · rintro ⟨a, ha, hh, hl⟩
        obtain rfl := hti a ha hh
        omega
      · exact fun hl => ⟨view.tip, hp, hh, by omega⟩

/-- Whether the tip is not below or before the one for which an input of the memory pool was
counted. -/
def TipNotEarlier (T : IndexChain ι) (view view' : NodeView ι) (txin : CTxIn) : Prop :=
  txin.lockDisabled = false → view.getCoin txin.prevout = some mempoolHeight →
    if txin.lockIsTime then T.getMedianTimePast view.tip ≤ T.getMedianTimePast view'.tip
    else T.height view.tip ≤ T.height view'.tip

theorem Consistent.inputMet_cached_iff [DecidableEq ι]
    (hti : ∀ b p, T.parent b = some p → T.getMedianTimePast p < T.nTime b)
    (hc : view.Consistent C) (hc' : view'.Consistent C) (hr : BoundsOf T view tx flags r)
    (hen : enforceBIP68 tx flags)
    (ha : r.1.1 < T.height view.tip + 1 ∧ r.1.2 < T.getMedianTimePast view.tip)
    (hv : testLockPointValidity T view' (view.lockPointsOf T r))
    (hf₀ : ∀ txin ∈ tx.vin, (view.getCoin txin.prevout).isSome)
    (hf : ∀ txin ∈ tx.vin, (view'.getCoin txin.prevout).isSome) (ht : txin ∈ tx.vin) :
    MetAt T view view' txin ↔ MetAt T view' view' txin ∧ TipNotEarlier T view view' txin := by
  cases he : txin.lockDisabled with
  | true => simp [InputMet, TipNotEarlier, he]
  | false =>
    obtain ⟨h, hco⟩ := isSome_iff_exists.mp (hf₀ txin ht)
    rcases hc.getCoin_cases hco with rfl | ⟨hl, -⟩
    · have hm := ((hr.lt_iff _ _).mp ha).2 hen txin ht
      obtain ⟨hn, hca⟩ :=
        hc'.inputMet_unconfirmed hti he hco hm (hf txin ht)
      rw [hca]
      exact ⟨fun hle => ⟨hn, fun _ _ => hle⟩, fun hle => hle.2 he hco⟩
    · obtain ⟨b, hb, hb', hh, hcr⟩ :=
        hc.getCoin_kept hr hen hf₀ hv ht he hco hl
      rw [MetAt, hc'.inputMet_confirmed hco hl hb hb' hh hcr (hf txin ht)]
      refine (and_iff_left fun _ hp => ?_).symm
      rw [hco, Option.some.injEq] at hp
      exact absurd hp hl.ne

theorem nonneg_getMedianTimePast (h : ∀ b, 0 ≤ T.nTime b) (b : ι) : 0 ≤ T.getMedianTimePast b := by
  have hm : ∀ t ∈ (((T.path b).take IndexEntries.nMedianTimeSpan).map T.nTime).insertionSort
      (· ≤ ·), 0 ≤ t := by
    intro t ht
    obtain ⟨c, -, rfl⟩ := List.mem_map.mp ((List.mem_insertionSort _).mp ht)
    exact h c
  generalize hl : (((T.path b).take IndexEntries.nMedianTimeSpan).map T.nTime).insertionSort
      (· ≤ ·) = pmedian at hm
  simp only [IndexEntries.getMedianTimePast, hl]
  rcases lt_or_ge (pmedian.length / 2) pmedian.length with hi | hi
  · rw [List.getD_eq_getElem _ _ hi]
    exact hm _ (List.getElem_mem hi)
  · rw [List.getD_eq_default _ _ hi]

/-- The cached lock points give the answer of the chain unless it is true and an input that was
unconfirmed had them refer to a higher or later tip. -/
theorem cached_eq_iff [DecidableEq ι] (hnonneg : ∀ b, 0 ≤ T.nTime b)
    (htime : ∀ b p, T.parent b = some p → T.getMedianTimePast p < T.nTime b)
    (hc : view.Consistent C) (hc' : view'.Consistent C)
    (hstored : checkSequenceLocks T.toIndexEntries view tx flags lp₀ false = some (true, lp))
    (hvalid : testLockPointValidity T.toIndexEntries view' lp = true)
    (hfound : ∀ txin ∈ tx.vin, (view'.getCoin txin.prevout).isSome) :
    ∃ cached recomputed lp',
      checkSequenceLocks T.toIndexEntries view' tx flags lp true = some (cached, lp) ∧
      checkSequenceLocks T.toIndexEntries view' tx flags lp false = some (recomputed, lp') ∧
      (cached = recomputed ↔ (enforceBIP68 tx flags = true →
        (∀ txin ∈ tx.vin, MetAt T view' view' txin) →
          ∀ txin ∈ tx.vin, TipNotEarlier T view view' txin)) := by
  have hfound₀ := found_of_checkSequenceLocks hstored
  obtain ⟨r, hr, hb⟩ : ∃ r, _ ∧ BoundsOf T view tx flags r := hc.calculateSequenceLocks hfound₀
  obtain ⟨r', hr', hb'⟩ : ∃ r, _ ∧ BoundsOf T view' tx flags r :=
    hc'.calculateSequenceLocks hfound
  rw [checkSequenceLocks_recompute hfound₀ hr, Option.some.injEq, Prod.mk.injEq] at hstored
  obtain ⟨ha, rfl⟩ := hstored
  simp only [Bool.and_eq_true, decide_eq_true_eq] at ha
  have hca : checkSequenceLocks T view' tx flags
      (view.lockPointsOf T r) true =
      some (r.1.1 < T.height view'.tip + 1 && r.1.2 < T.getMedianTimePast view'.tip,
        view.lockPointsOf T r) := checkSequenceLocks_existing
  refine ⟨_, _, _, hca, checkSequenceLocks_recompute hfound hr', ?_⟩
  have hal : (enforceBIP68 tx flags = true → ∀ txin ∈ tx.vin, MetAt T view view' txin) ↔
      (enforceBIP68 tx flags = true → ∀ txin ∈ tx.vin, MetAt T view' view' txin) ∧
      (enforceBIP68 tx flags = true → ∀ txin ∈ tx.vin, TipNotEarlier T view view' txin) := by
    rw [← imp_and, ← forall₂_and]
    refine imp_congr_right fun he => forall₂_congr fun txin ht => ?_
    exact hc.inputMet_cached_iff htime hc' hb he ha hvalid hfound₀ hfound ht
  rw [Bool.eq_iff_iff]
  simp only [Bool.and_eq_true, decide_eq_true_eq]
  rw [hb.lt_iff, hb'.lt_iff, hal, and_congr_right_iff, and_iff_left_iff_imp]
  have hp := nonneg_getMedianTimePast hnonneg view'.tip
  exact ⟨fun h he hm => h ⟨by omega, by omega⟩ (fun _ => hm) he, fun h _ hm he => h he (hm he)⟩

open ThresholdConditionChecker CTxMemPool

def withParent (tip : Fin 5) : NodeView (Fin 5) := ⟨tip, fun _ => none, parentOnly⟩

def childTx : CTransaction := (sampleEntry 2 [⟨1, 0⟩]).tx

def nothingCreated : CreatedOutputs fiveBlocks where
  creates _ _ := False
  created_once _ _ h _ := h.elim

theorem consistent_withParent (tip : Fin 5) : (withParent tip).Consistent nothingCreated where
  height_lt := tip.isLt.trans (by decide)
  created h := nomatch h
  pool_new _ _ _ h := h

def lockPointsAt (tip : Fin 5) : LockPoints (Fin 5) := ⟨tip.val, -1, some 0⟩

theorem stored_withParent (tip : Fin 5) : checkSequenceLocks fiveBlocks.toIndexEntries (withParent tip)
    childTx locktimeVerifySequence {} false = some (true, lockPointsAt tip) := by
  revert tip
  decide +kernel

theorem cached_eq_iff_extended : ∃ answer lp,
    checkSequenceLocks fiveBlocks.toIndexEntries (withParent 4) childTx locktimeVerifySequence
        (lockPointsAt 2) true = some (answer, lockPointsAt 2) ∧
      checkSequenceLocks fiveBlocks.toIndexEntries (withParent 4) childTx locktimeVerifySequence
        (lockPointsAt 2) false = some (answer, lp) := by
  obtain ⟨cached, recomputed, lp, hc, hr, hi⟩ :=
    cached_eq_iff (T := fiveBlocks) (by decide) (by decide) (consistent_withParent 2) (consistent_withParent 4)
      (stored_withParent 2) (by decide) (by decide)
  have he : cached = recomputed := by
    refine hi.mpr fun _ _ txin ht _ _ => ?_
    rw [List.mem_singleton.mp ht]
    decide
  exact ⟨recomputed, lp, he ▸ hc, hr⟩

/-- On a shorter chain the cached lock points reject a transaction that passes. -/
theorem cached_rejects_shorter :
    (withParent 4).Consistent nothingCreated ∧ (withParent 2).Consistent nothingCreated ∧
      checkSequenceLocks fiveBlocks.toIndexEntries (withParent 4) childTx locktimeVerifySequence {}
        false = some (true, lockPointsAt 4) ∧
      testLockPointValidity fiveBlocks.toIndexEntries (withParent 2) (lockPointsAt 4) = true ∧
      (∀ txin ∈ childTx.vin, ((withParent 2).getCoin txin.prevout).isSome) ∧
      checkSequenceLocks fiveBlocks.toIndexEntries (withParent 2) childTx locktimeVerifySequence
        (lockPointsAt 4) true = some (false, lockPointsAt 4) ∧
      checkSequenceLocks fiveBlocks.toIndexEntries (withParent 2) childTx locktimeVerifySequence
        (lockPointsAt 4) false = some (true, lockPointsAt 2) :=
  ⟨consistent_withParent 4, consistent_withParent 2, stored_withParent 4, by decide, by decide,
    by decide +kernel, by decide +kernel⟩

end NodeView

end Palladium
