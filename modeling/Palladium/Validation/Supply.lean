import Palladium.Consensus.AmountChecks
import Palladium.Lib.Total

/-! # No inflation

A transaction that is not a coinbase leaves at most its inputs' value less its fee, and the coinbase
creates at most the fees and the subsidy.
-/

namespace Palladium
open CoinsM ConnectContext Except List Program
variable {strict : Bool} {m m' : UtxoMap} {o : COutPoint} {c : Coin}
namespace UtxoMap

noncomputable def total (m : UtxoMap) : ℤ := ∑ᶠ o, coinValue (m o)

/-- Finitely many coins, each with a value in range. -/
structure Bounded (m : UtxoMap) : Prop where
  finite : {o | m o ≠ none}.Finite
  inRange : m.InRange

theorem bounded_empty : empty.Bounded where
  finite := by
    have he : {o | empty o ≠ none} = ∅ := by
      ext o
      simp [empty]
    rw [he]
    exact Set.finite_empty
  inRange := by
    intro o c h
    cases h

theorem total_empty : empty.total = 0 := finsum_zero

section
variable (hm : m.Bounded)
include hm

theorem Bounded.support_finite : (Function.support fun o => coinValue (m o)).Finite := by
  apply hm.finite.subset
  intro o ho hn
  rw [Function.mem_support, hn] at ho
  exact ho rfl

theorem Bounded.coinValue_nonneg (o : COutPoint) : 0 ≤ coinValue (m o) := by
  cases h : m o with
  | none => exact le_rfl
  | some c => exact (moneyRange_iff.1 (hm.inRange o c h)).1

theorem total_put (o : COutPoint) (c : Coin) :
    (m.put o c).total = m.total - coinValue (m o) + coinValue c.unspent? := by
  have hu : (fun o' => coinValue (m.put o c o')) =
      Function.update (fun o' => coinValue (m o')) o (coinValue c.unspent?) := by
    funext o'
    rw [put_apply, Function.update_apply]
    split <;> rfl
  rw [total, hu, finsum_update hm.support_finite]
  rfl

theorem Bounded.put (hc : ∀ d, c.unspent? = some d → moneyRange d.out.nValue) :
    (m.put o c).Bounded where
  finite := by
    apply (hm.finite.insert o).subset
    intro o' ho'
    by_cases h : o' = o
    · exact Or.inl h
    · rw [Set.mem_ofPred_eq, put_of_ne _ _ h] at ho'
      exact Or.inr ho'
  inRange := by
    intro o' d h
    rw [put_apply] at h
    split at h
    · exact hc d h
    · exact hm.inRange o' d h

theorem Bounded.spendCoin : (m.put o coinEmpty).Bounded :=
  hm.put fun d h => by cases h

theorem total_spends {os : List COutPoint} (hn : os.Nodup) : (m.putAll (spends os)).Bounded ∧
      (m.putAll (spends os)).total = m.total - (os.map fun o => coinValue (m o)).sum := by
  induction os generalizing m with
  | nil => exact ⟨hm, by simp [spends]⟩
  | cons o os ih =>
    rw [nodup_cons] at hn
    obtain ⟨hb, ht⟩ := ih (hm.spendCoin (o := o)) hn.2
    refine ⟨hb, ?_⟩
    have hot : (os.map fun o' => coinValue (m.put o coinEmpty o')) =
        os.map fun o' => coinValue (m o') := by
      apply map_congr_left
      intro o' ho'
      have hne : o' ≠ o := fun he => hn.1 (he ▸ ho')
      rw [put_of_ne _ _ hne]
    change ((m.put o coinEmpty).putAll (spends os)).total = _
    rw [ht, total_put hm, hot, map_cons, sum_cons, unspent?_coinEmpty]
    simp only [coinValue, Option.elim_none]
    ring

theorem total_putAll_le {ws : List (COutPoint × Coin)} (hw : ∀ w ∈ ws, moneyRange w.2.out.nValue) :
    (m.putAll ws).Bounded ∧ (m.putAll ws).total ≤ m.total + (ws.map fun w => w.2.out.nValue).sum := by
  induction ws generalizing m with
  | nil => exact ⟨hm, by simp⟩
  | cons w ws ih =>
    rw [forall_mem_cons] at hw
    have hv : ∀ d, w.2.unspent? = some d → moneyRange d.out.nValue := by
      intro d hd
      unfold Coin.unspent? at hd
      split at hd
      · cases hd
      · cases hd
        exact hw.1
    have hl : coinValue w.2.unspent? ≤ w.2.out.nValue := by
      unfold Coin.unspent?
      split
      · exact (moneyRange_iff.1 hw.1).1
      · exact le_rfl
    obtain ⟨hb, ht⟩ := ih (hm.put (o := w.1) hv) hw.2
    refine ⟨hb, ?_⟩
    have hold := hm.coinValue_nonneg w.1
    rw [total_put hm] at ht
    rw [putAll_cons, map_cons, sum_cons]
    linarith

end

end UtxoMap

def OutputsInRange (tx : CTransaction) : Prop := ∀ out ∈ tx.vout, moneyRange out.nValue = true

theorem sum_createdCoins_le {txid : Uint256} {nHeight i : ℕ} {fCoinbase : Bool}
    {vout : List CTxOut} (hv : ∀ out ∈ vout, moneyRange out.nValue) :
    ((createdCoins txid nHeight fCoinbase i vout).map fun w => w.2.out.nValue).sum ≤ valueSum vout := by
  induction vout generalizing i with
  | nil => exact le_rfl
  | cons out vout ih =>
    rw [forall_mem_cons] at hv
    have ho := (moneyRange_iff.1 hv.1).1
    have hr := ih (i := i + 1) hv.2
    rw [createdCoins, valueSum, map_cons, sum_cons, ← valueSum]
    split
    · linarith
    · rw [map_cons, sum_cons]
      linarith

variable {tx : CTransaction} {nHeight : ℕ} {txundo : CTxUndo}

theorem Updated.total_le (h : Updated strict tx nHeight m txundo m') (hm : m.Bounded)
    (ht : OutputsInRange tx) :
    m'.Bounded ∧
      m'.total ≤ m.total - (tx.spent.map fun o => coinValue (m o)).sum + valueSum tx.vout := by
  obtain ⟨hb, hs⟩ := UtxoMap.total_spends hm h.nodup
  have hc : ∀ w ∈ tx.created nHeight, moneyRange w.2.out.nValue := by
    intro w hw
    obtain ⟨out, ho, -, he⟩ := mem_createdCoins hw
    rw [he]
    exact ht out ho
  obtain ⟨hb', hl⟩ := UtxoMap.total_putAll_le hb hc
  rw [← h.result] at hb' hl
  have hsu : ((tx.created nHeight).map fun w => w.2.out.nValue).sum ≤ valueSum tx.vout :=
    sum_createdCoins_le ht
  exact ⟨hb', by linarith⟩

namespace ConnectContext
variable {ctx : ConnectContext} {nFees : ℤ} {nSigOpsCost : ℕ} {vtx : List CTransaction}

theorem addFees_ok {fees : ℤ} (hcb : tx.isCoinBase = false)
    (h : (ctx.addFees nFees tx).run (mapMachine strict) m = .ok (fees, m)) :
    fees = nFees + ((tx.spent.map fun o => coinValue (m o)).sum - valueSum tx.vout) ∧
      moneyRange fees := by
  rw [addFees, if_neg (by simp [hcb])] at h
  obtain ⟨txfee, hf, h⟩ := (keeps_checkTxInputs _ _).run_bind_eq_ok.1 h
  obtain ⟨sum, hs, h⟩ := (keeps_lift _).run_bind_eq_ok.1 h
  split at h
  · cases h
  rename_i hrange
  obtain ⟨p, -, h⟩ := (keeps_prevHeights _).run_bind_eq_ok.1 h
  split at h
  · cases h
  cases h
  rw [addAmount_eq_ok ((run_lift_eq_ok _).1 hs).1, (checkTxInputs_ok hf).1] at hrange ⊢
  rw [CTransaction.spent, hcb, if_neg (by simp), map_map]
  exact ⟨rfl, by simpa using hrange⟩

theorem addFees_ne_overflow (hm : m.InRange) (hf : moneyRange nFees) :
    (ctx.addFees nFees tx).run (mapMachine strict) m ≠ .error .overflow := by
  unfold addFees
  split
  · exact avoids_pure _ m
  intro h
  rcases (keeps_checkTxInputs _ _).run_bind_eq_error.1 h with h | ⟨txfee, hfe, h⟩
  · exact checkTxInputs_ne_overflow hm _ _ h
  rcases (keeps_lift _).run_bind_eq_error.1 h with h | ⟨sum, -, h⟩
  · rw [run_lift_eq_error, addAmount_of_range hf (checkTxInputs_ok hfe).2] at h
    cases h
  split at h
  · cases h
  rcases (keeps_prevHeights _).run_bind_eq_error.1 h with h | ⟨p, -, h⟩
  · exact avoids_prevHeights _ m h
  split at h <;> cases h

theorem connectTxs_total (hcb : ∀ tx ∈ vtx, tx.isCoinBase = false)
    (hv : ∀ tx ∈ vtx, OutputsInRange tx) {r : ℤ × List CTxUndo} (hm : m.Bounded)
    (hf : moneyRange nFees)
    (h : (ctx.connectTxs nFees nSigOpsCost vtx).run (mapMachine strict) m = .ok (r, m')) :
    m'.Bounded ∧ moneyRange r.1 ∧ m'.total + r.1 ≤ m.total + nFees := by
  induction vtx generalizing m nFees nSigOpsCost r with
  | nil =>
    cases h
    exact ⟨hm, hf, le_rfl⟩
  | cons tx vtx ih =>
    rw [forall_mem_cons] at hcb hv
    obtain ⟨fees, cost, t, m₁, r', ha, hu, hre, rfl⟩ := connectTxs_cons_ok h
    obtain ⟨hf₁, hra⟩ := addFees_ok hcb.1 ha
    obtain ⟨hm₁, ht⟩ := hu.total_le hm hv.1
    obtain ⟨hm', hr, hl⟩ := ih hcb.2 hv.2 hm₁ hra hre
    exact ⟨hm', hr, by simp only; linarith⟩

theorem connectTxs_ne_overflow (hcb : ∀ tx ∈ vtx, tx.isCoinBase = false)
    (hv : ∀ tx ∈ vtx, OutputsInRange tx) (hm : m.Bounded) (hf : moneyRange nFees) :
    (ctx.connectTxs nFees nSigOpsCost vtx).run (mapMachine strict) m ≠ .error .overflow := by
  induction vtx generalizing m nFees nSigOpsCost with
  | nil => exact avoids_pure _ m
  | cons tx vtx ih =>
    rw [forall_mem_cons] at hcb hv
    intro h
    rcases (ctx.keeps_addFees _ _).run_bind_eq_error.1 h with h | ⟨fees, ha, h⟩
    · exact addFees_ne_overflow hm.inRange hf h
    rcases (ctx.keeps_checkScripts _ _).run_bind_eq_error.1 h with h | ⟨cost, -, h⟩
    · exact avoids_checkScripts ctx _ _ m h
    rcases (run_bind_eq_error _).1 h with h | ⟨t, m₁, hu, h⟩
    · exact avoids_updateCoins _ _ m h
    have hm₁ := ((updateCoins_ok hu).total_le hm hv.1).1
    rcases (run_bind_eq_error _).1 h with h | ⟨r, m₂, -, h⟩
    · exact ih hcb.2 hv.2 hm₁ (addFees_ok hcb.1 ha).2 h
    · cases h

theorem addFees_coinBase (hcb : tx.isCoinBase) : ctx.addFees nFees tx = pure nFees :=
  if_pos hcb

end ConnectContext

theorem Updated.coinBase_total_le (h : Updated strict tx nHeight m txundo m') (hm : m.Bounded)
    (ht : OutputsInRange tx) (hcb : tx.isCoinBase) :
    m'.Bounded ∧ m'.total ≤ m.total + valueSum tx.vout := by
  have hl := h.total_le hm ht
  rwa [CTransaction.spent, if_pos hcb, map_nil, sum_nil, sub_zero] at hl

def subsidyAfter (halvings : ℕ) : ℤ := if halvings ≥ 64 then 0 else 5000000000 / 2 ^ halvings

theorem getBlockSubsidy_eq (nHeight : ℕ) (params : Params) :
    getBlockSubsidy nHeight params = subsidyAfter (nHeight / params.nSubsidyHalvingInterval) := by
  simp only [getBlockSubsidy, subsidyAfter, Int.shiftRight_eq_div_pow]
  rfl

theorem subsidyAfter_nonneg (ha : ℕ) : 0 ≤ subsidyAfter ha := by
  unfold subsidyAfter
  split
  · exact le_rfl
  · exact Int.ediv_nonneg (by decide) (by positivity)

theorem getBlockSubsidy_range (nHeight : ℕ) (params : Params) :
    moneyRange (getBlockSubsidy nHeight params) := by
  rw [getBlockSubsidy_eq, moneyRange_iff]
  refine ⟨subsidyAfter_nonneg _, ?_⟩
  unfold subsidyAfter
  split
  · decide
  · exact (Int.ediv_le_self _ (by decide)).trans (by decide)

namespace ConnectContext
variable {ctx : ConnectContext} {nFees : ℤ}

theorem checkReward_ok {coinbase : CTransaction} {vtx : List CTransaction} {u : Unit}
    (h : ctx.checkReward nFees (coinbase :: vtx) = .ok u) :
    valueSum coinbase.vout ≤ nFees + getBlockSubsidy ctx.nHeight ctx.params := by
  obtain ⟨b, hr, h⟩ := bind_eq_ok.1 h
  obtain ⟨value_out, hv, h⟩ := bind_eq_ok.1 h
  split at h
  · cases h
  rw [addAmount_eq_ok hr] at *
  have hs := (sumOutputs_ok hv).1
  omega

theorem checkReward_ne_overflow (hf : moneyRange nFees) (vtx : List CTransaction) :
    ctx.checkReward nFees vtx ≠ .error .overflow := by
  cases vtx with
  | nil => simp [checkReward]
  | cons coinbase vtx =>
    intro h
    rcases bind_eq_error.1 h with h | ⟨b, -, h⟩
    · rw [addAmount_of_range hf (getBlockSubsidy_range _ _)] at h
      cases h
    rcases bind_eq_error.1 h with h | ⟨value_out, -, h⟩
    · exact sumOutputs_ne_overflow (by decide) h
    split at h <;> cases h

variable {coinbase : CTransaction} {vtx : List CTransaction}
variable (hm : m.Bounded) (hcb : coinbase.isCoinBase = true)
  (hot : ∀ tx ∈ vtx, tx.isCoinBase = false)
  (hou : ∀ tx ∈ coinbase :: vtx, OutputsInRange tx)

include hm hcb hot hou

theorem connectTxs_block_total {r : ℤ × List CTxUndo}
    (h : (ctx.connectTxs 0 0 (coinbase :: vtx)).run (mapMachine strict) m = .ok (r, m')) :
    m'.Bounded ∧ moneyRange r.1 ∧ m'.total + r.1 ≤ m.total + valueSum coinbase.vout := by
  rw [forall_mem_cons] at hou
  obtain ⟨fees, cost, t, m₁, r', ha, hu, hre, rfl⟩ := connectTxs_cons_ok h
  rw [addFees_coinBase hcb] at ha
  cases ha
  obtain ⟨hm₁, ht₁⟩ := hu.coinBase_total_le hm hou.1 hcb
  obtain ⟨hm', hr, ht⟩ := connectTxs_total hot hou.2 hm₁ (by decide) hre
  exact ⟨hm', hr, by simp only; linarith⟩

theorem connectTxs_block_ne_overflow :
    (ctx.connectTxs 0 0 (coinbase :: vtx)).run (mapMachine strict) m ≠ .error .overflow := by
  rw [forall_mem_cons] at hou
  intro h
  rcases (ctx.keeps_addFees _ _).run_bind_eq_error.1 h with h | ⟨fees, ha, h⟩
  · exact addFees_ne_overflow hm.inRange (by decide) h
  rw [addFees_coinBase hcb] at ha
  cases ha
  rcases (ctx.keeps_checkScripts _ _).run_bind_eq_error.1 h with h | ⟨cost, -, h⟩
  · exact avoids_checkScripts ctx _ _ m h
  rcases (run_bind_eq_error _).1 h with h | ⟨t, m₁, hu, h⟩
  · exact avoids_updateCoins _ _ m h
  have hm₁ := ((updateCoins_ok hu).total_le hm hou.1).1
  rcases (run_bind_eq_error _).1 h with h | ⟨r, m₂, -, h⟩
  · exact connectTxs_ne_overflow hot hou.2 hm₁ (by decide) h
  · cases h

theorem connectCoins_ne_overflow :
    (ctx.connectCoins (coinbase :: vtx)).run (mapMachine strict) m ≠ .error .overflow := by
  intro h
  rcases (ctx.keeps_violatesBIP30 _).run_bind_eq_error.1 h with h | ⟨o, -, h⟩
  · exact avoids_violatesBIP30 ctx _ m h
  split at h
  · cases h
  rcases (run_bind_eq_error _).1 h with h | ⟨r, m₁, ht, h⟩
  · exact connectTxs_block_ne_overflow hm hcb hot hou h
  have hr := (connectTxs_block_total hm hcb hot hou ht).2.1
  rcases (keeps_lift _).run_bind_eq_error.1 h with h | ⟨_, -, h⟩
  · exact checkReward_ne_overflow hr _ ((run_lift_eq_error _).1 h)
  · cases h

omit hm hcb hot hou

variable {block : CBlock} {view view' : CCoinsView} {vtxundo : List CTxUndo}

theorem connectBlock_total (hv : view.coins.Bounded)
    (h : ctx.connectBlock strict block view = .ok (vtxundo, view')) :
    view'.coins.Bounded ∧
      view'.coins.total ≤ view.coins.total + getBlockSubsidy ctx.nHeight ctx.params := by
  by_cases hg : block.hash = ctx.params.hashGenesisBlock
  · have hc := connectBlock_genesis hg h
    have hs := (moneyRange_iff.1 (getBlockSubsidy_range ctx.nHeight ctx.params)).1
    rw [hc]
    exact ⟨hv, by omega⟩
  obtain ⟨hch, -, -, -, hru⟩ := connectBlock_ok hg h
  obtain ⟨coinbase, vtx, hvt, hcb, hot, htx⟩ := checkBlock_ok hch
  have hou := checkTransactions_ok htx
  rw [hvt] at hru hou
  obtain ⟨r, -, htx, hr, -⟩ := connectCoins_ok hru
  obtain ⟨hm', -, ht⟩ := connectTxs_block_total hv hcb hot hou htx
  have hl := checkReward_ok hr
  exact ⟨hm', by linarith⟩

theorem connectBlock_ne_overflow (hv : view.coins.Bounded) :
    ctx.connectBlock strict block view ≠ .error .overflow := by
  intro h
  unfold connectBlock at h
  split at h
  · cases h
  rcases bind_eq_error.1 h with h | ⟨_, hc, h⟩
  · exact checkBlock_ne_overflow _ _ _ h
  obtain ⟨coinbase, vtx, hvt, hcb, hot, ht⟩ := checkBlock_ok hc
  have hou := checkTransactions_ok ht
  rw [hvt] at hou h
  split at h
  · cases h
  split at h
  · cases h
  split at h
  · cases h
  rcases bind_eq_error.1 h with h | ⟨r, -, h⟩
  · exact connectCoins_ne_overflow hv hcb hot hou h
  · cases h

end ConnectContext

theorem sum_getBlockSubsidy_le (s : Finset ℕ) :
    ∑ i ∈ s, getBlockSubsidy i Network.main.consensus ≤ maxMoney := by
  have hz : ∀ i, 64 * 210000 ≤ i → subsidyAfter (i / 210000) = 0 := by
    intro i hi
    exact if_pos ((Nat.le_div_iff_mul_le (by decide)).2 hi)
  calc ∑ i ∈ s, getBlockSubsidy i Network.main.consensus
      = ∑ i ∈ s, subsidyAfter (i / 210000) :=
        Finset.sum_congr rfl fun i _ => getBlockSubsidy_eq i _
    _ ≤ ∑ i ∈ Finset.range (64 * 210000), subsidyAfter (i / 210000) :=
        sum_le_sum_range (fun i => subsidyAfter_nonneg _) hz s
    _ = (210000 : ℕ) * ∑ k ∈ Finset.range 64, subsidyAfter k := sum_range_div (by decide) 64
    _ ≤ maxMoney := by decide +kernel

/-- The views and heights of chains of blocks connected on the main network. The view of genesis is
the empty one before it. -/
inductive MainChain : ℕ → CCoinsView → Prop
  | genesis {ctx : ConnectContext} {strict : Bool} {block : CBlock}
      {r : List CTxUndo × CCoinsView} (hmain : ctx.params = Network.main.consensus)
      (hblock : block.hash = Network.main.consensus.hashGenesisBlock)
      (h : ctx.connectBlock strict block ⟨.empty, 0⟩ = .ok r) : MainChain 0 r.2
  | next {nHeight : ℕ} {view : CCoinsView} {ctx : ConnectContext} {strict : Bool}
      {block : CBlock} {r : List CTxUndo × CCoinsView} (hchain : MainChain nHeight view)
      (hmain : ctx.params = Network.main.consensus)
      (hprev : ctx.pprev = some (view.hashBlock, nHeight))
      (h : ctx.connectBlock strict block view = .ok r) : MainChain (nHeight + 1) r.2

/-- A block on the main network that pays its reward to one output. -/
def rewardBlock (hash : Uint256) (nValue : ℤ) : CBlock where
  hash := hash
  hashMerkleRoot := 0
  nBits := 0x1d00ffff
  vtx :=
    [{ vin := [⟨⟨0, COutPoint.nullIndex⟩, [1, 1], 0, []⟩], vout := [⟨nValue, []⟩], nVersion := 1,
       nLockTime := 0, hash := hash }]

def rewardContext (hash : Uint256) (pprev : Option (Uint256 × ℕ)) : ConnectContext where
  params := Network.main.consensus
  hash := hash
  pprev := pprev
  hashAtBIP34Height := none
  fScriptChecks := true
  checks := default

theorem MainChain.bounded {view : CCoinsView} (h : MainChain nHeight view) : view.coins.Bounded ∧
      view.coins.total ≤ ∑ i ∈ Finset.Icc 1 nHeight, getBlockSubsidy i Network.main.consensus := by
  induction h with
  | genesis hma hb h =>
    have hc := connectBlock_genesis (hb.trans (by rw [hma])) h
    rw [hc, UtxoMap.total_empty]
    exact ⟨UtxoMap.bounded_empty, le_rfl⟩
  | @next n view ctx strict block r hch hma hp h ih =>
    obtain ⟨hbo, ht⟩ := connectBlock_total ih.1 h
    have hh : ctx.nHeight = n + 1 := by rw [ConnectContext.nHeight, hp]; rfl
    rw [hh, hma] at ht
    refine ⟨hbo, ?_⟩
    rw [Finset.sum_Icc_succ_top (by omega)]
    linarith [ih.2]

/-- The coins of a chain are finitely many, each in range and all together worth at most the
subsidies so far, and no block makes an addition of amounts overflow on them. -/
theorem MainChain.no_inflation {nHeight : ℕ} {view : CCoinsView} (h : MainChain nHeight view) :
    {o | view.coins o ≠ none}.Finite ∧
      view.coins.total ≤ ∑ i ∈ Finset.Icc 1 nHeight, getBlockSubsidy i Network.main.consensus ∧
      view.coins.total ≤ maxMoney ∧
      (∀ o c, view.coins o = some c → moneyRange c.out.nValue = true) ∧
      (∀ size tx, checkTransaction size tx ≠ .error .overflow) ∧
      (∀ strict tx nSpendHeight,
        (checkTxInputs tx nSpendHeight).run (mapMachine strict) view.coins ≠ .error .overflow) ∧
      ∀ (ctx : ConnectContext) (strict : Bool) (block : CBlock),
        ctx.connectBlock strict block view ≠ .error .overflow := by
  obtain ⟨hb, ht⟩ := h.bounded
  refine ⟨hb.finite, ht, ht.trans (sum_getBlockSubsidy_le _), hb.inRange,
    checkTransaction_ne_overflow, ?_, ?_⟩
  · intro strict tx nSpendHeight
    exact checkTxInputs_ne_overflow hb.inRange tx nSpendHeight
  · intro ctx strict block
    exact connectBlock_ne_overflow hb

theorem MainChain.no_inflation_first_block :
    ∃ view, MainChain 1 view ∧ view.coins ⟨2, 0⟩ = some ⟨⟨5000000000, []⟩, true, 1⟩ ∧
      view.coins.total ≤ ∑ i ∈ Finset.Icc 1 1, getBlockSubsidy i Network.main.consensus := by
  have hr : ((rewardContext Network.main.consensus.hashGenesisBlock none).connectBlock true
      (rewardBlock Network.main.consensus.hashGenesisBlock 5000000000) ⟨.empty, 0⟩ >>= fun r₀ =>
        (rewardContext 2 (some (r₀.2.hashBlock, 0))).connectBlock true
          (rewardBlock 2 5000000000) r₀.2 >>= fun r₁ =>
            .ok (r₁.2.coins ⟨2, 0⟩)).toOption = some (some ⟨⟨5000000000, []⟩, true, 1⟩) := by
    decide +kernel
  obtain ⟨r₀, h₀, hr⟩ := bind_eq_ok.1 (eq_ok_of_toOption hr)
  obtain ⟨r₁, h₁, hr⟩ := bind_eq_ok.1 hr
  have hc : MainChain 1 r₁.2 := (MainChain.genesis rfl rfl h₀).next rfl rfl h₁
  exact ⟨r₁.2, hc, Except.ok.inj hr, hc.no_inflation.2.1⟩

end Palladium
