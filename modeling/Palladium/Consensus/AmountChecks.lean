import Palladium.Validation.CoinEffects

/-! # Amounts stay in range

The checks of transactions only add amounts in `MoneyRange`, so no addition leaves `int64_t`; a
transaction that passes has its outputs in range, and its fee is what its inputs hold beyond them.
-/

namespace Palladium
open CoinsM Except List Program
variable {strict : Bool} {m : UtxoMap} {a b v : ℤ} {vout : List CTxOut}

theorem moneyRange_iff : moneyRange v ↔ 0 ≤ v ∧ v ≤ maxMoney := by
  simp [moneyRange]

theorem maxMoney_eq : maxMoney = 2100000000000000 := rfl

theorem addAmount_eq_ok : addAmount a b = .ok v → v = a + b := by
  unfold addAmount
  split
  · intro h
    cases h
    rfl
  · intro h
    cases h

theorem addAmount_of_range (ha : moneyRange a) (hb : moneyRange b) : addAmount a b = .ok (a + b) := by
  rw [moneyRange_iff, maxMoney_eq] at ha hb
  exact if_pos (by omega)

def valueSum (vout : List CTxOut) : ℤ := (vout.map (·.nValue)).sum

theorem sumOutputs_ok (h : sumOutputs a vout = .ok v) :
    v = a + valueSum vout ∧ moneyRange v ∧ ∀ out ∈ vout, moneyRange out.nValue := by
  induction vout generalizing a with
  | nil =>
    unfold sumOutputs at h
    split at h
    · cases h
      exact ⟨by simp [valueSum], ‹_›, by simp⟩
    · cases h
  | cons out vout ih =>
    unfold sumOutputs at h
    split at h
    · cases h
    rename_i hout
    obtain ⟨sum, hs, h⟩ := bind_eq_ok.1 h
    split at h
    · cases h
    obtain ⟨rfl, hv, hvo⟩ := ih h
    refine ⟨?_, hv, ?_⟩
    · rw [addAmount_eq_ok hs, valueSum, valueSum, map_cons, sum_cons, add_assoc]
    · rw [forall_mem_cons]
      exact ⟨by simpa using hout, hvo⟩

theorem sumOutputs_ne_overflow (ha : moneyRange a) : sumOutputs a vout ≠ .error .overflow := by
  induction vout generalizing a with
  | nil =>
    unfold sumOutputs
    rw [if_pos ha]
    simp
  | cons out vout ih =>
    unfold sumOutputs
    split
    · simp
    rename_i hout
    rw [addAmount_of_range ha (by simpa using hout)]
    intro h
    rcases bind_eq_error.1 h with h | ⟨sum, -, h⟩
    · cases h
    · split at h
      · cases h
      · rename_i hsum
        exact ih (by simpa using hsum) h

variable {u : Unit} {tx : CTransaction} {m' : UtxoMap} {nSpendHeight : ℕ}

theorem checkOutputValues_ok (h : checkOutputValues a vout = .ok u) :
    ∀ out ∈ vout, moneyRange out.nValue := by
  induction vout generalizing a with
  | nil => simp
  | cons out vout ih =>
    unfold checkOutputValues at h
    split at h
    · cases h
    split at h
    · cases h
    obtain ⟨sum, -, h⟩ := bind_eq_ok.1 h
    split at h
    · cases h
    · rw [forall_mem_cons]
      exact ⟨moneyRange_iff.2 ⟨by omega, by omega⟩, ih h⟩

theorem checkOutputValues_ne_overflow (ha : moneyRange a) :
    checkOutputValues a vout ≠ .error .overflow := by
  induction vout generalizing a with
  | nil => simp [checkOutputValues]
  | cons out vout ih =>
    unfold checkOutputValues
    split
    · simp
    split
    · simp
    rw [addAmount_of_range ha (moneyRange_iff.2 ⟨by omega, by omega⟩)]
    intro h
    rcases bind_eq_error.1 h with h | ⟨sum, -, h⟩
    · cases h
    · split at h
      · cases h
      · rename_i hsum
        exact ih (by simpa using hsum) h

theorem checkTransaction_ok {size : ℕ} (h : checkTransaction size tx = .ok u) :
    ∀ out ∈ tx.vout, moneyRange out.nValue := by
  unfold checkTransaction at h
  iterate 3
    split at h
    · cases h
  obtain ⟨_, hv, -⟩ := bind_eq_ok.1 h
  exact checkOutputValues_ok hv

theorem checkTransaction_ne_overflow (size : ℕ) (tx : CTransaction) :
    checkTransaction size tx ≠ .error .overflow := by
  unfold checkTransaction
  iterate 3
    split
    · simp
  intro h
  rcases bind_eq_error.1 h with h | ⟨_, -, h⟩
  · exact checkOutputValues_ne_overflow (by decide) h
  · unfold checkInputsShape at h
    split_ifs at h <;> cases h

theorem checkTransactions_ok {checks : ScriptChecks} {vtx : List CTransaction}
    (h : checkTransactions checks vtx = .ok u) :
    ∀ tx ∈ vtx, ∀ out ∈ tx.vout, moneyRange out.nValue := by
  induction vtx with
  | nil => simp
  | cons tx vtx ih =>
    obtain ⟨_, ht, h⟩ := bind_eq_ok.1 h
    rw [forall_mem_cons]
    exact ⟨checkTransaction_ok ht, ih h⟩

variable (checks : ScriptChecks)

theorem checkTransactions_ne_overflow (vtx : List CTransaction) :
    checkTransactions checks vtx ≠ .error .overflow := by
  induction vtx with
  | nil => simp [checkTransactions]
  | cons tx vtx ih =>
    intro h
    rcases bind_eq_error.1 h with h | ⟨_, -, h⟩
    · exact checkTransaction_ne_overflow _ _ h
    · exact ih h

theorem checkBlock_ne_overflow (params : Params) (block : CBlock) :
    checkBlock checks params block ≠ .error .overflow := by
  unfold checkBlock
  iterate 6
    split
    · simp
  intro h
  rcases bind_eq_error.1 h with h | ⟨_, -, h⟩
  · exact checkTransactions_ne_overflow _ _ h
  · split at h <;> cases h

section Avoids
variable {o : COutPoint}

theorem avoids_haveCoin : Avoids (mapMachine strict) .overflow (haveCoin o) := by
  intro m h
  cases h

theorem avoids_accessCoin : Avoids (mapMachine strict) .overflow (accessCoin o) := by
  intro m h
  cases h

theorem avoids_spendCoin : Avoids (mapMachine strict) .overflow (spendCoin o) := by
  intro m h
  cases h

theorem avoids_addCoin {c : Coin} {possible_overwrite : Bool} :
    Avoids (mapMachine strict) .overflow (addCoin o c possible_overwrite) := by
  intro m h
  rw [run_addCoin, UtxoMap.tryAddCoin] at h
  split_ifs at h
  all_goals cases h

variable (tx)

theorem avoids_haveInputs : Avoids (mapMachine strict) .overflow (haveInputs tx) := by
  have hc : ∀ vin, Avoids (mapMachine strict) .overflow (haveCoins vin) := by
    intro vin
    induction vin with
    | nil => exact avoids_pure _
    | cons txin vin ih =>
      apply avoids_haveCoin.bind
      intro a
      cases a
      · exact avoids_pure _
      · exact ih
  unfold haveInputs
  split
  · exact avoids_pure _
  · exact hc _

theorem avoids_prevHeights (vin : List CTxIn) :
    Avoids (mapMachine strict) .overflow (prevHeights vin) := by
  induction vin with
  | nil => exact avoids_pure _
  | cons txin vin ih => exact avoids_accessCoin.bind fun _ => ih.bind fun _ => avoids_pure _

theorem avoids_spentOutputs : Avoids (mapMachine strict) .overflow (spentOutputs tx) := by
  have ho : ∀ vin, Avoids (mapMachine strict) .overflow (accessOutputs vin) := by
    intro vin
    induction vin with
    | nil => exact avoids_pure _
    | cons txin vin ih =>
      apply avoids_accessCoin.bind
      intro coin
      split
      · exact avoids_halt (by simp)
      · exact ih.bind fun _ => avoids_pure _
  unfold spentOutputs
  split
  · exact avoids_pure _
  · exact ho _

variable (ctx : ConnectContext)

theorem avoids_checkScripts (nSigOpsCost : ℕ) (tx : CTransaction) :
    Avoids (mapMachine strict) .overflow (ctx.checkScripts nSigOpsCost tx) := by
  apply (avoids_spentOutputs tx).bind
  intro spent_outputs
  simp only
  split
  · exact avoids_halt (by simp)
  split
  · exact avoids_halt (by simp)
  · exact avoids_pure _

theorem avoids_violatesBIP30 (vtx : List CTransaction) :
    Avoids (mapMachine strict) .overflow (ctx.violatesBIP30 vtx) := by
  have ha : ∀ os, Avoids (mapMachine strict) .overflow (ConnectContext.anyHaveCoin os) := by
    intro os
    induction os with
    | nil => exact avoids_pure _
    | cons o os ih =>
      apply avoids_haveCoin.bind
      intro a
      cases a
      · exact ih
      · exact avoids_pure _
  unfold ConnectContext.violatesBIP30
  split
  · exact ha _
  · exact avoids_pure _

theorem avoids_updateCoins (nHeight : ℕ) :
    Avoids (mapMachine strict) .overflow (updateCoins tx nHeight) := by
  have hs : ∀ vin, Avoids (mapMachine strict) .overflow (spendInputs vin) := by
    intro vin
    induction vin with
    | nil => exact avoids_pure _
    | cons txin vin ih =>
      apply avoids_spendCoin.bind
      intro coin
      cases coin with
      | none => exact avoids_halt (by simp)
      | some coin => exact ih.bind fun _ => avoids_pure _
  have ha : ∀ i vout, Avoids (mapMachine strict) .overflow
      (addOutputs tx.hash nHeight tx.isCoinBase false i vout) := by
    intro i vout
    induction vout generalizing i with
    | nil => exact avoids_pure _
    | cons out vout ih =>
      exact (avoids_pure _).bind fun _ => avoids_addCoin.bind fun _ => ih (i + 1)
  apply Avoids.bind
  · unfold spendTx
    split
    · exact avoids_pure _
    · exact (hs _).bind fun _ => avoids_pure _
  · intro t
    exact (ha _ _).bind fun _ => avoids_pure _

variable {tx}

end Avoids

def coinValue (c : Option Coin) : ℤ := c.elim 0 (·.out.nValue)

def UtxoMap.InRange (m : UtxoMap) : Prop := ∀ o c, m o = some c → moneyRange c.out.nValue = true

theorem eq_some_of_getD {o : COutPoint} (h : ((m o).getD coinEmpty).isSpent ≠ true) :
    m o = some ((m o).getD coinEmpty) := by
  cases hm : m o with
  | none =>
    rw [hm] at h
    exact absurd rfl h
  | some c => rfl

theorem sumInputs_ok {vin : List CTxIn}
    (h : (sumInputs nSpendHeight a vin).run (mapMachine strict) m = .ok (v, m')) :
    v = a + (vin.map fun txin => coinValue (m txin.prevout)).sum := by
  induction vin generalizing a with
  | nil =>
    cases h
    simp
  | cons txin vin ih =>
    obtain ⟨coin, hc, h⟩ := (keeps_accessCoin _).run_bind_eq_ok.1 h
    rw [run_accessCoin, Except.ok.injEq, Prod.mk.injEq] at hc
    obtain ⟨rfl, -⟩ := hc
    split at h
    · cases h
    rename_i hspent
    split at h
    · cases h
    obtain ⟨sum, hs, h⟩ := (keeps_lift _).run_bind_eq_ok.1 h
    split at h
    · cases h
    rw [ih h, addAmount_eq_ok ((run_lift_eq_ok _).1 hs).1, map_cons, sum_cons,
      eq_some_of_getD hspent, add_assoc]
    rfl

theorem sumInputs_ne_overflow (hm : m.InRange) (ha : moneyRange a) (nSpendHeight : ℕ)
    (vin : List CTxIn) :
    (sumInputs nSpendHeight a vin).run (mapMachine strict) m ≠ .error .overflow := by
  induction vin generalizing a with
  | nil => exact avoids_pure _ m
  | cons txin vin ih =>
    intro h
    rcases (keeps_accessCoin _).run_bind_eq_error.1 h with h | ⟨coin, hc, h⟩
    · exact avoids_accessCoin m h
    rw [run_accessCoin, Except.ok.injEq, Prod.mk.injEq] at hc
    obtain ⟨rfl, -⟩ := hc
    split at h
    · cases h
    rename_i hspent
    split at h
    · cases h
    rw [addAmount_of_range ha (hm _ _ (eq_some_of_getD hspent))] at h
    rcases (keeps_lift _).run_bind_eq_error.1 h with h | ⟨sum, -, h⟩
    · cases h
    split at h
    · cases h
    · rename_i hrange
      simp only [Bool.or_eq_true, Bool.not_eq_true', not_or, Bool.not_eq_false] at hrange
      exact ih hrange.2 h

theorem checkTxInputs_ok {txfee : ℤ}
    (h : (checkTxInputs tx nSpendHeight).run (mapMachine strict) m = .ok (txfee, m')) :
    txfee = (tx.vin.map fun txin => coinValue (m txin.prevout)).sum - valueSum tx.vout ∧
      moneyRange txfee := by
  obtain ⟨a, -, h⟩ := (keeps_haveInputs tx).run_bind_eq_ok.1 h
  split at h
  · cases h
  obtain ⟨n, hi, h⟩ := (keeps_sumInputs _ _ _).run_bind_eq_ok.1 h
  obtain ⟨value_out, ho, h⟩ := (keeps_lift _).run_bind_eq_ok.1 h
  have ho' := (sumOutputs_ok ((run_lift_eq_ok _).1 ho).1).1
  split at h
  · cases h
  split at h
  · cases h
  rename_i hrange
  cases h
  rw [sumInputs_ok hi, ho'] at hrange ⊢
  rw [zero_add, zero_add] at hrange ⊢
  exact ⟨rfl, by simpa using hrange⟩

theorem checkTxInputs_ne_overflow (hm : m.InRange) (tx : CTransaction) (nSpendHeight : ℕ) :
    (checkTxInputs tx nSpendHeight).run (mapMachine strict) m ≠ .error .overflow := by
  intro h
  rcases (keeps_haveInputs tx).run_bind_eq_error.1 h with h | ⟨a, -, h⟩
  · exact avoids_haveInputs tx m h
  split at h
  · cases h
  rcases (keeps_sumInputs _ _ _).run_bind_eq_error.1 h with h | ⟨n, -, h⟩
  · exact sumInputs_ne_overflow hm (by decide) _ _ h
  rcases (keeps_lift _).run_bind_eq_error.1 h with h | ⟨value_out, -, h⟩
  · exact sumOutputs_ne_overflow (by decide) ((run_lift_eq_error _).1 h)
  split at h
  · cases h
  split at h <;> cases h

end Palladium
