import Palladium.Validation.ConnectBlock

/-! # What connecting and disconnecting write

On a map of unspent coins each loop of `UpdateCoins` and of `DisconnectBlock` is a sequence of
writes that does not depend on the map; what the loop returns says what the map held.
-/

namespace Palladium
open CoinsM List Program UtxoMap
variable {strict : Bool} {m m' : UtxoMap}

theorem keeps_haveCoin (o : COutPoint) : Keeps (mapMachine strict) (haveCoin o) := by
  intro m a m' h
  cases h
  rfl

theorem keeps_accessCoin (o : COutPoint) : Keeps (mapMachine strict) (accessCoin o) := by
  intro m a m' h
  cases h
  rfl

variable (vin : List CTxIn)

theorem keeps_haveCoins : Keeps (mapMachine strict) (haveCoins vin) := by
  induction vin with
  | nil => exact keeps_pure _
  | cons txin vin ih =>
    apply (keeps_haveCoin _).bind
    intro a
    cases a
    · exact keeps_pure _
    · exact ih

variable (tx : CTransaction)

theorem keeps_haveInputs : Keeps (mapMachine strict) (haveInputs tx) := by
  unfold haveInputs
  split
  · exact keeps_pure _
  · exact keeps_haveCoins _

theorem keeps_sumInputs (nSpendHeight : ℕ) (nValueIn : ℤ) (vin : List CTxIn) :
    Keeps (mapMachine strict) (sumInputs nSpendHeight nValueIn vin) := by
  induction vin generalizing nValueIn with
  | nil => exact keeps_pure _
  | cons txin vin ih =>
    apply (keeps_accessCoin _).bind
    intro coin
    split
    · exact keeps_halt _
    split
    · exact keeps_halt _
    apply (keeps_lift _).bind
    intro sum
    split
    · exact keeps_halt _
    · exact ih sum

theorem keeps_checkTxInputs (nSpendHeight : ℕ) :
    Keeps (mapMachine strict) (checkTxInputs tx nSpendHeight) := by
  apply (keeps_haveInputs tx).bind
  intro a
  split
  · exact keeps_halt _
  apply (keeps_sumInputs _ _ _).bind
  intro n
  apply (keeps_lift _).bind
  intro value_out
  split
  · exact keeps_halt _
  split
  · exact keeps_halt _
  · exact keeps_pure _

theorem keeps_prevHeights : Keeps (mapMachine strict) (prevHeights vin) := by
  induction vin with
  | nil => exact keeps_pure _
  | cons txin vin ih =>
    exact (keeps_accessCoin _).bind fun _ => ih.bind fun _ => keeps_pure _

theorem keeps_accessOutputs : Keeps (mapMachine strict) (accessOutputs vin) := by
  induction vin with
  | nil => exact keeps_pure _
  | cons txin vin ih =>
    apply (keeps_accessCoin _).bind
    intro coin
    split
    · exact keeps_halt _
    · exact ih.bind fun _ => keeps_pure _

namespace ConnectContext
variable (ctx : ConnectContext)

theorem keeps_addFees (nFees : ℤ) (tx : CTransaction) :
    Keeps (mapMachine strict) (ctx.addFees nFees tx) := by
  unfold addFees
  split
  · exact keeps_pure _
  apply (keeps_checkTxInputs _ _).bind
  intro txfee
  apply (keeps_lift _).bind
  intro fees
  split
  · exact keeps_halt _
  apply (keeps_prevHeights _).bind
  intro p
  split
  · exact keeps_halt _
  · exact keeps_pure _

theorem keeps_checkScripts (nSigOpsCost : ℕ) (tx : CTransaction) :
    Keeps (mapMachine strict) (ctx.checkScripts nSigOpsCost tx) := by
  apply Keeps.bind
  · unfold spentOutputs
    split
    · exact keeps_pure _
    · exact keeps_accessOutputs _
  intro spent_outputs
  simp only
  split
  · exact keeps_halt _
  split
  · exact keeps_halt _
  · exact keeps_pure _

theorem keeps_anyHaveCoin (os : List COutPoint) : Keeps (mapMachine strict) (anyHaveCoin os) := by
  induction os with
  | nil => exact keeps_pure _
  | cons o os ih =>
    apply (keeps_haveCoin _).bind
    intro a
    cases a
    · exact ih
    · exact keeps_pure _

theorem keeps_violatesBIP30 (vtx : List CTransaction) :
    Keeps (mapMachine strict) (ctx.violatesBIP30 vtx) := by
  unfold violatesBIP30
  split
  · exact keeps_anyHaveCoin _
  · exact keeps_pure _

end ConnectContext

/-- The coins that the outputs of a transaction from `i` on become. -/
def createdCoins (txid : Uint256) (nHeight : ℕ) (fCoinbase : Bool) :
    ℕ → List CTxOut → List (COutPoint × Coin)
  | _, [] => []
  | i, out :: vout =>
    if CScript.isUnspendable out.scriptPubKey then createdCoins txid nHeight fCoinbase (i + 1) vout
    else (⟨txid, i⟩, ⟨out, fCoinbase, nHeight⟩) ::
      createdCoins txid nHeight fCoinbase (i + 1) vout

def spends (os : List COutPoint) : List (COutPoint × Coin) := os.map fun o => (o, coinEmpty)

variable {o : COutPoint} {c : Coin}

@[simp] theorem map_fst_spends (os : List COutPoint) : (spends os).map Prod.fst = os := by
  simp [spends, Function.comp_def]

theorem UtxoMap.putAll_spends_of_mem {os : List COutPoint} (h : o ∈ os) :
    m.putAll (spends os) o = none := by
  induction os generalizing m with
  | nil => cases h
  | cons o' os ih =>
    by_cases ho : o ∈ os
    · exact ih ho
    · rcases mem_cons.1 h with rfl | h
      · change (m.put o coinEmpty).putAll (spends os) o = none
        rw [putAll_of_notMem (by rwa [map_fst_spends]), put_self, unspent?_coinEmpty]
      · exact absurd h ho

section Created
variable {txid : Uint256} {nHeight i : ℕ} {fCoinbase : Bool} {vout : List CTxOut}
  {w : COutPoint × Coin}

theorem mem_createdCoins (h : w ∈ createdCoins txid nHeight fCoinbase i vout) :
    ∃ out ∈ vout, CScript.isUnspendable out.scriptPubKey = false ∧ w.2 = ⟨out, fCoinbase, nHeight⟩ := by
  induction vout generalizing i with
  | nil => cases h
  | cons out vout ih =>
    rw [createdCoins] at h
    split at h
    · obtain ⟨out', ho', hw⟩ := ih h
      exact ⟨out', mem_cons_of_mem _ ho', hw⟩
    · rename_i hun
      rcases mem_cons.1 h with rfl | h
      · exact ⟨out, mem_cons_self, by simpa using hun, rfl⟩
      · obtain ⟨out', ho', hw⟩ := ih h
        exact ⟨out', mem_cons_of_mem _ ho', hw⟩

theorem outPoint_of_mem_createdCoins (h : w ∈ createdCoins txid nHeight fCoinbase i vout) :
    w.1.hash = txid ∧ i ≤ w.1.n ∧ w.1.n < i + vout.length := by
  induction vout generalizing i with
  | nil => cases h
  | cons out vout ih =>
    rw [createdCoins] at h
    rw [length_cons]
    split at h
    · obtain ⟨hh, hl, hlt⟩ := ih h
      exact ⟨hh, by omega, by omega⟩
    · rcases mem_cons.1 h with rfl | h
      · exact ⟨rfl, le_rfl, by simp⟩
      · obtain ⟨hh, hl, hlt⟩ := ih h
        exact ⟨hh, by omega, by omega⟩

theorem ne_of_mem_createdCoins (h : w ∈ createdCoins txid nHeight fCoinbase (i + 1) vout) :
    w.1 ≠ ⟨txid, i⟩ := by
  intro he
  have hl := (outPoint_of_mem_createdCoins h).2.1
  rw [he] at hl
  exact absurd hl (by simp)

theorem nodup_createdCoins : ((createdCoins txid nHeight fCoinbase i vout).map Prod.fst).Nodup := by
  induction vout generalizing i with
  | nil => exact nodup_nil
  | cons out vout ih =>
    rw [createdCoins]
    split
    · exact ih
    · rw [map_cons, nodup_cons]
      refine ⟨?_, ih⟩
      intro hm
      obtain ⟨w, hw, he⟩ := mem_map.1 hm
      exact ne_of_mem_createdCoins hw he

end Created

theorem spendInputs_ok {vin : List CTxIn} {coins : List Coin}
    (h : (spendInputs vin).run (mapMachine strict) m = .ok (coins, m')) :
    m' = m.putAll (spends (vin.map (·.prevout))) ∧ (vin.map (·.prevout)).Nodup ∧
      vin.map (fun txin => m txin.prevout) = coins.map some := by
  induction vin generalizing m coins with
  | nil =>
    cases h
    exact ⟨rfl, nodup_nil, rfl⟩
  | cons txin vin ih =>
    obtain ⟨c?, m₁, hs, h⟩ := (run_bind_eq_ok _).1 h
    rw [run_spendCoin] at hs
    cases hs
    cases hc : m txin.prevout with
    | none =>
      rw [hc] at h
      cases h
    | some coin =>
      rw [hc] at h
      obtain ⟨coins', m₂, hr, h⟩ := (run_bind_eq_ok _).1 h
      cases h
      obtain ⟨rfl, hn, hco⟩ := ih hr
      -- the spent outpoint holds nothing any more, so the later inputs are other ones
      have hne : ∀ txin' ∈ vin, txin'.prevout ≠ txin.prevout := by
        intro txin' hm he
        have hno : none ∈ coins'.map some := by
          rw [← hco]
          refine mem_map.2 ⟨txin', hm, ?_⟩
          rw [he, UtxoMap.spendCoin, put_self, unspent?_coinEmpty]
        simp at hno
      refine ⟨rfl, ?_, ?_⟩
      · rw [map_cons, nodup_cons]
        refine ⟨?_, hn⟩
        intro hm
        obtain ⟨txin', hm, he⟩ := mem_map.1 hm
        exact hne txin' hm he
      · rw [map_cons, map_cons, hc, ← hco]
        congr 1
        apply map_congr_left
        intro txin' hm
        exact (put_of_ne _ _ (hne txin' hm)).symm

section Outputs
variable {txid : Uint256} {nHeight i : ℕ} {fCoinbase : Bool} {vout : List CTxOut}

theorem addOutputs_ok {u : Unit}
    (h : (addOutputs txid nHeight fCoinbase false i vout).run (mapMachine strict) m = .ok (u, m')) :
    m' = m.putAll (createdCoins txid nHeight fCoinbase i vout) ∧
      (∀ w ∈ createdCoins txid nHeight fCoinbase i vout, w.2.isSpent = false) ∧
      (strict → fCoinbase = false →
        ∀ w ∈ createdCoins txid nHeight fCoinbase i vout, m w.1 = none) := by
  induction vout generalizing m i with
  | nil =>
    cases h
    exact ⟨rfl, by simp [createdCoins], by simp [createdCoins]⟩
  | cons out vout ih =>
    obtain ⟨_, m₁, hf, h⟩ := (run_bind_eq_ok _).1 h
    cases hf
    obtain ⟨_, m₁, ha, h⟩ := (run_bind_eq_ok _).1 h
    rw [run_addCoin] at ha
    obtain ⟨hsp, rfl, hnw⟩ := tryAddCoin_eq_ok.1 ha
    obtain ⟨rfl, hu, hn⟩ := ih h
    rw [createdCoins]
    by_cases hun : CScript.isUnspendable out.scriptPubKey = true
    · have hm : m.addCoin ⟨txid, i⟩ ⟨out, fCoinbase, nHeight⟩ = m := if_pos hun
      rw [if_pos hun, hm]
      rw [hm] at hn
      exact ⟨rfl, hu, hn⟩
    · have hm : m.addCoin ⟨txid, i⟩ ⟨out, fCoinbase, nHeight⟩ =
          m.put ⟨txid, i⟩ ⟨out, fCoinbase, nHeight⟩ := if_neg hun
      rw [if_neg hun, hm]
      rw [hm] at hn
      refine ⟨rfl, ?_, ?_⟩
      · rw [forall_mem_cons]
        exact ⟨hsp, hu⟩
      · intro hs hc
        rw [forall_mem_cons]
        refine ⟨hnw (by simpa using hun) hs hc, ?_⟩
        intro w hw
        have hw' := hn hs hc w hw
        rwa [put_of_ne _ _ (ne_of_mem_createdCoins hw)] at hw'

/-- Asked about every outpoint, `AddCoins` never throws. -/
theorem addOutputs_check (hv : ∀ out ∈ vout, out.isNull = false) :
    (addOutputs txid nHeight fCoinbase true i vout).run (mapMachine strict) m =
      .ok ((), m.putAll (createdCoins txid nHeight fCoinbase i vout)) := by
  induction vout generalizing m i with
  | nil => rfl
  | cons out vout ih =>
    rw [forall_mem_cons] at hv
    have ha : m.tryAddCoin strict ⟨txid, i⟩ ⟨out, fCoinbase, nHeight⟩ (m ⟨txid, i⟩).isSome =
        .ok ((), m.addCoin ⟨txid, i⟩ ⟨out, fCoinbase, nHeight⟩) := by
      refine tryAddCoin_eq_ok.2 ⟨hv.1, rfl, ?_⟩
      intro _ _ h
      simpa using h
    have hf : (overwriteFlag fCoinbase true ⟨txid, i⟩).run (mapMachine strict) m =
        .ok ((m ⟨txid, i⟩).isSome, m) := rfl
    rw [addOutputs, run_bind_of_ok _ hf,
      run_bind_of_ok _ (run_addCoin.trans ha), ih hv.2, createdCoins, UtxoMap.addCoin]
    by_cases hu : CScript.isUnspendable out.scriptPubKey = true
    · rw [if_pos hu, if_pos hu]
    · rw [if_neg hu, if_neg hu]
      rfl

theorem spendOutputs_run (strict : Bool) (txid : Uint256) (nHeight : ℕ) (fCoinbase : Bool)
    (m : UtxoMap) (i : ℕ) (vout : List CTxOut) :
    ∃ fClean, (spendOutputs txid nHeight fCoinbase i vout).run (mapMachine strict) m =
        .ok (fClean, m.putAll
          (spends ((createdCoins txid nHeight fCoinbase i vout).map Prod.fst))) ∧
      ((∀ w ∈ createdCoins txid nHeight fCoinbase i vout, m w.1 = some w.2) → fClean) := by
  induction vout generalizing m i with
  | nil => exact ⟨true, rfl, fun _ => rfl⟩
  | cons out vout ih =>
    rw [spendOutputs, spendOutput, createdCoins]
    by_cases hu : CScript.isUnspendable out.scriptPubKey = true
    · obtain ⟨rest, hr, hc⟩ := ih m (i + 1)
      refine ⟨rest, ?_, ?_⟩
      · rw [if_pos hu, if_pos hu, run_bind_of_ok _ (run_pure ..), run_bind_of_ok _ hr]
        rfl
      · rwa [if_pos hu]
    · obtain ⟨rest, hr, hc⟩ := ih (m.spendCoin ⟨txid, i⟩) (i + 1)
      rw [if_neg hu, if_neg hu, forall_mem_cons]
      have hs : (spendCoin ⟨txid, i⟩ >>= fun coin =>
            pure (decide (coin = some ⟨out, fCoinbase, nHeight⟩))).run (mapMachine strict) m =
          .ok (decide (m ⟨txid, i⟩ = some ⟨out, fCoinbase, nHeight⟩), m.spendCoin ⟨txid, i⟩) := rfl
      refine ⟨decide (m ⟨txid, i⟩ = some ⟨out, fCoinbase, nHeight⟩) && rest, ?_, ?_⟩
      · rw [run_bind_of_ok _ hs, run_bind_of_ok _ hr]
        rfl
      · rintro ⟨ho, hot⟩
        rw [hc, ho]
        · simp
        · intro w hw
          rw [UtxoMap.spendCoin, put_of_ne _ _ (ne_of_mem_createdCoins hw)]
          exact hot w hw

end Outputs

/-- A coin that `ApplyTxInUndo` restores as it is: it has its metadata, and `AddCoin` keeps it. -/
structure Coin.Restorable (c : Coin) : Prop where
  nHeight : c.nHeight ≠ 0
  spendable : CScript.isUnspendable c.out.scriptPubKey = false

def UtxoMap.Restorable (m : UtxoMap) : Prop := ∀ o c, m o = some c → c.Restorable

theorem UtxoMap.restorable_empty : empty.Restorable := by
  intro o c h
  cases h

theorem UtxoMap.Restorable.put (hm : m.Restorable) (hc : c.Restorable) : (m.put o c).Restorable := by
  intro o' c' h
  rw [put_apply] at h
  split at h
  · unfold Coin.unspent? at h
    split at h
    · cases h
    · cases h
      exact hc
  · exact hm o' c' h

theorem applyTxInUndo_run {c : Coin} (hc : c.Restorable) (hs : c.isSpent = false) (m : UtxoMap)
    (o : COutPoint) :
    (applyTxInUndo c o).run (mapMachine strict) m = .ok (.ofClean !(m o).isSome, m.put o c) := by
  have hco : (completeUndo c o).run (mapMachine strict) m = .ok (some c, m) := by
    rw [completeUndo, if_neg hc.nHeight]
    rfl
  have ha : m.tryAddCoin strict o c (m o).isSome = .ok ((), m.put o c) := by
    refine tryAddCoin_eq_ok.2 ⟨hs, ?_, ?_⟩
    · rw [UtxoMap.addCoin, hc.spendable]
      rfl
    · intro _ _ h
      simpa using h
  rw [applyTxInUndo, run_bind_of_ok _ run_haveCoin, run_bind_of_ok _ hco]
  change (addCoin o c (m o).isSome >>= fun _ => pure _).run (mapMachine strict) m = _
  rw [run_bind_of_ok _ (run_addCoin.trans ha)]
  rfl

namespace DisconnectResult

theorem exists_ofClean : ∀ {r : DisconnectResult}, r ≠ failed → ∃ fClean, r = ofClean fClean
  | ok, _ => ⟨true, rfl⟩
  | unclean, _ => ⟨false, rfl⟩
  | failed, h => absurd rfl h

theorem ofClean_injective : Function.Injective ofClean := by
  intro a b h
  cases a <;> cases b <;> first | rfl | cases h

@[simp] theorem ofClean_and (a b : Bool) : (ofClean a).and (ofClean b) = ofClean (a && b) := by
  cases a <;> cases b <;> rfl

end DisconnectResult

def restores (inputs : List (CTxIn × Coin)) : List (COutPoint × Coin) :=
  inputs.map fun w => (w.1.prevout, w.2)

theorem restoreInputs_run (strict : Bool) {inputs : List (CTxIn × Coin)}
    (hi : ∀ w ∈ inputs, w.2.Restorable ∧ w.2.isSpent = false) (m : UtxoMap) :
    ∃ fClean, (restoreInputs inputs).run (mapMachine strict) m =
        .ok (.ofClean fClean, m.putAll (restores inputs)) ∧
      (((restores inputs).map Prod.fst).Nodup → (∀ w ∈ restores inputs, m w.1 = none) → fClean) := by
  induction inputs generalizing m with
  | nil => exact ⟨true, rfl, fun _ _ => rfl⟩
  | cons w inputs ih =>
    rw [forall_mem_cons] at hi
    obtain ⟨rest, hr, hc⟩ := ih hi.2 (m.put w.1.prevout w.2)
    refine ⟨!(m w.1.prevout).isSome && rest, ?_, ?_⟩
    · rw [restoreInputs, run_bind_of_ok _ (applyTxInUndo_run hi.1.1 hi.1.2 ..)]
      cases (m w.1.prevout).isSome <;>
        exact (run_bind_of_ok _ hr).trans (by rw [run_pure]; simp [restores])
    · intro hn hno
      rw [restores, map_cons, map_cons, nodup_cons] at hn
      rw [restores, map_cons, forall_mem_cons] at hno
      rw [hno.1, hc hn.2]
      · rfl
      · intro x hx
        have hne : x.1 ≠ w.1.prevout := fun he => hn.1 (mem_map.2 ⟨x, hx, he⟩)
        rw [put_of_ne _ _ hne]
        exact hno.2 x hx

namespace CTransaction
variable (tx : CTransaction)

def spent : List COutPoint :=
  if tx.isCoinBase then [] else tx.vin.map (·.prevout)

def created (nHeight : ℕ) : List (COutPoint × Coin) :=
  createdCoins tx.hash nHeight tx.isCoinBase 0 tx.vout

theorem nodup_created (nHeight : ℕ) : ((tx.created nHeight).map Prod.fst).Nodup :=
  nodup_createdCoins

end CTransaction

/-- What a successful `UpdateCoins` read and wrote. -/
structure Updated (strict : Bool) (tx : CTransaction) (nHeight : ℕ) (m : UtxoMap)
    (txundo : CTxUndo) (m' : UtxoMap) : Prop where
  result : m' = (m.putAll (spends tx.spent)).putAll (tx.created nHeight)
  nodup : tx.spent.Nodup
  coins : tx.spent.map m = txundo.vprevout.map some
  unspent : ∀ w ∈ tx.created nHeight, w.2.isSpent = false
  fresh : strict = true → tx.isCoinBase = false →
    ∀ w ∈ tx.created nHeight, m.putAll (spends tx.spent) w.1 = none

theorem updateCoins_ok {tx : CTransaction} {nHeight : ℕ} {txundo : CTxUndo}
    (h : (updateCoins tx nHeight).run (mapMachine strict) m = .ok (txundo, m')) :
    Updated strict tx nHeight m txundo m' := by
  obtain ⟨undo, m₁, hs, h⟩ := (run_bind_eq_ok _).1 h
  obtain ⟨_, m₂, ha, h⟩ := (run_bind_eq_ok _).1 h
  cases h
  obtain ⟨hm', hu, hf⟩ := addOutputs_ok ha
  have hsp : m₁ = m.putAll (spends tx.spent) ∧ tx.spent.Nodup ∧
      tx.spent.map m = txundo.vprevout.map some := by
    unfold spendTx at hs
    unfold CTransaction.spent
    by_cases hcb : tx.isCoinBase = true
    · rw [if_pos hcb] at hs ⊢
      cases hs
      exact ⟨rfl, nodup_nil, rfl⟩
    · rw [if_neg hcb] at hs ⊢
      obtain ⟨coins, m₂, hs, h⟩ := (run_bind_eq_ok _).1 hs
      cases h
      obtain ⟨hm₁, hn, hc⟩ := spendInputs_ok hs
      exact ⟨hm₁, hn, by rw [map_map]; exact hc⟩
  obtain ⟨rfl, hn, hc⟩ := hsp
  exact ⟨hm', hn, hc, hu, hf⟩

namespace UtxoMap
variable {ws : List (COutPoint × Coin)}

theorem putAll_spends_cancel (hn : ∀ w ∈ ws, m w.1 = none) :
    (m.putAll ws).putAll (spends (ws.map Prod.fst)) = m := by
  ext1
  funext o
  by_cases ho : o ∈ ws.map Prod.fst
  · obtain ⟨w, hw, rfl⟩ := mem_map.1 ho
    rw [hn w hw]
    exact putAll_spends_of_mem (mem_map_of_mem hw)
  · rw [putAll_of_notMem (by rwa [map_fst_spends]), putAll_of_notMem ho]

theorem spends_putAll_cancel {os : List COutPoint} (hk : ∀ o, o ∈ ws.map Prod.fst ↔ o ∈ os)
    (hn : (ws.map Prod.fst).Nodup) (hws : ∀ w ∈ ws, m w.1 = some w.2) :
    (m.putAll (spends os)).putAll ws = m := by
  ext1
  funext o
  by_cases ho : o ∈ ws.map Prod.fst
  · obtain ⟨w, hw, rfl⟩ := mem_map.1 ho
    rw [putAll_of_mem hn hw, hws w hw, unspent?_apply (hws w hw)]
  · rw [putAll_of_notMem ho, putAll_of_notMem]
    rwa [map_fst_spends, ← hk o]

end UtxoMap

def undoInputs (txundo : Option CTxUndo) : List (CTxIn × Coin) :=
  txundo.elim [] fun txundo => (tx.vin.zip txundo.vprevout).reverse

/-- The writes of one turn of `DisconnectBlock`. -/
def undoWrites (nHeight : ℕ) (tx : CTransaction) (txundo : Option CTxUndo) :
    List (COutPoint × Coin) :=
  spends ((tx.created nHeight).map Prod.fst) ++ restores (undoInputs tx txundo)

/-- Undo data that fit the transaction and that can be restored. -/
def UndoFits : Option CTxUndo → Prop
  | none => True
  | some txundo => txundo.vprevout.length = tx.vin.length ∧
      ∀ c ∈ txundo.vprevout, c.Restorable ∧ c.isSpent = false

theorem disconnectTx_run (strict : Bool) (nHeight : ℕ) (tx : CTransaction)
    (txundo : Option CTxUndo) (hf : UndoFits tx txundo) (m : UtxoMap) :
    ∃ fClean, (disconnectTx nHeight tx txundo).run (mapMachine strict) m =
        .ok (.ofClean fClean, m.putAll (undoWrites nHeight tx txundo)) ∧
      ((∀ w ∈ tx.created nHeight, m w.1 = some w.2) →
        ((restores (undoInputs tx txundo)).map Prod.fst).Nodup →
        (∀ w ∈ restores (undoInputs tx txundo),
          m.putAll (spends ((tx.created nHeight).map Prod.fst)) w.1 = none) → fClean) := by
  obtain ⟨fClean, hr, hc⟩ :=
    spendOutputs_run strict tx.hash nHeight tx.isCoinBase m 0 tx.vout
  rw [disconnectTx, run_bind_of_ok _ hr, undoWrites, putAll_append]
  cases txundo with
  | none => exact ⟨fClean, rfl, fun h _ _ => hc h⟩
  | some txundo =>
    have hi : ∀ w ∈ undoInputs tx (some txundo), w.2.Restorable ∧ w.2.isSpent = false := by
      intro w hw
      exact hf.2 w.2 (of_mem_zip (mem_reverse.1 hw)).2
    obtain ⟨rest, hre, hc'⟩ := restoreInputs_run strict hi
      (m.putAll (spends ((tx.created nHeight).map Prod.fst)))
    refine ⟨fClean && rest, ?_, ?_⟩
    · simp only [ne_eq, hf.1, not_true_eq_false, if_false]
      exact (run_bind_of_ok _ hre).trans (by rw [run_pure, DisconnectResult.ofClean_and])
    · intro hcr hn hno
      rw [hc hcr, hc' hn hno]
      rfl

theorem checkBlock_ok {checks : ScriptChecks} {params : Params} {block : CBlock}
    (h : checkBlock checks params block = .ok ()) :
    ∃ coinbase vtx, block.vtx = coinbase :: vtx ∧ coinbase.isCoinBase ∧
      (∀ tx ∈ vtx, tx.isCoinBase = false) ∧ checkTransactions checks block.vtx = .ok () := by
  unfold checkBlock at h
  split at h
  · cases h
  split at h
  · cases h
  split at h
  · cases h
  split at h
  · cases h
  split at h
  · cases h
  rename_i hhead
  split at h
  · cases h
  rename_i htail
  cases hv : block.vtx with
  | nil => simp [hv] at hhead
  | cons coinbase vtx =>
    rw [hv] at hhead htail h
    refine ⟨coinbase, vtx, rfl, by simpa using hhead, by simpa using htail, ?_⟩
    cases hc : checkTransactions checks (coinbase :: vtx) with
    | ok u => rfl
    | error e => rw [hc] at h; cases h

namespace ConnectContext
variable {ctx : ConnectContext} {vtx : List CTransaction} {block : CBlock} {view view' : CCoinsView}
  {vtxundo : List CTxUndo}

theorem connectTxs_cons_ok {tx : CTransaction} {nFees : ℤ} {nSigOpsCost : ℕ} {r : ℤ × List CTxUndo}
    (h : (ctx.connectTxs nFees nSigOpsCost (tx :: vtx)).run (mapMachine strict) m = .ok (r, m')) :
    ∃ fees cost txundo m₁ r', (ctx.addFees nFees tx).run (mapMachine strict) m = .ok (fees, m) ∧
      Updated strict tx ctx.nHeight m txundo m₁ ∧
      (ctx.connectTxs fees cost vtx).run (mapMachine strict) m₁ = .ok (r', m') ∧
      r = (r'.1, txundo :: r'.2) := by
  obtain ⟨fees, hf, h⟩ := (ctx.keeps_addFees nFees tx).run_bind_eq_ok.1 h
  obtain ⟨cost, hc, h⟩ := (ctx.keeps_checkScripts nSigOpsCost tx).run_bind_eq_ok.1 h
  obtain ⟨txundo, m₁, hu, h⟩ := (run_bind_eq_ok _).1 h
  obtain ⟨r', m₂, hr, h⟩ := (run_bind_eq_ok _).1 h
  cases h
  exact ⟨fees, cost, txundo, m₁, r', hf, updateCoins_ok hu, hr, rfl⟩

theorem connectBlock_ok (hg : block.hash ≠ ctx.params.hashGenesisBlock)
    (h : ctx.connectBlock strict block view = .ok (vtxundo, view')) :
    checkBlock ctx.checks ctx.params block = .ok () ∧ ctx.hashPrevBlock = view.hashBlock ∧
      ctx.nHeight ≠ 0 ∧ view'.hashBlock = ctx.hash ∧
      (ctx.connectCoins block.vtx).run (mapMachine strict) view.coins = .ok (vtxundo, view'.coins) := by
  unfold connectBlock at h
  split at h
  · cases h
  obtain ⟨_, hc, h⟩ := Except.bind_eq_ok.1 h
  split at h
  · cases h
  rename_i hprev
  split at h
  · cases h
  rename_i hpprev
  obtain ⟨r, hr, h⟩ := Except.bind_eq_ok.1 h
  cases h
  refine ⟨hc, not_not.1 hprev, ?_, rfl, hr⟩
  unfold nHeight
  cases hp : ctx.pprev with
  | none => simp [hp] at hpprev
  | some p => simp

theorem connectBlock_genesis (hg : block.hash = ctx.params.hashGenesisBlock)
    (h : ctx.connectBlock strict block view = .ok (vtxundo, view')) : view'.coins = view.coins := by
  unfold connectBlock at h
  split at h
  · cases h
  obtain ⟨_, -, h⟩ := Except.bind_eq_ok.1 h
  split at h
  · cases h
  cases h
  rfl

theorem connectCoins_ok (h : (ctx.connectCoins vtx).run (mapMachine strict) m = .ok (vtxundo, m')) :
    ∃ r, (ctx.violatesBIP30 vtx).run (mapMachine strict) m = .ok (false, m) ∧
      (ctx.connectTxs 0 0 vtx).run (mapMachine strict) m = .ok (r, m') ∧
      ctx.checkReward r.1 vtx = .ok () ∧ vtxundo = r.2.tail := by
  obtain ⟨o, hbip30, h⟩ := (ctx.keeps_violatesBIP30 _).run_bind_eq_ok.1 h
  cases o with
  | true => cases h
  | false =>
    obtain ⟨r, m₁, ht, h⟩ := (run_bind_eq_ok _).1 h
    obtain ⟨_, hr, h⟩ := (keeps_lift _).run_bind_eq_ok.1 h
    cases h
    exact ⟨r, hbip30, ht, ((run_lift_eq_ok _).1 hr).1, rfl⟩

end ConnectContext

end Palladium
