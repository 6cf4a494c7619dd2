import Palladium.Validation.CoinEffects

/-! # Disconnecting a block undoes connecting it

The undo data of a transaction are the coins its inputs held, and the outputs it adds were not
there.
-/

namespace Palladium
open CoinsM DisconnectResult List Program UtxoMap
variable {strict : Bool} {m m' : UtxoMap} {tx : CTransaction} {nHeight : ℕ} {txundo : CTxUndo}

theorem eq_some_of_mem_zip {α β : Type*} {f : α → Option β} {l : List α} {l' : List β}
    (h : l.map f = l'.map some) {a : α} {b : β} (ha : (a, b) ∈ l.zip l') : f a = some b := by
  induction l generalizing l' with
  | nil => cases ha
  | cons x l ih =>
    cases l' with
    | nil => cases ha
    | cons y l' =>
      rw [map_cons, map_cons, List.cons.injEq] at h
      rcases mem_cons.1 ha with he | ha
      · cases he
        exact h.1
      · exact ih h.2 ha

namespace Updated
variable {w : COutPoint × Coin}

theorem created_mem (h : Updated strict tx nHeight m txundo m') (hw : w ∈ tx.created nHeight) :
    m' w.1 = some w.2 := by
  rw [h.result, putAll_of_mem (tx.nodup_created nHeight) hw,
    Coin.unspent?_of_unspent (h.unspent w hw)]

theorem spent_eq (hcb : tx.isCoinBase = false) : tx.spent = tx.vin.map (·.prevout) := by
  rw [CTransaction.spent, hcb]
  rfl

variable (h : Updated strict tx nHeight m txundo m') (hcb : tx.isCoinBase = false)

include h hcb

theorem length_vprevout : txundo.vprevout.length = tx.vin.length := by
  have hl := congrArg List.length h.coins
  simpa [spent_eq hcb] using hl.symm

theorem undoFits (hm : m.Restorable) : UndoFits tx (some txundo) := by
  refine ⟨h.length_vprevout hcb, ?_⟩
  intro c hc
  have hme : some c ∈ tx.spent.map m := by
    rw [h.coins]
    exact mem_map_of_mem hc
  obtain ⟨o, -, ho⟩ := mem_map.1 hme
  exact ⟨hm o c ho, m.unspent ho⟩

theorem map_fst_restores :
    (restores (undoInputs tx (some txundo))).map Prod.fst = tx.spent.reverse := by
  have hz : (tx.vin.zip txundo.vprevout).map Prod.fst = tx.vin :=
    map_fst_zip (h.length_vprevout hcb).ge
  rw [restores, undoInputs, Option.elim_some, map_map, map_reverse, spent_eq hcb]
  conv_rhs => rw [← hz, map_map]
  rfl

theorem mem_restores (hw : w ∈ restores (undoInputs tx (some txundo))) : m w.1 = some w.2 := by
  obtain ⟨⟨txin, c⟩, hm, rfl⟩ := mem_map.1 hw
  have hc := h.coins
  rw [spent_eq hcb, map_map] at hc
  exact eq_some_of_mem_zip hc (mem_reverse.1 hm)

omit h hcb

theorem disconnectTx (h : Updated true tx nHeight m txundo m') (hcb : tx.isCoinBase = false)
    (hm : m.Restorable) :
    (disconnectTx nHeight tx (some txundo)).run (mapMachine true) m' = .ok (.ok, m) := by
  have hc : m'.putAll (spends ((tx.created nHeight).map Prod.fst)) =
      m.putAll (spends tx.spent) := by
    rw [h.result]
    exact putAll_spends_cancel (h.fresh rfl hcb)
  have hk := h.map_fst_restores hcb
  have hn : ((restores (undoInputs tx (some txundo))).map Prod.fst).Nodup := by
    rw [hk]
    exact nodup_reverse.2 h.nodup
  obtain ⟨fClean, hr, hcl⟩ := disconnectTx_run true nHeight tx _ (h.undoFits hcb hm) m'
  rw [hr, undoWrites, putAll_append, hc,
    spends_putAll_cancel (fun o => by rw [hk, mem_reverse]) hn
      fun w hw => h.mem_restores hcb hw, hcl (fun w hw => h.created_mem hw) hn]
  · rfl
  · intro w hw
    rw [hc]
    apply putAll_spends_of_mem
    rw [← mem_reverse, ← hk]
    exact mem_map_of_mem hw

theorem disconnectCoinBase (h : Updated true tx nHeight m txundo m') (hcb : tx.isCoinBase)
    (hf : ∀ w ∈ tx.created nHeight, m w.1 = none) :
    (CoinsM.disconnectTx nHeight tx none).run (mapMachine true) m' = .ok (.ok, m) := by
  have hs : tx.spent = [] := by
    rw [CTransaction.spent, hcb]
    rfl
  have hc : m'.putAll (spends ((tx.created nHeight).map Prod.fst)) = m := by
    rw [h.result, hs]
    exact putAll_spends_cancel hf
  obtain ⟨fClean, hr, hcl⟩ := disconnectTx_run true nHeight tx none trivial m'
  rw [hr, undoWrites, putAll_append, hc,
    hcl (fun w hw => h.created_mem hw) nodup_nil fun w hw => by cases hw]
  rfl

end Updated

theorem Updated.restorable (h : Updated strict tx nHeight m txundo m') (hm : m.Restorable)
    (hh : nHeight ≠ 0) : m'.Restorable := by
  intro o c hc
  rw [h.result] at hc
  rcases putAll_mem_or_eq (tx.created nHeight) o with ⟨c', hme, he⟩ | he
  · rw [he] at hc
    obtain ⟨out, -, hs, rfl⟩ := mem_createdCoins hme
    rw [Coin.unspent?_of_unspent (h.unspent _ hme)] at hc
    cases hc
    exact ⟨hh, hs⟩
  · rw [he] at hc
    by_cases hsp : o ∈ tx.spent
    · rw [putAll_spends_of_mem hsp] at hc
      cases hc
    · rw [putAll_of_notMem (by rwa [map_fst_spends])] at hc
      exact hm o c hc

variable {a b : Bool} {l : List (CTransaction × Option CTxUndo)} {m₁ m₂ : UtxoMap}
  {w : CTransaction × Option CTxUndo}

theorem disconnectTxs_cons
    (h : (disconnectTx nHeight w.1 w.2).run (mapMachine strict) m = .ok (.ofClean a, m₁))
    (h' : (disconnectTxs nHeight l).run (mapMachine strict) m₁ = .ok (.ofClean b, m₂)) :
    (disconnectTxs nHeight (w :: l)).run (mapMachine strict) m = .ok (.ofClean (a && b), m₂) := by
  rw [disconnectTxs, run_bind_of_ok _ h]
  cases a <;>
    exact (run_bind_of_ok _ h').trans (by rw [run_pure, ← ofClean_and])

theorem disconnectTxs_cons_ok {c : Bool}
    (h : (disconnectTxs nHeight (w :: l)).run (mapMachine strict) m = .ok (.ofClean c, m₂)) :
    ∃ a b m₁, (disconnectTx nHeight w.1 w.2).run (mapMachine strict) m = .ok (.ofClean a, m₁) ∧
      (disconnectTxs nHeight l).run (mapMachine strict) m₁ = .ok (.ofClean b, m₂) ∧
      c = (a && b) := by
  obtain ⟨res, m₁, hw, h⟩ := (run_bind_eq_ok _).1 h
  have hr : res ≠ .failed := by
    rintro rfl
    cases c <;> cases h
  obtain ⟨a, rfl⟩ := exists_ofClean hr
  have h : (disconnectTxs nHeight l >>= fun res' =>
      pure ((DisconnectResult.ofClean a).and res')).run (mapMachine strict) m₁ =
        .ok (.ofClean c, m₂) := by
    cases a <;> exact h
  obtain ⟨res', m₃, hl, h⟩ := (run_bind_eq_ok _).1 h
  rw [run_pure, Except.ok.injEq, Prod.mk.injEq] at h
  obtain ⟨hc, rfl⟩ := h
  have hr' : res' ≠ .failed := by
    rintro rfl
    cases a <;> cases c <;> cases hc
  obtain ⟨b, rfl⟩ := exists_ofClean hr'
  refine ⟨a, b, m₁, hw, hl, ?_⟩
  rw [ofClean_and] at hc
  exact (ofClean_injective hc).symm

theorem disconnectTxs_append {l' : List (CTransaction × Option CTxUndo)}
    (h : (disconnectTxs nHeight l).run (mapMachine strict) m = .ok (.ofClean a, m₁))
    (h' : (disconnectTxs nHeight l').run (mapMachine strict) m₁ = .ok (.ofClean b, m₂)) :
    (disconnectTxs nHeight (l ++ l')).run (mapMachine strict) m = .ok (.ofClean (a && b), m₂) := by
  induction l generalizing m a with
  | nil =>
    cases a
    · cases h
    · cases h
      exact h'
  | cons w l ih =>
    obtain ⟨x, y, m₀, hw, hl, rfl⟩ := disconnectTxs_cons_ok h
    rw [Bool.and_assoc]
    exact disconnectTxs_cons hw (ih hl)

theorem ConnectContext.disconnectTxs_connectTxs {ctx : ConnectContext} (hh : ctx.nHeight ≠ 0)
    {vtx : List CTransaction} (hv : ∀ tx ∈ vtx, tx.isCoinBase = false) {nFees : ℤ}
    {nSigOpsCost : ℕ} {r : ℤ × List CTxUndo} (hm : m.Restorable)
    (h : (ctx.connectTxs nFees nSigOpsCost vtx).run (mapMachine true) m = .ok (r, m')) :
    r.2.length = vtx.length ∧
      (disconnectTxs ctx.nHeight (vtx.zip (r.2.map some)).reverse).run (mapMachine true) m' =
        .ok (.ok, m) := by
  induction vtx generalizing m nFees nSigOpsCost r with
  | nil =>
    cases h
    exact ⟨rfl, rfl⟩
  | cons tx vtx ih =>
    rw [forall_mem_cons] at hv
    obtain ⟨fees, cost, t, m₁, r', -, hu, hr, rfl⟩ := connectTxs_cons_ok h
    obtain ⟨hl, hun⟩ := ih hv.2 (hu.restorable hm hh) hr
    refine ⟨by simp [hl], ?_⟩
    have ht := hu.disconnectTx hv.1 hm
    rw [map_cons, zip_cons_cons, reverse_cons]
    exact disconnectTxs_append (a := true) (b := true) hun
      (disconnectTxs_cons (a := true) (b := true) ht rfl)

namespace ConnectContext
variable {ctx : ConnectContext} {vtx : List CTransaction}

theorem mem_createdOutPoints (ht : tx ∈ vtx) {w : COutPoint × Coin} (hw : w ∈ tx.created nHeight) :
    w.1 ∈ createdOutPoints vtx := by
  obtain ⟨hh, -, hn⟩ := outPoint_of_mem_createdCoins hw
  refine mem_flatMap.2 ⟨tx, ht, mem_map.2 ⟨w.1.n, mem_range.2 (by omega), ?_⟩⟩
  rw [← hh]

theorem connectTxs_restorable (hh : ctx.nHeight ≠ 0) {nFees : ℤ} {nSigOpsCost : ℕ}
    {r : ℤ × List CTxUndo} (hm : m.Restorable)
    (h : (ctx.connectTxs nFees nSigOpsCost vtx).run (mapMachine strict) m = .ok (r, m')) :
    m'.Restorable := by
  induction vtx generalizing m nFees nSigOpsCost r with
  | nil =>
    cases h
    exact hm
  | cons tx vtx ih =>
    obtain ⟨fees, cost, t, m₁, r', -, hu, hr, -⟩ := connectTxs_cons_ok h
    exact ih (hu.restorable hm hh) hr

theorem disconnectCoins_connectCoins {block : CBlock} {vtxundo : List CTxUndo}
    (hm : m.Restorable) (hh : ctx.nHeight ≠ 0)
    (hch : checkBlock ctx.checks ctx.params block = .ok ())
    (hn : ∀ o ∈ createdOutPoints block.vtx, m o = none)
    (h : (ctx.connectCoins block.vtx).run (mapMachine true) m = .ok (vtxundo, m')) :
    (disconnectCoins ctx.nHeight block.vtx vtxundo).run (mapMachine true) m' = .ok (.ok, m) := by
  obtain ⟨coinbase, vtx, hv, hcb, ho, -⟩ := checkBlock_ok hch
  rw [hv] at h hn ⊢
  obtain ⟨r, -, ht, -, rfl⟩ := connectCoins_ok h
  obtain ⟨fees, cost, t, m₁, r', -, hu, hr, rfl⟩ := connectTxs_cons_ok ht
  obtain ⟨hl, hun⟩ :=
    disconnectTxs_connectTxs hh ho (hu.restorable hm hh) hr
  have hc := hu.disconnectCoinBase hcb fun w hw =>
    hn w.1 (mem_createdOutPoints mem_cons_self hw)
  rw [disconnectCoins, tail_cons, if_neg (by simp [hl]), zip_cons_cons, reverse_cons]
  exact disconnectTxs_append (a := true) (b := true) hun
    (disconnectTxs_cons (a := true) (b := true) hc rfl)

def spendingContext : ConnectContext where
  params := Network.regtest.consensus
  hash := 2
  pprev := some (1, 5)
  hashAtBIP34Height := none
  fScriptChecks := true
  checks := default

def spendingBlock : CBlock where
  hash := 2
  hashMerkleRoot := 0
  nBits := 0x207fffff
  vtx :=
    [{ vin := [⟨⟨0, COutPoint.nullIndex⟩, [1, 6], 0, []⟩], vout := [⟨0, []⟩], nVersion := 1,
       nLockTime := 0, hash := 100 },
     { vin := [⟨⟨7, 0⟩, [], 0, []⟩], vout := [⟨40, []⟩, ⟨0, [0x6a]⟩], nVersion := 1,
       nLockTime := 0, hash := 101 }]

def spentView (nHeight : ℕ) : CCoinsView where
  coins := (UtxoMap.empty.put ⟨7, 0⟩ ⟨⟨50, []⟩, false, nHeight⟩).put ⟨7, 1⟩ ⟨⟨9, []⟩, false, 3⟩
  hashBlock := 1

/-- Disconnecting a block gives back the coins and the best block that it was connected to,
provided that every coin can be restored. -/
theorem disconnectBlock_connectBlock {block : CBlock} {view view' : CCoinsView}
    {vtxundo : List CTxUndo} (hcoins : view.coins.Restorable)
    (hgenesis : block.hash ≠ ctx.params.hashGenesisBlock)
    (hnew : ∀ o ∈ createdOutPoints block.vtx, view.coins o = none)
    (h : ctx.connectBlock true block view = .ok (vtxundo, view')) :
    ctx.disconnectBlock true block vtxundo view' = .ok (.ok, view) := by
  obtain ⟨hc, hp, hh, -, hr⟩ := connectBlock_ok hgenesis h
  have hu := disconnectCoins_connectCoins hcoins hh hc hnew hr
  change (disconnectCoins ctx.nHeight block.vtx vtxundo).run (mapMachine true) view'.coins >>= _ = _
  rw [hu, hp]
  rfl

theorem disconnectBlock_connectBlock_spending :
    ∃ r, spendingContext.connectBlock true spendingBlock (spentView 4) = .ok r ∧
      spendingContext.disconnectBlock true spendingBlock r.1 r.2 = .ok (.ok, spentView 4) := by
  have ho : (spendingContext.connectBlock true spendingBlock (spentView 4)).isOk = true := by
    decide +kernel
  obtain ⟨r, hr⟩ := Except.exists_ok_of_isOk ho
  have hc : (spentView 4).coins.Restorable :=
    (restorable_empty.put ⟨by decide, rfl⟩).put ⟨by decide, rfl⟩
  have hn : ∀ o ∈ createdOutPoints spendingBlock.vtx, (spentView 4).coins o = none := by
    decide +kernel
  exact ⟨r, hr, disconnectBlock_connectBlock hc (by decide +kernel) hn hr⟩

/-- A coin recorded at height 0 comes back with the height of another output. -/
theorem disconnectBlock_changes_coin :
    ∃ r d, spendingContext.connectBlock true spendingBlock (spentView 0) = .ok r ∧
      spendingBlock.hash ≠ spendingContext.params.hashGenesisBlock ∧
      (∀ o ∈ createdOutPoints spendingBlock.vtx, (spentView 0).coins o = none) ∧
      spendingContext.disconnectBlock true spendingBlock r.1 r.2 = .ok d ∧
      d.2.coins ⟨7, 0⟩ = some ⟨⟨50, []⟩, false, 3⟩ ∧
      (spentView 0).coins ⟨7, 0⟩ = some ⟨⟨50, []⟩, false, 0⟩ := by
  have hru : (spendingContext.connectBlock true spendingBlock (spentView 0) >>= fun r =>
      spendingContext.disconnectBlock true spendingBlock r.1 r.2 >>= fun d =>
        .ok (d.2.coins ⟨7, 0⟩)).toOption = some (some ⟨⟨50, []⟩, false, 3⟩) := by
    decide +kernel
  obtain ⟨r, hr, hru⟩ := Except.bind_eq_ok.1 (Except.eq_ok_of_toOption hru)
  obtain ⟨d, hd, hru⟩ := Except.bind_eq_ok.1 hru
  exact ⟨r, d, hr, by decide +kernel, by decide +kernel, hd, Except.ok.inj hru, by decide +kernel⟩

structure TipBlock where
  ctx : ConnectContext
  block : CBlock
  vtxundo : List CTxUndo

/-- `DisconnectTip` on the coins. -/
def disconnectTip (view : CCoinsView) (t : TipBlock) : Except Halt CCoinsView :=
  if view.hashBlock ≠ t.ctx.hash then .error .assertion
  else do
    let r ← t.ctx.disconnectBlock true t.block t.vtxundo view
    if r.1 = .ok then .ok r.2 else .error (.failure "DisconnectTip(): DisconnectBlock failed")

/-- The view after blocks were connected one by one, the last one first in the list. -/
inductive Connected (view : CCoinsView) : List TipBlock → CCoinsView → Prop
  | nil : Connected view [] view
  | cons {t : TipBlock} {tips : List TipBlock} {view₁ view₂ : CCoinsView} :
      Connected view tips view₁ → t.block.hash ≠ t.ctx.params.hashGenesisBlock →
      (∀ o ∈ createdOutPoints t.block.vtx, view₁.coins o = none) →
      t.ctx.connectBlock true t.block view₁ = .ok (t.vtxundo, view₂) →
      Connected view (t :: tips) view₂

variable {view view' : CCoinsView} {tips : List TipBlock}

theorem connectBlock_restorable {block : CBlock} {vtxundo : List CTxUndo}
    (hg : block.hash ≠ ctx.params.hashGenesisBlock) (hc : view.coins.Restorable)
    (h : ctx.connectBlock true block view = .ok (vtxundo, view')) : view'.coins.Restorable := by
  obtain ⟨-, -, hh, -, hr⟩ := connectBlock_ok hg h
  obtain ⟨r, -, ht, -⟩ := connectCoins_ok hr
  exact connectTxs_restorable hh hc ht

theorem Connected.restorable (h : Connected view tips view') (hc : view.coins.Restorable) :
    view'.coins.Restorable := by
  induction h with
  | nil => exact hc
  | cons _ hg _ hs ih => exact connectBlock_restorable hg ih hs

/-- Disconnecting the blocks again, the last one first, gives back the coins from before them. -/
theorem Connected.disconnectTips (h : Connected view tips view') (hc : view.coins.Restorable) :
    tips.foldlM disconnectTip view' = .ok view := by
  induction h with
  | nil => rfl
  | @cons t tips view₁ view₂ h hg hn hs ih =>
    obtain ⟨hch, hp, hh, hb, hr⟩ := connectBlock_ok hg hs
    have hu := disconnectCoins_connectCoins (h.restorable hc) hh hch hn hr
    have hd : t.ctx.disconnectBlock true t.block t.vtxundo view₂ = .ok (.ok, view₁) := by
      change (disconnectCoins _ _ _).run (mapMachine true) view₂.coins >>= _ = _
      rw [hu, hp]
      rfl
    have ht : disconnectTip view₂ t = .ok view₁ := by
      rw [disconnectTip, if_neg (not_not_intro hb), hd]
      rfl
    rw [foldlM_cons, ht]
    exact ih

theorem Connected.disconnectTips_spending : ∃ r,
    spendingContext.connectBlock true spendingBlock (spentView 4) = .ok r ∧
      [⟨spendingContext, spendingBlock, r.1⟩].foldlM disconnectTip r.2 = .ok (spentView 4) := by
  have ho : (spendingContext.connectBlock true spendingBlock (spentView 4)).isOk = true := by
    decide +kernel
  obtain ⟨r, hr⟩ := Except.exists_ok_of_isOk ho
  have hg : spendingBlock.hash ≠ spendingContext.params.hashGenesisBlock := by decide +kernel
  have hn : ∀ o ∈ createdOutPoints spendingBlock.vtx, (spentView 4).coins o = none := by
    decide +kernel
  exact ⟨r, hr, Connected.disconnectTips (.cons .nil hg hn hr)
    ((restorable_empty.put ⟨by decide, rfl⟩).put ⟨by decide, rfl⟩)⟩

end ConnectContext

end Palladium
