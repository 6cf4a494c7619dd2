import Mathlib
import Palladium.Validation.Replay
import Palladium.Validation.Supply

/-! # Recovery from an interrupted flush

Rolling back and rolling forward write values that do not depend on the coins they find.
-/

namespace Palladium
open CCoinsViewDB CoinsM ConnectContext Forest List Program UtxoMap
variable {m m' : UtxoMap} {nHeight : ℕ}
namespace CoinsM
variable {α β : Type} {p : CoinsM α} {P : α → Prop} {Q : β → Prop} {ws ws' : List (COutPoint × Coin)}

/-- Whatever the map, the program succeeds with a result in `P` and makes the writes. -/
def Writes (p : CoinsM α) (P : α → Prop) (ws : List (COutPoint × Coin)) : Prop :=
  ∀ m, ∃ a, P a ∧ p.run (mapMachine true) m = .ok (a, m.putAll ws)

theorem writes_pure {a : α} (ha : P a) : Writes (pure a) P [] := fun _ => ⟨a, ha, rfl⟩

theorem Writes.bind {k : α → CoinsM β} (hp : Writes p P ws) (hk : ∀ a, P a → Writes (k a) Q ws') :
    Writes (p >>= k) Q (ws ++ ws') := by
  intro m
  obtain ⟨a, ha, hr⟩ := hp m
  obtain ⟨b, hb, hre⟩ := hk a ha (m.putAll ws)
  rw [putAll_append]
  exact ⟨b, hb, (run_bind_of_ok _ hr).trans hre⟩

theorem writes_spendAll (os : List COutPoint) :
    Writes (BlockStore.spendAll os) (fun _ => True) (spends os) := by
  induction os with
  | nil => exact writes_pure trivial
  | cons o os ih =>
    have hs : Writes (spendCoin o) (fun _ => True) [(o, coinEmpty)] := fun m =>
      ⟨m o, trivial, rfl⟩
    exact hs.bind fun _ _ => ih

theorem writes_addCoins {tx : CTransaction} (ht : ∀ out ∈ tx.vout, moneyRange out.nValue) :
    Writes (addCoins tx nHeight true) (fun _ => True) (tx.created nHeight) := by
  intro m
  refine ⟨(), trivial, addOutputs_check ?_⟩
  intro out ho
  have hr := (moneyRange_iff.1 (ht out ho)).1
  simp only [CTxOut.isNull, decide_eq_false_iff_not]
  omega

def blockWrites (nHeight : ℕ) (vtx : List CTransaction) : List (COutPoint × Coin) :=
  vtx.flatMap fun tx => spends tx.spent ++ tx.created nHeight

theorem writes_rollforwardTxs {vtx : List CTransaction}
    (hv : ∀ tx ∈ vtx, ∀ out ∈ tx.vout, moneyRange out.nValue) :
    Writes (BlockStore.rollforwardTxs nHeight vtx) (fun _ => True) (blockWrites nHeight vtx) := by
  induction vtx with
  | nil => exact writes_pure trivial
  | cons tx vtx ih =>
    rw [forall_mem_cons] at hv
    rw [blockWrites, flatMap_cons, append_assoc]
    exact (writes_spendAll _).bind fun _ _ =>
      (writes_addCoins hv.1).bind fun _ _ => ih hv.2

theorem writes_disconnectTxs {l : List (CTransaction × Option CTxUndo)}
    (hl : ∀ w ∈ l, UndoFits w.1 w.2) :
    Writes (disconnectTxs nHeight l) (· ≠ .failed)
      (l.flatMap fun w => undoWrites nHeight w.1 w.2) := by
  induction l with
  | nil => exact writes_pure (by simp)
  | cons w l ih =>
    rw [forall_mem_cons] at hl
    intro m
    obtain ⟨a, ht, -⟩ := disconnectTx_run true nHeight w.1 w.2 hl.1 m
    obtain ⟨res, hr, hre⟩ := ih hl.2 (m.putAll (undoWrites nHeight w.1 w.2))
    obtain ⟨b, rfl⟩ := DisconnectResult.exists_ofClean hr
    rw [flatMap_cons, putAll_append]
    exact ⟨_, by cases a <;> cases b <;> simp [DisconnectResult.ofClean],
      disconnectTxs_cons ht hre⟩

end CoinsM

namespace ConnectContext
variable {ctx : ConnectContext} {strict : Bool} {nFees : ℤ} {nSigOpsCost : ℕ} {r : ℤ × List CTxUndo}
  {vtx : List CTransaction} {block : CBlock}

theorem connectTxs_result
    (h : (ctx.connectTxs nFees nSigOpsCost vtx).run (mapMachine strict) m = .ok (r, m')) :
    m' = m.putAll (blockWrites ctx.nHeight vtx) := by
  induction vtx generalizing m nFees nSigOpsCost r with
  | nil =>
    cases h
    rfl
  | cons tx vtx ih =>
    obtain ⟨fees, cost, t, m₁, r', -, hu, hr, -⟩ := connectTxs_cons_ok h
    rw [ih hr, hu.result]
    simp only [blockWrites, flatMap_cons, putAll_append]

theorem connectTxs_undoFits (hh : ctx.nHeight ≠ 0) (hv : ∀ tx ∈ vtx, tx.isCoinBase = false)
    (hm : m.Restorable)
    (h : (ctx.connectTxs nFees nSigOpsCost vtx).run (mapMachine strict) m = .ok (r, m')) :
    r.2.length = vtx.length ∧ ∀ w ∈ vtx.zip (r.2.map some), UndoFits w.1 w.2 := by
  induction vtx generalizing m nFees nSigOpsCost r with
  | nil =>
    cases h
    exact ⟨rfl, by simp⟩
  | cons tx vtx ih =>
    rw [forall_mem_cons] at hv
    obtain ⟨fees, cost, t, m₁, r', -, hu, hr, rfl⟩ := connectTxs_cons_ok h
    obtain ⟨hl, hf⟩ := ih hv.2 (hu.restorable hm hh) hr
    refine ⟨by simp [hl], ?_⟩
    rw [map_cons, zip_cons_cons, forall_mem_cons]
    exact ⟨hu.undoFits hv.1 hm, hf⟩

theorem writes_disconnectCoins {vtxundo : List CTxUndo} (hm : m.Restorable)
    (hh : ctx.nHeight ≠ 0) (hc : checkBlock ctx.checks ctx.params block = .ok ())
    (h : (ctx.connectCoins block.vtx).run (mapMachine strict) m = .ok (vtxundo, m')) :
    ∃ ws, Writes (disconnectCoins ctx.nHeight block.vtx vtxundo) (· ≠ .failed) ws := by
  obtain ⟨coinbase, vtx, hv, -, ho, -⟩ := checkBlock_ok hc
  rw [hv] at h ⊢
  obtain ⟨r, -, ht, -, rfl⟩ := connectCoins_ok h
  obtain ⟨fees, cost, t, m₁, r', -, hu, hr, rfl⟩ := connectTxs_cons_ok ht
  obtain ⟨hl, hf⟩ :=
    connectTxs_undoFits hh ho (hu.restorable hm hh) hr
  rw [disconnectCoins, tail_cons, if_neg (by simp [hl]), zip_cons_cons]
  refine ⟨_, writes_disconnectTxs ?_⟩
  intro w hw
  rw [mem_reverse, mem_cons] at hw
  rcases hw with rfl | hw
  · trivial
  · exact hf w hw

theorem created_none (hbip30 : ctx.enforcesBIP30)
    (h : (ctx.violatesBIP30 vtx).run (mapMachine strict) m = .ok (false, m)) :
    ∀ o ∈ createdOutPoints vtx, m o = none := by
  rw [violatesBIP30, if_pos hbip30] at h
  generalize createdOutPoints vtx = os at h
  induction os with
  | nil => simp
  | cons o os ih =>
    obtain ⟨present, hh, h⟩ := (keeps_haveCoin o).run_bind_eq_ok.1 h
    rw [run_haveCoin, Except.ok.injEq, Prod.mk.injEq] at hh
    rw [forall_mem_cons]
    cases present with
    | true => cases h
    | false => exact ⟨by simpa using hh.1, ih h⟩

theorem connectBlock_hash {view : CCoinsView} {r : List CTxUndo × CCoinsView}
    (h : ctx.connectBlock strict block view = .ok r) : ctx.hash = block.hash := by
  unfold connectBlock at h
  split at h
  · cases h
  · rename_i hhash
    exact not_not.1 hhash

end ConnectContext

namespace BlockStore
variable {ι : Type} (S : BlockStore ι)

/-- The coins of the chain that ends in the block. -/
inductive UtxoSet : ι → UtxoMap → Prop
  | genesis {b : ι} (hb : S.parent b = none) : UtxoSet b .empty
  | connect {b p : ι} {m : UtxoMap} {view : CCoinsView} (hp : S.parent b = some p)
      (hm : UtxoSet p m)
      (h : (S.context b).connectBlock true (S.block b) ⟨m, S.hash p⟩ = .ok (S.vtxundo b, view)) :
      UtxoSet b view.coins

variable {S} {b p : ι}

theorem hash_injective : Function.Injective S.hash := by
  intro a b h
  have hi := S.mBlockIndex_hash a
  rw [h, S.mBlockIndex_hash b] at hi
  exact (Option.some.inj hi).symm

theorem root_unique {a : ι} (ha : S.parent a = none) (hb : S.parent b = none) : a = b :=
  hash_injective ((S.root a ha).1.trans (S.root b hb).1.symm)

theorem hash_ne_genesis (hp : S.parent b = some p) : S.hash b ≠ S.params.hashGenesisBlock := by
  intro h
  obtain ⟨r, -, hr⟩ := S.exists_root b
  have hrb := hash_injective ((S.root r hr).1.trans h.symm)
  rw [hrb, hp] at hr
  cases hr

theorem nHeight_context (hp : S.parent b = some p) : (S.context b).nHeight = S.height b := by
  rw [S.height_parent hp]
  simp [context, nHeight, hp]

namespace UtxoSet

theorem unique (h : S.UtxoSet b m) (h' : S.UtxoSet b m') : m = m' := by
  induction h generalizing m' with
  | genesis hb =>
    cases h' with
    | genesis => rfl
    | connect hp => rw [hb] at hp; cases hp
  | connect hp hm h ih =>
    cases h' with
    | genesis hb => rw [hb] at hp; cases hp
    | connect hp' hm' h' =>
      rw [hp] at hp'
      cases hp'
      rw [← ih hm', h] at h'
      cases h'
      rfl

theorem connected (h : S.UtxoSet b m') (hp : S.parent b = some p) :
    ∃ m, S.UtxoSet p m ∧ checkBlock (S.context b).checks S.params (S.block b) = .ok () ∧
      ((S.context b).connectCoins (S.block b).vtx).run (mapMachine true) m = .ok (S.vtxundo b, m') := by
  cases h with
  | genesis hb => rw [hb] at hp; cases hp
  | connect hp' hm h =>
    rw [hp] at hp'
    cases hp'
    have hg := hash_ne_genesis hp
    rw [show S.hash b = _ from connectBlock_hash h] at hg
    obtain ⟨hc, -, -, -, hr⟩ := connectBlock_ok hg h
    exact ⟨_, hm, hc, hr⟩

theorem nHeight_ne_zero (hp : S.parent b = some p) : (S.context b).nHeight ≠ 0 := by
  rw [nHeight_context hp, S.height_parent hp]
  exact Nat.succ_ne_zero _

theorem restorable (h : S.UtxoSet b m) : m.Restorable := by
  induction b using S.induction generalizing m with
  | root b hb =>
    cases h with
    | genesis => exact restorable_empty
    | connect hp => rw [hb] at hp; cases hp
  | child b p hp ih =>
    obtain ⟨m₀, hm₀, -, hr⟩ := h.connected hp
    obtain ⟨r, -, ht, -, -⟩ := connectCoins_ok hr
    exact connectTxs_restorable (nHeight_ne_zero hp) (ih hm₀) ht

theorem rollbackBlock (h : S.UtxoSet b m') (hp : S.parent b = some p) (hd : S.haveData b)
    (hu : S.haveUndo b) (hbip30 : (S.context b).enforcesBIP30) :
    ∃ m ws, S.UtxoSet p m ∧ Writes (S.rollbackBlock b) (fun _ => True) ws ∧ m'.putAll ws = m := by
  obtain ⟨m, hm, hc, hr⟩ := h.connected hp
  have hh := nHeight_ne_zero hp
  obtain ⟨ws, hw⟩ := writes_disconnectCoins hm.restorable hh hc hr
  obtain ⟨r, hv, -⟩ := connectCoins_ok hr
  have hb := disconnectCoins_connectCoins hm.restorable hh hc
    (created_none hbip30 hv) hr
  refine ⟨m, ws ++ [], hm, ?_, ?_⟩
  · rw [nHeight_context hp] at hw hh
    rw [BlockStore.rollbackBlock, if_pos (Nat.pos_of_ne_zero hh), readBlockFromDisk, if_pos hd]
    apply Writes.bind (P := (· ≠ .failed))
    · rw [disconnectBlock, undoReadFromDisk, if_pos hu]
      exact hw
    · intro res hre
      rw [if_neg hre]
      exact writes_pure trivial
  · obtain ⟨res, -, hr'⟩ := hw m'
    rw [hb, Except.ok.injEq, Prod.mk.injEq] at hr'
    rw [append_nil]
    exact hr'.2.symm

theorem rollforwardBlock (h : S.UtxoSet b m') (hp : S.parent b = some p) (hd : S.haveData b) :
    ∃ m ws, S.UtxoSet p m ∧ Writes (S.rollforwardBlock b) (fun _ => True) ws ∧ m.putAll ws = m' := by
  obtain ⟨m, hm, hc, hru⟩ := h.connected hp
  obtain ⟨r, -, ht, -, -⟩ := connectCoins_ok hru
  obtain ⟨-, -, -, -, -, ho⟩ := checkBlock_ok hc
  have hr := connectTxs_result ht
  rw [nHeight_context hp] at hr
  refine ⟨m, blockWrites (S.height b) (S.block b).vtx, hm, ?_, hr.symm⟩
  rw [BlockStore.rollforwardBlock, readBlockFromDisk, if_pos hd]
  exact writes_rollforwardTxs (checkTransactions_ok ho)

end UtxoSet

variable {pindexFork pindexNew : ι}

theorem height_eq_zero_iff : S.height b = 0 ↔ S.parent b = none := by
  constructor
  · intro h
    cases hp : S.parent b with
    | none => rfl
    | some p => rw [S.height_parent hp] at h; cases h
  · exact fun h => (S.root b h).2

/-- Rolling forward from the block to the new head writes what lies between their coins. -/
def RollsForward (S : BlockStore ι) (pindexNew b : ι) (m mNew : UtxoMap) : Prop :=
  ∃ ws, Writes (S.rollforward pindexNew
    (List.range' (S.height b + 1) (S.height pindexNew - S.height b))) (fun _ => True) ws ∧
      m.putAll ws = mNew

theorem RollsForward.step {mNew : UtxoMap} (hr : S.RollsForward pindexNew b m mNew)
    (h : S.UtxoSet b m) (hnew : b ∈ S.path pindexNew) (hp : S.parent b = some p)
    (hd : S.haveData b) : ∃ m₀, S.UtxoSet p m₀ ∧ S.RollsForward pindexNew p m₀ mNew := by
  obtain ⟨ws', hw', rfl⟩ := hr
  obtain ⟨m₀, ws, hm₀, hw, rfl⟩ := h.rollforwardBlock hp hd
  refine ⟨m₀, hm₀, ws ++ ws', ?_, putAll_append ..⟩
  have hh := S.height_parent hp
  have hl := height_le hnew
  rw [← hh, show S.height pindexNew - S.height p = S.height pindexNew - S.height b + 1 by omega,
    List.range'_succ, rollforward, ancestorAt_eq_some.2 hnew]
  exact hw.bind fun _ _ => hw'

theorem rollforward_writes {mNew : UtxoMap} (hr : S.RollsForward pindexNew b m mNew)
    (h : S.UtxoSet b m) (hnew : b ∈ S.path pindexNew) (hf : pindexFork ∈ S.path b)
    (hread : ∀ a ∈ S.path b, a ∉ S.path pindexFork → S.haveData a) :
    ∃ mFork, S.UtxoSet pindexFork mFork ∧ S.RollsForward pindexNew pindexFork mFork mNew := by
  induction b using S.induction generalizing m with
  | root b hb =>
    cases (mem_path_root hb).1 hf
    exact ⟨m, h, hr⟩
  | child b p hp ih =>
    by_cases he : b = pindexFork
    · subst he
      exact ⟨m, h, hr⟩
    · have hb : b ∉ S.path pindexFork := fun hme => he (mem_path_antisymm hme hf)
      obtain ⟨m₀, hm₀, hs⟩ := hr.step h hnew hp (hread b (self_mem_path b) hb)
      exact ih hs hm₀ (mem_path_trans (parent_mem_path hp) hnew)
        (((mem_path_child hp).1 hf).resolve_left (Ne.symm he)) fun a ha =>
          hread a ((mem_path_child hp).2 (.inr ha))

theorem rollsForward_self (b : ι) (m : UtxoMap) : S.RollsForward b b m m := by
  refine ⟨[], ?_, rfl⟩
  rw [Nat.sub_self]
  exact writes_pure trivial

theorem lowered_spec (a b : ι) :
    ∃ c ∈ S.path a, S.lowered a b = some c ∧ S.height c = min (S.height a) (S.height b) := by
  unfold lowered
  split
  · rename_i hgt
    obtain ⟨r, hr, hro⟩ := S.exists_root a
    obtain ⟨c, hc, hh⟩ := exists_mem_path_height hr
      ((height_eq_zero_iff.2 hro).trans_le (Nat.zero_le (S.height b))) (Nat.le_of_lt hgt)
    refine ⟨c, hc, ?_, by omega⟩
    rw [← hh]
    exact ancestorAt_eq_some.2 hc
  · exact ⟨a, self_mem_path a, rfl, by omega⟩

section Replay
variable [DecidableEq ι]

theorem rollback_writes (h : S.UtxoSet b m) (hf : pindexFork ∈ S.path b)
    (hread : ∀ a ∈ S.path b, a ∉ S.path pindexFork →
      S.haveData a ∧ S.haveUndo a ∧ (S.context a).enforcesBIP30) :
    ∃ mFork ws, S.UtxoSet pindexFork mFork ∧
      Writes (S.rollback pindexFork (S.path b)) (fun _ => True) ws ∧ m.putAll ws = mFork := by
  induction b using S.induction generalizing m with
  | root b hb =>
    cases (mem_path_root hb).1 hf
    refine ⟨m, [], h, ?_, rfl⟩
    rw [path_root hb, rollback, if_pos rfl]
    exact writes_pure trivial
  | child b p hp ih =>
    rw [path_child hp, rollback]
    by_cases he : b = pindexFork
    · subst he
      rw [if_pos rfl]
      exact ⟨m, [], h, writes_pure trivial, rfl⟩
    · have hfo := ((mem_path_child hp).1 hf).resolve_left (Ne.symm he)
      have hb : b ∉ S.path pindexFork := fun hme => he (mem_path_antisymm hme hf)
      obtain ⟨hd, hu, hbip30⟩ := hread b (self_mem_path b) hb
      obtain ⟨m₁, ws, hm₁, hw, rfl⟩ := h.rollbackBlock hp hd hu hbip30
      obtain ⟨mFork, ws', hmf, hw', rfl⟩ := ih hm₁ hfo fun a ha =>
        hread a ((mem_path_child hp).2 (.inr ha))
      rw [if_neg he]
      exact ⟨_, ws ++ ws', hmf, hw.bind fun _ _ => hw', putAll_append ..⟩

/-- What the last common ancestor is. -/
structure IsFork (S : BlockStore ι) (a b f : ι) : Prop where
  left : f ∈ S.path a
  right : f ∈ S.path b
  last : ∀ c ∈ S.path a, c ∈ S.path b → c ∈ S.path f

theorem meet_isFork {a b : ι} (h : S.height a = S.height b) :
    ∃ f, meet (S.path a) (S.path b) = some f ∧ S.IsFork a b f := by
  induction a using S.induction generalizing b with
  | root a ha =>
    have hb : S.parent b = none := height_eq_zero_iff.1 (h ▸ height_eq_zero_iff.2 ha)
    obtain rfl : a = b := root_unique ha hb
    rw [path_root ha, meet, if_pos rfl]
    exact ⟨a, rfl, self_mem_path a, self_mem_path a, fun c hc _ => hc⟩
  | child a p ha ih =>
    by_cases hab : a = b
    · subst hab
      refine ⟨a, ?_, self_mem_path a, self_mem_path a, fun c hc _ => hc⟩
      rw [path_child ha, meet, if_pos rfl]
    · cases hb : S.parent b with
      | none =>
        rw [height_eq_zero_iff.2 hb, S.height_parent ha] at h
        cases h
      | some q =>
        have hh : S.height p = S.height q := by
          rw [S.height_parent ha, S.height_parent hb] at h
          exact Nat.succ.inj h
        obtain ⟨f, hf, hfo⟩ := ih hh
        refine ⟨f, ?_, (mem_path_child ha).2 (.inr hfo.left),
          (mem_path_child hb).2 (.inr hfo.right), ?_⟩
        · rw [path_child ha, path_child hb, meet, if_neg hab, hf]
        · intro c hca hcb
          have hn : c ≠ a := by
            rintro rfl
            exact hab (eq_of_height_ge hcb h.ge)
          have hnb : c ≠ b := by
            rintro rfl
            exact hab (eq_of_height_ge hca h.le).symm
          exact hfo.last c (((mem_path_child ha).1 hca).resolve_left hn)
            (((mem_path_child hb).1 hcb).resolve_left hnb)

theorem lastCommonAncestor_isFork (a b : ι) :
    ∃ f, S.lastCommonAncestor a b = some f ∧ S.IsFork a b f := by
  obtain ⟨c, hc, hl, hh⟩ := lowered_spec (S := S) a b
  obtain ⟨d, hd, hl', hh'⟩ := lowered_spec (S := S) b a
  obtain ⟨f, hf, hfo⟩ := meet_isFork (S := S) (a := c) (b := d) (by omega)
  refine ⟨f, ?_, mem_path_trans hfo.left hc, mem_path_trans hfo.right hd, ?_⟩
  · simp [lastCommonAncestor, hl, hl', hf]
  · intro e he heb
    have hle := height_le he
    have hle' := height_le heb
    exact hfo.last e (mem_path_of_height_le he hc (by omega))
      (mem_path_of_height_le heb hd (by omega))

end Replay

variable (S) in
def headHash (old : Option ι) : Uint256 := old.elim 0 S.hash

variable (S) in
def headPath (old : Option ι) : List ι := old.elim [] S.path

variable (S) in
def HeadSet (old : Option ι) (m : UtxoMap) : Prop := old.elim (m = .empty) (S.UtxoSet · m)

/-- What `ReplayBlocks` reads from disk is there, and the old branch can be undone. -/
structure Replayable (S : BlockStore ι) (old : Option ι) (pindexNew : ι) : Prop where
  oldBranch : ∀ a ∈ S.headPath old, a ∉ S.path pindexNew →
    S.haveData a = true ∧ S.haveUndo a = true ∧ (S.context a).enforcesBIP30 = true
  newBranch : ∀ a ∈ S.path pindexNew, a ∉ S.headPath old → S.parent a ≠ none →
    S.haveData a = true

variable {old : Option ι} {mOld mNew : UtxoMap}

theorem replay_writes [DecidableEq ι] (hread : S.Replayable old pindexNew) (hold : S.HeadSet old mOld)
    (hnew : S.UtxoSet pindexNew mNew) :
    ∃ w ws, S.oldHead (S.headHash old) pindexNew = .ok w ∧
      Writes (S.replay w pindexNew) (fun _ => True) ws ∧ mOld.putAll ws = mNew := by
  cases old with
  | none =>
    obtain ⟨r, hr, hro⟩ := S.exists_root pindexNew
    obtain ⟨mFork, hm, ws, hw, rfl⟩ :=
      rollforward_writes (rollsForward_self pindexNew mNew) hnew (self_mem_path _) hr
        fun a ha hn => hread.newBranch a ha not_mem_nil fun hp =>
          hn (root_unique hp hro ▸ self_mem_path a)
    cases hold
    have he : mFork = .empty := hm.unique (.genesis hro)
    rw [height_eq_zero_iff.2 hro] at hw
    refine ⟨none, [] ++ ws, rfl, ?_, by rw [he]; rfl⟩
    exact (writes_pure (P := fun _ => True) trivial).bind fun _ _ => hw
  | some pindexOld =>
    obtain ⟨f, hf, hfo⟩ := lastCommonAncestor_isFork (S := S) pindexOld pindexNew
    obtain ⟨mFork, hm, ws', hw', rfl⟩ :=
      rollforward_writes (rollsForward_self pindexNew mNew) hnew (self_mem_path _)
        hfo.right fun a ha hn => by
          have hold : a ∉ S.path pindexOld := fun h => hn (hfo.last a h ha)
          refine hread.newBranch a ha hold fun hp => hold ?_
          obtain ⟨r, hr, hro⟩ := S.exists_root pindexOld
          rwa [root_unique hp hro]
    obtain ⟨mFork', ws, hm', hw, hb⟩ := rollback_writes hold hfo.left fun a ha hn =>
      hread.oldBranch a ha fun h => hn (hfo.last a ha h)
    refine ⟨some (pindexOld, f), ws ++ ws', ?_, hw.bind fun _ _ => hw', ?_⟩
    · simp only [oldHead, headHash, Option.elim_some, S.hash_ne_zero, S.mBlockIndex_hash, hf,
        if_false]
    · rw [putAll_append, hb, hm.unique hm']

variable (S) in
def marked (old : Option ι) (pindexNew : ι) (m : UtxoMap) : CCoinsViewDB :=
  ⟨m, none, some [S.hash pindexNew, S.headHash old]⟩

theorem oldTip_marked :
    (S.marked old pindexNew m).oldTip (S.hash pindexNew) = .ok (S.headHash old) := by
  simp [marked, oldTip, getBestBlock, getHeadBlocks]

variable (S) in
def Between (old : Option ι) (pindexNew : ι) (mOld mNew : UtxoMap) (db : CCoinsViewDB) : Prop :=
  db = ⟨mNew, some (S.hash pindexNew), none⟩ ∨
    ∃ m, db = S.marked old pindexNew m ∧ Mixed mOld.coin mNew.coin m.coin

variable {db : CCoinsViewDB} {l : CCoinsViewCache}

theorem between_flush {full : CDBBatch → Bool} {order : List (COutPoint × CCoinsCacheEntry)}
    {batches : List CDBBatch} {k : ℕ} (hk : k ≠ 0) (hm : Mixed mOld.coin mNew.coin db.coins.coin)
    (hs : l.Sound db.coins) (hf : l.flat db.coins = mNew) (ho : l.Ordered order)
    (ht : db.oldTip (S.hash pindexNew) = .ok (S.headHash old))
    (h : db.batchWrite full order (S.hash pindexNew) = .ok batches) :
    S.Between old pindexNew mOld mNew (db.writeBatches (batches.take k)) := by
  subst hf
  rcases writeBatches_take hs ho h hk with hd | ⟨m, old_tip, ht', hd, hmi⟩
  · exact Or.inl hd
  · rw [ht] at ht'
    cases ht'
    refine Or.inr ⟨m, hd, fun o => ?_⟩
    rcases hmi o with h | h
    · rw [h]
      exact hm o
    · exact Or.inr h

variable [DecidableEq ι]
variable (S) in
/-- The databases left when the flush of the layer stops after one or more batches, and replays
after any number. -/
inductive Interrupted (db₀ : CCoinsViewDB) (l : CCoinsViewCache) (pindexNew : ι) :
    CCoinsViewDB → Prop
  | flush {full : CDBBatch → Bool} {order : List (COutPoint × CCoinsCacheEntry)}
      {batches : List CDBBatch} {k : ℕ} (hk : k ≠ 0) (ho : l.Ordered order)
      (h : db₀.batchWrite full order (S.hash pindexNew) = .ok batches) :
      Interrupted db₀ l pindexNew (db₀.writeBatches (batches.take k))
  | replay {db : CCoinsViewDB} {full : CDBBatch → Bool} {it : IterationOrder}
      {batches : List CDBBatch} (k : ℕ) (hdb : Interrupted db₀ l pindexNew db)
      (h : S.replayBlocks db full it = .ok batches) :
      Interrupted db₀ l pindexNew (db.writeBatches (batches.take k))

variable (hread : S.Replayable old pindexNew) (hold : S.HeadSet old mOld)
  (hnew : S.UtxoSet pindexNew mNew)

include hread hold hnew

theorem replayBlocks_marked (hm : Mixed mOld.coin mNew.coin m.coin) (full : CDBBatch → Bool)
    (it : IterationOrder) :
    ∃ l : CCoinsViewCache, l.Sound m ∧ l.flat m = mNew ∧
      S.replayBlocks (S.marked old pindexNew m) full it =
        (S.marked old pindexNew m).batchWrite full (it.order l) (S.hash pindexNew) := by
  obtain ⟨w, ws, hw, hws, rfl⟩ := replay_writes hread hold hnew
  obtain ⟨_, -, hr⟩ := hws m
  have hp : m.putAll ws = mOld.putAll ws := by
    ext1
    rw [coin_putAll, coin_putAll]
    apply applyWrites_of_mixed
    rwa [← coin_putAll]
  rw [hp] at hr
  obtain ⟨l, hc, hs, hf⟩ :=
    CoinsStack.run_onView (S.marked old pindexNew m).view _ hr
  refine ⟨{ l with hashBlock := S.hash pindexNew }, hs, hf, ?_⟩
  simp only [replayBlocks, marked, getHeadBlocks, Option.getD_some, S.mBlockIndex_hash, hw]
  change (S.replay w pindexNew).run cacheMachine
    (.onView (S.marked old pindexNew m).view) >>= _ = _
  rw [hc]
  rfl

theorem Interrupted.between (hc : CoinsStack.Represents ⟨l, [], ⟨mOld, S.headHash old⟩⟩ mNew)
    (hd : S.Interrupted ⟨mOld, old.map S.hash, none⟩ l pindexNew db) :
    S.Between old pindexNew mOld mNew db := by
  induction hd with
  | flush hk ho h =>
    refine between_flush hk (fun o => .inl rfl) hc.sound.1 hc.flat ho ?_ h
    cases old with
    | none => rfl
    | some pindexOld => exact if_pos (S.hash_ne_zero pindexOld)
  | @replay db full it batches k hd h ih =>
    rcases ih with rfl | ⟨m, rfl, hm⟩
    · cases h
      rw [take_nil]
      exact .inl rfl
    · rcases Nat.eq_zero_or_pos k with rfl | hk
      · exact .inr ⟨m, rfl, hm⟩
      · obtain ⟨l', hs, hf, hr⟩ := replayBlocks_marked hread hold hnew hm full it
        rw [hr] at h
        exact between_flush hk.ne' hm hs hf (it.ordered l') oldTip_marked h

theorem exists_cache : ∃ l, CoinsStack.Represents ⟨l, [], ⟨mOld, S.headHash old⟩⟩ mNew := by
  obtain ⟨w, ws, -, hw, rfl⟩ := replay_writes hread hold hnew
  obtain ⟨_, -, hr⟩ := hw mOld
  obtain ⟨l, -, hs, hf⟩ := CoinsStack.run_onView ⟨mOld, S.headHash old⟩ _ hr
  exact ⟨l, ⟨hs, trivial⟩, hf⟩

omit hread hold hnew

def reorgHash : Fin 3 → Uint256
  | 0 => Network.main.consensus.hashGenesisBlock
  | 1 => 1
  | 2 => 2

theorem reorg_height {b p : Fin 3} : (if b = 0 then none else some 0) = some p →
    (if b = 0 then 0 else 1) = (if p = 0 then 0 else 1) + 1 := by
  revert b p
  decide

def reorgStore : BlockStore (Fin 3) where
  parent b := if b = 0 then none else some 0
  height b := if b = 0 then 0 else 1
  height_parent := reorg_height
  params := Network.main.consensus
  hash := reorgHash
  mBlockIndex hash := (List.finRange 3).find? (reorgHash · = hash)
  block b := rewardBlock (reorgHash b) 5000000000
  vtxundo _ := []
  haveData _ := true
  haveUndo _ := true
  fScriptChecks _ := true
  checks _ := default
  mBlockIndex_hash := by decide +kernel
  hash_ne_zero := by decide +kernel
  root := by decide +kernel

theorem reorgStore_replayable : reorgStore.Replayable (some 1) 2 where
  oldBranch := by decide +kernel
  newBranch := fun _ _ _ _ => rfl

theorem reorgStore_utxoSet :
    ∃ m m', reorgStore.UtxoSet 1 m ∧ reorgStore.UtxoSet 2 m' ∧ (m ⟨1, 0⟩).isSome ∧
      (m' ⟨1, 0⟩).isSome = false := by
  have hru (b : Fin 3) : ((reorgStore.context b).connectBlock true (reorgStore.block b)
      ⟨.empty, reorgStore.hash 0⟩ >>= fun r => .ok (r.1, (r.2.coins ⟨1, 0⟩).isSome)).toOption =
        if b = 0 then none else some ([], decide (b = 1)) := by
    revert b
    decide +kernel
  have hs (b : Fin 3) (hb : b ≠ 0) :
      ∃ m, reorgStore.UtxoSet b m ∧ (m ⟨1, 0⟩).isSome = decide (b = 1) := by
    have h := hru b
    rw [if_neg hb] at h
    obtain ⟨r, hr, hc⟩ := Except.bind_eq_ok.1 (Except.eq_ok_of_toOption h)
    rw [Except.ok.injEq, Prod.mk.injEq] at hc
    have hp : reorgStore.parent b = some 0 := if_neg hb
    refine ⟨r.2.coins, .connect hp (.genesis rfl) (hr.trans ?_), hc.2⟩
    rw [← show r.1 = reorgStore.vtxundo b from hc.1]
  obtain ⟨m, hm, hc⟩ := hs 1 (by decide)
  obtain ⟨m', hm', hc'⟩ := hs 2 (by decide)
  exact ⟨m, m', hm, hm', hc, hc'⟩

/-- However often the flush and the replays after it are interrupted, `ReplayBlocks` succeeds and
its flush, when it is not, leaves the coins of the new head. -/
theorem replayBlocks_recovers {l : CCoinsViewCache} {db : CCoinsViewDB}
    (hread : S.Replayable old pindexNew) (hold : S.HeadSet old mOld)
    (hnew : S.UtxoSet pindexNew mNew)
    (hcache : CoinsStack.Represents ⟨l, [], ⟨mOld, S.headHash old⟩⟩ mNew)
    (hdb : S.Interrupted ⟨mOld, old.map S.hash, none⟩ l pindexNew db)
    (full : CDBBatch → Bool) (it : IterationOrder) :
    ∃ batches, S.replayBlocks db full it = .ok batches ∧
      db.writeBatches batches = ⟨mNew, some (S.hash pindexNew), none⟩ := by
  rcases hdb.between hread hold hnew hcache with rfl | ⟨m, rfl, hm⟩
  · exact ⟨[], rfl, rfl⟩
  · obtain ⟨l', hs, rfl, hr⟩ := replayBlocks_marked hread hold hnew hm full it
    obtain ⟨batches, hb⟩ := exists_batchWrite full (it.order l')
      (S.hash_ne_zero pindexNew) oldTip_marked
    refine ⟨batches, hr.trans hb, ?_⟩
    exact writeBatches_batchWrite hs (it.ordered l') hb

theorem reorgStore_flush (m : UtxoMap) (l : CCoinsViewCache) :
    ∃ batches, batchWrite ⟨m, some (reorgStore.hash 1), none⟩ (fun _ => true)
      l.mapCoins (reorgStore.hash 2) = .ok batches :=
  exists_batchWrite _ _ (reorgStore.hash_ne_zero 2)
    (if_pos (reorgStore.hash_ne_zero 1))

theorem replayBlocks_recovers_reorg : ∃ mOld mNew l db batches,
      reorgStore.Interrupted ⟨mOld, some (reorgStore.hash 1), none⟩ l 2 db ∧
      reorgStore.replayBlocks db (fun _ => true) ⟨CCoinsViewCache.mapCoins, fun _ => .refl _⟩ =
        .ok batches ∧
      db.writeBatches batches = ⟨mNew, some (reorgStore.hash 2), none⟩ ∧ mOld ≠ mNew := by
  obtain ⟨mOld, mNew, hold, hnew, hc, hc'⟩ := reorgStore_utxoSet
  obtain ⟨l, hca⟩ := exists_cache reorgStore_replayable hold hnew
  obtain ⟨batches, hf⟩ := reorgStore_flush mOld l
  have hdb := Interrupted.flush (S := reorgStore) one_ne_zero (.refl _) hf
  obtain ⟨batches', hr, hd⟩ := replayBlocks_recovers reorgStore_replayable hold hnew
    hca hdb (fun _ => true) ⟨CCoinsViewCache.mapCoins, fun _ => .refl _⟩
  refine ⟨mOld, mNew, l, _, batches', hdb, hr, hd, ?_⟩
  rintro rfl
  rw [hc] at hc'
  cases hc'

/-- Before the first batch nothing is written, and `ReplayBlocks` leaves the old head. -/
theorem replayBlocks_before_first_batch :
    ∃ mOld mNew l batches, reorgStore.Replayable (some 1) 2 ∧ reorgStore.UtxoSet 1 mOld ∧
      reorgStore.UtxoSet 2 mNew ∧ CoinsStack.Represents ⟨l, [], ⟨mOld, reorgStore.hash 1⟩⟩ mNew ∧
      batchWrite ⟨mOld, some (reorgStore.hash 1), none⟩ (fun _ => true) l.mapCoins
        (reorgStore.hash 2) = .ok batches ∧
      ∀ full it, reorgStore.replayBlocks (writeBatches
          ⟨mOld, some (reorgStore.hash 1), none⟩ (batches.take 0)) full it = .ok [] ∧
        writeBatches (writeBatches
          ⟨mOld, some (reorgStore.hash 1), none⟩ (batches.take 0)) [] ≠
            ⟨mNew, some (reorgStore.hash 2), none⟩ := by
  obtain ⟨mOld, mNew, hold, hnew, -⟩ := reorgStore_utxoSet
  obtain ⟨l, hc⟩ := exists_cache reorgStore_replayable hold hnew
  obtain ⟨batches, hf⟩ := reorgStore_flush mOld l
  refine ⟨mOld, mNew, l, batches, reorgStore_replayable, hold, hnew, hc, hf, ?_⟩
  intro full it
  refine ⟨rfl, ?_⟩
  intro h
  have hb : some (reorgStore.hash 1) = some (reorgStore.hash 2) :=
    congrArg bestBlock h
  revert hb
  decide +kernel

end BlockStore

end Palladium
