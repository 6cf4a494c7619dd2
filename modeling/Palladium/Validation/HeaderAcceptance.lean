import Mathlib.Order.Fin.Basic
import Palladium.Validation.BlockIndex

/-! # Headers on top of failed blocks

A new header is checked against the set of failed blocks.
-/

namespace Palladium.Validation
open Forest Function List
variable {ι : Type*}

/-- The calls that change the block index, with what the checks of the block said. -/
inductive Call (ι : Type*)
  | acceptBlockHeader (b : ι) (checkBlockHeader contextualCheckBlockHeader : Except BlockInvalid Unit)
  | acceptBlock (b : ι) (checkBlockHeader contextualCheckBlockHeader : Except BlockInvalid Unit)
      (block : BlockArrival)
  | invalidBlockFound (b : ι) (state : BlockInvalid)

def Call.run [LinearOrder ι] (T : BlockTree ι) (s : ChainState ι) : Call ι → ChainState ι
  | acceptBlockHeader b check context => (Validation.acceptBlockHeader T s b check context).2
  | acceptBlock b check context block => (Validation.acceptBlock T s b check context block).2
  | invalidBlockFound b state => Validation.invalidBlockFound T s b state

def ChainState.genesis (T : BlockTree ι) : ChainState ι where
  m_block_index := [T.hashGenesisBlock]
  index _ := { nStatus := { valid := .transactions, haveData := true }, nTx := 1, nChainTx := 1
               nSequenceId := 1 }
  setBlockIndexCandidates := {T.hashGenesisBlock}
  m_blocks_unlinked := []
  m_failed_blocks := ∅
  tip := some T.hashGenesisBlock
  pindexBestInvalid := none
  pindexBestHeader := some T.hashGenesisBlock
  nBlockSequenceId := 2
  fHavePruned := false

/-- The states reached from genesis by calls that meet a condition. Only known blocks are found
invalid. -/
inductive Reachable [LinearOrder ι] (T : BlockTree ι) (cond : ChainState ι → Call ι → Prop) : ChainState ι → Prop
  | genesis : Reachable T cond (.genesis T)
  | call {s : ChainState ι} {c : Call ι} : Reachable T cond s → cond s c →
      (∀ b state, c = .invalidBlockFound b state → b ∈ s.m_block_index) →
      Reachable T cond (c.run T s)

/-- The call does not reject the body of a block that has a child, except for a mutation. -/
def NoChildRejected (T : BlockTree ι) (s : ChainState ι) (c : Call ι) : Prop :=
  ∀ b check context block, c = .acceptBlock b check context block →
    ∀ e, block.check = .error e → e.result ≠ .mutated → ∀ d ∈ s.m_block_index, T.parent d ≠ some b

variable {T : BlockTree ι} {s s' : ChainState ι} {a b : ι}

abbrev ChainState.failedValid (s : ChainState ι) (b : ι) : Bool := (s.index b).nStatus.failedValid

variable (T s) in
/-- A failed block is in the set of failed blocks or has no child, and no block is valid up to its
scripts. -/
structure HeaderInv : Prop where
  parent_mem : ∀ b ∈ s.m_block_index, ∀ p, T.parent b = some p → p ∈ s.m_block_index
  failed_mem : ∀ b ∈ s.m_block_index, s.failedValid b = true → b ∈ s.m_failed_blocks ∨
    ∀ d ∈ s.m_block_index, T.parent d ≠ some b
  level_lt : ∀ b ∈ s.m_block_index,
    (s.index b).nStatus.valid.level < BlockValidity.scripts.level

/-- A change that neither adds blocks nor marks one as failed. -/
structure Quiet (s s' : ChainState ι) : Prop where
  keys : s'.m_block_index = s.m_block_index
  failedBlocks : s'.m_failed_blocks = s.m_failed_blocks
  failedValid : ∀ b, s'.failedValid b = s.failedValid b
  level_lt : ∀ b, (s.index b).nStatus.valid.level < BlockValidity.scripts.level →
    (s'.index b).nStatus.valid.level < BlockValidity.scripts.level

namespace Quiet

theorem refl (s : ChainState ι) : Quiet s s := ⟨rfl, rfl, fun _ => rfl, fun _ h => h⟩

theorem trans {s'' : ChainState ι} (h : Quiet s s') (h' : Quiet s' s'') : Quiet s s'' :=
  ⟨h'.keys.trans h.keys, h'.failedBlocks.trans h.failedBlocks,
    fun b => (h'.failedValid b).trans (h.failedValid b), fun b hb => h'.level_lt b (h.level_lt b hb)⟩

theorem congr {s'' : ChainState ι} (h : Quiet s s') (hk : s''.m_block_index = s'.m_block_index)
    (hf : s''.m_failed_blocks = s'.m_failed_blocks) (hi : s''.index = s'.index) : Quiet s s'' :=
  ⟨hk.trans h.keys, hf.trans h.failedBlocks,
    fun b => by rw [ChainState.failedValid, hi]; exact h.failedValid b,
    fun b hb => by rw [hi]; exact h.level_lt b hb⟩

theorem headerInv (h : Quiet s s') (hi : HeaderInv T s) : HeaderInv T s' := by
  refine ⟨?_, fun b hb hf => ?_, fun b hb => ?_⟩
  · rw [h.keys]; exact hi.parent_mem
  · rw [h.keys] at hb ⊢
    rw [h.failedBlocks]
    exact hi.failed_mem b hb (h.failedValid b ▸ hf)
  · exact h.level_lt b (hi.level_lt b (h.keys ▸ hb))

theorem foldl {f : ChainState ι → ι → ChainState ι} (hf : ∀ s b, Quiet s (f s b)) (l : List ι)
    (s : ChainState ι) : Quiet s (l.foldl f s) := by
  induction l generalizing s with
  | nil => exact refl s
  | cons b l ih => exact (hf s b).trans (ih _)

theorem modify [LinearOrder ι] {f : BlockEntry → BlockEntry} (s : ChainState ι) (b : ι)
    (hf : ∀ e : BlockEntry, (f e).nStatus.failedValid = e.nStatus.failedValid)
    (hl : ∀ e : BlockEntry, e.nStatus.valid.level < BlockValidity.scripts.level →
      (f e).nStatus.valid.level < BlockValidity.scripts.level) : Quiet s (s.modify b f) := by
  refine ⟨rfl, rfl, fun c => ?_, fun c hc => ?_⟩
  · rcases eq_or_ne c b with rfl | hn
    · rw [ChainState.failedValid, s.modify_index_self, hf]
    · rw [ChainState.failedValid, s.modify_index_of_ne f hn]
  · rcases eq_or_ne c b with rfl | hn
    · rw [s.modify_index_self]; exact hl _ hc
    · rwa [s.modify_index_of_ne f hn]

end Quiet

theorem ne_of_parent {d p : ι} (h : T.parent d = some p) : d ≠ p := by
  rintro rfl
  have := T.height_parent h
  omega

theorem HeaderInv.path_mem (h : HeaderInv T s) (hb : b ∈ s.m_block_index) (ha : a ∈ T.path b) :
    a ∈ s.m_block_index := by
  induction b using T.induction with
  | root b hr => rwa [(mem_path_root hr).mp ha]
  | child b p hp ih =>
    rcases (mem_path_child hp).mp ha with rfl | ha'
    · exact hb
    · exact ih (h.parent_mem b hb p hp) ha'

/-- A known block that is not failed, with no ancestor in the set of failed blocks, has no failed
ancestor. -/
theorem HeaderInv.failedValid_of_not_mem (h : HeaderInv T s) {p : ι} (hp : p ∈ s.m_block_index)
    (hpf : (s.index p).nStatus.failed = false) (hs : ∀ f ∈ s.m_failed_blocks, f ∉ T.path p)
    (ha : a ∈ T.path p) : s.failedValid a = false := by
  by_contra hf
  rw [Bool.not_eq_false] at hf
  rcases h.failed_mem a (h.path_mem hp ha) hf with hm | hd
  · exact hs a hm ha
  · rcases eq_or_ne a p with rfl | hn
    · simp [BlockStatus.failed, show (s.index a).nStatus.failedValid = true from hf] at hpf
    · obtain ⟨d, hdp, hda⟩ := exists_child_on_path ha hn
      exact hd d (h.path_mem hp hdp) hda

variable [LinearOrder ι]

theorem setFailedChild_quiet (s : ChainState ι) (b : ι) : Quiet s (s.setFailedChild b) :=
  Quiet.modify s b (fun _ => rfl) fun _ h => h

theorem linkBlock_quiet (s : ChainState ι) (b : ι) : Quiet s (linkBlock T s b) := by
  have he : ∀ nChainTx : ℕ, Quiet s (s.modify b fun e => { e with
      nChainTx := nChainTx + e.nTx, nSequenceId := s.nBlockSequenceId }) :=
    fun _ => Quiet.modify s b (fun _ => rfl) fun _ h => h
  have hm : Quiet s (linkEntry T s b) := (he _).congr rfl rfl rfl
  unfold linkBlock
  split_ifs
  · exact hm.congr rfl rfl rfl
  · exact hm

theorem linkBlocks_quiet (n : ℕ) (queue : List ι) (s : ChainState ι) :
    Quiet s (linkBlocks T n queue s) := by
  induction n generalizing queue s with
  | zero => exact .refl s
  | succ n ih =>
    cases queue with
    | nil => exact .refl s
    | cons b queue =>
      simp only [linkBlocks]
      refine Quiet.trans ?_ (ih _ _)
      exact (linkBlock_quiet s b).congr rfl rfl rfl

theorem received_quiet (s : ChainState ι) (b : ι) (nTx nFile : ℕ) :
    Quiet s (s.modify b (·.received nTx nFile)) := by
  refine Quiet.modify s b (fun e => ?_) fun e h => ?_ <;>
    unfold BlockEntry.received BlockEntry.raiseValidity
  · split_ifs <;> rfl
  · split_ifs
    · exact h
    · show BlockValidity.transactions.level < BlockValidity.scripts.level
      decide
    · exact h

theorem receivedBlockTransactions_quiet (s : ChainState ι) (b : ι) (nTx nFile : ℕ) :
    Quiet s (receivedBlockTransactions T s b nTx nFile) := by
  have hm := received_quiet s b nTx nFile
  unfold receivedBlockTransactions
  dsimp only
  split
  · exact hm.trans (linkBlocks_quiet _ _ _)
  · split_ifs
    · exact hm.trans (linkBlocks_quiet _ _ _)
    · exact hm.congr rfl rfl rfl
    · exact hm

theorem invalidChainFound_quiet (s : ChainState ι) (b : ι) : Quiet s (invalidChainFound T s b) :=
  (Quiet.refl s).congr rfl rfl rfl

theorem failedAncestor_eq_none {p : ι} :
    failedAncestor T s p = none ↔ ∀ f ∈ s.m_failed_blocks, f ∉ T.path p := by
  rw [failedAncestor, min?_eq_none_iff, filter_eq_nil_iff]
  simp only [decide_eq_true_eq]
  exact ⟨fun h f hf hp => h f hp hf, fun h f hp hf => h f hf hp⟩

theorem addToBlockIndex_known (h : b ∈ s.m_block_index) : addToBlockIndex T s b = s := if_pos h

theorem addToBlockIndex_keys (h : b ∉ s.m_block_index) :
    (addToBlockIndex T s b).m_block_index = s.m_block_index ++ [b] := by
  rw [addToBlockIndex, if_neg h]

theorem addToBlockIndex_failedBlocks : (addToBlockIndex T s b).m_failed_blocks = s.m_failed_blocks := by
  unfold addToBlockIndex; split <;> rfl

theorem addToBlockIndex_index (h : b ∉ s.m_block_index) : (addToBlockIndex T s b).index =
      Function.update s.index b { nStatus := { valid := .tree } } := by
  rw [addToBlockIndex, if_neg h]; rfl

theorem addToBlockIndex_inv (h : HeaderInv T s) (hb : b ∉ s.m_block_index)
    (hp : ∀ p, T.parent b = some p → p ∈ s.m_block_index ∧ s.failedValid p = false) :
    HeaderInv T (addToBlockIndex T s b) := by
  have hold : ∀ c ∈ s.m_block_index, c ≠ b := fun c hc hcb => hb (hcb ▸ hc)
  refine ⟨?_, ?_, ?_⟩ <;>
    simp only [addToBlockIndex_keys hb, addToBlockIndex_failedBlocks, ChainState.failedValid,
      addToBlockIndex_index hb, mem_append, mem_singleton]
  · rintro c (hc | rfl) p hcp
    · exact .inl (h.parent_mem c hc p hcp)
    · exact .inl (hp p hcp).1
  · rintro c (hc | rfl) hf
    · rw [update_of_ne (hold c hc)] at hf
      refine (h.failed_mem c hc hf).imp_right ?_
      rintro hd d (hdm | rfl) hdc
      · exact hd d hdm hdc
      · exact absurd (hf.symm.trans (hp c hdc).2) (by simp)
    · simp at hf
  · rintro c (hc | rfl)
    · rw [update_of_ne (hold c hc)]; exact h.level_lt c hc
    · rw [update_self]; decide

/-- `AcceptBlockHeader` at most marks descendants of failed blocks, or adds a block on a known
block without a failed ancestor-or-self. -/
theorem acceptBlockHeader_cases (h : HeaderInv T s) (check context : Except BlockInvalid Unit) :
    Quiet s (acceptBlockHeader T s b check context).2 ∨
    b ∉ s.m_block_index ∧ (acceptBlockHeader T s b check context).2 = addToBlockIndex T s b ∧
      ∀ p, T.parent b = some p → p ∈ s.m_block_index ∧ ∀ a ∈ T.path p, s.failedValid a = false := by
  unfold acceptBlockHeader
  by_cases hb : b ∈ s.m_block_index
  · rw [addToBlockIndex_known hb, if_pos hb]
    split_ifs <;> exact .inl (.refl s)
  rw [if_neg hb]
  split_ifs with hg
  · refine .inr ⟨hb, rfl, fun p hp => ?_⟩
    rw [hg, T.parent_genesis] at hp; cases hp
  cases check with
  | error e => exact .inl (.refl s)
  | ok _ =>
    cases hp : T.parent b with
    | none => exact .inl (.refl s)
    | some p =>
      by_cases hpm : p ∈ s.m_block_index
      swap
      · exact .inl (by simp only [hpm]; exact .refl s)
      rcases Bool.eq_false_or_eq_true (s.index p).nStatus.failed with hpf | hpf
      · exact .inl (by simp only [hpm, hpf]; exact .refl s)
      cases context with
      | error e => exact .inl (by simp only [hpm, hpf]; exact .refl s)
      | ok _ =>
        -- no block of these runs is valid up to its scripts
        have hs : (s.index p).isValid .scripts = false := by
          have := h.level_lt p hpm
          simp only [BlockEntry.isValid, hpf, Bool.false_eq_true, if_false, decide_eq_false_iff_not]
          omega
        simp only [hpm, hpf, hs, not_true, if_false, Bool.false_eq_true]
        cases hf : failedAncestor T s p with
        | none =>
          refine .inr ⟨hb, rfl, fun q hq => ?_⟩
          obtain rfl : p = q := Option.some.inj hq
          exact ⟨hpm, fun a ha =>
            h.failedValid_of_not_mem hpm hpf (failedAncestor_eq_none.mp hf) ha⟩
        | some f => exact .inl (Quiet.foldl setFailedChild_quiet _ s)

theorem acceptBlockHeader_inv (h : HeaderInv T s) (check context : Except BlockInvalid Unit) :
    HeaderInv T (acceptBlockHeader T s b check context).2 := by
  rcases acceptBlockHeader_cases (b := b) h check context with hq | ⟨hb, he, hp⟩
  · exact hq.headerInv h
  · rw [he]
    exact addToBlockIndex_inv h hb fun p hbp =>
      ⟨(hp p hbp).1, (hp p hbp).2 p (self_mem_path p)⟩

theorem setFailedValid_inv (h : HeaderInv T s)
    (hb : b ∈ s'.m_failed_blocks ∨ ∀ d ∈ s.m_block_index, T.parent d ≠ some b)
    (hk : s'.m_block_index = s.m_block_index) (hf : s.m_failed_blocks ⊆ s'.m_failed_blocks)
    (hi : s'.index = (s.setFailedValid b).index) : HeaderInv T s' := by
  refine ⟨?_, fun c hc hcf => ?_, fun c hc => ?_⟩
  · rw [hk]; exact h.parent_mem
  · rw [hk] at hc ⊢
    rcases eq_or_ne c b with rfl | hn
    · exact hb
    · rw [ChainState.failedValid, hi, ChainState.setFailedValid, s.modify_index_of_ne _ hn] at hcf
      exact (h.failed_mem c hc hcf).imp_left fun hm => hf hm
  · rw [hk] at hc
    have := h.level_lt c hc
    rw [hi, ChainState.setFailedValid]
    rcases eq_or_ne c b with rfl | hn
    · rwa [s.modify_index_self]
    · rwa [s.modify_index_of_ne _ hn]

theorem acceptBlock_inv (h : HeaderInv T s) (check context : Except BlockInvalid Unit)
    (block : BlockArrival)
    (hc : ∀ e, block.check = .error e → e.result ≠ .mutated →
      ∀ d ∈ s.m_block_index, T.parent d ≠ some b) :
    HeaderInv T (acceptBlock T s b check context block).2 := by
  have h₁ := acceptBlockHeader_inv (b := b) h check context
  -- the only block the header can add is `b`, which is no child of itself
  have hn : ∀ d ∈ (acceptBlockHeader T s b check context).2.m_block_index,
      T.parent d = some b → d ∈ s.m_block_index := by
    intro d hd hdb
    rcases acceptBlockHeader_cases (b := b) h check context with hq | ⟨hb, he, -⟩
    · rwa [hq.keys] at hd
    · rw [he, addToBlockIndex_keys hb, mem_append, mem_singleton] at hd
      exact hd.resolve_right (ne_of_parent hdb)
  unfold acceptBlock
  cases hr : acceptBlockHeader T s b check context with
  | mk r s₁ =>
    rw [hr] at h₁ hn
    cases r with
    | error e => exact h₁
    | ok _ =>
      dsimp only
      split_ifs
      · exact h₁
      cases hch : block.check with
      | error e =>
        dsimp only
        split_ifs with hm
        · exact setFailedValid_inv h₁ (.inr fun d hd hdb => hc e hch hm d (hn d hd hdb) hdb)
            rfl (fun _ hx => hx) rfl
        · exact h₁
      | ok _ =>
        cases block.saved with
        | none => exact h₁
        | some nFile => exact (receivedBlockTransactions_quiet s₁ b block.nTx nFile).headerInv h₁

theorem invalidBlockFound_inv (h : HeaderInv T s) (state : BlockInvalid) :
    HeaderInv T (invalidBlockFound T s b state) := by
  unfold invalidBlockFound
  split_ifs
  · exact (invalidChainFound_quiet _ b).headerInv
      (setFailedValid_inv h (.inl (Finset.mem_insert_self b _)) rfl (Finset.subset_insert b _) rfl)
  · exact h

theorem HeaderInv.run (h : HeaderInv T s) {c : Call ι} (hc : NoChildRejected T s c) :
    HeaderInv T (c.run T s) := by
  cases c with
  | acceptBlockHeader b check context => exact acceptBlockHeader_inv h check context
  | acceptBlock b check context block =>
    exact acceptBlock_inv h check context block (hc b check context block rfl)
  | invalidBlockFound b state => exact invalidBlockFound_inv h state

omit [LinearOrder ι] in
theorem genesis_inv (T : BlockTree ι) : HeaderInv T (.genesis T) := by
  refine ⟨fun b hb p hp => ?_, fun b _ hf => ?_, fun b _ => ?_⟩
  · rw [mem_singleton.mp hb, T.parent_genesis] at hp; cases hp
  · simp [ChainState.genesis] at hf
  · simp [ChainState.genesis, BlockValidity.level]

theorem Reachable.headerInv (h : Reachable T (NoChildRejected T) s) : HeaderInv T s := by
  induction h with
  | genesis => exact genesis_inv T
  | call _ hc _ ih => exact ih.run hc

/-- In runs whose calls reject the body of no block that has a child, a header that is accepted as
a new entry has no ancestor marked as failed. -/
theorem Reachable.no_failedValid_ancestor (h : Reachable T (NoChildRejected T) s)
    {check context : Except BlockInvalid Unit}
    (hok : acceptBlockHeader T s b check context = (.ok (), s')) (hold : b ∉ s.m_block_index)
    (hnew : b ∈ s'.m_block_index) (ha : a ∈ T.path b) (hab : a ≠ b) :
    (s'.index a).nStatus.failedValid = false := by
  have hi := h.headerInv
  have hs : s' = (acceptBlockHeader T s b check context).2 := by rw [hok]
  obtain ⟨p, hb, hap⟩ := mem_path_parent ha hab
  rcases acceptBlockHeader_cases (b := b) hi check context with hq | ⟨-, he, hp⟩
  · rw [hs, hq.keys] at hnew; exact absurd hnew hold
  · rw [hs, he, addToBlockIndex_index hold, update_of_ne hab]
    exact (hp p hb).2 a hap

def chainOfFour : BlockTree (Fin 4) where
  parent b := match b with
    | 0 => none
    | 1 => some 0
    | 2 => some 1
    | 3 => some 2
  height b := b
  height_parent := by decide
  nChainWork b := b + 1
  nChainWork_parent := by decide
  hashGenesisBlock := 0
  parent_genesis := rfl
  nMinimumChainWork := 0

def afterOne : ChainState (Fin 4) :=
  Call.run chainOfFour (.genesis chainOfFour) (.acceptBlockHeader 1 (.ok ()) (.ok ()))

theorem afterOne_reachable {cond : ChainState (Fin 4) → Call (Fin 4) → Prop}
    (h : ∀ b check context, cond (.genesis chainOfFour) (.acceptBlockHeader b check context)) :
    Reachable chainOfFour cond afterOne :=
  .call .genesis (h _ _ _) nofun

/-- The header of block 2 is accepted on top of block 1, which is not marked. -/
theorem Reachable.no_failedValid_ancestor_two :
    acceptBlockHeader chainOfFour afterOne 2 (.ok ()) (.ok ()) =
        (.ok (), addToBlockIndex chainOfFour afterOne 2) ∧
      ((addToBlockIndex chainOfFour afterOne 2).index 1).nStatus.failedValid = false := by
  have ho : acceptBlockHeader chainOfFour afterOne 2 (.ok ()) (.ok ()) =
      (.ok (), addToBlockIndex chainOfFour afterOne 2) := Prod.ext rfl rfl
  exact ⟨ho, Reachable.no_failedValid_ancestor (afterOne_reachable (by simp [NoChildRejected]))
    ho (by decide) (by decide) (by decide) (by decide)⟩

/-- The body of block 1 violates a consensus rule after the headers of blocks 1 and 2 were
accepted. -/
def afterBadBody : ChainState (Fin 4) :=
  Call.run chainOfFour (Call.run chainOfFour afterOne (.acceptBlockHeader 2 (.ok ()) (.ok ())))
    (.acceptBlock 1 (.ok ()) (.ok ()) ⟨true, 1, .error ⟨.consensus, "bad-cb-missing"⟩, none⟩)

/-- Block 1 is then marked, but the header of block 3 on top of block 2 is still accepted. -/
theorem accepted_on_failedValid_ancestor : Reachable chainOfFour (fun _ _ => True) afterBadBody ∧
      acceptBlockHeader chainOfFour afterBadBody 3 (.ok ()) (.ok ()) =
        (.ok (), addToBlockIndex chainOfFour afterBadBody 3) ∧
      3 ∉ afterBadBody.m_block_index ∧
      3 ∈ (addToBlockIndex chainOfFour afterBadBody 3).m_block_index ∧ 1 ∈ chainOfFour.path 3 ∧
      ((addToBlockIndex chainOfFour afterBadBody 3).index 1).nStatus.failedValid = true := by
  refine ⟨?_, Prod.ext rfl rfl, by decide, by decide, by decide, by decide⟩
  exact .call (.call (afterOne_reachable fun _ _ _ => trivial) trivial nofun) trivial nofun

end Palladium.Validation
