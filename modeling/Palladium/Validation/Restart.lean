import Palladium.Validation.LoadBlockIndex

/-! # The block index after a restart

All entries are written to the database, read back into an empty index, and the old tip is made
active.
-/

namespace Palladium.Validation
open List Option

/-- `SetTip` of an empty chain fills it from the tip downwards. -/
def NodeIndex.setTip (s : NodeIndex) (pindex : Uint256) : NodeIndex :=
  { s with vChain := (s.path pindex).reverse }

open NodeIndex

/-- The blocks erased from the front of the sorted set are those worse than the tip. Nothing if the
assertion that one is left fails. -/
def pruneBlockIndexCandidates (s : NodeIndex) : Option NodeIndex :=
  let candidates := s.setBlockIndexCandidates.filter fun b => !s.worseThanTip b
  if candidates = ∅ then none else some { s with setBlockIndexCandidates := candidates }

def NodeIndex.empty (address : Uint256 → ℕ) (fHavePruned : Bool) : NodeIndex :=
  { address, fHavePruned }

/-- All entries are written and read back into an empty index, and the old tip is made active. -/
def restart (getHash : BlockHeader → Uint256) (params : Params) (cursor : List Uint256)
    (address : Uint256 → ℕ) (s : NodeIndex) : Option NodeIndex := do
  let db := writeBatchSync s (fun _ => none) s.m_block_index
  let loaded ← loadBlockIndexGuts getHash params db cursor (.empty address s.fHavePruned)
  let tip ← s.tip
  pruneBlockIndexCandidates ((loadBlockIndex loaded).setTip tip)

/-- The entries agree in what a restart is to keep; descendants of failed blocks may be
`BLOCK_FAILED_CHILD` now. -/
structure SameEntry (s s' : NodeIndex) (b : Uint256) : Prop where
  pprev : (s'.index b).pprev = (s.index b).pprev
  nHeight : (s'.index b).nHeight = (s.index b).nHeight
  nTx : (s'.index b).nTx = (s.index b).nTx
  nChainTx : (s'.index b).nChainTx = (s.index b).nChainTx
  nChainWork : (s'.index b).nChainWork = (s.index b).nChainWork
  nTimeMax : (s'.index b).nTimeMax = (s.index b).nTimeMax
  pskip : (s'.index b).pskip = (s.index b).pskip
  optWitness : (s'.index b).optWitness = (s.index b).optWitness
  nStatus : (s'.index b).nStatus = (s.index b).nStatus ∨
    (∃ a ∈ (s.path b).tail, (s.index a).nStatus.failed = true) ∧
      (s'.index b).nStatus = { (s.index b).nStatus with failedChild := true }

structure SameBlocks (s s' : NodeIndex) : Prop where
  keys : s'.m_block_index.Perm s.m_block_index
  entry : ∀ b ∈ s.m_block_index, SameEntry s s' b

section Restarted
variable {getHash : BlockHeader → Uint256} {params : Params} {s s' : NodeIndex} {a b p : Uint256}

/-- The blocks, the active chain and the two sets after a restart. -/
structure Restarted (s s' : NodeIndex) : Prop where
  keys : s'.m_block_index.Perm s.m_block_index
  index : ∀ b ∈ s.m_block_index, s'.index b = s.restored b
  fHavePruned : s'.fHavePruned = s.fHavePruned
  vChain : s'.vChain = s.vChain
  candidates : ∀ b, b ∈ s'.setBlockIndexCandidates ↔ (b ∈ s.m_block_index ∧
    (s.restored b).isValid = true ∧
      ((s.index b).haveTxsDownloaded = true ∨ (s.index b).pprev = none)) ∧ s'.worseThanTip b = false
  unlinked : ∀ p b, (p, b) ∈ s'.m_blocks_unlinked ↔ b ∈ s.m_block_index ∧
    (s.index b).pprev = some p ∧ 0 < (s.index b).nTx ∧ (s.index p).haveTxsDownloaded = false

variable (st : BlockStatus) (f : Bool)

@[simp] theorem inheritFailed_valid : (st.inheritFailed f).valid = st.valid := by
  unfold BlockStatus.inheritFailed; split <;> rfl

@[simp] theorem inheritFailed_haveData : (st.inheritFailed f).haveData = st.haveData := by
  unfold BlockStatus.inheritFailed; split <;> rfl

@[simp] theorem inheritFailed_haveUndo : (st.inheritFailed f).haveUndo = st.haveUndo := by
  unfold BlockStatus.inheritFailed; split <;> rfl

@[simp] theorem inheritFailed_failedValid : (st.inheritFailed f).failedValid = st.failedValid := by
  unfold BlockStatus.inheritFailed; split <;> rfl

namespace Restarted
variable (h : Restarted s s')

include h

theorem path_eq (hl : Linked s) (hb : b ∈ s.m_block_index) : s'.path b = s.path b :=
  path_eq_of_pointers hl (fun b hb => by rw [h.index b hb]; rfl)
    (fun b hb => by rw [h.index b hb]; rfl) hb

theorem first_eq (hl : Linked s) (hb : b ∈ s.m_block_index) {q : IndexEntry → Bool}
    (hq : ∀ a, q (s.restored a) = q (s.index a)) : s'.first q b = s.first q b := by
  unfold first
  rw [h.path_eq hl hb]
  refine find?_congr fun a ha => ?_
  rw [h.index a (hl.mem_of_mem_path hb (mem_reverse.mp ha)), hq]

end Restarted

theorem tip_eq (hc : ∀ b ∈ s.m_block_index, BlockChecks params s b) {tip : Uint256}
    (ht : tip ∈ s.m_block_index) (hch : s.vChain = (s.path tip).reverse) : s.tip = some tip := by
  obtain ⟨l, hl⟩ : ∃ l, s.path tip = tip :: l := by
    cases hp : (s.index tip).pprev with
    | none => exact ⟨_, path_root hp⟩
    | some p => exact ⟨_, (linked_of_checks hc).path_child ht hp⟩
  rw [NodeIndex.tip, hch, getLast?_reverse, hl]
  rfl

section Load
variable (hm : Maintained getHash params s) (hc : ∀ b ∈ s.m_block_index, BlockChecks params s b)

include hm hc

variable {cursor : List Uint256}

theorem exists_loading (hcu : cursor.Perm s.m_block_index) (address : Uint256 → ℕ) :
    ∃ loaded order, loadBlockIndexGuts getHash params
        (writeBatchSync s (fun _ => none) s.m_block_index) cursor (.empty address s.fHavePruned) =
          some loaded ∧
      loaded.m_block_index.Perm s.m_block_index ∧ loaded.fHavePruned = s.fHavePruned ∧
      loaded.address = address ∧ order.Perm s.m_block_index ∧ Loading s loaded (loadBlockIndex loaded) order := by
  have hi : Read (.empty address s.fHavePruned) s (.empty address s.fHavePruned) [] :=
    ⟨rfl, nodup_nil, nofun, nofun, rfl⟩
  obtain ⟨loaded, hg, hr⟩ := hi.run hm (linked_of_checks hc)
    (by simpa using hcu.nodup_iff.mpr hm.nodup) fun b hb => hcu.mem_iff.mp hb
  rw [nil_append] at hr
  have hk : loaded.m_block_index.Perm s.m_block_index :=
    (perm_ext_iff_of_nodup hr.nodup hm.nodup).mpr fun b =>
      ⟨hr.subset b, fun hb => hr.done_mem b (hcu.mem_iff.mpr hb)⟩
  have hs : ∀ b ∈ s.m_block_index, loaded.index b = (s.index b).stored := by
    intro b hb
    rw [hr.index]
    exact if_pos (hcu.mem_iff.mpr hb)
  have hst : Loading s loaded loaded [] := by
    refine ⟨rfl, rfl, rfl, by simp, fun b => ?_, fun p b => ?_⟩ <;> rw [hr.eq_init] <;>
      simp [empty]
  have hp : (vSortedByHeight loaded).Perm s.m_block_index :=
    (vSortedByHeight_perm loaded).trans hk
  have hso : (vSortedByHeight loaded).Pairwise fun a b =>
      (s.index a).nHeight ≤ (s.index b).nHeight := by
    refine (vSortedByHeight_sorted loaded).imp_of_mem fun {a b} ha hb hab => ?_
    rw [hs a (hp.mem_iff.mp ha), hs b (hp.mem_iff.mp hb)] at hab
    exact hab
  refine ⟨loaded, _, hg, hk, by rw [hr.eq_init]; rfl, by rw [hr.eq_init]; rfl, hp, ?_⟩
  exact hst.run hm hc hs hp hso

theorem exists_restarted (hcu : cursor.Perm s.m_block_index) (address : Uint256 → ℕ) :
    ∃ s', Restarted s s' ∧ s'.address = address ∧ restart getHash params cursor address s =
      if s'.setBlockIndexCandidates = ∅ then none else some s' := by
  have hl := linked_of_checks hc
  obtain ⟨tip, htp, hch⟩ := hm.active
  have ht := tip_eq hc htp hch
  obtain ⟨loaded, order, hg, hk, hpr, had, hpe, hpa⟩ :=
    exists_loading hm hc hcu address
  have hi : ∀ b ∈ s.m_block_index, (loadBlockIndex loaded).index b = s.restored b := by
    intro b hb
    rw [hpa.index]
    exact if_pos (hpe.mem_iff.mpr hb)
  obtain ⟨s₁, hs₁⟩ : ∃ s₁, s₁ = (loadBlockIndex loaded).setTip tip := ⟨_, rfl⟩
  have hv : s₁.vChain = s.vChain := by
    rw [hs₁, hch, setTip]
    exact congrArg List.reverse (path_eq_of_pointers hl
      (fun b hb => by rw [hi b hb]; rfl) (fun b hb => by rw [hi b hb]; rfl) htp)
  have hca : ∀ b, b ∈ s₁.setBlockIndexCandidates ↔ b ∈ s.m_block_index ∧
      (s.restored b).isValid = true ∧
        ((s.index b).haveTxsDownloaded = true ∨ (s.index b).pprev = none) := by
    intro b
    rw [hs₁, setTip, hpa.candidates, hpe.mem_iff]
  refine ⟨{ s₁ with setBlockIndexCandidates :=
    s₁.setBlockIndexCandidates.filter fun b => !s₁.worseThanTip b }, ?_, ?_, ?_⟩
  · constructor
    · rw [hs₁]
      exact (List.Perm.of_eq hpa.keys).trans hk
    · rw [hs₁]
      exact hi
    · rw [hs₁]
      exact hpa.fHavePruned.trans hpr
    · exact hv
    · intro b
      rw [Finset.mem_filter, hca, Bool.not_eq_true', worseThanTip, worseThanTip]
      rfl
    · intro p b
      rw [hs₁, setTip, hpa.unlinked, hpe.mem_iff]
  · rw [hs₁]
    exact hpa.address.trans had
  · unfold restart
    dsimp only
    rw [hg, ht, bind_eq_bind, bind_some, bind_eq_bind, bind_some, ← hs₁]
    rfl

end Load

/-- No block that was received and then pruned has an ancestor that was never received. -/
def NoPrunedOrphan (s : NodeIndex) : Prop :=
  ∀ b ∈ s.m_block_index, 0 < (s.index b).nTx → (s.index b).nStatus.haveData = false →
    ∀ a ∈ s.path b, 0 < (s.index a).nTx

/-- A block without a failed or missing ancestor is at least as good as the tip. Entries that were
loaded have equal `nSequenceId`, so among equal work the addresses decide. -/
def HasCandidate (s : NodeIndex) (address : Uint256 → ℕ) : Prop :=
  ∃ b ∈ s.m_block_index,
    (∀ a ∈ s.path b, (s.index a).nStatus.failed = false ∧ 0 < (s.index a).nTx) ∧
    ∀ tip ∈ s.tip, (s.index tip).nChainWork < (s.index b).nChainWork ∨
      (s.index tip).nChainWork = (s.index b).nChainWork ∧ address b ≤ address tip

theorem Restarted.sameBlocks (h : Restarted s s') (hl : Linked s) : SameBlocks s s' where
  keys := h.keys
  entry b hb := by
    constructor <;> rw [h.index b hb] <;> try rfl
    simp only [restored, BlockStatus.inheritFailed]
    split
    next hco =>
      refine .inr ⟨?_, rfl⟩
      simp only [Bool.and_eq_true, Bool.not_eq_true', anyFailed, List.any_eq_true]
        at hco
      obtain ⟨hs, a, ha, hf⟩ := hco
      cases hp : (s.index b).pprev with
      | none =>
        rw [path_root hp, mem_singleton] at ha
        rw [ha, hs] at hf
        cases hf
      | some p =>
        rw [hl.path_child hb hp] at ha ⊢
        rcases mem_cons.mp ha with rfl | ha
        · rw [hs] at hf
          cases hf
        · exact ⟨a, ha, hf⟩
    next => exact .inl rfl

theorem anyFailed_of_first_invalid (hc : ∀ b ∈ s.m_block_index, BlockChecks params s b)
    (hb : b ∈ s.m_block_index) (hn : s.first IndexEntry.isInvalid b = none) :
    s.anyFailed b = false := by
  have hl := linked_of_checks hc
  simp only [anyFailed, List.any_eq_false, Bool.not_eq_true]
  intro a ha
  refine (hc a (hl.mem_of_mem_path hb ha)).not_failed (first_eq_none.mpr fun c hc' => ?_)
  exact first_eq_none.mp hn c (hl.path_subset hb ha c hc')

theorem foundInUnlinked_iff : s.foundInUnlinked b ↔
      ∃ p, (s.index b).pprev = some p ∧ (p, b) ∈ s.m_blocks_unlinked := by
  simp only [foundInUnlinked, List.any_eq_true, Bool.and_eq_true, decide_eq_true_eq]
  constructor
  · rintro ⟨⟨p, c⟩, hi, hp, rfl⟩
    exact ⟨p, hp, hi⟩
  · rintro ⟨p, hp, hi⟩
    exact ⟨(p, b), hi, hp, rfl⟩

section Checks
variable (h : Restarted s s') (hc : ∀ b ∈ s.m_block_index, BlockChecks params s b)
  (hb : b ∈ s.m_block_index)

include h hc hb

theorem Restarted.first_isMissing :
    s'.first IndexEntry.isMissing b = s.first IndexEntry.isMissing b :=
  h.first_eq (linked_of_checks hc) hb fun a => by simp [IndexEntry.isMissing, restored]

theorem Restarted.first_isNeverProcessed :
    s'.first IndexEntry.isNeverProcessed b = s.first IndexEntry.isNeverProcessed b :=
  h.first_eq (linked_of_checks hc) hb fun _ => rfl

theorem Restarted.first_isInvalid :
    s'.first IndexEntry.isInvalid b = s.first IndexEntry.isInvalid b :=
  h.first_eq (linked_of_checks hc) hb fun a => by simp [IndexEntry.isInvalid, restored]

theorem Restarted.first_isBelow (level : BlockValidity) :
    s'.first (·.isBelow level) b = s.first (·.isBelow level) b :=
  h.first_eq (linked_of_checks hc) hb fun a => by
    simp [IndexEntry.isBelow, restored, IndexEntry.stored, IndexEntry.read]

theorem Restarted.entryChecks (hm : Maintained getHash params s) : EntryChecks params s' b := by
  have hb' := hc b hb
  have hi := h.index b hb
  have hv : (s'.index b).nStatus.valid = (s.index b).nStatus.valid := by
    simp [hi, restored]
  have hd : (s'.index b).nStatus.haveData = (s.index b).nStatus.haveData := by
    simp [hi, restored]
  have hu : (s'.index b).nStatus.haveUndo = (s.index b).nStatus.haveUndo := by
    simp [hi, restored]
  have hpp : (s'.index b).pprev = (s.index b).pprev := by rw [hi]; rfl
  have htx : (s'.index b).nTx = (s.index b).nTx := by rw [hi]; rfl
  have ht : (s'.index b).haveTxsDownloaded = (s.index b).haveTxsDownloaded := by rw [hi]; rfl
  have hh : (s'.index b).nHeight = (s.index b).nHeight := by rw [hi]; rfl
  have hn := h.first_isNeverProcessed hc hb
  have hbe := h.first_isBelow hc hb
  constructor
  case genesis => rw [hpp, h.vChain, hh]; exact hb'.genesis
  case parent =>
    rw [hpp, Option.all_eq_true]
    intro p hp
    obtain ⟨hpm, hph⟩ := hb'.parent_eq hp
    have : (s'.index p).nHeight = (s.index p).nHeight := by rw [h.index p hpm]; rfl
    simp only [decide_eq_true_eq]
    exact ⟨h.keys.mem_iff.mpr hpm, by rw [hh, this, hph]⟩
  case sequence =>
    rw [hi]
    exact fun _ => le_rfl
  case not_pruned =>
    rw [h.fHavePruned, hd, htx, h.first_isMissing hc hb, hn]
    exact hb'.not_pruned
  case pruned => rw [h.fHavePruned, hd, htx]; exact hb'.pruned
  case undo => rw [hu, hd]; exact hb'.undo
  case transactions => rw [hv, htx]; exact hb'.transactions
  case processed => rw [hn, ht]; exact hb'.processed
  case transactions_valid => rw [hbe, ht]; exact hb'.transactions_valid
  case work =>
    rw [hpp, Option.all_eq_true]
    intro p hp
    have hw := hb'.work
    rw [hp] at hw
    rw [hi, h.index p (hb'.parent_eq hp).1]
    exact hw
  case skip =>
    rw [hh]
    refine hb'.skip.imp_right fun hs => ?_
    rw [hi, Option.any_eq_true]
    obtain ⟨k, hk, hl⟩ := (Option.any_eq_true ..).mp hs
    refine ⟨k, hk, ?_⟩
    rw [h.index k (hm.pskip_lt (linked_of_checks hc) hb hk).1]
    exact hl
  case tree => rw [hbe]; exact hb'.tree
  case chain => rw [hv, hbe]; exact hb'.chain
  case scripts => rw [hv, hbe]; exact hb'.scripts
  case not_failed =>
    rw [h.first_isInvalid hc hb, hi, restored_failed]
    exact anyFailed_of_first_invalid hc hb

omit h in
theorem restored_isValid_iff : (s.restored b).isValid = true ∧
      ((s.index b).haveTxsDownloaded = true ∨ (s.index b).pprev = none) ↔
    ∀ a ∈ s.path b, (s.index a).nStatus.failed = false ∧ 0 < (s.index a).nTx := by
  have hv : (s.restored b).isValid = true ↔
      (∀ a ∈ s.path b, (s.index a).nStatus.failed = false) ∧ 0 < (s.index b).nTx := by
    rw [← (hc b hb).transactions, BlockEntry.isValid, restored_failed]
    simp [anyFailed, restored]
  have hr : (s.index b).pprev = none → 0 < (s.index b).nTx → (s.index b).haveTxsDownloaded = true :=
    fun hp => (haveTxsDownloaded_root hc hb hp).mpr
  have ht := (hc b hb).haveTxsDownloaded_iff
  rw [hv, forall₂_and, ← ht]
  constructor
  · rintro ⟨⟨hf, hp⟩, hd | hro⟩
    · exact ⟨hf, hd⟩
    · exact ⟨hf, hr hro hp⟩
  · rintro ⟨hf, hd⟩
    exact ⟨⟨hf, ht.mp hd b (self_mem_path s b)⟩, .inl hd⟩

omit hc in
theorem Restarted.worseThanTip_iff {tip : Uint256} (ht : s.tip = some tip)
    (htm : tip ∈ s.m_block_index) : s'.worseThanTip b = false ↔
      (s.index tip).nChainWork < (s.index b).nChainWork ∨
        (s.index tip).nChainWork = (s.index b).nChainWork ∧ s'.address b ≤ s'.address tip := by
  have ht' : s'.tip = some tip := by rw [NodeIndex.tip, h.vChain, ← ht]; rfl
  have hw : ∀ a ∈ s.m_block_index, (s'.index a).nChainWork = (s.index a).nChainWork ∧
      (s'.index a).nSequenceId = 0 := fun a ha => by rw [h.index a ha]; exact ⟨rfl, rfl⟩
  simp only [worseThanTip, ht', any_some, NodeIndex.workLess, hw b hb, hw tip htm, gt_iff_lt,
    lt_irrefl, if_false]
  split_ifs with hl hg
  · simp [hl]
  · simp only [false_iff, not_or, not_and]
    exact ⟨hl, fun he => absurd hg (by rw [he]; exact BitVec.lt_irrefl _)⟩
  · have he : (s.index tip).nChainWork = (s.index b).nChainWork := by bv_omega
    simp [he, BitVec.lt_irrefl]

theorem Restarted.mem_candidates (hw : s'.worseThanTip b = false)
    (hn : s.first IndexEntry.isNeverProcessed b = none)
    (hv : s.first IndexEntry.isInvalid b = none) : b ∈ s'.setBlockIndexCandidates := by
  have ht := (hc b hb).processed.mp hn
  refine (h.candidates b).mpr ⟨⟨hb, ?_, .inl ht⟩, hw⟩
  have hp := (hc b hb).haveTxsDownloaded_iff.mp ht b (self_mem_path s b)
  unfold BlockEntry.isValid
  rw [restored_failed, anyFailed_of_first_invalid hc hb hv]
  simpa [restored] using (hc b hb).transactions.mpr hp

theorem Restarted.foundInUnlinked_iff : s'.foundInUnlinked b ↔
    0 < (s.index b).nTx ∧ (s.index b).haveTxsDownloaded = false := by
  rw [Validation.foundInUnlinked_iff]
  simp only [h.unlinked, h.index b hb]
  show (∃ p, (s.index b).pprev = some p ∧ b ∈ s.m_block_index ∧ (s.index b).pprev = some p ∧
    0 < (s.index b).nTx ∧ (s.index p).haveTxsDownloaded = false) ↔ _
  cases hp : (s.index b).pprev with
  | none =>
    have := haveTxsDownloaded_root hc hb hp
    simp only [reduceCtorEq, false_and, exists_false, false_iff, not_and, Bool.not_eq_false]
    exact this.mpr
  | some p =>
    have := haveTxsDownloaded_child hc hb hp
    rw [Bool.eq_false_iff, ne_eq, this]
    constructor
    · rintro ⟨q, hq, -, -, hpo, hn⟩
      cases hq
      exact ⟨hpo, fun ha => by simp [ha.2] at hn⟩
    · rintro ⟨hpo, hn⟩
      exact ⟨p, rfl, hb, rfl, hpo, Bool.eq_false_iff.mpr fun ht => hn ⟨hpo, ht⟩⟩

theorem Restarted.setChecks (hg : NoPrunedOrphan s) : SetChecks s' b := by
  have hb' := hc b hb
  have hi := h.index b hb
  have hda : (s'.index b).nStatus.haveData = (s.index b).nStatus.haveData := by
    simp [hi, restored]
  have hp : (s'.index b).pprev = (s.index b).pprev := by rw [hi]; rfl
  have hmi := h.first_isMissing hc hb
  have hn := h.first_isNeverProcessed hc hb
  have hin := h.first_isInvalid hc hb
  constructor
  case candidate =>
    rw [hn, hin]
    rintro ⟨hw, hno, hv, -⟩
    exact h.mem_candidates hc hb hw hno hv
  case not_candidate =>
    rw [hn, h.candidates]
    rintro (hw | hs) ⟨⟨-, hva, ht⟩, hnt⟩
    · rw [hw] at hnt
      cases hnt
    · rcases ht with ht | hr
      · exact hs (hb'.processed.mpr ht)
      · -- the genesis block, whose transactions are known
        refine hs (hb'.processed.mpr ((haveTxsDownloaded_root hc hb hr).mpr
          (hb'.transactions.mp ?_)))
        unfold BlockEntry.isValid at hva
        split at hva
        · cases hva
        · simpa [restored] using hva
  case unlinked =>
    rw [hda, hn, h.foundInUnlinked_iff hc hb]
    rintro ⟨-, hd, hs, -⟩
    exact ⟨hb'.nTx_pos hd, Bool.eq_false_iff.mpr fun ht => hs (hb'.processed.mpr ht)⟩
  case have_data =>
    rw [hda, Bool.eq_false_iff (b := s'.foundInUnlinked b), ne_eq, h.foundInUnlinked_iff hc hb]
    rintro hna ⟨hpo, hnt⟩
    rw [hb'.haveTxsDownloaded_iff.mpr (hg b hb hpo hna)] at hnt
    cases hnt
  case missing =>
    rw [hmi, Bool.eq_false_iff, ne_eq, h.foundInUnlinked_iff hc hb]
    rintro hno ⟨-, hnt⟩
    have ht := hb'.haveTxsDownloaded_iff.mpr fun a ha =>
      (hc a ((linked_of_checks hc).mem_of_mem_path hb ha)).nTx_pos
        (by simpa [IndexEntry.isMissing] using first_eq_none.mp hno a ha)
    rw [ht] at hnt
    cases hnt
  case pruned_branch =>
    rw [hp, hda, hn, hmi, h.fHavePruned, hin]
    intro hco
    refine ⟨(hb'.pruned_branch hco).1, ?_⟩
    rintro ⟨hw, hnt, hv⟩
    exact absurd (h.mem_candidates hc hb hw hco.2.2.1 hv) hnt

end Checks

theorem Restarted.candidates_nonempty_iff (h : Restarted s s')
    (hc : ∀ b ∈ s.m_block_index, BlockChecks params s b) {tip : Uint256} (ht : s.tip = some tip)
    (htm : tip ∈ s.m_block_index) :
    s'.setBlockIndexCandidates ≠ ∅ ↔ HasCandidate s s'.address := by
  rw [← Finset.nonempty_iff_ne_empty]
  refine exists_congr fun b => ?_
  rw [h.candidates, and_assoc]
  refine and_congr_right fun hb => ?_
  rw [restored_isValid_iff hc hb, h.worseThanTip_iff hb ht htm, ht]
  simp

/-- After a restart the blocks are the same and the conditions of `CheckBlockIndex` hold again if
and only if no pruned block has an ancestor that was never received and a candidate is left. -/
theorem restart_checkBlockIndex_iff (hm : Maintained getHash params s)
    (hcheck : CheckBlockIndex params s) {cursor : List Uint256}
    (hcursor : cursor.Perm s.m_block_index) (address : Uint256 → ℕ) :
    (∃ s', restart getHash params cursor address s = some s' ∧ SameBlocks s s' ∧
      CheckBlockIndex params s') ↔ NoPrunedOrphan s ∧ HasCandidate s address := by
  obtain ⟨tip, htm, hch⟩ := hm.active
  have hv : s.vChain ≠ [] := by
    rw [hch]
    simpa using ne_nil_of_mem (self_mem_path s tip)
  have hc : ∀ b ∈ s.m_block_index, BlockChecks params s b := by
    rwa [CheckBlockIndex, if_neg hv] at hcheck
  obtain ⟨s', h, rfl, hr⟩ := exists_restarted hm hc hcursor address
  have hv' : s'.vChain ≠ [] := by rwa [h.vChain]
  rw [hr, ← h.candidates_nonempty_iff hc (tip_eq hc htm hch) htm]
  constructor
  · rintro ⟨s'', hs'', -, hcheck'⟩
    split_ifs at hs'' with he
    cases hs''
    refine ⟨fun b hb hp hn => ?_, he⟩
    rw [CheckBlockIndex, if_neg hv'] at hcheck'
    rw [← (hc b hb).haveTxsDownloaded_iff]
    by_contra hnot
    -- the pass has put the block into `m_blocks_unlinked`
    have hf := (h.foundInUnlinked_iff hc hb).mpr ⟨hp, Bool.eq_false_iff.mpr hnot⟩
    rw [(hcheck' b (h.keys.mem_iff.mpr hb)).have_data] at hf
    · cases hf
    · rw [h.index b hb]
      simpa [restored, IndexEntry.stored, IndexEntry.read, IndexEntry.toDisk]
        using hn
  · rintro ⟨hg, hca⟩
    refine ⟨s', if_neg hca, h.sameBlocks (linked_of_checks hc), ?_⟩
    rw [CheckBlockIndex, if_neg hv']
    intro b hb
    have hb := h.keys.mem_iff.mp hb
    exact ⟨h.entryChecks hc hb hm, h.setChecks hc hb hg⟩

end Restarted

def nonceHash (block : BlockHeader) : Uint256 := BitVec.ofNat 256 (block.nNonce.toNat + 1)

def nonceParams : Params := { Network.regtest.consensus with hashGenesisBlock := 1 }

variable (pruned : Bool)

/-- Genesis block 1 is active, block 2 is only a header, and block 3 has arrived and may be pruned.
-/
def arrivedEarly : NodeIndex where
  m_block_index := [1, 2, 3]
  index b :=
    if b = 1 then
      { nStatus := { valid := .transactions, haveData := true }
        nTx := 1
        nChainTx := 1
        nChainWork := 2
        nBits := 0x207fffff }
    else if b = 2 then
      { nStatus := { valid := .tree }
        pprev := some 1
        pskip := some 1
        nHeight := 1
        nChainWork := 4
        nBits := 0x207fffff
        nNonce := 1 }
    else
      { nStatus := { valid := .transactions, haveData := !pruned }
        nTx := 1
        pprev := some 2
        pskip := some 1
        nHeight := 2
        nChainWork := 6
        nBits := 0x207fffff
        nNonce := 2 }
  address b := b.toNat
  setBlockIndexCandidates := {1}
  m_blocks_unlinked := if pruned then [] else [(2, 3)]
  vChain := [1]
  fHavePruned := true

theorem forall_arrivedEarly {pruned : Bool} {P : Uint256 → Prop} (h : P 1 ∧ P 2 ∧ P 3) :
    ∀ b ∈ (arrivedEarly pruned).m_block_index, P b := by
  simpa [arrivedEarly] using h

theorem maintained_arrivedEarly : Maintained nonceHash nonceParams (arrivedEarly pruned) where
  nodup := by cases pruned <;> decide +kernel
  hash := forall_arrivedEarly (by cases pruned <;> decide +kernel)
  hash_ne_zero := by cases pruned <;> decide +kernel
  proofOfWork := forall_arrivedEarly (by cases pruned <;> decide +kernel)
  nChainWork := forall_arrivedEarly (by cases pruned <;> decide +kernel)
  nTimeMax := forall_arrivedEarly (by cases pruned <;> decide +kernel)
  pskip := forall_arrivedEarly (by cases pruned <;> decide +kernel)
  nChainTx := forall_arrivedEarly (by cases pruned <;> decide +kernel)
  active := ⟨1, by cases pruned <;> decide +kernel⟩

theorem checkBlockIndex_arrivedEarly : CheckBlockIndex nonceParams (arrivedEarly pruned) := by
  cases pruned <;> decide +kernel

/-- Block 3 still has its data: the conditions hold after the restart. -/
theorem restart_checkBlockIndex_stored : Maintained nonceHash nonceParams (arrivedEarly false) ∧
      CheckBlockIndex nonceParams (arrivedEarly false) ∧
      ∃ s', restart nonceHash nonceParams [3, 1, 2] (fun b => b.toNat) (arrivedEarly false) =
          some s' ∧
        SameBlocks (arrivedEarly false) s' ∧ CheckBlockIndex nonceParams s' := by
  have hg : NoPrunedOrphan (arrivedEarly false) := forall_arrivedEarly (by simp [arrivedEarly])
  have hp : (arrivedEarly false).path 1 = [1] := path_root (by simp [arrivedEarly])
  have hca : HasCandidate (arrivedEarly false) fun b => b.toNat :=
    ⟨1, by simp [arrivedEarly], by rw [hp]; simp [arrivedEarly, BlockStatus.failed],
      by simp [arrivedEarly, NodeIndex.tip]⟩
  exact ⟨maintained_arrivedEarly false, checkBlockIndex_arrivedEarly false,
    (restart_checkBlockIndex_iff (maintained_arrivedEarly false)
      (checkBlockIndex_arrivedEarly false) (by decide +kernel) _).mpr ⟨hg, hca⟩⟩

/-- Block 3 was pruned before block 2 arrived. The conditions hold, but not after the restart. -/
theorem not_restart_checkBlockIndex_pruned : Maintained nonceHash nonceParams (arrivedEarly true) ∧
      CheckBlockIndex nonceParams (arrivedEarly true) ∧
      ∃ s', restart nonceHash nonceParams [1, 2, 3] (fun b => b.toNat) (arrivedEarly true) =
          some s' ∧
        ¬ CheckBlockIndex nonceParams s' := by
  have hr : (restart nonceHash nonceParams [1, 2, 3] (fun b => b.toNat) (arrivedEarly true)).any
      (fun s' => !decide (CheckBlockIndex nonceParams s')) = true := by decide +kernel
  obtain ⟨s', hs', hn⟩ := (Option.any_eq_true ..).mp hr
  exact ⟨maintained_arrivedEarly true, checkBlockIndex_arrivedEarly true, s', hs',
    by simpa using hn⟩

end Palladium.Validation
