import Palladium.Validation.CheckBody
import Palladium.Validation.HeaderAcceptance

/-! # Mutated blocks

Another list of transactions for the header of a valid block is reported as mutated and does not
count against the header.
-/

namespace Palladium
open CTransaction List MerkleTree Validation
section Strings
variable (hash256 : List UInt8 → Uint256)

def nodeStrings (leaves : List Uint256) : List (List UInt8) :=
  (List.range (Nat.clog 2 leaves.length)).flatMap fun k =>
    (pairs (levels (hashNodes hash256) k leaves)).map fun p => p.1.bytes ++ p.2.bytes

def CBlock.hashedStrings (block : CBlock) : List (List UInt8) :=
  block.vtx.map (·.serialize false) ++ block.vtx.map (·.serialize true) ++
    nodeStrings hash256 (block.vtx.map (·.hash)) ++
    nodeStrings hash256 (block.witnessLeaves hash256) ++
    [(blockWitnessMerkleRoot hash256 block).bytes ++
      (block.coinbaseIn.elim [] (·.scriptWitness)).headD []]

def CTransaction.IsBuilt (tx : CTransaction) : Prop :=
  tx.InRange ∧ tx.hash = hash256 (tx.serialize false)

instance (tx : CTransaction) : Decidable (tx.IsBuilt hash256) := inferInstanceAs (Decidable (_ ∧ _))

/-- Two blocks with one header, no collision among the strings hashed for them, and no transaction
of 64 bytes. -/
structure Rivals (block block' : CBlock) : Prop where
  hash : block'.hash = block.hash
  hashMerkleRoot : block'.hashMerkleRoot = block.hashMerkleRoot
  nBits : block'.nBits = block.nBits
  isBuilt : ∀ tx ∈ block.vtx ++ block'.vtx, tx.IsBuilt hash256
  injOn : Set.InjOn hash256 {s | s ∈ block.hashedStrings hash256 ++ block'.hashedStrings hash256}
  size_ne : ∀ tx ∈ block.vtx ++ block'.vtx, (tx.serialize false).length ≠ 64

end Strings

variable {hash256 : List UInt8 → Uint256} {ctx : BodyContext} {block block' : CBlock} {k : ℕ}
  {leaves leaves' : List Uint256} {S : Set (List UInt8)} {vtx : List CTransaction} {params : Params}

theorem mem_nodeStrings {q : Uint256 × Uint256} (hk : k < Nat.clog 2 leaves.length)
    (hq : q ∈ pairs (levels (hashNodes hash256) k leaves)) :
    q.1.bytes ++ q.2.bytes ∈ nodeStrings hash256 leaves :=
  mem_flatMap.mpr ⟨k, mem_range.mpr hk, mem_map_of_mem hq⟩

theorem collisionFree_nodes (hi : S.InjOn hash256) (hS : ∀ s ∈ nodeStrings hash256 leaves, s ∈ S)
    (hS' : ∀ s ∈ nodeStrings hash256 leaves', s ∈ S) {j : ℕ} (hj : j < Nat.clog 2 leaves.length)
    (hk : k < Nat.clog 2 leaves'.length) :
    CollisionFree (hashNodes hash256) (pairs (levels (hashNodes hash256) j leaves))
      (pairs (levels (hashNodes hash256) k leaves')) := by
  intro q hq q' hq' he
  have hb := hi (hS _ (mem_nodeStrings hj hq)) (hS' _ (mem_nodeStrings hk hq')) he
  exact (selfDelimiting_bytes.append selfDelimiting_bytes).injOn ⟨trivial, trivial⟩
    ⟨trivial, trivial⟩ hb

theorem leaves_eq_of_length (hi : S.InjOn hash256) (hS : ∀ s ∈ nodeStrings hash256 leaves, s ∈ S)
    (hS' : ∀ s ∈ nodeStrings hash256 leaves', s ∈ S) (hn : leaves ≠ [])
    (hl : leaves.length = leaves'.length)
    (hr : (computeMerkleRoot (hashNodes hash256) leaves).1 =
      (computeMerkleRoot (hashNodes hash256) leaves').1) : leaves = leaves' := by
  have hn' : leaves' ≠ [] := by
    rwa [← length_pos_iff, ← hl, length_pos_iff]
  have ht : levels (hashNodes hash256) (Nat.clog 2 leaves.length) leaves =
      levels (hashNodes hash256) (Nat.clog 2 leaves.length) leaves' := by
    rw [levels_clog_eq hn]
    rw [hl, levels_clog_eq hn']
    exact congrArg (fun a => [a]) hr
  exact eq_of_levels_eq_of_length
    (fun k hk => collisionFree_nodes hi hS hS' hk (hl ▸ hk)) hl ht

theorem map_withoutWitness_eq (hi : S.InjOn hash256) {vtx' : List CTransaction}
    (hb : ∀ tx ∈ vtx ++ vtx', tx.IsBuilt hash256 ∧ tx.serialize false ∈ S)
    (hh : vtx.map (·.hash) = vtx'.map (·.hash)) :
    vtx.map withoutWitness = vtx'.map withoutWitness := by
  refine map_eq_map_of_imp (fun tx ht tx' ht' he => ?_) hh
  obtain ⟨⟨hr, hash⟩, hm⟩ := hb tx (mem_append_left _ ht)
  obtain ⟨⟨hr', hash'⟩, hm'⟩ := hb tx' (mem_append_right _ ht')
  refine withoutWitness_eq_of_serialize hr hr' he (hi hm hm' ?_)
  rw [← hash, ← hash', he]

theorem CTransaction.IsBuilt.getWitnessHash_eq {tx : CTransaction} (h : tx.IsBuilt hash256) :
    tx.getWitnessHash hash256 = hash256 (tx.serialize true) := by
  unfold getWitnessHash
  split_ifs with hw
  · rfl
  · rw [h.2]
    simp [serialize, hw]

namespace Rivals

theorem symm (h : Rivals hash256 block block') : Rivals hash256 block' block where
  hash := h.hash.symm
  hashMerkleRoot := h.hashMerkleRoot.symm
  nBits := h.nBits.symm
  isBuilt tx htx := h.isBuilt tx (by simpa [or_comm] using htx)
  injOn := by
    refine h.injOn.mono fun s hs => ?_
    simpa [or_comm] using hs
  size_ne tx htx := h.size_ne tx (by simpa [or_comm] using htx)

variable {tx tx' : CTransaction}
section
variable (h : Rivals hash256 block block')
include h

theorem hash_not_mem (ht : tx ∈ block.vtx) {k : ℕ}
    (hk : k < Nat.clog 2 (block'.vtx.map (·.hash)).length) :
    tx.hash ∉ levels (hashNodes hash256) (k + 1) (block'.vtx.map (·.hash)) := by
  intro hm
  rw [levels_succ, level, mem_map] at hm
  obtain ⟨q, hq, he⟩ := hm
  rw [(h.isBuilt tx (by simp [ht])).2] at he
  have hn : q.1.bytes ++ q.2.bytes ∈ block'.hashedStrings hash256 := by
    simp [CBlock.hashedStrings, mem_nodeStrings hk hq]
  have hs : tx.serialize false ∈ block.hashedStrings hash256 := by
    simp only [CBlock.hashedStrings, mem_append]
    exact .inl (.inl (.inl (.inl (mem_map_of_mem ht))))
  have hb := h.injOn (mem_append_right _ hn) (mem_append_left _ hs) he
  exact h.size_ne tx (by simp [ht]) (by simp [← hb, Uint256.bytes])

theorem map_hash_eq (hne : block.vtx ≠ []) (hne' : block'.vtx ≠ [])
    (hr : (blockMerkleRoot hash256 block).1 = (blockMerkleRoot hash256 block').1)
    (hm : (blockMerkleRoot hash256 block).2 = false)
    (hm' : (blockMerkleRoot hash256 block').2 = false) :
    block.vtx.map (·.hash) = block'.vtx.map (·.hash) := by
  have hn : block.vtx.map (·.hash) ≠ [] := by simpa using hne
  have hn' : block'.vtx.map (·.hash) ≠ [] := by simpa using hne'
  refine eq_of_root_eq (fun j hj k hk => collisionFree_nodes h.injOn ?_ ?_ hj hk)
    (computeMerkleRoot_snd _ |>.mp hm) (computeMerkleRoot_snd _ |>.mp hm') hn hn' ?_ ?_ ?_
  · intro s hs
    simp [CBlock.hashedStrings, hs]
  · intro s hs
    simp [CBlock.hashedStrings, hs]
  · exact forall_mem_map.mpr fun tx ht k hk => h.hash_not_mem ht hk
  · exact forall_mem_map.mpr fun tx ht k hk => h.symm.hash_not_mem ht hk
  · rw [levels_clog_eq hn, levels_clog_eq hn']
    exact congrArg (fun a => [a]) hr

theorem withoutWitness_eq (hh : block.vtx.map (·.hash) = block'.vtx.map (·.hash)) :
    block'.withoutWitness = block.withoutWitness := by
  have hv := map_withoutWitness_eq h.injOn (fun tx ht => ⟨h.isBuilt tx ht, ?_⟩) hh
  · unfold CBlock.withoutWitness
    rw [← hv, h.hash, h.hashMerkleRoot, h.nBits]
  · rcases mem_append.mp ht with ht | ht
    · refine mem_append_left _ ?_
      simp only [CBlock.hashedStrings, mem_append]
      exact .inl (.inl (.inl (.inl (mem_map_of_mem ht))))
    · refine mem_append_right _ ?_
      simp only [CBlock.hashedStrings, mem_append]
      exact .inl (.inl (.inl (.inl (mem_map_of_mem ht))))

end

theorem length_witnessLeaves (block : CBlock) :
    (block.witnessLeaves hash256).length = block.vtx.length := by
  unfold CBlock.witnessLeaves
  split <;> simp_all

theorem witnessLeaves_eq (h : Rivals hash256 block block') (hne : block.vtx ≠ [])
    (hle : block'.vtx.length = block.vtx.length)
    (hr : blockWitnessMerkleRoot hash256 block = blockWitnessMerkleRoot hash256 block') :
    block.witnessLeaves hash256 = block'.witnessLeaves hash256 := by
  have hl : (block.witnessLeaves hash256).length = (block'.witnessLeaves hash256).length := by
    rw [length_witnessLeaves, length_witnessLeaves, hle]
  have hn : block.witnessLeaves hash256 ≠ [] := by
    rwa [← length_pos_iff, length_witnessLeaves, length_pos_iff]
  refine leaves_eq_of_length h.injOn ?_ ?_ hn hl hr
  all_goals
    intro s hs
    simp [CBlock.hashedStrings, hs]

theorem eq_of_getWitnessHash_eq (h : Rivals hash256 block block') (ht : tx ∈ block.vtx)
    (ht' : tx' ∈ block'.vtx) (hn : tx.vin ≠ []) (hba : tx.withoutWitness = tx'.withoutWitness)
    (he : tx.getWitnessHash hash256 = tx'.getWitnessHash hash256) : tx = tx' := by
  have hb := h.isBuilt tx (by simp [ht])
  have hb' := h.isBuilt tx' (by simp [ht'])
  rw [hb.getWitnessHash_eq, hb'.getWitnessHash_eq] at he
  refine eq_of_serialize hb.1 hb'.1 hn hba ?_
  refine h.injOn (mem_append_left _ ?_) (mem_append_right _ ?_) he <;>
    simp only [CBlock.hashedStrings, mem_append]
  · exact .inl (.inl (.inl (.inr (mem_map_of_mem ht))))
  · exact .inl (.inl (.inl (.inr (mem_map_of_mem ht'))))

theorem coinbase_eq (hc : tx.isCoinBase) (hb : tx.withoutWitness = tx'.withoutWitness)
    (hs : tx.vin.head?.elim [] (·.scriptWitness) = tx'.vin.head?.elim [] (·.scriptWitness)) :
    tx = tx' := by
  have hl : tx.vin.length = tx'.vin.length := by
    simpa [withoutWitness] using congrArg (·.vin.length) hb
  refine eq_of_witness_eq hb ?_
  unfold isCoinBase at hc
  split at hc
  · rename_i txin hv
    rw [hv] at hl hs
    obtain ⟨txin', hv'⟩ := length_eq_one_iff.mp hl.symm
    rw [hv'] at hs
    rw [hv, hv']
    exact congrArg (fun stack => [stack]) hs
  · cases hc

theorem vtx_eq (h : Rivals hash256 block block')
    (hba : block.vtx.map withoutWitness = block'.vtx.map withoutWitness)
    (hc : block.vtx.head?.any (·.isCoinBase)) (hv : ∀ tx ∈ block.vtx, tx.vin ≠ [])
    (hs : block.coinbaseIn.elim [] (·.scriptWitness) = block'.coinbaseIn.elim [] (·.scriptWitness))
    (hl : block.witnessLeaves hash256 = block'.witnessLeaves hash256) :
    block.vtx = block'.vtx := by
  rcases hb : block.vtx with _ | ⟨cb, vtx⟩
  · simp [hb] at hc
  rcases hb' : block'.vtx with _ | ⟨cb', vtx'⟩
  · simp [hb, hb'] at hba
  simp only [hb, hb', map_cons, List.cons.injEq] at hba
  simp only [CBlock.witnessLeaves, hb, hb', List.cons.injEq, true_and] at hl
  simp only [CBlock.coinbaseIn, hb, hb', List.head?_cons, Option.bind_some] at hs
  have hcb : cb = cb' := coinbase_eq (by simpa [hb] using hc) hba.1 hs
  have hr : vtx = vtx' := by
    have hz := congrArg₂ List.zip hba.2 hl
    rw [zip_map', zip_map'] at hz
    simpa using map_eq_map_of_imp (g := id) (fun tx ht tx' ht' he =>
      h.eq_of_getWitnessHash_eq (by simp [hb, ht]) (by simp [hb', ht'])
        (hv tx (by simp [hb, ht])) (congrArg Prod.fst he) (congrArg Prod.snd he)) hz
  rw [hcb, hr]

theorem eq_of_vtx_eq (h : Rivals hash256 block block') (hv : block.vtx = block'.vtx) :
    block' = block := by
  obtain ⟨hash, root, nBits⟩ := h
  cases block; cases block'
  simp_all

theorem eq_of_commitment (h : Rivals hash256 block block')
    (hb : block.vtx.map withoutWitness = block'.vtx.map withoutWitness)
    (hc : block.vtx.head?.any (·.isCoinBase)) (hv : ∀ tx ∈ block.vtx, tx.vin ≠ [])
    {nonce nonce' : List UInt8} (hs : block.coinbaseIn.elim [] (·.scriptWitness) = [nonce])
    (hs' : block'.coinbaseIn.elim [] (·.scriptWitness) = [nonce'])
    (he : hash256 ((blockWitnessMerkleRoot hash256 block).bytes ++ nonce) =
      hash256 ((blockWitnessMerkleRoot hash256 block').bytes ++ nonce')) : block' = block := by
  have hm : (blockWitnessMerkleRoot hash256 block).bytes ++ nonce ∈
      block.hashedStrings hash256 := by simp [CBlock.hashedStrings, hs]
  have hm' : (blockWitnessMerkleRoot hash256 block').bytes ++ nonce' ∈
      block'.hashedStrings hash256 := by simp [CBlock.hashedStrings, hs']
  have hby := h.injOn (mem_append_left _ hm) (mem_append_right _ hm') he
  obtain ⟨hr, hn⟩ := selfDelimiting_bytes _ _ _ _ trivial trivial hby
  have hl := h.witnessLeaves_eq (by rintro hni; simp [hni] at hc)
    (by simpa using congrArg List.length hb.symm) hr
  exact h.eq_of_vtx_eq (h.vtx_eq hb hc hv (by rw [hs, hs', hn]) hl)

end Rivals

theorem checkTransactions_eq_ok {checks : ScriptChecks} {vtx : List CTransaction}
    (h : checkTransactions checks vtx = .ok ()) :
    ∀ tx ∈ vtx, checkTransaction (checks.getSerializeSize tx) tx = .ok () := by
  induction vtx with
  | nil => simp
  | cons tx vtx ih =>
    obtain ⟨_, ht, hv⟩ := Except.bind_eq_ok.mp h
    exact forall_mem_cons.mpr ⟨ht, ih hv⟩

structure PassesCheckBlock (hash256 : List UInt8 → Uint256) (params : Params) (block : CBlock) :
    Prop where
  proofOfWork : checkProofOfWork block.hash block.nBits params = true
  root : block.hashMerkleRoot = (blockMerkleRoot hash256 block).1
  notMutated : (blockMerkleRoot hash256 block).2 = false
  coinbase : block.vtx.head?.any (·.isCoinBase) = true
  vin_ne : ∀ tx ∈ block.vtx, tx.vin ≠ []

theorem passesCheckBlock (h : checkBlock (bodyChecks hash256) params block = .ok ()) :
    PassesCheckBlock hash256 params block := by
  unfold checkBlock at h
  rw [bodyChecks_blockMerkleRoot] at h
  split_ifs at h with hp hr hm hl hcb hmu
  all_goals
    obtain ⟨_, ht, -⟩ := Except.bind_eq_ok.mp h
    refine ⟨by simpa using hp, not_not.mp hr, by simpa using hm, by simpa using hcb, ?_⟩
    intro tx htx hv
    have hc := checkTransactions_eq_ok ht tx htx
    simp [checkTransaction, hv] at hc

theorem Rivals.checkBlock (h : Rivals hash256 block block') (hr : block.hashMerkleRoot ≠ 0)
    (ho : PassesCheckBlock hash256 params block) :
    Palladium.checkBlock (bodyChecks hash256) params block' = .error (.invalid "bad-txnmrklroot") ∨
      Palladium.checkBlock (bodyChecks hash256) params block' =
        .error (.invalid "bad-txns-duplicate") ∨
      block'.withoutWitness = block.withoutWitness := by
  have hp : checkProofOfWork block'.hash block'.nBits params := by
    rw [h.hash, h.nBits]
    exact ho.proofOfWork
  by_cases hr' : block'.hashMerkleRoot = (blockMerkleRoot hash256 block').1
  · cases hm : (blockMerkleRoot hash256 block').2 with
    | true =>
      right; left
      unfold Palladium.checkBlock
      rw [bodyChecks_blockMerkleRoot, if_neg (by simp [hp]), if_neg (not_not.mpr hr'), if_pos hm]
    | false =>
      right; right
      have hne' : block'.vtx ≠ [] := by
        intro hn
        rw [blockMerkleRoot, hn] at hr'
        exact hr (h.hashMerkleRoot ▸ hr')
      have hne : block.vtx ≠ [] := by
        intro hn
        have := ho.coinbase
        simp [hn] at this
      refine h.withoutWitness_eq (h.map_hash_eq hne hne' ?_ ho.notMutated hm)
      rw [← ho.root, ← hr', h.hashMerkleRoot]
  · left
    unfold Palladium.checkBlock
    rw [bodyChecks_blockMerkleRoot, if_neg (by simp [hp]), if_pos hr']

def commitmentOf (ctx : BodyContext) (block : CBlock) : Option CScript :=
  if ctx.nHeight < ctx.params.SegwitHeight then none else witnessCommitment block

theorem checkWitnessCommitment_none (h : commitmentOf ctx block = none) :
    checkWitnessCommitment hash256 ctx block = .ok false := by
  unfold checkWitnessCommitment
  split_ifs with hh
  · rfl
  · rw [commitmentOf, if_neg hh] at h
    rw [h]

theorem checkWitnessCommitment_some {scriptPubKey : CScript}
    (h : commitmentOf ctx block = some scriptPubKey) :
    (∃ reason, checkWitnessCommitment hash256 ctx block = .error ⟨.mutated, reason⟩) ∨
      (checkWitnessCommitment hash256 ctx block = .ok true ∧
        ∃ nonce, block.coinbaseIn.elim [] (·.scriptWitness) = [nonce] ∧
          (hash256 ((blockWitnessMerkleRoot hash256 block).bytes ++ nonce)).bytes =
            (scriptPubKey.drop 6).take 32) := by
  unfold commitmentOf at h
  unfold checkWitnessCommitment
  split_ifs at h ⊢ with hh
  rw [h]
  dsimp only
  split
  · rename_i nonce hstack
    split_ifs with hl hm
    · exact .inl ⟨_, rfl⟩
    · exact .inl ⟨_, rfl⟩
    · exact .inr ⟨rfl, nonce, hstack, not_not.mp hm⟩
  · exact .inl ⟨_, rfl⟩

theorem Rivals.contextualCheckBlock (h : Rivals hash256 block block')
    (ho : PassesCheckBlock hash256 ctx.params block)
    (hb : block'.withoutWitness = block.withoutWitness)
    (hct : Palladium.contextualCheckBlock hash256 ctx block = .ok ()) :
    block' = block ∨
      ∃ reason, Palladium.contextualCheckBlock hash256 ctx block' = .error ⟨.mutated, reason⟩ := by
  have hv : block.vtx.map withoutWitness =
      block'.vtx.map withoutWitness := (congrArg (·.vtx) hb).symm
  have hfi := all_isFinalTx_withoutWitness block' ctx.nHeight ctx.nLockTimeCutoff
  rw [hb, all_isFinalTx_withoutWitness] at hfi
  have hh := startsWithHeight_withoutWitness ctx block'
  rw [hb, startsWithHeight_withoutWitness] at hh
  have hco : commitmentOf ctx block' = commitmentOf ctx block := by
    rw [commitmentOf, commitmentOf, ← witnessCommitment_withoutWitness block', hb,
      witnessCommitment_withoutWitness]
  unfold Palladium.contextualCheckBlock at hct ⊢
  rw [← hfi, ← hh]
  by_cases hf : (!block.vtx.all (isFinalTx · ctx.nHeight ctx.nLockTimeCutoff)) = true
  · rw [if_pos hf] at hct
    cases hct
  by_cases hs : (!startsWithHeight ctx block) = true
  · rw [if_neg hf, if_pos hs] at hct
    cases hct
  rw [if_neg hf, if_neg hs] at hct ⊢
  obtain ⟨fHaveWitness, hw, hr⟩ := Except.bind_eq_ok.mp hct
  cases hc : commitmentOf ctx block with
  | none =>
    rw [checkWitnessCommitment_none hc] at hw
    rw [checkWitnessCommitment_none (hco.trans hc)]
    cases hw
    by_cases ha : block'.vtx.any (·.hasWitness) = true
    · refine .inr ⟨"unexpected-witness", ?_⟩
      exact if_pos (by simpa using ha)
    · left
      split_ifs at hr with ha'
      refine h.eq_of_vtx_eq ?_
      rwa [vtx_withoutWitness (by simpa using ha'), vtx_withoutWitness (by simpa using ha)]
        at hv
  | some scriptPubKey =>
    rcases checkWitnessCommitment_some (hco.trans hc) with ⟨reason, he⟩ | ⟨-, nonce', hst', hm'⟩
    · exact .inr ⟨reason, by rw [he]; rfl⟩
    rcases checkWitnessCommitment_some hc with ⟨reason, he⟩ | ⟨-, nonce, hst, hm⟩
    · rw [he] at hw
      cases hw
    left
    refine h.eq_of_commitment hv ho.coinbase ho.vin_ne hst hst' ?_
    exact selfDelimiting_bytes.injOn trivial trivial (hm.trans hm'.symm)

theorem Rivals.checkBody (h : Rivals hash256 block block') (hr : block.hashMerkleRoot ≠ 0)
    (ho : Palladium.checkBody hash256 ctx block = .ok ()) :
    block' = block ∨ ∃ reason, Palladium.checkBody hash256 ctx block' = .error ⟨.mutated, reason⟩ := by
  unfold Palladium.checkBody at ho ⊢
  split at ho
  · cases ho
  rename_i hcheck
  have hp := passesCheckBlock hcheck
  rcases h.checkBlock hr hp with he | he | hb
  · rw [he]
    exact .inr ⟨_, rfl⟩
  · rw [he]
    exact .inr ⟨_, rfl⟩
  · rw [← checkBlock_withoutWitness, hb, checkBlock_withoutWitness, hcheck]
    exact h.contextualCheckBlock hp hb ho

theorem acceptBlock_failedValid {ι : Type} [LinearOrder ι] (T : BlockTree ι) (s : ChainState ι)
    (pindex b : ι) (checkBlockHeader contextualCheckBlockHeader : Except BlockInvalid Unit)
    {arrival : BlockArrival}
    (h : arrival.check = .ok () ∨ ∃ reason, arrival.check = .error ⟨.mutated, reason⟩) :
    (acceptBlock T s pindex checkBlockHeader contextualCheckBlockHeader arrival).2.failedValid b =
      (acceptBlockHeader T s pindex checkBlockHeader contextualCheckBlockHeader).2.failedValid
        b := by
  unfold acceptBlock
  split
  · rename_i heq
    rw [heq]
  · rename_i heq
    rw [heq]
    split_ifs
    · rfl
    rcases h with ho | ⟨reason, he⟩
    · rw [ho]
      dsimp only
      split
      · rfl
      · exact (receivedBlockTransactions_quiet _ _ _ _).failedValid b
    · rw [he]
      rfl

/-- If a block passes `CheckBlock` and `ContextualCheckBlock`, any other block with its header is
found to be mutated, and `AcceptBlock` does not mark the header as failed because of it. -/
theorem other_body_mutated (h : Rivals hash256 block block') (hroot : block.hashMerkleRoot ≠ 0)
    (hok : checkBody hash256 ctx block = .ok ()) :
    (block' = block ∨ ∃ reason, checkBody hash256 ctx block' = .error ⟨.mutated, reason⟩) ∧
      ∀ (ι : Type) [LinearOrder ι] (T : BlockTree ι) (s : ChainState ι) (pindex b : ι)
        (checkBlockHeader contextualCheckBlockHeader : Except BlockInvalid Unit)
        (arrival : BlockArrival), arrival.check = checkBody hash256 ctx block' →
        (acceptBlock T s pindex checkBlockHeader contextualCheckBlockHeader arrival).2.failedValid
            b =
          (acceptBlockHeader T s pindex checkBlockHeader contextualCheckBlockHeader).2.failedValid
            b := by
  have hb := h.checkBody hroot hok
  refine ⟨hb, fun ι _ T s pindex b _ _ arrival ha => ?_⟩
  refine acceptBlock_failedValid T s pindex b _ _ ?_
  rw [ha]
  rcases hb with rfl | hm
  · exact .inl hok
  · exact .inr hm

def coinbase100 (hash : Uint256) (scriptWitness : List (List UInt8)) : CTransaction where
  vin := [⟨⟨0, COutPoint.nullIndex⟩, [1, 100], sequenceFinal, scriptWitness⟩]
  vout := [⟨0, []⟩]
  nVersion := 1
  nLockTime := 0
  hash := hash

def regtest100 : BodyContext := ⟨Network.regtest.consensus, some (99, 0), 0⟩

def block100 (root : Uint256) (vtx : List CTransaction) : CBlock := ⟨0, root, 0x207fffff, vtx⟩

def lengthHash (s : List UInt8) : Uint256 := BitVec.ofNat 256 (s.length + 1)

def plainBlock : CBlock := block100 63 [coinbase100 63 []]
def paddedBlock : CBlock := block100 63 [coinbase100 63 [[1]]]

theorem rivals_plain_padded : Rivals lengthHash plainBlock paddedBlock where
  hash := rfl
  hashMerkleRoot := rfl
  nBits := rfl
  isBuilt := by decide +kernel
  injOn := by
    have hi : ∀ s ∈ plainBlock.hashedStrings lengthHash ++ paddedBlock.hashedStrings lengthHash,
        ∀ t ∈ plainBlock.hashedStrings lengthHash ++ paddedBlock.hashedStrings lengthHash,
        lengthHash s = lengthHash t → s = t := by decide +kernel
    exact fun s hs t ht => hi s hs t ht
  size_ne := by decide +kernel

theorem other_body_mutated_padded : checkBody lengthHash regtest100 plainBlock = .ok () ∧
      ∃ reason, checkBody lengthHash regtest100 paddedBlock = .error ⟨.mutated, reason⟩ := by
  have ho : checkBody lengthHash regtest100 plainBlock = .ok () := by decide +kernel
  refine ⟨ho, ?_⟩
  exact (other_body_mutated rivals_plain_padded (by decide) ho).1.resolve_left (by decide)

def zeroHash (s : List UInt8) : Uint256 := if s.length = 62 then 0 else lengthHash s

def zeroRootBlock : CBlock := block100 0 [coinbase100 0 []]
def emptyBlock : CBlock := block100 0 []

theorem rivals_zeroRoot_empty : Rivals zeroHash zeroRootBlock emptyBlock where
  hash := rfl
  hashMerkleRoot := rfl
  nBits := rfl
  isBuilt := by decide +kernel
  injOn := by
    have hi : ∀ s ∈ zeroRootBlock.hashedStrings zeroHash ++ emptyBlock.hashedStrings zeroHash,
        ∀ t ∈ zeroRootBlock.hashedStrings zeroHash ++ emptyBlock.hashedStrings zeroHash,
        zeroHash s = zeroHash t → s = t := by decide +kernel
    exact fun s hs t ht => hi s hs t ht
  size_ne := by decide +kernel

/-- The root of no transactions is 0, so under a header with this root they are not found to be
mutated. -/
theorem empty_body_not_mutated : Rivals zeroHash zeroRootBlock emptyBlock ∧
      checkBody zeroHash regtest100 zeroRootBlock = .ok () ∧
      checkBody zeroHash regtest100 emptyBlock = .error ⟨.consensus, "bad-blk-length"⟩ :=
  ⟨rivals_zeroRoot_empty, by decide +kernel, by decide +kernel⟩

end Palladium
