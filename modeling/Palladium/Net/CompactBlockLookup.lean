import Palladium.Net.CompactBlockLayout

/-! # Candidates for the transactions of a compact block

What becomes of a short id depends only on the candidates with that id, in their order.
-/

namespace Palladium.Net
open List PartiallyDownloadedBlock

/-- A transaction of the mempool or a slot of the extra transactions, with its short id. -/
structure Candidate where
  fromExtra : Bool
  id : ℕ
  tx : Option CTransaction

/-- What is known of a short id: no candidate, one transaction, one empty slot, or candidates that
differ. -/
inductive Slot
  | free
  | held (tx : CTransaction)
  | empty
  | dropped

namespace Slot

def tx : Slot → Option CTransaction
  | .held tx => some tx
  | _ => none

def isFree : Slot → Bool
  | .free => true
  | _ => false

def isCounted : Slot → Bool
  | .held _ | .empty => true
  | _ => false

variable (hash256 : List UInt8 → Uint256)

/-- An extra transaction may be one that was found before; two of the mempool are different. -/
def next (slot : Slot) (b : Candidate) : Slot :=
  match slot, b.tx with
  | .free, some tx => .held tx
  | .free, none => .empty
  | .held tx, some tx' =>
    if b.fromExtra ∧ tx.getWitnessHash hash256 = tx'.getWitnessHash hash256 then .held tx
    else .dropped
  | .held _, none => .dropped
  | .empty, _ => .empty
  | .dropped, _ => .dropped

variable {hash256} {b : Candidate} {tx tx' : CTransaction}

theorem next_free_of_none (h : b.tx = none) : next hash256 .free b = .empty := by
  simp [next, h]

theorem next_free_of_some (h : b.tx = some tx) : next hash256 .free b = .held tx := by
  simp [next, h]

theorem next_held (h : b.tx = some tx') : next hash256 (.held tx) b =
      if b.fromExtra ∧ tx.getWitnessHash hash256 = tx'.getWitnessHash hash256 then .held tx
      else .dropped := by
  simp [next, h]

end Slot

section Spec
variable (hash256 : List UInt8 → Uint256)

def slotOf (seen : List Candidate) (id : ℕ) : Slot :=
  (seen.filter (·.id = id)).foldl (Slot.next hash256) .free

def allCounted (ids : List ℕ) (seen : List Candidate) : Bool :=
  ids.all fun id => (slotOf hash256 seen id).isCounted

/-- The candidates that a loop looks at, after those seen before. -/
def lookedAt (ids : List ℕ) : (seen : List Candidate) → List Candidate → List Candidate
  | seen, [] => seen
  | seen, b :: rest =>
    if allCounted hash256 ids (seen ++ [b]) then seen ++ [b] else lookedAt ids (seen ++ [b]) rest

/-- An empty slot comes up while a transaction is held for its short id. -/
def hitsEmptySlot (ids : List ℕ) : (seen : List Candidate) → List Candidate → Bool
  | _, [] => false
  | seen, b :: rest =>
    (b.tx.isNone && decide (b.id ∈ ids) && (slotOf hash256 seen b.id).tx.isSome) ||
      (!allCounted hash256 ids (seen ++ [b]) && hitsEmptySlot ids (seen ++ [b]) rest)

end Spec

variable (c : CBlockHeaderAndShortTxIDs)

def poolCandidates (vTxHashes : List (Uint256 × CTransaction)) : List Candidate :=
  vTxHashes.map fun entry => ⟨false, c.getShortID entry.1, some entry.2⟩

def extraCandidates (extraTxn : List (Uint256 × Option CTransaction)) : List Candidate :=
  extraTxn.map fun slot => ⟨true, c.getShortID slot.1, slot.2⟩

section Refinement
variable {hash256 : List UInt8 → Uint256} {c : CBlockHeaderAndShortTxIDs}
  {txnAvailable : List (Option CTransaction)} {shorttxids : ShortIdMap} {seen : List Candidate}
  {b : Candidate} {s : Scan} {pos : ℕ}

theorem slotOf_concat_self :
    slotOf hash256 (seen ++ [b]) b.id = (slotOf hash256 seen b.id).next hash256 b := by
  simp [slotOf, filter_append]

theorem slotOf_concat_of_ne {id : ℕ} (h : b.id ≠ id) :
    slotOf hash256 (seen ++ [b]) id = slotOf hash256 seen id := by
  simp [slotOf, filter_append, h]

/-- The arrays say what is known of each short id. -/
structure Scanned (hash256 : List UInt8 → Uint256) (ids : List ℕ) (shorttxids : ShortIdMap)
    (n : ℕ) (seen : List Candidate) (s : Scan) : Prop where
  length_txnAvailable : s.txnAvailable.length = n
  length_haveTxn : s.haveTxn.length = n
  haveTxn : ∀ id pos, shorttxids.lookup id = some pos →
    s.haveTxn[pos]? = some (!(slotOf hash256 seen id).isFree)
  txnAvailable : ∀ id pos, shorttxids.lookup id = some pos →
    s.txnAvailable[pos]? = some (slotOf hash256 seen id).tx
  mempoolCount : s.mempoolCount = ids.countP fun id => (slotOf hash256 seen id).isCounted

section
variable (h : Layout c txnAvailable shorttxids)
include h

theorem Layout.nodup : c.shorttxids.Nodup := by
  have hk : shorttxids.keys = c.shorttxids.toFinset := by
    ext id
    rw [Finmap.mem_keys, h.mapped.mem_iff, mem_toFinset]
  have hc := h.card_eq
  rw [hk] at hc
  exact Multiset.toFinset_card_eq_card_iff_nodup.mp hc

theorem Layout.lookup_iff {id : ℕ} : (∃ pos, shorttxids.lookup id = some pos) ↔ id ∈ c.shorttxids := by
  rw [← h.mapped.mem_iff, Finmap.mem_iff]

theorem Layout.notMem {id : ℕ} (hi : shorttxids.lookup id = none) : id ∉ c.shorttxids := by
  rw [← h.lookup_iff, hi]
  simp

theorem Scanned.init : Scanned hash256 c.shorttxids shorttxids txnAvailable.length []
      ⟨txnAvailable, .replicate txnAvailable.length false, 0⟩ where
  length_txnAvailable := rfl
  length_haveTxn := length_replicate
  haveTxn id pos hlookup := by
    have := h.mapped.pos_lt id pos hlookup
    simp [this, slotOf, Slot.isFree]
  txnAvailable id pos hlookup := h.mapped.free id pos hlookup
  mempoolCount := by simp [slotOf, Slot.isCounted]

end

theorem countP_add_of_ne {ids : List ℕ} (hn : ids.Nodup) {id : ℕ} (hi : id ∈ ids)
    {p q : ℕ → Bool} (hpq : ∀ id' ≠ id, q id' = p id') :
    ids.countP q + (p id).toNat = ids.countP p + (q id).toNat := by
  have hp := perm_cons_erase hi
  have hr : (ids.erase id).countP q = (ids.erase id).countP p := by
    refine countP_congr fun id' hm => ?_
    rw [hpq id' fun he => (List.Nodup.not_mem_erase hn) (he ▸ hm)]
  rw [hp.countP_eq q, hp.countP_eq p, countP_cons, countP_cons, hr]
  cases p id <;> cases q id <;> simp

theorem Scanned.update (hla : Layout c txnAvailable shorttxids)
    (h : Scanned hash256 c.shorttxids shorttxids txnAvailable.length seen s)
    (hl : shorttxids.lookup b.id = some pos) (slot : Slot)
    (hsl : (slotOf hash256 seen b.id).next hash256 b = slot) {mempoolCount : ℕ}
    (hc : mempoolCount + (slotOf hash256 seen b.id).isCounted.toNat =
      s.mempoolCount + slot.isCounted.toNat) :
    Scanned hash256 c.shorttxids shorttxids txnAvailable.length (seen ++ [b])
      ⟨s.txnAvailable.set pos slot.tx, s.haveTxn.set pos (!slot.isFree), mempoolCount⟩ := by
  have hlt := hla.mapped.pos_lt _ _ hl
  have hs : slotOf hash256 (seen ++ [b]) b.id = slot := slotOf_concat_self.trans hsl
  have ho : ∀ id pos', shorttxids.lookup id = some pos' → id ≠ b.id → pos' ≠ pos :=
    fun id pos' hi hn he => hn (hla.mapped.injective _ _ pos (he ▸ hi) hl)
  refine ⟨by rw [length_set, h.length_txnAvailable], by rw [length_set, h.length_haveTxn],
    fun id pos' hi => ?_, fun id pos' hi => ?_, ?_⟩
  · rcases eq_or_ne id b.id with rfl | hn
    · obtain rfl : pos' = pos := Option.some.inj (hi.symm.trans hl)
      rw [hs, List.getElem?_set_self (h.length_haveTxn ▸ hlt)]
    · rw [List.getElem?_set_ne (ho id pos' hi hn).symm, slotOf_concat_of_ne hn.symm]
      exact h.haveTxn id pos' hi
  · rcases eq_or_ne id b.id with rfl | hn
    · obtain rfl : pos' = pos := Option.some.inj (hi.symm.trans hl)
      rw [hs, List.getElem?_set_self (h.length_txnAvailable ▸ hlt)]
    · rw [List.getElem?_set_ne (ho id pos' hi hn).symm, slotOf_concat_of_ne hn.symm]
      exact h.txnAvailable id pos' hi
  · have hsu := countP_add_of_ne hla.nodup (hla.lookup_iff.mp ⟨pos, hl⟩)
      (p := fun id => (slotOf hash256 seen id).isCounted)
      (q := fun id => (slotOf hash256 (seen ++ [b]) id).isCounted)
      fun id hn => by rw [slotOf_concat_of_ne hn.symm]
    have hold := h.mempoolCount
    simp only [hs] at hsu
    change mempoolCount = _
    omega

theorem Scanned.of_same (hla : Layout c txnAvailable shorttxids)
    (h : Scanned hash256 c.shorttxids shorttxids txnAvailable.length seen s)
    (hsa : b.id ∈ c.shorttxids →
      (slotOf hash256 seen b.id).next hash256 b = slotOf hash256 seen b.id) :
    Scanned hash256 c.shorttxids shorttxids txnAvailable.length (seen ++ [b]) s := by
  have hs : ∀ id ∈ c.shorttxids, slotOf hash256 (seen ++ [b]) id = slotOf hash256 seen id := by
    intro id hi
    rcases eq_or_ne b.id id with rfl | hn
    · rw [slotOf_concat_self, hsa hi]
    · exact slotOf_concat_of_ne hn
  refine ⟨h.length_txnAvailable, h.length_haveTxn, fun id pos hi => ?_, fun id pos hi => ?_, ?_⟩
  · rw [hs id (hla.lookup_iff.mp ⟨pos, hi⟩)]
    exact h.haveTxn id pos hi
  · rw [hs id (hla.lookup_iff.mp ⟨pos, hi⟩)]
    exact h.txnAvailable id pos hi
  · rw [h.mempoolCount]
    exact countP_congr fun id hi => by rw [hs id hi]

theorem set_of_getElem? {α : Type} {v : List α} {i : ℕ} {a : α} (h : v[i]? = some a) :
    v.set i a = v := by
  obtain ⟨hl, rfl⟩ := List.getElem?_eq_some_iff.mp h
  exact set_getElem_self hl

theorem keep_eq {n : ℕ} (h₁ : s.txnAvailable.length = n) (h₂ : s.haveTxn.length = n)
    (hp : pos < n) (tx : Option CTransaction) : s.keep pos tx =
      .ok ⟨s.txnAvailable.set pos tx, s.haveTxn.set pos true, s.mempoolCount + 1⟩ := by
  rw [Scan.keep, writeAt_of_lt (h₁ ▸ hp), writeAt_of_lt (h₂ ▸ hp)]
  rfl

theorem reset_eq {n : ℕ} (h : s.txnAvailable.length = n) (hp : pos < n) :
    s.reset pos = .ok ⟨s.txnAvailable.set pos none, s.haveTxn, s.mempoolCount - 1⟩ := by
  rw [Scan.reset, writeAt_of_lt (h ▸ hp)]
  rfl

variable (hla : Layout c txnAvailable shorttxids)
  (h : Scanned hash256 c.shorttxids shorttxids txnAvailable.length seen s)

include hla h

theorem Scanned.keep (hl : shorttxids.lookup b.id = some pos)
    (hf : slotOf hash256 seen b.id = .free) :
    ∃ s', s.keep pos b.tx = .ok s' ∧
      Scanned hash256 c.shorttxids shorttxids txnAvailable.length (seen ++ [b]) s' := by
  refine ⟨_, keep_eq h.length_txnAvailable h.length_haveTxn (hla.mapped.pos_lt _ _ hl) _, ?_⟩
  cases ht : b.tx with
  | none =>
    exact h.update hla hl .empty (by rw [hf, Slot.next_free_of_none ht])
      (by rw [hf]; rfl)
  | some tx =>
    exact h.update hla hl (.held tx) (by rw [hf, Slot.next_free_of_some ht])
      (by rw [hf]; rfl)

theorem Scanned.reset (hl : shorttxids.lookup b.id = some pos) {tx : CTransaction}
    (hh : slotOf hash256 seen b.id = .held tx)
    (hn : Slot.next hash256 (.held tx) b = .dropped) :
    ∃ s', s.reset pos = .ok s' ∧
      Scanned hash256 c.shorttxids shorttxids txnAvailable.length (seen ++ [b]) s' := by
  refine ⟨_, reset_eq h.length_txnAvailable (hla.mapped.pos_lt _ _ hl), ?_⟩
  have hha := h.haveTxn _ _ hl
  rw [hh] at hha
  have hp : 0 < s.mempoolCount := by
    rw [h.mempoolCount, countP_pos_iff]
    exact ⟨b.id, hla.lookup_iff.mp ⟨pos, hl⟩, by rw [hh]; rfl⟩
  have hc : s.mempoolCount - 1 + (slotOf hash256 seen b.id).isCounted.toNat =
      s.mempoolCount + Slot.dropped.isCounted.toNat := by
    rw [hh]
    change s.mempoolCount - 1 + 1 = s.mempoolCount
    omega
  have hs := h.update hla hl .dropped (by rw [hh, hn]) hc
  rwa [show (!Slot.dropped.isFree) = !(Slot.held tx).isFree from rfl, set_of_getElem? hha]
    at hs

theorem poolStep_eq (entry : Uint256 × CTransaction) :
    ∃ s', poolStep c shorttxids entry s = .ok s' ∧
      Scanned hash256 c.shorttxids shorttxids txnAvailable.length
        (seen ++ [⟨false, c.getShortID entry.1, some entry.2⟩]) s' := by
  generalize hb : (⟨false, c.getShortID entry.1, some entry.2⟩ : Candidate) = b
  obtain ⟨hi, ht, he⟩ : c.getShortID entry.1 = b.id ∧ some entry.2 = b.tx ∧
    b.fromExtra = false := by subst hb; exact ⟨rfl, rfl, rfl⟩
  unfold poolStep
  rw [hi]
  cases hl : shorttxids.lookup b.id with
  | none =>
    exact ⟨s, rfl, h.of_same hla fun hm => absurd hm (hla.notMem hl)⟩
  | some pos =>
    have hh := h.haveTxn _ _ hl
    have ha := h.txnAvailable _ _ hl
    dsimp only
    rw [readAt_of_getElem? hh, readAt_of_getElem? ha]
    cases hs : slotOf hash256 seen b.id with
    | free =>
      rw [ht]
      exact h.keep hla hl hs
    | held tx =>
      refine h.reset hla hl hs ?_
      rw [Slot.next_held ht.symm]
      exact if_neg (by simp [he])
    | empty | dropped => exact ⟨s, rfl, h.of_same hla fun _ => by rw [hs, Slot.next]⟩

/-- A slot of the extra transactions. The witness hash of an empty one is asked for while a
transaction is held for its short id. -/
theorem extraStep_eq (slot : Uint256 × Option CTransaction) :
    if slot.2.isNone ∧ c.getShortID slot.1 ∈ c.shorttxids ∧
        (slotOf hash256 seen (c.getShortID slot.1)).tx.isSome then
      extraStep hash256 c shorttxids slot s = .error (.fault .nullDereference)
    else ∃ s', extraStep hash256 c shorttxids slot s = .ok s' ∧
      Scanned hash256 c.shorttxids shorttxids txnAvailable.length
        (seen ++ [⟨true, c.getShortID slot.1, slot.2⟩]) s' := by
  generalize hb : (⟨true, c.getShortID slot.1, slot.2⟩ : Candidate) = b
  obtain ⟨hi, ht, he⟩ : c.getShortID slot.1 = b.id ∧ slot.2 = b.tx ∧
    b.fromExtra = true := by subst hb; exact ⟨rfl, rfl, rfl⟩
  unfold extraStep
  rw [hi, ht]
  cases hl : shorttxids.lookup b.id with
  | none =>
    have hm := hla.notMem hl
    rw [if_neg fun hhi => hm hhi.2.1]
    exact ⟨s, rfl, h.of_same hla fun hm' => absurd hm' hm⟩
  | some pos =>
    have hm := hla.lookup_iff.mp ⟨pos, hl⟩
    have hh := h.haveTxn _ _ hl
    have ha := h.txnAvailable _ _ hl
    dsimp only
    rw [readAt_of_getElem? hh, readAt_of_getElem? ha]
    cases hsl : slotOf hash256 seen b.id with
    | free =>
      rw [if_neg (by simp [Slot.tx])]
      exact h.keep hla hl hsl
    | held held =>
      cases hbt : b.tx with
      | none =>
        rw [if_pos ⟨rfl, hm, rfl⟩]
        rfl
      | some tx =>
        rw [if_neg (by simp)]
        by_cases heq : held.getWitnessHash hash256 = tx.getWitnessHash hash256
        · refine ⟨s, if_neg (not_not.mpr heq), h.of_same hla fun _ => ?_⟩
          rw [hsl, Slot.next_held hbt]
          exact if_pos ⟨he, heq⟩
        · obtain ⟨s', hs', hsc⟩ := h.reset hla hl hsl (by
            rw [Slot.next_held hbt]
            exact if_neg fun hbo => heq hbo.2)
          exact ⟨s', (if_pos heq).trans hs', hsc⟩
    | empty | dropped =>
      rw [if_neg (by simp [Slot.tx])]
      exact ⟨s, rfl, h.of_same hla fun _ => by rw [hsl, Slot.next]⟩

theorem Scanned.count_eq_iff :
    s.mempoolCount = shorttxids.keys.card ↔ allCounted hash256 c.shorttxids seen := by
  rw [h.mempoolCount, hla.card_eq, countP_eq_length, allCounted, all_eq_true]

theorem scan_pool (vTxHashes : List (Uint256 × CTransaction)) :
    ∃ s', scan shorttxids.keys.card (poolStep c shorttxids) vTxHashes s = .ok s' ∧
      Scanned hash256 c.shorttxids shorttxids txnAvailable.length
        (lookedAt hash256 c.shorttxids seen (poolCandidates c vTxHashes)) s' := by
  induction vTxHashes generalizing seen s with
  | nil => exact ⟨s, rfl, h⟩
  | cons entry rest ih =>
    obtain ⟨s₁, hsp, hs⟩ := poolStep_eq hla h entry
    simp only [scan, hsp, poolCandidates, map_cons, lookedAt]
    change ∃ s', (if s₁.mempoolCount = shorttxids.keys.card then Except.ok s₁ else _) = _ ∧ _
    by_cases hst : s₁.mempoolCount = shorttxids.keys.card
    · rw [if_pos hst, if_pos ((hs.count_eq_iff hla).mp hst)]
      exact ⟨s₁, rfl, hs⟩
    · rw [if_neg hst, if_neg (mt (hs.count_eq_iff hla).mpr hst)]
      exact ih hs

theorem scan_extra (extraTxn : List (Uint256 × Option CTransaction)) :
    if hitsEmptySlot hash256 c.shorttxids seen (extraCandidates c extraTxn) then
      scan shorttxids.keys.card (extraStep hash256 c shorttxids) extraTxn s =
        .error (.fault .nullDereference)
    else ∃ s', scan shorttxids.keys.card (extraStep hash256 c shorttxids) extraTxn s = .ok s' ∧
      Scanned hash256 c.shorttxids shorttxids txnAvailable.length
        (lookedAt hash256 c.shorttxids seen (extraCandidates c extraTxn)) s' := by
  induction extraTxn generalizing seen s with
  | nil => exact ⟨s, rfl, h⟩
  | cons slot rest ih =>
    have hsp := extraStep_eq hla h slot
    simp only [scan, extraCandidates, map_cons, lookedAt, hitsEmptySlot]
    split_ifs at hsp with hh
    · rw [if_pos (by simp only [hh.1, hh.2.1, hh.2.2, decide_true, Bool.and_self,
        Bool.true_or]), hsp]
      rfl
    · obtain ⟨s₁, hs₁, hsc⟩ := hsp
      have hn : (slot.2.isNone && decide (c.getShortID slot.1 ∈ c.shorttxids) &&
          (slotOf hash256 seen (c.getShortID slot.1)).tx.isSome) = false := by
        rw [Bool.eq_false_iff]
        simpa [and_assoc] using hh
      rw [hs₁, hn, Bool.false_or]
      change if _ then (if s₁.mempoolCount = shorttxids.keys.card then Except.ok s₁ else _) = _
        else ∃ s', (if s₁.mempoolCount = shorttxids.keys.card then Except.ok s₁ else _) = _ ∧ _
      by_cases hst : s₁.mempoolCount = shorttxids.keys.card
      · have ha := (hsc.count_eq_iff hla).mp hst
        rw [if_pos hst, if_pos ha, ha]
        exact ⟨s₁, rfl, hsc⟩
      · have ha := mt (hsc.count_eq_iff hla).mpr hst
        rw [if_neg hst, if_neg ha, Bool.eq_false_iff.mpr ha, Bool.not_false, Bool.true_and]
        exact ih hsc

end Refinement

section Safety
variable (hash256 : List UInt8 → Uint256) (bucketSize : ShortIdMap → ℕ → ℕ)
  (c : CBlockHeaderAndShortTxIDs)

def CBlockHeaderAndShortTxIDs.wellFormed : Bool :=
  (checkCounts c).isOk && (layout bucketSize c).isOk

/-- The search comes to an empty slot while a transaction is held for the short id of the slot. -/
def emptySlotHit (vTxHashes : List (Uint256 × CTransaction))
    (extraTxn : List (Uint256 × Option CTransaction)) : Bool :=
  hitsEmptySlot hash256 c.shorttxids
    (lookedAt hash256 c.shorttxids [] (poolCandidates c vTxHashes)) (extraCandidates c extraTxn)

variable {hash256 bucketSize} {c : CBlockHeaderAndShortTxIDs}

theorem checkCounts_meets : (checkCounts c).Meets Exit.IsStatus fun _ => True :=
  .ite (fun _ => ⟨_, rfl⟩) fun _ => .ite (fun _ => ⟨_, rfl⟩) fun _ => trivial

theorem initData_eq {txnAvailable : List (Option CTransaction)} {shorttxids : ShortIdMap}
    {vTxHashes : List (Uint256 × CTransaction)} {extraTxn : List (Uint256 × Option CTransaction)}
    {s : Scan} (hc : checkCounts c = .ok ())
    (hla : layout bucketSize c = .ok (txnAvailable, shorttxids))
    (hp : scan shorttxids.keys.card (poolStep c shorttxids) vTxHashes
      ⟨txnAvailable, .replicate txnAvailable.length false, 0⟩ = .ok s) :
    initData hash256 bucketSize c vTxHashes extraTxn {} =
      (scan shorttxids.keys.card (extraStep hash256 c shorttxids) extraTxn s).map fun s' =>
        ⟨c.hash, c.hashMerkleRoot, c.nBits, s'.txnAvailable⟩ := by
  unfold initData
  rw [hc, hla]
  change (scan _ _ vTxHashes _ >>= fun s => scan _ _ extraTxn s >>= _) = _
  rw [hp]
  rfl

/-- What `InitData` does with a message that was read. -/
theorem initData_cases (h : c.Deserialized) (vTxHashes : List (Uint256 × CTransaction))
    (extraTxn : List (Uint256 × Option CTransaction)) :
    (c.wellFormed bucketSize = false ∧ ∃ status,
      initData hash256 bucketSize c vTxHashes extraTxn {} = .error (.status status)) ∨
    c.wellFormed bucketSize ∧
      if emptySlotHit hash256 c vTxHashes extraTxn then
        initData hash256 bucketSize c vTxHashes extraTxn {} = .error (.fault .nullDereference)
      else ∃ block, initData hash256 bucketSize c vTxHashes extraTxn {} = .ok block ∧
          block.txnAvailable.length = c.blockTxCount := by
  have hco := @checkCounts_meets c
  have hla := @layout_meets bucketSize c h
  unfold CBlockHeaderAndShortTxIDs.wellFormed
  cases hc : checkCounts c with
  | error e =>
    rw [hc] at hco
    obtain ⟨status, rfl⟩ := hco
    exact .inl ⟨rfl, status, by rw [initData, hc]; rfl⟩
  | ok _ =>
    cases hl : layout bucketSize c with
    | error e =>
      rw [hl] at hla
      obtain ⟨status, rfl⟩ := hla
      exact .inl ⟨rfl, status, by rw [initData, hc, hl]; rfl⟩
    | ok r =>
      obtain ⟨txnAvailable, shorttxids⟩ := r
      rw [hl] at hla
      obtain ⟨s₁, hp, hsc⟩ := @scan_pool hash256 _ _ _ _ _ hla (.init hla) vTxHashes
      have he := scan_extra hla hsc extraTxn
      refine .inr ⟨rfl, ?_⟩
      rw [initData_eq hc hl hp, emptySlotHit]
      split_ifs at he ⊢
      · rw [he]
        rfl
      · obtain ⟨s₂, hs₂, hsc₂⟩ := he
        refine ⟨_, by rw [hs₂]; rfl, ?_⟩
        exact hsc₂.length_txnAvailable.trans hla.length_eq

theorem initData_fault_iff (h : c.Deserialized) (vTxHashes : List (Uint256 × CTransaction))
    (extraTxn : List (Uint256 × Option CTransaction)) :
    (∃ fault, initData hash256 bucketSize c vTxHashes extraTxn {} = .error (.fault fault)) ↔
      c.wellFormed bucketSize ∧ emptySlotHit hash256 c vTxHashes extraTxn := by
  rcases @initData_cases hash256 bucketSize c h vTxHashes extraTxn with
    ⟨hform, status, he⟩ | ⟨hform, hc⟩
  · rw [he]
    simp [hform]
  · split_ifs at hc with hh
    · rw [hc]
      simp [hform, hh]
    · obtain ⟨block, he, -⟩ := hc
      rw [he]
      simp [hh]

end Safety

end Palladium.Net
