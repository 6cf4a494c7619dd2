import Palladium.Net.BlocksInFlight

/-! # Accounting of block downloads

The map of the blocks in flight and the lists of the peers list the same blocks, and every counter
has the value it stands for, whatever peers come and go.
-/

namespace Palladium.Net
open Finmap List Nat
variable {Index : Type}

def Queued (m : Finmap fun _ : NodeId => CNodeState Index) (hash : Uint256) (nodeid : NodeId)
    (it : ℕ) : Prop :=
  ∃ state, m.lookup nodeid = some state ∧ ∃ e ∈ state.vBlocksInFlight, e.hash = hash ∧ e.it = it

/-- The counters of a peer count its list, whose entries have iterators of their own. -/
structure CNodeState.Counted (nextIt : ℕ) (state : CNodeState Index) : Prop where
  it_lt : ∀ e ∈ state.vBlocksInFlight, e.it < nextIt
  it_ne : state.vBlocksInFlight.Pairwise fun e e' => e.it ≠ e'.it
  nBlocksInFlight : state.nBlocksInFlight = state.vBlocksInFlight.length
  validHeaders : state.nBlocksInFlightValidHeaders =
    state.vBlocksInFlight.countP (·.fValidatedHeaders)

def CNodeState.downloadsValidated (state : CNodeState Index) : Bool :=
  state.nBlocksInFlightValidHeaders ≠ 0

structure NodeStates.Accounted (g : NodeStates Index) : Prop where
  counted : ∀ nodeid state, g.mapNodeState.lookup nodeid = some state → state.Counted g.nextIt
  inFlight_iff : ∀ hash nodeid it, g.mapBlocksInFlight.lookup hash = some (nodeid, it) ↔
    Queued g.mapNodeState hash nodeid it
  preferred : g.nPreferredDownload = countValues (·.fPreferredDownload) g.mapNodeState
  validated : g.nPeersWithValidatedDownloads =
    countValues CNodeState.downloadsValidated g.mapNodeState
  protect : g.outboundPeersWithProtect = countValues (·.mProtect) g.mapNodeState

section Queued
variable {m : Finmap fun _ : NodeId => CNodeState Index} {hash : Uint256} {nodeid peer : NodeId}
  {it : ℕ} {state : CNodeState Index}

theorem queued_insert_self : Queued (m.insert nodeid state) hash nodeid it ↔
      ∃ e ∈ state.vBlocksInFlight, e.hash = hash ∧ e.it = it := by
  simp [Queued]

theorem queued_insert_of_ne (h : peer ≠ nodeid) :
    Queued (m.insert nodeid state) hash peer it ↔ Queued m hash peer it := by
  rw [Queued, lookup_insert_of_ne _ h, Queued]

theorem queued_erase : Queued (m.erase nodeid) hash peer it ↔
    peer ≠ nodeid ∧ Queued m hash peer it := by
  rcases eq_or_ne peer nodeid with rfl | h
  · simp [Queued]
  · rw [Queued, lookup_erase_ne h, ← Queued]
    simp [h]

theorem queued_insert_of_list {old : CNodeState Index} (h : m.lookup nodeid = some old)
    (hl : state.vBlocksInFlight = old.vBlocksInFlight) :
    Queued (m.insert nodeid state) hash peer it ↔ Queued m hash peer it := by
  rcases eq_or_ne peer nodeid with rfl | hn
  · rw [queued_insert_self, hl]
    simp [Queued, h]
  · exact queued_insert_of_ne hn

end Queued

section Peer
variable {state : CNodeState Index} {n : ℕ} {e : QueuedBlock Index}

theorem CNodeState.Counted.deref_eq (h : state.Counted n) (he : e ∈ state.vBlocksInFlight) :
    state.deref e.it = .ok e := by
  obtain ⟨_, _, -, hf, -⟩ := exists_split_of_handle h.it_ne he
  rw [CNodeState.deref, hf]

theorem CNodeState.Counted.mem_received (h : state.Counted n) (he : e ∈ state.vBlocksInFlight)
    (now : ℤ) (b : QueuedBlock Index) :
    b ∈ (state.received e now).vBlocksInFlight ↔ b ∈ state.vBlocksInFlight ∧ b.it ≠ e.it := by
  obtain ⟨_, _, -, -, her, hm⟩ := exists_split_of_handle h.it_ne he
  rw [CNodeState.received, her]
  exact hm b

theorem toNat_le_countP {l : List (QueuedBlock Index)} (he : e ∈ l) :
    e.fValidatedHeaders.toNat ≤ l.countP (·.fValidatedHeaders) := by
  cases hv : e.fValidatedHeaders with
  | false => exact Nat.zero_le _
  | true => exact countP_pos_iff.mpr ⟨e, he, hv⟩

theorem CNodeState.Counted.eq_of_it_eq (h : state.Counted n) (he : e ∈ state.vBlocksInFlight)
    {b : QueuedBlock Index} (hb : b ∈ state.vBlocksInFlight) (hi : b.it = e.it) : b = e := by
  have hf := h.deref_eq hb
  rw [hi, h.deref_eq he] at hf
  exact (Except.ok.inj hf).symm

theorem CNodeState.Counted.received (h : state.Counted n) (he : e ∈ state.vBlocksInFlight)
    (now : ℤ) : (state.received e now).Counted n := by
  obtain ⟨l₁, l₂, hs, -, her, -⟩ := exists_split_of_handle h.it_ne he
  have hl : (state.received e now).vBlocksInFlight = l₁ ++ l₂ := her
  refine ⟨fun b hb => h.it_lt b ((h.mem_received he now b).mp hb).1, ?_, ?_, ?_⟩
  · exact h.it_ne.sublist eraseP_sublist
  · have hle := h.nBlocksInFlight
    rw [hs, length_append, length_cons] at hle
    rw [hl, length_append]
    simp only [CNodeState.received]
    omega
  · have hc := h.validHeaders
    rw [hs, countP_append, countP_cons] at hc
    rw [hl, countP_append]
    simp only [CNodeState.received]
    cases hv : e.fValidatedHeaders <;> simp only [hv] at hc ⊢ <;> simp at hc ⊢ <;> omega

theorem CNodeState.Counted.requested (h : state.Counted n) (he : e.it = n) (now : ℤ) :
    (state.requested e now).Counted (n + 1) := by
  refine ⟨fun b hb => ?_, ?_, ?_, ?_⟩
  · rcases mem_append.mp hb with hb | hb
    · exact (h.it_lt b hb).trans n.lt_succ_self
    · rw [List.mem_singleton.mp hb, he]
      exact n.lt_succ_self
  · refine pairwise_append.mpr ⟨h.it_ne, pairwise_singleton .., fun b hb c hc => ?_⟩
    rw [List.mem_singleton.mp hc, he]
    exact (h.it_lt b hb).ne
  · simp [CNodeState.requested, h.nBlocksInFlight]
  · simp only [CNodeState.requested, h.validHeaders, countP_append, countP_singleton]
    cases e.fValidatedHeaders <;> simp

end Peer

theorem assert_eq {p : Prop} [Decidable p] (h : p) : assert (decide p) = .ok () := by
  rw [assert, decide_eq_true h, if_pos rfl]

namespace NodeStates
variable {g : NodeStates Index} {hash : Uint256} {nodeid : NodeId} {it : ℕ}
  {state : CNodeState Index} {b : Bool} {count count' : ℕ} {valid : ℤ}

theorem counted_insert {n n' : ℕ}
    (h : ∀ nodeid state, g.mapNodeState.lookup nodeid = some state → state.Counted n) (hn : n ≤ n')
    (hs : state.Counted n') (peer : NodeId) (other : CNodeState Index)
    (hl : (g.mapNodeState.insert nodeid state).lookup peer = some other) :
    other.Counted n' := by
  rcases eq_or_ne peer nodeid with rfl | hne
  · rw [lookup_insert] at hl
    exact Option.some.inj hl ▸ hs
  · rw [lookup_insert_of_ne _ hne] at hl
    have hold := h peer other hl
    exact ⟨fun e he => (hold.it_lt e he).trans_le hn, hold.it_ne, hold.nBlocksInFlight,
      hold.validHeaders⟩

theorem accounted_empty : ({} : NodeStates Index).Accounted where
  counted _ _ h := by simp at h
  inFlight_iff _ _ _ := by simp [Queued]
  preferred := rfl
  validated := rfl
  protect := rfl

theorem Accounted.initializeNode (h : g.Accounted) (nodeid : NodeId) :
    (g.initializeNode nodeid).Accounted := by
  unfold NodeStates.initializeNode
  split_ifs with hm
  · exact h
  · have hn : g.mapNodeState.lookup nodeid = none := lookup_eq_none.mpr hm
    have hnw : ({} : CNodeState Index).Counted g.nextIt := ⟨by simp, by simp, rfl, rfl⟩
    refine ⟨counted_insert h.counted le_rfl hnw, fun hash peer it => ?_, ?_, ?_, ?_⟩
    · rw [h.inFlight_iff]
      rcases eq_or_ne peer nodeid with rfl | hne
      · rw [queued_insert_self]
        simp [Queued, hn]
      · exact (queued_insert_of_ne hne).symm
    · rw [countValues_insert_of_notMem _ _ hm, h.preferred]
      rfl
    · rw [countValues_insert_of_notMem _ _ hm, h.validated]
      rfl
    · rw [countValues_insert_of_notMem _ _ hm, h.protect]
      rfl

theorem count_after_received (hv : b.toNat ≤ valid)
    (hc : count' + (decide (valid ≠ 0)).toNat = count + (decide (valid - b.toNat ≠ 0)).toNat) :
    (if valid - b.toNat = 0 ∧ b = true then (count : ℤ) - 1 else count) = count' := by
  cases b with
  | false =>
    simp only [Bool.toNat_false, cast_zero, sub_zero] at hc
    simp only [Bool.false_eq_true, and_false, if_false]
    omega
  | true =>
    have hn : valid ≠ 0 := by rintro rfl; simp at hv
    simp only [hn, ne_eq, not_false_eq_true, decide_true, Bool.toNat_true, Nat.cast_one,
      decide_not] at hc
    by_cases h0 : valid - 1 = 0
    all_goals
      simp [h0] at hc ⊢
      omega

theorem Accounted.markBlockAsReceived (h : g.Accounted) (hash : Uint256) (now : ℤ) :
    ∃ requested g', g.markBlockAsReceived hash now = .ok (requested, g') ∧ g'.Accounted ∧
      g'.mapBlocksInFlight.lookup hash = none ∧
      ∀ nodeid, nodeid ∈ g'.mapNodeState ↔ nodeid ∈ g.mapNodeState := by
  unfold NodeStates.markBlockAsReceived
  cases hi : g.mapBlocksInFlight.lookup hash with
  | none => exact ⟨false, g, rfl, h, hi, fun _ => Iff.rfl⟩
  | some p =>
    obtain ⟨nodeid, it⟩ := p
    obtain ⟨state, hs, e, he, rfl, rfl⟩ := (h.inFlight_iff hash nodeid it).mp hi
    have hc := h.counted nodeid state hs
    have hn := hc.received he now
    simp only [hs, assertState, hc.deref_eq he, bind, Except.bind]
    refine ⟨true, _, rfl, ⟨counted_insert h.counted le_rfl hn, fun o peer it => ?_, ?_, ?_, ?_⟩,
      lookup_erase _ _, fun id => ?_⟩
    · -- an entry for the received block would be the entry that was erased
      have ho : g.mapBlocksInFlight.lookup o = some (peer, it) →
          (o = e.hash ↔ peer = nodeid ∧ it = e.it) := by
        intro hlo
        constructor
        · rintro rfl
          rw [hi, Option.some.injEq, Prod.mk.injEq] at hlo
          exact ⟨hlo.1.symm, hlo.2.symm⟩
        · rintro ⟨rfl, rfl⟩
          obtain ⟨state', hs', e', he', rfl, hit⟩ := (h.inFlight_iff o peer e.it).mp hlo
          obtain rfl : state = state' := Option.some.inj (hs.symm.trans hs')
          rw [hc.eq_of_it_eq he he' hit]
      have hle : (g.mapBlocksInFlight.erase e.hash).lookup o = some (peer, it) ↔
          o ≠ e.hash ∧ g.mapBlocksInFlight.lookup o = some (peer, it) := by
        rcases eq_or_ne o e.hash with rfl | hne
        · simp
        · simp [lookup_erase_ne hne, hne]
      have hr : Queued (g.mapNodeState.insert nodeid (state.received e now)) o peer it ↔
          ¬ (peer = nodeid ∧ it = e.it) ∧ Queued g.mapNodeState o peer it := by
        rcases eq_or_ne peer nodeid with rfl | hne
        · rw [queued_insert_self]
          simp only [hc.mem_received he, Queued, hs, Option.some.injEq, exists_eq_left', true_and]
          constructor
          · rintro ⟨b, ⟨hb, hne⟩, hh, rfl⟩
            exact ⟨hne, b, hb, hh, rfl⟩
          · rintro ⟨hne, b, hb, hh, rfl⟩
            exact ⟨b, ⟨hb, hne⟩, hh, rfl⟩
        · rw [queued_insert_of_ne hne]
          simp [hne]
      rw [hle, hr, ← h.inFlight_iff]
      exact ⟨fun ⟨hne, hl⟩ => ⟨fun heq => hne ((ho hl).mpr heq), hl⟩,
        fun ⟨hne, hl⟩ => ⟨fun heq => hne ((ho hl).mp heq), hl⟩⟩
    · exact h.preferred.trans (congrArg _ (countValues_insert_of_eq _ hs (by rfl)).symm)
    · have hco := countValues_insert CNodeState.downloadsValidated (state.received e now) hs
      have hv : e.fValidatedHeaders.toNat ≤ state.nBlocksInFlightValidHeaders := by
        rw [hc.validHeaders]
        exact_mod_cast toNat_le_countP he
      rw [h.validated]
      simp only [CNodeState.downloadsValidated, CNodeState.received] at hco ⊢
      exact count_after_received hv hco
    · exact h.protect.trans (congrArg _ (countValues_insert_of_eq _ hs (by rfl)).symm)
    · rw [mem_insert]
      exact ⟨fun hid => hid.elim (fun heq => heq ▸ mem_of_lookup_eq_some hs) fun h => h, .inr⟩

theorem count_after_requested (hv : 0 ≤ valid)
    (hc : count' + (decide (valid ≠ 0)).toNat = count + (decide (valid + b.toNat ≠ 0)).toNat) :
    (if valid + b.toNat = 1 ∧ b = true then (count : ℤ) + 1 else count) = count' := by
  cases b with
  | false =>
    simp only [Bool.toNat_false, cast_zero, add_zero] at hc
    simp only [Bool.false_eq_true, and_false, if_false]
    omega
  | true =>
    have hn : valid + 1 ≠ 0 := by omega
    simp only [Bool.toNat_true, Nat.cast_one, hn, ne_eq, not_false_eq_true, decide_true,
      decide_not] at hc
    by_cases h0 : valid = 0
    all_goals
      simp [h0] at hc ⊢
      omega

theorem Accounted.requestFrom (h : g.Accounted) (hno : nodeid ∈ g.mapNodeState) (hash : Uint256)
    (pindex : Option Index) (pit : Bool) (now : ℤ) :
    ∃ isNew it g', markBlockAsInFlight.requestFrom nodeid hash pindex pit now g =
      .ok (isNew, it, g') ∧ g'.Accounted := by
  obtain ⟨_, g₁, hru, h₁, hn, hk⟩ := h.markBlockAsReceived hash now
  obtain ⟨s, hs⟩ := mem_iff.mp ((hk nodeid).mpr hno)
  have hc := h₁.counted nodeid s hs
  simp only [markBlockAsInFlight.requestFrom, hru, hs, assertState, bind, Except.bind]
  set entry : QueuedBlock Index := ⟨g₁.nextIt, hash, pindex, pindex.isSome, pit⟩ with he
  have hnw := hc.requested (e := entry) rfl now
  refine ⟨true, _, _, rfl, ⟨counted_insert h₁.counted (le_succ _) hnw,
    fun o peer it => ?_, ?_, ?_, ?_⟩⟩
  · have hnq : ∀ peer it, ¬ Queued g₁.mapNodeState hash peer it := fun peer it hq => by
      simp [(h₁.inFlight_iff hash peer it).mpr hq] at hn
    have hr : Queued (g₁.mapNodeState.insert nodeid (s.requested entry now)) o peer it ↔
        Queued g₁.mapNodeState o peer it ∨ o = hash ∧ peer = nodeid ∧ it = g₁.nextIt := by
      rcases eq_or_ne peer nodeid with rfl | hne
      · rw [queued_insert_self]
        simp only [CNodeState.requested, mem_append, List.mem_singleton, or_and_right,
          exists_or, exists_eq_left, Queued, hs, Option.some.injEq, exists_eq_left', he]
        simp [eq_comm]
      · rw [queued_insert_of_ne hne]
        simp [hne]
    rw [hr, ← h₁.inFlight_iff]
    rcases eq_or_ne o hash with rfl | hne
    · simp [hn, eq_comm]
    · simp [lookup_insert_of_ne _ hne, hne]
  · exact h₁.preferred.trans (congrArg _ (countValues_insert_of_eq _ hs (by rfl)).symm)
  · have hco := countValues_insert CNodeState.downloadsValidated (s.requested entry now)
      hs
    have hv : 0 ≤ s.nBlocksInFlightValidHeaders := by
      rw [hc.validHeaders]
      exact Int.natCast_nonneg _
    rw [h₁.validated]
    simp only [CNodeState.downloadsValidated, CNodeState.requested] at hco ⊢
    exact count_after_requested hv hco
  · exact h₁.protect.trans (congrArg _ (countValues_insert_of_eq _ hs (by rfl)).symm)

theorem Accounted.markBlockAsInFlight (h : g.Accounted) (hn : nodeid ∈ g.mapNodeState)
    (hash : Uint256) (pindex : Option Index) (pit : Bool) (now : ℤ) :
    ∃ isNew it g', g.markBlockAsInFlight nodeid hash pindex pit now = .ok (isNew, it, g') ∧
      g'.Accounted := by
  obtain ⟨s, hs⟩ := mem_iff.mp hn
  unfold NodeStates.markBlockAsInFlight
  simp only [hs, assertState, bind, Except.bind]
  split
  · split_ifs
    · exact ⟨_, _, _, rfl, h⟩
    · exact h.requestFrom hn hash pindex pit now
  · exact h.requestFrom hn hash pindex pit now

theorem Accounted.setPeer {g' : NodeStates Index} (state' : CNodeState Index) (h : g.Accounted)
    (hs : g.mapNodeState.lookup nodeid = some state)
    (hl : state'.vBlocksInFlight = state.vBlocksInFlight)
    (hc : state'.nBlocksInFlight = state.nBlocksInFlight)
    (hv : state'.nBlocksInFlightValidHeaders = state.nBlocksInFlightValidHeaders)
    (hg : g' = { g with
      mapNodeState := g.mapNodeState.insert nodeid state'
      nPreferredDownload := g.nPreferredDownload - state.fPreferredDownload.toNat +
        state'.fPreferredDownload.toNat
      outboundPeersWithProtect := g.outboundPeersWithProtect - state.mProtect.toNat +
        state'.mProtect.toNat }) : g'.Accounted := by
  have hold := h.counted nodeid state hs
  have hn : state'.Counted g.nextIt :=
    ⟨hl ▸ hold.it_lt, hl ▸ hold.it_ne, by rw [hc, hl, hold.nBlocksInFlight],
      by rw [hv, hl, hold.validHeaders]⟩
  have hp := countValues_insert (·.fPreferredDownload) state' hs
  have hpt := countValues_insert (·.mProtect) state' hs
  have := h.preferred
  have := h.protect
  subst hg
  refine ⟨counted_insert h.counted le_rfl hn, fun o peer it => ?_, ?_, ?_, ?_⟩
  · rw [h.inFlight_iff]
    exact (queued_insert_of_list hs hl).symm
  · dsimp only
    omega
  · refine h.validated.trans (congrArg _ (countValues_insert_of_eq _ hs ?_).symm)
    rw [CNodeState.downloadsValidated, hv, CNodeState.downloadsValidated]
  · dsimp only
    omega

theorem Accounted.updatePreferredDownload (h : g.Accounted) (hn : nodeid ∈ g.mapNodeState)
    (node : CNode) : ∃ g', g.updatePreferredDownload nodeid node = .ok g' ∧ g'.Accounted := by
  obtain ⟨s, hs⟩ := mem_iff.mp hn
  simp only [NodeStates.updatePreferredDownload, hs, assertState, bind, Except.bind]
  generalize ((!node.fInbound || node.hasPermissionNoBan) && !node.fOneShot && !node.fClient) = b
  refine ⟨_, rfl, h.setPeer { s with fPreferredDownload := b } hs rfl rfl rfl ?_⟩
  simp only [sub_add_cancel]

theorem Accounted.protectFromDisconnect (h : g.Accounted) (hn : nodeid ∈ g.mapNodeState)
    (candidate : Bool) :
    ∃ g', g.protectFromDisconnect nodeid candidate = .ok g' ∧ g'.Accounted := by
  obtain ⟨s, hs⟩ := mem_iff.mp hn
  simp only [NodeStates.protectFromDisconnect, hs, assertState, bind, Except.bind]
  split_ifs with hc
  · refine ⟨_, rfl, h.setPeer { s with mProtect := true } hs rfl rfl rfl ?_⟩
    have hf : s.mProtect = false := by simpa using hc.2.2
    simp [hf]
  · exact ⟨g, rfl, h⟩

theorem lookup_foldl_erase (l : List (QueuedBlock Index)) (m : Finmap fun _ : Uint256 => NodeId × ℕ)
    (hash : Uint256) :
    (l.foldl (fun m entry => m.erase entry.hash) m).lookup hash =
      if ∃ e ∈ l, e.hash = hash then none else m.lookup hash := by
  induction l generalizing m with
  | nil => simp
  | cons e l ih =>
    rw [foldl_cons, ih]
    by_cases hl : ∃ e ∈ l, e.hash = hash
    · rw [if_pos hl, if_pos (hl.imp fun b hb => ⟨mem_cons_of_mem _ hb.1, hb.2⟩)]
    · rw [if_neg hl]
      by_cases he : e.hash = hash
      · rw [if_pos ⟨e, mem_cons_self, he⟩, ← he, lookup_erase]
      · rw [lookup_erase_ne (Ne.symm he), if_neg]
        rintro ⟨b, hb, heq⟩
        rcases mem_cons.mp hb with rfl | hb
        · exact he heq
        · exact hl ⟨b, hb, heq⟩

theorem Accounted.removed (h : g.Accounted) (hs : g.mapNodeState.lookup nodeid = some state) :
    (g.removed nodeid state).Accounted := by
  have hp := countValues_erase (·.fPreferredDownload) hs
  have hv := countValues_erase CNodeState.downloadsValidated hs
  have hpt := countValues_erase (·.mProtect) hs
  have := h.preferred
  have := h.validated
  have := h.protect
  refine ⟨fun peer o ho => ?_, fun hash peer it => ?_, ?_, ?_, ?_⟩
  · have hne : peer ≠ nodeid := by
      rintro rfl
      simp [NodeStates.removed] at ho
    simp only [NodeStates.removed, lookup_erase_ne hne] at ho
    exact h.counted peer o ho
  · -- the blocks on the list of the peer are those that are in flight from it
    have hm : (∃ e ∈ state.vBlocksInFlight, e.hash = hash) ↔
        ∃ it, g.mapBlocksInFlight.lookup hash = some (nodeid, it) := by
      simp only [h.inFlight_iff, Queued, hs, Option.some.injEq, exists_eq_left']
      exact ⟨fun ⟨e, he, heq⟩ => ⟨e.it, e, he, heq, rfl⟩, fun ⟨_, e, he, heq, _⟩ => ⟨e, he, heq⟩⟩
    simp only [NodeStates.removed, lookup_foldl_erase, queued_erase, ← h.inFlight_iff]
    split_ifs with hi
    · obtain ⟨it', hi'⟩ := hm.mp hi
      rw [hi', Option.some.injEq, Prod.mk.injEq]
      constructor
      · intro hn
        cases hn
      · rintro ⟨hne, heq, -⟩
        exact absurd heq.symm hne
    · refine ⟨fun hl => ⟨?_, hl⟩, And.right⟩
      rintro rfl
      exact hi (hm.mpr ⟨it, hl⟩)
  · simp only [NodeStates.removed]
    omega
  · simp only [NodeStates.removed]
    unfold CNodeState.downloadsValidated at *
    omega
  · simp only [NodeStates.removed]
    omega

theorem Accounted.inFlight_empty (h : g.Accounted) (he : g.mapNodeState.keys = ∅) :
    g.mapBlocksInFlight.keys = ∅ := by
  rw [Finset.eq_empty_iff_forall_notMem] at he ⊢
  intro hash hm
  obtain ⟨⟨nodeid, it⟩, hl⟩ := mem_iff.mp (mem_keys.mp hm)
  obtain ⟨s, hs, -⟩ := (h.inFlight_iff hash nodeid it).mp hl
  exact he nodeid (mem_keys.mpr (mem_of_lookup_eq_some hs))

theorem Accounted.finalizeNode (h : g.Accounted) (hn : nodeid ∈ g.mapNodeState) :
    ∃ updateTime g', g.finalizeNode nodeid = .ok (updateTime, g') ∧ g'.Accounted := by
  obtain ⟨s, hs⟩ := mem_iff.mp hn
  have h' := h.removed hs
  have hv : (g.removed nodeid s).nPeersWithValidatedDownloads ≥ 0 :=
    h'.validated ▸ Int.natCast_nonneg _
  have hp : (g.removed nodeid s).outboundPeersWithProtect ≥ 0 :=
    h'.protect ▸ Int.natCast_nonneg _
  refine ⟨s.nMisbehavior = 0 && s.fCurrentlyConnected, g.removed nodeid s, ?_, h'⟩
  simp only [NodeStates.finalizeNode, hs, assertState, assert_eq hv,
    assert_eq hp, bind, Except.bind]
  by_cases he : (g.removed nodeid s).mapNodeState.keys = ∅
  · have hpd₀ : (g.removed nodeid s).nPreferredDownload = 0 := by
      rw [h'.preferred, countValues_eq_zero_of_keys he, cast_zero]
    have hv₀ : (g.removed nodeid s).nPeersWithValidatedDownloads = 0 := by
      rw [h'.validated, countValues_eq_zero_of_keys he, cast_zero]
    have hp₀ : (g.removed nodeid s).outboundPeersWithProtect = 0 := by
      rw [h'.protect, countValues_eq_zero_of_keys he, cast_zero]
    rw [if_pos he, assert_eq (h'.inFlight_empty he), assert_eq hpd₀, assert_eq hv₀, assert_eq hp₀]
    rfl
  · rw [if_neg he]
    rfl

end NodeStates

/-- A call of one of the functions above. -/
inductive Call (Index : Type)
  | initializeNode (nodeid : NodeId)
  | markBlockAsInFlight (nodeid : NodeId) (hash : Uint256) (pindex : Option Index) (pit : Bool)
      (now : ℤ)
  | markBlockAsReceived (hash : Uint256) (now : ℤ)
  | finalizeNode (nodeid : NodeId)
  | updatePreferredDownload (nodeid : NodeId) (node : CNode)
  | protectFromDisconnect (nodeid : NodeId) (candidate : Bool)

namespace Call
variable (g : NodeStates Index)

def run : Call Index → Except Fault (NodeStates Index)
  | initializeNode nodeid => .ok (g.initializeNode nodeid)
  | markBlockAsInFlight nodeid hash pindex pit now =>
    (g.markBlockAsInFlight nodeid hash pindex pit now).map (·.2.2)
  | markBlockAsReceived hash now => (g.markBlockAsReceived hash now).map (·.2)
  | finalizeNode nodeid => (g.finalizeNode nodeid).map (·.2)
  | updatePreferredDownload nodeid node => g.updatePreferredDownload nodeid node
  | protectFromDisconnect nodeid candidate => g.protectFromDisconnect nodeid candidate

/-- The call is made for a peer that has been initialised and not finalised. -/
def ForPeer : Call Index → Prop
  | initializeNode _ | markBlockAsReceived _ _ => True
  | markBlockAsInFlight nodeid _ _ _ _ | finalizeNode nodeid | updatePreferredDownload nodeid _
  | protectFromDisconnect nodeid _ => nodeid ∈ g.mapNodeState

instance (g : NodeStates Index) : (c : Call Index) → Decidable (c.ForPeer g)
  | initializeNode _ | markBlockAsReceived _ _ => isTrue trivial
  | markBlockAsInFlight nodeid _ _ _ _ | finalizeNode nodeid | updatePreferredDownload nodeid _
  | protectFromDisconnect nodeid _ => inferInstanceAs (Decidable (nodeid ∈ g.mapNodeState))

end Call

inductive Reachable : NodeStates Index → Prop
  | init : Reachable {}
  | call {g g' : NodeStates Index} {c : Call Index} :
      Reachable g → c.ForPeer g → c.run g = .ok g' → Reachable g'

variable {g : NodeStates Index}

theorem NodeStates.Accounted.run (h : g.Accounted) {c : Call Index} (hp : c.ForPeer g) :
    ∃ g', c.run g = .ok g' ∧ g'.Accounted := by
  cases c with
  | initializeNode nodeid => exact ⟨_, rfl, h.initializeNode nodeid⟩
  | markBlockAsInFlight nodeid hash pindex pit now =>
    obtain ⟨_, _, g', hr, h'⟩ := h.markBlockAsInFlight hp hash pindex pit now
    exact ⟨g', by rw [Call.run, hr]; rfl, h'⟩
  | markBlockAsReceived hash now =>
    obtain ⟨_, g', hr, h', -⟩ := h.markBlockAsReceived hash now
    exact ⟨g', by rw [Call.run, hr]; rfl, h'⟩
  | finalizeNode nodeid =>
    obtain ⟨_, g', hr, h'⟩ := h.finalizeNode hp
    exact ⟨g', by rw [Call.run, hr]; rfl, h'⟩
  | updatePreferredDownload nodeid node => exact h.updatePreferredDownload hp node
  | protectFromDisconnect nodeid candidate => exact h.protectFromDisconnect hp candidate

theorem Reachable.accounted (h : Reachable g) : g.Accounted := by
  induction h with
  | init => exact NodeStates.accounted_empty
  | call _ hp hr ih =>
    obtain ⟨g', hr', h'⟩ := ih.run hp
    rw [hr] at hr'
    exact Except.ok.inj hr' ▸ h'

/-- In every state that calls lead to, a block is in flight from one peer at most, the map and the
lists agree, the counters count, and no further call fails an assertion. -/
theorem Reachable.download_accounting {g : NodeStates Index} (h : Reachable g) :
    (∀ hash nodeid nodeid' it it', Queued g.mapNodeState hash nodeid it →
      Queued g.mapNodeState hash nodeid' it' → nodeid = nodeid' ∧ it = it') ∧
    (∀ hash nodeid it, g.mapBlocksInFlight.lookup hash = some (nodeid, it) ↔
      ∃ state, g.mapNodeState.lookup nodeid = some state ∧
        ∃ e ∈ state.vBlocksInFlight, e.hash = hash ∧ e.it = it ∧ state.deref it = .ok e) ∧
    (∀ nodeid state, g.mapNodeState.lookup nodeid = some state →
      state.nBlocksInFlight = state.vBlocksInFlight.length ∧
      state.nBlocksInFlightValidHeaders = state.vBlocksInFlight.countP (·.fValidatedHeaders)) ∧
    g.nPeersWithValidatedDownloads =
      countValues (fun state => state.nBlocksInFlightValidHeaders ≠ 0) g.mapNodeState ∧
    ∀ c : Call Index, c.ForPeer g → ∃ g', c.run g = .ok g' := by
  have ha := h.accounted
  refine ⟨fun hash nodeid nodeid' it it' hq hq' => ?_, fun hash nodeid it => ?_,
    fun nodeid state hs => ?_, ha.validated, fun c hc => ?_⟩
  · rw [← ha.inFlight_iff] at hq hq'
    exact Prod.mk.inj (Option.some.inj (hq.symm.trans hq'))
  · rw [ha.inFlight_iff]
    constructor
    · rintro ⟨state, hs, e, he, hh, rfl⟩
      exact ⟨state, hs, e, he, hh, rfl, (ha.counted nodeid state hs).deref_eq he⟩
    · rintro ⟨state, hs, e, he, hh, hi, -⟩
      exact ⟨state, hs, e, he, hh, hi⟩
  · exact ⟨(ha.counted nodeid state hs).nBlocksInFlight, (ha.counted nodeid state hs).validHeaders⟩
  · obtain ⟨g', hr, -⟩ := ha.run hc
    exact ⟨g', hr⟩

/-- A block is requested from a peer, then from another one, which goes after that. -/
theorem Reachable.download_accounting_moved : ∃ g g' : NodeStates Unit,
      g.mapBlocksInFlight.lookup 5 = some (2, 1) ∧ g.nPeersWithValidatedDownloads = 1 ∧
      (Call.finalizeNode 2).run g = .ok g' := by
  have h₂ : Reachable ((({} : NodeStates Unit).initializeNode 1).initializeNode 2) :=
    .call (c := .initializeNode 2) (.call (c := .initializeNode 1) .init trivial rfl) trivial rfl
  have h₃ := Reachable.call (c := .markBlockAsInFlight 1 5 (some ()) false 10) h₂ (by decide) rfl
  have h₄ := Reachable.call (c := .markBlockAsInFlight 2 5 (some ()) false 20) h₃ (by decide) rfl
  obtain ⟨g', hr⟩ := h₄.download_accounting.2.2.2.2 (.finalizeNode 2) (by decide)
  exact ⟨_, g', by decide, by decide, hr⟩

end Palladium.Net
