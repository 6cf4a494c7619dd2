import Palladium.Consensus.Params

/-! # Requests for headers that were suppressed

While a `getheaders` is in flight to a peer, further ones are not sent; the latest is remembered and
sent when headers arrive.
-/

namespace Palladium.Net
open List

/-- What `ProcessHeadersMessage` reads of a header. -/
structure HeaderLink where
  hash : Uint256
  hashPrevBlock : Uint256

/-- What `ProcessNewBlockHeaders` says of a list of headers. One that is not accepted is invalid. -/
inductive Verdict
  | valid
  /-- only this many headers were accepted -/
  | invalid (accepted : ℕ)
  deriving DecidableEq

/-- A request that was suppressed, and how many had been sent before. -/
structure SuppressedRequest where
  stop : Uint256
  nSent : ℕ
  deriving DecidableEq

structure HeaderSync where
  now : ℤ
  mapBlockIndex : List Uint256
  nLastGetHeadersTime : ℤ := 0
  mGetheadersDeferred : Bool := false
  mGetheadersDeferredStop : Uint256 := 0
  /-- the stops of the `getheaders` messages to the peer -/
  sent : List Uint256 := []
  /-- the requests suppressed since headers were accepted last -/
  suppressed : List SuppressedRequest := []

def headersResponseTime : ℤ := 2 * 60

def maxHeadersResults : ℕ := 2000

def maxBlocksToAnnounce : ℕ := 8

def continuousHeaders : Uint256 → List HeaderLink → Bool
  | _, [] => true
  | hashLastBlock, header :: rest =>
    (hashLastBlock = 0 || header.hashPrevBlock = hashLastBlock) &&
      continuousHeaders header.hash rest

namespace HeaderSync

/-- A `getheaders` message is put on the wire. -/
def pushGetHeaders (stop : Uint256) (s : HeaderSync) : HeaderSync :=
  { s with sent := s.sent ++ [stop] }

/-- Whether the request was sent. -/
def maybeSendGetHeaders (stop : Uint256) (s : HeaderSync) : Bool × HeaderSync :=
  if s.nLastGetHeadersTime ≠ 0 ∧ s.now - s.nLastGetHeadersTime < headersResponseTime then
    (false, { s with
      mGetheadersDeferred := true
      mGetheadersDeferredStop := stop
      suppressed := s.suppressed ++ [⟨stop, s.sent.length⟩] })
  else (true, { s.pushGetHeaders stop with nLastGetHeadersTime := s.now })

def sendDeferredGetHeaders (s : HeaderSync) : HeaderSync :=
  if s.mGetheadersDeferred then
    let stop := s.mGetheadersDeferredStop
    let s := { s with mGetheadersDeferred := false }
    if stop ≠ 0 ∧ stop ∈ s.mapBlockIndex then s else (s.maybeSendGetHeaders stop).2
  else s

def addToBlockIndex (hashes : List Uint256) (s : HeaderSync) : HeaderSync :=
  { s with mapBlockIndex := s.mapBlockIndex ++ hashes }

/-- The rest of `ProcessHeadersMessage` once the headers are in the block index. -/
def headersAccepted (nCount : ℕ) (s : HeaderSync) : HeaderSync :=
  let s := { s with nLastGetHeadersTime := 0 }
  let s := if nCount < maxHeadersResults then s.sendDeferredGetHeaders
    else { s with mGetheadersDeferred := false }
  if nCount = maxHeadersResults then s.pushGetHeaders 0 else s

variable (headers : List HeaderLink)

/-- Whether the message was processed, and the new state. -/
def processHeadersMessage (verdict : Verdict) (s : HeaderSync) : Bool × HeaderSync :=
  match headers with
  | [] => (true, sendDeferredGetHeaders { s with nLastGetHeadersTime := 0 })
  | first :: _ =>
    if first.hashPrevBlock ∉ s.mapBlockIndex ∧ headers.length < maxBlocksToAnnounce then
      (true, (s.maybeSendGetHeaders 0).2)
    else if !continuousHeaders 0 headers then (false, s)
    else match verdict with
      | .invalid accepted => (false, s.addToBlockIndex ((headers.take accepted).map (·.hash)))
      | .valid =>
        (true, (s.addToBlockIndex (headers.map (·.hash))).headersAccepted headers.length)

/-- The headers are empty, or connect to the block index and are all valid. -/
def accepts (verdict : Verdict) (s : HeaderSync) : Bool :=
  match headers with
  | [] => true
  | first :: _ =>
    ¬(first.hashPrevBlock ∉ s.mapBlockIndex ∧ headers.length < maxBlocksToAnnounce) ∧
      continuousHeaders 0 headers ∧ verdict = .valid

end HeaderSync

inductive SyncEvent
  /-- a handler asks for the headers up to a block -/
  | request (stop : Uint256)
  | headers (headers : List HeaderLink) (verdict : Verdict)
  | clock (now : ℤ)
  /-- the block index grows through other peers -/
  | learn (hashes : List Uint256)
  /-- the headers are asked for without `MaybeSendGetHeaders` -/
  | sync

namespace HeaderSync

def step (s : HeaderSync) : SyncEvent → HeaderSync
  | .request stop => (s.maybeSendGetHeaders stop).2
  | .headers headers verdict =>
    -- the handler refuses a message with too many headers
    if maxHeadersResults < headers.length then s
    else
      let s' := (s.processHeadersMessage headers verdict).2
      if s.accepts headers verdict then { s' with suppressed := [] } else s'
  | .clock now => { s with now := now }
  | .learn hashes => s.addToBlockIndex hashes
  | .sync => s.pushGetHeaders 0

/-- The states that any sequence of events leads to, from any block index. -/
inductive Reachable : HeaderSync → Prop
  | init (now : ℤ) (mapBlockIndex : List Uint256) : Reachable { now, mapBlockIndex }
  | step {s : HeaderSync} (event : SyncEvent) : Reachable s → Reachable (s.step event)

def Answered (mapBlockIndex sent : List Uint256) (r : SuppressedRequest) : Prop :=
  (r.stop ≠ 0 ∧ r.stop ∈ mapBlockIndex) ∨ 0 ∈ sent.drop r.nSent ∨ r.stop ∈ sent.drop r.nSent

instance (mapBlockIndex sent : List Uint256) (r : SuppressedRequest) :
    Decidable (Answered mapBlockIndex sent r) :=
  inferInstanceAs (Decidable (_ ∨ _))

/-- The latest suppressed request is the one remembered. -/
structure Inv (s : HeaderSync) : Prop where
  deferred : ∀ last ∈ s.suppressed.getLast?,
    s.mGetheadersDeferred = true ∧ s.mGetheadersDeferredStop = last.stop
  nSent_le : ∀ r ∈ s.suppressed, r.nSent ≤ s.sent.length

section Steps
variable {s : HeaderSync}

theorem Inv.of_suppressed_nil (h : s.suppressed = []) : Inv s where
  deferred _ hlast := by simp [h] at hlast
  nSent_le _ hr := by simp [h] at hr

theorem Inv.maybeSendGetHeaders (h : Inv s) (stop : Uint256) : Inv (s.maybeSendGetHeaders stop).2 := by
  unfold HeaderSync.maybeSendGetHeaders
  split_ifs
  · refine ⟨fun last hl => ?_, fun r hr => ?_⟩
    · simp only [List.getLast?_concat, Option.mem_some_iff] at hl
      exact ⟨rfl, hl ▸ rfl⟩
    · rcases mem_append.mp hr with hr | hr
      · exact h.nSent_le r hr
      · rw [mem_singleton.mp hr]
  · refine ⟨h.deferred, fun r hr => ?_⟩
    have := h.nSent_le r hr
    simp only [pushGetHeaders, length_append]
    omega

theorem Inv.processHeadersMessage (h : Inv s) {headers : List HeaderLink} {verdict : Verdict}
    (hr : s.accepts headers verdict = false) :
    Inv (s.processHeadersMessage headers verdict).2 := by
  unfold HeaderSync.processHeadersMessage
  split
  next => cases hr
  next =>
    split_ifs with hco hc
    · exact h.maybeSendGetHeaders 0
    · exact h
    · split
      next => exact ⟨h.deferred, h.nSent_le⟩
      next =>
        rw [Bool.not_eq_true', Bool.not_eq_false] at hc
        exact absurd ⟨hco, hc, rfl⟩ (of_decide_eq_false hr)

theorem Inv.step (h : Inv s) (event : SyncEvent) : Inv (s.step event) := by
  cases event with
  | request stop => exact h.maybeSendGetHeaders stop
  | headers headers verdict =>
    simp only [HeaderSync.step]
    split_ifs with hm ha
    · exact h
    · exact .of_suppressed_nil rfl
    · exact h.processHeadersMessage (by simpa using ha)
  | clock | learn => exact ⟨h.deferred, h.nSent_le⟩
  | sync =>
    refine ⟨h.deferred, fun r hr => ?_⟩
    have := h.nSent_le r hr
    simp only [HeaderSync.step, pushGetHeaders, length_append]
    omega

theorem Reachable.inv (h : Reachable s) : Inv s := by
  induction h with
  | init => exact .of_suppressed_nil rfl
  | step event _ ih => exact ih.step event

end Steps

section Accepted
variable {s : HeaderSync} {headers : List HeaderLink} {verdict : Verdict}

/-- The requests that are sent when headers are accepted. -/
def followUps (nCount : ℕ) (s : HeaderSync) : List Uint256 :=
  if nCount = maxHeadersResults then [0]
  else if s.mGetheadersDeferred ∧
      ¬(s.mGetheadersDeferredStop ≠ 0 ∧ s.mGetheadersDeferredStop ∈ s.mapBlockIndex) then
    [s.mGetheadersDeferredStop]
  else []

theorem sent_sendDeferredGetHeaders (h : s.nLastGetHeadersTime = 0) :
    s.sendDeferredGetHeaders.sent = s.sent ++ if s.mGetheadersDeferred ∧
          ¬(s.mGetheadersDeferredStop ≠ 0 ∧ s.mGetheadersDeferredStop ∈ s.mapBlockIndex) then
        [s.mGetheadersDeferredStop]
      else [] := by
  unfold sendDeferredGetHeaders
  dsimp only
  split_ifs with hd hk hs hs hs
  · exact absurd hk hs.2
  · exact (append_nil _).symm
  · rw [maybeSendGetHeaders, if_neg (fun hp => hp.1 h)]
    rfl
  · exact absurd ⟨hd, hk⟩ hs
  · exact absurd hs.1 hd
  · exact (append_nil _).symm

variable {nCount : ℕ}

theorem sent_headersAccepted (hn : nCount ≤ maxHeadersResults) :
    (s.headersAccepted nCount).sent = s.sent ++ s.followUps nCount := by
  unfold headersAccepted followUps
  dsimp only
  rcases hn.lt_or_eq with hl | rfl
  · rw [if_pos hl, if_neg hl.ne, if_neg hl.ne]
    exact sent_sendDeferredGetHeaders rfl
  · simp [pushGetHeaders]

theorem mapBlockIndex_sendDeferredGetHeaders :
    s.sendDeferredGetHeaders.mapBlockIndex = s.mapBlockIndex := by
  unfold sendDeferredGetHeaders maybeSendGetHeaders pushGetHeaders
  dsimp only
  split_ifs <;> rfl

theorem mapBlockIndex_headersAccepted : (s.headersAccepted nCount).mapBlockIndex = s.mapBlockIndex := by
  unfold headersAccepted pushGetHeaders
  dsimp only
  split_ifs <;> first | rfl | exact mapBlockIndex_sendDeferredGetHeaders

theorem processHeadersMessage_of_accepts (h : s.accepts headers verdict) :
    s.processHeadersMessage headers verdict =
      (true, (s.addToBlockIndex (headers.map (·.hash))).headersAccepted headers.length) := by
  cases headers with
  | nil => simp [processHeadersMessage, headersAccepted, addToBlockIndex, maxHeadersResults]
  | cons first rest =>
    obtain ⟨hco, hc, rfl⟩ := of_decide_eq_true h
    simp only [processHeadersMessage, if_neg hco, hc, Bool.not_true, Bool.false_eq_true, if_false]

theorem answered_append {mapBlockIndex sent more : List Uint256} {r : SuppressedRequest}
    (h : r.nSent ≤ sent.length) :
    Answered mapBlockIndex (sent ++ more) r ↔
      Answered mapBlockIndex sent r ∨ 0 ∈ more ∨ r.stop ∈ more := by
  unfold Answered
  rw [drop_append_of_le_length h, mem_append, mem_append]
  tauto

theorem answered_followUps_iff {last r : SuppressedRequest}
    (hl : s.mGetheadersDeferred ∧ s.mGetheadersDeferredStop = last.stop)
    (h : r.nSent ≤ s.sent.length) :
    Answered s.mapBlockIndex (s.sent ++ s.followUps nCount) r ↔
      nCount = maxHeadersResults ∨ Answered s.mapBlockIndex s.sent r ∨
        last.stop = r.stop ∨ last.stop = 0 := by
  rw [answered_append h, followUps, hl.1, hl.2]
  by_cases hf : nCount = maxHeadersResults
  · simp [hf]
  by_cases hk : last.stop ≠ 0 ∧ last.stop ∈ s.mapBlockIndex
  · have hs : last.stop = r.stop → Answered s.mapBlockIndex s.sent r :=
      fun h => .inl (h ▸ hk)
    simp only [hf, hk, if_false, ne_eq, not_true_eq_false, not_false_eq_true,
      and_true, and_false, not_mem_nil, or_false, false_or, iff_self_or]
    exact hs
  · simp only [hf, hk, if_false, not_false_eq_true, and_self, if_true, mem_singleton,
      false_or, eq_comm]
    tauto

end Accepted

/-- An accepted message answers the latest suppressed request, and an earlier one exactly if it is
answered already, asks for the same, or the latest asks for everything; a full message answers all.
-/
theorem accepted_headers_answer {s : HeaderSync} (h : Reachable s) {headers : List HeaderLink}
    {verdict : Verdict} (hmany : headers.length ≤ maxHeadersResults)
    (haccepts : s.accepts headers verdict = true) :
    let s' := (s.processHeadersMessage headers verdict).2
    (∀ last ∈ s.suppressed.getLast?, Answered s'.mapBlockIndex s'.sent last) ∧
    ∀ r ∈ s.suppressed, Answered s'.mapBlockIndex s'.sent r ↔
      headers.length = maxHeadersResults ∨ Answered s'.mapBlockIndex s.sent r ∨
        ∃ last ∈ s.suppressed.getLast?, last.stop = r.stop ∨ last.stop = 0 := by
  have hi := h.inv
  have hif : ∀ last ∈ s.suppressed.getLast?, ∀ r ∈ s.suppressed,
      Answered (s.mapBlockIndex ++ headers.map (·.hash))
          (s.sent ++ (s.addToBlockIndex (headers.map (·.hash))).followUps headers.length) r ↔
        headers.length = maxHeadersResults ∨
          Answered (s.mapBlockIndex ++ headers.map (·.hash)) s.sent r ∨
            last.stop = r.stop ∨ last.stop = 0 :=
    fun last hl r hr => answered_followUps_iff (s := s.addToBlockIndex _)
      (hi.deferred last hl) (hi.nSent_le r hr)
  dsimp only
  rw [processHeadersMessage_of_accepts haccepts, mapBlockIndex_headersAccepted,
    sent_headersAccepted hmany]
  refine ⟨fun last hl => ?_, fun r hr => ?_⟩
  · exact (hif last hl last (mem_of_getLast? hl)).mpr (.inr (.inr (.inl rfl)))
  · obtain ⟨last, hl⟩ : ∃ last, last ∈ s.suppressed.getLast? :=
      Option.isSome_iff_exists.mp (List.getLast?_isSome.mpr (ne_nil_of_mem hr))
    refine (hif last hl r hr).trans (or_congr_right (or_congr_right ?_))
    exact ⟨fun h => ⟨last, hl, h⟩, fun ⟨_, h, hs⟩ => Option.mem_unique h hl ▸ hs⟩

/-- A peer answers a request for block `1` while requests for `2` and `3` are suppressed. -/
def twoSuppressed : HeaderSync :=
  [SyncEvent.request 1, .request 2, .request 3].foldl HeaderSync.step
    { now := 1000, mapBlockIndex := [7] }

theorem reachable_twoSuppressed : Reachable twoSuppressed :=
  .step (.request 3) (.step (.request 2) (.step (.request 1) (.init 1000 [7])))

theorem accepted_headers_answer_two : Answered [7, 1] [1, 3] ⟨3, 1⟩ :=
  (@accepted_headers_answer twoSuppressed reachable_twoSuppressed [⟨1, 7⟩] .valid (by decide)
    (by decide)).1 ⟨3, 1⟩ rfl

/-- The request for block `2` is lost. -/
theorem suppressed_request_lost :
    ∃ s : HeaderSync, Reachable s ∧ ∃ headers verdict, headers.length ≤ maxHeadersResults ∧
      s.accepts headers verdict = true ∧
      let s' := (s.processHeadersMessage headers verdict).2
      ∃ r ∈ s.suppressed, ¬ Answered s'.mapBlockIndex s'.sent r :=
  ⟨twoSuppressed, reachable_twoSuppressed, [⟨1, 7⟩], .valid, by decide, by decide, ⟨2, 1⟩,
    by decide, by decide⟩

end HeaderSync

end Palladium.Net
