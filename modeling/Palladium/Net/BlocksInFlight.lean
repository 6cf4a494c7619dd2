import Palladium.Consensus.Params
import Palladium.Lib.MapCount

/-! # Blocks in flight

Each peer has a list of the blocks requested from it.
-/

namespace Palladium.Net

abbrev NodeId := ℤ

inductive Fault | assertion | danglingIterator
  deriving DecidableEq, Repr

/-- A block that was requested. An iterator to it is the number `it` it got in the list. -/
structure QueuedBlock (Index : Type) where
  it : ℕ
  hash : Uint256
  pindex : Option Index
  fValidatedHeaders : Bool
  partialBlock : Bool

structure CNodeState (Index : Type) where
  nMisbehavior : ℤ := 0
  fCurrentlyConnected : Bool := false
  fSyncStarted : Bool := false
  nStallingSince : ℤ := 0
  vBlocksInFlight : List (QueuedBlock Index) := []
  nDownloadingSince : ℤ := 0
  nBlocksInFlight : ℤ := 0
  nBlocksInFlightValidHeaders : ℤ := 0
  fPreferredDownload : Bool := false
  /-- The flag `m_chain_sync.m_protect`. -/
  mProtect : Bool := false

/-- The variables over all peers. List entries are numbered by `nextIt`. -/
structure NodeStates (Index : Type) where
  mapNodeState : Finmap fun _ : NodeId => CNodeState Index := ∅
  mapBlocksInFlight : Finmap fun _ : Uint256 => NodeId × ℕ := ∅
  nSyncStarted : ℤ := 0
  nPreferredDownload : ℤ := 0
  nPeersWithValidatedDownloads : ℤ := 0
  outboundPeersWithProtect : ℤ := 0
  nextIt : ℕ := 0

/-- The fields of a connection that make a peer a preferred one. -/
structure CNode where
  fInbound : Bool
  hasPermissionNoBan : Bool
  fOneShot : Bool
  fClient : Bool

def maxOutboundPeersToProtectFromDisconnect : ℤ := 4

def assert (b : Bool) : Except Fault Unit := if b then .ok () else .error .assertion

def assertState {α : Type} : Option α → Except Fault α
  | some state => .ok state
  | none => .error .assertion

variable {Index : Type} (state : CNodeState Index)

def CNodeState.deref (it : ℕ) : Except Fault (QueuedBlock Index) :=
  match state.vBlocksInFlight.find? (·.it = it) with
  | some entry => .ok entry
  | none => .error .danglingIterator

variable (entry : QueuedBlock Index)

/-- The state of a peer after one of its blocks was taken off the list. -/
def CNodeState.received (now : ℤ) : CNodeState Index :=
  { state with
    nBlocksInFlightValidHeaders :=
      state.nBlocksInFlightValidHeaders - entry.fValidatedHeaders.toNat
    nDownloadingSince :=
      if state.vBlocksInFlight.head?.map (·.it) = some entry.it then
        max state.nDownloadingSince now
      else state.nDownloadingSince
    vBlocksInFlight := state.vBlocksInFlight.eraseP (·.it = entry.it)
    nBlocksInFlight := state.nBlocksInFlight - 1
    nStallingSince := 0 }

/-- The state of a peer after a block was put on its list. -/
def CNodeState.requested (now : ℤ) : CNodeState Index :=
  { state with
    vBlocksInFlight := state.vBlocksInFlight ++ [entry]
    nBlocksInFlight := state.nBlocksInFlight + 1
    nBlocksInFlightValidHeaders :=
      state.nBlocksInFlightValidHeaders + entry.fValidatedHeaders.toNat
    nDownloadingSince := if state.nBlocksInFlight + 1 = 1 then now else state.nDownloadingSince }

namespace NodeStates
variable (nodeid : NodeId) (g : NodeStates Index)

def initializeNode : NodeStates Index :=
  if nodeid ∈ g.mapNodeState then g
  else { g with mapNodeState := g.mapNodeState.insert nodeid {} }

/-- Whether the block had been requested. -/
def markBlockAsReceived (hash : Uint256) (now : ℤ) (g : NodeStates Index) :
    Except Fault (Bool × NodeStates Index) :=
  match g.mapBlocksInFlight.lookup hash with
  | none => .ok (false, g)
  | some (nodeid, it) => do
    let state ← assertState (g.mapNodeState.lookup nodeid)
    let entry ← state.deref it
    let state := state.received entry now
    .ok (true, { g with
      mapNodeState := g.mapNodeState.insert nodeid state
      mapBlocksInFlight := g.mapBlocksInFlight.erase hash
      nPeersWithValidatedDownloads :=
        if state.nBlocksInFlightValidHeaders = 0 ∧ entry.fValidatedHeaders then
          g.nPeersWithValidatedDownloads - 1
        else g.nPeersWithValidatedDownloads })

/-- Whether the block was not yet in flight from the same peer, and the iterator to it. -/
def markBlockAsInFlight (hash : Uint256) (pindex : Option Index) (pit : Bool) (now : ℤ)
    (g : NodeStates Index) : Except Fault (Bool × ℕ × NodeStates Index) := do
  let _ ← assertState (g.mapNodeState.lookup nodeid)
  match g.mapBlocksInFlight.lookup hash with
  | some (peer, it) => if peer = nodeid then return (false, it, g) else requestFrom g
  | none => requestFrom g
where
  /-- The part after the shortcut. -/
  requestFrom (g : NodeStates Index) : Except Fault (Bool × ℕ × NodeStates Index) := do
    let (_, g) ← g.markBlockAsReceived hash now
    -- the pointer to the state is still valid
    let state ← assertState (g.mapNodeState.lookup nodeid)
    let entry : QueuedBlock Index :=
      { it := g.nextIt, hash, pindex, fValidatedHeaders := pindex.isSome, partialBlock := pit }
    let state := state.requested entry now
    .ok (true, entry.it, { g with
      mapNodeState := g.mapNodeState.insert nodeid state
      mapBlocksInFlight := g.mapBlocksInFlight.insert hash (nodeid, entry.it)
      nPeersWithValidatedDownloads :=
        if state.nBlocksInFlightValidHeaders = 1 ∧ pindex.isSome then
          g.nPeersWithValidatedDownloads + 1
        else g.nPeersWithValidatedDownloads
      nextIt := g.nextIt + 1 })

def updatePreferredDownload (node : CNode) (g : NodeStates Index) :
    Except Fault (NodeStates Index) := do
  let state ← assertState (g.mapNodeState.lookup nodeid)
  let preferred :=
    (!node.fInbound || node.hasPermissionNoBan) && !node.fOneShot && !node.fClient
  .ok { g with
    mapNodeState := g.mapNodeState.insert nodeid { state with fPreferredDownload := preferred }
    nPreferredDownload :=
      g.nPreferredDownload - state.fPreferredDownload.toNat + preferred.toNat }

/-- The protection that `ProcessHeadersMessage` gives to some outbound peers. -/
def protectFromDisconnect (candidate : Bool) (g : NodeStates Index) :
    Except Fault (NodeStates Index) := do
  let state ← assertState (g.mapNodeState.lookup nodeid)
  if candidate ∧ g.outboundPeersWithProtect < maxOutboundPeersToProtectFromDisconnect ∧
      ¬ state.mProtect then
    .ok { g with
      mapNodeState := g.mapNodeState.insert nodeid { state with mProtect := true }
      outboundPeersWithProtect := g.outboundPeersWithProtect + 1 }
  else .ok g

def removed (nodeid : NodeId) (state : CNodeState Index) : NodeStates Index :=
  { g with
    nSyncStarted := g.nSyncStarted - state.fSyncStarted.toNat
    mapBlocksInFlight :=
      state.vBlocksInFlight.foldl (fun m entry => m.erase entry.hash) g.mapBlocksInFlight
    nPreferredDownload := g.nPreferredDownload - state.fPreferredDownload.toNat
    nPeersWithValidatedDownloads := g.nPeersWithValidatedDownloads -
      (decide (state.nBlocksInFlightValidHeaders ≠ 0)).toNat
    outboundPeersWithProtect := g.outboundPeersWithProtect - state.mProtect.toNat
    mapNodeState := g.mapNodeState.erase nodeid }

/-- The removal of a peer, and the value of `fUpdateConnectionTime`. -/
def finalizeNode : Except Fault (Bool × NodeStates Index) := do
  let state ← assertState (g.mapNodeState.lookup nodeid)
  let fUpdateConnectionTime := state.nMisbehavior = 0 && state.fCurrentlyConnected
  let g := g.removed nodeid state
  assert (g.nPeersWithValidatedDownloads ≥ 0)
  assert (g.outboundPeersWithProtect ≥ 0)
  if g.mapNodeState.keys = ∅ then
    assert (g.mapBlocksInFlight.keys = ∅)
    assert (g.nPreferredDownload = 0)
    assert (g.nPeersWithValidatedDownloads = 0)
    assert (g.outboundPeersWithProtect = 0)
  return (fUpdateConnectionTime, g)

end NodeStates

end Palladium.Net
