import Palladium.Coins.Database
import Palladium.Lib.Forest
import Palladium.Validation.UndoInverse

/-! # Replaying blocks

`ReplayBlocks` finishes a flush that was interrupted: it rolls the coins back from the old head to
the last common ancestor of the two heads and forward to the new head, and flushes the result.
-/

namespace Palladium
open CoinsM

/-- The entries of the block index with the blocks and the undo data on disk. -/
structure BlockStore (ι : Type) extends Forest ι where
  params : Params
  hash : ι → Uint256
  mBlockIndex : Uint256 → Option ι
  block : ι → CBlock
  /-- What `ConnectBlock` wrote for the block. -/
  vtxundo : ι → List CTxUndo
  haveData : ι → Bool
  haveUndo : ι → Bool
  fScriptChecks : ι → Bool
  checks : ι → ScriptChecks
  mBlockIndex_hash : ∀ b, mBlockIndex (hash b) = some b
  hash_ne_zero : ∀ b, hash b ≠ 0
  root : ∀ b, parent b = none → hash b = params.hashGenesisBlock ∧ height b = 0

namespace BlockStore
variable {ι : Type} (S : BlockStore ι)

/-- What `ConnectBlock` reads of the entry. -/
def context (b : ι) : ConnectContext where
  params := S.params
  hash := S.hash b
  pprev := (S.parent b).map fun p => (S.hash p, S.height p)
  hashAtBIP34Height :=
    (S.parent b).bind fun p => (S.ancestorAt p S.params.BIP34Height).map S.hash
  fScriptChecks := S.fScriptChecks b
  checks := S.checks b

def readBlockFromDisk (b : ι) : Option CBlock := if S.haveData b then some (S.block b) else none

def undoReadFromDisk (b : ι) : Option (List CTxUndo) :=
  if S.haveUndo b then some (S.vtxundo b) else none

variable [DecidableEq ι]

/-- The loop of `LastCommonAncestor` along two walks to the root. -/
def meet : List ι → List ι → Option ι
  | pa :: as, pb :: bs => if pa = pb then some pa else meet as bs
  | _, _ => none

def lowered (pa pb : ι) : Option ι :=
  if S.height pa > S.height pb then S.ancestorAt pa (S.height pb) else some pa

def lastCommonAncestor (pa pb : ι) : Option ι := do
  let pa' ← S.lowered pa pb
  let pb' ← S.lowered pb pa
  meet (S.path pa') (S.path pb')

/-- `DisconnectBlock` without the best block, which `ReplayBlocks` sets at its end. -/
def disconnectBlock (pindex : ι) (block : CBlock) : CoinsM DisconnectResult :=
  match S.undoReadFromDisk pindex with
  | none => pure .failed
  | some vtxundo => disconnectCoins (S.height pindex) block.vtx vtxundo

def rollbackBlock (pindexOld : ι) : CoinsM Unit :=
  if S.height pindexOld > 0 then
    match S.readBlockFromDisk pindexOld with
    | none => .halt (.failure "RollbackBlock(): ReadBlockFromDisk() failed")
    | some block => do
      let res ← S.disconnectBlock pindexOld block
      if res = .failed then .halt (.failure "RollbackBlock(): DisconnectBlock failed") else pure ()
  else pure ()

/-- Roll back along the walk from the old head. -/
def rollback (pindexFork : ι) : List ι → CoinsM Unit
  | [] => pure ()
  | pindexOld :: walk =>
    if pindexOld = pindexFork then pure ()
    else do
      S.rollbackBlock pindexOld
      rollback pindexFork walk

/-- `SpendCoin` for every input, whether or not there is a coin. -/
def spendAll : List COutPoint → CoinsM Unit
  | [] => pure ()
  | o :: os => do
    let _ ← spendCoin o
    spendAll os

def rollforwardTxs (nHeight : ℕ) : List CTransaction → CoinsM Unit
  | [] => pure ()
  | tx :: vtx => do
    spendAll (if tx.isCoinBase then [] else tx.vin.map (·.prevout))
    addCoins tx nHeight true
    rollforwardTxs nHeight vtx

def rollforwardBlock (pindex : ι) : CoinsM Unit :=
  match S.readBlockFromDisk pindex with
  | none => .halt (.failure "ReplayBlock(): ReadBlockFromDisk failed")
  | some block => rollforwardTxs (S.height pindex) block.vtx

/-- Roll forward through the ancestors of the new head at the heights. -/
def rollforward (pindexNew : ι) : List ℕ → CoinsM Unit
  | [] => pure ()
  | nHeight :: heights =>
    match S.ancestorAt pindexNew nHeight with
    | none => .halt .assertion
    | some pindex => do
      S.rollforwardBlock pindex
      rollforward pindexNew heights

/-- The old head and the fork, none on the first flush. -/
def oldHead (hashOld : Uint256) (pindexNew : ι) : Except Halt (Option (ι × ι)) :=
  if hashOld = 0 then .ok none
  else
    match S.mBlockIndex hashOld with
    | none => .error (.failure "ReplayBlocks(): reorganization from unknown block requested")
    | some pindexOld =>
      match S.lastCommonAncestor pindexOld pindexNew with
      | none => .error .assertion
      | some pindexFork => .ok (some (pindexOld, pindexFork))

/-- Roll back and forward; `old` is the old head with the fork. -/
def replay (old : Option (ι × ι)) (pindexNew : ι) : CoinsM Unit := do
  old.elim (pure ()) fun w => S.rollback w.2 (S.path w.1)
  let nForkHeight := old.elim 0 fun w => S.height w.2
  S.rollforward pindexNew (List.range' (nForkHeight + 1) (S.height pindexNew - nForkHeight))

def replayBlocks (db : CCoinsViewDB) (full : CDBBatch → Bool) (it : IterationOrder) :
    Except Halt (List CDBBatch) :=
  match db.getHeadBlocks with
  | [] => .ok []
  | [hashNew, hashOld] =>
    match S.mBlockIndex hashNew with
    | none => .error (.failure "ReplayBlocks(): reorganization to unknown block requested")
    | some pindexNew => do
      let old ← S.oldHead hashOld pindexNew
      let r ← (S.replay old pindexNew).run cacheMachine (.onView db.view)
      let cache := r.2.setBestBlock (S.hash pindexNew)
      db.batchWrite full (it.order cache.top) cache.top.hashBlock
  | _ => .error (.failure "ReplayBlocks(): unknown inconsistent state")

end BlockStore

end Palladium
