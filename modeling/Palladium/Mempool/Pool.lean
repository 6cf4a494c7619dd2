import Palladium.Consensus.TxVerify
import Palladium.Lib.Worklist
import Palladium.Primitives.TxSerialize

/-! # The memory pool

`CTxMemPool` with its transactions, the links between them, the totals each entry keeps over
ancestors and descendants, and the index `vTxHashes`.
-/

namespace Palladium

abbrev Txid := Uint256

def mempoolHeight : ℕ := 0x7FFFFFFF

abbrev DescendantState := ℤ × ℤ × ℤ

abbrev AncestorState := ℤ × ℤ × ℤ × ℤ

structure CTxMemPoolEntry where
  tx : CTransaction
  nFee : ℤ
  nTxWeight : ℕ
  /-- `GetTxSize`, which the weight and the signature operations determine. -/
  nTxSize : ℕ
  nTime : ℤ
  sigOpCost : ℕ
  feeDelta : ℤ
  descendantState : DescendantState
  ancestorState : AncestorState
  deriving DecidableEq, Repr

def getTransactionWeight (tx : CTransaction) : ℕ :=
  (tx.serialize false).length * (witnessScaleFactor - 1) + (tx.serialize true).length

def getVirtualTransactionSize (nWeight nSigOpCost bytesPerSigop : ℕ) : ℕ :=
  (max nWeight (nSigOpCost * bytesPerSigop) + witnessScaleFactor - 1) / witnessScaleFactor

namespace CTxMemPoolEntry
variable (e : CTxMemPoolEntry)

def modifiedFee : ℤ := e.nFee + e.feeDelta

def descendantShare : DescendantState := (e.nTxSize, e.modifiedFee, 1)

def ancestorShare : AncestorState :=
  (e.nTxSize, e.modifiedFee, 1, e.sigOpCost)

def nSizeWithDescendants : ℤ := e.descendantState.1
def nModFeesWithDescendants : ℤ := e.descendantState.2.1
def nCountWithDescendants : ℤ := e.descendantState.2.2
def nSizeWithAncestors : ℤ := e.ancestorState.1
def nModFeesWithAncestors : ℤ := e.ancestorState.2.1
def nCountWithAncestors : ℤ := e.ancestorState.2.2.1
def nSigOpCostWithAncestors : ℤ := e.ancestorState.2.2.2

/-- The constructor, for the option `-bytespersigop`. -/
def ofTx (bytesPerSigop : ℕ) (tx : CTransaction) (nFee nTime : ℤ) (sigOpCost : ℕ) :
    CTxMemPoolEntry :=
  let nTxWeight := getTransactionWeight tx
  let nTxSize := getVirtualTransactionSize nTxWeight sigOpCost bytesPerSigop
  { tx := tx, nFee := nFee, nTxWeight := nTxWeight, nTxSize := nTxSize, nTime := nTime
    sigOpCost := sigOpCost, feeDelta := 0, descendantState := (nTxSize, nFee, 1)
    ancestorState := (nTxSize, nFee, 1, sigOpCost) }

@[simps]
def updateDescendantState (m : DescendantState) (e : CTxMemPoolEntry) : CTxMemPoolEntry :=
  { e with descendantState := e.descendantState + m }

@[simps]
def updateAncestorState (m : AncestorState) (e : CTxMemPoolEntry) : CTxMemPoolEntry :=
  { e with ancestorState := e.ancestorState + m }

@[simps]
def updateFeeDelta (newFeeDelta : ℤ) (e : CTxMemPoolEntry) : CTxMemPoolEntry :=
  { e with
    descendantState := e.descendantState + (0, newFeeDelta - e.feeDelta, 0)
    ancestorState := e.ancestorState + (0, newFeeDelta - e.feeDelta, 0, 0)
    feeDelta := newFeeDelta }

end CTxMemPoolEntry

structure CTxMemPool where
  /-- The transactions in `mapTx`. -/
  mapTx : Finset Txid
  entry : Txid → CTxMemPoolEntry
  /-- `mapLinks`. -/
  parents : Txid → Finset Txid
  children : Txid → Finset Txid
  mapNextTx : COutPoint → Option Txid
  mapDeltas : Txid → Option ℤ
  totalTxSize : ℤ
  vTxHashes : List (Uint256 × Txid)
  /-- A field of the entries. -/
  vTxHashesIdx : Txid → ℕ

def CTransaction.prevouts (tx : CTransaction) : List COutPoint := tx.vin.map (·.prevout)

namespace CTxMemPool

@[simps! mapTx entry parents children mapNextTx mapDeltas totalTxSize vTxHashes vTxHashesIdx]
def empty : CTxMemPool where
  mapTx := ∅
  entry _ := .ofTx 0 ⟨[], [], 0, 0, 0⟩ 0 0 0
  parents _ := ∅
  children _ := ∅
  mapNextTx _ := none
  mapDeltas _ := none
  totalTxSize := 0
  vTxHashes := []
  vTxHashesIdx _ := 0

variable (pool : CTxMemPool) (s : Finset Txid)

@[simps]
def modify (f : CTxMemPoolEntry → CTxMemPoolEntry) : CTxMemPool :=
  { pool with entry := fun h => if h ∈ s then f (pool.entry h) else pool.entry h }

@[simps]
def updateChild (child : Txid) (add : Bool) : CTxMemPool :=
  { pool with
    children := fun h =>
      if h ∈ s then if add then insert child (pool.children h) else (pool.children h).erase child
      else pool.children h }

@[simps]
def updateParent (parent : Txid) (add : Bool) : CTxMemPool :=
  { pool with
    parents := fun h =>
      if h ∈ s then if add then insert parent (pool.parents h) else (pool.parents h).erase parent
      else pool.parents h }

def parentsOf (tx : CTransaction) : Finset Txid :=
  (tx.prevouts.map (·.hash)).toFinset ∩ pool.mapTx

section Walks
variable (σ : SetOrder Txid) (pool : CTxMemPool)

def calculateDescendants (entryit : Txid) (setDescendants : Finset Txid) : Finset Txid :=
  σ.search pool.children pool.mapTx.card (if entryit ∈ setDescendants then ∅ else {entryit})
    setDescendants

def calculateMemPoolAncestors (parentHashes : Finset Txid) : Finset Txid :=
  σ.search pool.parents pool.mapTx.card parentHashes ∅

def calculateAllDescendants (s : Finset Txid) : Finset Txid :=
  (σ.elems s).foldl (fun setAllRemoves it => calculateDescendants σ pool it setAllRemoves) ∅

end Walks

variable (pool : CTxMemPool)

@[simps! mapTx entry parents children mapNextTx mapDeltas totalTxSize vTxHashes vTxHashesIdx]
def updateAncestorsOf (add : Bool) (it : Txid) (setAncestors : Finset Txid) : CTxMemPool :=
  let share := (pool.entry it).descendantShare
  (pool.updateChild (pool.parents it) it add).modify setAncestors
    (.updateDescendantState (if add then share else -share))

variable (it : Txid)

@[simps! mapTx entry parents children mapNextTx mapDeltas totalTxSize vTxHashes vTxHashesIdx]
def updateEntryForAncestors (setAncestors : Finset Txid) : CTxMemPool :=
  pool.modify {it} (.updateAncestorState (∑ a ∈ setAncestors, (pool.entry a).ancestorShare))

/-- The insertions into `mapTx` and `mapLinks`, which do not replace an entry. -/
@[simps]
def insertEntry (entry : CTxMemPoolEntry) : CTxMemPool :=
  let newit := entry.tx.hash
  { pool with
    mapTx := insert newit pool.mapTx
    entry := if newit ∈ pool.mapTx then pool.entry else Function.update pool.entry newit entry
    parents := if newit ∈ pool.mapTx then pool.parents else Function.update pool.parents newit ∅
    children :=
      if newit ∈ pool.mapTx then pool.children else Function.update pool.children newit ∅ }

def storedDelta (hash : Txid) : ℤ := (pool.mapDeltas hash).getD 0

@[simps! mapTx entry parents children mapNextTx mapDeltas totalTxSize vTxHashes vTxHashesIdx]
def applyDelta (hash : Txid) : CTxMemPool :=
  pool.modify {hash} fun e =>
    if pool.storedDelta hash ≠ 0 then e.updateFeeDelta (pool.storedDelta hash) else e

@[simps]
def insertNextTx : CTxMemPool :=
  { pool with
    mapNextTx := fun o =>
      if o ∈ (pool.entry it).tx.prevouts then (pool.mapNextTx o).orElse fun _ => some it
      else pool.mapNextTx o }

@[simps]
def linkParents : CTxMemPool :=
  { pool with
    parents := Function.update pool.parents it
      (pool.parents it ∪ pool.parentsOf (pool.entry it).tx) }

variable (getWitnessHash : CTransaction → Uint256)

@[simps]
def pushTxHash (it : Txid) : CTxMemPool :=
  { pool with
    vTxHashes := pool.vTxHashes ++ [(getWitnessHash (pool.entry it).tx, it)]
    vTxHashesIdx := Function.update pool.vTxHashesIdx it pool.vTxHashes.length }

@[simps]
def addSize (nTxSize : ℤ) : CTxMemPool :=
  { pool with totalTxSize := pool.totalTxSize + nTxSize }

@[simps! mapTx mapDeltas totalTxSize]
def addUnchecked (entry : CTxMemPoolEntry) (setAncestors : Finset Txid) : CTxMemPool :=
  let newit := entry.tx.hash
  let pool := (pool.insertEntry entry).applyDelta newit
  let pool := (pool.insertNextTx newit).linkParents newit
  let pool := pool.updateAncestorsOf true newit setAncestors
  let pool := pool.updateEntryForAncestors newit setAncestors
  (pool.addSize entry.nTxSize).pushTxHash getWitnessHash newit

variable {pool : CTxMemPool} {getWitnessHash : CTransaction → Uint256} {entry : CTxMemPoolEntry}

theorem addUnchecked_vTxHashes (setAncestors : Finset Txid) :
    (pool.addUnchecked getWitnessHash entry setAncestors).vTxHashes =
      pool.vTxHashes ++ [(getWitnessHash
        ((pool.addUnchecked getWitnessHash entry setAncestors).entry entry.tx.hash).tx,
          entry.tx.hash)] :=
  rfl

/-- What no update changes is as it was, or as it came with the entry. -/
theorem addUnchecked_field {α : Type} {f : CTxMemPoolEntry → α}
    (ha : ∀ m e, f (.updateAncestorState m e) = f e)
    (hd : ∀ m e, f (.updateDescendantState m e) = f e)
    (hde : ∀ d e, f (.updateFeeDelta d e) = f e) (hn : entry.tx.hash ∉ pool.mapTx)
    (setAncestors : Finset Txid) (h : Txid) :
    f ((pool.addUnchecked getWitnessHash entry setAncestors).entry h) =
      if h = entry.tx.hash then f entry else f (pool.entry h) := by
  simp only [addUnchecked, pushTxHash_entry, addSize_entry, updateEntryForAncestors_entry,
    updateAncestorsOf_entry, linkParents_entry, insertNextTx_entry, applyDelta_entry,
    insertEntry_entry, if_neg hn, Function.update_apply, apply_ite f, ha, hd,
    hde, ite_self]

theorem addUnchecked_tx (hn : entry.tx.hash ∉ pool.mapTx) (setAncestors : Finset Txid)
    (h : Txid) : ((pool.addUnchecked getWitnessHash entry setAncestors).entry h).tx =
      if h = entry.tx.hash then entry.tx else (pool.entry h).tx :=
  addUnchecked_field (fun _ _ => rfl) (fun _ _ => rfl) (fun _ _ => rfl) hn setAncestors h

theorem addUnchecked_nTxSize (hn : entry.tx.hash ∉ pool.mapTx) (setAncestors : Finset Txid)
    (h : Txid) : ((pool.addUnchecked getWitnessHash entry setAncestors).entry h).nTxSize =
      if h = entry.tx.hash then entry.nTxSize else (pool.entry h).nTxSize :=
  addUnchecked_field (fun _ _ => rfl) (fun _ _ => rfl) (fun _ _ => rfl) hn setAncestors h

variable (pool)

/-- Remove an entry from `vTxHashes`, with the last one in its place. -/
@[simps]
def popTxHash (it : Txid) : CTxMemPool :=
  let back := pool.vTxHashes.getLastD (0, it)
  { pool with
    vTxHashes :=
      if pool.vTxHashes.length > 1 then
        (pool.vTxHashes.set (pool.vTxHashesIdx it) back).dropLast
      else []
    vTxHashesIdx :=
      if pool.vTxHashes.length > 1 then
        Function.update pool.vTxHashesIdx back.2 (pool.vTxHashesIdx it)
      else pool.vTxHashesIdx }

@[simps! mapTx entry parents children mapNextTx mapDeltas totalTxSize vTxHashes vTxHashesIdx]
def removeUnchecked (it : Txid) : CTxMemPool :=
  { pool.popTxHash it with
    mapNextTx := fun o => if o ∈ (pool.entry it).tx.prevouts then none else pool.mapNextTx o
    totalTxSize := pool.totalTxSize - (pool.entry it).nTxSize
    parents := Function.update pool.parents it ∅
    children := Function.update pool.children it ∅
    mapTx := pool.mapTx.erase it }

@[simps! mapTx entry parents children mapNextTx mapDeltas totalTxSize vTxHashes vTxHashesIdx]
def updateChildrenForRemoval (it : Txid) : CTxMemPool :=
  pool.updateParent (pool.children it) it false

@[simps]
def clearPrioritisation (hash : Txid) : CTxMemPool :=
  { pool with mapDeltas := Function.update pool.mapDeltas hash none }

@[simps]
def setDelta (hash : Txid) (delta : ℤ) : CTxMemPool :=
  { pool with mapDeltas := Function.update pool.mapDeltas hash (some delta) }

@[simps! mapTx entry parents children mapNextTx mapDeltas totalTxSize vTxHashes vTxHashesIdx]
def clear : CTxMemPool :=
  { pool with
    parents := fun _ => ∅
    children := fun _ => ∅
    mapTx := ∅
    mapNextTx := fun _ => none
    totalTxSize := 0 }

variable {pool}
section Remove
variable (σ : SetOrder Txid)

def updateDescendantsOf (pool : CTxMemPool) (removeIt : Txid) : CTxMemPool :=
  pool.modify ((calculateDescendants σ pool removeIt ∅).erase removeIt)
    (.updateAncestorState (-(pool.entry removeIt).ancestorShare))

/-- Take a removed entry out of the totals of its ancestors and out of the links of its parents. -/
def severFromParents (pool : CTxMemPool) (removeIt : Txid) : CTxMemPool :=
  pool.updateAncestorsOf false removeIt
    (calculateMemPoolAncestors σ pool (pool.parents removeIt))

def updateForRemoveFromMempool (pool : CTxMemPool) (entriesToRemove : Finset Txid)
    (updateDescendants : Bool) : CTxMemPool :=
  let l := σ.elems entriesToRemove
  let pool := if updateDescendants then l.foldl (updateDescendantsOf σ) pool else pool
  let pool := l.foldl (severFromParents σ) pool
  l.foldl updateChildrenForRemoval pool

def removeStaged (pool : CTxMemPool) (stage : Finset Txid) (updateDescendants : Bool) :
    CTxMemPool :=
  (σ.elems stage).foldl removeUnchecked (updateForRemoveFromMempool σ pool stage updateDescendants)

def spendersOf (pool : CTxMemPool) (tx : CTransaction) : Finset Txid :=
  ((List.range tx.vout.length).filterMap fun i => pool.mapNextTx ⟨tx.hash, i⟩).toFinset

def removeRecursive (pool : CTxMemPool) (origTx : CTransaction) : CTxMemPool :=
  let txToRemove := if origTx.hash ∈ pool.mapTx then {origTx.hash} else pool.spendersOf origTx
  removeStaged σ pool (calculateAllDescendants σ pool txToRemove) false

def removeConflict (tx : CTransaction) (pool : CTxMemPool) (txin : CTxIn) : CTxMemPool :=
  match pool.mapNextTx txin.prevout with
  | none => pool
  | some h =>
    let txConflict := (pool.entry h).tx
    if txConflict.hash ≠ tx.hash then
      removeRecursive σ (pool.clearPrioritisation txConflict.hash) txConflict
    else pool

def removeConflicts (pool : CTxMemPool) (tx : CTransaction) : CTxMemPool :=
  tx.vin.foldl (removeConflict σ tx) pool

def removeBlockTx (pool : CTxMemPool) (tx : CTransaction) : CTxMemPool :=
  let pool := if tx.hash ∈ pool.mapTx then removeStaged σ pool {tx.hash} true else pool
  (removeConflicts σ pool tx).clearPrioritisation tx.hash

def removeForBlock (pool : CTxMemPool) (vtx : List CTransaction) : CTxMemPool :=
  vtx.foldl (removeBlockTx σ) pool

/-- Remove the transactions that entered before a time, and their descendants. -/
def expire (pool : CTxMemPool) (time : ℤ) : CTxMemPool :=
  let toremove := pool.mapTx.filter fun h => (pool.entry h).nTime < time
  removeStaged σ pool (calculateAllDescendants σ pool toremove) false

/-- The loop of `TrimToSize`: while too much memory is used, the first entry by descendant score is
removed with its descendants. -/
def trimToSize (dynamicMemoryUsage : CTxMemPool → ℕ) (worst : CTxMemPool → Txid) (sizelimit : ℕ) :
    (fuel : ℕ) → CTxMemPool → CTxMemPool
  | 0, pool => pool
  | fuel + 1, pool =>
    if pool.mapTx.Nonempty ∧ dynamicMemoryUsage pool > sizelimit then
      trimToSize dynamicMemoryUsage worst sizelimit fuel
        (removeStaged σ pool (calculateDescendants σ pool (worst pool) ∅) false)
    else pool

def prioritiseTransaction (pool : CTxMemPool) (hash : Txid) (nFeeDelta : ℤ) : CTxMemPool :=
  let delta := pool.storedDelta hash + nFeeDelta
  let pool := pool.setDelta hash delta
  if hash ∈ pool.mapTx then
    let pool := pool.modify {hash} (.updateFeeDelta delta)
    let pool := pool.modify (calculateMemPoolAncestors σ pool (pool.parents hash))
      (.updateDescendantState (0, nFeeDelta, 0))
    pool.modify ((calculateDescendants σ pool hash ∅).erase hash)
      (.updateAncestorState (0, nFeeDelta, 0, 0))
  else pool

end Remove

def sampleEntry (hash : Txid) (prevouts : List COutPoint) : CTxMemPoolEntry :=
  .ofTx 20 ⟨prevouts.map fun o => ⟨o, [], 0, []⟩, [⟨0, []⟩], 2, 0, hash⟩ 1000 0 4

end CTxMemPool

end Palladium
