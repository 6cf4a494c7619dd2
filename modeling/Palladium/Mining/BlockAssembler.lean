import Mathlib.Data.Prod.Lex
import Palladium.Mempool.Pool

/-! # Selecting transactions for a block

`BlockAssembler::addPackageTxs`.
-/

namespace Palladium

structure CFeeRate where
  nSatoshisPerK : ℤ
  deriving DecidableEq, Repr

def CFeeRate.getFee (rate : CFeeRate) (nSize : ℤ) : ℤ :=
  let nFee := (rate.nSatoshisPerK * nSize).tdiv 1000
  if nFee = 0 ∧ nSize ≠ 0 then
    if rate.nSatoshisPerK > 0 then 1 else if rate.nSatoshisPerK < 0 then -1 else nFee
  else nFee

abbrev PackageState := ℤ × ℤ × ℤ

namespace CTxMemPoolEntry
variable (e : CTxMemPoolEntry)

def packageShare : PackageState := (e.nTxSize, e.modifiedFee, e.sigOpCost)

def packageState : PackageState :=
  (e.nSizeWithAncestors, e.nModFeesWithAncestors, e.nSigOpCostWithAncestors)

/-- What `update_for_parent_inclusion` subtracts, which is the fee without its delta. -/
def inclusionShare : PackageState := (e.nTxSize, e.nFee, e.sigOpCost)

end CTxMemPoolEntry

structure BlockAssembler where
  m_mempool : CTxMemPool
  /-- `options.nBlockMaxWeight`. -/
  optionMaxWeight : ℕ
  blockMinFeeRate : CFeeRate
  fIncludeWitness : Bool
  nHeight : ℤ
  nLockTimeCutoff : ℤ

/-- The block so far, and the variables of the loop. -/
structure AssemblerState where
  vtx : List Txid
  inBlock : Finset Txid
  nBlockWeight : ℕ
  nBlockTx : ℕ
  nBlockSigOpsCost : ℕ
  nFees : ℤ
  /-- The transactions in `mapModifiedTx`. -/
  mapModifiedTx : Finset Txid
  modified : Txid → PackageState
  failedTx : Finset Txid
  /-- The part of the index by ancestor score that `mi` has not passed. -/
  mi : List Txid
  nConsecutiveFailed : ℕ

/-- How a turn of the loop ends. -/
inductive AssemblerTurn
  | next (s : AssemblerState)
  | done (s : AssemblerState)

/-- The order of the two indexes by ancestor score. -/
structure PackageOrder (pool : CTxMemPool) where
  mapTx : List Txid
  nodup : mapTx.Nodup
  mem_mapTx : ∀ {h}, h ∈ mapTx ↔ h ∈ pool.mapTx
  /-- The first entry of `mapModifiedTx`. -/
  best : Finset Txid → (Txid → PackageState) → Option Txid
  best_mem : ∀ {s m h}, best s m = some h → h ∈ s
  best_none : ∀ {s m}, best s m = none → s = ∅
  better : Txid × PackageState → Txid × PackageState → Bool

def Uint256.memoryKey (a : Uint256) : ℕ := readLE a.bytes.reverse

namespace BlockAssembler

def nBlockMaxWeight (a : BlockAssembler) : ℕ := max 4000 (min (maxBlockWeight - 4000) a.optionMaxWeight)

def maxConsecutiveFailures : ℕ := 1000

variable (σ : SetOrder Txid) (a : BlockAssembler)

def resetBlock : AssemblerState where
  vtx := []
  inBlock := ∅
  nBlockWeight := 4000
  nBlockTx := 0
  nBlockSigOpsCost := 400
  nFees := 0
  mapModifiedTx := ∅
  modified _ := 0
  failedTx := ∅
  mi := []
  nConsecutiveFailed := 0

variable (s : AssemblerState)

def testPackage (packageSize packageSigOpsCost : ℤ) : Bool :=
  if s.nBlockWeight + witnessScaleFactor * packageSize ≥ a.nBlockMaxWeight then false
  else if s.nBlockSigOpsCost + packageSigOpsCost ≥ maxBlockSigopsCost then false
  else true

def testTransaction (tx : CTransaction) : Bool :=
  isFinalTx tx a.nHeight a.nLockTimeCutoff && (a.fIncludeWitness || !tx.hasWitness)

def testPackageTransactions (package : Finset Txid) : Bool :=
  (σ.elems package).all fun it => a.testTransaction (a.m_mempool.entry it).tx

variable (iter : Txid)

def addToBlock : AssemblerState :=
  let e := a.m_mempool.entry iter
  { s with
    vtx := s.vtx ++ [iter]
    nBlockWeight := s.nBlockWeight + e.nTxWeight
    nBlockTx := s.nBlockTx + 1
    nBlockSigOpsCost := s.nBlockSigOpsCost + e.sigOpCost
    nFees := s.nFees + e.nFee
    inBlock := insert iter s.inBlock }

def addSortedEntry : AssemblerState :=
  let s := a.addToBlock s iter
  { s with mapModifiedTx := s.mapModifiedTx.erase iter }

variable (alreadyAdded : Finset Txid)

/-- The descendants of one added transaction that are not added with it. -/
def updatePackagesFor (s : AssemblerState) (it : Txid) : AssemblerState :=
  let descendants := CTxMemPool.calculateDescendants σ a.m_mempool it ∅ \ alreadyAdded
  let e := a.m_mempool.entry it
  { s with
    mapModifiedTx := s.mapModifiedTx ∪ descendants
    modified := fun desc =>
      if desc ∈ descendants then
        if desc ∈ s.mapModifiedTx then s.modified desc - e.inclusionShare
        else (a.m_mempool.entry desc).packageState - e.packageShare
      else s.modified desc }

def updatePackagesForAdded (s : AssemblerState) : AssemblerState :=
  (σ.elems alreadyAdded).foldl (updatePackagesFor σ a alreadyAdded) s

def skipMapTxEntry (it : Txid) : Bool :=
  it ∈ s.mapModifiedTx || it ∈ s.inBlock || it ∈ s.failedTx

def sortKey (it : Txid) : Lex (ℤ × ℕ) := toLex ((a.m_mempool.entry it).nCountWithAncestors, it.memoryKey)

def sortForBlock (package : Finset Txid) : List Txid :=
  (σ.elems package).insertionSort fun x y => a.sortKey x ≤ a.sortKey y

def package : Finset Txid :=
  insert iter (CTxMemPool.calculateMemPoolAncestors σ a.m_mempool (a.m_mempool.parents iter) \ s.inBlock)

def addPackage (ancestors : Finset Txid) : AssemblerState :=
  updatePackagesForAdded σ a ancestors
    { (sortForBlock σ a ancestors).foldl (addSortedEntry a) s with nConsecutiveFailed := 0 }

variable (fUsingModified : Bool)

def eraseFailed : AssemblerState :=
  if fUsingModified then
    { s with mapModifiedTx := s.mapModifiedTx.erase iter, failedTx := insert iter s.failedTx }
  else s

def packageState : PackageState :=
  if fUsingModified then s.modified iter else (a.m_mempool.entry iter).packageState

/-- The rest of a turn for the entry that was chosen. -/
def evaluate : AssemblerTurn :=
  let (packageSize, packageFees, packageSigOpsCost) := packageState a s iter fUsingModified
  if packageFees < a.blockMinFeeRate.getFee packageSize then .done s
  else if !a.testPackage s packageSize packageSigOpsCost then
    let s := eraseFailed s iter fUsingModified
    let s := { s with nConsecutiveFailed := s.nConsecutiveFailed + 1 }
    if s.nConsecutiveFailed > maxConsecutiveFailures ∧ s.nBlockWeight > a.nBlockMaxWeight - 4000 then
      .done s
    else .next s
  else
    let ancestors := package σ a s iter
    if !testPackageTransactions σ a ancestors then .next (eraseFailed s iter fUsingModified)
    else .next (addPackage σ a s ancestors)

/-- What a turn looks at. -/
inductive Choice
  | none
  | skip (mi : List Txid)
  | entry (iter : Txid) (fUsingModified : Bool) (mi : List Txid)
  deriving DecidableEq

variable {a} in
/-- The next entry of the pool, or the best one of `mapModifiedTx`. -/
def choose (order : PackageOrder a.m_mempool) (s : AssemblerState) : Choice :=
  match s.mi, order.best s.mapModifiedTx s.modified with
  | [], .none => .none
  | [], some modit => .entry modit true []
  | iter :: mi, modit =>
    if skipMapTxEntry s iter then .skip mi
    else
      match modit with
      | .none => .entry iter false mi
      | some modit =>
        if order.better (modit, s.modified modit) (iter, (a.m_mempool.entry iter).packageState) then
          .entry modit true (iter :: mi)
        else .entry iter false mi

variable {a} in
def turn (order : PackageOrder a.m_mempool) (s : AssemblerState) : AssemblerTurn :=
  match choose order s with
  | .none => .done s
  | .skip mi => .next { s with mi := mi }
  | .entry iter fUsingModified mi => evaluate σ a { s with mi := mi } iter fUsingModified

variable {a} in
def addPackageTxsLoop (order : PackageOrder a.m_mempool) : (fuel : ℕ) → AssemblerState →
    Option AssemblerState
  | 0, _ => none
  | fuel + 1, s =>
    match turn σ order s with
    | .done s => some s
    | .next s => addPackageTxsLoop order fuel s

variable {a} in
def startLoop (order : PackageOrder a.m_mempool) : AssemblerState :=
  { updatePackagesForAdded σ a resetBlock.inBlock resetBlock with mi := order.mapTx }

variable {a} in
def addPackageTxs (order : PackageOrder a.m_mempool) (fuel : ℕ) : Option AssemblerState :=
  addPackageTxsLoop σ order fuel (startLoop σ order)

def modFeeAndSize (e : CTxMemPoolEntry) (state : PackageState) : ℤ × ℤ :=
  if e.modifiedFee * state.1 > state.2.1 * e.nTxSize then (state.2.1, state.1)
  else (e.modifiedFee, e.nTxSize)

/-- `CompareTxMemPoolEntryByAncestorFee`, with exact products. -/
def compareByAncestorFee (pool : CTxMemPool) (x y : Txid × PackageState) : Bool :=
  let (xFee, xSize) := modFeeAndSize (pool.entry x.1) x.2
  let (yFee, ySize) := modFeeAndSize (pool.entry y.1) y.2
  if xFee * ySize = xSize * yFee then x.1.memoryKey < y.1.memoryKey else xFee * ySize > xSize * yFee

variable {σ} in
theorem mem_head?_insertionSort {r : Txid → Txid → Prop} [DecidableRel r] {s : Finset Txid} {h : Txid}
    (hh : ((σ.elems s).insertionSort r).head? = some h) : h ∈ s :=
  σ.mem_elems.mp ((List.mem_insertionSort r).mp (List.mem_of_mem_head? hh))

/-- Both indexes sorted by ancestor fee. -/
def ancestorScore (pool : CTxMemPool) : PackageOrder pool where
  mapTx := (σ.elems pool.mapTx).insertionSort fun x y =>
    compareByAncestorFee pool (x, (pool.entry x).packageState) (y, (pool.entry y).packageState)
  nodup := (List.perm_insertionSort _ _).nodup_iff.mpr (σ.nodup _)
  mem_mapTx := (List.mem_insertionSort _).trans σ.mem_elems
  best s m := ((σ.elems s).insertionSort fun x y =>
    compareByAncestorFee pool (x, m x) (y, m y)).head?
  best_mem := mem_head?_insertionSort
  best_none {s m} hnone := by
    rw [List.head?_eq_none_iff] at hnone
    ext h
    rw [← σ.mem_elems, ← List.mem_insertionSort (fun x y => compareByAncestorFee pool (x, m x) (y, m y)),
      hnone]
    simp
  better := compareByAncestorFee pool

end BlockAssembler

end Palladium
