import Palladium.Coins.Refinement
import Palladium.Lib.Except

/-! # The coins database

`CCoinsViewDB` keeps the coins, the best block and, during a flush, the two heads between which the
coins lie.
-/

namespace Palladium
open List

/-- The order in which the hash table of every cache is iterated. -/
structure IterationOrder where
  order : CCoinsViewCache → List (COutPoint × CCoinsCacheEntry)
  ordered : ∀ l : CCoinsViewCache, l.Ordered (order l)

structure CCoinsViewDB where
  coins : UtxoMap
  /-- The record under `DB_BEST_BLOCK`. -/
  bestBlock : Option Uint256
  /-- The record under `DB_HEAD_BLOCKS`. -/
  headBlocks : Option (List Uint256)

inductive DBWrite
  | eraseBestBlock
  | writeBestBlock (hashBlock : Uint256)
  | eraseHeadBlocks
  | writeHeadBlocks (vhashHeadBlocks : List Uint256)
  | eraseCoin (o : COutPoint)
  | writeCoin (o : COutPoint) (coin : Coin)

abbrev CDBBatch := List DBWrite

namespace CCoinsViewDB
variable (db : CCoinsViewDB)

def getBestBlock : Uint256 := db.bestBlock.getD 0

def getHeadBlocks : List Uint256 := db.headBlocks.getD []

def view : CCoinsView := ⟨db.coins, db.getBestBlock⟩

def apply : DBWrite → CCoinsViewDB
  | .eraseBestBlock => { db with bestBlock := none }
  | .writeBestBlock hashBlock => { db with bestBlock := some hashBlock }
  | .eraseHeadBlocks => { db with headBlocks := none }
  | .writeHeadBlocks vhashHeadBlocks => { db with headBlocks := some vhashHeadBlocks }
  | .eraseCoin o => { db with coins := db.coins.put o coinEmpty }
  | .writeCoin o coin => { db with coins := db.coins.put o coin }

def writeBatch (batch : CDBBatch) : CCoinsViewDB := batch.foldl apply db

def writeBatches (batches : List CDBBatch) : CCoinsViewDB :=
  batches.foldl writeBatch db

def entryWrites (o : COutPoint) (e : CCoinsCacheEntry) : CDBBatch :=
  if e.dirty then [if e.coin.isSpent then .eraseCoin o else .writeCoin o e.coin] else []

/-- The loop of `BatchWrite` with the batch so far, up to the last batch. `full` compares the size
estimate with the batch size. -/
def batchLoop (full : CDBBatch → Bool) (hashBlock : Uint256) :
    CDBBatch → List (COutPoint × CCoinsCacheEntry) → List CDBBatch
  | batch, [] => [batch ++ [.eraseHeadBlocks, .writeBestBlock hashBlock]]
  | batch, (o, e) :: mapCoins =>
    if full (batch ++ entryWrites o e) then
      (batch ++ entryWrites o e) :: batchLoop full hashBlock [] mapCoins
    else batchLoop full hashBlock (batch ++ entryWrites o e) mapCoins

/-- The tip a flush starts from. In the middle of replaying it is that of the flush replayed. -/
def oldTip (hashBlock : Uint256) : Except Halt Uint256 :=
  if db.getBestBlock ≠ 0 then .ok db.getBestBlock
  else
    match db.getHeadBlocks with
    | [head, old] => if head = hashBlock then .ok old else .error .assertion
    | _ => .ok 0

def batchWrite (full : CDBBatch → Bool) (mapCoins : List (COutPoint × CCoinsCacheEntry))
    (hashBlock : Uint256) : Except Halt (List CDBBatch) :=
  if hashBlock = 0 then .error .assertion
  else do
    let old_tip ← db.oldTip hashBlock
    .ok (batchLoop full hashBlock
      [.eraseBestBlock, .writeHeadBlocks [hashBlock, old_tip]] mapCoins)

variable {db : CCoinsViewDB} {full : CDBBatch → Bool} {hashBlock : Uint256} {batch : CDBBatch}
  {order : List (COutPoint × CCoinsCacheEntry)}

theorem writeBatches_eq (db : CCoinsViewDB) (batches : List CDBBatch) :
    db.writeBatches batches = db.writeBatch batches.flatten := by
  unfold writeBatches writeBatch
  rw [foldl_flatten]

theorem writeBatch_append (batch' : CDBBatch) :
    db.writeBatch (batch ++ batch') = (db.writeBatch batch).writeBatch batch' :=
  foldl_append

def entriesWrites (mapCoins : List (COutPoint × CCoinsCacheEntry)) : CDBBatch :=
  mapCoins.flatMap fun w => entryWrites w.1 w.2

theorem batchLoop_flatten (batch : CDBBatch) : (batchLoop full hashBlock batch order).flatten =
      batch ++ entriesWrites order ++ [.eraseHeadBlocks, .writeBestBlock hashBlock] := by
  induction order generalizing batch with
  | nil => simp [batchLoop, entriesWrites]
  | cons w order ih =>
    unfold batchLoop
    split
    · rw [flatten_cons, ih]
      simp [entriesWrites]
    · rw [ih]
      simp [entriesWrites]

/-- At the end of a batch some of the entries are written, or all of them with the closing
writes. -/
theorem batchLoop_take (full : CDBBatch → Bool) (hashBlock : Uint256)
    (order : List (COutPoint × CCoinsCacheEntry)) (batch : CDBBatch) {k : ℕ} (hk : k ≠ 0) :
    (∃ n, ((batchLoop full hashBlock batch order).take k).flatten =
      batch ++ entriesWrites (order.take n)) ∨
    ((batchLoop full hashBlock batch order).take k).flatten =
      batch ++ entriesWrites order ++ [.eraseHeadBlocks, .writeBestBlock hashBlock] := by
  induction order generalizing batch k with
  | nil =>
    right
    obtain ⟨k, rfl⟩ := Nat.exists_eq_succ_of_ne_zero hk
    simp [batchLoop, entriesWrites]
  | cons w order ih =>
    unfold batchLoop
    split
    · obtain ⟨k, rfl⟩ := Nat.exists_eq_succ_of_ne_zero hk
      rw [take_succ_cons, flatten_cons]
      by_cases hk' : k = 0
      · left
        exact ⟨1, by simp [hk', entriesWrites]⟩
      · rcases ih [] hk' with ⟨n, h⟩ | h
        · left
          exact ⟨n + 1, by rw [h]; simp [entriesWrites]⟩
        · right
          rw [h]
          simp [entriesWrites]
    · rcases ih (batch ++ entryWrites w.1 w.2) hk with ⟨n, h⟩ | h
      · left
        exact ⟨n + 1, by rw [h]; simp [entriesWrites]⟩
      · right
        rw [h]
        simp [entriesWrites]

theorem writeBatch_entryWrites (db : CCoinsViewDB) (o : COutPoint) (e : CCoinsCacheEntry) :
    db.writeBatch (entryWrites o e) =
      { db with coins := if e.dirty then db.coins.put o e.coin else db.coins } := by
  unfold entryWrites
  cases hd : e.dirty with
  | false => rfl
  | true =>
    cases hs : e.coin.isSpent with
    | false => rfl
    | true =>
      have hp : db.coins.put o coinEmpty = db.coins.put o e.coin := by
        ext1
        funext o'
        rw [UtxoMap.put_apply, UtxoMap.put_apply, Coin.unspent?_of_spent hs, unspent?_coinEmpty]
      simp [writeBatch, apply, hp]

theorem writeBatch_entriesWrites (hashBlock : Uint256) (db : CCoinsViewDB)
    (order : List (COutPoint × CCoinsCacheEntry)) :
    db.writeBatch (entriesWrites order) =
      { db with coins := (db.view.batchWrite order hashBlock).coins } := by
  induction order generalizing db with
  | nil => rfl
  | cons w order ih =>
    rw [entriesWrites, flatMap_cons, writeBatch_append, writeBatch_entryWrites]
    exact ih _

variable {l : CCoinsViewCache} {batches : List CDBBatch}

theorem batchWrite_ok (h : db.batchWrite full order hashBlock = .ok batches) :
    ∃ old_tip, db.oldTip hashBlock = .ok old_tip ∧ batches =
      batchLoop full hashBlock [.eraseBestBlock, .writeHeadBlocks [hashBlock, old_tip]] order := by
  unfold batchWrite at h
  split at h
  · cases h
  obtain ⟨old_tip, ht, h⟩ := Except.bind_eq_ok.1 h
  cases h
  exact ⟨old_tip, ht, rfl⟩

theorem exists_batchWrite (full : CDBBatch → Bool)
    (order : List (COutPoint × CCoinsCacheEntry)) {old_tip : Uint256} (hh : hashBlock ≠ 0)
    (ht : db.oldTip hashBlock = .ok old_tip) :
    ∃ batches, db.batchWrite full order hashBlock = .ok batches := by
  rw [batchWrite, if_neg hh, ht]
  exact ⟨_, rfl⟩

/-- After some entries of the layer are written the coins lie between those of the database and
those the layer shows. -/
theorem mixed_batchWrite (hashBlock : Uint256) (hs : l.Sound db.coins) (ho : l.Ordered order) (n : ℕ) :
    Mixed db.coins.coin (l.flat db.coins).coin
      (db.view.batchWrite (order.take n) hashBlock).coins.coin := by
  have hn : ((order.take n).map Prod.fst).Nodup := by
    rw [map_take]
    exact ho.nodup.sublist (take_sublist ..)
  have hso : ∀ w ∈ order.take n, w.2.Sound (db.coins w.1) := fun w hw =>
    ho.sound hs w (mem_of_mem_take hw)
  have hco : (db.view.batchWrite (order.take n) hashBlock).coins =
      db.coins.putAll (writesOf (order.take n)) := CCoinsView.batchWrite_coins hn hso
  rw [hco, UtxoMap.coin_putAll]
  apply Mixed.applyWrites fun o => Or.inl rfl
  intro w hw
  obtain ⟨c, hc, rfl⟩ := mem_map.1 hw
  obtain ⟨⟨o, e⟩, he, rfl⟩ := mem_map.1 hc
  exact (CCoinsViewCache.flat_of_find (ho.mem_iff.1 (mem_of_mem_take he))).symm

theorem coins_batchWrite (hashBlock : Uint256) (hs : l.Sound db.coins) (ho : l.Ordered order) :
    (db.view.batchWrite order hashBlock).coins = l.flat db.coins := by
  rw [← ho.putAll db.coins]
  exact CCoinsView.batchWrite_coins ho.nodup (ho.sound hs)

theorem writeBatches_batchWrite (hs : l.Sound db.coins) (ho : l.Ordered order)
    (h : db.batchWrite full order hashBlock = .ok batches) :
    db.writeBatches batches = ⟨l.flat db.coins, some hashBlock, none⟩ := by
  obtain ⟨old_tip, -, rfl⟩ := batchWrite_ok h
  rw [writeBatches_eq, batchLoop_flatten, writeBatch_append, writeBatch_append,
    writeBatch_entriesWrites hashBlock, ← coins_batchWrite hashBlock hs ho]
  rfl

/-- A flush that stops after its first batch or later is complete or leaves the two heads and
coins between them. -/
theorem writeBatches_take (hs : l.Sound db.coins) (ho : l.Ordered order)
    (h : db.batchWrite full order hashBlock = .ok batches) {k : ℕ} (hk : k ≠ 0) :
    db.writeBatches (batches.take k) = ⟨l.flat db.coins, some hashBlock, none⟩ ∨
      ∃ m old_tip, db.oldTip hashBlock = .ok old_tip ∧
        db.writeBatches (batches.take k) = ⟨m, none, some [hashBlock, old_tip]⟩ ∧
        Mixed db.coins.coin (l.flat db.coins).coin m.coin := by
  obtain ⟨old_tip, ht, rfl⟩ := batchWrite_ok h
  rw [writeBatches_eq]
  rcases batchLoop_take full hashBlock order _ hk with ⟨n, hn⟩ | hn
  · right
    refine ⟨_, old_tip, ht, ?_, mixed_batchWrite hashBlock hs ho n⟩
    rw [hn, writeBatch_append, writeBatch_entriesWrites hashBlock]
    rfl
  · left
    rw [hn, writeBatch_append, writeBatch_append,
      writeBatch_entriesWrites hashBlock, ← coins_batchWrite hashBlock hs ho]
    rfl

end CCoinsViewDB

end Palladium
