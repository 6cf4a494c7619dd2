import Mathlib.Data.List.AList
import Palladium.Lib.Writes
import Palladium.Primitives.Transaction

/-! # The layered coin cache

A `CCoinsViewCache` keeps entries over a base view, another cache or the database.
-/

namespace Palladium
open Function

structure Coin where
  out : CTxOut
  fCoinBase : Bool
  nHeight : ℕ
  deriving DecidableEq, Repr

namespace Coin

def isSpent (c : Coin) : Bool := c.out.isNull

def unspent? (c : Coin) : Option Coin := if c.isSpent then none else some c

variable {c : Coin}

theorem isSpent_of_unspent? {d : Coin} (h : c.unspent? = some d) : d.isSpent = false := by
  unfold unspent? at h
  split at h
  · cases h
  · rename_i hc
    cases h
    simpa using hc

theorem unspent?_of_unspent (h : c.isSpent = false) : c.unspent? = some c := by
  simp [unspent?, h]

theorem unspent?_of_spent (h : c.isSpent) : c.unspent? = none := by
  simp [unspent?, h]

end Coin

/-- The coin left by `Clear`. -/
def coinEmpty : Coin := ⟨CTxOut.null, false, 0⟩

@[simp] theorem unspent?_coinEmpty : coinEmpty.unspent? = none := rfl

/-- A map from outpoints to unspent coins. -/
@[ext] structure UtxoMap where
  coin : COutPoint → Option Coin
  unspent : ∀ {o c}, coin o = some c → c.isSpent = false

namespace UtxoMap

instance : CoeFun UtxoMap fun _ => COutPoint → Option Coin := ⟨coin⟩

def empty : UtxoMap := ⟨fun _ => none, fun h => nomatch h⟩

/-- Let the outpoint hold the coin, or nothing if the coin is a spent one. -/
def put (m : UtxoMap) (o : COutPoint) (c : Coin) : UtxoMap where
  coin := Function.update m.coin o c.unspent?
  unspent := by
    intro o' c' h
    rw [update_apply] at h
    split at h
    · exact Coin.isSpent_of_unspent? h
    · exact m.unspent h

variable {o : COutPoint} {c : Coin} {m : UtxoMap} {ws : List (COutPoint × Coin)}

@[simp] theorem put_self (m : UtxoMap) (o : COutPoint) (c : Coin) : m.put o c o = c.unspent? :=
  update_self ..

theorem put_of_ne {o' : COutPoint} (m : UtxoMap) (c : Coin) (h : o' ≠ o) : m.put o c o' = m o' :=
  update_of_ne h ..

theorem put_apply (m : UtxoMap) (o : COutPoint) (c : Coin) (o' : COutPoint) :
    m.put o c o' = if o' = o then c.unspent? else m o' :=
  update_apply ..

theorem put_eq_self (h : m o = c.unspent?) : m.put o c = m := by
  ext1
  exact update_eq_self_iff.2 h.symm

variable (m) (ws)

def putAll : UtxoMap :=
  ws.foldl (fun m w => m.put w.1 w.2) m

@[simp] theorem putAll_nil : m.putAll [] = m := rfl

@[simp] theorem putAll_cons (w : COutPoint × Coin) (ws : List (COutPoint × Coin)) :
    m.putAll (w :: ws) = (m.put w.1 w.2).putAll ws := rfl

theorem putAll_append (ws ws' : List (COutPoint × Coin)) :
    m.putAll (ws ++ ws') = (m.putAll ws).putAll ws' :=
  List.foldl_append

theorem coin_putAll :
    (m.putAll ws).coin = applyWrites m.coin (ws.map fun w => (w.1, w.2.unspent?)) := by
  induction ws generalizing m with
  | nil => rfl
  | cons w ws ih => exact ih (m.put w.1 w.2)

variable {ws}
variable {m}

theorem putAll_of_notMem (h : o ∉ ws.map Prod.fst) : m.putAll ws o = m o := by
  rw [coin_putAll]
  apply applyWrites_of_notMem
  simpa [comp_def] using h

theorem putAll_of_mem (hn : (ws.map Prod.fst).Nodup) (h : (o, c) ∈ ws) :
    m.putAll ws o = c.unspent? := by
  rw [coin_putAll]
  apply applyWrites_of_mem
  · simpa [comp_def] using hn
  · exact List.mem_map.2 ⟨(o, c), h, rfl⟩

theorem putAll_mem_or_eq (ws : List (COutPoint × Coin)) (o : COutPoint) :
    (∃ c, (o, c) ∈ ws ∧ m.putAll ws o = c.unspent?) ∨ m.putAll ws o = m o := by
  rw [coin_putAll]
  rcases applyWrites_mem_or_eq m.coin (ws.map fun w => (w.1, w.2.unspent?)) o with h | h
  · obtain ⟨⟨o', c⟩, hw, he⟩ := List.mem_map.1 h
    rw [Prod.mk.injEq] at he
    obtain ⟨rfl, he⟩ := he
    exact Or.inl ⟨c, hw, he.symm⟩
  · exact Or.inr h

theorem unspent?_apply (h : m o = some c) : c.unspent? = some c :=
  Coin.unspent?_of_unspent (m.unspent h)

end UtxoMap

structure CCoinsCacheEntry where
  coin : Coin
  dirty : Bool
  fresh : Bool
  deriving DecidableEq, Repr

abbrev CCoinsMap := AList fun _ : COutPoint => CCoinsCacheEntry

/-- A base view: the coins it holds and its best block. -/
structure CCoinsView where
  coins : UtxoMap
  hashBlock : Uint256

structure CCoinsViewCache where
  cacheCoins : CCoinsMap
  hashBlock : Uint256

namespace CCoinsViewCache

def new : CCoinsViewCache := ⟨∅, 0⟩

variable (l : CCoinsViewCache) (o : COutPoint)

def find : Option CCoinsCacheEntry := l.cacheCoins.lookup o

def insert (e : CCoinsCacheEntry) : CCoinsViewCache :=
  { l with cacheCoins := l.cacheCoins.insert o e }

def erase : CCoinsViewCache :=
  { l with cacheCoins := l.cacheCoins.erase o }

def clear : CCoinsViewCache := { l with cacheCoins := ∅ }

variable {o o' : COutPoint}

@[simp] theorem find_insert (o : COutPoint) (e : CCoinsCacheEntry) : (l.insert o e).find o = some e :=
  AList.lookup_insert _

theorem find_insert_of_ne (e : CCoinsCacheEntry) (h : o' ≠ o) : (l.insert o e).find o' = l.find o' :=
  AList.lookup_insert_ne h

@[simp] theorem find_erase (o : COutPoint) : (l.erase o).find o = none :=
  AList.lookup_erase ..

theorem find_erase_of_ne (h : o' ≠ o) : (l.erase o).find o' = l.find o' :=
  AList.lookup_erase_ne h

@[simp] theorem find_clear (o : COutPoint) : l.clear.find o = none :=
  AList.lookup_empty o

@[simp] theorem find_new (o : COutPoint) : new.find o = none :=
  AList.lookup_empty o

def fetched (tmp : Coin) : CCoinsCacheEntry := ⟨tmp, false, tmp.isSpent⟩

/-- `FetchCoin` on the layer `l`. The layers `ls` below are read only on a miss, through
`baseGetCoin`, which returns them as it leaves them. -/
def fetchCoin (o : COutPoint) (ls : List CCoinsViewCache)
    (baseGetCoin : Unit → Option Coin × List CCoinsViewCache) :
    Option CCoinsCacheEntry × CCoinsViewCache × List CCoinsViewCache :=
  match l.find o with
  | some e => (some e, l, ls)
  | none =>
    match baseGetCoin () with
    | (none, ls') => (none, l, ls')
    | (some tmp, ls') => (some (fetched tmp), l.insert o (fetched tmp), ls')

variable (us : CCoinsViewCache)

/-- One entry of the child's map in `BatchWrite`, with `us` the parent. -/
def batchWriteEntry (o : COutPoint) (e : CCoinsCacheEntry) : Except Halt CCoinsViewCache :=
  if !e.dirty then .ok us
  else
    match us.find o with
    | none =>
      if e.fresh && e.coin.isSpent then .ok us
      else .ok (us.insert o ⟨e.coin, true, e.fresh⟩)
    | some itUs =>
      if e.fresh && !itUs.coin.isSpent then
        .error (.logicError
          "FRESH flag misapplied to cache entry for base transaction with spendable outputs")
      else if itUs.fresh && e.coin.isSpent then .ok (us.erase o)
      else .ok (us.insert o ⟨e.coin, true, itUs.fresh⟩)

def batchWriteEntries :
    CCoinsViewCache → List (COutPoint × CCoinsCacheEntry) → Except Halt CCoinsViewCache
  | us, [] => .ok us
  | us, (o, e) :: mapCoins =>
    match us.batchWriteEntry o e with
    | .ok us' => batchWriteEntries us' mapCoins
    | .error err => .error err

def batchWrite (mapCoins : List (COutPoint × CCoinsCacheEntry)) (hashBlockIn : Uint256) :
    Except Halt CCoinsViewCache :=
  match us.batchWriteEntries mapCoins with
  | .ok us' => .ok { us' with hashBlock := hashBlockIn }
  | .error err => .error err

end CCoinsViewCache

/-- `BatchWrite` of a base view: every dirty entry is written, or erased if it is spent. -/
def CCoinsView.batchWrite (base : CCoinsView) (mapCoins : List (COutPoint × CCoinsCacheEntry))
    (hashBlock : Uint256) : CCoinsView where
  coins := mapCoins.foldl (fun m p => if p.2.dirty then m.put p.1 p.2.coin else m) base.coins
  hashBlock := hashBlock

/-- `GetCoin` of a view made of the layers over the base, with the layers as it leaves them. -/
def getCoinBelow (base : CCoinsView) :
    List CCoinsViewCache → COutPoint → Option Coin × List CCoinsViewCache
  | [], o => (base.coins o, [])
  | l :: ls, o =>
    let r := l.fetchCoin o ls fun _ => getCoinBelow base ls o
    (r.1.bind (·.coin.unspent?), r.2.1 :: r.2.2)

/-- A stack of caches over a base view. The operations are those of the top layer. -/
structure CoinsStack where
  top : CCoinsViewCache
  below : List CCoinsViewCache
  base : CCoinsView

namespace CoinsStack

def onView (base : CCoinsView) : CoinsStack := ⟨.new, [], base⟩

variable (v : CoinsStack) (o : COutPoint)

def fetchCoin : Option CCoinsCacheEntry × CoinsStack :=
  let r := v.top.fetchCoin o v.below fun _ => getCoinBelow v.base v.below o
  (r.1, { v with top := r.2.1, below := r.2.2 })

def getCoin : Option Coin × CoinsStack :=
  let r := v.fetchCoin o
  (r.1.bind (·.coin.unspent?), r.2)

def haveCoin : Bool × CoinsStack :=
  let r := v.fetchCoin o
  (r.1.any fun e => !e.coin.isSpent, r.2)

def accessCoin : Coin × CoinsStack :=
  let r := v.fetchCoin o
  ((r.1.map (·.coin)).getD coinEmpty, r.2)

def haveCoinInCache : Bool :=
  (v.top.find o).any fun e => !e.coin.isSpent

def uncache : CoinsStack :=
  if (v.top.find o).any fun e => !e.dirty && !e.fresh then { v with top := v.top.erase o } else v

/-- The entry `AddCoin` finds at the outpoint, or the empty one it has just placed there. -/
def emplaced : CCoinsCacheEntry :=
  (v.top.find o).getD ⟨coinEmpty, false, false⟩

def addCoin (coin : Coin) (possible_overwrite : Bool) : Except Halt CoinsStack :=
  if coin.isSpent then .error .assertion
  else if CScript.isUnspendable coin.out.scriptPubKey then .ok v
  else
    let it := v.emplaced o
    if !possible_overwrite && !it.coin.isSpent then
      .error (.logicError "Adding new coin that replaces non-pruned entry")
    else
      let fresh := !possible_overwrite && !it.dirty
      .ok { v with top := v.top.insert o ⟨coin, true, it.fresh || fresh⟩ }

/-- `SpendCoin`, returning what is moved out if there is an entry. -/
def spendCoin : Option Coin × CoinsStack :=
  match v.fetchCoin o with
  | (none, v') => (none, v')
  | (some it, v') =>
    if it.fresh then (some it.coin, { v' with top := v'.top.erase o })
    else (some it.coin, { v' with top := v'.top.insert o ⟨coinEmpty, true, false⟩ })

def setBestBlock (hashBlockIn : Uint256) : CoinsStack :=
  { v with top := { v.top with hashBlock := hashBlockIn } }

/-- `Flush`; `order` is the order in which the entries of the top layer are iterated. -/
def flush (order : List (COutPoint × CCoinsCacheEntry)) : Except Halt CoinsStack :=
  match v.below with
  | [] => .ok ⟨v.top.clear, [], v.base.batchWrite order v.top.hashBlock⟩
  | parent :: ls =>
    match parent.batchWrite order v.top.hashBlock with
    | .ok parent' => .ok ⟨v.top.clear, parent' :: ls, v.base⟩
    | .error err => .error err

def push : CoinsStack := ⟨.new, v.top :: v.below, v.base⟩

/-- Give up the top cache; the last one stays. -/
def pop : CoinsStack :=
  match v.below with
  | [] => v
  | l :: ls => ⟨l, ls, v.base⟩

end CoinsStack

end Palladium
