import Palladium.Coins.Cache
import Palladium.Lib.Program

/-! # The coin cache refines a map of unspent coins

A layer is read over the map of the view below.
-/

namespace Palladium
open Bool CCoinsViewCache List Option UtxoMap
namespace CCoinsCacheEntry

/-- What the flags of an entry promise, given what the view below holds at its outpoint. -/
structure Sound (e : CCoinsCacheEntry) (below : Option Coin) : Prop where
  fresh : e.fresh = true → below = none
  clean : e.dirty = false → below = some e.coin
  empty : e.coin.isSpent = true → e.coin = coinEmpty

end CCoinsCacheEntry

namespace CCoinsViewCache

/-- The coins seen through the layer when the view below holds `m`. -/
def flat (l : CCoinsViewCache) (m : UtxoMap) : UtxoMap where
  coin o :=
    match l.find o with
    | some e => e.coin.unspent?
    | none => m o
  unspent := by
    intro o c h
    split at h
    · exact Coin.isSpent_of_unspent? h
    · exact m.unspent h

def Sound (l : CCoinsViewCache) (m : UtxoMap) : Prop := ∀ o e, l.find o = some e → e.Sound (m o)

variable {l us : CCoinsViewCache} {m : UtxoMap} {o : COutPoint} {e : CCoinsCacheEntry}

theorem flat_of_find (h : l.find o = some e) : l.flat m o = e.coin.unspent? := by
  simp only [flat, h]

theorem flat_of_miss (h : l.find o = none) : l.flat m o = m o := by
  simp only [flat, h]

theorem flat_insert (l : CCoinsViewCache) (m : UtxoMap) (o : COutPoint) (e : CCoinsCacheEntry) :
    (l.insert o e).flat m = (l.flat m).put o e.coin := by
  ext1
  funext o'
  by_cases h : o' = o
  · subst h
    rw [flat_of_find (find_insert ..), put_self]
  · rw [put_of_ne _ _ h]
    simp only [flat, find_insert_of_ne l e h]

theorem flat_erase_of_fresh (hm : m o = none) : (l.erase o).flat m = (l.flat m).put o coinEmpty := by
  ext1
  funext o'
  by_cases h : o' = o
  · subst h
    rw [flat_of_miss (find_erase ..), put_self, hm]
    rfl
  · rw [put_of_ne _ _ h]
    simp only [flat, find_erase_of_ne l h]

theorem flat_erase_of_clean (hf : l.find o = some e) (hm : m o = some e.coin) :
    (l.erase o).flat m = l.flat m := by
  ext1
  funext o'
  by_cases h : o' = o
  · subst h
    rw [flat_of_miss (find_erase ..), flat_of_find hf, hm, unspent?_apply hm]
  · simp only [flat, find_erase_of_ne l h]

variable (l)

@[simp] theorem flat_clear (m : UtxoMap) : l.clear.flat m = m := by
  ext1
  funext o
  exact flat_of_miss (find_clear ..)

@[simp] theorem flat_new (m : UtxoMap) : new.flat m = m := by
  ext1
  funext o
  exact flat_of_miss (find_new ..)

theorem sound_clear (m : UtxoMap) : l.clear.Sound m := by
  intro o e h
  rw [find_clear] at h
  cases h

variable {l}

theorem sound_new (m : UtxoMap) : new.Sound m := by
  intro o e h
  rw [find_new] at h
  cases h

theorem Sound.insert (hl : l.Sound m) (he : e.Sound (m o)) : (l.insert o e).Sound m := by
  intro o' e' h
  by_cases ho : o' = o
  · subst ho
    rw [find_insert] at h
    cases h
    exact he
  · rw [find_insert_of_ne l e ho] at h
    exact hl o' e' h

theorem Sound.erase (hl : l.Sound m) (o : COutPoint) : (l.erase o).Sound m := by
  intro o' e' h
  by_cases ho : o' = o
  · subst ho
    rw [find_erase] at h
    cases h
  · rw [find_erase_of_ne l ho] at h
    exact hl o' e' h

/-- `FetchCoin` leaves a layer that shows the same coins and holds what it returned. -/
structure Fetched (l : CCoinsViewCache) (m : UtxoMap) (o : COutPoint)
    (r : Option CCoinsCacheEntry × CCoinsViewCache) : Prop where
  find : r.2.find o = r.1
  miss : r.1 = none → m o = none
  flat : r.2.flat m = l.flat m
  sound : r.2.Sound m
  hashBlock : r.2.hashBlock = l.hashBlock

theorem Fetched.flat_eq {r : Option CCoinsCacheEntry × CCoinsViewCache} (h : Fetched l m o r) :
    l.flat m o = r.1.bind (·.coin.unspent?) := by
  have hf := h.find
  rw [← h.flat]
  cases hr : r.1 with
  | none => rw [flat_of_miss (hf.trans hr), h.miss hr, bind_none]
  | some e => rw [flat_of_find (hf.trans hr), bind_some]

theorem fetched_sound {tmp : Coin} (h : m o = some tmp) : (fetched tmp).Sound (m o) where
  fresh hf := by simp [fetched, m.unspent h] at hf
  clean _ := h
  empty hs := by simp [fetched, m.unspent h] at hs

theorem fetchCoin_fetched (ls : List CCoinsViewCache)
    (read : Unit → Option Coin × List CCoinsViewCache) (hl : l.Sound m)
    (hre : (read ()).1 = m o) :
    Fetched l m o ((l.fetchCoin o ls read).1, (l.fetchCoin o ls read).2.1) := by
  unfold fetchCoin
  cases hf : l.find o with
  | some e => exact ⟨hf, by simp, rfl, hl, rfl⟩
  | none =>
    obtain ⟨tmp, ls', hr⟩ : ∃ tmp ls', read () = (tmp, ls') := ⟨_, _, rfl⟩
    rw [hr] at hre
    simp only [hr]
    cases tmp with
    | none => exact ⟨hf, fun _ => hre.symm, rfl, hl, rfl⟩
    | some tmp =>
      refine ⟨find_insert .., by simp, ?_, hl.insert (fetched_sound hre.symm), rfl⟩
      rw [flat_insert]
      apply put_eq_self
      rw [flat_of_miss hf, ← hre]
      exact (unspent?_apply hre.symm).symm

theorem fetchCoin_below (l : CCoinsViewCache) (o : COutPoint) (ls : List CCoinsViewCache)
    (read : Unit → Option Coin × List CCoinsViewCache) :
    (l.fetchCoin o ls read).2.2 = ls ∨ (l.fetchCoin o ls read).2.2 = (read ()).2 := by
  unfold fetchCoin
  cases l.find o with
  | some e => exact Or.inl rfl
  | none =>
    obtain ⟨tmp, ls', hr⟩ : ∃ tmp ls', read () = (tmp, ls') := ⟨_, _, rfl⟩
    simp only [hr]
    cases tmp <;> exact Or.inr rfl

end CCoinsViewCache

def flatOf (base : CCoinsView) : List CCoinsViewCache → UtxoMap
  | [] => base.coins
  | l :: ls => l.flat (flatOf base ls)

def SoundLayers (base : CCoinsView) : List CCoinsViewCache → Prop
  | [] => True
  | l :: ls => l.Sound (flatOf base ls) ∧ SoundLayers base ls

/-- The layers `ls'` show at every depth the coins that `ls` show. -/
structure SameCoins (base : CCoinsView) (ls ls' : List CCoinsViewCache) : Prop where
  flat : flatOf base ls' = flatOf base ls
  sound : SoundLayers base ls'

theorem getCoinBelow_spec (base : CCoinsView) (o : COutPoint) {ls : List CCoinsViewCache}
    (h : SoundLayers base ls) :
    (getCoinBelow base ls o).1 = flatOf base ls o ∧ SameCoins base ls (getCoinBelow base ls o).2 := by
  induction ls with
  | nil => exact ⟨rfl, rfl, trivial⟩
  | cons l ls ih =>
    obtain ⟨hr, hs⟩ := ih h.2
    have hf := CCoinsViewCache.fetchCoin_fetched ls (fun _ => getCoinBelow base ls o) h.1 hr
    have hbe : SameCoins base ls
        (l.fetchCoin o ls fun _ => getCoinBelow base ls o).2.2 := by
      rcases l.fetchCoin_below o ls fun _ => getCoinBelow base ls o with hb | hb
      · rw [hb]
        exact ⟨rfl, h.2⟩
      · rw [hb]
        exact hs
    refine ⟨hf.flat_eq.symm, ?_, ?_, hbe.sound⟩
    · simp only [getCoinBelow, flatOf, hbe.flat]
      exact hf.flat
    · rw [hbe.flat]
      exact hf.sound

def writesOf (order : List (COutPoint × CCoinsCacheEntry)) : List (COutPoint × Coin) :=
  order.map fun w => (w.1, w.2.coin)

namespace CCoinsViewCache
variable {l us : CCoinsViewCache} {m : UtxoMap} {o : COutPoint} {e : CCoinsCacheEntry}
  {order : List (COutPoint × CCoinsCacheEntry)}

def mapCoins (l : CCoinsViewCache) : List (COutPoint × CCoinsCacheEntry) :=
  l.cacheCoins.entries.map fun s => (s.1, s.2)

theorem mem_mapCoins : (o, e) ∈ l.mapCoins ↔ l.find o = some e := by
  unfold mapCoins find
  rw [← Option.mem_def, AList.mem_lookup_iff, List.mem_map]
  constructor
  · rintro ⟨⟨o', e'⟩, hs, he⟩
    cases he
    exact hs
  · intro h
    exact ⟨⟨o, e⟩, h, rfl⟩

variable (l)

theorem nodup_mapCoins : (l.mapCoins.map Prod.fst).Nodup := by
  have hk : l.mapCoins.map Prod.fst = l.cacheCoins.keys := by
    simp [mapCoins, AList.keys, List.keys, Function.comp_def]
  rw [hk]
  exact l.cacheCoins.keys_nodup

def Ordered (order : List (COutPoint × CCoinsCacheEntry)) : Prop :=
  order.Perm l.mapCoins

variable {l}

theorem Ordered.nodup (h : l.Ordered order) : (order.map Prod.fst).Nodup :=
  (List.Perm.map Prod.fst h).nodup_iff.2 l.nodup_mapCoins

theorem Ordered.mem_iff (h : l.Ordered order) : (o, e) ∈ order ↔ l.find o = some e := by
  rw [List.Perm.mem_iff h, mem_mapCoins]

theorem Ordered.sound (h : l.Ordered order) (hl : l.Sound m) : ∀ w ∈ order, w.2.Sound (m w.1) := by
  rintro ⟨o, e⟩ hw
  exact hl o e (h.mem_iff.1 hw)

theorem Ordered.putAll (h : l.Ordered order) (m : UtxoMap) : m.putAll (writesOf order) = l.flat m := by
  ext1
  funext o
  have hk : (writesOf order).map Prod.fst = order.map Prod.fst := by
    simp [writesOf, Function.comp_def]
  cases hf : l.find o with
  | some e =>
    rw [flat_of_find hf]
    apply putAll_of_mem
    · rw [hk]
      exact h.nodup
    · exact List.mem_map.2 ⟨(o, e), h.mem_iff.2 hf, rfl⟩
  | none =>
    rw [flat_of_miss hf]
    apply putAll_of_notMem
    rw [hk, List.mem_map]
    rintro ⟨⟨o', e⟩, hw, rfl⟩
    rw [h.mem_iff.1 hw] at hf
    cases hf

theorem sound_tail {w : COutPoint × CCoinsCacheEntry} (hn : ((w :: order).map Prod.fst).Nodup)
    (hs : ∀ x ∈ w :: order, x.2.Sound (m x.1)) :
    w.2.Sound (m w.1) ∧ (order.map Prod.fst).Nodup ∧
      ∀ x ∈ order, x.2.Sound (m.put w.1 w.2.coin x.1) := by
  rw [map_cons, nodup_cons] at hn
  refine ⟨hs w mem_cons_self, hn.2, ?_⟩
  intro x hx
  have hne : x.1 ≠ w.1 := fun he => hn.1 (he ▸ mem_map_of_mem hx)
  rw [put_of_ne _ _ hne]
  exact hs x (mem_cons_of_mem _ hx)

theorem put_of_clean (he : e.Sound (m o)) (hd : e.dirty = false) : m.put o e.coin = m := by
  apply put_eq_self
  rw [he.clean hd]
  exact (unspent?_apply (he.clean hd)).symm

theorem batchWriteEntry_spec (hu : us.Sound m) (he : e.Sound (us.flat m o)) :
    ∃ us', us.batchWriteEntry o e = .ok us' ∧ us'.Sound m ∧ us'.flat m = (us.flat m).put o e.coin := by
  unfold batchWriteEntry
  cases hd : e.dirty with
  | false => exact ⟨us, by simp, hu, (put_of_clean he hd).symm⟩
  | true =>
    simp only [Bool.not_true, false_eq_true, if_false]
    cases hf : us.find o with
    | none =>
      rw [flat_of_miss hf] at he
      by_cases hs : (e.fresh && e.coin.isSpent) = true
      · rw [and_eq_true] at hs
        refine ⟨us, by simp [hs], hu, ?_⟩
        rw [put_eq_self]
        rw [flat_of_miss hf, he.fresh hs.1, Coin.unspent?_of_spent hs.2]
      · refine ⟨us.insert o ⟨e.coin, true, e.fresh⟩, by simp [hs], ?_, flat_insert ..⟩
        exact hu.insert ⟨he.fresh, by simp, he.empty⟩
    | some itUs =>
      have hi := hu o itUs hf
      -- a FRESH child covers nothing, so the parent's entry is a spent one
      have ht : (e.fresh && !itUs.coin.isSpent) = false := by
        cases hfr : e.fresh with
        | false => rfl
        | true =>
          have hn := he.fresh hfr
          rw [flat_of_find hf, Coin.unspent?] at hn
          split at hn
          · simp_all
          · cases hn
      simp only [ht, false_eq_true, if_false]
      by_cases her : (itUs.fresh && e.coin.isSpent) = true
      · rw [and_eq_true] at her
        refine ⟨us.erase o, by simp [her], hu.erase o, ?_⟩
        rw [flat_erase_of_fresh (hi.fresh her.1), he.empty her.2]
      · refine ⟨us.insert o ⟨e.coin, true, itUs.fresh⟩, by simp [her], ?_, flat_insert ..⟩
        exact hu.insert ⟨hi.fresh, by simp, he.empty⟩

theorem batchWriteEntries_spec (hu : us.Sound m) (hn : (order.map Prod.fst).Nodup)
    (hs : ∀ w ∈ order, w.2.Sound (us.flat m w.1)) :
    ∃ us', us.batchWriteEntries order = .ok us' ∧ us'.Sound m ∧
      us'.flat m = (us.flat m).putAll (writesOf order) := by
  induction order generalizing us with
  | nil => exact ⟨us, rfl, hu, rfl⟩
  | cons w order ih =>
    obtain ⟨hw, hn', hs'⟩ := sound_tail hn hs
    obtain ⟨us₁, ho, hu₁, hf₁⟩ := batchWriteEntry_spec hu hw
    obtain ⟨us', ho', hu', hf'⟩ := ih hu₁ hn' (by rwa [hf₁])
    refine ⟨us', ?_, hu', ?_⟩
    · simp only [batchWriteEntries, ho]
      exact ho'
    · rw [hf', hf₁]
      rfl

end CCoinsViewCache

theorem CCoinsView.batchWrite_coins {base : CCoinsView} {hashBlock : Uint256}
    {order : List (COutPoint × CCoinsCacheEntry)} (hn : (order.map Prod.fst).Nodup)
    (hs : ∀ w ∈ order, w.2.Sound (base.coins w.1)) :
    (base.batchWrite order hashBlock).coins = base.coins.putAll (writesOf order) := by
  unfold CCoinsView.batchWrite
  generalize base.coins = m at hs ⊢
  induction order generalizing m with
  | nil => rfl
  | cons w order ih =>
    obtain ⟨hw, hn', hs'⟩ := sound_tail hn hs
    change _ = (m.put w.1 w.2.coin).putAll (writesOf order)
    rw [← ih hn' _ hs', foldl_cons]
    cases hd : w.2.dirty with
    | true => rfl
    | false => rw [put_of_clean hw hd]; rfl

namespace UtxoMap

/-- `AddCoin` on a plain map: outputs that can never be spent are not kept. -/
def addCoin (m : UtxoMap) (o : COutPoint) (c : Coin) : UtxoMap :=
  if CScript.isUnspendable c.out.scriptPubKey then m else m.put o c

def spendCoin (m : UtxoMap) (o : COutPoint) : UtxoMap := m.put o coinEmpty

end UtxoMap

namespace CoinsStack

def flat (v : CoinsStack) : UtxoMap := flatOf v.base (v.top :: v.below)

/-- Every layer is sound and the top shows the map. -/
structure Represents (v : CoinsStack) (m : UtxoMap) : Prop where
  sound : SoundLayers v.base (v.top :: v.below)
  flat : v.flat = m

variable {v : CoinsStack} {m : UtxoMap} {o : COutPoint}

theorem represents_onView (base : CCoinsView) : (onView base).Represents base.coins where
  sound := ⟨sound_new _, trivial⟩
  flat := flat_new _

/-- What a read of an outpoint returns and leaves when the stack represents `m`. -/
structure Fetched (m : UtxoMap) (o : COutPoint) (r : Option CCoinsCacheEntry × CoinsStack) :
    Prop where
  represents : r.2.Represents m
  find : r.2.top.find o = r.1
  value : m o = r.1.bind (·.coin.unspent?)

section
variable (h : v.Represents m)
include h

theorem fetchCoin_fetched (o : COutPoint) : Fetched m o (v.fetchCoin o) := by
  obtain ⟨hr, hs⟩ := getCoinBelow_spec v.base o h.sound.2
  have hf := CCoinsViewCache.fetchCoin_fetched v.below
    (fun _ => getCoinBelow v.base v.below o) h.sound.1 hr
  have hbe : SameCoins v.base v.below
      (v.top.fetchCoin o v.below fun _ => getCoinBelow v.base v.below o).2.2 := by
    rcases v.top.fetchCoin_below o v.below fun _ => getCoinBelow v.base v.below o with hb | hb
    · rw [hb]
      exact ⟨rfl, h.sound.2⟩
    · rw [hb]
      exact hs
  refine ⟨⟨⟨?_, hbe.sound⟩, ?_⟩, hf.find, ?_⟩
  · rw [fetchCoin, hbe.flat]
    exact hf.sound
  · rw [← h.flat, fetchCoin, CoinsStack.flat, flatOf, hbe.flat]
    exact hf.flat
  · rw [← h.flat]
    exact hf.flat_eq

theorem getCoin_spec (o : COutPoint) : (v.getCoin o).1 = m o ∧ (v.getCoin o).2.Represents m :=
  ⟨(fetchCoin_fetched h o).value.symm, (fetchCoin_fetched h o).represents⟩

theorem haveCoin_spec (o : COutPoint) :
    (v.haveCoin o).1 = (m o).isSome ∧ (v.haveCoin o).2.Represents m := by
  have hf := fetchCoin_fetched h o
  refine ⟨?_, hf.represents⟩
  rw [hf.value, haveCoin]
  cases (v.fetchCoin o).1 with
  | none => rfl
  | some e => cases hs : e.coin.isSpent <;> simp [Coin.unspent?, hs]

theorem accessCoin_spec (o : COutPoint) :
    (v.accessCoin o).1 = (m o).getD coinEmpty ∧ (v.accessCoin o).2.Represents m := by
  have hf := fetchCoin_fetched h o
  refine ⟨?_, hf.represents⟩
  rw [hf.value, accessCoin]
  cases hr : (v.fetchCoin o).1 with
  | none => rfl
  | some e =>
    have he := hf.represents.sound.1 o e (hf.find.trans hr)
    cases hs : e.coin.isSpent with
    | false => simp [Coin.unspent?, hs]
    | true => simp [Coin.unspent?, he.empty hs, coinEmpty, Coin.isSpent, CTxOut.isNull, CTxOut.null]

theorem haveCoinInCache_spec (hc : v.haveCoinInCache o) : (m o).isSome := by
  rw [haveCoinInCache, Option.any_eq_true] at hc
  obtain ⟨e, hf, hs⟩ := hc
  rw [← h.flat, CoinsStack.flat, flatOf, flat_of_find hf,
    Coin.unspent?_of_unspent (by simpa using hs)]
  rfl

theorem uncache_spec (o : COutPoint) : (v.uncache o).Represents m := by
  unfold uncache
  split
  · rename_i ha
    rw [Option.any_eq_true] at ha
    obtain ⟨e, hf, hfl⟩ := ha
    have hc : e.dirty = false := by simp_all
    refine ⟨⟨h.sound.1.erase o, h.sound.2⟩, ?_⟩
    rw [← h.flat]
    exact flat_erase_of_clean hf ((h.sound.1 o e hf).clean hc)
  · exact h

theorem Represents.insert {e : CCoinsCacheEntry} (he : e.Sound (flatOf v.base v.below o)) :
    Represents { v with top := v.top.insert o e } (m.put o e.coin) where
  sound := ⟨h.sound.1.insert he, h.sound.2⟩
  flat := by
    rw [← h.flat]
    exact flat_insert ..

theorem Represents.erase (hb : flatOf v.base v.below o = none) :
    Represents { v with top := v.top.erase o } (m.spendCoin o) where
  sound := ⟨h.sound.1.erase o, h.sound.2⟩
  flat := by
    rw [← h.flat]
    exact flat_erase_of_fresh hb

theorem addCoin_spec {c : Coin} {possible_overwrite : Bool} (hc : c.isSpent = false)
    (hnw : possible_overwrite = false → m o = none) :
    ∃ v', v.addCoin o c possible_overwrite = .ok v' ∧ v'.Represents (m.addCoin o c) := by
  unfold addCoin UtxoMap.addCoin
  simp only [hc, false_eq_true, if_false]
  by_cases hu : CScript.isUnspendable c.out.scriptPubKey = true
  · exact ⟨v, by rw [if_pos hu], by rwa [if_pos hu]⟩
  rw [if_neg hu, if_neg hu]
  have hfl : m o = v.top.flat (flatOf v.base v.below) o := by
    rw [← h.flat]
    rfl
  -- the entry found is a spent one when the call promises that there is no coin
  have hs : (!possible_overwrite && !(v.emplaced o).coin.isSpent) = false := by
    cases possible_overwrite with
    | true => rfl
    | false =>
      have hn := hnw rfl
      unfold emplaced
      cases hf : v.top.find o with
      | none => rfl
      | some it =>
        rw [hfl, flat_of_find hf, Coin.unspent?] at hn
        split at hn
        · simp_all
        · cases hn
  simp only [hs, false_eq_true, if_false]
  refine ⟨_, rfl, h.insert ⟨?_, by simp, by simp [hc]⟩⟩
  intro hfh
  rw [or_eq_true, and_eq_true, not_eq_true', not_eq_true'] at hfh
  unfold emplaced at hfh
  cases hf : v.top.find o with
  | none =>
    rw [hf] at hfh
    have hn := hnw (by simpa using hfh)
    rwa [hfl, flat_of_miss hf] at hn
  | some it =>
    rw [hf, getD_some] at hfh
    have hi := h.sound.1 o it hf
    rcases hfh with hfr | ⟨ho, hd⟩
    · exact hi.fresh hfr
    · -- an entry that is not DIRTY repeats an unspent coin, which the caller excluded
      have hn := hnw ho
      rw [hfl, flat_of_find hf, unspent?_apply (hi.clean hd)] at hn
      cases hn

theorem spendCoin_spec (o : COutPoint) :
    (v.spendCoin o).1.bind Coin.unspent? = m o ∧ (v.spendCoin o).2.Represents (m.spendCoin o) := by
  have hf := fetchCoin_fetched h o
  unfold spendCoin
  obtain ⟨r, v', hr⟩ : ∃ r v', v.fetchCoin o = (r, v') := ⟨_, _, rfl⟩
  rw [hr] at hf ⊢
  cases r with
  | none =>
    refine ⟨hf.value.symm, ?_⟩
    rw [UtxoMap.spendCoin, put_eq_self hf.value]
    exact hf.represents
  | some it =>
    have hi := hf.represents.sound.1 o it hf.find
    simp only
    by_cases hfr : it.fresh = true
    · rw [if_pos hfr]
      exact ⟨hf.value.symm, hf.represents.erase (hi.fresh hfr)⟩
    · rw [if_neg hfr]
      exact ⟨hf.value.symm, hf.represents.insert ⟨by simp, by simp, fun _ => rfl⟩⟩

end

theorem represents_clear (l : CCoinsViewCache) {base : CCoinsView} {ls : List CCoinsViewCache}
    (hs : SoundLayers base ls) (hm : flatOf base ls = m) : Represents ⟨l.clear, ls, base⟩ m where
  sound := ⟨sound_clear l _, hs⟩
  flat := (flat_clear l _).trans hm

theorem flush_spec (h : v.Represents m) {order : List (COutPoint × CCoinsCacheEntry)}
    (ho : v.top.Ordered order) : ∃ v', v.flush order = .ok v' ∧ v'.Represents m := by
  have hs := ho.sound h.sound.1
  have hbe := h.sound.2
  have hm : (flatOf v.base v.below).putAll (writesOf order) = m := (ho.putAll _).trans h.flat
  unfold flush
  cases hb : v.below with
  | nil =>
    rw [hb] at hs hm
    refine ⟨_, rfl, represents_clear v.top trivial ?_⟩
    exact (CCoinsView.batchWrite_coins ho.nodup hs).trans hm
  | cons parent ls =>
    rw [hb] at hs hm hbe
    obtain ⟨us', hok, hu', hf'⟩ :=
      batchWriteEntries_spec hbe.1 ho.nodup hs
    refine ⟨⟨v.top.clear, { us' with hashBlock := v.top.hashBlock } :: ls, v.base⟩, ?_,
      represents_clear v.top ⟨hu', hbe.2⟩ (hf'.trans hm)⟩
    simp only [CCoinsViewCache.batchWrite, hok]

theorem flush_clears {v' : CoinsStack} {order : List (COutPoint × CCoinsCacheEntry)}
    (h : v.flush order = .ok v') : v'.top = v.top.clear ∧ v'.below.length = v.below.length := by
  unfold flush at h
  split at h
  · next hb =>
    cases h
    exact ⟨rfl, by rw [hb]⟩
  · next hb =>
    split at h <;> cases h
    exact ⟨rfl, by rw [hb]; rfl⟩

theorem push_spec (h : v.Represents m) : v.push.Represents m where
  sound := ⟨sound_new _, h.sound⟩
  flat := (flat_new _).trans h.flat

end CoinsStack

def CCoinsViewCache.Clean (l : CCoinsViewCache) : Prop :=
  ∀ o e, l.find o = some e → e.dirty = false

theorem CCoinsViewCache.clean_clear (l : CCoinsViewCache) : l.clear.Clean := by
  intro o e h
  rw [find_clear] at h
  cases h

theorem CCoinsViewCache.Clean.flat {l : CCoinsViewCache} {m : UtxoMap} (hc : l.Clean)
    (hs : l.Sound m) : l.flat m = m := by
  ext1
  funext o
  cases hf : l.find o with
  | none => exact flat_of_miss hf
  | some e =>
    have hm := (hs o e hf).clean (hc o e hf)
    rw [flat_of_find hf, hm, unspent?_apply hm]

namespace CoinsStack

theorem pop_spec {v : CoinsStack} {m : UtxoMap} (h : v.Represents m) (hc : v.top.Clean) :
    v.pop.Represents m := by
  unfold pop
  have hs := h.sound
  have hf := h.flat
  rw [CoinsStack.flat, flatOf, hc.flat hs.1] at hf
  cases hb : v.below with
  | nil => exact h
  | cons l ls =>
    rw [hb] at hs hf
    exact ⟨hs.2, hf⟩

/-- The layers are flushed from the top down, and each but the last is given up. -/
def flushLayers (order : CCoinsViewCache → List (COutPoint × CCoinsCacheEntry)) :
    (nBelow : ℕ) → CoinsStack → Except Halt CoinsStack
  | 0, v => v.flush (order v.top)
  | n + 1, v => do flushLayers order n (← v.flush (order v.top)).pop

theorem flushLayers_spec {order : CCoinsViewCache → List (COutPoint × CCoinsCacheEntry)}
    (ho : ∀ l : CCoinsViewCache, l.Ordered (order l)) {n : ℕ} {v : CoinsStack} {m : UtxoMap}
    (h : v.Represents m) (hn : v.below.length = n) :
    ∃ v', flushLayers order n v = .ok v' ∧ v'.base.coins = m := by
  induction n generalizing v with
  | zero =>
    obtain ⟨v', hv, hr⟩ := flush_spec h (ho v.top)
    obtain ⟨ht, hl⟩ := flush_clears hv
    refine ⟨v', hv, ?_⟩
    rw [← hr.flat, CoinsStack.flat, List.length_eq_zero_iff.mp (hl.trans hn), ht]
    exact (flat_clear _ _).symm
  | succ n ih =>
    obtain ⟨v', hv, hr⟩ := flush_spec h (ho v.top)
    obtain ⟨ht, hl⟩ := flush_clears hv
    have hp := pop_spec hr (ht ▸ v.top.clean_clear)
    have hb : v'.pop.below.length = n := by
      rw [hn] at hl
      unfold pop
      split <;> simp_all
    obtain ⟨v'', hv'', hm⟩ := ih hp hb
    refine ⟨v'', ?_, hm⟩
    rw [flushLayers, hv]
    exact hv''

/-- The calls of the top layer and the changes of the stack. -/
inductive Op
  | addCoin (o : COutPoint) (coin : Coin) (possible_overwrite : Bool)
  | spendCoin (o : COutPoint)
  | getCoin (o : COutPoint)
  | haveCoin (o : COutPoint)
  | accessCoin (o : COutPoint)
  | haveCoinInCache (o : COutPoint)
  | uncache (o : COutPoint)
  | flush (order : List (COutPoint × CCoinsCacheEntry))
  | push
  | pop

namespace Op

/-- What callers keep to: `AddCoin` asserts an unspent coin and is told that nothing is overwritten
only if that is so, and a layer is given up after its `Flush`. -/
def Allowed (v : CoinsStack) (m : UtxoMap) : Op → Prop
  | addCoin o coin possible_overwrite =>
    coin.isSpent = false ∧ (possible_overwrite = false → m o = none)
  | flush order => v.top.Ordered order
  | pop => v.top.Clean
  | _ => True

def apply (v : CoinsStack) : Op → Except Halt CoinsStack
  | addCoin o coin possible_overwrite => v.addCoin o coin possible_overwrite
  | spendCoin o => .ok (v.spendCoin o).2
  | getCoin o => .ok (v.getCoin o).2
  | haveCoin o => .ok (v.haveCoin o).2
  | accessCoin o => .ok (v.accessCoin o).2
  | haveCoinInCache _ => .ok v
  | uncache o => .ok (v.uncache o)
  | flush order => v.flush order
  | push => .ok v.push
  | pop => .ok v.pop

/-- The same operation on a plain map. -/
def applyMap (m : UtxoMap) : Op → UtxoMap
  | addCoin o coin _ => m.addCoin o coin
  | spendCoin o => m.spendCoin o
  | _ => m

theorem apply_spec {v : CoinsStack} {m : UtxoMap} (h : v.Represents m) (op : Op)
    (ho : op.Allowed v m) : ∃ v', op.apply v = .ok v' ∧ v'.Represents (op.applyMap m) := by
  cases op with
  | addCoin o coin possible_overwrite => exact addCoin_spec h ho.1 ho.2
  | spendCoin o => exact ⟨_, rfl, (spendCoin_spec h o).2⟩
  | getCoin o => exact ⟨_, rfl, (getCoin_spec h o).2⟩
  | haveCoin o => exact ⟨_, rfl, (haveCoin_spec h o).2⟩
  | accessCoin o => exact ⟨_, rfl, (accessCoin_spec h o).2⟩
  | haveCoinInCache o => exact ⟨_, rfl, h⟩
  | uncache o => exact ⟨_, rfl, uncache_spec h o⟩
  | flush order => exact flush_spec h ho
  | push => exact ⟨_, rfl, push_spec h⟩
  | pop => exact ⟨_, rfl, pop_spec h ho⟩

end Op

/-- What a run of allowed operations from a new cache ends in, next to the plain map after them. A
run ends where an operation throws. -/
inductive RunsTo (base : CCoinsView) : Except Halt CoinsStack → UtxoMap → Prop
  | start : RunsTo base (.ok (onView base)) base.coins
  | step {v : CoinsStack} {m : UtxoMap} (op : Op) :
      RunsTo base (.ok v) m → op.Allowed v m → RunsTo base (op.apply v) (op.applyMap m)

theorem RunsTo.represents {base : CCoinsView} {r : Except Halt CoinsStack} {m : UtxoMap}
    (h : RunsTo base r m) : ∃ v, r = .ok v ∧ v.Represents m := by
  induction h with
  | start => exact ⟨_, rfl, represents_onView base⟩
  | step op _ ho ih =>
    obtain ⟨v, hv, hr⟩ := ih
    cases hv
    exact op.apply_spec hr ho

/-- No operation throws, the top layer answers as the map does, and once every layer is flushed the
base is the map. -/
theorem RunsTo.refines_map {base : CCoinsView} {r : Except Halt CoinsStack} {m : UtxoMap}
    (h : RunsTo base r m) :
    ∃ v, r = .ok v ∧
      (∀ o, (v.getCoin o).1 = m o ∧ (v.haveCoin o).1 = (m o).isSome ∧
        (v.accessCoin o).1 = (m o).getD coinEmpty ∧
        (v.haveCoinInCache o → (m o).isSome)) ∧
      ∀ order, (∀ l : CCoinsViewCache, l.Ordered (order l)) →
        ∃ v', flushLayers order v.below.length v = .ok v' ∧ v'.base.coins = m := by
  obtain ⟨v, hv, hr⟩ := h.represents
  refine ⟨v, hv, fun o => ?_, fun order ho => flushLayers_spec ho hr rfl⟩
  exact ⟨(getCoin_spec hr o).1, (haveCoin_spec hr o).1, (accessCoin_spec hr o).1,
    haveCoinInCache_spec hr⟩

/-- A coin added in a second layer reaches the base through two flushes. -/
theorem RunsTo.refines_map_two_layers :
    ∃ v v' : CoinsStack, v.below.length = 1 ∧
      RunsTo ⟨.empty, 0⟩ (.ok v) (UtxoMap.empty.addCoin ⟨1, 0⟩ ⟨⟨5, []⟩, false, 7⟩) ∧
      flushLayers (·.mapCoins) 1 v = .ok v' ∧ v'.base.coins ⟨1, 0⟩ = some ⟨⟨5, []⟩, false, 7⟩ := by
  have hp : RunsTo ⟨.empty, 0⟩ _ _ := .step .push .start trivial
  have ha := RunsTo.step (.addCoin ⟨1, 0⟩ ⟨⟨5, []⟩, false, 7⟩ false) hp ⟨rfl, fun _ => rfl⟩
  obtain ⟨v, hv, -, hf⟩ := ha.refines_map
  cases hv
  obtain ⟨v', hv', hb⟩ := hf (·.mapCoins) fun _ => .refl _
  refine ⟨_, v', rfl, ha, hv', ?_⟩
  rw [hb]
  rfl

end CoinsStack

end Palladium
