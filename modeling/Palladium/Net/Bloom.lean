import Palladium.Script.Standard
import Palladium.Primitives.TxSerialize

/-! # The Bloom filter of a peer

`CBloomFilter` as it is loaded by `FILTERLOAD`.
-/

namespace Palladium
open List Option

structure CBloomFilter where
  vData : List UInt8
  isFull : Bool
  isEmpty : Bool
  nHashFuncs : ℕ
  nTweak : UInt32
  nFlags : UInt8
  deriving DecidableEq, Repr

def bloomUpdateAll : UInt8 := 1
def bloomUpdateP2PubkeyOnly : UInt8 := 2
def bloomUpdateMask : UInt8 := 3

/-- The data that `GetOp` returns until it fails, without the empty ones. -/
def CScript.dataPushes (script : CScript) : List Valtype :=
  (script.ops.filterMap fun op => op.map (·.vch)).filter (· ≠ [])

namespace CBloomFilter
variable (murmur : UInt32 → Valtype → UInt32) (f : CBloomFilter) (vKey : Valtype)

def index (nHashNum : ℕ) : ℕ :=
  (murmur (UInt32.ofNat nHashNum * 0xFBA4C795 + f.nTweak) vKey).toNat % (f.vData.length * 8)

def hash (nHashNum : ℕ) : Option ℕ :=
  if f.vData.length * 8 = 0 then none else some (f.index murmur vKey nHashNum)

def setBit (nIndex : ℕ) : Option CBloomFilter :=
  f.vData[nIndex >>> 3]?.map fun byte =>
    { f with vData := f.vData.set (nIndex >>> 3) (byte ||| UInt8.ofNat (1 <<< (7 &&& nIndex))) }

def insert : Option CBloomFilter := do
  if f.isFull then return f
  let f ← (range f.nHashFuncs).foldlM (fun f i => (f.hash murmur vKey i).bind f.setBit) f
  return { f with isEmpty := false }

def contains : Option Bool := do
  if f.isFull then return true
  if f.isEmpty then return false
  (range f.nHashFuncs).allM fun i => do
    let nIndex ← f.hash murmur vKey i
    let byte ← f.vData[nIndex >>> 3]?
    return byte.toNat.testBit (7 &&& nIndex)

/-- Whether the flags have a matched output inserted. -/
def inserts (scriptPubKey : CScript) : Bool :=
  let update := f.nFlags &&& bloomUpdateMask
  update = bloomUpdateAll || update = bloomUpdateP2PubkeyOnly &&
    match solver scriptPubKey with
    | .pubkey _ | .multisig _ _ => true
    | _ => false

/-- The filter and `fFound` after an output. -/
def matchOutput (hash : Uint256) (s : CBloomFilter × Bool) (out : CTxOut × ℕ) :
    Option (CBloomFilter × Bool) := do
  if ← (CScript.dataPushes out.1.scriptPubKey).anyM (s.1.contains murmur) then
    if s.1.inserts out.1.scriptPubKey then
      return (← s.1.insert murmur (COutPoint.serialize ⟨hash, out.2⟩), true)
    return (s.1, true)
  return s

def matchOutputs (hash : Uint256) (vout : List CTxOut) (fFound : Bool) :
    Option (CBloomFilter × Bool) :=
  vout.zipIdx.foldlM (matchOutput murmur hash) (f, fFound)

def matchInput (txin : CTxIn) : Option Bool := do
  if ← f.contains murmur txin.prevout.serialize then return true
  (CScript.dataPushes txin.scriptSig).anyM (f.contains murmur)

def isRelevantAndUpdate (tx : CTransaction) : Option (CBloomFilter × Bool) := do
  if f.isFull then return (f, true)
  if f.isEmpty then return (f, false)
  let (f, fFound) ← f.matchOutputs murmur tx.hash tx.vout
    (← f.contains murmur tx.hash.bytes)
  if fFound then return (f, true)
  return (f, ← tx.vin.anyM (f.matchInput murmur))

def updateEmptyFull : CBloomFilter :=
  { f with isFull := f.vData.all (· = 0xff), isEmpty := f.vData.all (· = 0) }

inductive Call
  | insert (vKey : Valtype)
  | isRelevantAndUpdate (tx : CTransaction)

def call : Call → Option CBloomFilter
  | .insert vKey => f.insert murmur vKey
  | .isRelevantAndUpdate tx => (f.isRelevantAndUpdate murmur tx).map (·.1)

/-- A data push of output `i` matched, with what the outputs before it had inserted. -/
def MatchesOutput (tx : CTransaction) (i : ℕ) : Prop :=
  f.isFull = false ∧ f.isEmpty = false ∧ ∃ fFound r txout,
    f.contains murmur tx.hash.bytes = some fFound ∧
    f.matchOutputs murmur tx.hash (tx.vout.take i) fFound = some r ∧ tx.vout[i]? = some txout ∧
    (CScript.dataPushes txout.scriptPubKey).anyM (r.1.contains murmur) = some true

/-- A filter without data is full, and no call uses the data of a full filter. -/
def Usable : Prop := f.isFull = true ∨ f.vData ≠ []

def bit (vData : List UInt8) (n : ℕ) : Bool := (vData.getD (n >>> 3) 0).toNat.testBit (7 &&& n)

/-- The answer of `contains` for a usable filter. -/
def has : Bool :=
  f.isFull || !f.isEmpty && (range f.nHashFuncs).all fun i => bit f.vData (f.index murmur vKey i)

/-- Nothing is taken out of the filter. -/
inductive Grows : CBloomFilter → Prop
  | intro {vData : List UInt8} {isEmpty : Bool} (hlen : vData.length = f.vData.length)
      (hempty : isEmpty = true → f.isEmpty = true) (hbit : ∀ n, bit f.vData n → bit vData n) :
      Grows { f with vData, isEmpty }

variable {murmur f vKey} {g g' : CBloomFilter}

theorem Grows.refl : Grows f f := .intro rfl id fun _ => id

theorem Grows.trans (h : f.Grows g) (h' : g.Grows g') : f.Grows g' := by
  obtain ⟨hl, he, hb⟩ := h
  obtain ⟨hl', he', hb'⟩ := h'
  exact .intro (hl'.trans hl) (he ∘ he') fun n => hb' n ∘ hb n

theorem Grows.usable (h : f.Grows g) (hf : f.Usable) : g.Usable := by
  obtain ⟨hl, -, -⟩ := h
  simpa only [Usable, ← length_pos_iff, hl] using hf

theorem Grows.inserts (h : f.Grows g) : g.inserts = f.inserts := by
  cases h
  rfl

theorem Grows.vData_ne (h : f.Grows g) (hf : f.vData ≠ []) : g.vData ≠ [] := by
  obtain ⟨hl, -, -⟩ := h
  simpa only [← length_pos_iff, hl] using hf

theorem Grows.bit (h : f.Grows g) : ∀ n, bit f.vData n → bit g.vData n := by
  obtain ⟨-, -, hb⟩ := h
  exact hb

theorem Grows.has (h : f.Grows g) (hf : f.has murmur vKey) :
    g.has murmur vKey := by
  obtain ⟨hl, he, hb⟩ := h
  simp only [CBloomFilter.has, index, hl, Bool.or_eq_true, Bool.and_eq_true,
    List.all_eq_true] at hf ⊢
  refine hf.imp_right fun hf => ⟨?_, fun i hi => hb _ (hf.2 i hi)⟩
  simpa using mt he (by simpa using hf.1)

theorem index_lt (hf : f.vData ≠ []) (i : ℕ) :
    f.index murmur vKey i >>> 3 < f.vData.length := by
  have hp := length_pos_iff.mpr hf
  have hm := Nat.mod_lt (murmur (UInt32.ofNat i * 0xFBA4C795 + f.nTweak) vKey).toNat
    (show f.vData.length * 8 > 0 by omega)
  rw [Nat.shiftRight_eq_div_pow, index]
  omega

theorem hash_eq (hf : f.vData ≠ []) (i : ℕ) :
    f.hash murmur vKey i = some (f.index murmur vKey i) :=
  if_neg (by simpa using hf)

theorem contains_eq (hf : f.Usable) :
    f.contains murmur = fun vKey => some (f.has murmur vKey) := by
  funext vKey
  unfold contains CBloomFilter.has
  cases hfu : f.isFull
  · have hd : f.vData ≠ [] := hf.resolve_left (by simp [hfu])
    have hb (i : ℕ) : f.vData[f.index murmur vKey i >>> 3]? =
        some (f.vData.getD (f.index murmur vKey i >>> 3) 0) := by
      rw [getD_eq_getElem?_getD, getElem?_eq_getElem (index_lt hd i),
        getD_some]
    cases he : f.isEmpty
    · simp only [hash_eq hd, hb, bind_eq_bind, bind_some]
      exact allM_pure
    · rfl
  · rfl

theorem Grows.index (h : f.Grows g) : g.index murmur vKey = f.index murmur vKey := by
  obtain ⟨hl, -, -⟩ := h
  funext i
  simp only [CBloomFilter.index, hl]

theorem setBit_spec {n : ℕ} (hn : n >>> 3 < f.vData.length) :
    ∃ g, f.setBit n = some g ∧ f.Grows g ∧ bit g.vData n = true := by
  have hma : 7 &&& n < 8 := Nat.lt_of_le_of_lt Nat.and_le_left (by norm_num)
  have hs : (UInt8.ofNat (1 <<< (7 &&& n))).toNat.testBit (7 &&& n) = true := by
    generalize 7 &&& n = j at hma
    decide +revert
  refine ⟨_, by rw [setBit, getElem?_eq_getElem hn]; rfl, .intro (by simp) id fun m hm => ?_, ?_⟩
  · rw [bit, getD_eq_getElem?_getD] at *
    rw [getElem?_set]
    split_ifs with he
    · rw [← he, getElem?_eq_getElem hn] at hm
      rw [getD_some] at *
      simp only [UInt8.toNat_or, Nat.testBit_or, hm, Bool.true_or]
    · exact hm
  · simp only [bit, getD_eq_getElem?_getD, getElem?_set_self hn, getD_some, UInt8.toNat_or,
      Nat.testBit_or, hs, Bool.or_true]

/-- A loop whose steps succeed and only grow the filter succeeds and only grows it. -/
theorem Grows.foldlM {α σ : Type} (filter : σ → CBloomFilter) (step : σ → α → Option σ)
    {I : CBloomFilter → Prop} {Q : α → CBloomFilter → Prop}
    (hI : ∀ {f g}, f.Grows g → I f → I g) (hQ : ∀ {a f g}, f.Grows g → Q a f → Q a g)
    (hst : ∀ s a, I (filter s) →
      ∃ t, step s a = some t ∧ (filter s).Grows (filter t) ∧ Q a (filter t))
    {s : σ} (hs : I (filter s)) (l : List α) :
    ∃ t, l.foldlM step s = some t ∧ (filter s).Grows (filter t) ∧ ∀ a ∈ l, Q a (filter t) := by
  induction l generalizing s with
  | nil => exact ⟨s, rfl, .refl, by simp⟩
  | cons a l ih =>
    obtain ⟨t, ht, hg, hQa⟩ := hst s a hs
    obtain ⟨u, hu, hg', hQl⟩ := ih (hI hg hs)
    exact ⟨u, by simpa [ht] using hu, hg.trans hg',
      forall_mem_cons.mpr ⟨hQ hg' hQa, hQl⟩⟩

theorem insert_spec (vKey : Valtype) (hf : f.Usable) :
    ∃ g, f.insert murmur vKey = some g ∧ f.Grows g ∧ g.has murmur vKey := by
  cases hfu : f.isFull
  · obtain ⟨g, hg, hgr, hb⟩ := Grows.foldlM (fun f => f)
      (fun f i => (f.hash murmur vKey i).bind f.setBit)
      (Q := fun i f => bit f.vData (f.index murmur vKey i)) Grows.vData_ne
      (fun h => h.index ▸ h.bit _) (fun f i (hf : f.vData ≠ []) => by
        obtain ⟨g, hg, hgr, hb⟩ := setBit_spec (index_lt hf i)
        exact ⟨g, by rw [hash_eq hf, bind_some, hg], hgr,
          hgr.index ▸ hb⟩)
      (hf.resolve_left (by simp [hfu])) (range f.nHashFuncs)
    refine ⟨{ g with isEmpty := false }, by simp [insert, hfu, hg], ?_, ?_⟩
    · obtain ⟨hl, -, hbi⟩ := hgr
      exact .intro hl (by simp) hbi
    · obtain ⟨hl, -, -⟩ := hgr
      simpa [CBloomFilter.has, index, hfu] using hb
  · exact ⟨f, by simp [insert, hfu], .refl, by simp [CBloomFilter.has, hfu]⟩

theorem anyM_contains (hf : f.Usable) (l : List Valtype) :
    l.anyM (f.contains murmur) = some (l.any (f.has murmur)) := by
  rw [contains_eq hf]
  exact anyM_pure

variable (murmur)

theorem matchOutput_spec (hash : Uint256) {s : CBloomFilter × Bool} (hs : s.1.Usable)
    (out : CTxOut × ℕ) :
    ∃ r, matchOutput murmur hash s out = some r ∧ s.1.Grows r.1 ∧
      ((CScript.dataPushes out.1.scriptPubKey).anyM (s.1.contains murmur) = some true →
        s.1.inserts out.1.scriptPubKey →
          r.1.has murmur (COutPoint.serialize ⟨hash, out.2⟩)) := by
  obtain ⟨g, hg, hgr, hh⟩ := insert_spec (COutPoint.serialize ⟨hash, out.2⟩) hs
  unfold matchOutput
  rw [anyM_contains hs]
  simp only [bind_eq_bind, bind_some]
  split_ifs with hm hi
  · exact ⟨(g, true), by simp [hg], hgr, fun _ _ => hh⟩
  · exact ⟨(s.1, true), rfl, .refl, fun _ h => absurd h hi⟩
  · exact ⟨s, rfl, .refl, fun h => absurd (some.inj h) hm⟩

theorem foldlM_matchOutput (hash : Uint256) (outs : List (CTxOut × ℕ)) {s : CBloomFilter × Bool}
    (hs : s.1.Usable) :
    ∃ r, outs.foldlM (matchOutput murmur hash) s = some r ∧ s.1.Grows r.1 := by
  obtain ⟨r, hr, hg, -⟩ := Grows.foldlM Prod.fst _ (Q := fun _ _ => True) Grows.usable
    (fun _ => id) (fun s out hs => by
      obtain ⟨r, hr, hg, -⟩ := matchOutput_spec murmur hash hs out
      exact ⟨r, hr, hg, trivial⟩) hs outs
  exact ⟨r, hr, hg⟩

theorem anyM_matchInput (hf : f.Usable) (vin : List CTxIn) :
    vin.anyM (f.matchInput murmur) = some (vin.any fun txin =>
      f.has murmur txin.prevout.serialize ||
        (CScript.dataPushes txin.scriptSig).any (f.has murmur)) := by
  rw [← Option.pure_def, ← anyM_pure]
  congr
  funext txin
  rw [matchInput, anyM_contains hf, contains_eq hf]
  cases h : f.has murmur txin.prevout.serialize <;> simp [h]

theorem isRelevantAndUpdate_spec (hf : f.Usable) (tx : CTransaction) :
    ∃ r, f.isRelevantAndUpdate murmur tx = some r ∧ f.Grows r.1 ∧
      ((∃ txin ∈ tx.vin, f.has murmur txin.prevout.serialize) → r.2 = true) := by
  unfold isRelevantAndUpdate
  split_ifs with hfu he
  · exact ⟨_, rfl, .refl, fun _ => rfl⟩
  · exact ⟨_, rfl, .refl, fun ⟨_, _, h⟩ => by simp_all [CBloomFilter.has]⟩
  · obtain ⟨⟨g, fFound⟩, hr, hg⟩ := foldlM_matchOutput murmur tx.hash tx.vout.zipIdx
      (s := (f, f.has murmur tx.hash.bytes)) hf
    simp only [contains_eq hf, bind_eq_bind, bind_some, matchOutputs, hr]
    split_ifs
    · exact ⟨_, rfl, hg, fun _ => rfl⟩
    · rw [anyM_matchInput murmur (hg.usable hf)]
      refine ⟨_, rfl, hg, fun ⟨txin, hm, hh⟩ => List.any_eq_true.mpr ⟨txin, hm, ?_⟩⟩
      rw [hg.has hh, Bool.true_or]

theorem MatchesOutput.has {tx : CTransaction} {i : ℕ} {r : CBloomFilter × Bool}
    (h : f.MatchesOutput murmur tx i) (hf : f.Usable)
    (hin : ∀ txout ∈ tx.vout[i]?, f.inserts txout.scriptPubKey)
    (hr : f.isRelevantAndUpdate murmur tx = some r) :
    r.1.has murmur (COutPoint.serialize ⟨tx.hash, i⟩) := by
  obtain ⟨hfu, hem, fFound, s, txout, hfo, hs, hi, hm⟩ := h
  obtain ⟨hl, rfl⟩ := List.getElem?_eq_some_iff.mp hi
  obtain ⟨s', hs', hg⟩ := foldlM_matchOutput murmur tx.hash (tx.vout.take i).zipIdx
    (s := (f, fFound)) hf
  obtain rfl : s = s' := some.inj (hs.symm.trans hs')
  obtain ⟨t, ht, hg', hh⟩ :=
    matchOutput_spec murmur tx.hash (hg.usable hf) (tx.vout[i], i)
  obtain ⟨u, hu, hg''⟩ := foldlM_matchOutput murmur tx.hash
    ((tx.vout.drop (i + 1)).zipIdx (i + 1)) (hg'.usable (hg.usable hf))
  have ho : f.matchOutputs murmur tx.hash tx.vout fFound = some u := by
    have hsp : tx.vout = tx.vout.take i ++ tx.vout[i] :: tx.vout.drop (i + 1) := by simp
    rw [matchOutputs, hsp, zipIdx_append, zipIdx_cons, length_take_of_le hl.le, Nat.zero_add]
    simp [hs', ht, hu]
  have he : r.1 = u.1 := by
    simp only [isRelevantAndUpdate, hfu, hem, hfo, ho, Bool.false_eq_true, if_false,
      bind_eq_bind, bind_some] at hr
    split_ifs at hr
    · rw [← some.inj hr]
    · obtain ⟨b, -, hb⟩ := Option.bind_eq_some_iff.mp hr
      rw [← some.inj hb]
  rw [he]
  exact hg''.has (hh hm (by rw [hg.inserts]; exact hin _ hi))

theorem call_spec (hf : f.Usable) (c : Call) : ∃ g, f.call murmur c = some g ∧ f.Grows g ∧
    ∀ vKey, c = .insert vKey → g.has murmur vKey := by
  cases c with
  | insert vKey =>
    obtain ⟨g, hg, hgr, hh⟩ := insert_spec vKey hf
    exact ⟨g, hg, hgr, by simp [hh]⟩
  | isRelevantAndUpdate tx =>
    obtain ⟨r, hr, hgr, -⟩ := isRelevantAndUpdate_spec murmur hf tx
    exact ⟨r.1, by simp [call, hr], hgr, by simp⟩

theorem foldlM_call (hf : f.Usable) (calls : List Call) :
    ∃ g, calls.foldlM (call murmur) f = some g ∧ f.Grows g ∧
      ∀ c ∈ calls, ∀ vKey, c = .insert vKey → g.has murmur vKey :=
  Grows.foldlM (fun f => f) _ Grows.usable
    (Q := fun c f => ∀ vKey, c = Call.insert vKey → f.has murmur vKey)
    (fun h hh vKey he => h.has (hh vKey he))
    (fun _ c hf => call_spec murmur hf c) hf calls

theorem usable_updateEmptyFull (f : CBloomFilter) : f.updateEmptyFull.Usable := by
  rcases hd : f.vData
  · exact .inl (by simp [updateEmptyFull, hd])
  · exact .inr (by simp [updateEmptyFull, hd])

/-- A loaded filter has no fault, contains what was inserted and finds the transactions that
spend an output it inserted. -/
theorem updateEmptyFull_never_misses (f : CBloomFilter) (calls : List Call) :
    ∃ g, calls.foldlM (call murmur) f.updateEmptyFull = some g ∧
      (∀ vKey, ∃ b, g.contains murmur vKey = some b) ∧
      (∀ vKey, .insert vKey ∈ calls → g.contains murmur vKey = some true) ∧
      ∀ before tx after f' i, calls = before ++ .isRelevantAndUpdate tx :: after →
        before.foldlM (call murmur) f.updateEmptyFull = some f' →
        f'.MatchesOutput murmur tx i → (f.nFlags &&& bloomUpdateMask = bloomUpdateAll ∨
          ∀ txout ∈ tx.vout[i]?, f.inserts txout.scriptPubKey) →
        g.contains murmur (COutPoint.serialize ⟨tx.hash, i⟩) = some true ∧
        ∀ tx', (∃ txin ∈ tx'.vin, txin.prevout = ⟨tx.hash, i⟩) →
          ∃ g', g.isRelevantAndUpdate murmur tx' = some (g', true) := by
  have hf := f.usable_updateEmptyFull
  obtain ⟨g, hg, hgr, hh⟩ := foldlM_call murmur hf calls
  have hc : g.contains murmur = _ := contains_eq (hgr.usable hf)
  refine ⟨g, hg, by simp [hc], fun vKey hm => ?_, ?_⟩
  · simp only [hc, hh _ hm vKey rfl]
  rintro before tx after f' i rfl hb hma hfl
  obtain ⟨f'', hf'', hgr', -⟩ := foldlM_call murmur hf before
  obtain rfl : f' = f'' := some.inj (hb.symm.trans hf'')
  obtain ⟨r, hr, hgr₁, -⟩ := isRelevantAndUpdate_spec murmur (hgr'.usable hf) tx
  have hi : ∀ txout ∈ tx.vout[i]?, f'.inserts txout.scriptPubKey := by
    rw [hgr'.inserts]
    refine hfl.elim (fun ha _ _ => ?_) id
    simp [inserts, updateEmptyFull, ha]
  have hs := hma.has murmur (hgr'.usable hf) hi hr
  obtain ⟨g₂, hg₂, hgr₂, -⟩ := foldlM_call murmur (hgr₁.usable (hgr'.usable hf)) after
  obtain rfl : g₂ = g := by simpa [hb, call, hr, hg₂] using hg
  have hk := hgr₂.has hs
  refine ⟨by simp only [hc, hk], fun tx' ⟨txin, hm, hp⟩ => ?_⟩
  obtain ⟨r', hr', -, hre⟩ := isRelevantAndUpdate_spec murmur (hgr.usable hf) tx'
  exact ⟨r'.1, by rw [hr', ← hre ⟨txin, hm, hp ▸ hk⟩]⟩

end CBloomFilter

end Palladium
