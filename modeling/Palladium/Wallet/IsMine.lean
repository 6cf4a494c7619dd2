import Palladium.Wallet.KeyStore

/-! # Ownership of scripts

`IsMine` classifies a script by the keys and scripts of the key store.
-/

namespace Palladium
open Option

/-- The place of a script: an output, a redeem script or a witness script. -/
inductive IsMineSigVersion
  | top | p2sh | witnessV0
  deriving DecidableEq, Repr

inductive IsMineResult
  | no | watchOnly | spendable | invalid
  deriving DecidableEq, Repr

inductive IsMineType
  | no | watchOnly | spendable
  deriving DecidableEq, Repr

def permitsUncompressed (sigversion : IsMineSigVersion) : Bool :=
  sigversion = .top || sigversion = .p2sh

namespace LegacyScriptPubKeyMan
section Model
variable (crypto : Crypto) (curve : Curve) (storage : WalletStorage) (s : LegacyScriptPubKeyMan)

def haveKeys (pubkeys : List Valtype) : Bool :=
  pubkeys.all fun pubkey => s.haveKey storage ((CPubKey.ofVch pubkey).getID crypto)

/-- A key under the hash of the output key itself, for older wallets. -/
def haveTweakedKey (xonly : Valtype) : Bool :=
  [2, 3].any fun pre =>
    match s.getKey storage (crypto.hash160 (pre :: xonly)) with
    | some key =>
      curve.createPayToTaprootPubKey (curve.getXOnlyPubKey (curve.getPubKey key)) = xonly
    | none => false

def haveTaprootKey (xonly : Valtype) : Bool :=
  if xonly.length ≠ 32 then false
  else if !crypto.xonlyPubkeyParse xonly then false
  else match s.getTaprootInternalKey xonly with
  | some internalPubkey => s.haveKey storage (internalPubkey.getID crypto)
  | none => s.haveTweakedKey crypto curve storage xonly

/-- One level of `IsMineInner`; `nested` stands for the recursive call. -/
def isMineStep (nested : IsMineSigVersion → CScript → IsMineResult) (sigversion : IsMineSigVersion)
    (recurseScripthash : Bool) (scriptPubKey : CScript) : IsMineResult :=
  let ofKey (have_ : Bool) : IsMineResult := if have_ then .spendable else .no
  match solver scriptPubKey with
  | .nonstandard | .nullData | .witnessUnknown _ _ => .no
  | .pubkey pubkey =>
    if !permitsUncompressed sigversion && pubkey.length ≠ 33 then .invalid
    else ofKey (s.haveKey storage ((CPubKey.ofVch pubkey).getID crypto))
  | .witnessV0Keyhash program =>
    if sigversion = .witnessV0 then .invalid
    else if sigversion = .top && !s.haveCScript (crypto.hash160 (getScriptForWitnessV0 program)) then
      .no
    else nested .witnessV0 (payToPubkeyHash program)
  | .pubkeyhash keyID =>
    if !permitsUncompressed sigversion &&
        (s.getPubKey curve storage keyID).any (!·.isCompressed) then .invalid
    else ofKey (s.haveKey storage keyID)
  | .scripthash scriptID =>
    if sigversion ≠ .top then .invalid
    else match s.getCScript scriptID with
    | some subscript => if recurseScripthash then nested .p2sh subscript else .spendable
    | none => .no
  | .witnessV0Scripthash program =>
    if sigversion = .witnessV0 then .invalid
    else if sigversion = .top && !s.haveCScript (crypto.hash160 (getScriptForWitnessV0 program)) then
      .no
    else match s.getCScript (crypto.ripemd160 program) with
    | some subscript => if recurseScripthash then nested .witnessV0 subscript else .spendable
    | none => .no
  | .witnessV1Taproot program =>
    if sigversion ≠ .top then .invalid
    else if !s.haveCScript (crypto.hash160 scriptPubKey) then .no
    else ofKey (s.haveTaprootKey crypto curve storage program)
  | .multisig _ pubkeys =>
    if sigversion = .top then .no
    else if !permitsUncompressed sigversion && pubkeys.any (·.length ≠ 33) then .invalid
    else ofKey (s.haveKeys crypto storage pubkeys)

def orWatched (scriptPubKey : CScript) (ret : IsMineResult) : IsMineResult :=
  if ret = .no && s.haveWatchOnly scriptPubKey then .watchOnly else ret

def isMineLevel (nested : IsMineSigVersion → CScript → IsMineResult)
    (sigversion : IsMineSigVersion) (recurseScripthash : Bool) (script : CScript) : IsMineResult :=
  s.orWatched script
    (s.isMineStep crypto curve storage nested sigversion recurseScripthash script)

/-- `IsMineInner`. A witness script nests nothing, so the recursion is at most three deep. -/
def isMineInner (sigversion : IsMineSigVersion) (recurseScripthash : Bool)
    (scriptPubKey : CScript) : IsMineResult :=
  let level := s.isMineLevel crypto curve storage
  level (fun v => level (fun v => level (fun _ _ => .invalid) v true) v true) sigversion
    recurseScripthash scriptPubKey

def isMine (script : CScript) : IsMineType :=
  match s.isMineInner crypto curve storage .top true script with
  | .invalid | .no => .no
  | .watchOnly => .watchOnly
  | .spendable => .spendable

end Model

variable {crypto : Crypto} {curve : Curve} {storage : WalletStorage}
  {s s' : LegacyScriptPubKeyMan} {script : CScript}
  {nested : IsMineSigVersion → CScript → IsMineResult} {sigversion : IsMineSigVersion}
  {hash vchCryptedSecret : Valtype} {script₀ : CScript} {vchPubKey : CPubKey}

theorem isMineLevel_congr {nested' : IsMineSigVersion → CScript → IsMineResult} (r : Bool)
    (hw : sigversion ≠ .witnessV0 → nested .witnessV0 = nested' .witnessV0)
    (hp2sh : sigversion = .top → nested .p2sh = nested' .p2sh) :
    s.isMineLevel crypto curve storage nested sigversion r =
      s.isMineLevel crypto curve storage nested' sigversion r := by
  funext script
  unfold isMineLevel isMineStep
  cases sigversion with
  | top => rw [hw (by decide), hp2sh rfl]
  | p2sh => rw [hw (by decide)]; rfl
  | witnessV0 => rfl

/-- The third level answers without a fourth, whatever that would return. -/
theorem isMineInner_three_levels (sigversion : IsMineSigVersion) (r : Bool)
    (fourth : IsMineSigVersion → CScript → IsMineResult) :
    s.isMineInner crypto curve storage sigversion r script =
      s.isMineLevel crypto curve storage (fun v => s.isMineLevel crypto curve storage
        (fun v => s.isMineLevel crypto curve storage fourth v true) v true) sigversion r script := by
  have hw (nested nested' : IsMineSigVersion → CScript → IsMineResult) :
      s.isMineLevel crypto curve storage nested .witnessV0 true =
        s.isMineLevel crypto curve storage nested' .witnessV0 true :=
    isMineLevel_congr true (fun h => absurd rfl h) nofun
  refine congrFun (isMineLevel_congr r (fun _ => ?_) fun _ => ?_) script
  · exact hw _ _
  · exact isMineLevel_congr true (fun _ => hw _ _) nofun

/-- The entries of a store that another one has too. -/
structure Keeps (crypto : Crypto) (curve : Curve) (storage : WalletStorage)
    (s s' : LegacyScriptPubKeyMan) : Prop where
  getCScript : ∀ hash script, s.getCScript hash = some script → s'.getCScript hash = some script
  haveKey : ∀ address, s.haveKey storage address = true → s'.haveKey storage address = true
  getPubKey : ∀ address, s.haveKey storage address = true →
    s'.getPubKey curve storage address = s.getPubKey curve storage address
  haveTaprootKey : ∀ xonly, s.haveTaprootKey crypto curve storage xonly = true →
    s'.haveTaprootKey crypto curve storage xonly = true

theorem Keeps.haveCScript (h : Keeps crypto curve storage s s') (hs : s.haveCScript hash) :
    s'.haveCScript hash := by
  obtain ⟨script, hsc⟩ := isSome_iff_exists.mp hs
  exact isSome_iff_exists.mpr ⟨script, h.getCScript hash script hsc⟩

theorem Keeps.haveKeys (h : Keeps crypto curve storage s s') {pubkeys : List Valtype}
    (hs : s.haveKeys crypto storage pubkeys) : s'.haveKeys crypto storage pubkeys :=
  List.all_eq_true.mpr fun pubkey hm => h.haveKey _ (List.all_eq_true.mp hs pubkey hm)

@[simp] theorem orWatched_eq_spendable {ret : IsMineResult} :
    s.orWatched script ret = .spendable ↔ ret = .spendable := by
  unfold orWatched
  split_ifs with h
  · simp only [Bool.and_eq_true, decide_eq_true_eq] at h
    simp [h.1]
  · rfl

/-- When a level of the recursion finds a script spendable. -/
def SpendableStep (crypto : Crypto) (curve : Curve) (storage : WalletStorage)
    (s : LegacyScriptPubKeyMan) (nested : IsMineSigVersion → CScript → Prop)
    (sigversion : IsMineSigVersion) (script : CScript) : Prop :=
  match solver script with
  | .nonstandard | .nullData | .witnessUnknown _ _ => False
  | .pubkey pubkey => (sigversion = .witnessV0 → pubkey.length = 33) ∧
      s.haveKey storage ((CPubKey.ofVch pubkey).getID crypto) = true
  | .pubkeyhash keyID => (sigversion = .witnessV0 →
      ∀ pubkey ∈ s.getPubKey curve storage keyID, pubkey.isCompressed = true) ∧
      s.haveKey storage keyID = true
  | .witnessV0Keyhash program => sigversion ≠ .witnessV0 ∧
      (sigversion = .top →
        s.haveCScript (crypto.hash160 (getScriptForWitnessV0 program)) = true) ∧
      nested .witnessV0 (payToPubkeyHash program)
  | .scripthash scriptID => sigversion = .top ∧
      ∃ subscript, s.getCScript scriptID = some subscript ∧ nested .p2sh subscript
  | .witnessV0Scripthash program => sigversion ≠ .witnessV0 ∧
      (sigversion = .top →
        s.haveCScript (crypto.hash160 (getScriptForWitnessV0 program)) = true) ∧
      ∃ subscript, s.getCScript (crypto.ripemd160 program) = some subscript ∧
        nested .witnessV0 subscript
  | .witnessV1Taproot program => sigversion = .top ∧
      s.haveCScript (crypto.hash160 script) = true ∧
      s.haveTaprootKey crypto curve storage program = true
  | .multisig _ pubkeys => sigversion ≠ .top ∧
      (sigversion = .witnessV0 → ∀ pubkey ∈ pubkeys, pubkey.length = 33) ∧
      s.haveKeys crypto storage pubkeys = true

theorem isMineStep_eq_spendable :
    s.isMineStep crypto curve storage nested sigversion true script = .spendable ↔
      s.SpendableStep crypto curve storage (fun v sub => nested v sub = .spendable) sigversion
        script := by
  unfold isMineStep SpendableStep
  cases hso : solver script with
  | nonstandard | nullData | witnessUnknown => simp
  | pubkey | multisig => cases sigversion <;> simp [permitsUncompressed, ite_eq_iff]
  | pubkeyhash keyID =>
    cases sigversion <;> cases hp : s.getPubKey curve storage keyID <;>
      simp [permitsUncompressed, ite_eq_iff, hp]
  | witnessV0Keyhash | witnessV1Taproot => cases sigversion <;> simp [ite_eq_iff]
  | scripthash scriptID =>
    cases sigversion <;> cases hs : s.getCScript scriptID <;> simp [hs]
  | witnessV0Scripthash program =>
    cases sigversion <;> cases hs : s.getCScript (crypto.ripemd160 program) <;>
      simp [ite_eq_iff, hs]

theorem Keeps.spendableStep (h : Keeps crypto curve storage s s')
    {nested nested' : IsMineSigVersion → CScript → Prop}
    (hn : ∀ v sub, nested v sub → nested' v sub)
    (hs : s.SpendableStep crypto curve storage nested sigversion script) :
    s'.SpendableStep crypto curve storage nested' sigversion script := by
  unfold SpendableStep at hs ⊢
  generalize solver script = solution at hs ⊢
  cases solution with
  | nonstandard | nullData | witnessUnknown => exact hs
  | pubkey pubkey => exact ⟨hs.1, h.haveKey _ hs.2⟩
  | pubkeyhash keyID =>
    exact ⟨by rw [h.getPubKey keyID hs.2]; exact hs.1, h.haveKey _ hs.2⟩
  | witnessV0Keyhash program =>
    exact ⟨hs.1, fun hto => h.haveCScript (hs.2.1 hto), hn _ _ hs.2.2⟩
  | scripthash scriptID =>
    obtain ⟨hto, su, hsu, hr⟩ := hs
    exact ⟨hto, su, h.getCScript _ _ hsu, hn _ _ hr⟩
  | witnessV0Scripthash program =>
    obtain ⟨hv, hto, su, hsu, hr⟩ := hs
    exact ⟨hv, fun ht => h.haveCScript (hto ht), su, h.getCScript _ _ hsu, hn _ _ hr⟩
  | witnessV1Taproot program =>
    exact ⟨hs.1, h.haveCScript hs.2.1, h.haveTaprootKey _ hs.2.2⟩
  | multisig required pubkeys => exact ⟨hs.1, hs.2.1, h.haveKeys hs.2.2⟩

theorem Keeps.isMineInner (h : Keeps crypto curve storage s s')
    (hs : s.isMineInner crypto curve storage sigversion true script = .spendable) :
    s'.isMineInner crypto curve storage sigversion true script = .spendable := by
  simp only [LegacyScriptPubKeyMan.isMineInner, isMineLevel, orWatched_eq_spendable,
    isMineStep_eq_spendable] at hs ⊢
  refine h.spendableStep (fun v sub hsu => ?_) hs
  refine h.spendableStep (fun v sub hsu => ?_) hsu
  exact h.spendableStep (fun _ _ h => h) hsu

theorem isMine_eq_spendable : s.isMine crypto curve storage script = .spendable ↔
      s.isMineInner crypto curve storage .top true script = .spendable := by
  unfold isMine
  cases s.isMineInner crypto curve storage .top true script <;> simp

variable (crypto)

def SparesScript (s : LegacyScriptPubKeyMan) (script : CScript) : Prop :=
  ∀ script' ∈ s.getCScript (crypto.hash160 script), script' = script

/-- The scripts that come with a public key take no other's place. -/
def SparesKeyScripts (curve : Curve) (s : LegacyScriptPubKeyMan) (pubkey : CPubKey) : Prop :=
  (pubkey.isCompressed = true →
      s.SparesScript crypto (getScriptForWitnessV0 (pubkey.getID crypto))) ∧
    ∀ outputKey ∈ taprootOutputKey crypto curve pubkey,
      s.SparesScript crypto (getScriptForTaproot outputKey)

/-- A call that replaces no key and no script, and does not make a public key without its private
key the internal key of a spendable output. -/
def Spares (curve : Curve) (storage : WalletStorage) (s : LegacyScriptPubKeyMan) : Call → Prop
  | .addKeyPubKeyInner key pubkey =>
    (∀ key' ∈ s.mapKeys.lookup (pubkey.getID crypto), key' = key) ∧
    (∀ entry ∈ s.mapCryptedKeys.lookup (pubkey.getID crypto),
      ∀ secret ∈ storage.encryptSecret key.keydata pubkey, entry = (pubkey, secret)) ∧
    s.SparesKeyScripts crypto curve pubkey
  | .addCryptedKeyInner vchPubKey vchCryptedSecret =>
    (∀ entry ∈ s.mapCryptedKeys.lookup (vchPubKey.getID crypto),
      entry = (vchPubKey, vchCryptedSecret)) ∧
    s.SparesKeyScripts crypto curve vchPubKey
  | .addCScript redeemScript => s.SparesScript crypto redeemScript
  | .addWatchOnlyInMem dest => ∀ pubkey ∈ extractPubKey curve dest,
    s.SparesKeyScripts crypto curve pubkey ∧
    ∀ outputKey ∈ taprootOutputKey crypto curve pubkey,
      s.haveTaprootKey crypto curve storage outputKey = true →
        s.haveKey storage (pubkey.getID crypto) = true

variable {crypto}

/-- The maps of a store hold all of those of another, and an internal key that differs belongs to a
key of the store. -/
theorem Keeps.of_lookup
    (hs : ∀ hash script, s.getCScript hash = some script → s'.getCScript hash = some script)
    (hke : ∀ a key, s.mapKeys.lookup a = some key → s'.mapKeys.lookup a = some key)
    (hc : ∀ a entry, s.mapCryptedKeys.lookup a = some entry →
      s'.mapCryptedKeys.lookup a = some entry)
    (ht : ∀ xonly, s.haveTaprootKey crypto curve storage xonly →
      s'.getTaprootInternalKey xonly = s.getTaprootInternalKey xonly ∨
      ∃ pubkey, s'.getTaprootInternalKey xonly = some pubkey ∧
        s'.haveKey storage (pubkey.getID crypto)) :
    Keeps crypto curve storage s s' := by
  have hh : ∀ a, s.haveKey storage a = true → s'.haveKey storage a := by
    intro a ha
    unfold LegacyScriptPubKeyMan.haveKey at ha ⊢
    split_ifs at ha ⊢
    · obtain ⟨key, hky⟩ := isSome_iff_exists.mp ha
      exact isSome_iff_exists.mpr ⟨key, hke a key hky⟩
    · obtain ⟨entry, he⟩ := isSome_iff_exists.mp ha
      exact isSome_iff_exists.mpr ⟨entry, hc a entry he⟩
  have hg : ∀ a key, s.getKey storage a = some key → s'.getKey storage a = some key := by
    intro a key ha
    unfold getKey at ha ⊢
    split_ifs at ha ⊢
    · exact hke a key ha
    · cases he : s.mapCryptedKeys.lookup a with
      | none => simp [he] at ha
      | some entry =>
        rw [hc a entry he]
        simpa [he] using ha
  refine ⟨hs, hh, fun a ha => ?_, fun xonly hx => ?_⟩
  · unfold LegacyScriptPubKeyMan.haveKey at ha
    unfold LegacyScriptPubKeyMan.getPubKey
    split_ifs at ha ⊢
    · obtain ⟨key, hky⟩ := isSome_iff_exists.mp ha
      rw [hky, hke a key hky]
    · obtain ⟨entry, he⟩ := isSome_iff_exists.mp ha
      rw [he, hc a entry he]
  · have hta := ht xonly hx
    unfold LegacyScriptPubKeyMan.haveTaprootKey at hx ⊢
    split_ifs at hx ⊢
    rcases hta with hsa | ⟨pubkey, hn, ho⟩
    · rw [hsa]
      cases hint : s.getTaprootInternalKey xonly with
      | some pubkey =>
        simp only [hint] at hx ⊢
        exact hh _ hx
      | none =>
        simp only [hint, haveTweakedKey, List.any_eq_true] at hx ⊢
        obtain ⟨pre, hp, hky⟩ := hx
        refine ⟨pre, hp, ?_⟩
        cases hk : s.getKey storage (crypto.hash160 (pre :: xonly)) with
        | none => simp [hk] at hky
        | some key =>
          rw [hg _ _ hk]
          simpa [hk] using hky
    · rw [hn]
      exact ho

theorem Keeps.refl (s : LegacyScriptPubKeyMan) : Keeps crypto curve storage s s :=
  .of_lookup (fun _ _ h => h) (fun _ _ h => h) (fun _ _ h => h) fun _ _ => .inl rfl

theorem lookup_insert_eq_some {β : Type} {m : AList fun _ : Valtype => β} {a k : Valtype} {b c : β}
    (hm : m.lookup a = some c) (he : a = k → c = b) : (m.insert k b).lookup a = some c := by
  by_cases ha : a = k
  · rw [he ha, ha, AList.lookup_insert]
  · rw [AList.lookup_insert_ne ha, hm]

theorem getCScript_storeScript (hs : s.getCScript hash = some script)
    (he : hash = crypto.hash160 script₀ → script = script₀) :
    (s.storeScript crypto script₀).getCScript hash = some script :=
  lookup_insert_eq_some hs he

theorem SparesScript.eq_of_hash (h : s.SparesScript crypto script₀)
    (hs : s.getCScript hash = some script) : hash = crypto.hash160 script₀ → script = script₀ := by
  rintro rfl
  exact h script hs

section Learning
variable {pubkey : CPubKey}

@[simp] theorem mapKeys_learnKeyScripts :
    (s.learnKeyScripts crypto curve pubkey).mapKeys = s.mapKeys := by
  unfold learnKeyScripts implicitlyLearnTaprootKeyScripts implicitlyLearnRelatedKeyScripts
  split <;> split_ifs <;> rfl

@[simp] theorem mapCryptedKeys_learnKeyScripts :
    (s.learnKeyScripts crypto curve pubkey).mapCryptedKeys = s.mapCryptedKeys := by
  unfold learnKeyScripts implicitlyLearnTaprootKeyScripts implicitlyLearnRelatedKeyScripts
  split <;> split_ifs <;> rfl

@[simp] theorem haveKey_learnKeyScripts (a : Valtype) :
    (s.learnKeyScripts crypto curve pubkey).haveKey storage a = s.haveKey storage a := by
  simp [haveKey]

theorem getTaprootInternalKey_learnKeyScripts (xonly : Valtype) :
    (s.learnKeyScripts crypto curve pubkey).getTaprootInternalKey xonly =
      if taprootOutputKey crypto curve pubkey = some xonly then some pubkey
      else s.getTaprootInternalKey xonly := by
  have hr : (s.implicitlyLearnRelatedKeyScripts crypto pubkey).taprootInternalKeys =
      s.taprootInternalKeys := by
    unfold implicitlyLearnRelatedKeyScripts
    split_ifs <;> rfl
  unfold learnKeyScripts implicitlyLearnTaprootKeyScripts getTaprootInternalKey
  cases ho : taprootOutputKey crypto curve pubkey with
  | none => simp [hr]
  | some outputKey =>
    simp only [storeScript, hr, Option.some.injEq]
    split_ifs with he
    · rw [he, AList.lookup_insert]
    · rw [AList.lookup_insert_ne (Ne.symm he)]

theorem SparesKeyScripts.getCScript_learnKeyScripts (h : s.SparesKeyScripts crypto curve pubkey)
    (hs : s.getCScript hash = some script) :
    (s.learnKeyScripts crypto curve pubkey).getCScript hash = some script := by
  have hr : (s.implicitlyLearnRelatedKeyScripts crypto pubkey).getCScript hash = some script := by
    unfold implicitlyLearnRelatedKeyScripts
    split_ifs with hc
    · exact getCScript_storeScript hs ((h.1 hc).eq_of_hash hs)
    · exact hs
  unfold learnKeyScripts implicitlyLearnTaprootKeyScripts
  cases ho : taprootOutputKey crypto curve pubkey with
  | none => exact hr
  | some outputKey => exact getCScript_storeScript hr ((h.2 outputKey ho).eq_of_hash hs)

end Learning

theorem Keeps.learnKeyScripts {pubkey : CPubKey} (h : s.SparesKeyScripts crypto curve pubkey)
    (hsc : s'.mapScripts = s.mapScripts)
    (hi : s'.taprootInternalKeys = s.taprootInternalKeys)
    (hk : ∀ a key, s.mapKeys.lookup a = some key → s'.mapKeys.lookup a = some key)
    (hc : ∀ a entry, s.mapCryptedKeys.lookup a = some entry →
      s'.mapCryptedKeys.lookup a = some entry)
    (ho : ∀ outputKey ∈ taprootOutputKey crypto curve pubkey,
      s.haveTaprootKey crypto curve storage outputKey → s'.haveKey storage (pubkey.getID crypto)) :
    Keeps crypto curve storage s (s'.learnKeyScripts crypto curve pubkey) := by
  have hsp : s'.SparesKeyScripts crypto curve pubkey := by
    simpa only [SparesKeyScripts, SparesScript, LegacyScriptPubKeyMan.getCScript, hsc] using h
  refine .of_lookup (fun hash script hs => ?_) (by simpa using hk) (by simpa using hc)
    fun xonly hx => ?_
  · refine hsp.getCScript_learnKeyScripts ?_
    simpa only [LegacyScriptPubKeyMan.getCScript, hsc] using hs
  · rw [getTaprootInternalKey_learnKeyScripts]
    split_ifs with hou
    · exact .inr ⟨pubkey, rfl, by simpa using ho xonly hou hx⟩
    · exact .inl (by simp [getTaprootInternalKey, hi])

theorem haveTaprootKey_of_mapKeys_empty (hs : storage.hasEncryptionKeys = false)
    (he : s.mapKeys.entries.isEmpty) (xonly : Valtype) :
    s.haveTaprootKey crypto curve storage xonly = false := by
  have hn : ∀ a, s.mapKeys.lookup a = none := by
    intro a
    rw [AList.lookup_eq_none, AList.mem_keys, AList.keys, List.isEmpty_iff.mp he]
    simp
  unfold haveTaprootKey haveTweakedKey haveKey getKey
  cases s.getTaprootInternalKey xonly <;> simp [hs, hn]

theorem addCryptedKeyInner_eq_ok
    (hr : s.addCryptedKeyInner crypto curve vchPubKey vchCryptedSecret = .ok s') :
    s.mapKeys.entries.isEmpty ∧ s' = LegacyScriptPubKeyMan.learnKeyScripts crypto curve
        { s with mapCryptedKeys :=
            s.mapCryptedKeys.insert (vchPubKey.getID crypto) (vchPubKey, vchCryptedSecret) }
        vchPubKey := by
  unfold addCryptedKeyInner at hr
  split_ifs at hr with he
  exact ⟨he, (Except.ok.inj hr).symm⟩

theorem Keeps.addCryptedKeyInner
    (he : ∀ entry ∈ s.mapCryptedKeys.lookup (vchPubKey.getID crypto),
      entry = (vchPubKey, vchCryptedSecret)) (h : s.SparesKeyScripts crypto curve vchPubKey)
    (hr : s.addCryptedKeyInner crypto curve vchPubKey vchCryptedSecret = .ok s') :
    Keeps crypto curve storage s s' := by
  obtain ⟨hem, rfl⟩ := addCryptedKeyInner_eq_ok hr
  refine .learnKeyScripts h rfl rfl (fun _ _ hk => hk) (fun a entry ha => ?_) ?_
  · refine lookup_insert_eq_some ha ?_
    rintro rfl
    exact he entry ha
  · intro outputKey ho ht
    -- without encryption keys the store has no key at all
    cases hs : storage.hasEncryptionKeys with
    | false => simp [haveTaprootKey_of_mapKeys_empty hs hem] at ht
    | true => simp [LegacyScriptPubKeyMan.haveKey, hs, AList.lookup_insert]

theorem Spares.keeps {call : Call} (h : s.Spares crypto curve storage call)
    (hr : s.run crypto curve storage call = .ok s') : Keeps crypto curve storage s s' := by
  cases call with
  | addKeyPubKeyInner key pubkey =>
    obtain ⟨hke, hen, hsc⟩ := h
    unfold run addKeyPubKeyInner at hr
    split_ifs at hr with hst hl
    · cases hr
      refine .learnKeyScripts hsc rfl rfl (fun a key' ha => ?_) (fun _ _ he => he) ?_
      · refine lookup_insert_eq_some ha ?_
        rintro rfl
        exact hke key' ha
      · intro _ _ _
        simp only [Bool.not_eq_true'] at hst
        simp [haveKey, hst, AList.lookup_insert]
    · cases hr
      exact .refl s
    · cases hse : storage.encryptSecret key.keydata pubkey with
      | none =>
        simp only [hse] at hr
        cases hr
        exact .refl s
      | some secret =>
        simp only [hse] at hr
        cases had : s.addCryptedKeyInner crypto curve pubkey secret with
        | error e => simp [had, Except.map] at hr
        | ok t =>
          simp only [had, Except.map, Except.ok.injEq] at hr
          exact .addCryptedKeyInner (fun entry he => hen entry he secret hse) hsc
            (hr ▸ had)
  | addCryptedKeyInner vchPubKey vchCryptedSecret => exact .addCryptedKeyInner h.1 h.2 hr
  | addCScript redeemScript =>
    cases hr
    unfold addCScript
    split_ifs
    · exact .refl s
    · refine .of_lookup (fun hash script hs => ?_) (fun _ _ hk => hk) (fun _ _ he => he)
        fun _ _ => .inl rfl
      exact getCScript_storeScript hs (SparesScript.eq_of_hash h hs)
  | addWatchOnlyInMem dest =>
    cases hr
    unfold addWatchOnlyInMem
    cases hp : extractPubKey curve dest with
    | none =>
      dsimp only
      refine .of_lookup (fun _ _ hs => hs) (fun _ _ hk => hk) (fun _ _ he => he) ?_
      exact fun _ _ => .inl rfl
    | some pubkey =>
      obtain ⟨hsc, ho⟩ := h pubkey hp
      exact .learnKeyScripts hsc rfl rfl (fun _ _ hk => hk) (fun _ _ he => he) ho

def SparingStep (crypto : Crypto) (curve : Curve) (storage : WalletStorage)
    (s s' : LegacyScriptPubKeyMan) : Prop :=
  ∃ call, s.Spares crypto curve storage call ∧ s.run crypto curve storage call = .ok s'

/-- What is spendable stays spendable through every run of such calls. -/
theorem isMine_spendable_of_sparing
    (hrun : Relation.ReflTransGen (SparingStep crypto curve storage) s s')
    (hmine : s.isMine crypto curve storage script = .spendable) :
    s'.isMine crypto curve storage script = .spendable := by
  induction hrun with
  | refl => exact hmine
  | tail _ hst ih =>
    obtain ⟨call, hs, hc⟩ := hst
    rw [isMine_eq_spendable] at ih ⊢
    exact (hs.keeps hc).isMineInner ih

def plainCrypto : Crypto where
  ripemd160 := id
  sha1 := id
  sha256 := id
  checkLowS _ := true
  xonlyPubkeyParse _ := true
  xonlyPubkeyTweakAddCheck _ _ _ _ := true

def plainCurve : Curve where
  getPubKey key := .ofVch (2 :: key.keydata)
  isFullyValid pubkey := pubkey.isValid
  getXOnlyPubKey pubkey := pubkey.vch.drop 1
  createPayToTaprootPubKey := id
  sign _ _ := none
  signSchnorr _ _ := none
  signSchnorrTaproot _ _ := none
  verify _ _ _ := false
  verifySchnorr _ _ _ := false

def plainStorage : WalletStorage := ⟨false, false, fun _ _ => none, fun _ _ => none, true⟩

def sampleX : Valtype := List.replicate 32 7

def sampleKey : CKey := ⟨sampleX, true⟩

def evenKey : CPubKey := .ofVch (2 :: sampleX)

def oddKey : CPubKey := .ofVch (3 :: sampleX)

def sampleStore : LegacyScriptPubKeyMan :=
  LegacyScriptPubKeyMan.learnKeyScripts plainCrypto plainCurve
    { mapKeys := AList.insert (evenKey.getID plainCrypto) sampleKey ∅ } evenKey

theorem isMine_spendable_of_sparing_watchOnly :
    (sampleStore.addWatchOnlyInMem plainCrypto plainCurve (getScriptForRawPubKey evenKey)).isMine
      plainCrypto plainCurve plainStorage (getScriptForTaproot sampleX) = .spendable := by
  have hsp : sampleStore.Spares plainCrypto plainCurve plainStorage
      (.addWatchOnlyInMem (getScriptForRawPubKey evenKey)) := by
    unfold Spares SparesKeyScripts SparesScript
    decide +kernel
  have hs : SparingStep plainCrypto plainCurve plainStorage sampleStore _ := ⟨_, hsp, rfl⟩
  exact isMine_spendable_of_sparing (.single hs) (by decide +kernel)

/-- A watch-only key with the x coordinate of a key of the store takes its place. -/
theorem watchOnly_hides_taproot : LegacyScriptPubKeyMan.run plainCrypto plainCurve plainStorage {}
      (.addKeyPubKeyInner sampleKey evenKey) = .ok sampleStore ∧
    sampleStore.isMine plainCrypto plainCurve plainStorage (getScriptForTaproot sampleX) =
      .spendable ∧
    ∃ s, sampleStore.run plainCrypto plainCurve plainStorage
        (.addWatchOnlyInMem (getScriptForRawPubKey oddKey)) = .ok s ∧
      s.isMine plainCrypto plainCurve plainStorage (getScriptForTaproot sampleX) = .no := by
  refine ⟨rfl, ?_, _, rfl, ?_⟩
  · decide +kernel
  · decide +kernel

end LegacyScriptPubKeyMan

end Palladium
