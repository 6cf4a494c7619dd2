import Mathlib.Data.Finset.Insert
import Mathlib.Data.List.AList
import Palladium.Script.Standard

/-! # The legacy key store

The maps of `LegacyScriptPubKeyMan` and the calls that fill them.
-/

namespace Palladium

/-- What the key store asks of its wallet. -/
structure WalletStorage where
  hasEncryptionKeys : Bool
  isLocked : Bool
  /-- `EncryptSecret` with the key of the wallet, for a secret and its public key. -/
  encryptSecret : (vchSecret : Valtype) → CPubKey → Option Valtype
  /-- `DecryptKey` with the key of the wallet. -/
  decryptKey : (vchCryptedSecret : Valtype) → CPubKey → Option CKey
  /-- Whether a write to the database succeeds. -/
  writes : Bool

/-- Keys are found by the hash of their public key, scripts by their hash. -/
structure LegacyScriptPubKeyMan where
  mapKeys : AList fun _ : Valtype => CKey := ∅
  mapCryptedKeys : AList fun _ : Valtype => CPubKey × Valtype := ∅
  mapScripts : AList fun _ : Valtype => CScript := ∅
  mapWatchKeys : AList fun _ : Valtype => CPubKey := ∅
  setWatchOnly : Finset CScript := ∅
  /-- `m_taproot_internal_keys`, by output key. -/
  taprootInternalKeys : AList fun _ : Valtype => CPubKey := ∅

namespace LegacyScriptPubKeyMan
section Model
variable (crypto : Crypto) (curve : Curve) (storage : WalletStorage) (s : LegacyScriptPubKeyMan)
variable (address : Valtype)

def haveKey : Bool :=
  if !storage.hasEncryptionKeys then (s.mapKeys.lookup address).isSome
  else (s.mapCryptedKeys.lookup address).isSome

def getKey : Option CKey :=
  if !storage.hasEncryptionKeys then s.mapKeys.lookup address
  else match s.mapCryptedKeys.lookup address with
  | some (vchPubKey, vchCryptedSecret) => storage.decryptKey vchCryptedSecret vchPubKey
  | none => none

def getWatchPubKey : Option CPubKey := s.mapWatchKeys.lookup address

def getPubKey : Option CPubKey :=
  if !storage.hasEncryptionKeys then
    match s.mapKeys.lookup address with
    | some key => some (curve.getPubKey key)
    | none => s.getWatchPubKey address
  else match s.mapCryptedKeys.lookup address with
  | some (vchPubKey, _) => some vchPubKey
  | none => s.getWatchPubKey address

def getCScript (hash : Valtype) : Option CScript := s.mapScripts.lookup hash

def haveCScript (hash : Valtype) : Bool := (s.mapScripts.lookup hash).isSome

def haveWatchOnly (dest : CScript) : Bool := dest ∈ s.setWatchOnly

def getTaprootInternalKey (outputKey : Valtype) : Option CPubKey :=
  s.taprootInternalKeys.lookup outputKey

/-- `mapScripts[CScriptID(script)] = script`. -/
def storeScript (script : CScript) : LegacyScriptPubKeyMan :=
  { s with mapScripts := s.mapScripts.insert (crypto.hash160 script) script }

variable (pubkey : CPubKey)

def implicitlyLearnRelatedKeyScripts : LegacyScriptPubKeyMan :=
  if pubkey.isCompressed then s.storeScript crypto (getScriptForWitnessV0 (pubkey.getID crypto))
  else s

/-- The output key that pays to a public key, if there is one. -/
def taprootOutputKey : Option Valtype :=
  if pubkey.isCompressed then
    let internalKey := curve.getXOnlyPubKey pubkey
    if crypto.xonlyPubkeyParse internalKey then
      let outputKey := curve.createPayToTaprootPubKey internalKey
      if crypto.xonlyPubkeyParse outputKey then some outputKey else none
    else none
  else none

def implicitlyLearnTaprootKeyScripts : LegacyScriptPubKeyMan :=
  match taprootOutputKey crypto curve pubkey with
  | some outputKey =>
    let s := s.storeScript crypto (getScriptForTaproot outputKey)
    { s with taprootInternalKeys := s.taprootInternalKeys.insert outputKey pubkey }
  | none => s

def learnKeyScripts : LegacyScriptPubKeyMan :=
  (s.implicitlyLearnRelatedKeyScripts crypto pubkey).implicitlyLearnTaprootKeyScripts crypto curve
    pubkey

def addCryptedKeyInner (vchPubKey : CPubKey) (vchCryptedSecret : Valtype) :
    Except Halt LegacyScriptPubKeyMan :=
  if s.mapKeys.entries.isEmpty then
    .ok <| LegacyScriptPubKeyMan.learnKeyScripts crypto curve
      { s with mapCryptedKeys :=
          s.mapCryptedKeys.insert (vchPubKey.getID crypto) (vchPubKey, vchCryptedSecret) }
      vchPubKey
  else .error .assertion

/-- The returned value comes first. -/
def addKeyPubKeyInner (key : CKey) (pubkey : CPubKey) :
    Except Halt (Bool × LegacyScriptPubKeyMan) :=
  if !storage.hasEncryptionKeys then
    .ok (true, LegacyScriptPubKeyMan.learnKeyScripts crypto curve
      { s with mapKeys := s.mapKeys.insert (pubkey.getID crypto) key } pubkey)
  else if storage.isLocked then .ok (false, s)
  else match storage.encryptSecret key.keydata pubkey with
  | none => .ok (false, s)
  | some vchCryptedSecret =>
    (s.addCryptedKeyInner crypto curve pubkey vchCryptedSecret).map fun s => (storage.writes, s)

def addCScript (redeemScript : CScript) : Bool × LegacyScriptPubKeyMan :=
  if maxScriptElementSize < redeemScript.length then (false, s)
  else (storage.writes, s.storeScript crypto redeemScript)

def extractPubKey (dest : CScript) : Option CPubKey :=
  match solver dest with
  | .pubkey pubkey =>
    if curve.isFullyValid (.ofVch pubkey) then some (.ofVch pubkey) else none
  | _ => none

def addWatchOnlyInMem (dest : CScript) : LegacyScriptPubKeyMan :=
  let s := { s with setWatchOnly := insert dest s.setWatchOnly }
  match extractPubKey curve dest with
  | some pubkey =>
    LegacyScriptPubKeyMan.learnKeyScripts crypto curve
      { s with mapWatchKeys := s.mapWatchKeys.insert (pubkey.getID crypto) pubkey } pubkey
  | none => s

/-- The calls that add to the store. -/
inductive Call
  | addKeyPubKeyInner (key : CKey) (pubkey : CPubKey)
  | addCryptedKeyInner (vchPubKey : CPubKey) (vchCryptedSecret : Valtype)
  | addCScript (redeemScript : CScript)
  | addWatchOnlyInMem (dest : CScript)

def run : Call → Except Halt LegacyScriptPubKeyMan
  | .addKeyPubKeyInner key pubkey =>
    (s.addKeyPubKeyInner crypto curve storage key pubkey).map (·.2)
  | .addCryptedKeyInner vchPubKey vchCryptedSecret =>
    s.addCryptedKeyInner crypto curve vchPubKey vchCryptedSecret
  | .addCScript redeemScript => .ok (s.addCScript crypto storage redeemScript).2
  | .addWatchOnlyInMem dest => .ok (s.addWatchOnlyInMem crypto curve dest)

end Model

end LegacyScriptPubKeyMan

end Palladium
