import Palladium.Psbt.Psbt
import Palladium.Script.SigningRequests

/-! # Signing an input of a partially signed transaction

The output an input spends is told by the partially signed transaction itself.
-/

namespace Palladium
open Option Std
section Records
variable (crypto : Crypto)

def PSBTInput.fillSignatureData (input : PSBTInput) : SignatureData :=
  let sigdata : SignatureData :=
    { scriptSig := input.finalScriptSig
      scriptWitness := input.finalScriptWitness
      complete := input.signed }
  if sigdata.complete then sigdata
  else
    { sigdata with
      signatures := input.partialSigs.foldl emplace ∅
      redeemScript := input.redeemScript
      witnessScript := input.witnessScript
      miscPubkeys := input.hdKeypaths.foldl
        (fun m pubkey info => emplace m (pubkey.getID crypto) (pubkey, info)) ∅ }

def PSBTInput.fromSignatureData (input : PSBTInput) (sigdata : SignatureData) : PSBTInput :=
  if sigdata.complete then
    { input with
      partialSigs := ∅
      hdKeypaths := ∅
      redeemScript := []
      witnessScript := []
      finalScriptSig :=
        if !sigdata.scriptSig.isEmpty then sigdata.scriptSig else input.finalScriptSig
      finalScriptWitness :=
        if !sigdata.scriptWitness.isEmpty then sigdata.scriptWitness else input.finalScriptWitness }
  else
    { input with
      partialSigs := sigdata.signatures.entries.foldl (fun m e => m.insertIfNew e.1 e.2)
        input.partialSigs
      redeemScript := fill List.isEmpty input.redeemScript sigdata.redeemScript
      witnessScript := fill List.isEmpty input.witnessScript sigdata.witnessScript
      hdKeypaths := sigdata.miscPubkeys.entries.foldl (fun m e => m.insertIfNew e.2.1 e.2.2)
        input.hdKeypaths }

end Records

/-- The output that is spent, and whether a signature for a witness is required. -/
def PSBTInput.utxo (input : PSBTInput) (prevout : COutPoint) : Option (CTxOut × Bool) :=
  match input.nonWitnessUtxo with
  | some nonWitnessUtxo =>
    match nonWitnessUtxo.vout[prevout.n]? with
    | none => none
    | some utxo => if nonWitnessUtxo.hash ≠ prevout.hash then none else some (utxo, false)
  | none => if !input.witnessUtxo.isNull then some (input.witnessUtxo, true) else none

/-- What `SignPSBTInput` returns, changes and tells about what is missing. -/
structure SignedInput where
  complete : Bool
  input : PSBTInput
  outSigdata : SignatureData := {}

section Sign
variable (crypto : Crypto) (curve : Curve) (provider : SigningProvider)
  (creatorOf : CTransaction → (amount : ℤ) → SignatureCreator)

def producedFor (tx : CTransaction) (input : PSBTInput) (utxo : CTxOut) : SignatureData :=
  produceSignature crypto curve provider (creatorOf tx utxo.nValue) utxo.scriptPubKey
    { input.fillSignatureData crypto with witness := false }

def signInput (tx : CTransaction) (input : PSBTInput) (prevout : COutPoint) : SignedInput :=
  if input.signed then { complete := true, input }
  else
    match input.utxo prevout with
    | none => { complete := false, input }
    | some (utxo, requireWitnessSig) =>
      let sigdata := producedFor crypto curve provider creatorOf tx input utxo
      if requireWitnessSig && !sigdata.witness then { complete := false, input }
      else
        let input := input.fromSignatureData sigdata
        { complete := sigdata.complete
          input := if sigdata.witness then { input with witnessUtxo := utxo } else input
          outSigdata :=
            { missingPubkeys := sigdata.missingPubkeys
              missingSigs := sigdata.missingSigs
              missingRedeemScript := sigdata.missingRedeemScript
              missingWitnessScript := sigdata.missingWitnessScript } }

variable (psbt : PartiallySignedTransaction)

/-- `SignPSBTInput` with a creator for the transaction and the amount; needs a transaction with the
input, and its record. -/
def signPSBTInputWith (index : ℕ) : Option (Bool × PartiallySignedTransaction × SignatureData) := do
  let input ← psbt.inputs[index]?
  let tx ← psbt.tx
  let txin ← tx.vin[index]?
  let signed := signInput crypto curve provider creatorOf tx input txin.prevout
  return (signed.complete, { psbt with inputs := psbt.inputs.set index signed.input },
    signed.outSigdata)

def signPSBTInputRequests (index : ℕ) : List SigRequest :=
  match psbt.inputs[index]?, psbt.tx, psbt.tx.bind (·.vin[index]?) with
  | some input, some tx, some txin =>
    if input.signed then []
    else
      match input.utxo txin.prevout with
      | none => []
      | some (utxo, _) =>
        produceSignatureRequests crypto curve provider (creatorOf tx utxo.nValue) utxo.scriptPubKey
          { input.fillSignatureData crypto with witness := false }
  | _, _, _ => []

variable (sighash : UInt32)

/-- The creator of signatures of an input, which has no data of the other outputs that are spent. -/
def psbtCreator (index : ℕ) (useDummy : Bool) (tx : CTransaction) (amount : ℤ) : SignatureCreator :=
  if useDummy then dummySignatureCreator
  else transactionSignatureCreator crypto curve tx index amount sighash none

def signPSBTInput (psbt : PartiallySignedTransaction) (index : ℕ) (useDummy : Bool) :
    Option (Bool × PartiallySignedTransaction × SignatureData) :=
  signPSBTInputWith crypto curve provider (psbtCreator crypto curve sighash index useDummy) psbt
    index

end Sign

section Safety
variable {crypto : Crypto} {curve : Curve} {provider : SigningProvider} {sighash : UInt32}
  {psbt : PartiallySignedTransaction} {index : ℕ}

theorem signPSBTInputWith_congr {creatorOf creatorOf' : CTransaction → ℤ → SignatureCreator}
    (hc : ∀ tx amount, (creatorOf tx amount).checker = (creatorOf' tx amount).checker)
    (h : ∀ tx amount, SameAnswers provider (creatorOf tx amount) (creatorOf' tx amount)
      (signPSBTInputRequests crypto curve provider creatorOf psbt index)) :
    signPSBTInputWith crypto curve provider creatorOf psbt index =
      signPSBTInputWith crypto curve provider creatorOf' psbt index := by
  unfold signPSBTInputRequests at h
  unfold signPSBTInputWith
  cases hi : psbt.inputs[index]? with
  | none => simp only [bind_eq_bind, bind_none]
  | some input =>
    cases htx : psbt.tx with
    | none => simp only [bind_eq_bind, bind_some, bind_none]
    | some tx =>
      cases ht : tx.vin[index]? with
      | none => simp [ht]
      | some txin =>
        simp only [hi, htx, bind_some, ht] at h
        have hs : signInput crypto curve provider creatorOf tx input txin.prevout =
            signInput crypto curve provider creatorOf' tx input txin.prevout := by
          unfold signInput
          split
          next => rfl
          next ho =>
            rw [if_neg ho] at h
            split
            next => rfl
            next utxo _ hu =>
              simp only [hu] at h
              have hp : producedFor crypto curve provider creatorOf tx input utxo =
                  producedFor crypto curve provider creatorOf' tx input utxo :=
                produceSignature_congr (hc tx utxo.nValue) (h tx utxo.nValue)
              rw [hp]
        simp only [ht, bind_eq_bind, bind_some, hs]

variable (crypto)

/-- The answer is a signature by a key of the provider, over the hash of the version for the
amount. -/
def SignedOver (curve : Curve) (provider : SigningProvider) (sighash : UInt32) (tx : CTransaction)
    (index : ℕ) (amount : ℤ) (sigversion : SigVersion) (r : SigRequest) (sig : Valtype) : Prop :=
  ∃ key hash vchSig, provider.getKey r.keyid = some key ∧
    signatureHash crypto tx index sighash none r.scriptCode amount sigversion = some hash ∧
    curve.sign key hash = some vchSig ∧ sig = vchSig ++ [sighash.toUInt8]

/-- The hash for witnesses is over a string that holds the amount, between parts that do not depend
on it. -/
def CommitsToAmount (sighash : UInt32) (tx : CTransaction) (index : ℕ) (scriptCode : CScript) :
    Prop :=
  ∃ before behind, ∀ amount, signatureHash crypto tx index sighash none scriptCode amount
    .witnessV0 = some (crypto.hash256 (before ++ (writeInt 8 amount ++ behind)))

def PSBTInput.HoldsUtxo (input : PSBTInput) (prevout : COutPoint) (utxo : CTxOut) : Prop :=
  ∃ nonWitnessUtxo, input.nonWitnessUtxo = some nonWitnessUtxo ∧
    nonWitnessUtxo.hash = prevout.hash ∧ nonWitnessUtxo.vout[prevout.n]? = some utxo

theorem commitsToAmount (sighash : UInt32) {tx : CTransaction} {txin : CTxIn}
    (ht : tx.vin[index]? = some txin) (scriptCode : CScript) :
    CommitsToAmount crypto sighash tx index scriptCode := by
  refine ⟨writeInt 4 tx.nVersion ++ (hashPrevoutsV0 crypto tx sighash none ++
      (hashSequenceV0 crypto tx sighash none ++ (txin.prevout.serialize ++
        serializeVch scriptCode))), writeLE 4 txin.nSequence ++
      (hashOutputsV0 crypto tx index sighash none ++ (writeLE 4 tx.nLockTime ++
        writeLE 4 sighash.toNat)), fun amount => ?_⟩
  rw [signatureHash, ht]
  simp only [signatureHashV0, List.append_assoc]

variable {crypto}

theorem signedOver_of_createSig {tx : CTransaction} {amount : ℤ} {r : SigRequest} {sig : Valtype}
    (hs : (transactionSignatureCreator crypto curve tx index amount sighash none).createSig provider
      r.keyid r.scriptCode r.sigversion = some sig) :
    (r.sigversion ≠ .taproot) ∧
      SignedOver crypto curve provider sighash tx index amount r.sigversion r sig := by
  obtain ⟨key, hk, hs⟩ := bind_eq_some_iff.mp hs
  split at hs
  next => simp [createSchnorrSig] at hs
  next hv =>
    obtain ⟨-, -, hs⟩ := bind_eq_some_iff.mp hs
    obtain ⟨hash, hh, hs⟩ := bind_eq_some_iff.mp hs
    obtain ⟨v, hvs, hs⟩ := bind_eq_some_iff.mp hs
    exact ⟨fun h => hv (.inl h), key, hash, v, hk, hh, hvs, (Option.some.inj hs).symm⟩

theorem PSBTInput.holdsUtxo {input : PSBTInput} {prevout : COutPoint} {utxo : CTxOut}
    (h : input.utxo prevout = some (utxo, false)) : input.HoldsUtxo prevout utxo := by
  unfold PSBTInput.utxo at h
  split at h
  next nonWitnessUtxo hs =>
    split at h
    next => cases h
    next out ho =>
      split at h
      next => cases h
      next hh =>
        cases h
        exact ⟨nonWitnessUtxo, hs, not_not.mp hh, ho⟩
  next => split at h <;> cases h

/-- What is stored by `SignPSBTInput` depends on the creator by its answers to the requests alone.
If something is stored, each answer is a signature that commits to the amount of the output that is
spent, or one over the hash for scripts before segregated witness, for an output that was checked.
-/
theorem signPSBTInput_signatures (crypto : Crypto) (curve : Curve) (provider : SigningProvider)
    (sighash : UInt32) (psbt psbt' : PartiallySignedTransaction) (index : ℕ) (complete : Bool)
    (outSigdata : SignatureData)
    (h : signPSBTInput crypto curve provider sighash psbt index false =
      some (complete, psbt', outSigdata)) :
    (∀ creatorOf : CTransaction → ℤ → SignatureCreator,
      (∀ tx amount, (psbtCreator crypto curve sighash index false tx amount).checker =
        (creatorOf tx amount).checker) →
      (∀ tx amount, SameAnswers provider (psbtCreator crypto curve sighash index false tx amount)
        (creatorOf tx amount) (signPSBTInputRequests crypto curve provider
          (psbtCreator crypto curve sighash index false) psbt index)) →
      signPSBTInputWith crypto curve provider creatorOf psbt index =
        some (complete, psbt', outSigdata)) ∧
    (psbt' = psbt ∨ ∃ tx txin input utxo, psbt.tx = some tx ∧ tx.vin[index]? = some txin ∧
      psbt.inputs[index]? = some input ∧ (input.utxo txin.prevout).map Prod.fst = some utxo ∧
      ∀ r ∈ signPSBTInputRequests crypto curve provider
        (psbtCreator crypto curve sighash index false) psbt index, ∀ sig,
        (psbtCreator crypto curve sighash index false tx utxo.nValue).createSig provider r.keyid
          r.scriptCode r.sigversion = some sig →
        (SignedOver crypto curve provider sighash tx index utxo.nValue .witnessV0 r sig ∧
          CommitsToAmount crypto sighash tx index r.scriptCode) ∨
        (SignedOver crypto curve provider sighash tx index utxo.nValue .base r sig ∧
          input.HoldsUtxo txin.prevout utxo)) := by
  refine ⟨fun creatorOf hch hsa => ?_, ?_⟩
  · rw [← signPSBTInputWith_congr hch hsa]
    exact h
  · obtain ⟨input, hi, h⟩ := bind_eq_some_iff.mp h
    obtain ⟨tx, htx, h⟩ := bind_eq_some_iff.mp h
    obtain ⟨txin, ht, h⟩ := bind_eq_some_iff.mp h
    cases h
    have hu : { psbt with inputs := psbt.inputs.set index input } = psbt := by
      obtain ⟨hl, rfl⟩ := List.getElem?_eq_some_iff.mp hi
      rw [List.set_getElem_self]
    unfold signInput
    split
    next => exact .inl hu
    next ho =>
      cases hut : input.utxo txin.prevout with
      | none => exact .inl hu
      | some spent =>
        obtain ⟨utxo, rws⟩ := spent
        dsimp only
        split
        next => exact .inl hu
        next hst =>
          refine .inr ⟨tx, txin, input, utxo, htx, ht, hi, by rw [hut]; rfl,
            fun r hr sig hsi => ?_⟩
          obtain ⟨hv, hs⟩ := signedOver_of_createSig hsi
          simp only [signPSBTInputRequests, hi, htx, bind_some, ht, if_neg ho, hut] at hr
          have hc := commitsToAmount crypto sighash ht r.scriptCode
          cases rws with
          | true =>
            have hw : (producedFor crypto curve provider
                (psbtCreator crypto curve sighash index false) tx input utxo).witness = true := by
              simpa using hst
            have hV0 := (sigversion_of_witness rfl hw hr).resolve_right hv
            exact .inl ⟨hV0 ▸ hs, hc⟩
          | false =>
            rcases sigversion_of_mem_requests hr with hb | hV0 | hta
            · exact .inr ⟨hb ▸ hs, PSBTInput.holdsUtxo hut⟩
            · exact .inl ⟨hV0 ▸ hs, hc⟩
            · exact absurd hta hv

def openCrypto : Crypto where
  ripemd160 vch := vch.take 20
  sha1 := id
  sha256 := id
  checkLowS _ := true
  xonlyPubkeyParse _ := true
  xonlyPubkeyTweakAddCheck _ _ _ _ := true

def openCurve : Curve where
  getPubKey key := .ofVch (2 :: key.keydata)
  isFullyValid pubkey := pubkey.isValid
  getXOnlyPubKey pubkey := pubkey.vch.drop 1
  createPayToTaprootPubKey := id
  sign _ _ := some (dummyEcdsaSig 32 32).dropLast
  signSchnorr _ _ := none
  signSchnorrTaproot _ _ := none
  verify _ _ _ := true
  verifySchnorr _ _ _ := true

def oneKeyProvider : SigningProvider :=
  { dummySigningProvider with
    getPubKey := fun address =>
      if address = List.replicate 20 2 then some (.ofVch (List.replicate 33 2)) else none
    getKey := fun address =>
      if address = List.replicate 20 2 then some ⟨List.replicate 32 2, true⟩ else none }

def witnessOnlyPsbt : PartiallySignedTransaction where
  tx := some ⟨[⟨⟨5, 0⟩, [], 0, []⟩], [⟨90, []⟩], 2, 0, 7⟩
  inputs := [{ witnessUtxo := ⟨100, 0 :: 20 :: List.replicate 20 2⟩ }]
  outputs := [{}]

theorem signPSBTInput_witnessOnly : ∃ complete psbt' outSigdata,
    signPSBTInput openCrypto openCurve oneKeyProvider 1 witnessOnlyPsbt 0 false =
      some (complete, psbt', outSigdata) ∧
    psbt'.inputs.map (·.finalScriptWitness) = [[dummyEcdsaSig 32 32, List.replicate 33 2]] ∧
    ∃ tx r, SignedOver openCrypto openCurve oneKeyProvider 1 tx 0 100 .witnessV0 r
      (dummyEcdsaSig 32 32) := by
  have hst : (signPSBTInput openCrypto openCurve oneKeyProvider 1 witnessOnlyPsbt 0 false).map
      (fun result : Bool × PartiallySignedTransaction × SignatureData =>
        result.2.1.inputs.map (·.finalScriptWitness)) =
      some [[dummyEcdsaSig 32 32, List.replicate 33 2]] := by decide +kernel
  obtain ⟨⟨complete, psbt', outSigdata⟩, hs, hf⟩ := map_eq_some_iff.mp hst
  refine ⟨complete, psbt', outSigdata, hs, hf, ?_⟩
  obtain ⟨-, rfl | ⟨tx, txin, input, utxo, htx, ht, hi, hu, ha⟩⟩ :=
    signPSBTInput_signatures openCrypto openCurve oneKeyProvider 1 witnessOnlyPsbt psbt' 0 complete
      outSigdata hs
  · cases hf
  · cases htx
    cases ht
    cases hi
    cases hu
    have hr := List.head_mem (l := signPSBTInputRequests openCrypto openCurve oneKeyProvider
      (psbtCreator openCrypto openCurve 1 0 false) witnessOnlyPsbt 0) (by decide +kernel)
    rcases ha _ hr (dummyEcdsaSig 32 32) (by decide +kernel) with
      ⟨hsigned, -⟩ | ⟨-, _, hnone, -⟩
    · exact ⟨_, _, hsigned⟩
    · cases hnone

end Safety

end Palladium
