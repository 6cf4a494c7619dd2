import Palladium.Psbt.RoundTrip
import Palladium.Psbt.SignInput

/-! # What is accepted

What is read from any bytes has sizes that can be read.
-/

namespace Palladium
open List PartiallySignedTransaction StateT Std
section Accepted
variable (crypto : Crypto) (curve : Curve)

/-- What holds of the record of an input that was read. -/
structure PSBTInput.Accepted (input : PSBTInput) : Prop where
  nonWitnessUtxo : ∀ tx, input.nonWitnessUtxo = some tx → (tx.Bounded crypto.hash256 ∧
    tx.Readable true) ∧ (tx.serialize true).length ≤ maxSize
  witnessUtxo : input.witnessUtxo.Bounded ∧ input.witnessUtxo.serialize.length ≤ maxSize
  sighashType : input.sighashType < 2 ^ 31
  redeemScript : input.redeemScript.length ≤ maxSize
  witnessScript : input.witnessScript.length ≤ maxSize
  finalScriptSig : input.finalScriptSig.length ≤ maxSize
  finalScriptWitness : (input.finalScriptWitness.length ≤ maxSize ∧
    ∀ vch ∈ input.finalScriptWitness, vch.length ≤ maxSize) ∧
      (writeVector serializeVch input.finalScriptWitness).length ≤ maxSize
  hdKeypaths : HDKeypathsBounded curve input.hdKeypaths
  partialSigs : ∀ (keyid : Valtype) (sigPair : CPubKey × Valtype),
    input.partialSigs[keyid]? = some sigPair →
    keyid = sigPair.1.getID crypto ∧ sigPair.1.isFullyValid curve = true ∧
      sigPair.2.length ≤ maxSize
  unknown : UnknownBounded (fun type => (PSBTInputType.ofByte type).isSome) input.unknown

end Accepted

section Read
variable {crypto : Crypto} {curve : Curve} {key : Valtype} {s t : List UInt8}

theorem isFullyValid_of_pubKeyOfKey {pubkey : CPubKey} {size : String}
    (h : pubKeyOfKey curve key size = .ok pubkey) : pubkey.isFullyValid curve := by
  unfold pubKeyOfKey at h
  split at h
  · cases h
  · dsimp only at h
    split at h
    · cases h
    next hv =>
      cases h
      simpa using hv

theorem hdKeypathsBounded_of_ends {m m' : ExtTreeMap CPubKey KeyOriginInfo}
    (hm : HDKeypathsBounded curve m) (h : (deserializeHDKeypaths curve key m).Ends s m' t) :
    HDKeypathsBounded curve m' := by
  obtain ⟨pubkey, u, hp, h⟩ := ends_bind.mp h
  obtain ⟨-, h⟩ := ends_unless.mp h
  obtain ⟨info, hi, rfl⟩ := ends_bind_pure.mp h
  intro pubkey' info' hg
  rcases eq_or_getElem?_of_insertIfNew hg with ⟨rfl, rfl⟩ | hold
  · exact ⟨isFullyValid_of_pubKeyOfKey (ends_lift.mp hp).1,
      ((decodes_readKeyOriginInfo _ _ _).mp hi).1⟩
  · exact hm pubkey' info' hold

theorem unknownBounded_of_ends {isKnown : UInt8 → Bool} {m m' : ExtTreeMap Valtype Valtype}
    (hm : UnknownBounded isKnown m) (hk : key ≠ []) (hkn : isKnown (key.headD 0) = false)
    (hl : key.length ≤ maxSize) (h : (readUnknown key m).Ends s m' t) :
    UnknownBounded isKnown m' := by
  obtain ⟨-, h⟩ := ends_unless.mp h
  obtain ⟨value, hv, rfl⟩ := ends_bind_pure.mp h
  intro key' value' hg
  rcases eq_or_getElem?_of_insertIfNew hg with ⟨rfl, rfl⟩ | hold
  · exact ⟨hk, hkn, hl, ((decodes_readVch _ _ _).mp hv).1⟩
  · exact hm key' value' hold

variable {keyLookup : KeyLookup} {ρ : Type} {input : PSBTInput} {output : PSBTOutput}
  {global : PSBTGlobal}

theorem ends_emplace {α : Type} {read : Reader α} {P : α → Prop} {w : α → List UInt8} {f : α → ρ}
    {duplicate long : String} {r : ρ × KeyLookup} (hr : read.Decodes P w) (h : Ends (do
      let keyLookup ← keyLookup.emplace key duplicate long
      let a ← read
      return (f a, keyLookup) : Reader (ρ × KeyLookup)) s r t) {Q : ρ → Prop}
    (hf : ∀ a, P a → Q (f a)) : Q r.1 := by
  obtain ⟨_, _, -, h⟩ := ends_bind.mp h
  obtain ⟨a, ha, rfl⟩ := ends_bind_pure.mp h
  exact hf a ((hr _ _ _).mp ha).1

theorem PSBTInput.Accepted.readEntry {r : PSBTInput × KeyLookup} (h : input.Accepted crypto curve)
    (hk : key ≠ []) (hl : key.length ≤ maxSize)
    (he : (PSBTInput.readEntry crypto curve (input, keyLookup) key).Ends s r t) :
    r.1.Accepted crypto curve := by
  unfold PSBTInput.readEntry at he
  dsimp only at he
  cases ht : PSBTInputType.ofByte (key.headD 0) with
  | none =>
    simp only [ht] at he
    obtain ⟨m, hm, rfl⟩ := ends_bind_pure.mp he
    exact { h with
      unknown := unknownBounded_of_ends h.unknown hk (by rw [ht]; rfl) hl hm }
  | some type =>
    simp only [ht] at he
    cases type with
    | nonWitnessUtxo =>
      refine ends_emplace (decodes_unserializeFromVector
        (decodes_readTransaction crypto.hash256 true)) he fun tx htx =>
          { h with nonWitnessUtxo := fun tx' htx' => ?_ }
      cases htx'
      exact htx
    | witnessUtxo =>
      exact ends_emplace (decodes_unserializeFromVector decodes_readTxOut) he
        fun _ hu => { h with witnessUtxo := hu }
    | partialSig =>
      obtain ⟨p, u, hp, he⟩ := ends_bind.mp he
      obtain ⟨-, he⟩ := ends_unless.mp he
      obtain ⟨sig, hsi, rfl⟩ := ends_bind_pure.mp he
      refine { h with partialSigs := fun keyid sigPair hg => ?_ }
      rcases eq_or_getElem?_of_insertIfNew hg with ⟨rfl, rfl⟩ | hold
      · exact ⟨rfl, isFullyValid_of_pubKeyOfKey (ends_lift.mp hp).1,
          ((decodes_readVch _ _ _).mp hsi).1⟩
      · exact h.partialSigs keyid sigPair hold
    | sighash =>
      exact ends_emplace (decodes_unserializeFromVector
        (decodes_readInt 4 (N := 2 ^ 31) (by norm_num))) he
          fun _ hn => { h with sighashType := by exact_mod_cast hn.1.2 }
    | redeemScript =>
      exact ends_emplace decodes_readVch he fun _ hs => { h with redeemScript := hs }
    | witnessScript =>
      exact ends_emplace decodes_readVch he fun _ hs => { h with witnessScript := hs }
    | bip32Derivation =>
      obtain ⟨m, hm, rfl⟩ := ends_bind_pure.mp he
      exact { h with hdKeypaths := hdKeypathsBounded_of_ends h.hdKeypaths hm }
    | scriptSig =>
      exact ends_emplace decodes_readVch he fun _ hs => { h with finalScriptSig := hs }
    | scriptWitness =>
      exact ends_emplace (decodes_unserializeFromVector (decodes_readVector decodes_readVch)) he
        fun _ hst => { h with finalScriptWitness := hst }

theorem PSBTOutput.Canonical.readEntry {r : PSBTOutput × KeyLookup} (h : output.Canonical curve)
    (hk : key ≠ []) (hl : key.length ≤ maxSize)
    (he : (PSBTOutput.readEntry curve (output, keyLookup) key).Ends s r t) :
    r.1.Canonical curve := by
  unfold PSBTOutput.readEntry at he
  dsimp only at he
  cases ht : PSBTOutputType.ofByte (key.headD 0) with
  | none =>
    simp only [ht] at he
    obtain ⟨m, hm, rfl⟩ := ends_bind_pure.mp he
    exact { h with
      unknown := unknownBounded_of_ends h.unknown hk (by rw [ht]; rfl) hl hm }
  | some type =>
    simp only [ht] at he
    cases type with
    | redeemScript =>
      exact ends_emplace decodes_readVch he fun _ hs => { h with redeemScript := hs }
    | witnessScript =>
      exact ends_emplace decodes_readVch he fun _ hs => { h with witnessScript := hs }
    | bip32Derivation =>
      obtain ⟨m, hm, rfl⟩ := ends_bind_pure.mp he
      exact { h with hdKeypaths := hdKeypathsBounded_of_ends h.hdKeypaths hm }

/-- What holds of the first map that was read. -/
structure PSBTGlobal.Accepted (crypto : Crypto) (global : PSBTGlobal) : Prop where
  tx : ∀ tx, global.tx = some tx → tx.Bounded crypto.hash256 ∧ tx.isUnsigned = true ∧
    (tx.serialize false).length ≤ maxSize
  unknown : UnknownBounded (fun type => type = psbtGlobalUnsignedTx) global.unknown

theorem PSBTGlobal.Accepted.readEntry {r : PSBTGlobal × KeyLookup} (h : global.Accepted crypto)
    (hk : key ≠ []) (hl : key.length ≤ maxSize)
    (he : (PSBTGlobal.readEntry crypto (global, keyLookup) key).Ends s r t) :
    r.1.Accepted crypto := by
  unfold PSBTGlobal.readEntry at he
  dsimp only at he
  split at he
  next =>
    obtain ⟨_, _, -, he⟩ := ends_bind.mp he
    obtain ⟨tx, u, ht, he⟩ := ends_bind.mp he
    obtain ⟨hu, he⟩ := ends_unless.mp he
    obtain ⟨rfl, -⟩ := ends_pure.mp he
    obtain ⟨⟨⟨hb, -⟩, hl⟩, -⟩ := (decodes_unserializeFromVector
      (decodes_readTransaction crypto.hash256 false) _ _ _).mp ht
    refine { h with tx := fun tx' ht' => ?_ }
    cases ht'
    exact ⟨hb, by simpa using hu, hl⟩
  next ho =>
    obtain ⟨m, hm, rfl⟩ := ends_bind_pure.mp he
    exact { h with
      unknown := unknownBounded_of_ends h.unknown hk (by simpa using ho) hl hm }

theorem accepted_of_unserialize {P : ρ → Prop}
    {step : ρ × KeyLookup → Valtype → Reader (ρ × KeyLookup)} {missing : String} {r r' : ρ}
    (hr : P r) (hs : ∀ {r keyLookup key s t r'}, P r → key ≠ [] → key.length ≤ maxSize →
      (step (r, keyLookup) key).Ends s r' t → P r'.1) (h : Ends (do
      let (r, _) ← readAllEntries readVch step missing (r, [])
      return r : Reader ρ) s r' t) : P r' := by
  obtain ⟨⟨r'', keyLookup⟩, u, hre, h⟩ := ends_bind.mp h
  obtain ⟨rfl, -⟩ := ends_pure.mp h
  exact readAllEntries_induction (P := fun state => P state.1) hre hr
    fun state key s t u state' hP hk hn he =>
      hs hP hn ((decodes_readVch _ _ _).mp hk).1 he

theorem PSBTInput.accepted_default : ({} : PSBTInput).Accepted crypto curve where
  nonWitnessUtxo := by simp
  witnessUtxo := by
    refine ⟨⟨by decide, Nat.zero_le _⟩, ?_⟩
    decide
  sighashType := by norm_num
  redeemScript := by simp
  witnessScript := by simp
  finalScriptSig := by simp
  finalScriptWitness := ⟨by simp, by decide⟩
  hdKeypaths := by simp [HDKeypathsBounded]
  partialSigs := by simp
  unknown := by simp [UnknownBounded]

theorem PSBTOutput.canonical_default : ({} : PSBTOutput).Canonical curve :=
  ⟨by simp, by simp, by simp [HDKeypathsBounded], by simp [UnknownBounded]⟩

theorem PSBTInput.accepted_of_unserialize {input : PSBTInput}
    (h : (PSBTInput.unserialize crypto curve).Ends s input t) : input.Accepted crypto curve :=
  Palladium.accepted_of_unserialize PSBTInput.accepted_default
    (fun hr hk hl he => hr.readEntry hk hl he) h

theorem PSBTOutput.canonical_of_unserialize (h : (PSBTOutput.unserialize curve).Ends s output t) :
    output.Canonical curve :=
  accepted_of_unserialize PSBTOutput.canonical_default
    (fun hr hk hl he => hr.readEntry hk hl he) h

theorem PSBTGlobal.accepted_of_unserialize (h : (PSBTGlobal.unserialize crypto).Ends s global t) :
    global.Accepted crypto :=
  Palladium.accepted_of_unserialize (P := fun global : PSBTGlobal => global.Accepted crypto)
    ⟨by simp, by simp [UnknownBounded]⟩
    (fun hr hk hl he => hr.readEntry hk hl he) h

theorem accepted_of_readPSBTInputs {vin : List CTxIn} {inputs : List PSBTInput}
    (h : (readPSBTInputs crypto curve vin).Ends s inputs t) (hl : inputs.length = vin.length) :
    List.Forall₂ (fun txin input => input.Accepted crypto curve ∧
      ∀ tx, input.nonWitnessUtxo = some tx → tx.hash = txin.prevout.hash) vin inputs := by
  induction vin generalizing inputs s with
  | nil =>
    obtain rfl := length_eq_zero_iff.mp hl
    exact .nil
  | cons txin vin ih =>
    obtain ⟨_, u, -, h⟩ := ends_bind.mp h
    rw [ends_ite] at h
    split at h
    · obtain ⟨rfl, -⟩ := ends_pure.mp h
      cases hl
    · obtain ⟨input, v, hi, h⟩ := ends_bind.mp h
      obtain ⟨hm, h⟩ := ends_unless.mp h
      obtain ⟨inputs', hin, rfl⟩ := ends_bind_pure.mp h
      refine .cons ⟨PSBTInput.accepted_of_unserialize hi, fun tx ht => ?_⟩
        (ih hin (Nat.succ.inj hl))
      simpa [ht] using hm

theorem canonical_of_readPSBTOutputs {vout : List CTxOut} {outputs : List PSBTOutput}
    (h : (readPSBTOutputs curve vout).Ends s outputs t) :
    ∀ output ∈ outputs, output.Canonical curve := by
  induction vout generalizing outputs s with
  | nil =>
    obtain ⟨rfl, -⟩ := ends_pure.mp h
    simp
  | cons txout vout ih =>
    obtain ⟨_, u, -, h⟩ := ends_bind.mp h
    rw [ends_ite] at h
    split at h
    · obtain ⟨rfl, -⟩ := ends_pure.mp h
      simp
    · obtain ⟨output, v, ho, h⟩ := ends_bind.mp h
      obtain ⟨outputs', hou, rfl⟩ := ends_bind_pure.mp h
      exact forall_mem_cons.mpr ⟨PSBTOutput.canonical_of_unserialize ho, ih hou⟩

end Read

def PSBTInput.normalized (input : PSBTInput) : PSBTInput where
  nonWitnessUtxo := input.nonWitnessUtxo.map CTransaction.withoutWitness
  witnessUtxo := if input.witnessUtxo.isNull then .null else input.witnessUtxo
  redeemScript := if input.signed then [] else input.redeemScript
  witnessScript := if input.signed then [] else input.witnessScript
  finalScriptSig := input.finalScriptSig
  finalScriptWitness := input.finalScriptWitness
  hdKeypaths := if input.signed then ∅ else input.hdKeypaths
  partialSigs := if input.signed then ∅ else input.partialSigs
  unknown := input.unknown
  sighashType := if input.signed then 0 else max 0 input.sighashType

def PartiallySignedTransaction.normalized (psbt : PartiallySignedTransaction) :
    PartiallySignedTransaction :=
  { psbt with inputs := psbt.inputs.map PSBTInput.normalized }

section Normalized
variable {crypto : Crypto} {curve : Curve}

theorem PSBTInput.signed_normalized (input : PSBTInput) :
    input.normalized.signed = input.signed := rfl

theorem writeField_max_zero (type : UInt8) (n : ℤ) :
    writeField (0 < max 0 n) type (writeInt 4 (max 0 n)) = writeField (0 < n) type (writeInt 4 n) := by
  rcases le_or_gt n 0 with hu | hs
  · have hn : decide (0 < n) = false := decide_eq_false (by omega)
    rw [max_eq_left hu, hn]
    rfl
  · rw [max_eq_right hs.le]

theorem PSBTInput.serialize_normalized (input : PSBTInput) :
    input.normalized.serialize = input.serialize := by
  have hp : input.normalized.serializePartial = input.serializePartial := by
    unfold serializePartial
    rw [signed_normalized]
    split
    next => rfl
    next ho =>
      simp only [normalized, if_neg ho, writeField_max_zero]
  have hu : (input.normalized.nonWitnessUtxo.map fun tx =>
      writeEntry [PSBTInputType.nonWitnessUtxo.byte] (tx.serialize false)) =
      input.nonWitnessUtxo.map fun tx =>
        writeEntry [PSBTInputType.nonWitnessUtxo.byte] (tx.serialize false) := by
    simp [normalized, Function.comp_def]
  have hw : writeField (!input.normalized.witnessUtxo.isNull) PSBTInputType.witnessUtxo.byte
      input.normalized.witnessUtxo.serialize = writeField (!input.witnessUtxo.isNull)
        PSBTInputType.witnessUtxo.byte input.witnessUtxo.serialize := by
    simp only [normalized]
    split
    next hn =>
      rw [hn, show CTxOut.null.isNull = true from rfl]
      simp only [writeField, Bool.not_true, Bool.false_eq_true, if_false]
    next => rfl
  simp only [serialize, hp, hu, hw]
  simp only [normalized]

theorem length_serialize_false_le (tx : CTransaction) :
    (tx.serialize false).length ≤ (tx.serialize true).length := by
  simp only [CTransaction.serialize, Bool.false_and, length_append, Bool.false_eq_true,
    if_false, length_nil]
  omega

variable {tx : CTransaction}

theorem CTransaction.Readable.withoutWitness (h : tx.Readable true) :
    tx.withoutWitness.Readable true := by
  simp only [Readable, if_true, CTransaction.withoutWitness, map_eq_nil_iff] at h ⊢
  exact h

theorem PSBTInput.Accepted.canonical_normalized {input : PSBTInput}
    (h : input.Accepted crypto curve) : input.normalized.Canonical crypto curve where
  nonWitnessUtxo tx ht := by
    obtain ⟨tx, hs, rfl⟩ := Option.map_eq_some_iff.mp ht
    obtain ⟨⟨hb, hr⟩, hl⟩ := h.nonWitnessUtxo tx hs
    refine ⟨hb.withoutWitness, hr.withoutWitness, ?_, ?_⟩
    · simp [CTransaction.hasWitness, CTransaction.withoutWitness, CTxIn.withoutWitness]
    · rw [CTransaction.serialize_withoutWitness]
      exact (length_serialize_false_le tx).trans hl
  witnessUtxo_null := iteInduction (motive := fun o : CTxOut => o.isNull = true → o = .null)
    (fun _ _ => rfl) fun hse hn => absurd hn hse
  witnessUtxo := iteInduction
    (motive := fun o : CTxOut => o.Bounded ∧ o.serialize.length ≤ maxSize)
    (fun _ => (accepted_default : ({} : PSBTInput).Accepted crypto curve).witnessUtxo)
    fun _ => h.witnessUtxo
  sighashType := by
    have := h.sighashType
    simp only [normalized]
    split <;> omega
  redeemScript := iteInduction (motive := fun s : CScript => s.length ≤ maxSize)
    (fun _ => Nat.zero_le _) fun _ => h.redeemScript
  witnessScript := iteInduction (motive := fun s : CScript => s.length ≤ maxSize)
    (fun _ => Nat.zero_le _) fun _ => h.witnessScript
  finalScriptSig := h.finalScriptSig
  finalScriptWitness := h.finalScriptWitness
  hdKeypaths := iteInduction (motive := HDKeypathsBounded curve)
    (fun _ => by simp [HDKeypathsBounded]) fun _ => h.hdKeypaths
  partialSigs := by
    simp only [normalized]
    split
    · simp
    · exact h.partialSigs
  unknown := h.unknown
  signed hsigned := by
    rw [signed_normalized] at hsigned
    simp [normalized, hsigned]

theorem PartiallySignedTransaction.serialize_normalized (psbt : PartiallySignedTransaction) :
    psbt.normalized.serialize = psbt.serialize := by
  have hi : (psbt.inputs.map PSBTInput.normalized).mapM PSBTInput.serialize =
      psbt.inputs.mapM PSBTInput.serialize := by
    induction psbt.inputs with
    | nil => rfl
    | cons input inputs ih =>
      rw [map_cons, mapM_cons, mapM_cons, ih, PSBTInput.serialize_normalized]
  unfold serialize
  rw [normalized, hi]

theorem PartiallySignedTransaction.canonical_of_unserialize {psbt : PartiallySignedTransaction}
    {s t : List UInt8} (h : (unserialize crypto curve).Ends s psbt t) :
    ∃ tx, psbt.normalized.Canonical crypto curve tx := by
  obtain ⟨magic, _, -, h⟩ := ends_bind.mp h
  obtain ⟨-, h⟩ := ends_unless.mp h
  obtain ⟨global, _, hg, h⟩ := ends_bind.mp h
  have ha := PSBTGlobal.accepted_of_unserialize hg
  split at h
  · exact (ends_throw h).elim
  next tx ht =>
    obtain ⟨inputs, _, hi, h⟩ := ends_bind.mp h
    obtain ⟨hl, h⟩ := ends_unless.mp h
    obtain ⟨outputs, _, ho, h⟩ := ends_bind.mp h
    obtain ⟨hl', h⟩ := ends_unless.mp h
    obtain ⟨rfl, -⟩ := ends_pure.mp h
    obtain ⟨hb, hu, hs⟩ := ha.tx tx ht
    refine ⟨tx, rfl, hb, hu, hs, ?_, not_not.mp hl', canonical_of_readPSBTOutputs ho, ha.unknown⟩
    refine forall₂_map_right_iff.mpr
      ((accepted_of_readPSBTInputs hi (not_not.mp hl)).imp ?_)
    rintro txin input ⟨hit, hm⟩
    refine ⟨hit.canonical_normalized, fun prev hp => ?_⟩
    obtain ⟨prev, hso, rfl⟩ := Option.map_eq_some_iff.mp hp
    exact hm prev hso

end Normalized

section RoundTrip
variable (crypto : Crypto) (curve : Curve)

/-- The record of an input makes sense: nothing is said about sizes. -/
structure PSBTInput.WellFormed (txin : CTxIn) (input : PSBTInput) : Prop where
  nonWitnessUtxo : ∀ tx, input.nonWitnessUtxo = some tx → tx.hasWitness = false ∧ tx.vin ≠ [] ∧
    tx.hash = txin.prevout.hash
  partialSigs : ∀ (keyid : Valtype) (sigPair : CPubKey × Valtype),
    input.partialSigs[keyid]? = some sigPair →
    keyid = sigPair.1.getID crypto ∧ sigPair.1.isFullyValid curve = true
  sighashType : 0 ≤ input.sighashType
  hdKeypaths : ∀ pubkey ∈ input.hdKeypaths, pubkey.isFullyValid curve = true
  unknown : ∀ key ∈ input.unknown, key ≠ [] ∧ PSBTInputType.ofByte (key.headD 0) = none
  signed : input.signed = true → input.partialSigs = ∅ ∧ input.sighashType = 0 ∧
    input.redeemScript = [] ∧ input.witnessScript = [] ∧ input.hdKeypaths = ∅

structure PSBTOutput.WellFormed (output : PSBTOutput) : Prop where
  hdKeypaths : ∀ pubkey ∈ output.hdKeypaths, pubkey.isFullyValid curve = true
  unknown : ∀ key ∈ output.unknown, key ≠ [] ∧ PSBTOutputType.ofByte (key.headD 0) = none

structure PartiallySignedTransaction.WellFormed (psbt : PartiallySignedTransaction)
    (tx : CTransaction) : Prop where
  tx_eq : psbt.tx = some tx
  isUnsigned : tx.isUnsigned = true
  inputs : List.Forall₂ (PSBTInput.WellFormed crypto curve) tx.vin psbt.inputs
  outputs_length : psbt.outputs.length = tx.vout.length
  outputs : ∀ output ∈ psbt.outputs, output.WellFormed curve
  unknown : ∀ key ∈ psbt.unknown, key ≠ [] ∧ key.headD 0 ≠ psbtGlobalUnsignedTx

def SizesReadable (m : ExtTreeMap Valtype Valtype) : Prop :=
  ∀ key value : Valtype, m[key]? = some value → key.length ≤ maxSize ∧ value.length ≤ maxSize

def PathsReadable (m : ExtTreeMap CPubKey KeyOriginInfo) : Prop :=
  ∀ (pubkey : CPubKey) (info : KeyOriginInfo), m[pubkey]? = some info → info.Bounded

/-- The numbers fit their types, the sizes can be read, and the output that stands for none has no
script. -/
structure PSBTInput.Encodable (input : PSBTInput) : Prop where
  nonWitnessUtxo : ∀ tx, input.nonWitnessUtxo = some tx → tx.Bounded crypto.hash256 ∧
    (tx.serialize false).length ≤ maxSize
  witnessUtxo_null : input.witnessUtxo.isNull = true → input.witnessUtxo.scriptPubKey = []
  witnessUtxo : input.witnessUtxo.Bounded ∧ input.witnessUtxo.serialize.length ≤ maxSize
  partialSigs : ∀ (keyid : Valtype) (sigPair : CPubKey × Valtype),
    input.partialSigs[keyid]? = some sigPair → sigPair.2.length ≤ maxSize
  sighashType : input.sighashType < 2 ^ 31
  redeemScript : input.redeemScript.length ≤ maxSize
  witnessScript : input.witnessScript.length ≤ maxSize
  hdKeypaths : PathsReadable input.hdKeypaths
  finalScriptSig : input.finalScriptSig.length ≤ maxSize
  finalScriptWitness : (input.finalScriptWitness.length ≤ maxSize ∧
    ∀ vch ∈ input.finalScriptWitness, vch.length ≤ maxSize) ∧
      (writeVector serializeVch input.finalScriptWitness).length ≤ maxSize
  unknown : SizesReadable input.unknown

structure PSBTOutput.Encodable (output : PSBTOutput) : Prop where
  redeemScript : output.redeemScript.length ≤ maxSize
  witnessScript : output.witnessScript.length ≤ maxSize
  hdKeypaths : PathsReadable output.hdKeypaths
  unknown : SizesReadable output.unknown

structure PartiallySignedTransaction.Encodable (psbt : PartiallySignedTransaction)
    (tx : CTransaction) : Prop where
  bounded : tx.Bounded crypto.hash256
  length_le : (tx.serialize false).length ≤ maxSize
  inputs : ∀ input ∈ psbt.inputs, input.Encodable crypto
  outputs : ∀ output ∈ psbt.outputs, output.Encodable
  unknown : SizesReadable psbt.unknown

variable {crypto curve}

theorem hdKeypathsBounded_of_pathsReadable {m : ExtTreeMap CPubKey KeyOriginInfo}
    (hv : ∀ pubkey : CPubKey, pubkey ∈ m → pubkey.isFullyValid curve)
    (hs : PathsReadable m) : HDKeypathsBounded curve m :=
  fun pubkey info hg => ⟨hv pubkey (ExtTreeMap.mem_iff_isSome_getElem?.mpr (by simp [hg])),
    hs pubkey info hg⟩

variable {isKnown : UInt8 → Bool} {m : ExtTreeMap Valtype Valtype} {input : PSBTInput}
  {psbt : PartiallySignedTransaction} {tx : CTransaction}

theorem unknownBounded_of_sizesReadable
    (hu : ∀ key ∈ m, key ≠ [] ∧ isKnown (key.headD 0) = false) (hs : SizesReadable m) :
    UnknownBounded isKnown m := by
  intro key value hg
  have hk := hu key (ExtTreeMap.mem_iff_isSome_getElem?.mpr (by simp [hg]))
  exact ⟨hk.1, hk.2, hs key value hg⟩

theorem CTxOut.eq_null {txout : CTxOut} (hn : txout.isNull)
    (hs : txout.scriptPubKey = []) : txout = .null := by
  obtain ⟨nValue, scriptPubKey⟩ := txout
  simp only [isNull, decide_eq_true_eq] at hn
  simp only at hs
  rw [hn, hs, CTxOut.null]

theorem PSBTInput.WellFormed.canonical {txin : CTxIn} (h : input.WellFormed crypto curve txin)
    (hs : input.Encodable crypto) :
    input.Canonical crypto curve where
  nonWitnessUtxo tx ht :=
    have hu := h.nonWitnessUtxo tx ht
    ⟨(hs.nonWitnessUtxo tx ht).1, fun hn => absurd hn hu.2.1, hu.1, (hs.nonWitnessUtxo tx ht).2⟩
  witnessUtxo_null hnull := CTxOut.eq_null hnull (hs.witnessUtxo_null hnull)
  witnessUtxo := hs.witnessUtxo
  sighashType := ⟨h.sighashType, hs.sighashType⟩
  redeemScript := hs.redeemScript
  witnessScript := hs.witnessScript
  finalScriptSig := hs.finalScriptSig
  finalScriptWitness := hs.finalScriptWitness
  hdKeypaths := hdKeypathsBounded_of_pathsReadable h.hdKeypaths hs.hdKeypaths
  partialSigs keyid sigPair hget :=
    ⟨(h.partialSigs keyid sigPair hget).1, (h.partialSigs keyid sigPair hget).2,
      hs.partialSigs keyid sigPair hget⟩
  unknown := unknownBounded_of_sizesReadable
    (fun key hk => ⟨(h.unknown key hk).1, by rw [(h.unknown key hk).2]; rfl⟩) hs.unknown
  signed := h.signed

theorem PSBTOutput.WellFormed.canonical {output : PSBTOutput} (h : output.WellFormed curve)
    (hs : output.Encodable) : output.Canonical curve where
  redeemScript := hs.redeemScript
  witnessScript := hs.witnessScript
  hdKeypaths := hdKeypathsBounded_of_pathsReadable h.hdKeypaths hs.hdKeypaths
  unknown := unknownBounded_of_sizesReadable
    (fun key hk => ⟨(h.unknown key hk).1, by rw [(h.unknown key hk).2]; rfl⟩) hs.unknown

theorem PartiallySignedTransaction.WellFormed.canonical (h : psbt.WellFormed crypto curve tx)
    (hs : psbt.Encodable crypto tx) :
    psbt.Canonical crypto curve tx where
  tx_eq := h.tx_eq
  bounded := hs.bounded
  isUnsigned := h.isUnsigned
  length_le := hs.length_le
  inputs := by
    refine forall₂_iff_zip.mpr ⟨h.inputs.length_eq, fun {txin input} hm => ?_⟩
    have hi := forall₂_zip h.inputs hm
    exact ⟨hi.canonical (hs.inputs input (of_mem_zip hm).2),
      fun prev hp => (hi.nonWitnessUtxo prev hp).2.2⟩
  outputs_length := h.outputs_length
  outputs output houtput := (h.outputs output houtput).canonical (hs.outputs output houtput)
  unknown := unknownBounded_of_sizesReadable
    (fun key hk => ⟨(h.unknown key hk).1, by simpa using (h.unknown key hk).2⟩) hs.unknown

theorem HDKeypathsBounded.pathsReadable {m : ExtTreeMap CPubKey KeyOriginInfo}
    (h : HDKeypathsBounded curve m) : PathsReadable m :=
  fun pubkey info hg => (h pubkey info hg).2

theorem UnknownBounded.sizesReadable (h : UnknownBounded isKnown m) : SizesReadable m :=
  fun key value hg => (h key value hg).2.2

theorem PSBTInput.Canonical.encodable (h : input.Canonical crypto curve) :
    input.Encodable crypto where
  nonWitnessUtxo tx htx := ⟨(h.nonWitnessUtxo tx htx).1, (h.nonWitnessUtxo tx htx).2.2.2⟩
  witnessUtxo_null hnull := by rw [h.witnessUtxo_null hnull, CTxOut.null]
  witnessUtxo := h.witnessUtxo
  partialSigs keyid sigPair hget := (h.partialSigs keyid sigPair hget).2.2
  sighashType := h.sighashType.2
  redeemScript := h.redeemScript
  witnessScript := h.witnessScript
  hdKeypaths := h.hdKeypaths.pathsReadable
  finalScriptSig := h.finalScriptSig
  finalScriptWitness := h.finalScriptWitness
  unknown := h.unknown.sizesReadable

theorem PartiallySignedTransaction.Canonical.encodable (h : psbt.Canonical crypto curve tx) :
    psbt.Encodable crypto tx where
  bounded := h.bounded
  length_le := h.length_le
  inputs input hin := by
    obtain ⟨i, hi, rfl⟩ := mem_iff_getElem.mp hin
    exact (h.inputs.get (h.inputs.length_eq ▸ hi) hi).1.encodable
  outputs output houtput :=
    have hc := h.outputs output houtput
    ⟨hc.redeemScript, hc.witnessScript, hc.hdKeypaths.pathsReadable, hc.unknown.sizesReadable⟩
  unknown := h.unknown.sizesReadable

theorem PartiallySignedTransaction.encodable_of_unserialize {bytes : List UInt8}
    (ht : psbt.tx = some tx) (hb : psbt.serialize = .ok bytes)
    (hr : (unserialize crypto curve).run bytes = .ok (psbt, [])) : psbt.Encodable crypto tx := by
  obtain ⟨tx', hc⟩ := canonical_of_unserialize hr
  obtain rfl : tx' = tx := Option.some.inj (hc.tx_eq.symm.trans ht)
  obtain ⟨bytes', hb', hre⟩ := exists_reads_unserialize hc
  obtain rfl : bytes' = bytes := by
    rw [serialize_normalized, hb] at hb'
    exact (Except.ok.inj hb').symm
  have hs : psbt.normalized = psbt := by
    have hbo := (hre []).symm.trans ((append_nil bytes').symm ▸ hr)
    exact (Prod.mk.inj (Except.ok.inj hbo)).1
  rw [hs] at hc
  exact hc.encodable

variable (crypto curve)

/-- What is well formed is read back from the bytes written if and only if it can be written. What
was read from any bytes is written, and what these bytes are read as is written to the same bytes.
-/
theorem unserialize_roundTrip :
    (∀ (psbt : PartiallySignedTransaction) (tx : CTransaction), psbt.WellFormed crypto curve tx →
      (psbt.Encodable crypto tx ↔ ∃ bytes, psbt.serialize = .ok bytes ∧
        (unserialize crypto curve).run bytes = .ok (psbt, []))) ∧
    ∀ (bytes : List UInt8) (psbt : PartiallySignedTransaction) (rest : List UInt8),
      (unserialize crypto curve).run bytes = .ok (psbt, rest) →
      ∃ bytes' psbt', psbt.serialize = .ok bytes' ∧
        (unserialize crypto curve).run bytes' = .ok (psbt', []) ∧
        psbt'.serialize = .ok bytes' := by
  constructor
  · intro psbt tx h
    constructor
    · intro hs
      obtain ⟨bytes, hb, hr⟩ :=
        exists_reads_unserialize (h.canonical hs)
      exact ⟨bytes, hb, by simpa using hr []⟩
    · rintro ⟨bytes, hb, hre⟩
      exact encodable_of_unserialize h.tx_eq hb hre
  · intro bytes psbt rest hre
    obtain ⟨tx, hc⟩ := canonical_of_unserialize hre
    obtain ⟨bytes', hb, hr⟩ :=
      exists_reads_unserialize hc
    refine ⟨bytes', psbt.normalized, ?_, by simpa using hr [], hb⟩
    rw [← serialize_normalized, hb]

end RoundTrip

def plainTx : CTransaction :=
  let tx : CTransaction := ⟨[⟨⟨5, 0⟩, [], 0, []⟩], [⟨90, []⟩], 2, 0, 0⟩
  { tx with hash := tx.computeHash openCrypto.hash256 }

def psbtWithInput (input : PSBTInput) : PartiallySignedTransaction where
  tx := some plainTx
  inputs := [input]
  outputs := [{}]

def openInput (witnessUtxo : CTxOut) (redeemScript : CScript) : PSBTInput :=
  { witnessUtxo, redeemScript, sighashType := 1 }

theorem wellFormed_openInput (utxo : CTxOut) (script : CScript) :
    (psbtWithInput (openInput utxo script)).WellFormed openCrypto openCurve plainTx where
  tx_eq := rfl
  isUnsigned := rfl
  inputs := .cons ⟨by simp [openInput], by simp [openInput], by simp [openInput],
    by simp [openInput], by simp [openInput], fun h => by cases h⟩ .nil
  outputs_length := rfl
  outputs := forall_mem_singleton.mpr ⟨by simp, by simp⟩
  unknown := by simp [psbtWithInput]

theorem bounded_plainTx : plainTx.Bounded openCrypto.hash256 where
  nVersion := by decide
  nLockTime := by decide
  vin_length := by decide
  vin := forall_mem_singleton.mpr
    ⟨⟨by decide, Nat.zero_le _, by decide⟩, witnessBounded_of_nil rfl⟩
  vout_length := by decide
  vout := forall_mem_singleton.mpr ⟨by decide, Nat.zero_le _⟩
  hash_eq := rfl

theorem unserialize_roundTrip_openInput : ∃ bytes,
    (psbtWithInput (openInput ⟨100, [0x51]⟩ [0x51])).serialize = .ok bytes ∧
    (unserialize openCrypto openCurve).run bytes =
      .ok (psbtWithInput (openInput ⟨100, [0x51]⟩ [0x51]), []) ∧
    ∃ bytes' psbt', (psbtWithInput (openInput ⟨100, [0x51]⟩ [0x51])).serialize = .ok bytes' ∧
      (unserialize openCrypto openCurve).run bytes' = .ok (psbt', []) ∧
      psbt'.serialize = .ok bytes' := by
  have he : (psbtWithInput (openInput ⟨100, [0x51]⟩ [0x51])).Encodable openCrypto plainTx :=
    { bounded := bounded_plainTx
      length_le := by decide +kernel
      inputs := forall_mem_singleton.mpr ⟨by simp [openInput], by decide,
        ⟨⟨by decide, by decide⟩, by decide⟩, by simp [openInput], by decide, by decide, by decide,
        by simp [PathsReadable, openInput], by decide,
        ⟨⟨by decide, by simp [openInput]⟩, by decide⟩, by simp [SizesReadable, openInput]⟩
      outputs := forall_mem_singleton.mpr
        ⟨by decide, by decide, by simp [PathsReadable], by simp [SizesReadable]⟩
      unknown := by simp [psbtWithInput, SizesReadable] }
  obtain ⟨hb, ha⟩ := unserialize_roundTrip openCrypto openCurve
  obtain ⟨bytes, hby, hr⟩ := (hb _ _ (wellFormed_openInput _ _)).mp he
  exact ⟨bytes, hby, hr, ha bytes _ [] hr⟩

theorem encodable_of_readBack {input : PSBTInput} {bytes : List UInt8}
    (hb : (psbtWithInput input).serialize = .ok bytes)
    (hr : (unserialize openCrypto openCurve).run bytes =
      .ok (psbtWithInput input, [])) : input.Encodable openCrypto :=
  (encodable_of_unserialize rfl hb hr).inputs _
    mem_cons_self

/-- An output with a script that stands for no output is not written, and a script with more bytes
than can be read is written. -/
theorem not_unserialize_roundTrip :
    ((psbtWithInput (openInput ⟨-1, [0x51]⟩ [])).WellFormed openCrypto openCurve plainTx ∧
      ∃ bytes, (psbtWithInput (openInput ⟨-1, [0x51]⟩ [])).serialize = .ok bytes ∧
        (unserialize openCrypto openCurve).run bytes ≠
          .ok (psbtWithInput (openInput ⟨-1, [0x51]⟩ []), [])) ∧
    (psbtWithInput (openInput .null (.replicate (maxSize + 1) 0))).WellFormed openCrypto openCurve
      plainTx ∧
    ∃ bytes, (psbtWithInput (openInput .null (.replicate (maxSize + 1) 0))).serialize = .ok bytes ∧
      (unserialize openCrypto openCurve).run bytes ≠
        .ok (psbtWithInput (openInput .null (.replicate (maxSize + 1) 0)), []) := by
  refine ⟨⟨wellFormed_openInput _ _, _, rfl, fun hr => ?_⟩,
    wellFormed_openInput _ _, _, rfl, fun hr => ?_⟩
  · exact absurd ((encodable_of_readBack rfl hr).witnessUtxo_null rfl) (by decide)
  · have hl := (encodable_of_readBack rfl hr).redeemScript
    simp only [openInput, length_replicate] at hl
    omega

end Palladium
