import Palladium.Lib.TreeMap
import Palladium.Psbt.Serialize

/-! # Reading what was written

A partially signed transaction whose sizes can be read is read back as it was written.
-/

namespace Palladium
open List StateT Std

theorem decodes_unserializeFromVector {α : Type} {read : Reader α} {P : α → Prop}
    {w : α → List UInt8} (h : read.Decodes P w) :
    (unserializeFromVector read).Decodes (fun a => P a ∧ (w a).length ≤ maxSize)
      fun a => serializeVch (w a) := by
  intro s a t
  simp only [unserializeFromVector, ends_bind, ends_get, ends_ite, ends_throw, ends_pure,
    decodes_readCompactSize _ _ _, h _ _ _, serializeVch]
  constructor
  · rintro ⟨n, _, ⟨hn, rfl⟩, _, _, ⟨rfl, rfl⟩, b, u, ⟨hb, rfl⟩, _, _, ⟨rfl, rfl⟩, hs⟩
    split at hs
    · exact hs.elim
    next he =>
      obtain ⟨rfl, rfl⟩ := hs
      obtain rfl : n = (w b).length := by
        rw [not_not, length_append] at he
        omega
      exact ⟨⟨hb, hn⟩, by rw [append_assoc]⟩
  · rintro ⟨⟨ha, hn⟩, rfl⟩
    refine ⟨_, w a ++ t, ⟨hn, by rw [append_assoc]⟩, _, _, ⟨rfl, rfl⟩, a, t, ⟨ha, rfl⟩, _, _,
      ⟨rfl, rfl⟩, ?_⟩
    rw [if_neg (by rw [not_not, length_append]; omega)]
    exact ⟨rfl, rfl⟩

def KeyOriginInfo.Bounded (info : KeyOriginInfo) : Prop :=
  info.fingerprint.length = 4 ∧ (∀ index ∈ info.path, index < 2 ^ 32) ∧
    4 * (info.path.length + 1) ≤ maxSize

theorem KeyOriginInfo.length_serialize {info : KeyOriginInfo} (h : info.fingerprint.length = 4) :
    info.serialize.length = 4 * (info.path.length + 1) := by
  have hp : (info.path.flatMap (writeLE 4)).length = 4 * info.path.length := by
    simp [length_flatMap, Nat.mul_comm]
  rw [serialize, length_append, h, hp]
  omega

theorem decodes_readKeyOriginInfo :
    readKeyOriginInfo.Decodes KeyOriginInfo.Bounded fun info => serializeVch info.serialize := by
  rintro s info t
  simp only [readKeyOriginInfo, ends_bind, ends_ite, ends_throw, ends_pure,
    decodes_readCompactSize _ _ _, decodes_readBytes _ _ _ _,
    (decodes_readData 4).many _ _ _ _, id_eq]
  constructor
  · rintro ⟨n, u, ⟨hn, rfl⟩, h⟩
    split at h
    · exact h.elim
    next hl =>
      obtain ⟨fingerprint, v, ⟨hf, rfl⟩, path, _, ⟨⟨hp, ha⟩, rfl⟩, rfl, rfl⟩ := h
      simp only [Bool.or_eq_true, decide_eq_true_eq, not_or, not_not] at hl
      have hs : n = 4 * (path.length + 1) := by omega
      refine ⟨⟨hf, ha, hs ▸ hn⟩, ?_⟩
      rw [serializeVch, KeyOriginInfo.length_serialize hf, ← hs]
      simp [KeyOriginInfo.serialize]
  · rintro ⟨⟨hf, ha, hn⟩, rfl⟩
    refine ⟨_, info.serialize ++ t, ⟨hn, ?_⟩, ?_⟩
    · rw [serializeVch, KeyOriginInfo.length_serialize hf, append_assoc]
    · rw [if_neg (by simp)]
      refine ⟨info.fingerprint, _, ⟨hf, by rw [KeyOriginInfo.serialize, append_assoc]⟩,
        info.path, t, ⟨⟨by omega, ha⟩, rfl⟩, rfl, rfl⟩

/-! ## Records

The keys that are seen once are seen in the order of their types. -/

section Records
variable {ρ : Type} (step : ρ × KeyLookup → Valtype → Reader (ρ × KeyLookup))

/-- Only keys of one byte below `b` were seen. -/
def KeyLookup.Below (keyLookup : KeyLookup) (b : ℕ) : Prop :=
  ∀ key ∈ keyLookup, ∃ type : UInt8, type.toNat < b ∧ key = [type]

/-- Reading the word leads from one record to the other; the keys seen are below `b` before and
`b'` after. -/
def RecordLeads (b b' : ℕ) (r : ρ) (w : List UInt8) (r' : ρ) : Prop :=
  ∀ keyLookup : KeyLookup, keyLookup.Below b → ∃ keyLookup' : KeyLookup, keyLookup'.Below b' ∧
    EntriesLead readVch step (r, keyLookup) w (r', keyLookup')

variable {step} {b b' b'' : ℕ} {r r' r'' : ρ} {w w' : List UInt8}

theorem RecordLeads.trans (h : RecordLeads step b b' r w r')
    (h' : RecordLeads step b' b'' r' w' r'') : RecordLeads step b b'' r (w ++ w') r'' := by
  intro keyLookup hb
  obtain ⟨keyLookup', hb', hl⟩ := h keyLookup hb
  obtain ⟨keyLookup'', hb'', hl'⟩ := h' keyLookup' hb'
  exact ⟨keyLookup'', hb'', hl.trans hl'⟩

theorem RecordLeads.nil (hb : b ≤ b') (r : ρ) : RecordLeads step b b' r [] r := by
  refine fun k hbe => ⟨k, fun key hk => ?_, .nil _⟩
  obtain ⟨type, ht, rfl⟩ := hbe key hk
  exact ⟨type, by omega, rfl⟩

variable {value : Valtype}

theorem entriesLead_writeEntry {r r' : ρ × KeyLookup} {key : Valtype} (hk : key ≠ [])
    (hl : key.length ≤ maxSize) (hs : (step r key).Reads (serializeVch value) r') :
    EntriesLead readVch step r (writeEntry key value) r' :=
  .single (serializeVch_ne_nil key) (decodes_readVch.reads hl) hk hs

theorem RecordLeads.field (isSet : Bool) (type : UInt8) (ho : isSet = false → r' = r)
    (hs : isSet → ∀ keyLookup, [type] ∉ keyLookup →
      (step (r, keyLookup) [type]).Reads (serializeVch value) (r', [type] :: keyLookup)) :
    RecordLeads step type.toNat (type.toNat + 1) r (writeField isSet type value) r' := by
  cases isSet with
  | false =>
    rw [ho rfl]
    exact .nil (Nat.le_succ _) r
  | true =>
    intro keyLookup hb
    have hn : [type] ∉ keyLookup := by
      intro hm
      obtain ⟨type', hl, he⟩ := hb _ hm
      cases he
      exact absurd hl (lt_irrefl _)
    refine ⟨[type] :: keyLookup, ?_, entriesLead_writeEntry (by simp) (by simp [maxSize])
      (hs rfl keyLookup hn)⟩
    refine forall_mem_cons.mpr ⟨⟨type, Nat.lt_succ_self _, rfl⟩, fun key hk => ?_⟩
    obtain ⟨type', hl, rfl⟩ := hb key hk
    exact ⟨type', hl.trans (Nat.lt_succ_self _), rfl⟩

theorem RecordLeads.script (type : UInt8) {script : CScript} (ho : script = [] → r' = r)
    (hl : script.length ≤ maxSize)
    (hs : ∀ keyLookup, [type] ∉ keyLookup → readVch.Reads (serializeVch script) script →
      (step (r, keyLookup) [type]).Reads (serializeVch script) (r', [type] :: keyLookup)) :
    RecordLeads step type.toNat (type.toNat + 1) r (writeField (!script.isEmpty) type script) r' :=
  .field (!script.isEmpty) type (fun h => ho (by simpa using h))
    fun _ keyLookup hn => hs keyLookup hn (decodes_readVch.reads hl)

theorem RecordLeads.map {κ β : Type} [Ord κ] [TransOrd κ] [LawfulEqOrd κ] {m : ExtTreeMap κ β}
    (put : ExtTreeMap κ β → ρ) (key value : κ × β → Valtype) (hb : b ≤ b')
    (hs : ∀ m' : ExtTreeMap κ β, ∀ e : κ × β, m[e.1]? = some e.2 → e.1 ∉ m' → key e ≠ [] ∧
      (key e).length ≤ maxSize ∧ ∀ keyLookup, (step (put m', keyLookup) (key e)).Reads
        (serializeVch (value e)) (put (m'.insertIfNew e.1 e.2), keyLookup)) :
    RecordLeads step b b' (put ∅) (m.toList.flatMap fun e => writeEntry (key e) (value e))
      (put m) := by
  have hl : ∀ (l : List (κ × β)) (m' : ExtTreeMap κ β), (∀ e ∈ l, m[e.1]? = some e.2) →
      AllNew m' l → RecordLeads step b b' (put m')
        (l.flatMap fun e => writeEntry (key e) (value e))
        (put (l.foldl (fun m e => m.insertIfNew e.1 e.2) m')) := by
    intro l
    induction l with
    | nil => exact fun m' _ _ => .nil hb _
    | cons e l ih =>
      intro m' hm hn keyLookup hbe
      rw [forall_mem_cons] at hm
      obtain ⟨hk, hln, hr⟩ := hs m' e hm.1 (hn.1 e mem_cons_self)
      obtain ⟨keyLookup', hbe', hle⟩ := ih _ hm.2 hn.tail keyLookup hbe
      exact ⟨keyLookup', hbe', (entriesLead_writeEntry hk hln (hr keyLookup)).trans hle⟩
  have h := hl m.toList ∅ (fun e he => ExtTreeMap.mem_toList_iff_getElem?_eq_some.mp he)
    (allNew_toList m)
  rwa [foldl_insertIfNew_toList] at h

theorem RecordLeads.unserialize {missing : String} (h : RecordLeads step 0 b r w r') : (do
      let (r, _) ← readAllEntries readVch step missing (r, [])
      return r : Reader ρ).Reads (w ++ [psbtSeparator]) r' := by
  obtain ⟨k, -, hl⟩ := h [] (fun _ h => nomatch h)
  have hs : readVch.Reads [psbtSeparator] [] := decodes_readVch.reads (a := []) (by simp)
  exact (hl.readAllEntries (by simp) hs).bind_pure (reads_pure r')

end Records

section Canonical
variable (crypto : Crypto) (curve : Curve)

def HDKeypathsBounded (hdKeypaths : ExtTreeMap CPubKey KeyOriginInfo) : Prop :=
  ∀ (pubkey : CPubKey) (info : KeyOriginInfo), hdKeypaths[pubkey]? = some info →
    pubkey.isFullyValid curve = true ∧ info.Bounded

def UnknownBounded (isKnown : UInt8 → Bool) (unknown : ExtTreeMap Valtype Valtype) : Prop :=
  ∀ key value : Valtype, unknown[key]? = some value → key ≠ [] ∧ isKnown (key.headD 0) = false ∧
    key.length ≤ maxSize ∧ value.length ≤ maxSize

/-- What is set in the record is written, and its sizes can be read. -/
structure PSBTInput.Canonical (input : PSBTInput) : Prop where
  nonWitnessUtxo : ∀ tx, input.nonWitnessUtxo = some tx → tx.Bounded crypto.hash256 ∧
    tx.Readable true ∧ tx.hasWitness = false ∧ (tx.serialize false).length ≤ maxSize
  witnessUtxo_null : input.witnessUtxo.isNull = true → input.witnessUtxo = .null
  witnessUtxo : input.witnessUtxo.Bounded ∧ input.witnessUtxo.serialize.length ≤ maxSize
  sighashType : 0 ≤ input.sighashType ∧ input.sighashType < 2 ^ 31
  redeemScript : input.redeemScript.length ≤ maxSize
  witnessScript : input.witnessScript.length ≤ maxSize
  finalScriptSig : input.finalScriptSig.length ≤ maxSize
  finalScriptWitness : (input.finalScriptWitness.length ≤ maxSize ∧
    ∀ vch ∈ input.finalScriptWitness, vch.length ≤ maxSize) ∧
      (writeVector serializeVch input.finalScriptWitness).length ≤ maxSize
  hdKeypaths : HDKeypathsBounded curve input.hdKeypaths
  partialSigs : ∀ (keyid : Valtype) (sigPair : CPubKey × Valtype),
    input.partialSigs[keyid]? = some sigPair →
    keyid = sigPair.1.getID crypto ∧ sigPair.1.isFullyValid curve = true ∧
      sigPair.2.length ≤ maxSize
  unknown : UnknownBounded (fun type => (PSBTInputType.ofByte type).isSome) input.unknown
  signed : input.signed = true → input.partialSigs = ∅ ∧ input.sighashType = 0 ∧
    input.redeemScript = [] ∧ input.witnessScript = [] ∧ input.hdKeypaths = ∅

structure PSBTOutput.Canonical (output : PSBTOutput) : Prop where
  redeemScript : output.redeemScript.length ≤ maxSize
  witnessScript : output.witnessScript.length ≤ maxSize
  hdKeypaths : HDKeypathsBounded curve output.hdKeypaths
  unknown : UnknownBounded (fun type => (PSBTOutputType.ofByte type).isSome) output.unknown

def PSBTInput.Fits (txin : CTxIn) (input : PSBTInput) : Prop :=
  input.Canonical crypto curve ∧
    ∀ tx, input.nonWitnessUtxo = some tx → tx.hash = txin.prevout.hash

structure PartiallySignedTransaction.Canonical (psbt : PartiallySignedTransaction)
    (tx : CTransaction) : Prop where
  tx_eq : psbt.tx = some tx
  bounded : tx.Bounded crypto.hash256
  isUnsigned : tx.isUnsigned = true
  length_le : (tx.serialize false).length ≤ maxSize
  inputs : List.Forall₂ (PSBTInput.Fits crypto curve) tx.vin psbt.inputs
  outputs_length : psbt.outputs.length = tx.vout.length
  outputs : ∀ output ∈ psbt.outputs, output.Canonical curve
  unknown : UnknownBounded (fun type => type = psbtGlobalUnsignedTx) psbt.unknown

end Canonical

section Read
variable {crypto : Crypto} {curve : Curve} {type : UInt8} {pubkey : CPubKey}
  {m : ExtTreeMap CPubKey KeyOriginInfo} {tx : CTransaction}

theorem reads_emplace {α ρ : Type} {read : Reader α} {w : List UInt8} {a : α} {f : α → ρ}
    {keyLookup : KeyLookup} {duplicate long : String} (hn : [type] ∉ keyLookup)
    (hr : read.Reads w a) :
    Reads (do
      let keyLookup ← keyLookup.emplace [type] duplicate long
      let a ← read
      return (f a, keyLookup) : Reader (ρ × KeyLookup)) w (f a, [type] :: keyLookup) := by
  intro rest
  have he : keyLookup.emplace [type] duplicate long = .ok ([type] :: keyLookup) := by
    simp [KeyLookup.emplace, hn]
  exact ends_bind.mpr ⟨_, _, ends_lift.mpr ⟨he, rfl⟩, ends_bind_pure.mpr ⟨a, hr.ends rest, rfl⟩⟩

theorem CPubKey.length_of_isValid (h : pubkey.isValid) :
    pubkey.vch.length = 33 ∨ pubkey.vch.length = 65 := by
  obtain ⟨vch, rfl | hs⟩ := pubkey
  · cases h
  · have hl : getLen (vch.getD 0 0) = vch.length := (by simpa [validSize] using hs : _ ∧ _).2
    have hp : 0 < vch.length := by simpa [isValid] using h
    unfold getLen at hl
    split at hl
    · exact .inl hl.symm
    · split at hl
      · exact .inr hl.symm
      · omega

theorem CPubKey.ofVch_vch (h : pubkey.isValid) : ofVch pubkey.vch = pubkey := by
  obtain ⟨vch, rfl | hs⟩ := pubkey
  · cases h
  · exact dif_pos hs

theorem pubKeyOfKey_cons (h : pubkey.isFullyValid curve) (type : UInt8) (size : String) :
    pubKeyOfKey curve (type :: pubkey.vch) size = .ok pubkey := by
  have hv : pubkey.isValid := (Bool.and_eq_true_iff.mp h).1
  have hs : ¬ ((type :: pubkey.vch).length ≠ 65 + 1 &&
      (type :: pubkey.vch).length ≠ 33 + 1) = true := by
    rcases CPubKey.length_of_isValid hv with h33 | h65
    · simp [h33]
    · simp [h65]
  rw [pubKeyOfKey, if_neg hs]
  simp [CPubKey.ofVch_vch hv, h]

theorem length_key_le (h : pubkey.isFullyValid curve) : (type :: pubkey.vch).length ≤ maxSize := by
  have hl := CPubKey.length_of_isValid (Bool.and_eq_true_iff.mp h).1
  rw [length_cons, maxSize]
  omega

theorem reads_deserializeHDKeypaths {info : KeyOriginInfo}
    (hv : pubkey.isFullyValid curve) (hi : info.Bounded) (hn : pubkey ∉ m)
    (type : UInt8) :
    (deserializeHDKeypaths curve (type :: pubkey.vch) m).Reads (serializeVch info.serialize)
      (m.insertIfNew pubkey info) := by
  intro rest
  refine ends_bind.mpr ⟨pubkey, _, ends_lift.mpr ⟨pubKeyOfKey_cons hv _ _, rfl⟩, ?_⟩
  rw [if_neg hn]
  exact ends_bind_pure.mpr ⟨info, (decodes_readKeyOriginInfo.reads hi).ends rest, rfl⟩

theorem serializeHDKeypaths_eq_ok (h : HDKeypathsBounded curve m) : serializeHDKeypaths m type =
      .ok (m.toList.flatMap fun e => writeEntry (type :: e.1.vch) e.2.serialize) := by
  refine if_neg ?_
  simp only [any_eq_true, not_exists, not_and, Bool.not_eq_true', Bool.not_eq_false]
  intro e he
  have hv := (h e.1 e.2 (ExtTreeMap.mem_toList_iff_getElem?_eq_some.mp he)).1
  exact (Bool.and_eq_true_iff.mp hv).1

theorem reads_readUnknown {m : ExtTreeMap Valtype Valtype} {key value : Valtype} (hn : key ∉ m)
    (hl : value.length ≤ maxSize) :
    (readUnknown key m).Reads (serializeVch value) (m.insertIfNew key value) := by
  intro rest
  rw [readUnknown, if_neg hn]
  exact ends_bind_pure.mpr ⟨value, (decodes_readVch.reads hl).ends rest, rfl⟩

section Maps
variable {ρ : Type} {step : ρ × KeyLookup → Valtype → Reader (ρ × KeyLookup)} {b : ℕ}

theorem RecordLeads.unknown {isKnown : UInt8 → Bool} {m : ExtTreeMap Valtype Valtype}
    (put : ExtTreeMap Valtype Valtype → ρ) (h : UnknownBounded isKnown m)
    (hs : ∀ m' keyLookup key, isKnown (key.headD 0) = false →
      step (put m', keyLookup) key = do return (put (← readUnknown key m'), keyLookup)) :
    RecordLeads step b b (put ∅) (serializeUnknown m) (put m) := by
  refine .map put Prod.fst Prod.snd le_rfl fun m' e he hn => ?_
  obtain ⟨hne, hu, hk, hv⟩ := h e.1 e.2 he
  refine ⟨hne, hk, fun keyLookup => ?_⟩
  rw [hs m' keyLookup e.1 hu]
  exact (reads_readUnknown hn hv).bind_pure (reads_pure _)

theorem RecordLeads.hdKeypaths (type : UInt8) (put : ExtTreeMap CPubKey KeyOriginInfo → ρ)
    (h : HDKeypathsBounded curve m) (hs : ∀ m' keyLookup vch, step (put m', keyLookup)
      (type :: vch) = do return (put (← deserializeHDKeypaths curve (type :: vch) m'), keyLookup)) :
    RecordLeads step b (b + 1) (put ∅)
      (m.toList.flatMap fun e => writeEntry (type :: e.1.vch) e.2.serialize) (put m) := by
  refine .map put (fun e => type :: e.1.vch) (fun e => e.2.serialize) b.le_succ
    fun m' e he hn => ?_
  obtain ⟨hv, hb⟩ := h e.1 e.2 he
  refine ⟨by simp, length_key_le hv, fun keyLookup => ?_⟩
  rw [hs]
  exact (reads_deserializeHDKeypaths hv hb hn _).bind_pure (reads_pure _)

end Maps

namespace PSBTInput
variable {r : PSBTInput}

theorem leads_nonWitnessUtxo {tx : Option CTransaction} (hr : r.nonWitnessUtxo = none)
    (h : ∀ tx', tx = some tx' → tx'.Bounded crypto.hash256 ∧
      tx'.Readable true ∧ tx'.hasWitness = false ∧ (tx'.serialize false).length ≤ maxSize) :
    RecordLeads (readEntry crypto curve) 0 1 r
      ((tx.map fun tx =>
        writeEntry [PSBTInputType.nonWitnessUtxo.byte] (tx.serialize false)).getD [])
      { r with nonWitnessUtxo := tx } := by
  cases tx with
  | none =>
    have hsa : { r with nonWitnessUtxo := none } = r := by rw [← hr]
    rw [hsa]
    exact .nil (Nat.zero_le 1) r
  | some tx =>
    obtain ⟨hb, hre, hw, hl⟩ := h tx rfl
    refine RecordLeads.field true PSBTInputType.nonWitnessUtxo.byte (by simp)
      fun _ k hn => ?_
    have hs : tx.serialize true = tx.serialize false := by
      simp [CTransaction.serialize, hw]
    rw [← hs] at hl ⊢
    exact reads_emplace hn ((decodes_unserializeFromVector
      (decodes_readTransaction crypto.hash256 true)).reads ⟨⟨hb, hre⟩, hl⟩)

theorem leads_witnessUtxo {utxo : CTxOut} (hr : r.witnessUtxo = .null)
    (hn : utxo.isNull → utxo = .null) (h : utxo.Bounded)
    (hl : utxo.serialize.length ≤ maxSize) :
    RecordLeads (readEntry crypto curve) 1 2 r
      (writeField (!utxo.isNull) PSBTInputType.witnessUtxo.byte utxo.serialize)
      { r with witnessUtxo := utxo } := by
  refine RecordLeads.field (!utxo.isNull) PSBTInputType.witnessUtxo.byte (fun hs => ?_)
    fun _ k hnw => ?_
  · rw [hn (by simpa using hs), ← hr]
  · exact reads_emplace hnw
      ((decodes_unserializeFromVector decodes_readTxOut).reads ⟨h, hl⟩)

theorem leads_sighashType {sighashType : ℤ} (hr : r.sighashType = 0)
    (h : 0 ≤ sighashType ∧ sighashType < 2 ^ 31) :
    RecordLeads (readEntry crypto curve) 3 4 r
      (writeField (0 < sighashType) PSBTInputType.sighash.byte (writeInt 4 sighashType))
      { r with sighashType } := by
  refine RecordLeads.field (0 < sighashType) PSBTInputType.sighash.byte (fun hs => ?_)
    fun _ k hn => ?_
  · have hz : sighashType = 0 := by
      simp only [decide_eq_false_iff_not] at hs
      omega
    rw [hz, ← hr]
  · exact reads_emplace hn ((decodes_unserializeFromVector
      (decodes_readInt 4 (N := 2 ^ 31) (by norm_num))).reads
        ⟨⟨by push_cast; omega, by push_cast; omega⟩, by simp [writeInt, maxSize]⟩)

theorem leads_redeemScript {redeemScript : CScript} (hr : r.redeemScript = [])
    (hl : redeemScript.length ≤ maxSize) :
    RecordLeads (readEntry crypto curve) 4 5 r
      (writeField (!redeemScript.isEmpty) PSBTInputType.redeemScript.byte redeemScript)
      { r with redeemScript } :=
  .script PSBTInputType.redeemScript.byte (fun hn => by rw [hn, ← hr]) hl
    fun _ hnw hre => reads_emplace hnw hre

theorem leads_witnessScript {witnessScript : CScript} (hr : r.witnessScript = [])
    (hl : witnessScript.length ≤ maxSize) :
    RecordLeads (readEntry crypto curve) 5 6 r
      (writeField (!witnessScript.isEmpty) PSBTInputType.witnessScript.byte witnessScript)
      { r with witnessScript } :=
  .script PSBTInputType.witnessScript.byte (fun hn => by rw [hn, ← hr]) hl
    fun _ hnw hre => reads_emplace hnw hre

theorem leads_finalScriptSig {finalScriptSig : CScript} (hr : r.finalScriptSig = [])
    (hl : finalScriptSig.length ≤ maxSize) :
    RecordLeads (readEntry crypto curve) 7 8 r
      (writeField (!finalScriptSig.isEmpty) PSBTInputType.scriptSig.byte finalScriptSig)
      { r with finalScriptSig } :=
  .script PSBTInputType.scriptSig.byte (fun hn => by rw [hn, ← hr]) hl
    fun _ hnw hre => reads_emplace hnw hre

theorem leads_finalScriptWitness {stack : List Valtype} (hr : r.finalScriptWitness = [])
    (hs : stack.length ≤ maxSize ∧ ∀ vch ∈ stack, vch.length ≤ maxSize)
    (hl : (writeVector serializeVch stack).length ≤ maxSize) :
    RecordLeads (readEntry crypto curve) 8 9 r
      (writeField (!stack.isEmpty) PSBTInputType.scriptWitness.byte
        (writeVector serializeVch stack))
      { r with finalScriptWitness := stack } := by
  refine RecordLeads.field (!stack.isEmpty) PSBTInputType.scriptWitness.byte (fun hse => ?_)
    fun _ k hn => ?_
  · obtain rfl : stack = [] := by simpa using hse
    rw [← hr]
  · exact reads_emplace hn ((decodes_unserializeFromVector
      (decodes_readVector decodes_readVch)).reads ⟨hs, hl⟩)

theorem leads_partialSigs {partialSigs : ExtTreeMap Valtype (CPubKey × Valtype)}
    (hr : r.partialSigs = ∅) (h : ∀ (keyid : Valtype) (sigPair : CPubKey × Valtype),
      partialSigs[keyid]? = some sigPair → keyid = sigPair.1.getID crypto ∧
        sigPair.1.isFullyValid curve ∧ sigPair.2.length ≤ maxSize) :
    RecordLeads (readEntry crypto curve) 2 3 r
      (partialSigs.toList.flatMap fun e =>
        writeEntry (PSBTInputType.partialSig.byte :: e.2.1.vch) e.2.2)
      { r with partialSigs } := by
  have hem : r = { r with partialSigs := ∅ } := by rw [← hr]
  rw [hem]
  refine .map (fun m => { r with partialSigs := m })
    (fun e => PSBTInputType.partialSig.byte :: e.2.1.vch) (·.2.2) (Nat.le_succ 2)
    fun m' e he hn => ?_
  obtain ⟨hi, hv, hl⟩ := h e.1 e.2 he
  refine ⟨by simp, length_key_le hv, fun k rest => ?_⟩
  refine ends_bind.mpr ⟨e.2.1, _, ends_lift.mpr ⟨pubKeyOfKey_cons hv _ _, rfl⟩, ?_⟩
  rw [← hi, if_neg hn]
  exact ends_bind_pure.mpr ⟨e.2.2, (decodes_readVch.reads hl).ends rest, rfl⟩

theorem exists_reads_unserialize {input : PSBTInput} (h : input.Canonical crypto curve) :
    ∃ w, w ≠ [] ∧ input.serialize = .ok w ∧ (unserialize crypto curve).Reads w input := by
  obtain ⟨p, hp, hl⟩ : ∃ p, input.serializePartial = .ok p ∧
      RecordLeads (readEntry crypto curve) 2 7
        { nonWitnessUtxo := input.nonWitnessUtxo, witnessUtxo := input.witnessUtxo } p
        { nonWitnessUtxo := input.nonWitnessUtxo, witnessUtxo := input.witnessUtxo,
          partialSigs := input.partialSigs, sighashType := input.sighashType,
          redeemScript := input.redeemScript, witnessScript := input.witnessScript,
          hdKeypaths := input.hdKeypaths } := by
    unfold serializePartial
    split
    next hsi =>
      obtain ⟨hss, hs, hr, hw, hk⟩ := h.signed hsi
      refine ⟨[], rfl, ?_⟩
      rw [hss, hs, hr, hw, hk]
      exact .nil (by omega) _
    next =>
      refine ⟨_, ?_, (leads_partialSigs rfl h.partialSigs).trans <|
        (leads_sighashType rfl h.sighashType).trans <|
        (leads_redeemScript rfl h.redeemScript).trans <|
        (leads_witnessScript rfl h.witnessScript).trans <|
        .hdKeypaths PSBTInputType.bip32Derivation.byte (fun m => { input with
          hdKeypaths := m, finalScriptSig := [], finalScriptWitness := [], unknown := ∅ })
          h.hdKeypaths fun _ _ _ => rfl⟩
      rw [serializeHDKeypaths_eq_ok h.hdKeypaths]
      rfl
  have hu : RecordLeads (readEntry crypto curve) 0 2 {} _
      { nonWitnessUtxo := input.nonWitnessUtxo, witnessUtxo := input.witnessUtxo } :=
    (leads_nonWitnessUtxo rfl h.nonWitnessUtxo).trans
      (leads_witnessUtxo rfl h.witnessUtxo_null h.witnessUtxo.1 h.witnessUtxo.2)
  have ha := hu.trans <| hl.trans <| (leads_finalScriptSig rfl h.finalScriptSig).trans <|
    (leads_finalScriptWitness rfl h.finalScriptWitness.1 h.finalScriptWitness.2).trans <|
    .unknown (fun m => { input with unknown := m }) h.unknown
      fun _ _ _ hun => by simp_all [readEntry]
  refine ⟨_, ?_, ?_, ha.unserialize⟩
  · simp
  · rw [serialize, hp]
    simp only [append_assoc]
    rfl

end PSBTInput

namespace PSBTOutput

theorem exists_reads_unserialize {output : PSBTOutput} (h : output.Canonical curve) :
    ∃ w, w ≠ [] ∧ output.serialize = .ok w ∧ (unserialize curve).Reads w output := by
  have hre : RecordLeads (readEntry curve) 0 1 {} _ { redeemScript := output.redeemScript } :=
    .script PSBTOutputType.redeemScript.byte (fun hn => by rw [hn]) h.redeemScript
      fun _ hnw hr => reads_emplace hnw hr
  have hw : RecordLeads (readEntry curve) 1 2 { redeemScript := output.redeemScript } _
      { redeemScript := output.redeemScript, witnessScript := output.witnessScript } :=
    .script PSBTOutputType.witnessScript.byte (fun hn => by rw [hn]) h.witnessScript
      fun _ hnw hr => reads_emplace hnw hr
  have ha := hre.trans <| hw.trans <| (RecordLeads.hdKeypaths PSBTOutputType.bip32Derivation.byte
      (fun m => { output with hdKeypaths := m, unknown := ∅ }) h.hdKeypaths fun _ _ _ => rfl).trans <|
    .unknown (fun m => { output with unknown := m }) h.unknown
      fun _ _ _ hu => by simp_all [readEntry]
  refine ⟨_, by simp, ?_, ha.unserialize⟩
  rw [serialize, serializeHDKeypaths_eq_ok h.hdKeypaths]
  simp only [append_assoc]
  rfl

end PSBTOutput

theorem hasWitness_of_isUnsigned (h : tx.isUnsigned) : tx.hasWitness = false := by
  simp only [CTransaction.isUnsigned, all_eq_true, Bool.and_eq_true] at h
  simp only [CTransaction.hasWitness, any_eq_false, Bool.not_eq_true', Bool.not_eq_false]
  exact fun txin ht => (h txin ht).2

theorem PSBTGlobal.reads_unserialize {unknown : ExtTreeMap Valtype Valtype}
    (hb : tx.Bounded crypto.hash256) (hu : tx.isUnsigned)
    (hl : (tx.serialize false).length ≤ maxSize)
    (hun : UnknownBounded (fun type => type = psbtGlobalUnsignedTx) unknown) :
    (unserialize crypto).Reads (writeEntry [psbtGlobalUnsignedTx] (tx.serialize false) ++
      serializeUnknown unknown ++ [psbtSeparator]) ⟨some tx, unknown⟩ := by
  have ht : RecordLeads (readEntry crypto) 0 1 {}
      (writeEntry [psbtGlobalUnsignedTx] (tx.serialize false)) { tx := some tx } := by
    refine RecordLeads.field true psbtGlobalUnsignedTx (by simp) fun _ k hn rest => ?_
    have he : k.emplace [psbtGlobalUnsignedTx]
        "Duplicate Key, unsigned tx already provided"
        "Global unsigned tx key is more than one byte type" =
        .ok ([psbtGlobalUnsignedTx] :: k) := by
      simp [KeyLookup.emplace, hn]
    have hr := (decodes_unserializeFromVector
      (decodes_readTransaction crypto.hash256 false)).reads ⟨⟨hb, hasWitness_of_isUnsigned hu⟩, hl⟩
    refine ends_bind.mpr ⟨_, _, ends_lift.mpr ⟨he, rfl⟩, ?_⟩
    refine ends_bind.mpr ⟨tx, _, hr.ends rest, ?_⟩
    rw [if_neg (by simp [hu])]
    exact ends_pure.mpr ⟨rfl, rfl⟩
  exact (ht.trans (.unknown (fun m => (⟨some tx, m⟩ : PSBTGlobal)) hun
    fun _ _ _ hk => by simp_all [readEntry])).unserialize

theorem exists_reads_readPSBTInputs {vin : List CTxIn} {inputs : List PSBTInput}
    (h : List.Forall₂ (PSBTInput.Fits crypto curve) vin inputs) :
    ∃ ws, inputs.mapM PSBTInput.serialize = .ok ws ∧
      (readPSBTInputs crypto curve vin).Reads ws.flatten inputs := by
  induction h with
  | nil => exact ⟨[], rfl, reads_pure []⟩
  | @cons txin input vin inputs hf _ ih =>
    obtain ⟨ws, hws, hr⟩ := ih
    obtain ⟨w, hne, hw, hre⟩ := PSBTInput.exists_reads_unserialize hf.1
    refine ⟨w :: ws, ?_, fun rest => ?_⟩
    · rw [mapM_cons, hw, hws]
      rfl
    · have hn : ¬ input.nonWitnessUtxo.any (·.hash ≠ txin.prevout.hash) = true := by
        cases hp : input.nonWitnessUtxo with
        | none => simp
        | some prev => simpa using hf.2 prev hp
      rw [flatten_cons, append_assoc]
      refine ends_bind.mpr ⟨_, _, ends_get.mpr ⟨rfl, rfl⟩, ?_⟩
      rw [if_neg (by simp [hne])]
      refine ends_bind.mpr ⟨input, _, hre.ends _, ?_⟩
      rw [if_neg hn]
      exact ends_bind_pure.mpr ⟨inputs, hr.ends rest, rfl⟩

theorem exists_reads_readPSBTOutputs {vout : List CTxOut} {outputs : List PSBTOutput}
    (hl : outputs.length = vout.length) (h : ∀ output ∈ outputs, output.Canonical curve) :
    ∃ ws, outputs.mapM PSBTOutput.serialize = .ok ws ∧
      (readPSBTOutputs curve vout).Reads ws.flatten outputs := by
  induction outputs generalizing vout with
  | nil =>
    obtain rfl := length_eq_zero_iff.mp hl.symm
    exact ⟨[], rfl, reads_pure []⟩
  | cons output outputs ih =>
    rw [forall_mem_cons] at h
    obtain ⟨t, vout, rfl⟩ := exists_cons_of_length_eq_add_one hl.symm
    obtain ⟨ws, hws, hr⟩ := ih (Nat.succ.inj hl) h.2
    obtain ⟨w, hn, hw, hre⟩ := PSBTOutput.exists_reads_unserialize h.1
    refine ⟨w :: ws, ?_, fun rest => ?_⟩
    · rw [mapM_cons, hw, hws]
      rfl
    · rw [flatten_cons, append_assoc]
      refine ends_bind.mpr ⟨_, _, ends_get.mpr ⟨rfl, rfl⟩, ?_⟩
      rw [if_neg (by simp [hn])]
      exact ends_bind.mpr ⟨output, _, hre.ends _, ends_bind_pure.mpr ⟨outputs, hr.ends rest, rfl⟩⟩

theorem PartiallySignedTransaction.exists_reads_unserialize {psbt : PartiallySignedTransaction}
    (h : psbt.Canonical crypto curve tx) :
    ∃ w, psbt.serialize = .ok w ∧ (unserialize crypto curve).Reads w psbt := by
  obtain ⟨inputs, hi, hri⟩ := exists_reads_readPSBTInputs h.inputs
  obtain ⟨outputs, ho, hr⟩ :=
    exists_reads_readPSBTOutputs h.outputs_length h.outputs
  have hg := PSBTGlobal.reads_unserialize h.bounded h.isUnsigned h.length_le h.unknown
  refine ⟨psbtMagicBytes ++ ((writeEntry [psbtGlobalUnsignedTx] (tx.serialize false) ++
    serializeUnknown psbt.unknown ++ [psbtSeparator]) ++ (inputs.flatten ++ outputs.flatten)), ?_,
    fun rest => ?_⟩
  · rw [serialize, h.tx_eq]
    simp only [hi, ho, append_assoc]
    rfl
  · rw [append_assoc, append_assoc, append_assoc inputs.flatten]
    refine ends_bind.mpr ⟨psbtMagicBytes, _, (reads_readBytes psbtMagicBytes).ends _, ?_⟩
    rw [if_neg (by simp)]
    refine ends_bind.mpr ⟨_, _, hg.ends _, ?_⟩
    refine ends_bind.mpr ⟨psbt.inputs, _, hri.ends _, ?_⟩
    rw [if_neg (by simpa using h.inputs.length_eq.symm)]
    refine ends_bind.mpr ⟨psbt.outputs, _, hr.ends _, ?_⟩
    rw [if_neg (by simpa using h.outputs_length)]
    refine ends_pure.mpr ⟨?_, rfl⟩
    rw [← h.tx_eq]

end Read

end Palladium
