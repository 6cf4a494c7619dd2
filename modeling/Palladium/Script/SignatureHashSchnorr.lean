import Palladium.Primitives.TxSerialize
import Palladium.Script.Verify

/-! # The message of a taproot signature

`SignatureHashSchnorr` hashes a sequence of fields, some of which stand there only for some hash
types and some of which hash lists.
-/

namespace Palladium
open List Option
section Writers
variable (crypto : Crypto) (tx : CTransaction)

def getPrevoutsSHA256 : Valtype :=
  crypto.sha256 (tx.vin.flatMap (·.prevout.serialize))

def getSequencesSHA256 : Valtype :=
  crypto.sha256 (tx.vin.flatMap (writeLE 4 ·.nSequence))

def getOutputsSHA256 : Valtype :=
  crypto.sha256 (tx.vout.flatMap CTxOut.serialize)

variable (spentOutputs : List CTxOut)

def getSpentAmountsSHA256 : Valtype :=
  crypto.sha256 (spentOutputs.flatMap (writeInt 8 ·.nValue))

def getSpentScriptsSHA256 : Valtype :=
  crypto.sha256 (spentOutputs.flatMap (serializeVch ·.scriptPubKey))

def getPrevoutHash : Valtype :=
  crypto.hash256 (tx.vin.flatMap (·.prevout.serialize))

def getSequenceHash : Valtype :=
  crypto.hash256 (tx.vin.flatMap (writeLE 4 ·.nSequence))

def getOutputsHash : Valtype :=
  crypto.hash256 (tx.vout.flatMap CTxOut.serialize)

end Writers

def unsetHash : Valtype := List.replicate 32 0

structure PrecomputedTransactionData where
  prevoutsSingleHash : Valtype := unsetHash
  sequencesSingleHash : Valtype := unsetHash
  outputsSingleHash : Valtype := unsetHash
  spentAmountsSingleHash : Valtype := unsetHash
  spentScriptsSingleHash : Valtype := unsetHash
  bip341TaprootReady : Bool := false
  hashPrevouts : Valtype := unsetHash
  hashSequence : Valtype := unsetHash
  hashOutputs : Valtype := unsetHash
  ready : Bool := false
  spentOutputs : List CTxOut := []
  spentOutputsReady : Bool := false
  deriving DecidableEq, Repr

/-- The constructor. The hashes of version 0 need a witness, those of taproot an output for each
input. -/
def PrecomputedTransactionData.ofTx (crypto : Crypto) (tx : CTransaction)
    (spentOutputs : List CTxOut) : PrecomputedTransactionData :=
  let data : PrecomputedTransactionData :=
    { spentOutputs := spentOutputs, spentOutputsReady := !spentOutputs.isEmpty }
  let data := if tx.hasWitness then
      { data with
        hashPrevouts := getPrevoutHash crypto tx
        hashSequence := getSequenceHash crypto tx
        hashOutputs := getOutputsHash crypto tx
        ready := true }
    else data
  if data.spentOutputsReady && data.spentOutputs.length = tx.vin.length then
    { data with
      prevoutsSingleHash := getPrevoutsSHA256 crypto tx
      sequencesSingleHash := getSequencesSHA256 crypto tx
      outputsSingleHash := getOutputsSHA256 crypto tx
      spentAmountsSingleHash := getSpentAmountsSHA256 crypto data.spentOutputs
      spentScriptsSingleHash := getSpentScriptsSHA256 crypto data.spentOutputs
      bip341TaprootReady := true }
  else data

namespace PrecomputedTransactionData
variable {crypto : Crypto} {tx : CTransaction} {spentOutputs : List CTxOut}

@[simp] theorem ofTx_spentOutputs : (ofTx crypto tx spentOutputs).spentOutputs = spentOutputs := by
  simp only [ofTx]
  split_ifs <;> rfl

theorem length_of_ofTx_ready (h : (ofTx crypto tx spentOutputs).bip341TaprootReady) :
    spentOutputs.length = tx.vin.length := by
  simp only [ofTx] at h
  split_ifs at h with hw hl hl <;> simp_all

theorem ofTx_of_ready (h : (ofTx crypto tx spentOutputs).bip341TaprootReady) :
    (ofTx crypto tx spentOutputs).prevoutsSingleHash = getPrevoutsSHA256 crypto tx ∧
    (ofTx crypto tx spentOutputs).spentAmountsSingleHash =
      getSpentAmountsSHA256 crypto spentOutputs ∧
    (ofTx crypto tx spentOutputs).spentScriptsSingleHash =
      getSpentScriptsSHA256 crypto spentOutputs ∧
    (ofTx crypto tx spentOutputs).sequencesSingleHash = getSequencesSHA256 crypto tx ∧
    (ofTx crypto tx spentOutputs).outputsSingleHash = getOutputsSHA256 crypto tx := by
  simp only [ofTx] at h ⊢
  split_ifs at h ⊢ with hw hl hl <;> simp_all

end PrecomputedTransactionData

def sighashDefault : UInt8 := 0
def sighashAll : UInt8 := 1
def sighashNone : UInt8 := 2
def sighashSingle : UInt8 := 3
def sighashAnyonecanpay : UInt8 := 0x80
def sighashOutputMask : UInt8 := 3

variable (hashType : UInt8)

def outputType : UInt8 :=
  if hashType = sighashDefault then sighashAll else hashType &&& sighashOutputMask

def anyoneCanPay : Bool := hashType &&& sighashAnyonecanpay ≠ 0

/-- The hash types that a taproot signature may have. -/
def isSchnorrHashType : Bool :=
  hashType = sighashDefault ||
    (hashType &&& ~~~(sighashAnyonecanpay ||| sighashOutputMask) = 0 &&
      (hashType &&& sighashOutputMask = sighashAll || hashType &&& sighashOutputMask = sighashNone ||
        hashType &&& sighashOutputMask = sighashSingle))

variable (sigversion : SigVersion)

def spendType (annexPresent : Bool) : UInt8 :=
  let extFlag : UInt8 := if sigversion = .tapscript then 1 else 0
  (extFlag <<< 1) ||| (if annexPresent then 1 else 0)

def allInputs (cache : PrecomputedTransactionData) : List UInt8 :=
  if anyoneCanPay hashType then []
  else cache.prevoutsSingleHash ++ (cache.spentAmountsSingleHash ++
    (cache.spentScriptsSingleHash ++ cache.sequencesSingleHash))

def allOutputs (cache : PrecomputedTransactionData) : List UInt8 :=
  if outputType hashType ≠ sighashNone ∧ outputType hashType ≠ sighashSingle then
    cache.outputsSingleHash
  else []

/-- The input that is signed for, or only its position. -/
def thisInput (txin : CTxIn) (spent : CTxOut) (inPos : ℕ) : List UInt8 :=
  if anyoneCanPay hashType then
    txin.prevout.serialize ++ (spent.serialize ++ writeLE 4 txin.nSequence)
  else writeLE 4 inPos

def annexField (execdata : ScriptExecutionData) : Option (List UInt8) :=
  if execdata.annexPresent then
    if execdata.annexInit then some execdata.annexHash else none
  else some []

variable (crypto : Crypto)

def singleOutput (hashType : UInt8) (tx : CTransaction) (inPos : ℕ) : Option (List UInt8) :=
  if outputType hashType = sighashSingle then
    tx.vout[inPos]?.map fun txout => crypto.sha256 txout.serialize
  else some []

variable (execdata : ScriptExecutionData)

def leafFields : Option (List UInt8) :=
  if sigversion = .tapscript then
    if execdata.tapleafHashInit && execdata.codeseparatorPosInit then
      some (execdata.tapleafHash ++ (0 :: writeLE 4 execdata.codeseparatorPos))
    else none
  else some []

/-- What `SignatureHashSchnorr` writes to the hasher behind the tag; it starts with the epoch. -/
def schnorrMessage (tx : CTransaction) (inPos : ℕ) (hashType : UInt8) (sigversion : SigVersion)
    (cache : PrecomputedTransactionData) : Option (List UInt8) := do
  let txin ← tx.vin[inPos]?
  guard (sigversion = .taproot ∨ sigversion = .tapscript)
  guard (cache.bip341TaprootReady = true)
  guard (isSchnorrHashType hashType = true)
  guard (anyoneCanPay hashType = true ∨ cache.spentOutputs.length = tx.vin.length)
  let annex ← annexField execdata
  let single ← singleOutput crypto hashType tx inPos
  let leaf ← leafFields sigversion execdata
  -- a cache that is ready has an output for each input
  let spent := cache.spentOutputs.getD inPos .null
  return 0 :: hashType :: (writeInt 4 tx.nVersion ++ (writeLE 4 tx.nLockTime ++
    (allInputs hashType cache ++ (allOutputs hashType cache ++
      (spendType sigversion execdata.annexPresent :: (thisInput hashType txin spent inPos ++
        (annex ++ (single ++ leaf))))))))

def tapSighashTag : List Char := ['T', 'a', 'p', 'S', 'i', 'g', 'h', 'a', 's', 'h']

/-- No hash if the function returns false. -/
def signatureHashSchnorr (tx : CTransaction) (inPos : ℕ) (hashType : UInt8)
    (sigversion : SigVersion) (cache : PrecomputedTransactionData) : Option Valtype :=
  (schnorrMessage crypto execdata tx inPos hashType sigversion cache).map
    (crypto.taggedHash tapSighashTag)

/-- The arguments of a call, with the outputs from which its cache is made. -/
structure SchnorrCall where
  execdata : ScriptExecutionData
  tx : CTransaction
  inPos : ℕ
  hashType : UInt8
  sigversion : SigVersion
  spentOutputs : List CTxOut

namespace SchnorrCall
section Hashing
variable (crypto : Crypto) (call : SchnorrCall)

def cache : PrecomputedTransactionData := .ofTx crypto call.tx call.spentOutputs

def message : Option (List UInt8) :=
  schnorrMessage crypto call.execdata call.tx call.inPos call.hashType call.sigversion
    (call.cache crypto)

def hashOut : Option Valtype :=
  signatureHashSchnorr crypto call.execdata call.tx call.inPos call.hashType call.sigversion
    (call.cache crypto)

def hashedStrings : List (List UInt8) :=
  let taghash := crypto.sha256 (tapSighashTag.map fun c => UInt8.ofNat c.toNat)
  [call.tx.vin.flatMap (·.prevout.serialize), call.tx.vin.flatMap (writeLE 4 ·.nSequence),
    call.tx.vout.flatMap CTxOut.serialize, call.spentOutputs.flatMap (writeInt 8 ·.nValue),
    call.spentOutputs.flatMap (serializeVch ·.scriptPubKey)] ++
  (if outputType call.hashType = sighashSingle then
    call.tx.vout[call.inPos]?.toList.map CTxOut.serialize else []) ++
  (call.message crypto).toList.map (taghash ++ taghash ++ ·)

end Hashing

/-- The values fit their types. -/
structure InRange (call : SchnorrCall) : Prop where
  tx : call.tx.InRange
  spentOutputs : ∀ txout ∈ call.spentOutputs, txout.InRange
  inPos : call.inPos < 2 ^ 32
  annexHash : call.execdata.annexHash.length = 32
  tapleafHash : call.execdata.tapleafHash.length = 32
  codeseparatorPos : call.execdata.codeseparatorPos < 2 ^ 32

/-- Two calls that agree on what their hash type signs. -/
structure SignsSame (crypto : Crypto) (call call' : SchnorrCall) : Prop where
  hashType : call.hashType = call'.hashType
  sigversion : call.sigversion = call'.sigversion
  annexPresent : call.execdata.annexPresent = call'.execdata.annexPresent
  annexHash : call.execdata.annexPresent = true →
    call.execdata.annexHash = call'.execdata.annexHash
  annex : call.execdata.annexPresent = true → ∀ annex annex' : Valtype,
    annex.length < 2 ^ 64 → annex'.length < 2 ^ 64 →
    call.execdata.annexHash = crypto.sha256 (serializeVch annex) →
    call'.execdata.annexHash = crypto.sha256 (serializeVch annex') →
    Set.InjOn crypto.sha256 {serializeVch annex, serializeVch annex'} → annex = annex'
  nVersion : call.tx.nVersion = call'.tx.nVersion
  nLockTime : call.tx.nLockTime = call'.tx.nLockTime
  allInputs : anyoneCanPay call.hashType = false → call.inPos = call'.inPos ∧
    call.tx.vin.map (·.prevout) = call'.tx.vin.map (·.prevout) ∧
    call.spentOutputs.map (·.nValue) = call'.spentOutputs.map (·.nValue) ∧
    call.spentOutputs.map (·.scriptPubKey) = call'.spentOutputs.map (·.scriptPubKey) ∧
    call.tx.vin.map (·.nSequence) = call'.tx.vin.map (·.nSequence)
  thisInput : anyoneCanPay call.hashType = true →
    call.tx.vin[call.inPos]?.map (·.prevout) = call'.tx.vin[call'.inPos]?.map (·.prevout) ∧
    call.spentOutputs[call.inPos]? = call'.spentOutputs[call'.inPos]? ∧
    call.tx.vin[call.inPos]?.map (·.nSequence) = call'.tx.vin[call'.inPos]?.map (·.nSequence)
  allOutputs : outputType call.hashType = sighashAll → call.tx.vout = call'.tx.vout
  singleOutput : outputType call.hashType = sighashSingle →
    call.tx.vout[call.inPos]? = call'.tx.vout[call'.inPos]?
  leaf : call.sigversion = .tapscript →
    call.execdata.tapleafHash = call'.execdata.tapleafHash ∧
    call.execdata.codeseparatorPos = call'.execdata.codeseparatorPos

/-- Two calls on values of the machine types, and among the strings that are hashed for them no
collision. -/
structure CollisionFree (crypto : Crypto) (call call' : SchnorrCall) : Prop where
  left : call.InRange
  right : call'.InRange
  length_sha256 : ∀ s, (crypto.sha256 s).length = 32
  injOn : Set.InjOn crypto.sha256
    {s | s ∈ call.hashedStrings crypto ++ call'.hashedStrings crypto}

variable {crypto : Crypto} {call call' : SchnorrCall} {m r s : List UInt8}

theorem message_eq_some (h : call.message crypto = some m) :
    ∃ txin annex single leaf, call.tx.vin[call.inPos]? = some txin ∧
      (call.sigversion = .taproot ∨ call.sigversion = .tapscript) ∧
      (call.cache crypto).bip341TaprootReady ∧ isSchnorrHashType call.hashType ∧
      annexField call.execdata = some annex ∧
      singleOutput crypto call.hashType call.tx call.inPos = some single ∧
      leafFields call.sigversion call.execdata = some leaf ∧
      m = 0 :: call.hashType :: (writeInt 4 call.tx.nVersion ++ (writeLE 4 call.tx.nLockTime ++
        (allInputs call.hashType (call.cache crypto) ++
          (allOutputs call.hashType (call.cache crypto) ++
            (spendType call.sigversion call.execdata.annexPresent ::
              (thisInput call.hashType txin (call.spentOutputs.getD call.inPos .null)
                call.inPos ++ (annex ++ (single ++ leaf)))))))) := by
  simp only [message, schnorrMessage, cache, bind_eq_bind, bind_eq_some_iff,
    Option.guard_eq_some', Option.pure_def, Option.some.injEq,
    PrecomputedTransactionData.ofTx_spentOutputs] at h
  obtain ⟨txin, ht, _, hsi, _, hr, _, hty, _, -, annex, ha, single, hs, leaf, hl, rfl⟩ := h
  exact ⟨txin, annex, single, leaf, ht, hsi, (Option.guard_eq_some' _).mp hr, hty, ha, hs, hl, rfl⟩

theorem hashOut_eq_some {hash : Valtype} (h : call.hashOut crypto = some hash) :
    ∃ m, call.message crypto = some m ∧ crypto.taggedHash tapSighashTag m = hash :=
  map_eq_some_iff.mp h

theorem getElem?_spentOutputs {txin : CTxIn} (hr : (call.cache crypto).bip341TaprootReady)
    (ht : call.tx.vin[call.inPos]? = some txin) :
    call.spentOutputs[call.inPos]? = some (call.spentOutputs.getD call.inPos .null) := by
  have hl := PrecomputedTransactionData.length_of_ofTx_ready hr
  have hlt : call.inPos < call.spentOutputs.length :=
    hl.symm ▸ (List.getElem?_eq_some_iff.mp ht).1
  rw [getElem?_eq_getElem hlt, getD_eq_getElem _ _ hlt]

theorem spendType_inj {sigversion sigversion' : SigVersion} {annex annex' : Bool}
    (hs : sigversion = .taproot ∨ sigversion = .tapscript)
    (hs' : sigversion' = .taproot ∨ sigversion' = .tapscript)
    (h : spendType sigversion annex = spendType sigversion' annex') :
    sigversion = sigversion' ∧ annex = annex' := by
  rcases hs with rfl | rfl <;> rcases hs' with rfl | rfl <;> revert annex annex' <;> decide

namespace CollisionFree
variable (h : CollisionFree crypto call call')

include h

theorem selfDelimiting :
    SelfDelimiting (· ∈ call.hashedStrings crypto ++ call'.hashedStrings crypto) crypto.sha256 :=
  .of_length (fun a _ => h.length_sha256 a) fun _ _ ha hb hab => h.injOn ha hb hab

theorem sha256_inj {a b : List UInt8} (ha : a ∈ call.hashedStrings crypto)
    (hb : b ∈ call'.hashedStrings crypto) (he : crypto.sha256 a ++ r = crypto.sha256 b ++ s) :
    a = b ∧ r = s :=
  h.selfDelimiting a b r s (mem_append_left _ ha) (mem_append_right _ hb) he

theorem message_eq {m' : List UInt8} (hm : call.message crypto = some m)
    (hm' : call'.message crypto = some m')
    (he : crypto.taggedHash tapSighashTag m = crypto.taggedHash tapSighashTag m') : m = m' := by
  refine append_cancel_left (h.injOn ?_ ?_ he) <;> simp [hashedStrings, hm, hm']

theorem of_allInputs {hashType : UInt8} (hr : (call.cache crypto).bip341TaprootReady)
    (hr' : (call'.cache crypto).bip341TaprootReady)
    (he : allInputs hashType (call.cache crypto) ++ r =
      allInputs hashType (call'.cache crypto) ++ s) :
    (anyoneCanPay hashType = false → call.tx.vin.map (·.prevout) = call'.tx.vin.map (·.prevout) ∧
      call.spentOutputs.map (·.nValue) = call'.spentOutputs.map (·.nValue) ∧
      call.spentOutputs.map (·.scriptPubKey) = call'.spentOutputs.map (·.scriptPubKey) ∧
      call.tx.vin.map (·.nSequence) = call'.tx.vin.map (·.nSequence)) ∧ r = s := by
  cases ho : anyoneCanPay hashType with
  | true =>
    rw [allInputs, allInputs, if_pos ho, if_pos ho] at he
    exact ⟨nofun, he⟩
  | false =>
    obtain ⟨hp, ham, hsr, hse, -⟩ := PrecomputedTransactionData.ofTx_of_ready hr
    obtain ⟨hp', ham', hsr', hse', -⟩ := PrecomputedTransactionData.ofTx_of_ready hr'
    simp only [allInputs, ho, Bool.false_eq_true, if_false, append_assoc, cache, hp, ham,
      hsr, hse, hp', ham', hsr', hse'] at he
    obtain ⟨hpr, he⟩ := h.sha256_inj (by simp [hashedStrings]) (by simp [hashedStrings]) he
    obtain ⟨ha, he⟩ := h.sha256_inj (by simp [hashedStrings]) (by simp [hashedStrings]) he
    obtain ⟨hsc, he⟩ := h.sha256_inj (by simp [hashedStrings]) (by simp [hashedStrings]) he
    obtain ⟨hs, he⟩ :=
      h.sha256_inj (by simp [hashedStrings]) (by simp [hashedStrings]) he
    refine ⟨fun _ => ⟨?_, ?_, ?_, ?_⟩, he⟩
    · exact selfDelimiting_outpoint.map_eq_of_flatMap_eq
        (fun o _ => append_ne_nil_of_right_ne_nil _ (writeLE_ne_nil (by decide) _))
        (fun txin htx => (h.left.tx.2.2.1.2 txin htx).1)
        (fun txin htx => (h.right.tx.2.2.1.2 txin htx).1) hpr
    · exact (selfDelimiting_writeInt 8 (N := 2 ^ 63) (by norm_num)).map_eq_of_flatMap_eq
        (fun _ _ => writeLE_ne_nil (by decide) _)
        (fun t ht => (h.left.spentOutputs t ht).1)
        (fun t ht => (h.right.spentOutputs t ht).1) ha
    · exact selfDelimiting_serializeVch.map_eq_of_flatMap_eq (fun vch _ => serializeVch_ne_nil vch)
        (fun t ht => (h.left.spentOutputs t ht).2)
        (fun t ht => (h.right.spentOutputs t ht).2) hsc
    · exact (selfDelimiting_writeLE 4).map_eq_of_flatMap_eq
        (fun _ _ => writeLE_ne_nil (by decide) _)
        (fun txin htx => (h.left.tx.2.2.1.2 txin htx).2.2.1)
        (fun txin htx => (h.right.tx.2.2.1.2 txin htx).2.2.1) hs

theorem of_allOutputs {hashType : UInt8} (hr : (call.cache crypto).bip341TaprootReady)
    (hr' : (call'.cache crypto).bip341TaprootReady)
    (he : allOutputs hashType (call.cache crypto) ++ r =
      allOutputs hashType (call'.cache crypto) ++ s) :
    (outputType hashType = sighashAll → call.tx.vout = call'.tx.vout) ∧ r = s := by
  by_cases ha : outputType hashType ≠ sighashNone ∧ outputType hashType ≠ sighashSingle
  · obtain ⟨-, -, -, -, ho⟩ := PrecomputedTransactionData.ofTx_of_ready hr
    obtain ⟨-, -, -, -, ho'⟩ := PrecomputedTransactionData.ofTx_of_ready hr'
    rw [allOutputs, allOutputs, if_pos ha, if_pos ha, cache, cache, ho, ho'] at he
    obtain ⟨hv, he⟩ := h.sha256_inj (by simp [hashedStrings]) (by simp [hashedStrings]) he
    refine ⟨fun _ => selfDelimiting_txout.flatMap_injOn (fun t _ => ?_) h.left.tx.2.2.2.2
      h.right.tx.2.2.2.2 hv, he⟩
    exact append_ne_nil_of_right_ne_nil _ (serializeVch_ne_nil _)
  · rw [allOutputs, allOutputs, if_neg ha, if_neg ha] at he
    refine ⟨fun ht => absurd ?_ ha, he⟩
    rw [ht]
    decide

theorem of_thisInput {hashType : UInt8} {txin txin' : CTxIn} {spent spent' : CTxOut}
    (ht : txin ∈ call.tx.vin) (ht' : txin' ∈ call'.tx.vin)
    (hs : spent ∈ call.spentOutputs) (hs' : spent' ∈ call'.spentOutputs)
    (he : thisInput hashType txin spent call.inPos ++ r =
      thisInput hashType txin' spent' call'.inPos ++ s) :
    (anyoneCanPay hashType = false → call.inPos = call'.inPos) ∧
      (anyoneCanPay hashType → txin.prevout = txin'.prevout ∧ spent = spent' ∧
        txin.nSequence = txin'.nSequence) ∧ r = s := by
  have hi := h.left.tx.2.2.1.2 txin ht
  have hi' := h.right.tx.2.2.1.2 txin' ht'
  cases ho : anyoneCanPay hashType with
  | true =>
    simp only [thisInput, ho, if_true, append_assoc] at he
    obtain ⟨hp, he⟩ := selfDelimiting_outpoint _ _ _ _ hi.1 hi'.1 he
    obtain ⟨hou, he⟩ := selfDelimiting_txout _ _ _ _ (h.left.spentOutputs spent hs)
      (h.right.spentOutputs spent' hs') he
    obtain ⟨hse, he⟩ := selfDelimiting_writeLE 4 _ _ _ _ hi.2.2.1 hi'.2.2.1 he
    exact ⟨nofun, fun _ => ⟨hp, hou, hse⟩, he⟩
  | false =>
    simp only [thisInput, ho, Bool.false_eq_true, if_false] at he
    obtain ⟨hpo, he⟩ := selfDelimiting_writeLE 4 _ _ _ _ h.left.inPos h.right.inPos he
    exact ⟨fun _ => hpo, nofun, he⟩

theorem of_annexField {annex annex' : List UInt8}
    (hpr : call.execdata.annexPresent = call'.execdata.annexPresent)
    (ha : annexField call.execdata = some annex)
    (ha' : annexField call'.execdata = some annex') (he : annex ++ r = annex' ++ s) :
    (call.execdata.annexPresent → call.execdata.annexHash = call'.execdata.annexHash) ∧ r = s := by
  unfold annexField at ha ha'
  rw [← hpr] at ha'
  split_ifs at ha ha' with hp <;> simp only [Option.some.injEq] at ha ha'
  · rw [← ha, ← ha'] at he
    obtain ⟨hh, he⟩ := append_inj he (h.left.annexHash.trans h.right.annexHash.symm)
    exact ⟨fun _ => hh, he⟩
  · rw [← ha, ← ha'] at he
    exact ⟨fun hp' => absurd hp' hp, he⟩

theorem of_singleOutput {single single' : List UInt8} (hty : call.hashType = call'.hashType)
    (hsi : singleOutput crypto call.hashType call.tx call.inPos = some single)
    (hsi' : singleOutput crypto call'.hashType call'.tx call'.inPos = some single')
    (he : single ++ r = single' ++ s) :
    (outputType call.hashType = sighashSingle →
      call.tx.vout[call.inPos]? = call'.tx.vout[call'.inPos]?) ∧ r = s := by
  unfold singleOutput at hsi hsi'
  rw [← hty] at hsi'
  by_cases hs : outputType call.hashType = sighashSingle
  · rw [if_pos hs, map_eq_some_iff] at hsi hsi'
    obtain ⟨txout, ht, rfl⟩ := hsi
    obtain ⟨txout', ht', rfl⟩ := hsi'
    obtain ⟨hse, he⟩ := h.sha256_inj (by simp [hashedStrings, hs, ht])
      (by simp [hashedStrings, ← hty, hs, ht']) he
    refine ⟨fun _ => ?_, he⟩
    rw [ht, ht', selfDelimiting_txout.injOn
      (h.left.tx.2.2.2.2 txout (mem_of_getElem? ht))
      (h.right.tx.2.2.2.2 txout' (mem_of_getElem? ht')) hse]
  · rw [if_neg hs, Option.some.injEq] at hsi hsi'
    rw [← hsi, ← hsi'] at he
    exact ⟨fun hs' => absurd hs' hs, he⟩

theorem of_leafFields {leaf : List UInt8} (hsi : call.sigversion = call'.sigversion)
    (hl : leafFields call.sigversion call.execdata = some leaf)
    (hl' : leafFields call'.sigversion call'.execdata = some leaf)
    (hs : call.sigversion = .tapscript) :
    call.execdata.tapleafHash = call'.execdata.tapleafHash ∧
      call.execdata.codeseparatorPos = call'.execdata.codeseparatorPos := by
  unfold leafFields at hl hl'
  rw [← hsi, if_pos hs] at hl'
  rw [if_pos hs] at hl
  split_ifs at hl hl'
  rw [Option.some.injEq] at hl hl'
  rw [← hl'] at hl
  obtain ⟨hh, hp⟩ :=
    append_inj hl (h.left.tapleafHash.trans h.right.tapleafHash.symm)
  exact ⟨hh, (selfDelimiting_writeLE 4).injOn h.left.codeseparatorPos h.right.codeseparatorPos
    (List.cons.inj hp).2⟩

end CollisionFree

/-- A taproot signature commits to all that its hash type names. -/
theorem signsSame_of_hashOut_eq (h : CollisionFree crypto call call') {hash : Valtype}
    (hout : call.hashOut crypto = some hash) (hout' : call'.hashOut crypto = some hash) :
    SignsSame crypto call call' := by
  obtain ⟨m, hm, hta⟩ := hashOut_eq_some hout
  obtain ⟨m', hm', hta'⟩ := hashOut_eq_some hout'
  obtain rfl := h.message_eq hm hm' (hta.trans hta'.symm)
  obtain ⟨txin, annex, single, leaf, ht, hsg, hr, -, han, hse, hl, rfl⟩ :=
    message_eq_some hm
  obtain ⟨txin', annex', single', leaf', ht', hsg', hr', -, han', hse', hl',
    he⟩ := message_eq_some hm'
  have hs := getElem?_spentOutputs hr ht
  have hs' := getElem?_spentOutputs hr' ht'
  rw [List.cons.injEq, List.cons.injEq] at he
  obtain ⟨-, hh, he⟩ := he
  obtain ⟨hv, he⟩ :=
    selfDelimiting_writeInt 4 (N := 2 ^ 31) (by norm_num) _ _ _ _ h.left.tx.1 h.right.tx.1 he
  obtain ⟨hlo, he⟩ := selfDelimiting_writeLE 4 _ _ _ _ h.left.tx.2.1 h.right.tx.2.1 he
  rw [← hh] at he
  obtain ⟨hi, he⟩ := h.of_allInputs hr hr' he
  obtain ⟨hou, he⟩ := h.of_allOutputs hr hr' he
  obtain ⟨hsp, he⟩ := List.cons.inj he
  obtain ⟨hsi, hpr⟩ := spendType_inj hsg hsg' hsp
  obtain ⟨hpo, hth, he⟩ := h.of_thisInput (mem_of_getElem? ht)
    (mem_of_getElem? ht') (mem_of_getElem? hs) (mem_of_getElem? hs') he
  obtain ⟨hah, he⟩ := h.of_annexField hpr han han' he
  obtain ⟨hvo, rfl⟩ := h.of_singleOutput hh hse hse' he
  exact {
    hashType := hh
    sigversion := hsi
    annexPresent := hpr
    annexHash := hah
    annex := fun hp a a' ha ha' hha hha' hij =>
      selfDelimiting_serializeVch.injOn ha ha' (hij (by simp) (by simp)
        (hha.symm.trans ((hah hp).trans hha')))
    nVersion := hv
    nLockTime := hlo
    allInputs := fun ho => ⟨hpo ho, hi ho⟩
    thisInput := fun ho => by
      obtain ⟨hpt, hout, hsq⟩ := hth ho
      rw [ht, ht', hs, hs', hout]
      exact ⟨congrArg some hpt, rfl, congrArg some hsq⟩
    allOutputs := hou
    singleOutput := hvo
    leaf := h.of_leafFields hsi hl hl' }

/-- A script path spend with an annex; the witness of the input is given. -/
def sampleCall (scriptWitness : List (List UInt8)) : SchnorrCall where
  execdata :=
    { tapleafHashInit := true, tapleafHash := unsetHash, codeseparatorPosInit := true
      annexInit := true, annexPresent := true, annexHash := unsetHash }
  tx := ⟨[⟨⟨7, 1⟩, [], 0xffffffff, scriptWitness⟩], [⟨40, [0x51]⟩], 2, 0, 0⟩
  inPos := 0
  hashType := sighashSingle
  sigversion := .tapscript
  spentOutputs := [⟨50, [0x51, 0x20]⟩]

def sampleCrypto : Crypto where
  ripemd160 := id
  sha1 := id
  sha256 vch := writeLE 32 (readLE vch + 2 ^ 240 * vch.length)
  checkLowS _ := true
  xonlyPubkeyParse _ := true
  xonlyPubkeyTweakAddCheck _ _ _ _ := true

/-- The witness itself is not signed. -/
theorem signsSame_of_hashOut_eq_sample : (sampleCall [[1]]).tx ≠ (sampleCall [[2]]).tx ∧
      SignsSame sampleCrypto (sampleCall [[1]]) (sampleCall [[2]]) := by
  have hf : CollisionFree sampleCrypto (sampleCall [[1]]) (sampleCall [[2]]) := by
    refine ⟨⟨by decide, by decide, by decide, by decide, by decide, by decide⟩,
      ⟨by decide, by decide, by decide, by decide, by decide, by decide⟩,
      fun s => length_writeLE 32 _, ?_⟩
    have hi : ∀ s ∈ hashedStrings sampleCrypto (sampleCall [[1]]) ++
        hashedStrings sampleCrypto (sampleCall [[2]]),
        ∀ t ∈ hashedStrings sampleCrypto (sampleCall [[1]]) ++
          hashedStrings sampleCrypto (sampleCall [[2]]),
        sampleCrypto.sha256 s = sampleCrypto.sha256 t → s = t := by decide +kernel
    exact fun s hs t ht => hi s hs t ht
  have ho : ((sampleCall [[1]]).hashOut sampleCrypto).isSome = true := by decide +kernel
  obtain ⟨hash, hh⟩ := isSome_iff_exists.mp ho
  have hsa : (sampleCall [[2]]).hashOut sampleCrypto =
      (sampleCall [[1]]).hashOut sampleCrypto := by decide +kernel
  exact ⟨by decide, signsSame_of_hashOut_eq hf hh (hsa.trans hh)⟩

end SchnorrCall

end Palladium
