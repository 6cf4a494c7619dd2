import Palladium.Script.Signing

/-! # The signatures that are asked for

While it solves a script, `ProduceSignature` asks its creator for signatures.
-/

namespace Palladium
open List

/-- What `CreateSig` of the creator is asked for. -/
structure SigRequest where
  keyid : Valtype
  scriptCode : CScript
  sigversion : SigVersion

section Requests
variable (crypto : Crypto) (curve : Curve) (provider : SigningProvider)
  (creator : SignatureCreator)

/-- A signature that is known is not asked for. -/
def createSigRequests (sigdata : SignatureData) (pubkey : CPubKey) (scriptcode : CScript)
    (sigversion : SigVersion) : List SigRequest :=
  if (sigdata.signatures.lookup (pubkey.getID crypto)).isSome then []
  else [⟨pubkey.getID crypto, scriptcode, sigversion⟩]

def signKeysRequests (scriptPubKey : CScript) (sigversion : SigVersion) :
    (pubkeys : List Valtype) → SignatureData → List SigRequest
  | [], _ => []
  | vch :: pubkeys, sigdata =>
    createSigRequests crypto sigdata (.ofVch vch) scriptPubKey sigversion ++
      signKeysRequests scriptPubKey sigversion pubkeys
        (createSig crypto provider creator sigdata (.ofVch vch) scriptPubKey sigversion).2

def signStepRequests (scriptPubKey : CScript) (sigversion : SigVersion)
    (sigdata : SignatureData) : List SigRequest :=
  match solver scriptPubKey with
  | .pubkey vch => createSigRequests crypto sigdata (.ofVch vch) scriptPubKey sigversion
  | .pubkeyhash keyID =>
    match lookupPubKey provider sigdata keyID with
    | none => []
    | some pubkey => createSigRequests crypto sigdata pubkey scriptPubKey sigversion
  | .multisig _ pubkeys =>
    signKeysRequests crypto provider creator scriptPubKey sigversion pubkeys sigdata
  | .witnessV1Taproot program =>
    match findTaprootPubKey crypto curve provider program with
    | none => []
    | some pubkey => createSigRequests crypto sigdata pubkey [] .taproot
  | _ => []

def redeemScriptRequests (s : SignState) : List SigRequest :=
  if s.solved && s.whichType.isScripthash then
    signStepRequests crypto curve provider creator (s.result.headD []) .base
      { s.sigdata with redeemScript := s.result.headD [] }
  else []

def witnessRequests (s : SignState) : List SigRequest :=
  if s.solved then
    match s.whichType with
    | .witnessV0Keyhash _ => signStepRequests crypto curve provider creator
        (payToPubkeyHash (s.result.headD [])) .witnessV0 s.sigdata
    | .witnessV0Scripthash _ => signStepRequests crypto curve provider creator
        (s.result.headD []) .witnessV0 { s.sigdata with witnessScript := s.result.headD [] }
    | _ => []
  else []

def produceSignatureRequests (fromPubKey : CScript) (sigdata : SignatureData) : List SigRequest :=
  if sigdata.complete then []
  else
    let s := beginSigning crypto curve provider creator fromPubKey sigdata
    signStepRequests crypto curve provider creator fromPubKey .base sigdata ++
      (redeemScriptRequests crypto curve provider creator s ++
        witnessRequests crypto curve provider creator
          (signRedeemScript crypto curve provider creator s))

def SameAnswers (creator creator' : SignatureCreator) (requests : List SigRequest) : Prop :=
  ∀ r ∈ requests, creator.createSig provider r.keyid r.scriptCode r.sigversion =
    creator'.createSig provider r.keyid r.scriptCode r.sigversion

variable {crypto curve provider creator} {creator' : SignatureCreator} {sigdata : SignatureData}
  {sigversion : SigVersion}

theorem sameAnswers_append {l l' : List SigRequest} :
    SameAnswers provider creator creator' (l ++ l') ↔
      SameAnswers provider creator creator' l ∧ SameAnswers provider creator creator' l' :=
  forall_mem_append

variable {pubkey : CPubKey} {scriptcode scriptPubKey fromPubKey : CScript}
  {pubkeys ret : List Valtype} {required : ℕ} {s : SignState} {r : SigRequest}

theorem createSig_congr (h : SameAnswers provider creator creator'
      (createSigRequests crypto sigdata pubkey scriptcode sigversion)) :
    createSig crypto provider creator sigdata pubkey scriptcode sigversion =
      createSig crypto provider creator' sigdata pubkey scriptcode sigversion := by
  unfold createSig
  cases hk : sigdata.signatures.lookup (pubkey.getID crypto) with
  | some known => simp only [hk]
  | none =>
    have hs := h ⟨pubkey.getID crypto, scriptcode, sigversion⟩
      (by simp [createSigRequests, hk])
    simp only [hs]

theorem signKeys_congr (h : SameAnswers provider creator creator'
      (signKeysRequests crypto provider creator scriptPubKey sigversion pubkeys sigdata)) :
    signKeys crypto provider creator scriptPubKey sigversion required pubkeys ret sigdata =
      signKeys crypto provider creator' scriptPubKey sigversion required pubkeys ret sigdata := by
  induction pubkeys generalizing ret sigdata with
  | nil => rfl
  | cons vch pubkeys ih =>
    obtain ⟨hf, hr⟩ := sameAnswers_append.mp h
    rw [signKeys, signKeys, createSig_congr hf]
    rw [createSig_congr hf] at hr
    exact ih hr

theorem signStep_congr (h : SameAnswers provider creator creator'
      (signStepRequests crypto curve provider creator scriptPubKey sigversion sigdata)) :
    signStep crypto curve provider creator scriptPubKey sigversion sigdata =
      signStep crypto curve provider creator' scriptPubKey sigversion sigdata := by
  unfold signStepRequests at h
  unfold signStep
  cases hs : solver scriptPubKey with
  | nonstandard | nullData | witnessUnknown | scripthash | witnessV0Keyhash
    | witnessV0Scripthash => rfl
  | pubkey vch =>
    rw [hs] at h
    simp only [createSig_congr h]
  | pubkeyhash keyID =>
    rw [hs] at h
    cases hp : lookupPubKey provider sigdata keyID with
    | none => simp only [hp]
    | some pubkey =>
      simp only [hp] at h
      simp only [hp, createSig_congr h]
  | multisig required pubkeys =>
    rw [hs] at h
    simp only [signKeys_congr h]
  | witnessV1Taproot program =>
    rw [hs] at h
    cases hp : findTaprootPubKey crypto curve provider program with
    | none => simp only [hp]
    | some pubkey =>
      simp only [hp] at h
      simp only [hp, createSig_congr h]

theorem signRedeemScript_congr (h : SameAnswers provider creator creator'
      (redeemScriptRequests crypto curve provider creator s)) :
    signRedeemScript crypto curve provider creator s =
      signRedeemScript crypto curve provider creator' s := by
  unfold redeemScriptRequests at h
  unfold signRedeemScript
  split
  next hp2sh =>
    rw [if_pos hp2sh] at h
    simp only [signStep_congr h]
  next => rfl

theorem signWitness_congr
    (h : SameAnswers provider creator creator' (witnessRequests crypto curve provider creator s)) :
    signWitness crypto curve provider creator s = signWitness crypto curve provider creator' s := by
  unfold witnessRequests at h
  unfold signWitness
  split
  next hs =>
    rw [if_pos hs] at h
    split
    next he =>
      simp only [he] at h
      simp only [signStep_congr h]
    next he =>
      simp only [he] at h
      simp only [signStep_congr h]
    all_goals rfl
  next => rfl

theorem produceSignature_congr (hc : creator.checker = creator'.checker)
    (h : SameAnswers provider creator creator'
      (produceSignatureRequests crypto curve provider creator fromPubKey sigdata)) :
    produceSignature crypto curve provider creator fromPubKey sigdata =
      produceSignature crypto curve provider creator' fromPubKey sigdata := by
  unfold produceSignatureRequests at h
  unfold produceSignature
  split
  next => rfl
  next ho =>
    rw [if_neg ho] at h
    obtain ⟨hb, hre⟩ := sameAnswers_append.mp h
    obtain ⟨hr, hw⟩ := sameAnswers_append.mp hre
    have hf : beginSigning crypto curve provider creator fromPubKey sigdata =
        beginSigning crypto curve provider creator' fromPubKey sigdata := by
      simp only [beginSigning, signStep_congr hb]
    rw [← hf, ← signRedeemScript_congr hr, ← signWitness_congr hw]
    simp only [finishSigning, hc]

/-! ## Versions

A request is made for the version of the step it is made in, or for a spend by taproot key. If the
input turns out to be a witness input, the steps before the witness ask for no other signatures.
-/

theorem sigversion_of_mem_createSigRequests
    (hr : r ∈ createSigRequests crypto sigdata pubkey scriptcode sigversion) :
    r.sigversion = sigversion := by
  unfold createSigRequests at hr
  split at hr
  · cases hr
  · rw [mem_singleton.mp hr]

theorem sigversion_of_mem_signKeysRequests
    (hr : r ∈ signKeysRequests crypto provider creator scriptPubKey sigversion pubkeys sigdata) :
    r.sigversion = sigversion := by
  induction pubkeys generalizing sigdata with
  | nil => cases hr
  | cons vch pubkeys ih =>
    rcases mem_append.mp hr with hf | hre
    · exact sigversion_of_mem_createSigRequests hf
    · exact ih hre

theorem sigversion_of_mem_signStepRequests
    (hr : r ∈ signStepRequests crypto curve provider creator scriptPubKey sigversion sigdata) :
    r.sigversion = sigversion ∨ r.sigversion = .taproot := by
  unfold signStepRequests at hr
  split at hr
  · exact .inl (sigversion_of_mem_createSigRequests hr)
  · split at hr
    · cases hr
    · exact .inl (sigversion_of_mem_createSigRequests hr)
  · exact .inl (sigversion_of_mem_signKeysRequests hr)
  · split at hr
    · cases hr
    · exact .inr (sigversion_of_mem_createSigRequests hr)
  · cases hr

def Solution.isWitness : Solution → Bool
  | .witnessV0Keyhash _ | .witnessV0Scripthash _ | .witnessV1Taproot _ | .witnessUnknown .. => true
  | _ => false

theorem sigversion_of_isWitness
    (hf : (solver scriptPubKey).isWitness ∨ (solver scriptPubKey).isScripthash)
    (hr : r ∈ signStepRequests crypto curve provider creator scriptPubKey sigversion sigdata) :
    r.sigversion = .taproot := by
  unfold signStepRequests at hr
  split at hr
  next he => simp [he, Solution.isWitness, Solution.isScripthash] at hf
  next he => simp [he, Solution.isWitness, Solution.isScripthash] at hf
  next he => simp [he, Solution.isWitness, Solution.isScripthash] at hf
  · split at hr
    · cases hr
    · exact sigversion_of_mem_createSigRequests hr
  · cases hr

theorem createSig_witness (sigdata : SignatureData) (pubkey : CPubKey) (scriptcode : CScript) :
    (createSig crypto provider creator sigdata pubkey scriptcode sigversion).2.witness =
      sigdata.witness := by
  unfold createSig
  dsimp only
  split
  · rfl
  · split <;> split <;> rfl

theorem signKeys_witness :
    (signKeys crypto provider creator scriptPubKey sigversion required pubkeys ret sigdata).2.witness =
      sigdata.witness := by
  induction pubkeys generalizing ret sigdata with
  | nil => rfl
  | cons vch pubkeys ih => exact ih.trans (createSig_witness sigdata _ _)

theorem signStep_witness :
    (signStep crypto curve provider creator scriptPubKey sigversion sigdata).2.2.witness =
      sigdata.witness := by
  have hsi : ∀ pubkey s sigversion, ∀ sig sigdata',
      createSig crypto provider creator sigdata pubkey s sigversion = (sig, sigdata') →
        sigdata'.witness = sigdata.witness := by
    intro pubkey s sigversion sig sigdata' h
    rw [← createSig_witness sigdata pubkey s, h]
  unfold signStep
  cases hs : solver scriptPubKey with
  | nonstandard | nullData | witnessUnknown | witnessV0Keyhash => rfl
  | pubkey vch =>
    dsimp only
    split <;> exact hsi _ _ _ _ _ ‹_›
  | pubkeyhash | witnessV1Taproot =>
    dsimp only
    split
    · rfl
    · split <;> exact hsi _ _ _ _ _ ‹_›
  | scripthash | witnessV0Scripthash =>
    dsimp only
    split <;> rfl
  | multisig required pubkeys => exact signKeys_witness

theorem signRedeemScript_witness :
    (signRedeemScript crypto curve provider creator s).sigdata.witness = s.sigdata.witness := by
  unfold signRedeemScript
  split
  · exact signStep_witness
  · rfl

theorem signWitness_witness (ho : s.sigdata.witness = false)
    (h : (signWitness crypto curve provider creator s).sigdata.witness) :
    s.whichType.isWitness := by
  unfold signWitness at h
  split at h
  next =>
    split at h <;> simp_all [Solution.isWitness]
  next => simp_all

theorem sigversion_of_mem_witnessRequests {s : SignState}
    (hr : r ∈ witnessRequests crypto curve provider creator s) :
    r.sigversion = .witnessV0 ∨ r.sigversion = .taproot := by
  unfold witnessRequests at hr
  split at hr
  · split at hr
    · exact sigversion_of_mem_signStepRequests hr
    · exact sigversion_of_mem_signStepRequests hr
    · cases hr
  · cases hr

theorem sigversion_of_witness (ho : sigdata.witness = false)
    (hw : (produceSignature crypto curve provider creator fromPubKey sigdata).witness)
    (hr : r ∈ produceSignatureRequests crypto curve provider creator fromPubKey sigdata) :
    r.sigversion = .witnessV0 ∨ r.sigversion = .taproot := by
  unfold produceSignatureRequests at hr
  unfold produceSignature at hw
  split at hr
  · cases hr
  next hc =>
    rw [if_neg hc] at hw
    have hf := signWitness_witness
      (signRedeemScript_witness.trans (signStep_witness.trans ho)) hw
    rcases mem_append.mp hr with hb | hr
    · -- the output has the form of a witness output or of a script hash
      refine .inr (sigversion_of_isWitness ?_ hb)
      unfold signRedeemScript at hf
      split at hf
      next hp2sh => exact .inr (Bool.and_eq_true_iff.mp hp2sh).2
      next => exact .inl hf
    · rcases mem_append.mp hr with hre | hr
      · unfold redeemScriptRequests at hre
        split at hre
        next hp2sh =>
          rw [signRedeemScript, if_pos hp2sh] at hf
          exact .inr (sigversion_of_isWitness (.inl hf) hre)
        next => cases hre
      · exact sigversion_of_mem_witnessRequests hr

theorem sigversion_of_mem_requests
    (hr : r ∈ produceSignatureRequests crypto curve provider creator fromPubKey sigdata) :
    r.sigversion = .base ∨ r.sigversion = .witnessV0 ∨ r.sigversion = .taproot := by
  unfold produceSignatureRequests at hr
  split at hr
  · cases hr
  · rcases mem_append.mp hr with hb | hr
    · exact (sigversion_of_mem_signStepRequests hb).imp_right .inr
    · rcases mem_append.mp hr with hre | hr
      · unfold redeemScriptRequests at hre
        split at hre
        · exact (sigversion_of_mem_signStepRequests hre).imp_right .inr
        · cases hre
      · exact .inr (sigversion_of_mem_witnessRequests hr)

end Requests

end Palladium
