import Palladium.Lib.Forest
import Palladium.Mempool.Pool
import Palladium.Script.SoftFork

/-! # Script flags of blocks and of the mempool

A block is checked with the flags of the rules active at its height, a transaction that enters the
mempool with the standard flags.
-/

namespace Palladium
open BitVec Except
namespace ScriptFlags

/-- `if (on) flags |= f`. -/
def addIf (flags : ScriptFlags) (on : Bool) (f : ScriptVerify) : ScriptFlags :=
  if on then flags ||| BitVec.twoPow 32 f.bit else flags

def ofList (fs : List ScriptVerify) : ScriptFlags := fs.foldl (fun flags f => flags.addIf true f) 0

variable {f₁ f₂ flags : ScriptFlags} {f g : ScriptVerify} {on on₁ on₂ : Bool}

theorem isSubset_iff : f₁.IsSubset f₂ ↔ ∀ i < 32, f₁.getLsbD i → f₂.getLsbD i := by
  constructor
  · intro h i _ hi
    rw [← h, getLsbD_and, Bool.and_eq_true] at hi
    exact hi.2
  · intro h
    refine eq_of_getLsbD_eq fun i hi => ?_
    rw [getLsbD_and]
    cases h₁ : f₁.getLsbD i with
    | false => rfl
    | true => exact h i hi h₁

theorem getLsbD_addIf {i : ℕ} : (flags.addIf on f).getLsbD i ↔ flags.getLsbD i ∨ on ∧ i = f.bit := by
  have hb : f.bit < 32 := by cases f <;> decide
  unfold addIf
  cases on with
  | false => simp
  | true => simp [getLsbD_or, getLsbD_twoPow, hb, @eq_comm _ i]

theorem bit_injective (h : f.bit = g.bit) : f = g := by
  cases f <;> cases g <;> first | rfl | cases h

theorem has_addIf : (flags.addIf on f).has g ↔ flags.has g ∨ on ∧ g = f := by
  unfold has
  rw [getLsbD_addIf]
  exact or_congr_right (and_congr_right fun _ => ⟨bit_injective, fun h => h ▸ rfl⟩)

@[simp] theorem has_zero (f : ScriptVerify) : has 0#32 f = false := getLsbD_zero

theorem IsSubset.addIf (h : flags.IsSubset f₂) (hf : f₂.has f) : (flags.addIf on f).IsSubset f₂ := by
  refine isSubset_iff.mpr fun i hi hb => ?_
  rcases getLsbD_addIf.mp hb with hfl | ⟨-, rfl⟩
  · exact isSubset_iff.mp h i hi hfl
  · exact hf

theorem IsSubset.addIf_mono (h : f₁.IsSubset f₂) (ho : on₁ → on₂) :
    (f₁.addIf on₁ f).IsSubset (f₂.addIf on₂ f) := by
  refine isSubset_iff.mpr fun i hi hb => getLsbD_addIf.mpr ?_
  rcases getLsbD_addIf.mp hb with hf | ⟨h₁, hif⟩
  · exact Or.inl (isSubset_iff.mp h i hi hf)
  · exact Or.inr ⟨ho h₁, hif⟩

theorem IsSubset.addIf_has_mono (h : f₁.IsSubset f₂) (ho : on₁ → on₂) :
    (f₁.addIf (f₁.has g && on₁) f).IsSubset (f₂.addIf (f₂.has g && on₂) f) := by
  refine h.addIf_mono fun h₁ => ?_
  rw [Bool.and_eq_true] at h₁ ⊢
  exact ⟨h.has g h₁.1, ho h₁.2⟩

end ScriptFlags

def mandatoryScriptVerifyFlags : ScriptFlags := .ofList [.p2sh]

def standardScriptVerifyFlags : ScriptFlags :=
  mandatoryScriptVerifyFlags ||| .ofList
    [.derSig, .strictEnc, .minimalData, .nullDummy, .discourageUpgradableNops, .cleanStack,
     .minimalIf, .nullFail, .checkLockTimeVerify, .checkSequenceVerify, .lowS, .witness,
     .discourageUpgradableWitnessProgram, .witnessPubkeyType, .constScriptCode, .taproot,
     .discourageUpgradableTaprootVersion, .discourageOpSuccess, .discourageUpgradablePubkeyType]

def standardNotMandatoryVerifyFlags : ScriptFlags :=
  standardScriptVerifyFlags &&& ~~~mandatoryScriptVerifyFlags

/-- Block index entries with their hashes; a block that is only a candidate has none. -/
structure IndexTree (ι : Type*) extends Forest ι where
  phashBlock : ι → Option Uint256

section Block
variable {ι : Type*} (T : IndexTree ι) (params : Params)

def isScriptWitnessEnabled : Bool := params.SegwitHeight ≠ 2 ^ 31 - 1

def isWitnessEnabled (pprev : Option ℕ) : Bool := params.SegwitHeight ≤ pprev.elim 0 (· + 1)

def isTaprootEnabled (pprev : Option ℕ) : Bool :=
  pprev.any fun nHeight => params.TaprootHeight ≤ nHeight + 1

variable (pindex : ι)

def isBIP16Exception : Bool :=
  !(params.BIP16Exception = 0 || (T.phashBlock pindex).isNone ||
    T.phashBlock pindex ≠ some params.BIP16Exception)

def getBlockScriptFlags : ScriptFlags :=
  let pprev := (T.parent pindex).map T.height
  let flags := ScriptFlags.addIf 0 (!isBIP16Exception T params pindex) .p2sh
  let flags := flags.addIf (flags.has .p2sh && isScriptWitnessEnabled params) .witness
  let flags := flags.addIf (params.BIP66Height ≤ T.height pindex) .derSig
  let flags := flags.addIf (params.BIP65Height ≤ T.height pindex) .checkLockTimeVerify
  let flags := flags.addIf (params.CSVHeight ≤ T.height pindex) .checkSequenceVerify
  let flags := flags.addIf (isWitnessEnabled params pprev) .nullDummy
  flags.addIf (flags.has .witness && isTaprootEnabled params pprev) .taproot

variable {T params}

theorem getBlockScriptFlags_isSubset :
    (getBlockScriptFlags T params pindex).IsSubset standardScriptVerifyFlags := by
  have hz : ScriptFlags.IsSubset 0 standardScriptVerifyFlags := by decide
  exact (((((((hz.addIf (by decide)).addIf (by decide)).addIf (by decide)).addIf
    (by decide)).addIf (by decide)).addIf (by decide)).addIf (by decide))

theorem getBlockScriptFlags_wellFormed : (getBlockScriptFlags T params pindex).WellFormed := by
  have hcl : ¬ (getBlockScriptFlags T params pindex).has .cleanStack := by
    simp [getBlockScriptFlags, ScriptFlags.has_addIf]
  refine ⟨fun hw => ?_, fun hc => absurd hc hcl, fun hc => absurd hc hcl⟩
  simp [getBlockScriptFlags, ScriptFlags.has_addIf] at hw ⊢
  exact hw.1

variable {b p : ι}

theorem isWitnessEnabled_child (h : T.parent b = some p)
    (ho : isWitnessEnabled params ((T.parent p).map T.height)) :
    isWitnessEnabled params ((T.parent b).map T.height) := by
  simp only [isWitnessEnabled, decide_eq_true_eq, h, Option.map_some, Option.elim_some] at ho ⊢
  refine ho.trans ?_
  cases hp : T.parent p with
  | none => simp
  | some q =>
    have := T.height_parent hp
    simp
    omega

theorem isTaprootEnabled_child (h : T.parent b = some p)
    (ho : isTaprootEnabled params ((T.parent p).map T.height)) :
    isTaprootEnabled params ((T.parent b).map T.height) := by
  unfold isTaprootEnabled at ho ⊢
  rw [h]
  cases hp : T.parent p with
  | none => simp [hp] at ho
  | some q =>
    have := T.height_parent hp
    simp [hp] at ho ⊢
    omega

theorem getBlockScriptFlags_child (h : T.parent b = some p)
    (hb : isBIP16Exception T params b = false) :
    (getBlockScriptFlags T params p).IsSubset (getBlockScriptFlags T params b) := by
  have hh : ∀ {n : ℕ}, decide (n ≤ T.height p) → decide (n ≤ T.height b) := by
    intro n hn
    have := T.height_parent h
    simp only [decide_eq_true_eq] at hn ⊢
    omega
  have hp2sh : !isBIP16Exception T params p → !isBIP16Exception T params b := by
    rw [hb]
    exact fun _ => rfl
  exact .addIf_has_mono (.addIf_mono (.addIf_mono (.addIf_mono (.addIf_mono (.addIf_has_mono
    (.addIf_mono rfl hp2sh) id) hh) hh) hh) (isWitnessEnabled_child h))
    (isTaprootEnabled_child h)

end Block

inductive TxValidationResult
  | resultUnset | consensus | recentConsensusChange | notStandard | missingInputs | prematureSpend
  | witnessMutated | conflict | mempoolPolicy
  deriving DecidableEq, Repr

/-- How the checks of a transaction end: a rejection in the state, a plain `return false`, or what
stops the node. -/
inductive TxHalt
  | invalid (result : TxValidationResult) (rejectReason : String)
  | failed
  | assertion
  | script (h : ScriptHalt)
  deriving DecidableEq, Repr

section Scripts

-- `checker nIn amount` checks the signatures of input `nIn`, which spends `amount`
variable (crypto : Crypto) (checker : ℕ → ℤ → SignatureChecker) (flags : ScriptFlags)

/-- `CScriptCheck::operator()`, with the error that a failed check leaves. -/
def scriptCheck (out : CTxOut) (nIn : ℕ) (txin : CTxIn) : Except TxHalt (Option ScriptError) :=
  match verifyScript crypto flags (checker nIn out.nValue) txin.scriptSig out.scriptPubKey
    (some txin.scriptWitness) with
  | .ok () => .ok none
  | .error (.error e) => .ok (some e)
  | .error h => .error (.script h)

def mandatoryFailure (e : ScriptError) : TxHalt :=
  .invalid .consensus s!"mandatory-script-verify-flag-failed ({scriptErrorString e})"

def nonMandatoryFailure (e : ScriptError) : TxHalt :=
  .invalid .notStandard s!"non-mandatory-script-verify-flag ({scriptErrorString e})"

/-- What a failed check is reported as: a second check with the mandatory flags tells. -/
def classifyFailure (out : CTxOut) (nIn : ℕ) (txin : CTxIn) (e : ScriptError) :
    Except TxHalt Unit :=
  if flags &&& standardNotMandatoryVerifyFlags ≠ 0 then do
    match ← scriptCheck crypto checker (flags &&& ~~~standardNotMandatoryVerifyFlags) out nIn
      txin with
    | none => .error (nonMandatoryFailure e)
    | some _ => .error (mandatoryFailure e)
  else .error (mandatoryFailure e)

def checkInputScript (coin : Coin) (nIn : ℕ) (txin : CTxIn) : Except TxHalt Unit :=
  if coin.isSpent then .error .assertion
  else do
    match ← scriptCheck crypto checker flags coin.out nIn txin with
    | none => .ok ()
    | some e => classifyFailure crypto checker flags coin.out nIn txin e

def checkInputScriptsFrom (flags : ScriptFlags) (inputs : COutPoint → Coin) :
    ℕ → List CTxIn → Except TxHalt Unit
  | _, [] => .ok ()
  | nIn, txin :: vin => do
    checkInputScript crypto checker flags (inputs txin.prevout) nIn txin
    checkInputScriptsFrom flags inputs (nIn + 1) vin

/-- `CheckInputScripts` with nothing in the script execution cache. -/
def checkInputScripts (inputs : COutPoint → Coin) (tx : CTransaction) : Except TxHalt Unit :=
  if tx.isCoinBase then .ok ()
  else checkInputScriptsFrom crypto checker flags inputs 0 tx.vin

/-- A result of `CheckInputScripts` as a condition: only what stops the node is left. -/
def succeeds : Except TxHalt Unit → Except TxHalt Bool
  | .ok () => .ok true
  | .error (.invalid _ _) | .error .failed => .ok false
  | .error h => .error h

def ScriptFlags.remove (fs : List ScriptVerify) : ScriptFlags :=
  flags &&& ~~~ScriptFlags.ofList fs

variable (inputs : COutPoint → Coin) (tx : CTransaction)

/-- Whether the failure of a transaction without witness is specific to the witness rules. -/
def isWitnessMissing : Except TxHalt Bool :=
  if tx.hasWitness then .ok false
  else do
    let without ← succeeds (checkInputScripts crypto checker
      (standardScriptVerifyFlags.remove [.witness, .cleanStack]) inputs tx)
    if without then do
      let withWitness ← succeeds (checkInputScripts crypto checker
        (standardScriptVerifyFlags.remove [.cleanStack]) inputs tx)
      .ok !withWitness
    else .ok false

/-- The rejection after a failed check of the standard flags. -/
def policyFailure : TxHalt → Except TxHalt Unit
  | .invalid result reason => do
    let missing ← isWitnessMissing crypto checker inputs tx
    .error (.invalid (if missing then .witnessMutated else result) reason)
  | h => .error h

def policyScriptChecks : Except TxHalt Unit :=
  match checkInputScripts crypto checker standardScriptVerifyFlags inputs tx with
  | .ok () => .ok ()
  | .error h => policyFailure crypto checker inputs tx h

/-- A transaction looked up in the pool, and a coin looked up in the view of the tip. -/
structure CoinSources where
  get : Uint256 → Option CTransaction
  coinsTip : COutPoint → Coin

variable (src : CoinSources)

/-- The coins of `CCoinsViewMemPool`. -/
def CoinSources.accessCoin (outpoint : COutPoint) : Coin :=
  match src.get outpoint.hash with
  | some ptx =>
    match ptx.vout[outpoint.n]? with
    | some out => ⟨out, false, mempoolHeight⟩
    | none => coinEmpty
  | none => src.coinsTip outpoint

/-- The equivalence check of an input in `CheckInputsFromMempoolAndCache`. -/
def checkAvailable (view : COutPoint → Coin) (prevout : COutPoint) : Except TxHalt Unit :=
  if (view prevout).isSpent then .error .failed
  else
    match src.get prevout.hash with
    | some txFrom =>
      if txFrom.hash = prevout.hash ∧ txFrom.vout[prevout.n]? = some (view prevout).out then .ok ()
      else .error .assertion
    | none =>
      if (src.coinsTip prevout).isSpent ∨ (src.coinsTip prevout).out ≠ (view prevout).out then
        .error .assertion
      else .ok ()

def checkInputsFromMempoolAndCache (flags : ScriptFlags) (view : COutPoint → Coin)
    (tx : CTransaction) : Except TxHalt Unit :=
  if tx.isCoinBase then .error .assertion
  else do
    tx.vin.forM fun txin => checkAvailable src view txin.prevout
    checkInputScripts crypto checker flags view tx

def consensusScriptChecks {ι : Type*} (T : IndexTree ι) (params : Params) (tip : ι)
    (src : CoinSources) (view : COutPoint → Coin) (tx : CTransaction) : Except TxHalt Unit :=
  checkInputsFromMempoolAndCache crypto checker src (getBlockScriptFlags T params tip) view tx

variable {crypto checker} {flags f₁ f₂ : ScriptFlags} {nIn : ℕ} {txin : CTxIn}
  {inputs : COutPoint → Coin} {tx : CTransaction} {src : CoinSources}

theorem scriptCheck_eq_ok_none {out : CTxOut} :
    scriptCheck crypto checker flags out nIn txin = .ok none ↔
      verifyScript crypto flags (checker nIn out.nValue) txin.scriptSig out.scriptPubKey
        (some txin.scriptWitness) = .ok () := by
  unfold scriptCheck
  split <;> simp_all

theorem classifyFailure_ne_ok (flags : ScriptFlags) (out : CTxOut) (nIn : ℕ) (txin : CTxIn)
    (e : ScriptError) : classifyFailure crypto checker flags out nIn txin e ≠ .ok () := by
  unfold classifyFailure
  split
  · intro h
    obtain ⟨r, -, hr⟩ := bind_eq_ok.mp h
    cases r <;> cases hr
  · exact nofun

theorem checkInputScript_eq_ok {coin : Coin} :
    checkInputScript crypto checker flags coin nIn txin = .ok () ↔
      coin.isSpent = false ∧ verifyScript crypto flags (checker nIn coin.out.nValue)
        txin.scriptSig coin.out.scriptPubKey (some txin.scriptWitness) = .ok () := by
  rw [← scriptCheck_eq_ok_none]
  unfold checkInputScript
  cases coin.isSpent with
  | true => simp
  | false =>
    simp only [Bool.false_eq_true, if_false, true_and]
    constructor
    · intro h
      obtain ⟨r, hr, h⟩ := bind_eq_ok.mp h
      cases r with
      | none => exact hr
      | some e => exact absurd h (classifyFailure_ne_ok _ _ _ _ _)
    · exact fun h => bind_eq_ok.mpr ⟨none, h, rfl⟩

theorem checkInputScriptsFrom_below (h : f₁.IsSubset f₂) (h₁ : f₁.WellFormed)
    (inputs : COutPoint → Coin) (nIn : ℕ) (vin : List CTxIn) :
    (checkInputScriptsFrom crypto checker f₂ inputs nIn vin).Below
      (checkInputScriptsFrom crypto checker f₁ inputs nIn vin) := by
  induction vin generalizing nIn with
  | nil => exact .refl _
  | cons txin vin ih =>
    refine Except.Below.bind ?_ (ih (nIn + 1))
    rintro ⟨⟩ hi
    obtain ⟨hu, hv⟩ := checkInputScript_eq_ok.mp hi
    exact checkInputScript_eq_ok.mpr ⟨hu, verifyScript_below h h₁ _ _ _ () hv⟩

theorem checkInputScripts_below (h : f₁.IsSubset f₂) (h₁ : f₁.WellFormed)
    (inputs : COutPoint → Coin) (tx : CTransaction) :
    (checkInputScripts crypto checker f₂ inputs tx).Below
      (checkInputScripts crypto checker f₁ inputs tx) := by
  unfold checkInputScripts
  split
  · exact .refl _
  · exact checkInputScriptsFrom_below h h₁ inputs 0 tx.vin

theorem policyScriptChecks_eq_ok : policyScriptChecks crypto checker inputs tx = .ok () ↔
      checkInputScripts crypto checker standardScriptVerifyFlags inputs tx = .ok () := by
  unfold policyScriptChecks
  split
  · simp_all
  · rename_i h he
    rw [he]
    refine ⟨fun hp => ?_, nofun⟩
    cases h with
    | invalid result reason =>
      obtain ⟨missing, -, hm⟩ := bind_eq_ok.mp hp
      cases hm
    | failed | assertion | script => cases hp

theorem unspent_of_checkInputScriptsFrom {vin : List CTxIn}
    (h : checkInputScriptsFrom crypto checker flags inputs nIn vin = .ok ()) :
    ∀ txin ∈ vin, (inputs txin.prevout).isSpent = false := by
  induction vin generalizing nIn with
  | nil => exact nofun
  | cons txin vin ih =>
    obtain ⟨_, hi, hv⟩ := bind_eq_ok.mp h
    exact List.forall_mem_cons.mpr ⟨(checkInputScript_eq_ok.mp hi).1, ih hv⟩

theorem checkAvailable_accessCoin {prevout : COutPoint}
    (hg : ∀ {h tx}, src.get h = some tx → tx.hash = h)
    (hu : (src.accessCoin prevout).isSpent = false) :
    checkAvailable src src.accessCoin prevout = .ok () := by
  unfold checkAvailable
  rw [if_neg (by simp [hu])]
  cases hf : src.get prevout.hash with
  | none =>
    have hc : src.accessCoin prevout = src.coinsTip prevout := by
      simp [CoinSources.accessCoin, hf]
    simp [← hc, hu]
  | some txFrom =>
    cases ho : txFrom.vout[prevout.n]? with
    | none =>
      have hc : src.accessCoin prevout = coinEmpty := by
        simp [CoinSources.accessCoin, hf, ho]
      rw [hc] at hu
      cases hu
    | some out =>
      have hc : src.accessCoin prevout = ⟨out, false, mempoolHeight⟩ := by
        simp [CoinSources.accessCoin, hf, ho]
      simp [hc, ho, hg hf]

theorem consensusScriptChecks_eq_ok {ι : Type*} {T : IndexTree ι} {params : Params} {tip : ι}
    (hg : ∀ {h tx}, src.get h = some tx → tx.hash = h) (ht : tx.isCoinBase = false)
    (h : checkInputScripts crypto checker (getBlockScriptFlags T params tip) src.accessCoin tx =
      .ok ()) :
    consensusScriptChecks crypto checker T params tip src src.accessCoin tx = .ok () := by
  unfold consensusScriptChecks checkInputsFromMempoolAndCache
  rw [if_neg (by simp [ht])]
  refine bind_eq_ok.mpr ⟨(), forM_eq_ok fun txin hi => ?_, h⟩
  unfold checkInputScripts at h
  rw [if_neg (by simp [ht])] at h
  exact checkAvailable_accessCoin hg (unspent_of_checkInputScriptsFrom h txin hi)

end Scripts

/-- Policy implies consensus. The flags of a block are standard flags that may be combined, and a
child has those of its parent unless it is the exception of BIP16. So scripts that pass with the
standard flags pass with the flags of every block, and with them in `ConsensusScriptChecks`. -/
theorem policyScriptChecks_implies_consensus {ι : Type*} (T : IndexTree ι) (params : Params) :
    (∀ pindex, (getBlockScriptFlags T params pindex).IsSubset standardScriptVerifyFlags ∧
      (getBlockScriptFlags T params pindex).WellFormed) ∧
    (∀ b p, T.parent b = some p → isBIP16Exception T params b = false →
      (getBlockScriptFlags T params p).IsSubset (getBlockScriptFlags T params b)) ∧
    ∀ crypto checker tx,
      (∀ view, policyScriptChecks crypto checker view tx = .ok () → ∀ pindex,
        checkInputScripts crypto checker (getBlockScriptFlags T params pindex) view tx = .ok ()) ∧
      ∀ src : CoinSources, (∀ h txFrom, src.get h = some txFrom → txFrom.hash = h) →
        tx.isCoinBase = false →
        policyScriptChecks crypto checker src.accessCoin tx = .ok () → ∀ tip,
        consensusScriptChecks crypto checker T params tip src src.accessCoin tx = .ok () := by
  have hc : ∀ crypto checker tx view, policyScriptChecks crypto checker view tx = .ok () → ∀ pindex,
      checkInputScripts crypto checker (getBlockScriptFlags T params pindex) view tx = .ok () := by
    intro crypto checker tx view h pindex
    exact checkInputScripts_below (getBlockScriptFlags_isSubset pindex)
      (getBlockScriptFlags_wellFormed pindex) view tx () (policyScriptChecks_eq_ok.mp h)
  refine ⟨fun pindex => ⟨getBlockScriptFlags_isSubset pindex,
    getBlockScriptFlags_wellFormed pindex⟩, fun b p => getBlockScriptFlags_child, ?_⟩
  intro crypto checker tx
  refine ⟨hc crypto checker tx, fun src hg ht h tip => ?_⟩
  exact consensusScriptChecks_eq_ok (fun {h txFrom} => hg h txFrom) ht
    (hc crypto checker tx src.accessCoin h tip)

def lineTree : IndexTree ℕ where
  parent
    | 0 => none
    | n + 1 => some n
  height := id
  height_parent := by
    rintro (_ | b) p h
    · cases h
    · cases h
      rfl
  phashBlock _ := none

def tapscriptSpend : CTransaction where
  vin := [⟨⟨1, 0⟩, [], 0, tapscriptWitness⟩]
  vout := []
  nVersion := 2
  nLockTime := 0
  hash := 2

def taprootCoins : CoinSources where
  get _ := none
  coinsTip _ := ⟨⟨50, op1 :: CScript.push [] spentKey⟩, false, 0⟩

theorem policyScriptChecks_implies_consensus_tapscript :
    policyScriptChecks plainCrypto (fun _ _ => keyChecker) taprootCoins.accessCoin tapscriptSpend =
        .ok () ∧
      consensusScriptChecks plainCrypto (fun _ _ => keyChecker) lineTree Network.main.consensus
        405000 taprootCoins taprootCoins.accessCoin tapscriptSpend = .ok () :=
  ⟨rfl, ((policyScriptChecks_implies_consensus lineTree Network.main.consensus).2.2 plainCrypto
    (fun _ _ => keyChecker) tapscriptSpend).2 taprootCoins nofun rfl rfl 405000⟩

end Palladium
