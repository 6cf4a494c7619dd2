import Palladium.Script.Signing

/-! # Partially signed transactions

A partially signed transaction holds what its signers need and have made so far: a record for each
input and for each output, and the entries that this version of the format does not know.
-/

namespace Palladium
open Std

/-- Keys are ordered by their bytes, of which the first is `0xff` in an invalid key. -/
def CPubKey.orderBytes (pubkey : CPubKey) : List UInt8 := pubkey.vch.headD 0xff :: pubkey.vch

instance : Ord CPubKey := ⟨fun a b => compare a.orderBytes b.orderBytes⟩

theorem CPubKey.compare_eq (a b : CPubKey) : compare a b = compare a.orderBytes b.orderBytes := rfl

instance : TransOrd CPubKey where
  eq_swap {a b} := by
    rw [CPubKey.compare_eq, CPubKey.compare_eq]
    exact OrientedCmp.eq_swap
  isLE_trans {a b c} := by
    rw [CPubKey.compare_eq, CPubKey.compare_eq, CPubKey.compare_eq]
    exact TransCmp.isLE_trans

instance : LawfulEqOrd CPubKey where
  compare_self {a} := by
    rw [CPubKey.compare_eq]
    exact ReflCmp.compare_self
  eq_of_compare {a b} h := by
    rw [CPubKey.compare_eq] at h
    have hbytes : a.orderBytes = b.orderBytes := LawfulEqCmp.eq_of_compare h
    have hvch : a.vch = b.vch := (List.cons.inj hbytes).2
    cases a
    cases b
    cases hvch
    rfl

/-- `std::map::insert` of a range, which keeps the values that are there. -/
def insertRange {κ β : Type} [Ord κ] [TransOrd κ] (m range : ExtTreeMap κ β) : ExtTreeMap κ β :=
  range ∪ m

structure PSBTInput where
  nonWitnessUtxo : Option CTransaction := none
  witnessUtxo : CTxOut := .null
  redeemScript : CScript := []
  witnessScript : CScript := []
  finalScriptSig : CScript := []
  finalScriptWitness : List Valtype := []
  hdKeypaths : ExtTreeMap CPubKey KeyOriginInfo := ∅
  /-- The public key and the signature, by the hash of the key. -/
  partialSigs : ExtTreeMap Valtype (CPubKey × Valtype) := ∅
  unknown : ExtTreeMap Valtype Valtype := ∅
  sighashType : ℤ := 0

def PSBTInput.signed (input : PSBTInput) : Bool :=
  !input.finalScriptSig.isEmpty || !input.finalScriptWitness.isEmpty

structure PSBTOutput where
  redeemScript : CScript := []
  witnessScript : CScript := []
  hdKeypaths : ExtTreeMap CPubKey KeyOriginInfo := ∅
  unknown : ExtTreeMap Valtype Valtype := ∅

structure PartiallySignedTransaction where
  tx : Option CTransaction := none
  inputs : List PSBTInput := []
  outputs : List PSBTOutput := []
  unknown : ExtTreeMap Valtype Valtype := ∅

def fill {α : Type} (isNull : α → Bool) (mine other : α) : α :=
  if isNull mine && !isNull other then other else mine

def PSBTInput.merge (self input : PSBTInput) : PSBTInput where
  nonWitnessUtxo := fill Option.isNone self.nonWitnessUtxo input.nonWitnessUtxo
  witnessUtxo := fill CTxOut.isNull self.witnessUtxo input.witnessUtxo
  partialSigs := insertRange self.partialSigs input.partialSigs
  hdKeypaths := insertRange self.hdKeypaths input.hdKeypaths
  unknown := insertRange self.unknown input.unknown
  redeemScript := fill List.isEmpty self.redeemScript input.redeemScript
  witnessScript := fill List.isEmpty self.witnessScript input.witnessScript
  finalScriptSig := fill List.isEmpty self.finalScriptSig input.finalScriptSig
  finalScriptWitness := fill List.isEmpty self.finalScriptWitness input.finalScriptWitness
  sighashType := self.sighashType

def PSBTOutput.merge (self output : PSBTOutput) : PSBTOutput where
  hdKeypaths := insertRange self.hdKeypaths output.hdKeypaths
  unknown := insertRange self.unknown output.unknown
  redeemScript := fill List.isEmpty self.redeemScript output.redeemScript
  witnessScript := fill List.isEmpty self.witnessScript output.witnessScript

namespace PartiallySignedTransaction

/-- Both have a record for each input and for each output of their transaction. -/
def mergeRecords (self psbt : PartiallySignedTransaction) : PartiallySignedTransaction where
  tx := self.tx
  inputs := List.zipWith PSBTInput.merge self.inputs psbt.inputs
  outputs := List.zipWith PSBTOutput.merge self.outputs psbt.outputs
  unknown := insertRange self.unknown psbt.unknown

def merge (self psbt : PartiallySignedTransaction) : Option PartiallySignedTransaction :=
  -- prohibited to merge two PSBTs over different transactions
  if self.tx.map CTransaction.hash ≠ psbt.tx.map CTransaction.hash then none
  else some (self.mergeRecords psbt)

end PartiallySignedTransaction

inductive TransactionError
  | psbtMismatch
  deriving DecidableEq, Repr

/-- `CombinePSBTs` of a vector, given by its first element and the rest. -/
def combinePSBTs (psbtx : PartiallySignedTransaction) (psbtxs : List PartiallySignedTransaction) :
    Except TransactionError PartiallySignedTransaction :=
  match psbtxs.foldlM PartiallySignedTransaction.merge psbtx with
  | some out => .ok out
  | none => .error .psbtMismatch

end Palladium
