import Palladium.Lib.Entries
import Palladium.Primitives.Unserialize
import Palladium.Psbt.Psbt

/-! # The format of partially signed transactions

A partially signed transaction is written as a row of maps: one for the transaction, one for each
input and one for each output.
-/

namespace Palladium
open Std

def psbtMagicBytes : List UInt8 := [0x70, 0x73, 0x62, 0x74, 0xff]

def psbtGlobalUnsignedTx : UInt8 := 0x00
def psbtSeparator : UInt8 := 0x00

inductive PSBTInputType
  | nonWitnessUtxo
  | witnessUtxo
  | partialSig
  | sighash
  | redeemScript
  | witnessScript
  | bip32Derivation
  | scriptSig
  | scriptWitness
  deriving DecidableEq, Repr

def PSBTInputType.byte : PSBTInputType → UInt8
  | nonWitnessUtxo => 0x00
  | witnessUtxo => 0x01
  | partialSig => 0x02
  | sighash => 0x03
  | redeemScript => 0x04
  | witnessScript => 0x05
  | bip32Derivation => 0x06
  | scriptSig => 0x07
  | scriptWitness => 0x08

def PSBTInputType.all : List PSBTInputType :=
  [nonWitnessUtxo, witnessUtxo, partialSig, sighash, redeemScript, witnessScript, bip32Derivation,
    scriptSig, scriptWitness]

def PSBTInputType.ofByte (type : UInt8) : Option PSBTInputType := all.find? (·.byte = type)

inductive PSBTOutputType
  | redeemScript
  | witnessScript
  | bip32Derivation
  deriving DecidableEq, Repr

def PSBTOutputType.byte : PSBTOutputType → UInt8
  | redeemScript => 0x00
  | witnessScript => 0x01
  | bip32Derivation => 0x02

def PSBTOutputType.ofByte (type : UInt8) : Option PSBTOutputType :=
  [redeemScript, witnessScript, bip32Derivation].find? (·.byte = type)

/-! ## Writing

`SerializeToVector` writes its arguments behind their total size, like a vector of bytes. -/

def writeEntry (key value : Valtype) : List UInt8 := serializeVch key ++ serializeVch value

def KeyOriginInfo.serialize (info : KeyOriginInfo) : List UInt8 :=
  info.fingerprint ++ info.path.flatMap (writeLE 4)

def serializeHDKeypaths (hdKeypaths : ExtTreeMap CPubKey KeyOriginInfo) (type : UInt8) :
    Except String (List UInt8) :=
  if hdKeypaths.toList.any fun e => !e.1.isValid then .error "Invalid CPubKey being serialized"
  else .ok (hdKeypaths.toList.flatMap fun e => writeEntry (type :: e.1.vch) e.2.serialize)

def serializeUnknown (unknown : ExtTreeMap Valtype Valtype) : List UInt8 :=
  unknown.toList.flatMap fun e => writeEntry e.1 e.2

def writeField (isSet : Bool) (type : UInt8) (value : Valtype) : List UInt8 :=
  if isSet then writeEntry [type] value else []

/-- What is written as long as there is no final script. -/
def PSBTInput.serializePartial (input : PSBTInput) : Except String (List UInt8) :=
  if input.signed then .ok []
  else do
    let hdKeypaths ← serializeHDKeypaths input.hdKeypaths PSBTInputType.bip32Derivation.byte
    return (input.partialSigs.toList.flatMap fun e =>
        writeEntry (PSBTInputType.partialSig.byte :: e.2.1.vch) e.2.2) ++
      (writeField (0 < input.sighashType) PSBTInputType.sighash.byte
          (writeInt 4 input.sighashType) ++
        (writeField (!input.redeemScript.isEmpty) PSBTInputType.redeemScript.byte
            input.redeemScript ++
          (writeField (!input.witnessScript.isEmpty) PSBTInputType.witnessScript.byte
              input.witnessScript ++ hdKeypaths)))

def PSBTInput.serialize (input : PSBTInput) : Except String (List UInt8) := do
  let partialData ← input.serializePartial
  return ((input.nonWitnessUtxo.map fun tx =>
      writeEntry [PSBTInputType.nonWitnessUtxo.byte] (tx.serialize false)).getD []) ++
    (writeField (!input.witnessUtxo.isNull) PSBTInputType.witnessUtxo.byte
        input.witnessUtxo.serialize ++
      (partialData ++
        (writeField (!input.finalScriptSig.isEmpty) PSBTInputType.scriptSig.byte
            input.finalScriptSig ++
          (writeField (!input.finalScriptWitness.isEmpty) PSBTInputType.scriptWitness.byte
              (writeVector serializeVch input.finalScriptWitness) ++
            (serializeUnknown input.unknown ++ [psbtSeparator])))))

def PSBTOutput.serialize (output : PSBTOutput) : Except String (List UInt8) := do
  let hdKeypaths ← serializeHDKeypaths output.hdKeypaths PSBTOutputType.bip32Derivation.byte
  return writeField (!output.redeemScript.isEmpty) PSBTOutputType.redeemScript.byte
      output.redeemScript ++
    (writeField (!output.witnessScript.isEmpty) PSBTOutputType.witnessScript.byte
        output.witnessScript ++
      (hdKeypaths ++ (serializeUnknown output.unknown ++ [psbtSeparator])))

/-- The transaction has to be there. -/
def PartiallySignedTransaction.serialize (psbt : PartiallySignedTransaction) :
    Except String (List UInt8) :=
  match psbt.tx with
  | none => .error "*tx"
  | some tx => do
    let inputs ← psbt.inputs.mapM PSBTInput.serialize
    let outputs ← psbt.outputs.mapM PSBTOutput.serialize
    return psbtMagicBytes ++ (writeEntry [psbtGlobalUnsignedTx] (tx.serialize false) ++
      (serializeUnknown psbt.unknown ++ ([psbtSeparator] ++ (inputs.flatten ++ outputs.flatten))))

def unserializeFromVector {α : Type} (read : Reader α) : Reader α := do
  let expectedSize ← readCompactSize
  let before ← get
  let a ← read
  let after ← get
  if after.length + expectedSize ≠ before.length then
    throw "Size of value was not the stated size"
  else pure a

abbrev KeyLookup := List Valtype

def KeyLookup.emplace (keyLookup : KeyLookup) (key : Valtype) (duplicate long : String) :
    Except String KeyLookup :=
  if key ∈ keyLookup then .error duplicate
  else if key.length ≠ 1 then .error long
  else .ok (key :: keyLookup)

section Read
variable (crypto : Crypto) (curve : Curve)

def CPubKey.isFullyValid (pubkey : CPubKey) : Bool := pubkey.isValid && curve.isFullyValid pubkey

variable (key : Valtype)

/-- The public key that stands in a key behind the type. -/
def pubKeyOfKey (size : String) : Except String CPubKey :=
  if key.length ≠ 65 + 1 && key.length ≠ 33 + 1 then .error size
  else
    let pubkey := CPubKey.ofVch (key.drop 1)
    if !pubkey.isFullyValid curve then .error "Invalid pubkey" else .ok pubkey

def readKeyOriginInfo : Reader KeyOriginInfo := do
  let valueLen ← readCompactSize
  if valueLen % 4 ≠ 0 || valueLen = 0 then throw "Invalid length for HD key path"
  else
    let fingerprint ← readBytes 4
    let path ← StateT.readMany (readData 4) (valueLen / 4 - 1)
    return ⟨fingerprint, path⟩

def deserializeHDKeypaths (hdKeypaths : ExtTreeMap CPubKey KeyOriginInfo) :
    Reader (ExtTreeMap CPubKey KeyOriginInfo) := do
  let pubkey ← pubKeyOfKey curve key
    "Size of key was not the expected size for the type BIP32 keypath"
  if pubkey ∈ hdKeypaths then throw "Duplicate Key, pubkey derivation path already provided"
  else
    let keypath ← readKeyOriginInfo
    return hdKeypaths.insertIfNew pubkey keypath

def readUnknown (unknown : ExtTreeMap Valtype Valtype) : Reader (ExtTreeMap Valtype Valtype) := do
  if key ∈ unknown then throw "Duplicate Key, key for unknown value already provided"
  else
    let valBytes ← readVch
    return unknown.insertIfNew key valBytes

def PSBTInput.readEntry (state : PSBTInput × KeyLookup) (key : Valtype) :
    Reader (PSBTInput × KeyLookup) := do
  let (input, keyLookup) := state
  match PSBTInputType.ofByte (key.headD 0) with
  | some .nonWitnessUtxo =>
    let keyLookup ← keyLookup.emplace key "Duplicate Key, input non-witness utxo already provided"
      "Non-witness utxo key is more than one byte type"
    -- with witness, since this is always a valid network transaction
    let nonWitnessUtxo ← unserializeFromVector (readTransaction crypto.hash256 true)
    return ({ input with nonWitnessUtxo := some nonWitnessUtxo }, keyLookup)
  | some .witnessUtxo =>
    let keyLookup ← keyLookup.emplace key "Duplicate Key, input witness utxo already provided"
      "Witness utxo key is more than one byte type"
    let witnessUtxo ← unserializeFromVector readTxOut
    return ({ input with witnessUtxo }, keyLookup)
  | some .partialSig =>
    let pubkey ← pubKeyOfKey curve key
      "Size of key was not the expected size for the type partial signature pubkey"
    if pubkey.getID crypto ∈ input.partialSigs then
      throw "Duplicate Key, input partial signature for pubkey already provided"
    else
      let sig ← readVch
      let partialSigs := input.partialSigs.insertIfNew (pubkey.getID crypto) (pubkey, sig)
      return ({ input with partialSigs }, keyLookup)
  | some .sighash =>
    let keyLookup ← keyLookup.emplace key "Duplicate Key, input sighash type already provided"
      "Sighash type key is more than one byte type"
    let sighashType ← unserializeFromVector (readInt 4)
    return ({ input with sighashType }, keyLookup)
  | some .redeemScript =>
    let keyLookup ← keyLookup.emplace key "Duplicate Key, input redeemScript already provided"
      "Input redeemScript key is more than one byte type"
    let redeemScript ← readVch
    return ({ input with redeemScript }, keyLookup)
  | some .witnessScript =>
    let keyLookup ← keyLookup.emplace key "Duplicate Key, input witnessScript already provided"
      "Input witnessScript key is more than one byte type"
    let witnessScript ← readVch
    return ({ input with witnessScript }, keyLookup)
  | some .bip32Derivation =>
    let hdKeypaths ← deserializeHDKeypaths curve key input.hdKeypaths
    return ({ input with hdKeypaths }, keyLookup)
  | some .scriptSig =>
    let keyLookup ← keyLookup.emplace key "Duplicate Key, input final scriptSig already provided"
      "Final scriptSig key is more than one byte type"
    let finalScriptSig ← readVch
    return ({ input with finalScriptSig }, keyLookup)
  | some .scriptWitness =>
    let keyLookup ← keyLookup.emplace key
      "Duplicate Key, input final scriptWitness already provided"
      "Final scriptWitness key is more than one byte type"
    let finalScriptWitness ← unserializeFromVector (readVector readVch)
    return ({ input with finalScriptWitness }, keyLookup)
  | none =>
    let unknown ← readUnknown key input.unknown
    return ({ input with unknown }, keyLookup)

def PSBTInput.unserialize : Reader PSBTInput := do
  let (input, _) ← StateT.readAllEntries readVch (PSBTInput.readEntry crypto curve)
    "Separator is missing at the end of an input map" ({}, [])
  return input

def PSBTOutput.readEntry (state : PSBTOutput × KeyLookup) (key : Valtype) :
    Reader (PSBTOutput × KeyLookup) := do
  let (output, keyLookup) := state
  match PSBTOutputType.ofByte (key.headD 0) with
  | some .redeemScript =>
    let keyLookup ← keyLookup.emplace key "Duplicate Key, output redeemScript already provided"
      "Output redeemScript key is more than one byte type"
    let redeemScript ← readVch
    return ({ output with redeemScript }, keyLookup)
  | some .witnessScript =>
    let keyLookup ← keyLookup.emplace key "Duplicate Key, output witnessScript already provided"
      "Output witnessScript key is more than one byte type"
    let witnessScript ← readVch
    return ({ output with witnessScript }, keyLookup)
  | some .bip32Derivation =>
    let hdKeypaths ← deserializeHDKeypaths curve key output.hdKeypaths
    return ({ output with hdKeypaths }, keyLookup)
  | none =>
    let unknown ← readUnknown key output.unknown
    return ({ output with unknown }, keyLookup)

def PSBTOutput.unserialize : Reader PSBTOutput := do
  let (output, _) ← StateT.readAllEntries readVch (PSBTOutput.readEntry curve)
    "Separator is missing at the end of an output map" ({}, [])
  return output

/-- What is read from the first map. -/
structure PSBTGlobal where
  tx : Option CTransaction := none
  unknown : ExtTreeMap Valtype Valtype := ∅

def CTransaction.isUnsigned (tx : CTransaction) : Bool :=
  tx.vin.all fun txin => txin.scriptSig.isEmpty && txin.scriptWitness.isEmpty

def PSBTGlobal.readEntry (state : PSBTGlobal × KeyLookup) (key : Valtype) :
    Reader (PSBTGlobal × KeyLookup) := do
  let (global, keyLookup) := state
  if key.headD 0 = psbtGlobalUnsignedTx then
    let keyLookup ← keyLookup.emplace key "Duplicate Key, unsigned tx already provided"
      "Global unsigned tx key is more than one byte type"
    let tx ← unserializeFromVector (readTransaction crypto.hash256 false)
    if !tx.isUnsigned then
      throw "Unsigned tx does not have empty scriptSigs and scriptWitnesses."
    else return ({ global with tx := some tx }, keyLookup)
  else
    let unknown ← readUnknown key global.unknown
    return ({ global with unknown }, keyLookup)

def PSBTGlobal.unserialize : Reader PSBTGlobal := do
  let (global, _) ← StateT.readAllEntries readVch (PSBTGlobal.readEntry crypto)
    "Separator is missing at the end of the global map" ({}, [])
  return global

def readPSBTInputs : List CTxIn → Reader (List PSBTInput)
  | [] => return []
  | txin :: vin => do
    let s ← get
    if s.isEmpty then return []
    else
      let input ← PSBTInput.unserialize crypto curve
      if input.nonWitnessUtxo.any (·.hash ≠ txin.prevout.hash) then
        throw "Non-witness UTXO does not match outpoint hash"
      else
        let inputs ← readPSBTInputs vin
        return input :: inputs

def readPSBTOutputs : List CTxOut → Reader (List PSBTOutput)
  | [] => return []
  | _ :: vout => do
    let s ← get
    if s.isEmpty then return []
    else
      let output ← PSBTOutput.unserialize curve
      let outputs ← readPSBTOutputs vout
      return output :: outputs

def PartiallySignedTransaction.unserialize : Reader PartiallySignedTransaction := do
  let magic ← readBytes 5
  if magic ≠ psbtMagicBytes then throw "Invalid PSBT magic bytes"
  else
    let global ← PSBTGlobal.unserialize crypto
    match global.tx with
    | none => throw "No unsigned transcation was provided"
    | some tx =>
      let inputs ← readPSBTInputs crypto curve tx.vin
      if inputs.length ≠ tx.vin.length then
        throw "Inputs provided does not match the number of inputs in transaction."
      else
        let outputs ← readPSBTOutputs curve tx.vout
        if outputs.length ≠ tx.vout.length then
          throw "Outputs provided does not match the number of outputs in transaction."
        else return { tx := some tx, inputs, outputs, unknown := global.unknown }

end Read

end Palladium
