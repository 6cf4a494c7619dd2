import Palladium.Lib.Decoder
import Palladium.Primitives.TxSerialize

/-! # Reading transactions

The readers accept exactly the canonical serializations.
-/

namespace Palladium
open List StateT

def readVch : Reader (List UInt8) := do
  let n ← readCompactSize
  readBytes n

def readInt (k : ℕ) : Reader ℤ := do
  let n ← readData k
  return if 2 * n < 256 ^ k then (n : ℤ) else (n : ℤ) - 256 ^ k

theorem writeLE_readLE (bs : List UInt8) : writeLE bs.length (readLE bs) = bs := by
  induction bs with
  | nil => rfl
  | cons b bs ih =>
    have hb := b.toNat_lt
    rw [length_cons, readLE, writeLE, show (b.toNat + 256 * readLE bs) % 256 = b.toNat by omega,
      show (b.toNat + 256 * readLE bs) / 256 = readLE bs by omega, ih, UInt8.ofNat_toNat]

theorem decodes_readBytes (n : ℕ) : (readBytes n).Decodes (fun bs => bs.length = n) id := by
  refine decodes_of_reads (fun bs h => h ▸ reads_readBytes bs) fun s bs t h => ?_
  simp only [readBytes, ends_bind, ends_get, ends_ite, ends_throw, ends_set, ends_pure] at h
  obtain ⟨_, _, ⟨rfl, rfl⟩, h⟩ := h
  split at h
  · exact h.elim
  next hl =>
    obtain ⟨_, _, rfl, rfl, rfl⟩ := h
    exact ⟨length_take_of_le (not_lt.mp hl), (take_append_drop n s).symm⟩

theorem decodes_readData (k : ℕ) : (readData k).Decodes (· < 256 ^ k) (writeLE k) := by
  refine decodes_of_reads (fun n h => reads_readData h) fun s n t h => ?_
  obtain ⟨bs, hb, rfl⟩ := ends_bind_pure.mp h
  obtain ⟨rfl, rfl⟩ := (decodes_readBytes k _ _ _).mp hb
  exact ⟨readLE_lt bs, by rw [writeLE_readLE]; rfl⟩

variable {n flags : ℕ} {s t : List UInt8} {vin vin' : List CTxIn} {fAllowWitness : Bool}
  {vout : List CTxOut}

theorem accepts_readSizeData {k least : ℕ} (h : (readSizeData k least).Ends s n t) :
    least ≤ n ∧ n < 256 ^ k ∧ s = writeLE k n ++ t := by
  obtain ⟨m, u, hm, hc⟩ := ends_bind.mp h
  obtain ⟨hlt, rfl⟩ := (decodes_readData k _ _ _).mp hm
  obtain ⟨hl, hc⟩ := ends_unless.mp hc
  obtain ⟨rfl, rfl⟩ := ends_pure.mp hc
  exact ⟨not_lt.mp hl, hlt, rfl⟩

theorem accepts_readSize {b : ℕ} (hb : b < 256) (h : (readSize b).Ends s n t) :
    writeLE 1 b ++ s = writeCompactSize n ++ t := by
  have hby : writeLE 1 b = [UInt8.ofNat b] := by
    rw [writeLE, writeLE, Nat.mod_eq_of_lt hb]
  unfold readSize at h
  unfold writeCompactSize
  simp only [ends_ite, ends_pure] at h
  rw [hby]
  split at h
  next hs =>
    obtain ⟨rfl, rfl⟩ := h
    rw [if_pos hs]
  next hla =>
    split at h
    next h253 =>
      obtain ⟨hl, hlt, rfl⟩ := accepts_readSizeData h
      rw [if_neg (by omega), if_pos (by omega), h253]
      rfl
    next =>
      split at h
      next h254 =>
        obtain ⟨hl, hlt, rfl⟩ := accepts_readSizeData h
        rw [if_neg (by omega), if_neg (by omega), if_pos (by omega), h254]
        rfl
      next =>
        obtain ⟨hl, hlt, rfl⟩ := accepts_readSizeData h
        rw [if_neg (by omega), if_neg (by omega), if_neg (by omega), show b = 255 by omega]
        rfl

theorem decodes_readCompactSize : readCompactSize.Decodes (· ≤ maxSize) writeCompactSize := by
  refine decodes_of_reads (fun n h => reads_readCompactSize h) fun s n t h => ?_
  obtain ⟨b, u, hb, hr⟩ := ends_bind.mp h
  obtain ⟨hl, rfl⟩ := (decodes_readData 1 _ _ _).mp hb
  obtain ⟨m, v, hm, hc⟩ := ends_bind.mp hr
  obtain ⟨hma, hc⟩ := ends_unless.mp hc
  obtain ⟨rfl, rfl⟩ := ends_pure.mp hc
  exact ⟨not_lt.mp hma, accepts_readSize hl hm⟩

theorem decodes_readUint256 : readUint256.Decodes (fun _ => True) Uint256.bytes := by
  refine decodes_of_reads (fun a _ => reads_readUint256 a) fun s a t h => ?_
  obtain ⟨n, hn, rfl⟩ := ends_bind_pure.mp h
  obtain ⟨hl, rfl⟩ := (decodes_readData 32 _ _ _).mp hn
  refine ⟨trivial, ?_⟩
  rw [Uint256.bytes, BitVec.toNat_ofNat, Nat.mod_eq_of_lt (hl.trans_le (by norm_num))]

theorem decodes_readVch : readVch.Decodes (·.length ≤ maxSize) serializeVch := by
  intro s bs t
  simp only [readVch, ends_bind, decodes_readCompactSize _ _ _, decodes_readBytes _ _ _ _,
    serializeVch, id_eq]
  constructor
  · rintro ⟨n, u, ⟨hn, rfl⟩, rfl, rfl⟩
    exact ⟨hn, by rw [append_assoc]⟩
  · rintro ⟨hn, rfl⟩
    exact ⟨bs.length, bs ++ t, ⟨hn, by rw [append_assoc]⟩, rfl, rfl⟩

theorem decodes_readVector {α : Type} {read : Reader α} {P : α → Prop} {write : α → List UInt8}
    (h : read.Decodes P write) :
    (readVector read).Decodes (fun v => v.length ≤ maxSize ∧ ∀ a ∈ v, P a) (writeVector write) := by
  intro s v t
  simp only [readVector, ends_bind, decodes_readCompactSize _ _ _, h.many _ _ _ _, writeVector]
  constructor
  · rintro ⟨n, u, ⟨hn, rfl⟩, ⟨rfl, ha⟩, rfl⟩
    exact ⟨⟨hn, ha⟩, by rw [append_assoc]⟩
  · rintro ⟨⟨hn, ha⟩, rfl⟩
    exact ⟨v.length, v.flatMap write ++ t, ⟨hn, by rw [append_assoc]⟩, ⟨rfl, ha⟩, rfl⟩

theorem decodes_readInt (k : ℕ) {N : ℕ} (hN : 2 * N = 256 ^ k) :
    (readInt k).Decodes (fun n : ℤ => -N ≤ n ∧ n < N) (writeInt k) := by
  have hp : (256 : ℤ) ^ k = 2 * N := by exact_mod_cast hN.symm
  intro s a t
  simp only [readInt, ends_bind, ends_pure, decodes_readData k _ _ _, writeInt, hp, ← hN]
  constructor
  · rintro ⟨n, u, ⟨hn, rfl⟩, rfl, rfl⟩
    refine ⟨by split <;> omega, ?_⟩
    congr 2
    split
    next => rw [Int.emod_eq_of_lt (by omega) (by omega), Int.toNat_natCast]
    next => rw [Int.sub_emod_right, Int.emod_eq_of_lt (by omega) (by omega), Int.toNat_natCast]
  · rintro ⟨ha, rfl⟩
    have hm := Int.emod_nonneg a (show (2 * N : ℤ) ≠ 0 by omega)
    have hl := Int.emod_lt_of_pos a (show (0 : ℤ) < 2 * N by omega)
    refine ⟨_, t, ⟨by omega, rfl⟩, ?_, rfl⟩
    rw [Int.toNat_of_nonneg hm]
    rcases le_or_gt 0 a with hno | hng
    · rw [Int.emod_eq_of_lt hno (by omega), if_pos (by omega)]
    · have he : a % (2 * N : ℤ) = a + 2 * N := by
        rw [← Int.add_emod_right, Int.emod_eq_of_lt (by omega) (by omega)]
      rw [he, if_neg (by omega)]
      omega

def readOutPoint : Reader COutPoint := do
  let hash ← readUint256
  let n ← readData 4
  return ⟨hash, n⟩

def readTxIn : Reader CTxIn := do
  let prevout ← readOutPoint
  let scriptSig ← readVch
  let nSequence ← readData 4
  return ⟨prevout, scriptSig, nSequence, []⟩

def readTxOut : Reader CTxOut := do
  let nValue ← readInt 8
  let scriptPubKey ← readVch
  return ⟨nValue, scriptPubKey⟩

def readWitnesses : List CTxIn → Reader (List CTxIn)
  | [] => return []
  | txin :: vin => do
    let stack ← readVector readVch
    let vin ← readWitnesses vin
    return { txin with scriptWitness := stack } :: vin

variable (fAllowWitness)

/-- The inputs and outputs, with the flags that stand where the inputs seem to be empty. -/
def readFlagged : Reader (ℕ × List CTxIn × List CTxOut) := do
  let vin ← readVector readTxIn
  if vin.isEmpty && fAllowWitness then do
    let flags ← readData 1
    if flags ≠ 0 then do
      let vin ← readVector readTxIn
      let vout ← readVector readTxOut
      return (flags, vin, vout)
    else return (flags, vin, [])
  else do
    let vout ← readVector readTxOut
    return (0, vin, vout)

/-- The witnesses, if the first flag is set. -/
def readOptional (flags : ℕ) (vin : List CTxIn) : Reader (List CTxIn) := do
  let (flags, vin) ← if flags &&& 1 ≠ 0 && fAllowWitness then do
      let vin ← readWitnesses vin
      -- it is illegal to encode witnesses when all witness stacks are empty
      if !vin.any (!·.scriptWitness.isEmpty) then throw "Superfluous witness record"
      else pure (flags ^^^ 1, vin)
    else pure (flags, vin)
  if flags ≠ 0 then throw "Unknown transaction optional data" else return vin

variable (hash256 : List UInt8 → List UInt8)

/-- `ComputeHash`, over the form without witness. -/
def CTransaction.computeHash (tx : CTransaction) : Uint256 :=
  BitVec.ofNat 256 (readLE (hash256 (tx.serialize false)))

def readTransaction (fAllowWitness : Bool) : Reader CTransaction := do
  let nVersion ← readInt 4
  let (flags, vin, vout) ← readFlagged fAllowWitness
  let vin ← readOptional fAllowWitness flags vin
  let nLockTime ← readData 4
  let tx : CTransaction := ⟨vin, vout, nVersion, nLockTime, 0⟩
  return { tx with hash := tx.computeHash hash256 }

def CTxIn.WitnessBounded (txin : CTxIn) : Prop :=
  txin.scriptWitness.length ≤ maxSize ∧ ∀ vch ∈ txin.scriptWitness, vch.length ≤ maxSize

def CTxIn.Bounded (txin : CTxIn) : Prop :=
  txin.prevout.n < 2 ^ 32 ∧ txin.scriptSig.length ≤ maxSize ∧ txin.nSequence < 2 ^ 32

def CTxOut.Bounded (txout : CTxOut) : Prop :=
  (-2 ^ 63 ≤ txout.nValue ∧ txout.nValue < 2 ^ 63) ∧ txout.scriptPubKey.length ≤ maxSize

theorem decodes_readOutPoint : readOutPoint.Decodes (fun o => o.n < 2 ^ 32) COutPoint.serialize := by
  rintro s ⟨hash, n⟩ t
  simp only [readOutPoint, ends_bind, ends_pure, decodes_readUint256 _ _ _,
    decodes_readData 4 _ _ _, COutPoint.serialize, COutPoint.mk.injEq]
  constructor
  · rintro ⟨_, _, ⟨-, rfl⟩, _, _, ⟨hn, rfl⟩, ⟨rfl, rfl⟩, rfl⟩
    exact ⟨hn, by simp⟩
  · rintro ⟨hn, rfl⟩
    exact ⟨hash, _, ⟨trivial, append_assoc ..⟩, n, t, ⟨hn, rfl⟩, ⟨rfl, rfl⟩, rfl⟩

theorem decodes_readTxIn :
    readTxIn.Decodes (fun txin => txin.Bounded ∧ txin.scriptWitness = []) CTxIn.serialize := by
  rintro s ⟨prevout, scriptSig, nSequence, stack⟩ t
  simp only [readTxIn, ends_bind, ends_pure, decodes_readOutPoint _ _ _, decodes_readVch _ _ _,
    decodes_readData 4 _ _ _, CTxIn.serialize, CTxIn.mk.injEq, CTxIn.Bounded]
  constructor
  · rintro ⟨_, _, ⟨hn, rfl⟩, _, _, ⟨hl, rfl⟩, _, _, ⟨hs, rfl⟩, ⟨rfl, rfl, rfl, rfl⟩, rfl⟩
    exact ⟨⟨⟨hn, hl, hs⟩, rfl⟩, by simp⟩
  · rintro ⟨⟨⟨hn, hl, hs⟩, rfl⟩, rfl⟩
    exact ⟨prevout, _, ⟨hn, append_assoc ..⟩, scriptSig, _, ⟨hl, append_assoc ..⟩,
      nSequence, t, ⟨hs, rfl⟩, ⟨rfl, rfl, rfl, rfl⟩, rfl⟩

theorem decodes_readTxOut : readTxOut.Decodes CTxOut.Bounded CTxOut.serialize := by
  rintro s ⟨nValue, scriptPubKey⟩ t
  simp only [readTxOut, ends_bind, ends_pure, decodes_readVch _ _ _,
    decodes_readInt 8 (N := 2 ^ 63) (by norm_num) _ _ _, CTxOut.serialize, CTxOut.mk.injEq,
    CTxOut.Bounded]
  constructor
  · rintro ⟨_, _, ⟨hv, rfl⟩, _, _, ⟨hl, rfl⟩, ⟨rfl, rfl⟩, rfl⟩
    exact ⟨⟨by exact_mod_cast hv, hl⟩, by simp⟩
  · rintro ⟨⟨hv, hl⟩, rfl⟩
    exact ⟨nValue, _, ⟨by exact_mod_cast hv, append_assoc ..⟩, scriptPubKey, t, ⟨hl, rfl⟩,
      ⟨rfl, rfl⟩, rfl⟩

theorem ends_readWitnesses (hv : ∀ txin ∈ vin, txin.scriptWitness = []) :
    (readWitnesses vin).Ends s vin' t ↔ (∀ txin ∈ vin', txin.WitnessBounded) ∧
      vin'.map CTxIn.withoutWitness = vin ∧ s = vin'.flatMap CTxIn.serializeWitness ++ t := by
  induction vin generalizing vin' s t with
  | nil =>
    rw [readWitnesses, ends_pure]
    constructor
    · rintro ⟨rfl, rfl⟩
      exact ⟨by simp, rfl, rfl⟩
    · rintro ⟨-, hm, rfl⟩
      obtain rfl := map_eq_nil_iff.mp hm
      exact ⟨rfl, rfl⟩
  | cons txin vin ih =>
    rw [forall_mem_cons] at hv
    simp only [readWitnesses, ends_bind, ends_pure, ih hv.2,
      decodes_readVector decodes_readVch _ _ _]
    constructor
    · rintro ⟨stack, u, ⟨hs, rfl⟩, vin'', v, ⟨ha, hm, rfl⟩, rfl, rfl⟩
      refine ⟨forall_mem_cons.mpr ⟨hs, ha⟩, ?_, ?_⟩
      · rw [map_cons, hm]
        congr 1
        obtain ⟨prevout, scriptSig, nSequence, stack'⟩ := txin
        cases hv.1
        rfl
      · rw [flatMap_cons, append_assoc]
        rfl
    · rintro ⟨ha, hm, rfl⟩
      obtain ⟨txin', vin'', rfl, rfl, hr⟩ := map_eq_cons_iff.mp hm
      rw [forall_mem_cons] at ha
      refine ⟨txin'.scriptWitness, _, ⟨ha.1, ?_⟩, vin'', t, ⟨ha.2, hr, rfl⟩, rfl, rfl⟩
      rw [flatMap_cons, append_assoc]
      rfl

/-- The sizes can be read, the numbers fit their types, and the hash is that of the transaction. -/
structure CTransaction.Bounded (hash256 : List UInt8 → List UInt8) (tx : CTransaction) : Prop where
  nVersion : -2 ^ 31 ≤ tx.nVersion ∧ tx.nVersion < 2 ^ 31
  nLockTime : tx.nLockTime < 2 ^ 32
  vin_length : tx.vin.length ≤ maxSize
  vin : ∀ txin ∈ tx.vin, txin.Bounded ∧ txin.WitnessBounded
  vout_length : tx.vout.length ≤ maxSize
  vout : ∀ txout ∈ tx.vout, txout.Bounded
  hash_eq : tx.hash = tx.computeHash hash256

/-- Witnesses are written only if allowed. If they are, a transaction without inputs is read as one
without outputs. -/
def CTransaction.Readable (tx : CTransaction) : Prop :=
  if fAllowWitness then tx.vin = [] → tx.vout = [] else tx.hasWitness = false

/-- What is written between the version and the lock time. -/
def serializeBody (vin : List CTxIn) (vout : List CTxOut) : List UInt8 :=
  let fWitness := fAllowWitness && vin.any (!·.scriptWitness.isEmpty)
  (if fWitness then writeCompactSize 0 ++ [1] else []) ++ (writeVector CTxIn.serialize vin ++
    (writeVector CTxOut.serialize vout ++
      (if fWitness then vin.flatMap CTxIn.serializeWitness else [])))

variable {fAllowWitness}

def PlainInputs (vin : List CTxIn) : Prop :=
  vin.length ≤ maxSize ∧ ∀ txin ∈ vin, txin.Bounded ∧ txin.scriptWitness = []

def PlainOutputs (vout : List CTxOut) : Prop :=
  vout.length ≤ maxSize ∧ ∀ txout ∈ vout, txout.Bounded

theorem ends_readFlagged : (readFlagged fAllowWitness).Ends s (flags, vin, vout) t ↔
      (flags = 0 ∧ (fAllowWitness → vin ≠ []) ∧ PlainInputs vin ∧ PlainOutputs vout ∧
        s = writeVector CTxIn.serialize vin ++ (writeVector CTxOut.serialize vout ++ t)) ∨
      (flags = 0 ∧ fAllowWitness ∧ vin = [] ∧ vout = [] ∧
        s = writeVector CTxIn.serialize [] ++ (writeLE 1 0 ++ t)) ∨
      (flags ≠ 0 ∧ flags < 256 ∧ fAllowWitness ∧ PlainInputs vin ∧ PlainOutputs vout ∧
        s = writeVector CTxIn.serialize [] ++ (writeLE 1 flags ++
          (writeVector CTxIn.serialize vin ++ (writeVector CTxOut.serialize vout ++ t)))) := by
  have hi := decodes_readVector decodes_readTxIn
  have ho := decodes_readVector decodes_readTxOut
  simp only [readFlagged, ends_bind, ends_ite, ends_pure, hi _ _ _, ho _ _ _,
    decodes_readData 1 _ _ _, Prod.mk.injEq]
  constructor
  · rintro ⟨first, u, ⟨hf, rfl⟩, h⟩
    split at h
    next he =>
      obtain ⟨hn, ha⟩ := Bool.and_eq_true_iff.mp he
      obtain rfl := List.isEmpty_iff.mp hn
      obtain ⟨b, v, ⟨hb, rfl⟩, h⟩ := h
      split at h
      next hne =>
        obtain ⟨_, _, ⟨hvi, rfl⟩, _, _, ⟨hv, rfl⟩, ⟨rfl, rfl, rfl⟩, rfl⟩ := h
        exact .inr (.inr ⟨hne, hb, ha, hvi, hv, rfl⟩)
      next heq =>
        obtain ⟨⟨rfl, rfl, rfl⟩, rfl⟩ := h
        obtain rfl := not_not.mp heq
        exact .inr (.inl ⟨rfl, ha, rfl, rfl, rfl⟩)
    next hp =>
      obtain ⟨_, _, ⟨hv, rfl⟩, ⟨rfl, rfl, rfl⟩, rfl⟩ := h
      refine .inl ⟨rfl, fun ha hn => hp ?_, hf, hv, rfl⟩
      rw [hn, ha]
      rfl
  · rintro (⟨rfl, hne, hvi, hv, rfl⟩ | ⟨rfl, ha, rfl, rfl, rfl⟩ |
      ⟨hne, hb, ha, hvi, hv, rfl⟩)
    · refine ⟨vin, _, ⟨hvi, rfl⟩, ?_⟩
      rw [if_neg (by simpa [List.isEmpty_iff] using fun hn ha => hne ha hn)]
      exact ⟨vout, t, ⟨hv, rfl⟩, ⟨rfl, rfl, rfl⟩, rfl⟩
    · refine ⟨[], _, ⟨⟨by simp, by simp⟩, rfl⟩, ?_⟩
      rw [if_pos (by simp [ha])]
      exact ⟨0, t, ⟨by norm_num, rfl⟩, by simp⟩
    · refine ⟨[], _, ⟨⟨by simp, by simp⟩, rfl⟩, ?_⟩
      rw [if_pos (by simp [ha])]
      refine ⟨flags, _, ⟨hb, rfl⟩, ?_⟩
      rw [if_pos hne]
      exact ⟨vin, _, ⟨hvi, rfl⟩, vout, t, ⟨hv, rfl⟩, ⟨rfl, rfl, rfl⟩, rfl⟩

theorem ends_readOptional (hv : ∀ txin ∈ vin, txin.scriptWitness = []) :
    (readOptional fAllowWitness flags vin).Ends s vin' t ↔ (flags = 0 ∧ vin' = vin ∧ s = t) ∨
      (flags = 1 ∧ fAllowWitness ∧ vin'.any (!·.scriptWitness.isEmpty) ∧
        (∀ txin ∈ vin', txin.WitnessBounded) ∧ vin'.map CTxIn.withoutWitness = vin ∧
        s = vin'.flatMap CTxIn.serializeWitness ++ t) := by
  simp only [readOptional, ends_bind, ends_ite, ends_pure, ends_throw, ends_readWitnesses hv,
    Prod.exists, Prod.mk.injEq]
  split
  next hf =>
    obtain ⟨hb, ha⟩ := Bool.and_eq_true_iff.mp hf
    have hn : flags ≠ 0 := by
      rintro rfl
      simp at hb
    constructor
    · rintro ⟨vin'', u, ⟨hbo, hm, rfl⟩, h⟩
      split at h
      · simp at h
      next han =>
        obtain ⟨_, _, _, ⟨⟨rfl, rfl⟩, rfl⟩, h⟩ := h
        split at h
        · exact h.elim
        next hz =>
          obtain ⟨rfl, rfl⟩ := h
          exact .inr ⟨by simpa using hz, ha, by simpa using han, hbo, hm, rfl⟩
    · rintro (⟨rfl, -⟩ | ⟨rfl, -, han, hbo, hm, rfl⟩)
      · exact absurd rfl hn
      · refine ⟨vin', t, ⟨hbo, hm, rfl⟩, ?_⟩
        rw [if_neg (by simpa using han)]
        exact ⟨_, _, _, ⟨⟨rfl, rfl⟩, rfl⟩, by simp⟩
  next hf =>
    constructor
    · rintro ⟨_, _, _, ⟨⟨rfl, rfl⟩, rfl⟩, h⟩
      split at h
      · exact h.elim
      next hz => exact .inl ⟨not_not.mp hz, h.1.symm, h.2⟩
    · rintro (⟨rfl, rfl, rfl⟩ | ⟨rfl, ha, -⟩)
      · exact ⟨_, _, _, ⟨⟨rfl, rfl⟩, rfl⟩, by simp⟩
      · exact absurd (by simp [ha]) hf

theorem any_scriptWitness_eq_false :
    vin.any (!·.scriptWitness.isEmpty) = false ↔ ∀ txin ∈ vin, txin.scriptWitness = [] := by
  simp [any_eq_false]

theorem writeVector_map_withoutWitness (vin : List CTxIn) :
    writeVector CTxIn.serialize (vin.map CTxIn.withoutWitness) = writeVector CTxIn.serialize vin := by
  rw [writeVector, writeVector, length_map, flatMap_map]
  rfl

theorem witnessBounded_of_nil {txin : CTxIn} (h : txin.scriptWitness = []) : txin.WitnessBounded := by
  rw [CTxIn.WitnessBounded, h]
  simp

theorem ends_readBody : (∃ flags vin₀ u, (readFlagged fAllowWitness).Ends s (flags, vin₀, vout) u ∧
      (readOptional fAllowWitness flags vin₀).Ends u vin t) ↔
    ((vin.length ≤ maxSize ∧ ∀ txin ∈ vin, txin.Bounded ∧ txin.WitnessBounded) ∧
      PlainOutputs vout ∧ if fAllowWitness then vin = [] → vout = []
        else vin.any (!·.scriptWitness.isEmpty) = false) ∧
    s = serializeBody fAllowWitness vin vout ++ t := by
  constructor
  · rintro ⟨flags, vin₀, u, hf, ho⟩
    rcases ends_readFlagged.mp hf with ⟨rfl, hne, hvi, hv, rfl⟩ |
      ⟨rfl, rfl, rfl, rfl, rfl⟩ | ⟨hflags, -, rfl, hvi, hv, rfl⟩
    · obtain ⟨-, rfl, rfl⟩ : (0 : ℕ) = 0 ∧ vin = vin₀ ∧ u = t := by
        simpa using (ends_readOptional fun txin h => (hvi.2 txin h).2).mp ho
      have hn := any_scriptWitness_eq_false.mpr fun txin h => (hvi.2 txin h).2
      refine ⟨⟨⟨hvi.1, fun txin h => ⟨(hvi.2 txin h).1,
        witnessBounded_of_nil (hvi.2 txin h).2⟩⟩, hv, ?_⟩, ?_⟩
      · split
        next ha => exact fun hni => absurd hni (hne ha)
        next => exact hn
      · simp [serializeBody, hn]
    · obtain ⟨-, rfl, rfl⟩ : (0 : ℕ) = 0 ∧ vin = [] ∧ u = t := by
        simpa using (ends_readOptional (by simp)).mp ho
      exact ⟨⟨⟨by simp, by simp⟩, ⟨by simp, by simp⟩, by simp⟩, rfl⟩
    · rcases (ends_readOptional fun txin h => (hvi.2 txin h).2).mp ho with
        ⟨rfl, -⟩ | ⟨rfl, -, han, hb, rfl, rfl⟩
      · exact absurd rfl hflags
      have hvi' : ∀ txin ∈ vin, txin.Bounded := fun txin h =>
        (hvi.2 _ (mem_map_of_mem h)).1
      refine ⟨⟨⟨by simpa using hvi.1, fun txin h => ⟨hvi' txin h, hb txin h⟩⟩, hv, ?_⟩, ?_⟩
      · rw [if_pos rfl]
        rintro rfl
        cases han
      · rw [writeVector_map_withoutWitness]
        simp only [serializeBody, han, Bool.and_self, if_true, append_assoc]
        rfl
  · rintro ⟨⟨⟨hl, hvi⟩, hv, hm⟩, rfl⟩
    have hp : ∀ vin' : List CTxIn, vin' = vin.map CTxIn.withoutWitness → PlainInputs vin' := by
      rintro _ rfl
      refine ⟨by simpa using hl, ?_⟩
      simp only [forall_mem_map]
      exact fun txin h => ⟨(hvi txin h).1, rfl⟩
    have hwi : ∀ txin ∈ vin.map CTxIn.withoutWitness, txin.scriptWitness = [] := by
      simp [CTxIn.withoutWitness]
    by_cases hw : (fAllowWitness && vin.any (!·.scriptWitness.isEmpty)) = true
    · obtain ⟨rfl, han⟩ := Bool.and_eq_true_iff.mp hw
      refine ⟨1, _, _, ends_readFlagged.mpr (.inr (.inr ⟨one_ne_zero, by norm_num, rfl,
        hp _ rfl, hv, ?_⟩)), (ends_readOptional hwi).mpr (.inr ⟨rfl, rfl, han,
          fun txin h => (hvi txin h).2, rfl, rfl⟩)⟩
      rw [writeVector_map_withoutWitness]
      simp only [serializeBody, han, Bool.and_self, if_true, append_assoc]
      rfl
    · have hn : vin.any (!·.scriptWitness.isEmpty) = false := by
        cases fAllowWitness
        · exact hm
        · simpa using hw
      have hni := any_scriptWitness_eq_false.mp hn
      have ho : (readOptional fAllowWitness 0 vin).Ends t vin t :=
        (ends_readOptional hni).mpr (.inl ⟨rfl, rfl, rfl⟩)
      refine ⟨0, vin, t, ends_readFlagged.mpr ?_, ho⟩
      by_cases he : fAllowWitness = true ∧ vin = []
      · obtain ⟨rfl, rfl⟩ := he
        obtain rfl := hm rfl
        exact .inr (.inl ⟨rfl, rfl, rfl, rfl, rfl⟩)
      · refine .inl ⟨rfl, fun ha hvi => he ⟨ha, hvi⟩,
          ⟨hl, fun txin h => ⟨(hvi txin h).1, hni txin h⟩⟩, hv, ?_⟩
        simp [serializeBody, hn]

theorem serialize_eq_body (tx : CTransaction) (fAllowWitness : Bool) :
    tx.serialize fAllowWitness = writeInt 4 tx.nVersion ++
      (serializeBody fAllowWitness tx.vin tx.vout ++ writeLE 4 tx.nLockTime) := by
  simp [CTransaction.serialize, serializeBody, CTransaction.hasWitness]

theorem decodes_readTransaction (fAllowWitness : Bool) :
    (readTransaction hash256 fAllowWitness).Decodes
      (fun tx => tx.Bounded hash256 ∧ tx.Readable fAllowWitness)
      fun tx => tx.serialize fAllowWitness := by
  rintro s ⟨vin, vout, nVersion, nLockTime, hash⟩ t
  have hint := decodes_readInt 4 (N := 2 ^ 31) (by norm_num)
  simp only [readTransaction, ends_bind, ends_pure, hint _ _ _, decodes_readData 4 _ _ _,
    serialize_eq_body, append_assoc]
  constructor
  · rintro ⟨_, _, ⟨hv, rfl⟩, ⟨flags, vin₀, vout⟩, u, hf, vin, v, ho, _, _, ⟨hl, rfl⟩, he, rfl⟩
    cases he
    obtain ⟨⟨hvi, hvo, hm⟩, rfl⟩ := ends_readBody.mp ⟨flags, vin₀, u, hf, ho⟩
    refine ⟨⟨⟨by exact_mod_cast hv, hl, hvi.1, hvi.2, hvo.1, hvo.2, rfl⟩, hm⟩, rfl⟩
  · rintro ⟨⟨⟨hv, hl, hle, hvi, hle', hvo, hh⟩, hm⟩, rfl⟩
    obtain ⟨flags, vin₀, u, hf, ho⟩ :=
      ends_readBody.mpr ⟨⟨⟨hle, hvi⟩, ⟨hle', hvo⟩, hm⟩, rfl⟩
    exact ⟨nVersion, _, ⟨by exact_mod_cast hv, rfl⟩, (flags, vin₀, vout), u, hf, vin, _,
      ho, nLockTime, t, ⟨hl, rfl⟩,
      congrArg (CTransaction.mk vin vout nVersion nLockTime) hh.symm, rfl⟩

theorem CTransaction.Bounded.withoutWitness {hash256 : List UInt8 → List UInt8} {tx : CTransaction}
    (h : tx.Bounded hash256) : tx.withoutWitness.Bounded hash256 where
  nVersion := h.nVersion
  nLockTime := h.nLockTime
  vin_length := by simpa [CTransaction.withoutWitness] using h.vin_length
  vin := by
    simp only [CTransaction.withoutWitness, forall_mem_map]
    exact fun txin ht => ⟨(h.vin txin ht).1, witnessBounded_of_nil rfl⟩
  vout_length := h.vout_length
  vout := h.vout
  hash_eq := by
    rw [CTransaction.computeHash, CTransaction.serialize_withoutWitness]
    exact h.hash_eq

/-- The format is canonical. Without witness, the transaction is read back without it. -/
theorem readTransaction_serialize (hash256 : List UInt8 → List UInt8) :
    (∀ tx : CTransaction, tx.Bounded hash256 → (tx.vin = [] → tx.vout = []) → ∀ rest,
      (readTransaction hash256 true).run (tx.serialize true ++ rest) = .ok (tx, rest) ∧
      (readTransaction hash256 false).run (tx.serialize false ++ rest) =
        .ok (tx.withoutWitness, rest)) ∧
    (∀ s tx rest, (readTransaction hash256 true).run s = .ok (tx, rest) →
      s = tx.serialize true ++ rest) ∧
    ∀ v w tx, (readTransaction hash256 true).run v = .ok (tx, []) →
      (readTransaction hash256 true).run w = .ok (tx, []) → v = w := by
  have hd := decodes_readTransaction hash256
  have ha : ∀ s tx rest, (readTransaction hash256 true).run s = .ok (tx, rest) →
      s = tx.serialize true ++ rest := fun s tx rest h => ((hd true s tx rest).mp h).2
  refine ⟨fun tx hb he rest => ⟨?_, ?_⟩, ha, fun v w tx hv hw => ?_⟩
  · exact (hd true).reads ⟨hb, he⟩ rest
  · rw [← CTransaction.serialize_withoutWitness]
    refine (hd false).reads ⟨hb.withoutWitness, ?_⟩ rest
    simp [CTransaction.Readable, CTransaction.hasWitness, CTransaction.withoutWitness,
      CTxIn.withoutWitness]
  · rw [ha v tx [] hv, ha w tx [] hw]

theorem readTransaction_serialize_witness :
    let tx : CTransaction := ⟨[⟨⟨1, 0⟩, [], 0, [[2]]⟩], [], 1, 0, 0⟩
    (readTransaction (fun _ => []) true).run (tx.serialize true ++ [3]) = .ok (tx, [3]) :=
  ((readTransaction_serialize fun _ => []).1 _ ⟨by decide, by decide, by decide,
    by simp [CTxIn.Bounded, CTxIn.WitnessBounded, maxSize], by decide, by simp, rfl⟩ (by simp)
    [3]).1

end Palladium
