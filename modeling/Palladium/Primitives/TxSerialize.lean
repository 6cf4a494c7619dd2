import Palladium.Primitives.Serialize
import Palladium.Primitives.Transaction

/-! # The serialization of transactions

`SerializeTransaction` with and without witness.
-/

namespace Palladium
open List

/-- The `k` bytes of a signed number in two's complement. -/
def writeInt (k : ℕ) (n : ℤ) : List UInt8 := writeLE k (n % 256 ^ k).toNat

def COutPoint.serialize (o : COutPoint) : List UInt8 := o.hash.bytes ++ writeLE 4 o.n

variable (txin : CTxIn)

def CTxIn.serialize : List UInt8 :=
  txin.prevout.serialize ++ (serializeVch txin.scriptSig ++ writeLE 4 txin.nSequence)

def CTxOut.serialize (txout : CTxOut) : List UInt8 :=
  writeInt 8 txout.nValue ++ serializeVch txout.scriptPubKey

def CTxIn.serializeWitness : List UInt8 :=
  writeVector serializeVch txin.scriptWitness

variable (tx : CTransaction)

/-- The extended format has an empty vector of inputs and the flags before the inputs. -/
def CTransaction.serialize (fAllowWitness : Bool) : List UInt8 :=
  let fWitness := fAllowWitness && tx.hasWitness
  writeInt 4 tx.nVersion ++ ((if fWitness then writeCompactSize 0 ++ [1] else []) ++
    (writeVector CTxIn.serialize tx.vin ++ (writeVector CTxOut.serialize tx.vout ++
      ((if fWitness then tx.vin.flatMap CTxIn.serializeWitness else []) ++
        writeLE 4 tx.nLockTime))))

def CTxIn.InRange : Prop :=
  txin.prevout.n < 2 ^ 32 ∧ txin.scriptSig.length < 2 ^ 64 ∧ txin.nSequence < 2 ^ 32 ∧
    txin.scriptWitness.length < 2 ^ 64 ∧ ∀ vch ∈ txin.scriptWitness, vch.length < 2 ^ 64

def CTxOut.InRange (txout : CTxOut) : Prop :=
  (-2 ^ 63 ≤ txout.nValue ∧ txout.nValue < 2 ^ 63) ∧ txout.scriptPubKey.length < 2 ^ 64

def CTransaction.InRange : Prop :=
  (-2 ^ 31 ≤ tx.nVersion ∧ tx.nVersion < 2 ^ 31) ∧ tx.nLockTime < 2 ^ 32 ∧
    (tx.vin.length < 2 ^ 64 ∧ ∀ txin ∈ tx.vin, txin.InRange) ∧
    (tx.vout.length < 2 ^ 64 ∧ ∀ txout ∈ tx.vout, txout.InRange)

instance (txin : CTxIn) : Decidable txin.InRange :=
  inferInstanceAs (Decidable (_ ∧ _ ∧ _ ∧ _ ∧ _))

instance (txout : CTxOut) : Decidable txout.InRange := inferInstanceAs (Decidable (_ ∧ _))

instance (tx : CTransaction) : Decidable tx.InRange := inferInstanceAs (Decidable (_ ∧ _ ∧ _ ∧ _))

theorem selfDelimiting_writeLE (k : ℕ) : SelfDelimiting (· < 256 ^ k) (writeLE k) :=
  .of_reads fun _ => reads_readData

theorem selfDelimiting_writeInt (k : ℕ) {N : ℤ} (hN : 2 * N = 256 ^ k) :
    SelfDelimiting (fun n : ℤ => -N ≤ n ∧ n < N) (writeInt k) := by
  refine (selfDelimiting_writeLE k).comp (fun n _ => ?_) fun m n hm hn h => ?_
  · have hl := Int.emod_lt_of_pos n (show (0 : ℤ) < 256 ^ k by positivity)
    have hno := Int.emod_nonneg n (show (256 : ℤ) ^ k ≠ 0 by positivity)
    zify
    rwa [Int.toNat_of_nonneg hno]
  · have hmo : m % 256 ^ k = n % 256 ^ k := by
      rw [← Int.toNat_of_nonneg (Int.emod_nonneg m (show (256 : ℤ) ^ k ≠ 0 by positivity)), h,
        Int.toNat_of_nonneg (Int.emod_nonneg n (show (256 : ℤ) ^ k ≠ 0 by positivity))]
    obtain ⟨c, hc⟩ := Int.dvd_of_emod_eq_zero (Int.emod_eq_emod_iff_emod_sub_eq_zero.mp hmo)
    rw [← hN] at hc
    have hc0 : c = 0 := by
      rcases lt_trichotomy c 0 with hng | hz | hp
      · nlinarith
      · exact hz
      · nlinarith
    rw [hc0] at hc
    omega

theorem selfDelimiting_writeCompactSize : SelfDelimiting (· < 2 ^ 64) writeCompactSize :=
  .of_reads fun _ => reads_readSize

theorem selfDelimiting_bytes : SelfDelimiting (fun _ => True) Uint256.bytes :=
  .of_reads fun a _ => reads_readUint256 a

theorem selfDelimiting_serializeVch :
    SelfDelimiting (fun vch : List UInt8 => vch.length < 2 ^ 64) serializeVch := by
  have hby : SelfDelimiting (fun _ : UInt8 => True) fun b => [b] :=
    .of_length (fun _ _ => rfl) fun _ _ _ _ h => singleton_inj.mp h
  intro a b r s ha hb h
  refine selfDelimiting_writeCompactSize.counted hby a b r s ⟨ha, by simp⟩ ⟨hb, by simp⟩ ?_
  simpa [serializeVch] using h

theorem selfDelimiting_writeVector {α : Type} {P : α → Prop} {write : α → List UInt8}
    (h : SelfDelimiting P write) :
    SelfDelimiting (fun v : List α => v.length < 2 ^ 64 ∧ ∀ a ∈ v, P a) (writeVector write) :=
  selfDelimiting_writeCompactSize.counted h

theorem selfDelimiting_outpoint :
    SelfDelimiting (fun o : COutPoint => o.n < 2 ^ 32) COutPoint.serialize := by
  refine (selfDelimiting_bytes.append (selfDelimiting_writeLE 4)).comp
    (f := fun o : COutPoint => (o.hash, o.n)) (fun _ h => ⟨trivial, h⟩) ?_
  rintro ⟨hash, n⟩ ⟨hash', n'⟩ - - h
  simp_all

theorem selfDelimiting_txin :
    SelfDelimiting (fun txin : CTxIn => txin.InRange ∧ txin.scriptWitness = []) CTxIn.serialize := by
  refine ((selfDelimiting_bytes.append (selfDelimiting_writeLE 4)).append
    (selfDelimiting_serializeVch.append (selfDelimiting_writeLE 4))).comp
    (f := fun txin : CTxIn =>
      ((txin.prevout.hash, txin.prevout.n), (txin.scriptSig, txin.nSequence))) ?_ ?_
  · rintro txin ⟨⟨hn, hs, hse, -⟩, -⟩
    exact ⟨⟨trivial, hn⟩, hs, hse⟩
  · rintro ⟨⟨hash, n⟩, script, seq, wit⟩ ⟨⟨hash', n'⟩, script', seq', wit'⟩ ⟨-, hw⟩ ⟨-, hw'⟩ h
    simp_all

theorem selfDelimiting_txout : SelfDelimiting CTxOut.InRange CTxOut.serialize := by
  refine ((selfDelimiting_writeInt 8 (N := 2 ^ 63) (by norm_num)).append
    selfDelimiting_serializeVch).comp (f := fun txout : CTxOut => (txout.nValue, txout.scriptPubKey))
    (fun _ h => h) ?_
  rintro ⟨value, script⟩ ⟨value', script'⟩ - - h
  simp_all

def CTxIn.withoutWitness : CTxIn := { txin with scriptWitness := [] }

def CTransaction.withoutWitness : CTransaction :=
  { tx with vin := tx.vin.map CTxIn.withoutWitness }

theorem CTxIn.InRange.withoutWitness {txin : CTxIn} (h : txin.InRange) :
    txin.withoutWitness.InRange :=
  ⟨h.1, h.2.1, h.2.2.1, by simp [CTxIn.withoutWitness], by simp [CTxIn.withoutWitness]⟩

namespace CTransaction
variable {tx tx' : CTransaction}

theorem writeVector_withoutWitness (tx : CTransaction) :
    writeVector CTxIn.serialize tx.withoutWitness.vin = writeVector CTxIn.serialize tx.vin := by
  rw [writeVector, withoutWitness, length_map, flatMap_map]
  rfl

@[simp] theorem serialize_withoutWitness (tx : CTransaction) :
    tx.withoutWitness.serialize false = tx.serialize false := by
  simp only [serialize, writeVector_withoutWitness]
  rfl

theorem withoutWitness_eq_self (h : tx.hasWitness = false) : tx.withoutWitness = tx := by
  have hv : tx.vin.map CTxIn.withoutWitness = tx.vin.map id := by
    refine map_congr_left fun txin ht => ?_
    have he : txin.scriptWitness = [] := by simpa using any_eq_false.mp h txin ht
    rw [CTxIn.withoutWitness, ← he]
    rfl
  rw [withoutWitness, hv, map_id]

theorem eq_of_witness_eq (hb : tx.withoutWitness = tx'.withoutWitness)
    (hw : tx.vin.map (·.scriptWitness) = tx'.vin.map (·.scriptWitness)) : tx = tx' := by
  have hv : ∀ {l l' : List CTxIn}, l.map CTxIn.withoutWitness = l'.map CTxIn.withoutWitness →
      l.map (·.scriptWitness) = l'.map (·.scriptWitness) → l = l' := by
    intro l
    induction l with
    | nil => simp
    | cons txin l ih =>
      rintro (_ | ⟨txin', l'⟩) hb hw
      · cases hb
      · simp only [map_cons, List.cons.injEq, CTxIn.withoutWitness] at hb hw
        rw [ih hb.2 hw.2]
        cases txin; cases txin'
        simp_all
  cases tx; cases tx'
  simp only [withoutWitness, mk.injEq] at hb ⊢
  exact ⟨hv hb.1 hw, hb.2⟩

theorem withoutWitness_eq_of_serialize (h : tx.InRange) (h' : tx'.InRange)
    (hh : tx.hash = tx'.hash) (he : tx.serialize false = tx'.serialize false) :
    tx.withoutWitness = tx'.withoutWitness := by
  have hvi : ∀ {tx : CTransaction}, tx.InRange → tx.withoutWitness.vin.length < 2 ^ 64 ∧
      ∀ txin ∈ tx.withoutWitness.vin, txin.InRange ∧ txin.scriptWitness = [] := by
    rintro tx ⟨-, -, hvi, -⟩
    refine ⟨by simpa [withoutWitness] using hvi.1, forall_mem_map.mpr fun txin ht =>
      ⟨(hvi.2 txin ht).withoutWitness, rfl⟩⟩
  rw [← serialize_withoutWitness tx, ← serialize_withoutWitness tx'] at he
  simp only [serialize, Bool.false_and, Bool.false_eq_true, if_false, nil_append] at he
  obtain ⟨hv, he⟩ := selfDelimiting_writeInt 4 (N := 2 ^ 31) (by norm_num) _ _ _ _ h.1 h'.1 he
  obtain ⟨hvi, he⟩ :=
    selfDelimiting_writeVector selfDelimiting_txin _ _ _ _ (hvi h) (hvi h') he
  obtain ⟨hvo, he⟩ :=
    selfDelimiting_writeVector selfDelimiting_txout _ _ _ _ h.2.2.2 h'.2.2.2 he
  have hl := (selfDelimiting_writeLE 4).injOn h.2.1 h'.2.1 he
  cases tx; cases tx'
  simp_all [withoutWitness]

theorem eq_of_serialize (h : tx.InRange) (h' : tx'.InRange) (hn : tx.vin ≠ [])
    (hb : tx.withoutWitness = tx'.withoutWitness)
    (he : tx.serialize true = tx'.serialize true) : tx = tx' := by
  have hl : tx.vin.length = tx'.vin.length := by
    simpa [withoutWitness] using congrArg (·.vin.length) hb
  have hv : tx.nVersion = tx'.nVersion := congrArg (·.nVersion) hb
  -- the format shows whether there is a witness
  have hm : ∀ {tx tx' : CTransaction}, tx.nVersion = tx'.nVersion → tx'.InRange →
      tx.hasWitness = true → tx'.hasWitness = false → tx.serialize true = tx'.serialize true →
      tx'.vin.length = 0 := by
    intro tx tx' hv h' hw hw' he
    simp only [serialize, hw, hw', hv, Bool.true_and, if_true, Bool.false_eq_true, if_false,
      nil_append, append_cancel_left_eq, writeVector, append_assoc] at he
    exact (selfDelimiting_writeCompactSize 0 _ _ _ (by norm_num) h'.2.2.1.1 he).1.symm
  cases hw : tx.hasWitness <;> cases hw' : tx'.hasWitness
  · rw [← withoutWitness_eq_self hw, hb, withoutWitness_eq_self hw']
  · exact absurd (hm hv.symm h hw' hw he.symm) (by simpa using hn)
  · exact absurd (hl.trans (hm hv h' hw hw' he)) (by simpa using hn)
  · have hvi : writeVector CTxIn.serialize tx.vin = writeVector CTxIn.serialize tx'.vin := by
      rw [← writeVector_withoutWitness, hb, writeVector_withoutWitness]
    have hvo : tx.vout = tx'.vout := congrArg (·.vout) hb
    simp only [serialize, hw, hw', hv, hvi, hvo, Bool.true_and, if_true,
      append_cancel_left_eq] at he
    have hs : ∀ {tx : CTransaction}, tx.InRange →
        ∀ stack ∈ tx.vin.map (·.scriptWitness), stack.length < 2 ^ 64 ∧
          ∀ vch ∈ stack, vch.length < 2 ^ 64 :=
      fun h => forall_mem_map.mpr fun txin ht => (h.2.2.1.2 txin ht).2.2.2
    have hf : ∀ tx : CTransaction, tx.vin.flatMap CTxIn.serializeWitness =
        (tx.vin.map (·.scriptWitness)).flatMap (writeVector serializeVch) := by
      intro tx
      rw [flatMap_map]
      rfl
    rw [hf, hf] at he
    exact eq_of_witness_eq hb ((selfDelimiting_writeVector selfDelimiting_serializeVch).flatMap
      (hs h) (hs h') (by simpa using hl) he).1

end CTransaction

end Palladium
