import Palladium.Consensus.Params
import Palladium.Lib.Codec

/-! # Serialization

Little-endian numbers, compact sizes and vectors as they are written to a stream and read from it.
-/

namespace Palladium

def readLE : List UInt8 → ℕ
  | [] => 0
  | b :: bs => b.toNat + 256 * readLE bs

/-- The `k` little-endian bytes of a number. -/
def writeLE : ℕ → ℕ → List UInt8
  | 0, _ => []
  | k + 1, n => UInt8.ofNat (n % 256) :: writeLE k (n / 256)

def writeCompactSize (n : ℕ) : List UInt8 :=
  if n < 253 then [UInt8.ofNat n]
  else if n ≤ 0xffff then 253 :: writeLE 2 n
  else if n ≤ 0xffffffff then 254 :: writeLE 4 n
  else 255 :: writeLE 8 n

def Uint256.bytes (a : Uint256) : List UInt8 := writeLE 32 a.toNat

def serializeVch (vch : List UInt8) : List UInt8 := writeCompactSize vch.length ++ vch

def writeVector {α : Type*} (write : α → List UInt8) (v : List α) : List UInt8 :=
  writeCompactSize v.length ++ v.flatMap write

abbrev Reader := StateT (List UInt8) (Except String)

def readBytes (nSize : ℕ) : Reader (List UInt8) := do
  let vch ← get
  if vch.length < nSize then throw "CDataStream::read(): end of data"
  else do
    set (vch.drop nSize)
    return vch.take nSize

/-- `ser_readdata8` to `ser_readdata64`. -/
def readData (k : ℕ) : Reader ℕ := do
  let bytes ← readBytes k
  return readLE bytes

def maxSize : ℕ := 0x02000000

/-- The size that follows the first byte; a shorter form must not be possible. -/
def readSizeData (k least : ℕ) : Reader ℕ := do
  let nSizeRet ← readData k
  if nSizeRet < least then throw "non-canonical ReadCompactSize()" else return nSizeRet

def readSize (chSize : ℕ) : Reader ℕ :=
  if chSize < 253 then return chSize
  else if chSize = 253 then readSizeData 2 253
  else if chSize = 254 then readSizeData 4 0x10000
  else readSizeData 8 0x100000000

def readCompactSize : Reader ℕ := do
  let chSize ← readData 1
  let nSizeRet ← readSize chSize
  if maxSize < nSizeRet then throw "ReadCompactSize(): size too large" else return nSizeRet

def readUint256 : Reader Uint256 := do
  let n ← readData 32
  return BitVec.ofNat 256 n

def readVector {α : Type} (read : Reader α) : Reader (List α) := do
  let n ← readCompactSize
  StateT.readMany read n

@[simp] theorem length_writeLE (k n : ℕ) : (writeLE k n).length = k := by
  induction k generalizing n with
  | zero => rfl
  | succ k ih => rw [writeLE, List.length_cons, ih]

theorem writeCompactSize_ne_nil (n : ℕ) : writeCompactSize n ≠ [] := by
  unfold writeCompactSize
  split_ifs <;> simp

theorem serializeVch_ne_nil (vch : List UInt8) : serializeVch vch ≠ [] :=
  List.append_ne_nil_of_left_ne_nil (writeCompactSize_ne_nil _) _

theorem writeLE_ne_nil {k : ℕ} (hk : 0 < k) (n : ℕ) : writeLE k n ≠ [] := by
  rw [← List.length_pos_iff, length_writeLE]
  exact hk

theorem readLE_lt (bs : List UInt8) : readLE bs < 256 ^ bs.length := by
  induction bs with
  | nil => exact one_pos
  | cons b bs ih =>
    have := b.toNat_lt
    simp only [readLE, List.length_cons, pow_succ]
    omega

theorem readLE_writeLE {k n : ℕ} (h : n < 256 ^ k) : readLE (writeLE k n) = n := by
  induction k generalizing n with
  | zero =>
    rw [pow_zero, Nat.lt_one_iff] at h
    rw [h]
    rfl
  | succ k ih =>
    rw [pow_succ] at h
    rw [writeLE, readLE, ih (by omega), UInt8.toNat_ofNat']
    omega

open StateT

theorem reads_readBytes (w : List UInt8) : (readBytes w.length).Reads w w := by
  intro rest
  simp [readBytes]
  rfl

theorem reads_readData {k n : ℕ} (h : n < 256 ^ k) : (readData k).Reads (writeLE k n) n := by
  have hb := reads_readBytes (writeLE k n)
  rw [length_writeLE] at hb
  refine hb.bind_pure ?_
  rw [readLE_writeLE h]
  exact reads_pure n

theorem reads_readSizeData {k n least : ℕ} (h : n < 256 ^ k) (hl : least ≤ n) :
    (readSizeData k least).Reads (writeLE k n) n := by
  refine (reads_readData h).bind_pure ?_
  rw [if_neg (by omega)]
  exact reads_pure n

theorem reads_readSize {n : ℕ} (h : n < 2 ^ 64) :
    (readData 1 >>= readSize).Reads (writeCompactSize n) n := by
  have hf : ∀ {b : UInt8} {w : List UInt8}, (readSize b.toNat).Reads w n →
      (readData 1 >>= readSize).Reads (b :: w) n := by
    intro b w hs
    have hb : (readData 1).Reads [b] b.toNat := by
      refine (reads_readBytes [b]).bind_pure ?_
      rw [show readLE [b] = b.toNat by simp [readLE]]
      exact reads_pure _
    exact hb.bind hs
  unfold writeCompactSize
  split_ifs with h₁ h₂ h₃
  · refine hf ?_
    rw [UInt8.toNat_ofNat', Nat.mod_eq_of_lt (by omega), readSize, if_pos h₁]
    exact reads_pure n
  all_goals exact hf (reads_readSizeData (by omega) (by omega))

theorem reads_readCompactSize {n : ℕ} (h : n ≤ maxSize) :
    readCompactSize.Reads (writeCompactSize n) n := by
  have hm : maxSize < 2 ^ 64 := by decide
  have he : (if maxSize < n then throw "ReadCompactSize(): size too large" else
      return n : Reader ℕ).Reads [] n := by
    rw [if_neg (by omega)]
    exact reads_pure n
  unfold readCompactSize
  rw [← bind_assoc]
  exact (reads_readSize (by omega)).bind_pure he

theorem reads_readUint256 (a : Uint256) : readUint256.Reads a.bytes a := by
  refine (reads_readData (a.isLt.trans_le (by norm_num))).bind_pure ?_
  rw [BitVec.ofNat_toNat, BitVec.setWidth_eq]
  exact reads_pure a

theorem reads_readVector {α : Type} {read : Reader α} {write : α → List UInt8} {v : List α}
    (hl : v.length ≤ maxSize) (h : ∀ a ∈ v, read.Reads (write a) a) :
    (readVector read).Reads (writeVector write v) v :=
  (reads_readCompactSize hl).bind (.many h)

end Palladium
