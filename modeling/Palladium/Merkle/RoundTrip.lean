import Mathlib.Data.BitVec
import Palladium.Merkle.PartialTree
import Palladium.Primitives.Serialize

/-! # Partial merkle trees through bytes

The tree built for a list of transaction ids and a mask is written to bytes and read back, its bits
padded to whole bytes.
-/

namespace Palladium
open CPartialMerkleTree List MerkleTree Nat StateT
variable (bits : List Bool)

def packByte : UInt8 := UInt8.ofNat (bits.foldr Nat.bit 0)

/-- The first `n` bytes of bits; missing bits are zero. -/
def packBits : (n : ℕ) → List Bool → List UInt8
  | 0, _ => []
  | n + 1, vBits => packByte (vBits.take 8) :: packBits n (vBits.drop 8)

def unpackByte (b : UInt8) : List Bool := (List.range 8).map fun k => b.toNat.testBit k

namespace CPartialMerkleTree

def serialize (t : CPartialMerkleTree Uint256) : List UInt8 :=
  writeLE 4 t.nTransactions ++ (writeVector Uint256.bytes t.vHash ++
    writeVector (fun b => [b]) (packBits ((t.vBits.length + 7) / 8) t.vBits))

def readByte : Reader UInt8 := do
  let n ← readData 1
  return UInt8.ofNat n

def unserialize : Reader (CPartialMerkleTree Uint256) := do
  let nTransactions ← readData 4
  let vHash ← readVector readUint256
  let vBytes ← readVector readByte
  return { nTransactions, vBits := vBytes.flatMap unpackByte, vHash, fBad := false }

end CPartialMerkleTree

theorem testBit_foldr_bit (k : ℕ) : (bits.foldr Nat.bit 0).testBit k = bits.getD k false := by
  induction bits generalizing k with
  | nil => simp
  | cons b bits ih =>
    cases k with
    | zero => simp
    | succ k => simpa [testBit_bit_succ] using ih k

theorem foldr_bit_lt : bits.foldr Nat.bit 0 < 2 ^ bits.length := by
  induction bits with
  | nil => simp
  | cons b bits ih =>
    rw [foldr_cons, length_cons, pow_succ, bit_val]
    have := b.toNat_le
    omega

theorem unpackByte_packByte {bits : List Bool} (h : bits.length ≤ 8) :
    unpackByte (packByte bits) = bits ++ List.replicate (8 - bits.length) false := by
  have hl : bits.foldr Nat.bit 0 < 2 ^ 8 :=
    (foldr_bit_lt bits).trans_le (Nat.pow_le_pow_right two_pos h)
  refine ext_getElem (by simp [unpackByte]; omega) fun k hk _ => ?_
  simp only [unpackByte, packByte, getElem_map, getElem_range, UInt8.toNat_ofNat',
    mod_eq_of_lt hl, testBit_foldr_bit, getElem_append, getElem_replicate]
  split
  all_goals
    rename_i hlen
    simp [hlen]

variable {n : ℕ} {β : Type*}

theorem flatMap_unpackByte_packBits {vBits : List Bool} (h : vBits.length ≤ 8 * n) :
    (packBits n vBits).flatMap unpackByte = vBits ++ List.replicate (8 * n - vBits.length) false := by
  induction n generalizing vBits with
  | zero =>
    obtain rfl := length_eq_zero_iff.mp (le_zero.mp h)
    rfl
  | succ n ih =>
    have hd : (vBits.drop 8).length ≤ 8 * n := by rw [length_drop]; omega
    rw [packBits, flatMap_cons, unpackByte_packByte (by simp), ih hd]
    rcases Nat.le_total vBits.length 8 with hl | hl
    · rw [take_of_length_le hl, drop_eq_nil_of_le hl, append_assoc,
        nil_append, replicate_append_replicate]
      congr 2
      simp only [length_nil]
      omega
    · have ht : (vBits.take 8).length = 8 := by simpa using hl
      rw [ht, Nat.sub_self, replicate_zero, append_nil, ← append_assoc,
        take_append_drop, length_drop]
      congr 2
      omega

@[simp] theorem length_packBits (n : ℕ) (vBits : List Bool) : (packBits n vBits).length = n := by
  induction n generalizing vBits with
  | zero => rfl
  | succ n ih => rw [packBits, length_cons, ih]

theorem reads_readByte (b : UInt8) : readByte.Reads [b] b := by
  have hd := reads_readData (k := 1) (n := b.toNat) (by simpa using b.toNat_lt)
  rw [show writeLE 1 b.toNat = [b] by simp [writeLE, mod_eq_of_lt b.toNat_lt]] at hd
  refine hd.bind_pure ?_
  rw [UInt8.ofNat_toNat]
  exact reads_pure b

theorem reads_unserialize {t : CPartialMerkleTree Uint256} (hn : t.nTransactions < 2 ^ 32)
    (hh : t.vHash.length ≤ maxSize) (hb : (t.vBits.length + 7) / 8 ≤ maxSize) :
    unserialize.Reads t.serialize
      { nTransactions := t.nTransactions
        vBits := t.vBits ++ List.replicate (8 * ((t.vBits.length + 7) / 8) - t.vBits.length) false
        vHash := t.vHash
        fBad := false } := by
  refine (reads_readData (k := 4) hn).bind ?_
  refine (reads_readVector hh fun a _ => reads_readUint256 a).bind ?_
  refine (reads_readVector (by simpa using hb) fun b _ => reads_readByte b).bind_pure ?_
  rw [flatMap_unpackByte_packBits (by omega)]
  exact reads_pure _

theorem drop_add_length {l w r : List β} (h : l.drop n = w ++ r) : l.drop (n + w.length) = r := by
  rw [← drop_drop, h, drop_left]

theorem getElem?_of_drop {l r : List β} {b : β} (h : l.drop n = b :: r) : l[n]? = some b := by
  have hg := congrArg (·[0]?) h
  simpa using hg

section Walks
variable {α : Type} (vTxid : List α) (vMatch : List Bool)

def entries : List ((α × ℕ) × Bool) := vTxid.zipIdx.zip vMatch

def marked (l : List ((α × ℕ) × Bool)) : List (α × ℕ) := (l.filter (·.2)).map (·.1)

def matched : List (α × ℕ) := marked (entries vTxid vMatch)

variable {vTxid vMatch}

theorem marked_append (l l' : List ((α × ℕ) × Bool)) : marked (l ++ l') = marked l ++ marked l' := by
  simp [marked]

theorem length_entries (h : vMatch.length = vTxid.length) :
    (entries vTxid vMatch).length = vTxid.length := by
  simp [entries, h]

theorem parentOfMatch_eq (h : vMatch.length = vTxid.length) (height pos : ℕ) :
    parentOfMatch vMatch height pos = (under height pos (entries vTxid vMatch)).any (·.2) := by
  have hm : (entries vTxid vMatch).map Prod.snd = vMatch := by
    rw [entries, map_snd_zip (by simp [h])]
  have hu : parentOfMatch vMatch height pos = (under height pos vMatch).any id := by
    rw [parentOfMatch, under, shiftLeft_eq pos, one_shiftLeft]
  rw [hu, ← hm, under_map, any_map, hm]
  rfl

theorem marked_eq_nil {l : List ((α × ℕ) × Bool)} (h : l.any (·.2) = false) : marked l = [] := by
  rw [marked, map_eq_nil_iff, filter_eq_nil_iff]
  simpa using h

variable [Zero α] {H : α → α → α} {t : CPartialMerkleTree α}

/-- The state after the walk below a node has consumed what was built for the node. -/
def consumed (H : α → α → α) (vTxid : List α) (vMatch : List Bool) (height pos : ℕ)
    (s : ExtractState α) : ExtractState α :=
  let ms := marked (under height pos (entries vTxid vMatch))
  { nBitsUsed := s.nBitsUsed + (traverseAndBuild H vTxid vMatch height pos).1.length
    nHashUsed := s.nHashUsed + (traverseAndBuild H vTxid vMatch height pos).2.length
    vMatch := s.vMatch ++ ms.map Prod.fst
    vnIndex := s.vnIndex ++ ms.map Prod.snd
    fBad := s.fBad }

variable {pos height : ℕ} {s : ExtractState α}

theorem useHash_of_drop {isMatch : Bool} {hash : α} {rest : List α}
    (h : t.vHash.drop s.nHashUsed = hash :: rest) :
    t.useHash isMatch pos { s with nBitsUsed := s.nBitsUsed + 1 } =
      (hash, { nBitsUsed := s.nBitsUsed + 1
               nHashUsed := s.nHashUsed + 1
               vMatch := s.vMatch ++ if isMatch then [hash] else []
               vnIndex := s.vnIndex ++ if isMatch then [pos] else []
               fBad := s.fBad }) := by
  simp only [useHash, getElem?_of_drop h]
  cases isMatch <;> simp [ExtractState.report]

theorem consumed_right (hp : parentOfMatch vMatch (height + 1) pos)
    (hr : pos * 2 + 1 < width vTxid.length height) :
    consumed H vTxid vMatch height (pos * 2 + 1)
        (consumed H vTxid vMatch height (pos * 2) { s with nBitsUsed := s.nBitsUsed + 1 }) =
      consumed H vTxid vMatch (height + 1) pos s := by
  rw [← calcTreeWidth_eq] at hr
  simp only [consumed, traverseAndBuild, hp, if_true, hr, under_succ, marked_append,
    map_append, append_assoc, length_cons, length_append, Nat.mul_comm 2 pos,
    ExtractState.mk.injEq, and_true]
  omega

theorem consumed_left (hm : vMatch.length = vTxid.length)
    (hp : parentOfMatch vMatch (height + 1) pos)
    (hr : ¬ pos * 2 + 1 < width vTxid.length height) :
    consumed H vTxid vMatch height (pos * 2) { s with nBitsUsed := s.nBitsUsed + 1 } =
      consumed H vTxid vMatch (height + 1) pos s := by
  have hn : under height (pos * 2 + 1) (entries vTxid vMatch) = [] :=
    under_eq_nil (by rw [length_entries hm]; omega)
  rw [← calcTreeWidth_eq] at hr
  simp only [consumed, traverseAndBuild, hp, if_true, hr, if_false, under_succ,
    Nat.mul_comm 2 pos, hn, append_nil, length_cons, ExtractState.mk.injEq, and_true]
  omega

variable [DecidableEq α]

theorem traverseAndExtract_built (hm : vMatch.length = vTxid.length)
    (hs : ∀ k, hasTwins (levels H k vTxid) = false) (ht : t.nTransactions = vTxid.length)
    {height pos : ℕ} (hpo : pos < width vTxid.length height) {s : ExtractState α}
    {restBits : List Bool} {restHash : List α}
    (hbi : t.vBits.drop s.nBitsUsed = (traverseAndBuild H vTxid vMatch height pos).1 ++ restBits)
    (hh : t.vHash.drop s.nHashUsed = (traverseAndBuild H vTxid vMatch height pos).2 ++ restHash) :
    t.traverseAndExtract H height pos s =
      (calcHash H vTxid height pos, consumed H vTxid vMatch height pos s) := by
  induction height generalizing pos s restBits restHash with
  | zero =>
    have hl : pos < vTxid.length := by simpa [width] using hpo
    have hu : under 0 pos (entries vTxid vMatch) = [((vTxid[pos], pos), vMatch[pos])] := by
      rw [under_zero]
      simp [entries, hl, hm]
    have hp : parentOfMatch vMatch 0 pos = vMatch[pos] := by
      rw [parentOfMatch_eq hm, hu]
      simp
    simp only [traverseAndBuild] at hbi hh
    rw [traverseAndExtract, getElem?_of_drop hbi]
    dsimp only
    rw [useHash_of_drop hh, hp, consumed, hu]
    cases vMatch[pos] <;> simp [traverseAndBuild, marked, calcHash, hl]
  | succ height ih =>
    have hb := parentOfMatch_eq hm (height + 1) pos
    rw [traverseAndExtract]
    cases hp : parentOfMatch vMatch (height + 1) pos with
    | false =>
      simp only [traverseAndBuild, hp, Bool.false_eq_true, if_false] at hbi hh
      rw [getElem?_of_drop hbi]
      dsimp only
      rw [useHash_of_drop hh, consumed, marked_eq_nil (hb.symm.trans hp)]
      simp [traverseAndBuild, hp]
    | true =>
      simp only [traverseAndBuild, hp, if_true] at hbi hh
      rw [getElem?_of_drop hbi, ht]
      dsimp only
      rw [cons_append, append_assoc] at hbi
      rw [append_assoc] at hh
      have hbi₁ : t.vBits.drop (s.nBitsUsed + 1) = _ := drop_add_length (w := [true]) hbi
      rw [ih (s := { s with nBitsUsed := s.nBitsUsed + 1 }) (two_mul_lt_width hpo) hbi₁ hh]
      have hbi₂ := drop_add_length hbi₁
      have hh₂ := drop_add_length hh
      split
      · rename_i hr
        rw [if_pos hr] at hbi₂ hh₂
        rw [calcTreeWidth_eq] at hr
        have hw := ih (s := consumed H vTxid vMatch height (pos * 2)
          { s with nBitsUsed := s.nBitsUsed + 1 }) hr hbi₂ hh₂
        rw [hw, combine, consumed_right hp hr, calcHash,
          calcTreeWidth_eq, if_pos hr, if_neg]
        exact (hasTwins_eq_false.mp (hs height) pos _ _ (by
          rw [Nat.mul_comm]; exact getElem?_levels (two_mul_lt_width hpo)) (by
          rw [Nat.mul_comm]; exact getElem?_levels hr)).symm
      · rename_i hr
        rw [calcTreeWidth_eq] at hr
        rw [consumed_left hm hp hr, calcHash, calcTreeWidth_eq, if_neg hr]

omit [DecidableEq α] in
theorem length_hashes_le (hp : pos < width vTxid.length height) :
    (traverseAndBuild H vTxid vMatch height pos).2.length ≤ (under height pos vTxid).length := by
  have hl := length_under_pos hp
  induction height generalizing pos with
  | zero => exact hl
  | succ height ih =>
    rw [traverseAndBuild]
    split
    · have hle := ih (two_mul_lt_width hp) (length_under_pos (two_mul_lt_width hp))
      simp only [under_succ, length_append, Nat.mul_comm 2 pos]
      split
      · rename_i hright
        rw [calcTreeWidth_eq] at hright
        exact Nat.add_le_add hle (ih hright (length_under_pos hright))
      · simp only [length_nil]
        omega
    · exact hl

omit [DecidableEq α] in
theorem length_hashes_le_bits (height pos : ℕ) :
    (traverseAndBuild H vTxid vMatch height pos).2.length ≤
      (traverseAndBuild H vTxid vMatch height pos).1.length := by
  induction height generalizing pos with
  | zero => exact le_rfl
  | succ height ih =>
    have hl := ih (pos * 2)
    have hr := ih (pos * 2 + 1)
    rw [traverseAndBuild]
    split
    · simp only [length_cons, length_append]
      split
      · omega
      · simp only [length_nil]
        omega
    · exact le_rfl

omit [DecidableEq α] in
theorem length_bits_lt (height pos : ℕ) :
    (traverseAndBuild H vTxid vMatch height pos).1.length < 2 ^ (height + 1) := by
  induction height generalizing pos with
  | zero => simp [traverseAndBuild]
  | succ height ih =>
    have hl := ih (pos * 2)
    have hr := ih (pos * 2 + 1)
    have hp : 2 ^ (height + 1 + 1) = 2 ^ (height + 1) + 2 ^ (height + 1) := by
      rw [pow_succ, mul_two]
    rw [traverseAndBuild, hp]
    split
    · simp only [length_cons, length_append]
      split
      · omega
      · simp only [length_nil]
        omega
    · have := Nat.two_pow_pos (height + 1)
      simp only [length_singleton]
      omega

omit [DecidableEq α] [Zero α] in
theorem mem_matched {a : α} {i : ℕ} :
    (a, i) ∈ matched vTxid vMatch ↔ vTxid[i]? = some a ∧ vMatch[i]? = some true := by
  simp only [matched, marked, entries, mem_map, mem_filter]
  constructor
  · rintro ⟨⟨⟨b, j⟩, m⟩, ⟨hm, rfl : m = true⟩, he⟩
    cases he
    obtain ⟨k, hk⟩ := mem_iff_getElem?.mp hm
    obtain ⟨hi, hma⟩ := List.getElem?_zip_eq_some.mp hk
    rw [List.getElem?_zipIdx, Option.map_eq_some_iff] at hi
    obtain ⟨c, hc, he⟩ := hi
    simp only [Nat.zero_add, Prod.mk.injEq] at he
    rw [he.1] at hc
    rw [he.2] at hc hma
    exact ⟨hc, hma⟩
  · rintro ⟨hi, hma⟩
    refine ⟨((a, i), true), ⟨mem_iff_getElem?.mpr ⟨i, ?_⟩, rfl⟩, rfl⟩
    rw [List.getElem?_zip_eq_some, List.getElem?_zipIdx, hi]
    exact ⟨by simp, hma⟩

omit [DecidableEq α] [Zero α] in
theorem pairwise_matched (hm : vMatch.length = vTxid.length) :
    ((matched vTxid vMatch).map Prod.snd).Pairwise (· < ·) := by
  have ha : ((entries vTxid vMatch).map fun e => e.1.2) = List.range' 0 vTxid.length := by
    have hf : (entries vTxid vMatch).map Prod.fst = vTxid.zipIdx := by
      rw [entries, map_fst_zip (by simp [hm])]
    rw [← zipIdx_map_snd, ← hf, map_map]
    rfl
  refine List.Pairwise.sublist ?_ (ha ▸ pairwise_lt_range')
  rw [matched, marked, map_map]
  exact filter_sublist.map _

theorem extractMatches_built (hn : vTxid ≠ [])
    (hl : vTxid.length ≤ maxBlockWeight / minTransactionWeight)
    (hm : vMatch.length = vTxid.length) (hs : ∀ k, hasTwins (levels H k vTxid) = false)
    {built : List Bool × List α}
    (hb : built = traverseAndBuild H vTxid vMatch (Nat.clog 2 vTxid.length) 0)
    {pad : List Bool}
    (hpa : ((built.1 ++ pad).length + 7) / 8 = (built.1.length + 7) / 8) :
    extractMatches H ⟨vTxid.length, built.1 ++ pad, built.2, false⟩ [] =
      ((computeMerkleRoot H vTxid).1, (matched vTxid vMatch).map Prod.fst,
        (matched vTxid vMatch).map Prod.snd) := by
  have hp := width_clog_pos hn
  have ht : width (entries vTxid vMatch).length (Nat.clog 2 vTxid.length) ≤ 1 := by
    rw [length_entries hm]
    exact Nat.not_lt.mp (mt one_lt_width_iff.mp (lt_irrefl _))
  have hh : built.2.length ≤ vTxid.length := by
    rw [hb]
    exact (length_hashes_le hp).trans (by simp [under])
  have hbi : built.2.length ≤ built.1.length := by
    rw [hb]
    exact length_hashes_le_bits _ 0
  have hpl : (mk vTxid.length (built.1 ++ pad) built.2
      false).isPlausible = true := by
    simp only [isPlausible, Bool.and_eq_true, decide_eq_true_eq, length_append]
    exact ⟨⟨⟨(length_pos_iff.mpr hn).ne', hl⟩, hh⟩, by omega⟩
  have hw : traverseAndExtract H ⟨vTxid.length, built.1 ++ pad, built.2, false⟩
      (Nat.clog 2 vTxid.length) 0 { vnIndex := [], fBad := false } = _ :=
    traverseAndExtract_built hm hs rfl hp (by rw [← hb]; rfl)
      (by rw [← hb]; exact (append_nil built.2).symm)
  rw [extractMatches, if_pos hpl]
  simp only [calcTreeHeight_self, hw, consumed, under_top ht, ← hb, calcHash_top hn,
    Nat.zero_add, nil_append, hpa, decide_true, Bool.not_false, Bool.and_self, if_true]
  rfl

end Walks

/-- A partial tree that went through bytes gives the root of the list and its matched entries with
their positions, in order. -/
theorem extractMatches_roundTrip (H : Uint256 → Uint256 → Uint256) (vTxid : List Uint256)
    (vMatch : List Bool) (hne : vTxid ≠ [])
    (hlen : vTxid.length ≤ maxBlockWeight / minTransactionWeight)
    (hmask : vMatch.length = vTxid.length)
    (hsib : ∀ k i a b, (levels H k vTxid)[2 * i]? = some a →
      (levels H k vTxid)[2 * i + 1]? = some b → a ≠ b) (rest : List UInt8) :
    ∃ (t : CPartialMerkleTree Uint256) (ms : List (Uint256 × ℕ)),
      unserialize.run
          ((ofMatches H vTxid vMatch).serialize ++ rest) = .ok (t, rest) ∧
      t.extractMatches H [] = ((computeMerkleRoot H vTxid).1, ms.map Prod.fst, ms.map Prod.snd) ∧
      (∀ a i, (a, i) ∈ ms ↔ vTxid[i]? = some a ∧ vMatch[i]? = some true) ∧
      (ms.map Prod.snd).Pairwise (· < ·) := by
  have hlen' : vTxid.length ≤ 16666 := hlen
  have hc : Nat.clog 2 vTxid.length ≤ 15 := clog_le_of_le_pow (hlen'.trans (by norm_num))
  have hp := width_clog_pos hne
  obtain ⟨bu, hb⟩ : ∃ bu, bu =
    traverseAndBuild H vTxid vMatch (Nat.clog 2 vTxid.length) 0 := ⟨_, rfl⟩
  have ho : ofMatches H vTxid vMatch = ⟨vTxid.length, bu.1, bu.2, false⟩ := by
    rw [ofMatches, calcTreeHeight_self, hb]
  have hh : bu.2.length ≤ vTxid.length := by
    rw [hb]
    exact (length_hashes_le hp).trans (by simp [under])
  have hbi : bu.1.length < 2 ^ 16 := by
    rw [hb]
    exact (length_bits_lt _ 0).trans_le (Nat.pow_le_pow_right two_pos (by omega))
  have hr := reads_unserialize (t := ⟨vTxid.length, bu.1, bu.2, false⟩)
    (show vTxid.length < 2 ^ 32 by omega) (show bu.2.length ≤ maxSize by unfold maxSize; omega)
    (show (bu.1.length + 7) / 8 ≤ maxSize by unfold maxSize; omega)
  refine ⟨_, matched vTxid vMatch, by rw [ho]; exact hr rest, ?_, fun _ _ => mem_matched,
    pairwise_matched hmask⟩
  refine extractMatches_built hne hlen hmask (fun k => hasTwins_eq_false.mpr (hsib k)) hb ?_
  rw [length_append, length_replicate]
  dsimp only
  omega

/-- Three ids of which the first and the last are matched. -/
theorem extractMatches_roundTrip_three :
    ∃ (t : CPartialMerkleTree Uint256) (ms : List (Uint256 × ℕ)),
      unserialize.run
          ((ofMatches (fun a b => 3 * a + 5 * b) [1, 2, 3]
            [true, false, true]).serialize ++ [0xff]) = .ok (t, [0xff]) ∧
      t.extractMatches (fun a b => 3 * a + 5 * b) [] =
        ((computeMerkleRoot (fun a b => 3 * a + 5 * b) ([1, 2, 3] : List Uint256)).1,
          ms.map Prod.fst, ms.map Prod.snd) ∧
      (∀ a i, (a, i) ∈ ms ↔ ([1, 2, 3] : List Uint256)[i]? = some a ∧
        [true, false, true][i]? = some true) ∧
      (ms.map Prod.snd).Pairwise (· < ·) :=
  extractMatches_roundTrip (fun a b => 3 * a + 5 * b) [1, 2, 3] [true, false, true] (by decide)
    (by decide) rfl
    (fun k => hasTwins_eq_false.mp ((computeMerkleRoot_snd _).mp (by decide +kernel) k)) [0xff]

end Palladium
