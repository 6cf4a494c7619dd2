import Mathlib.Data.List.Induction
import Mathlib.Tactic.IntervalCases
import Palladium.Script.Script

/-! # The rolling Bloom filter

`CRollingBloomFilter` remembers the last `nElements` keys inserted since it was reset.
-/

namespace Palladium
open List

structure CRollingBloomFilter where
  nEntriesPerGeneration : ℕ
  nEntriesThisGeneration : ℕ
  nGeneration : ℕ
  /-- The pair at `i` is `data[2 * i]` and `data[2 * i + 1]`. -/
  data : List (BitVec 64 × BitVec 64)
  nTweak : UInt32
  nHashFuncs : ℕ

namespace CRollingBloomFilter
variable (murmur : UInt32 → Valtype → UInt32) (f : CRollingBloomFilter) (vKey : Valtype)

def reset (nTweak : UInt32) : CRollingBloomFilter :=
  { f with
    nTweak, nEntriesThisGeneration := 0, nGeneration := 1, data := f.data.map fun _ => (0, 0) }

/-- The numbers of hash functions and of bits follow from the false positive rate. -/
def construct (nElements nHashFuncs nFilterBits : ℕ) (nTweak : UInt32) : CRollingBloomFilter :=
  reset
    { nEntriesPerGeneration := (nElements + 1) % 2 ^ 32 / 2
      nEntriesThisGeneration := 0
      nGeneration := 0
      data := replicate ((nFilterBits + 63) % 2 ^ 32 / 64) (0, 0)
      nTweak
      nHashFuncs } nTweak

def fastMod (x : UInt32) (n : ℕ) : ℕ := x.toNat * n % 2 ^ 64 / 2 ^ 32

/-- The pair and the bit for a hash function. -/
def position (nHashNum : ℕ) : ℕ × ℕ :=
  let h := murmur (UInt32.ofNat nHashNum * 0xFBA4C795 + f.nTweak) vKey
  (fastMod h (2 * f.data.length) / 2, h.toNat % 64)

def positions : List (ℕ × ℕ) := (range f.nHashFuncs).map (f.position murmur vKey)

def wiped (nGeneration : ℕ) (p : BitVec 64 × BitVec 64) : BitVec 64 × BitVec 64 :=
  let nGenerationMask1 := 0#64 - BitVec.ofNat 64 (nGeneration &&& 1)
  let nGenerationMask2 := 0#64 - BitVec.ofNat 64 (nGeneration >>> 1)
  let mask := (p.1 ^^^ nGenerationMask1) ||| (p.2 ^^^ nGenerationMask2)
  (p.1 &&& mask, p.2 &&& mask)

def nextGeneration : CRollingBloomFilter :=
  let nGeneration := if f.nGeneration + 1 = 4 then 1 else f.nGeneration + 1
  { f with nEntriesThisGeneration := 0, nGeneration, data := f.data.map (wiped nGeneration) }

def written (word : BitVec 64) (bit value : ℕ) : BitVec 64 :=
  word &&& ~~~(1#64 <<< bit) ||| BitVec.ofNat 64 value <<< bit

def write (nGeneration : ℕ) (data : List (BitVec 64 × BitVec 64)) (pos : ℕ × ℕ) :
    Option (List (BitVec 64 × BitVec 64)) :=
  data[pos.1]?.map fun p => data.set pos.1
    (written p.1 pos.2 (nGeneration &&& 1), written p.2 pos.2 (nGeneration >>> 1))

/-- The insertion into the current generation. -/
def add : Option CRollingBloomFilter :=
  ((f.positions murmur vKey).foldlM (write f.nGeneration) f.data).map fun data =>
    { f with nEntriesThisGeneration := (f.nEntriesThisGeneration + 1) % 2 ^ 32, data }

def insert : Option CRollingBloomFilter :=
  if f.nEntriesThisGeneration = f.nEntriesPerGeneration then f.nextGeneration.add murmur vKey
  else f.add murmur vKey

inductive Call
  | insert (vKey : Valtype)
  | reset (nTweak : UInt32)

def call : Call → Option CRollingBloomFilter
  | .insert vKey => f.insert murmur vKey
  | .reset nTweak => f.reset nTweak

/-- The keys inserted since the last reset, last one first. -/
def keysAfter : List Valtype → Call → List Valtype
  | keys, .insert vKey => vKey :: keys
  | _, .reset _ => []

def contains : Option Bool :=
  (f.positions murmur vKey).allM fun pos => f.data[pos.1]?.map fun p => (p.1 ||| p.2).getLsbD pos.2

/-- The generation in which a bit was set last, zero if it is not set. -/
def generationAt (data : List (BitVec 64 × BitVec 64)) (pos : ℕ × ℕ) : ℕ :=
  ((data.getD pos.1 (0, 0)).1.getLsbD pos.2).toNat +
    2 * ((data.getD pos.1 (0, 0)).2.getLsbD pos.2).toNat

variable {murmur f vKey} {data data' : List (BitVec 64 × BitVec 64)} {pos q : ℕ × ℕ} {g b b' : ℕ}

theorem fastMod_lt {x : UInt32} {n : ℕ} (hn : 0 < n) : fastMod x n < n := by
  have hx := x.toNat_lt
  unfold fastMod
  rcases Nat.lt_or_ge n (2 ^ 32) with h | h
  · have hm : x.toNat * n < 2 ^ 32 * n := Nat.mul_lt_mul_of_pos_right hx hn
    omega
  · omega

theorem position_lt (h : f.data ≠ []) (hp : pos ∈ f.positions murmur vKey) :
    pos.1 < f.data.length ∧ pos.2 < 64 := by
  obtain ⟨n, -, rfl⟩ := mem_map.mp hp
  have hl := length_pos_iff.mpr h
  exact ⟨Nat.div_lt_of_lt_mul (fastMod_lt (by omega)), Nat.mod_lt _ (by decide)⟩

theorem getLsbD_written {word : BitVec 64} {value : ℕ} (hb : b < 64) (hb' : b' < 64)
    (hv : value < 2) :
    (written word b value).getLsbD b' = if b = b' then decide (value = 1) else word.getLsbD b' := by
  have ho : (1#64 <<< b).getLsbD b' = decide (b = b') := by
    rw [BitVec.getLsbD_shiftLeft, BitVec.getLsbD_one, Bool.eq_iff_iff]
    simp
    omega
  have hva : (BitVec.ofNat 64 value <<< b).getLsbD b' = (decide (b = b') && decide (value = 1)) := by
    obtain rfl | rfl : value = 0 ∨ value = 1 := by omega
    · simp
    · simpa using ho
  rw [written, BitVec.getLsbD_or, BitVec.getLsbD_and, BitVec.getLsbD_not, ho, hva]
  by_cases h : b = b' <;> simp [h, hb']

/-- Writing changes the generation of one bit only. -/
theorem write_spec (hp : pos.1 < data.length ∧ pos.2 < 64) (hg : g < 4) :
    ∃ data', write g data pos = some data' ∧ data'.length = data.length ∧
      ∀ q : ℕ × ℕ, q.2 < 64 → generationAt data' q = if pos = q then g else generationAt data q := by
  refine ⟨_, by rw [write, getElem?_eq_getElem hp.1]; rfl, length_set, fun q hq => ?_⟩
  obtain ⟨i, b⟩ := pos
  obtain ⟨j, b'⟩ := q
  have h1 : g &&& 1 = g % 2 := Nat.and_one_is_mod g
  have h2 : g >>> 1 = g / 2 := rfl
  by_cases hi : i = j
  · subst hi
    simp only [generationAt, getD_eq_getElem?_getD, getElem?_set_self hp.1, getElem?_eq_getElem hp.1,
      Option.getD_some]
    rw [getLsbD_written hp.2 hq (by omega), getLsbD_written hp.2 hq (by omega)]
    by_cases hb : b = b'
    · subst hb
      interval_cases g <;> simp
    · simp [hb]
  · simp [generationAt, getElem?_set_ne hi, hi]

theorem writes_spec {ps : List (ℕ × ℕ)} (hp : ∀ pos ∈ ps, pos.1 < data.length ∧ pos.2 < 64)
    (hg : g < 4) : ∃ data', ps.foldlM (write g) data = some data' ∧ data'.length = data.length ∧
      (∀ pos ∈ ps, generationAt data' pos = g) ∧
      ∀ q : ℕ × ℕ, q.2 < 64 → generationAt data' q = g ∨ generationAt data' q = generationAt data q := by
  induction ps generalizing data with
  | nil => exact ⟨data, rfl, rfl, by simp, fun _ _ => .inr rfl⟩
  | cons pos ps ih =>
    rw [forall_mem_cons] at hp
    obtain ⟨d, hd, hl, hge⟩ := write_spec hp.1 hg
    obtain ⟨data', hd', hl', ha, hk⟩ := ih (by simpa only [← hl] using hp.2)
    refine ⟨data', by rw [foldlM_cons, hd]; exact hd', hl'.trans hl, ?_, fun q hq => ?_⟩
    · rw [forall_mem_cons]
      refine ⟨?_, ha⟩
      rcases hk pos hp.1.2 with h | h
      · exact h
      · rw [h, hge pos hp.1.2, if_pos rfl]
    · rcases hk q hq with h | h
      · exact .inl h
      · rw [h, hge q hq]
        split
        · exact .inl rfl
        · exact .inr rfl

theorem generation_wiped (hg : 1 ≤ g ∧ g ≤ 3) (hq : q.2 < 64) :
    generationAt (data.map (wiped g)) q = if generationAt data q = g then 0 else generationAt data q := by
  have hz : wiped g (0, 0) = (0, 0) := by simp [wiped]
  have hw := getD_map (n := q.1) data (0, 0) (wiped g)
  rw [hz] at hw
  unfold generationAt
  rw [hw]
  generalize data.getD q.1 (0, 0) = p
  have ho : 0#64 - BitVec.ofNat 64 1 = BitVec.allOnes 64 := by decide
  have hze : 0#64 - BitVec.ofNat 64 0 = 0#64 := by decide
  obtain ⟨h1, h3⟩ := hg
  interval_cases g
  all_goals
    simp only [wiped, Nat.reduceAnd, Nat.reduceShiftRight, BitVec.getLsbD_and, BitVec.getLsbD_or,
      BitVec.getLsbD_xor, ho, hze, BitVec.getLsbD_allOnes, hq, BitVec.getLsbD_zero]
    cases p.1.getLsbD q.2 <;> cases p.2.getLsbD q.2 <;> rfl

/-- What the generation of the bits can be of a key inserted at most `k` generations before `g`. -/
def Within (g k c : ℕ) : Prop := c ≠ 0 ∧ (k < 2 → c ≠ g % 3 + 1) ∧ (k = 0 → c = g)

/-- The number of keys in a full generation; the counter of entries wraps around. -/
def period (f : CRollingBloomFilter) : ℕ :=
  if f.nEntriesPerGeneration = 0 then 2 ^ 32 else f.nEntriesPerGeneration

/-- The filter after `keys`, last one first, of which `c` are in the current generation. -/
structure Remembers (murmur : UInt32 → Valtype → UInt32) (f : CRollingBloomFilter) (c : ℕ)
    (keys : List Valtype) : Prop where
  data : f.data ≠ []
  generation : 1 ≤ f.nGeneration ∧ f.nGeneration ≤ 3
  count : f.nEntriesThisGeneration = c % 2 ^ 32
  within : ∀ k ≤ 2, ∀ key ∈ keys.take (c + k * f.period), ∀ pos ∈ f.positions murmur key,
    Within f.nGeneration k (generationAt f.data pos)

variable {c : ℕ} {keys : List Valtype}

/-- The bits of the last two generations are not wiped. -/
theorem Remembers.nextGeneration (h : Remembers murmur f f.period keys) :
    Remembers murmur f.nextGeneration 0 keys := by
  have hg := h.generation
  have hn : f.nextGeneration.nGeneration = f.nGeneration % 3 + 1 := by
    unfold CRollingBloomFilter.nextGeneration
    dsimp only
    split <;> omega
  refine ⟨by simpa [CRollingBloomFilter.nextGeneration] using h.data, by omega, rfl, ?_⟩
  intro k hk key hke pos hp
  obtain _ | k := k
  · simp at hke
  have hp' : pos ∈ f.positions murmur key := by
    simpa [positions, position, CRollingBloomFilter.nextGeneration] using hp
  have hl : 0 + (k + 1) * f.period = f.period + k * f.period := by
    rw [Nat.zero_add, Nat.succ_mul, Nat.add_comm]
  obtain ⟨hc, hc', hc''⟩ := h.within k (by omega) key (hl ▸ hke) pos hp'
  have hd : f.nextGeneration.data = f.data.map (wiped (f.nGeneration % 3 + 1)) := by
    rw [← hn]
    rfl
  rw [hd, generation_wiped (by omega) (position_lt h.data hp').2, if_neg (hc' (by omega)), hn]
  exact ⟨hc, by omega, by omega⟩

theorem Remembers.add (h : Remembers murmur f c keys) (key : Valtype) : ∃ f',
    f.add murmur key = some f' ∧ Remembers murmur f' (c + 1) (key :: keys) ∧
      f'.nEntriesPerGeneration = f.nEntriesPerGeneration := by
  have hg := h.generation
  have hp : ∀ pos ∈ f.positions murmur key, pos.1 < f.data.length ∧ pos.2 < 64 :=
    fun _ => position_lt h.data
  obtain ⟨data, hd, hl, ha, hke⟩ := writes_spec hp (show f.nGeneration < 4 by omega)
  refine ⟨_, congrArg (Option.map _) hd, ⟨?_, hg, ?_, ?_⟩, rfl⟩
  · rw [← length_pos_iff, hl, length_pos_iff]
    exact h.data
  · simp [h.count]
  · intro k hk key' hky pos hpo
    have hpo' : pos ∈ f.positions murmur key' := by
      simpa [positions, position, hl] using hpo
    have hn : Within f.nGeneration k f.nGeneration := ⟨by omega, by omega, fun _ => rfl⟩
    rw [show c + 1 + k * _ = c + k * f.period + 1 by rw [Nat.add_right_comm]; rfl, take_succ_cons,
      mem_cons] at hky
    rcases hky with rfl | hky
    · rw [ha pos hpo']
      exact hn
    · rcases hke pos (position_lt h.data hpo').2 with he | he
      · rw [he]
        exact hn
      · rw [he]
        exact h.within k hk key' hky pos hpo'

/-- Between two calls, the current generation is neither overfull nor, if it takes `2 ^ 32` keys,
empty. -/
structure Holds (murmur : UInt32 → Valtype → UInt32) (nEntries c : ℕ) (f : CRollingBloomFilter)
    (keys : List Valtype) : Prop extends Remembers murmur f c keys where
  entries : f.nEntriesPerGeneration = nEntries
  le : c ≤ f.period
  start : nEntries = 0 → c ≠ 0

theorem Holds.insert {n : ℕ} (h : Holds murmur n c f keys) (hn : n < 2 ^ 31) (key : Valtype) :
    ∃ f' c', f.insert murmur key = some f' ∧ Holds murmur n c' f' (key :: keys) := by
  obtain ⟨h, rfl, hl, hs⟩ := h
  have hc := h.count
  have hp : 0 < f.period ∧ f.period % 2 ^ 32 = f.nEntriesPerGeneration ∧ f.period ≤ 2 ^ 32 := by
    unfold period
    split <;> omega
  by_cases hf : f.nEntriesThisGeneration = f.nEntriesPerGeneration
  · obtain rfl : c = f.period := by omega
    obtain ⟨f', hf', h', he⟩ := h.nextGeneration.add key
    refine ⟨f', 1, (if_pos hf).trans hf', h', he, ?_, by omega⟩
    rw [period, he]
    exact hp.1
  · obtain ⟨f', hf', h', he⟩ := h.add key
    refine ⟨f', c + 1, (if_neg hf).trans hf', h', he, ?_, by omega⟩
    have hlt : c ≠ f.period := by rintro rfl; omega
    rw [period, he]
    exact lt_of_le_of_ne hl hlt

theorem holds_reset {n : ℕ} (hd : f.data ≠ []) (hn : f.nEntriesPerGeneration = n)
    (nTweak : UInt32) : ∃ c, Holds murmur n c (f.reset nTweak) [] := by
  subst hn
  refine ⟨if f.nEntriesPerGeneration = 0 then 2 ^ 32 else 0,
    ⟨by simpa [reset] using hd, ⟨le_rfl, Nat.le_add_left _ _⟩, ?_, by simp⟩, rfl, ?_, ?_⟩
  · show 0 = _
    split <;> rfl
  · unfold period
    show _ ≤ if f.nEntriesPerGeneration = 0 then _ else f.nEntriesPerGeneration
    split <;> omega
  · intro h
    simp [h]

theorem Remembers.contains (h : Remembers murmur f c keys) {key : Valtype}
    (hk : key ∈ keys.take (c + 2 * f.period)) : f.contains murmur key = some true := by
  have ha : ∀ ps : List (ℕ × ℕ), ps ⊆ f.positions murmur key →
      (ps.allM fun pos => f.data[pos.1]?.map fun p => (p.1 ||| p.2).getLsbD pos.2) = some true := by
    intro ps hp
    induction ps with
    | nil => rfl
    | cons pos ps ih =>
      rw [cons_subset] at hp
      have hn := (h.within 2 le_rfl key hk pos hp.1).1
      have hl := (position_lt h.data hp.1).1
      have hb : (f.data[pos.1]?.map fun p => (p.1 ||| p.2).getLsbD pos.2) = some true := by
        rw [generationAt, getD_eq_getElem?_getD, getElem?_eq_getElem hl] at hn
        rw [getElem?_eq_getElem hl, Option.map_some, BitVec.getLsbD_or]
        generalize f.data[pos.1] = p at hn
        revert hn
        cases h1 : p.1.getLsbD pos.2 <;> cases h2 : p.2.getLsbD pos.2 <;> simp [h1, h2]
      rw [allM_cons, hb]
      exact ih hp.2
  exact ha _ (Subset.refl _)

theorem Holds.calls {n : ℕ} (h : Holds murmur n c f []) (hn : n < 2 ^ 31) (calls : List Call) :
    ∃ g c, calls.foldlM (call murmur) f = some g ∧ Holds murmur n c g (calls.foldl keysAfter []) := by
  induction calls using reverseRecOn with
  | nil => exact ⟨f, c, rfl, h⟩
  | append_singleton calls k ih =>
    obtain ⟨g, c, hg, h⟩ := ih
    rw [foldlM_append, hg, foldl_append]
    cases k with
    | insert vKey =>
      obtain ⟨g', c', hg', h'⟩ := h.insert hn vKey
      exact ⟨g', c', by simpa [call] using hg', h'⟩
    | reset nTweak =>
      obtain ⟨c', h'⟩ := holds_reset h.data h.entries nTweak
      exact ⟨g.reset nTweak, c', rfl, h'⟩

/-- The last `nElements` keys inserted since the last reset are in the filter. -/
theorem contains_of_inserted (murmur : UInt32 → Valtype → UInt32)
    (nElements nHashFuncs nFilterBits : ℕ) (nTweak : UInt32) (hn : nElements < 2 ^ 32)
    (hd : (construct nElements nHashFuncs nFilterBits nTweak).data ≠ []) (calls : List Call) :
    ∃ f, calls.foldlM (call murmur) (construct nElements nHashFuncs nFilterBits nTweak) = some f ∧
      ∀ key ∈ (calls.foldl keysAfter []).take nElements, f.contains murmur key = some true := by
  obtain ⟨c₀, h₀⟩ : ∃ c, Holds murmur ((nElements + 1) % 2 ^ 32 / 2) c
      (construct nElements nHashFuncs nFilterBits nTweak) [] := by
    unfold construct at hd ⊢
    exact holds_reset (by simpa [reset] using hd) (by rfl) nTweak
  obtain ⟨f, c, hf, h⟩ := h₀.calls (by omega) calls
  refine ⟨f, hf, fun key hk => h.contains (take_subset_take_left _ ?_ hk)⟩
  have he := h.entries
  unfold period
  split <;> omega

theorem contains_of_inserted_two : ∃ f,
    [Call.insert [1], .reset 5, .insert [2], .insert [3]].foldlM (call fun _ v => v.length.toUInt32)
      (construct 2 3 100 0) = some f ∧ f.contains (fun _ v => v.length.toUInt32) [2] = some true := by
  obtain ⟨f, hf, h⟩ := contains_of_inserted (fun _ v => v.length.toUInt32) 2 3 100 0 (by decide)
    (by decide) [.insert [1], .reset 5, .insert [2], .insert [3]]
  exact ⟨f, hf, h [2] (by decide)⟩

end CRollingBloomFilter

end Palladium
