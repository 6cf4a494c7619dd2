import Palladium.Primitives.TxSerialize
import Palladium.Script.Execution

/-! # Taproot script trees

The root of a tree of scripts and the merkle paths that `ComputeTaprootMerkleRoot` climbs.
-/

namespace Palladium
open List

inductive TapTree
  | leaf (leafVersion : UInt8) (script : CScript) (h : script.length < 2 ^ 64)
  | branch (left right : TapTree)

def sortedPair (k node : Valtype) : List UInt8 := if k < node then k ++ node else node ++ k

namespace TapTree

def nodes : (n : ℕ) → List UInt8 → List Valtype
  | 0, _ => []
  | n + 1, bytes => bytes.take 32 :: nodes n (bytes.drop 32)

def controlNodes (control : Valtype) : List Valtype :=
  nodes ((control.length - 33) / 32) (control.drop 33)

variable (crypto : Crypto)

def root : TapTree → Valtype
  | leaf leafVersion script _ => computeTapleafHash crypto leafVersion script
  | branch left right => tapBranch crypto (root left) (root right)

def depth : TapTree → ℕ
  | leaf .. => 0
  | branch left right => max left.depth right.depth + 1

/-- The tree has the leaf, with the given siblings from the leaf upwards. -/
inductive Opens (leafVersion : UInt8) (script : CScript) : TapTree → List Valtype → Prop
  | leaf (h) : Opens leafVersion script (.leaf leafVersion script h) []
  | left {left right path} : Opens leafVersion script left path →
    Opens leafVersion script (.branch left right) (path ++ [right.root crypto])
  | right {left right path} : Opens leafVersion script right path →
    Opens leafVersion script (.branch left right) (path ++ [left.root crypto])

def leafMessage (leafVersion : UInt8) (script : CScript) : List Char × List UInt8 :=
  (['T', 'a', 'p', 'L', 'e', 'a', 'f'], leafVersion :: serializeVch script)

def branchMessage (k node : Valtype) : List Char × List UInt8 :=
  (['T', 'a', 'p', 'B', 'r', 'a', 'n', 'c', 'h'], sortedPair k node)

def messages : TapTree → List (List Char × List UInt8)
  | leaf leafVersion script _ => [leafMessage leafVersion script]
  | branch left right =>
    branchMessage (left.root crypto) (right.root crypto) :: (left.messages ++ right.messages)

def pathMessages : (k : Valtype) → (path : List Valtype) → List (List Char × List UInt8)
  | _, [] => []
  | k, node :: path => branchMessage k node :: pathMessages (tapBranch crypto k node) path

variable {crypto} {tree : TapTree} {leafVersion : UInt8} {script : CScript} {path : List Valtype}
  {k node : Valtype}

theorem sortedPair_comm (k node : Valtype) : sortedPair k node = sortedPair node k := by
  unfold sortedPair
  by_cases h : k < node
  · rw [if_pos h, if_neg (List.lt_asymm h)]
  · by_cases h' : node < k
    · rw [if_neg h, if_pos h']
    · rw [List.le_antisymm (List.not_lt.mp h') (List.not_lt.mp h)]

theorem eq_of_sortedPair {a b c d : Valtype} (ha : a.length = 32) (hb : b.length = 32)
    (hc : c.length = 32) (hd : d.length = 32) (h : sortedPair a b = sortedPair c d) :
    a = c ∧ b = d ∨ a = d ∧ b = c := by
  have hinj : ∀ {a b c d : Valtype}, a.length = 32 → c.length = 32 → a ++ b = c ++ d →
      a = c ∧ b = d := fun ha hc h => append_inj h (ha.trans hc.symm)
  unfold sortedPair at h
  split_ifs at h
  · exact .inl (hinj ha hc h)
  · exact .inr (hinj ha hd h)
  · exact .inr (hinj hb hc h).symm
  · exact .inl (hinj hb hd h).symm

theorem climbPath_eq (n : ℕ) (bytes : List UInt8) (k : Valtype) :
    climbPath crypto n bytes k = (nodes n bytes).foldl (tapBranch crypto) k := by
  induction n generalizing bytes k with
  | zero => rfl
  | succ n ih => exact ih _ _

theorem nodes_flatten (hp : ∀ node ∈ path, node.length = 32) :
    nodes path.length path.flatten = path := by
  induction path with
  | nil => rfl
  | cons node path ih =>
    obtain ⟨hn, hp⟩ := forall_mem_cons.mp hp
    rw [length_cons, nodes, flatten_cons, take_left' hn, drop_left' hn, ih hp]

theorem length_flatten (hp : ∀ node ∈ path, node.length = 32) :
    path.flatten.length = 32 * path.length := by
  induction path with
  | nil => rfl
  | cons node path ih =>
    obtain ⟨hn, hp⟩ := forall_mem_cons.mp hp
    rw [flatten_cons, length_append, hn, ih hp, length_cons]
    omega

theorem length_of_mem_nodes {n : ℕ} {bytes : List UInt8} (h : bytes.length = 32 * n) :
    ∀ node ∈ nodes n bytes, node.length = 32 := by
  induction n generalizing bytes with
  | zero => exact fun _ hm => absurd hm not_mem_nil
  | succ n ih =>
    rw [nodes, forall_mem_cons, length_take]
    exact ⟨by omega, ih (by rw [length_drop]; omega)⟩

theorem pathMessages_concat : pathMessages crypto k (path ++ [node]) =
    pathMessages crypto k path ++ [branchMessage (path.foldl (tapBranch crypto) k) node] := by
  induction path generalizing k with
  | nil => rfl
  | cons n path ih => rw [cons_append, pathMessages, ih]; rfl

section Openings
variable (hsize : ∀ data, (crypto.sha256 data).length = 32)
include hsize

theorem length_root (tree : TapTree) : (tree.root crypto).length = 32 := by
  cases tree <;> exact hsize _

theorem length_foldl (hk : k.length = 32) : (path.foldl (tapBranch crypto) k).length = 32 := by
  induction path generalizing k with
  | nil => exact hk
  | cons node path ih => exact ih (hsize _)

theorem Opens.spec (h : Opens crypto leafVersion script tree path) : path.length ≤ tree.depth ∧
    (∀ node ∈ path, node.length = 32) ∧
    path.foldl (tapBranch crypto) (computeTapleafHash crypto leafVersion script) =
      tree.root crypto := by
  have hc : ∀ {path : List Valtype} {t : TapTree}, (∀ node ∈ path, node.length = 32) →
      ∀ node ∈ path ++ [t.root crypto], node.length = 32 := by
    intro path t hp node hn
    rcases mem_append.mp hn with hn | hn
    · exact hp node hn
    · rw [mem_singleton.mp hn]
      exact length_root hsize t
  induction h with
  | leaf => exact ⟨le_rfl, nofun, rfl⟩
  | left _ ih =>
    obtain ⟨hl, hp, hr⟩ := ih
    rw [List.foldl_append, hr, length_append, depth]
    exact ⟨Nat.succ_le_succ (hl.trans (le_max_left _ _)), hc hp, rfl⟩
  | right _ ih =>
    obtain ⟨hl, hp, hr⟩ := ih
    rw [List.foldl_append, hr, length_append, depth]
    refine ⟨Nat.succ_le_succ (hl.trans (le_max_right _ _)), hc hp, ?_⟩
    exact congrArg (crypto.taggedHash _) (sortedPair_comm _ _)

variable {S : Set (List Char × List UInt8)}
  (hinj : S.InjOn fun message => crypto.taggedHash message.1 message.2)
include hinj

theorem opens_of_foldl (hs : script.length < 2 ^ 64)
    (ht : ∀ m ∈ tree.messages crypto, m ∈ S) (hl : leafMessage leafVersion script ∈ S)
    (hm : ∀ m ∈ pathMessages crypto (computeTapleafHash crypto leafVersion script) path, m ∈ S)
    (hp : ∀ node ∈ path, node.length = 32)
    (h : path.foldl (tapBranch crypto) (computeTapleafHash crypto leafVersion script) =
      tree.root crypto) : Opens crypto leafVersion script tree path := by
  induction tree generalizing path with
  | leaf leafVersion' script' hs' =>
    have hl' := ht _ mem_cons_self
    rcases eq_nil_or_concat' path with rfl | ⟨path, node, rfl⟩
    · have he := congrArg Prod.snd (hinj hl hl' h)
      obtain ⟨rfl, hby⟩ := List.cons.inj he
      obtain rfl := selfDelimiting_serializeVch.injOn hs hs' hby
      exact .leaf _
    · rw [pathMessages_concat, forall_mem_append] at hm
      rw [foldl_concat] at h
      exact absurd (hinj (hm.2 _ mem_cons_self) hl' h)
        (by simp [branchMessage, leafMessage])
  | branch left right ihl ihr =>
    have hb := ht _ mem_cons_self
    rw [messages, forall_mem_cons, forall_mem_append] at ht
    rcases eq_nil_or_concat' path with rfl | ⟨path, node, rfl⟩
    · exact absurd (hinj hl hb h) (by simp [branchMessage, leafMessage])
    · rw [pathMessages_concat, forall_mem_append] at hm
      rw [forall_mem_append, forall_mem_singleton] at hp
      rw [foldl_concat] at h
      have he := congrArg Prod.snd (hinj (hm.2 _ mem_cons_self) hb h)
      rcases eq_of_sortedPair (length_foldl hsize (hsize _)) hp.2 (length_root hsize left)
        (length_root hsize right) he with ⟨hk, rfl⟩ | ⟨hk, rfl⟩
      · exact .left (ihl ht.2.1 hm.1 hp.1 hk)
      · exact .right (ihr ht.2.2 hm.1 hp.1 hk)

end Openings

theorem computeTaprootMerkleRoot_eq_ok {control k r : Valtype} :
    computeTaprootMerkleRoot crypto control k = .ok r ↔ (33 ≤ control.length ∧
      control.length ≤ 33 + 32 * 128 ∧ (control.length - 33) % 32 = 0) ∧
      (controlNodes control).foldl (tapBranch crypto) k = r := by
  rw [controlNodes, ← climbPath_eq]
  simp only [computeTaprootMerkleRoot, Except.bind_eq_ok, assert_eq_ok, decide_eq_true_eq,
    exists_and_left, exists_const, and_assoc, pure, Except.pure, Except.ok.injEq]
  rfl

/-- The siblings of a leaf lead to the root of the tree, and without collisions among what is hashed
nothing else does. -/
theorem computeTaprootMerkleRoot_tree (hsize : ∀ data, (crypto.sha256 data).length = 32)
    (tree : TapTree) (hdepth : tree.depth ≤ 128) :
    (∀ leafVersion script path base, Opens crypto leafVersion script tree path → base.length = 33 →
      computeTaprootMerkleRoot crypto (base ++ path.flatten)
        (computeTapleafHash crypto leafVersion script) = .ok (tree.root crypto)) ∧
    ∀ (S : Set (List Char × List UInt8)) leafVersion script control,
      (S.InjOn fun message => crypto.taggedHash message.1 message.2) →
      (∀ m ∈ leafMessage leafVersion script :: tree.messages crypto ++ pathMessages crypto
        (computeTapleafHash crypto leafVersion script) (controlNodes control), m ∈ S) →
      script.length < 2 ^ 64 →
      computeTaprootMerkleRoot crypto control (computeTapleafHash crypto leafVersion script) =
        .ok (tree.root crypto) →
      Opens crypto leafVersion script tree (controlNodes control) := by
  constructor
  · intro leafVersion script path base h hb
    obtain ⟨hl, hp, hr⟩ := h.spec hsize
    rw [computeTaprootMerkleRoot_eq_ok, controlNodes, length_append, hb, length_flatten hp,
      Nat.add_sub_cancel_left, Nat.mul_div_cancel_left _ (by omega), drop_left' hb,
      nodes_flatten hp]
    exact ⟨by omega, hr⟩
  · intro S leafVersion script control hinj hS hs h
    obtain ⟨hc, hr⟩ := computeTaprootMerkleRoot_eq_ok.mp h
    simp only [cons_append, forall_mem_cons, forall_mem_append] at hS
    refine opens_of_foldl hsize hinj hs hS.2.1 hS.1 hS.2.2 (length_of_mem_nodes ?_) hr
    rw [length_drop]
    omega

def polynomialCrypto : Crypto :=
  { sha1 := id, ripemd160 := id, checkLowS := fun _ => true, xonlyPubkeyParse := fun _ => true,
    xonlyPubkeyTweakAddCheck := fun _ _ _ _ => true,
    sha256 := fun data => writeLE 32 (data.foldl (fun h b => (h * 257 + b.toNat + 1) % 2 ^ 256) 0) }

def twoLeaves : TapTree := .branch (.leaf 0xc0 [op1] (by decide)) (.leaf 0xc0 [0x52] (by decide))

/-- The siblings of the first leaf. -/
def firstLeafControl : Valtype :=
  List.replicate 33 0 ++ computeTapleafHash polynomialCrypto 0xc0 [0x52]

theorem computeTaprootMerkleRoot_tree_twoLeaves :
    controlNodes firstLeafControl = [computeTapleafHash polynomialCrypto 0xc0 [0x52]] ∧
      Opens polynomialCrypto 0xc0 [op1] twoLeaves (controlNodes firstLeafControl) := by
  let messages := leafMessage 0xc0 [op1] :: twoLeaves.messages polynomialCrypto ++
    pathMessages polynomialCrypto (computeTapleafHash polynomialCrypto 0xc0 [op1])
      (controlNodes firstLeafControl)
  have hinj : ∀ m ∈ messages, ∀ m' ∈ messages, polynomialCrypto.taggedHash m.1 m.2 =
      polynomialCrypto.taggedHash m'.1 m'.2 → m = m' := by decide +kernel
  exact ⟨by decide +kernel, (computeTaprootMerkleRoot_tree (fun _ => length_writeLE ..) twoLeaves
    (by decide)).2 {m | m ∈ messages} 0xc0 [op1] firstLeafControl
    (fun m hm m' hm' h => hinj m hm m' hm' h) (fun _ hm => hm) (by decide) (by decide +kernel)⟩

end TapTree

end Palladium
