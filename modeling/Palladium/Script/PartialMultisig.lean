import Palladium.Lib.KeyOrder
import Palladium.Script.MultisigCalls

/-! # Partial signatures

`DataFromTransaction` takes the signatures of a multisig input in two passes.
-/

namespace Palladium
open EvalM List Option StateT
section Calls
variable {crypto : Crypto} {flags : ScriptFlags} {checker : SignatureChecker}
  {sigversion : SigVersion}

def SignatureChecker.accepts (checker : SignatureChecker) (scriptCode : CScript)
    (sigversion : SigVersion) (sig key : Valtype) : Bool :=
  checker.checkSig sig key scriptCode sigversion

def sigEncoded (crypto : Crypto) (flags : ScriptFlags) (sig : Valtype) : Bool :=
  (checkSignatureEncoding crypto flags sig).isOk

def keyEncoded (flags : ScriptFlags) (sigversion : SigVersion) (key : Valtype) : Bool :=
  (checkPubKeyEncoding flags sigversion key).isOk

theorem mem_afterOk_unit {ε β : Type} {x : Except ε Unit} {f : Unit → List β} {b : β} :
    b ∈ afterOk x f ↔ x.isOk ∧ b ∈ f () := by
  cases x <;> simp [afterOk, Except.isOk, Except.toBool]

theorem mem_matchSigsCalls {scriptCode : CScript} {keys sigs : List Valtype} {key sig : Valtype}
    (hor : InKeyOrder (checker.accepts scriptCode sigversion) keys sigs)
    (hle : sigs.length ≤ keys.length) :
    (key, sig) ∈ matchSigsCalls crypto flags checker sigversion scriptCode keys sigs ↔
      ∃ j q : ℕ, SeenFromTop (checker.accepts scriptCode sigversion)
          (sigEncoded crypto flags) (keyEncoded flags sigversion) keys sigs j ∧
        sigs[j]? = some sig ∧ keys[q]? = some key ∧
        checker.accepts scriptCode sigversion sig key := by
  induction keys generalizing sigs with
  | nil =>
    cases sigs with
    | nil => simp [matchSigsCalls]
    | cons sig sigs => simp at hle
  | cons key' keys ih =>
    cases sigs with
    | nil => simp [matchSigsCalls]
    | cons sig' sigs =>
      simp only [length_cons, Nat.add_le_add_iff_right] at hle
      rw [matchSigsCalls, mem_afterOk_unit, mem_afterOk_unit, ← and_assoc]
      change (sigEncoded crypto flags sig' = true ∧ keyEncoded flags sigversion key' = true) ∧ _ ↔ _
      by_cases ho : sigEncoded crypto flags sig' = true ∧ keyEncoded flags sigversion key' = true
      · rw [and_iff_right ho]
        change (key, sig) ∈
          (if checker.accepts scriptCode sigversion sig' key' = true then _ else _) ↔ _
        cases hv : checker.accepts scriptCode sigversion sig' key'
        · rw [if_neg (by simp)]
          simp only [seenFromTop_skip hor hv ho.2]
          split_ifs with hlt
          · simp only [not_mem_nil, false_iff, not_exists]
            rintro j q ⟨hse, -⟩
            obtain ⟨q, -, -, -, hl⟩ := hse 0 (Nat.zero_le j)
            simp only [length_cons] at hl
            omega
          · rw [ih hor.tail (not_lt.mp hlt)]
            constructor
            · rintro ⟨j, q, hse, hsi, hk, hs⟩
              exact ⟨j, q + 1, hse, hsi, by simpa using hk, hs⟩
            · rintro ⟨j, q, hse, hsi, hk, hs⟩
              obtain ⟨q', hs', -⟩ := hse j le_rfl
              obtain rfl := hor.unique ⟨sig, key, hsi, hk, hs⟩
                (signsAt_succ_right.mpr hs')
              exact ⟨j, q', hse, hsi, by simpa using hk, hs⟩
        · rw [if_pos rfl, if_neg (not_lt.mpr hle), mem_cons, ih hor.tail.tail_elems hle]
          constructor
          · rintro (h | ⟨j, q, hse, hsi, hk, hs⟩)
            · obtain ⟨rfl, rfl⟩ := Prod.mk.inj h
              exact ⟨0, 0, seenFromTop_zero hv ho.1 ho.2 hle, rfl, rfl, hv⟩
            · exact ⟨j + 1, q + 1, (seenFromTop_succ hor hv ho.1 ho.2 hle).mpr hse,
                by simpa using hsi, by simpa using hk, hs⟩
          · rintro ⟨j, q, hse, hsi, hk, hs⟩
            have hf : SignsAt (checker.accepts scriptCode sigversion) (key' :: keys)
              (sig' :: sigs) 0 0 := signsAt_zero_zero.mpr hv
            cases j with
            | zero =>
              obtain rfl := hor.unique hf ⟨sig, key, hsi, hk, hs⟩
              simp only [List.getElem?_cons_zero, Option.some.injEq] at hsi hk
              exact .inl (by rw [hsi, hk])
            | succ j =>
              have hp := hor.order (Nat.succ_pos j) hf ⟨sig, key, hsi, hk, hs⟩
              obtain ⟨q, rfl⟩ : ∃ q', q = q' + 1 := ⟨q - 1, by omega⟩
              exact .inr ⟨j, q, (seenFromTop_succ hor hv ho.1 ho.2 hle).mp hse,
                by simpa using hsi, by simpa using hk, hs⟩
      · simp only [ho, false_and, false_iff, not_exists]
        rintro j q ⟨hse, -⟩
        exact not_seenFromTop_of_not_ok ho hse

end Calls
variable {key x : Valtype} {β : Type}

theorem lookup_emplace_of_some {β : Type} {m : AList fun _ : Valtype => β} {w v : β}
    (h : m.lookup x = some w) : (emplace m key v).lookup x = some w := by
  unfold emplace
  split_ifs with hk
  · exact h
  · rw [AList.lookup_insert_ne, h]
    rintro rfl
    simp [h] at hk

variable {m : AList fun _ : Valtype => β}

theorem lookup_emplace_self {v : β} (h : m.lookup key = none) :
    (emplace m key v).lookup key = some v := by
  rw [emplace, if_neg (by simp [h]), AList.lookup_insert]

theorem lookup_emplace_ne {v : β} (h : x ≠ key) : (emplace m key v).lookup x = m.lookup x := by
  unfold emplace
  split_ifs
  · rfl
  · exact AList.lookup_insert_ne h

section Collect
variable (crypto : Crypto)

def keyID (key : Valtype) : Valtype := (CPubKey.ofVch key).getID crypto

variable {crypto} {checker : SignatureChecker} {nextScript : CScript} {sigversion : SigVersion}
  {signatures signatures' : SigPairs} {x sig : Valtype} {left left' : List Valtype}
  {pair : CPubKey × Valtype} {calls : List SigCall} {call : SigCall}

theorem lookup_foldl_of_some (h : signatures.lookup x = some pair) :
    (calls.foldl (recordSig crypto) signatures).lookup x = some pair := by
  induction calls generalizing signatures with
  | nil => exact h
  | cons call calls ih => exact ih (lookup_emplace_of_some h)

theorem lookup_foldl_of_ne (h : ∀ call ∈ calls, x ≠ keyID crypto call.1) :
    (calls.foldl (recordSig crypto) signatures).lookup x = signatures.lookup x := by
  induction calls generalizing signatures with
  | nil => rfl
  | cons call calls ih =>
    rw [forall_mem_cons] at h
    rw [foldl_cons, ih h.2]
    exact lookup_emplace_ne h.1

theorem lookup_foldl_of_mem (hm : call ∈ calls)
    (ho : ∀ call' ∈ calls, keyID crypto call'.1 = keyID crypto call.1 → call' = call)
    (hn : signatures.lookup (keyID crypto call.1) = none) :
    (calls.foldl (recordSig crypto) signatures).lookup (keyID crypto call.1) =
      some (.ofVch call.1, call.2) := by
  induction calls generalizing signatures with
  | nil => cases hm
  | cons call' calls ih =>
    rw [forall_mem_cons] at ho
    by_cases he : keyID crypto call'.1 = keyID crypto call.1
    · obtain rfl := ho.1 he
      rw [foldl_cons]
      exact lookup_foldl_of_some (lookup_emplace_self hn)
    · rw [mem_cons] at hm
      refine ih (hm.resolve_left ?_) ho.2 ?_
      · rintro rfl
        exact he rfl
      · exact (lookup_emplace_ne (Ne.symm he)).trans hn

theorem findKey_eq_some
    (h : findKey crypto checker nextScript sigversion sig left signatures =
      some (left', signatures')) :
    ∃ passed key, left = passed ++ key :: left' ∧
      ((signatures.lookup (keyID crypto key)).isSome ∧ signatures' = signatures ∨
        checker.accepts nextScript sigversion sig key ∧
          signatures' = recordSig crypto signatures (key, sig)) := by
  induction left with
  | nil => cases h
  | cons key left ih =>
    simp only [findKey] at h
    split_ifs at h with hr hv
    · cases h
      exact ⟨[], key, rfl, .inl ⟨hr, rfl⟩⟩
    · cases h
      exact ⟨[], key, rfl, .inr ⟨hv, rfl⟩⟩
    · obtain ⟨passed, key', rfl, hf⟩ := ih h
      exact ⟨key :: passed, key', rfl, hf⟩

theorem findKey_eq_none
    (h : findKey crypto checker nextScript sigversion sig left signatures = none) :
    ∀ key ∈ left, signatures.lookup (keyID crypto key) = none ∧
      checker.accepts nextScript sigversion sig key = false := by
  induction left with
  | nil => simp
  | cons key left ih =>
    simp only [findKey] at h
    split_ifs at h with hr hv
    exact forall_mem_cons.mpr ⟨⟨not_isSome_iff_eq_none.mp hr, Bool.eq_false_iff.mpr hv⟩, ih h⟩

variable {elems : List Valtype}

theorem lookup_collectSigs_of_some (h : signatures.lookup x = some pair) :
    (collectSigs crypto checker nextScript sigversion elems left signatures).lookup x = some pair := by
  induction elems generalizing left signatures with
  | nil => exact h
  | cons sig elems ih =>
    rw [collectSigs]
    cases hf : findKey crypto checker nextScript sigversion sig left signatures with
    | none => exact ih h
    | some found =>
      obtain ⟨left', signatures'⟩ := found
      obtain ⟨_, _, -, ⟨-, hs⟩ | ⟨-, hr⟩⟩ := findKey_eq_some hf
      · exact ih (hs ▸ h)
      · exact ih (hr ▸ lookup_emplace_of_some h)

theorem lookup_collectSigs_of_ne (h : ∀ key ∈ left, x ≠ keyID crypto key) :
    (collectSigs crypto checker nextScript sigversion elems left signatures).lookup x =
      signatures.lookup x := by
  induction elems generalizing left signatures with
  | nil => rfl
  | cons sig elems ih =>
    rw [collectSigs]
    cases hfi : findKey crypto checker nextScript sigversion sig left signatures with
    | none => exact ih h
    | some found =>
      obtain ⟨left', signatures'⟩ := found
      obtain ⟨p, key, rfl, hf⟩ := findKey_eq_some hfi
      refine (ih fun k hk => h k (by simp [hk])).trans ?_
      obtain ⟨-, hs⟩ | ⟨-, hr⟩ := hf
      · rw [hs]
      · rw [hr]
        exact lookup_emplace_ne (h key (by simp))

/-- Signatures among the elements are in the order of their keys, each valid for one key only,
whose name no other key of the script has. -/
structure PartialSignatures (crypto : Crypto) (valid : Valtype → Valtype → Bool)
    (keys elems : List Valtype) : Prop extends InKeyOrder valid keys elems where
  one_id : ∀ {i q q' key key'}, SignsAt valid keys elems i q → keys[q]? = some key →
    keys[q']? = some key' → keyID crypto key' = keyID crypto key → q' = q

def KeepsSignatures (crypto : Crypto) (valid : Valtype → Valtype → Bool)
    (keys elems : List Valtype) (signatures : SigPairs) : Prop :=
  ∀ sig ∈ elems, ∀ key ∈ keys, valid sig key = true →
    signatures.lookup (keyID crypto key) = some (.ofVch key, sig)

variable {valid : Valtype → Valtype → Bool} {keys elems passed : List Valtype} {key : Valtype}

theorem PartialSignatures.tail_elems (h : PartialSignatures crypto valid keys (sig :: elems)) :
    PartialSignatures crypto valid keys elems where
  toInKeyOrder := h.toInKeyOrder.tail_elems
  one_id hsigns := h.one_id (signsAt_succ_left.mpr hsigns)

theorem PartialSignatures.drop (h : PartialSignatures crypto valid (passed ++ keys) elems) :
    PartialSignatures crypto valid keys elems where
  unique h₁ h₂ := by
    have := h.unique (signsAt_append.mpr h₁) (signsAt_append.mpr h₂)
    omega
  order hij h₁ h₂ := by
    have := h.order hij (signsAt_append.mpr h₁) (signsAt_append.mpr h₂)
    omega
  one_id hsigns hq hq' hid := by
    have := h.one_id (signsAt_append.mpr hsigns) (getElem?_append_add.trans hq)
      (getElem?_append_add.trans hq') hid
    omega

theorem PartialSignatures.collectSigs_keeps
    (h : PartialSignatures crypto (checker.accepts nextScript sigversion) left elems)
    (hn : ∀ key ∈ left, signatures.lookup (keyID crypto key) = none) :
    KeepsSignatures crypto (checker.accepts nextScript sigversion) left elems
      (collectSigs crypto checker nextScript sigversion elems left signatures) := by
  induction elems generalizing left signatures with
  | nil =>
    intro sig hsi
    cases hsi
  | cons sig₀ elems ih =>
    rw [collectSigs]
    cases hfi : findKey crypto checker nextScript sigversion sig₀ left signatures with
    | none =>
      have hno := findKey_eq_none hfi
      intro sig hsi key hk hv
      rcases mem_cons.mp hsi with rfl | hsi
      · rw [(hno key hk).2] at hv
        cases hv
      · exact ih h.tail_elems hn sig hsi key hk hv
    | some found =>
      obtain ⟨left', signatures'⟩ := found
      obtain ⟨p, key₀, rfl, ⟨hr, -⟩ | ⟨hv₀, rfl⟩⟩ := findKey_eq_some hfi
      · rw [hn key₀ (by simp)] at hr
        cases hr
      have hk₀ : (p ++ key₀ :: left')[p.length + 0]? = some key₀ :=
        getElem?_append_add
      have hf : SignsAt (checker.accepts nextScript sigversion) (p ++ key₀ :: left')
          (sig₀ :: elems) 0 (p.length + 0) := ⟨sig₀, key₀, rfl, hk₀, hv₀⟩
      have hl : ∀ key ∈ left',
          (recordSig crypto signatures (key₀, sig₀)).lookup (keyID crypto key) = none := by
        intro key hk
        obtain ⟨q, hq⟩ := mem_iff_getElem?.mp hk
        have hne : keyID crypto key ≠ keyID crypto key₀ := by
          intro hid
          have hq' : (p ++ key₀ :: left')[p.length + (q + 1)]? = some key :=
            getElem?_append_add.trans (by simpa using hq)
          have := h.one_id hf hk₀ hq' hid
          omega
        exact (lookup_emplace_ne hne).trans (hn key (by simp [hk]))
      intro sig hsi key hk hv
      obtain ⟨i, q, hs, hi, hq⟩ := signsAt_of_mem hsi hk hv
      cases i with
      | zero =>
        obtain rfl := h.unique hf hs
        obtain rfl : sig₀ = sig := by simpa using hi
        obtain rfl : key₀ = key := Option.some.inj (hk₀.symm.trans hq)
        exact lookup_collectSigs_of_some (lookup_emplace_self (hn key₀ (by simp)))
      | succ i =>
        have hlt := h.order (Nat.succ_pos i) hf hs
        obtain ⟨q, rfl⟩ : ∃ q', q = p.length + (q' + 1) := ⟨q - p.length - 1, by omega⟩
        rw [getElem?_append_add, List.getElem?_cons_succ] at hq
        have hp : PartialSignatures crypto (checker.accepts nextScript sigversion) left'
            elems := by
          have := h.tail_elems
          rw [append_cons] at this
          exact this.drop
        exact ih hp hl sig (mem_of_getElem? (by simpa using hi)) key
          (mem_of_getElem? hq) hv

theorem PartialSignatures.call_eq (h : PartialSignatures crypto valid keys elems) {call' : SigCall}
    (hc : call.2 ∈ elems ∧ call.1 ∈ keys ∧ valid call.2 call.1)
    (hc' : call'.2 ∈ elems ∧ call'.1 ∈ keys ∧ valid call'.2 call'.1)
    (hid : keyID crypto call'.1 = keyID crypto call.1) : call' = call := by
  obtain ⟨i, q, hs, hi, hq⟩ := signsAt_of_mem hc.1 hc.2.1 hc.2.2
  obtain ⟨i', q', hs', hi', hq'⟩ := signsAt_of_mem hc'.1 hc'.2.1 hc'.2.2
  obtain rfl := h.one_id hs hq hq' hid
  obtain rfl : i' = i := h.toInKeyOrder.eq_of_signsAt hs' hs
  exact Prod.ext (Option.some.inj (hq'.symm.trans hq)) (Option.some.inj (hi'.symm.trans hi))

theorem exists_call_of_isSome (h : ((calls.foldl (recordSig crypto) ∅).lookup x).isSome) :
    ∃ call ∈ calls, keyID crypto call.1 = x := by
  by_contra hno
  have hn : ∀ call ∈ calls, x ≠ keyID crypto call.1 := fun call hc he =>
    hno ⟨call, hc, he.symm⟩
  rw [lookup_foldl_of_ne hn, AList.lookup_empty] at h
  cases h

section Recorded
variable {dummy : Valtype} {calls : List SigCall}
  (h : PartialSignatures crypto (checker.accepts nextScript sigversion) keys elems)
  (hdu : ∀ key ∈ keys, checker.accepts nextScript sigversion dummy key = false)
  (hca : ∀ call ∈ calls, call.2 ∈ elems ∧ call.1 ∈ keys ∧
    checker.accepts nextScript sigversion call.2 call.1 = true)
  (hab : ∀ {q q₀ : ℕ} {key key₀ sig sig₀ : Valtype}, (key₀, sig₀) ∈ calls →
    keys[q₀]? = some key₀ → keys[q]? = some key → q₀ ≤ q → sig ∈ elems →
    checker.accepts nextScript sigversion sig key = true → (key, sig) ∈ calls)
include h hdu hca hab

theorem PartialSignatures.mem_calls_of_keeps (hso : calls ≠ []) (hsi : sig ∈ elems)
    (hk : key ∈ keys)
    (hv : checker.accepts nextScript sigversion sig key)
    (hke : (collectSigs crypto checker nextScript sigversion (dummy :: elems) keys
      (calls.foldl (recordSig crypto) ∅)).lookup (keyID crypto key) = some pair) :
    (key, sig) ∈ calls := by
  by_contra hnot
  obtain ⟨i, q, hs, hi, hq⟩ := signsAt_of_mem hsi hk hv
  have hu : ∀ call ∈ calls, keyID crypto key ≠ keyID crypto call.1 := by
    intro call hc hid
    obtain rfl : call = (key, sig) := h.call_eq ⟨hsi, hk, hv⟩ (hca call hc) hid.symm
    exact hnot hc
  rw [collectSigs] at hke
  cases hf : findKey crypto checker nextScript sigversion dummy keys
      (calls.foldl (recordSig crypto) ∅) with
  | none =>
    obtain ⟨call, hc⟩ := exists_mem_of_ne_nil calls hso
    have hr := lookup_foldl_of_mem hc
      (fun call' hc' => h.call_eq (hca call hc) (hca call' hc'))
      (AList.lookup_empty _)
    rw [(findKey_eq_none hf call.1 (hca call hc).2.1).1] at hr
    cases hr
  | some found =>
    obtain ⟨left', signatures'⟩ := found
    rw [hf] at hke
    obtain ⟨pa, key₀, rfl, ⟨hr, rfl⟩ | ⟨ha, -⟩⟩ := findKey_eq_some hf
    · -- the dummy is stopped by a recorded key, which comes behind the key that is lost
      have hk₀ : (pa ++ key₀ :: left')[pa.length + 0]? = some key₀ := getElem?_append_add
      obtain ⟨call, hc, hid⟩ := exists_call_of_isSome hr
      obtain ⟨i₁, q₁, hs₁, hi₁, hq₁⟩ := signsAt_of_mem (hca call hc).1
        (hca call hc).2.1 (hca call hc).2.2
      obtain rfl := h.one_id hs₁ hq₁ hk₀ hid.symm
      have hl : q < pa.length := by
        by_contra hle
        exact hnot (hab hc hq₁ hq (by omega) hsi hv)
      have hfr : ∀ key' ∈ left', keyID crypto key ≠ keyID crypto key' := by
        intro key' hk' hid'
        obtain ⟨p, hp⟩ := mem_iff_getElem?.mp hk'
        have hp' : (pa ++ key₀ :: left')[pa.length + (p + 1)]? = some key' := by
          rw [getElem?_append_add, List.getElem?_cons_succ, hp]
        have := h.one_id hs hq hp' hid'.symm
        omega
      rw [lookup_collectSigs_of_ne hfr, lookup_foldl_of_ne hu, AList.lookup_empty] at hke
      cases hke
    · rw [hdu key₀ (by simp)] at ha
      cases ha

theorem PartialSignatures.keeps_iff :
    KeepsSignatures crypto (checker.accepts nextScript sigversion) keys elems
        (collectSigs crypto checker nextScript sigversion (dummy :: elems) keys
          (calls.foldl (recordSig crypto) ∅)) ↔
      (calls ≠ [] → ∀ sig ∈ elems, ∀ key ∈ keys,
        checker.accepts nextScript sigversion sig key → (key, sig) ∈ calls) := by
  constructor
  · intro hke hs sig hsi key hk hv
    exact h.mem_calls_of_keeps hdu hca hab hs hsi hk hv
      (hke sig hsi key hk hv)
  · intro hal
    by_cases hn : calls = []
    · subst hn
      have hf : findKey crypto checker nextScript sigversion dummy keys ∅ = none := by
        cases hf : findKey crypto checker nextScript sigversion dummy keys ∅ with
        | none => rfl
        | some found =>
          obtain ⟨left', signatures'⟩ := found
          obtain ⟨p, key, rfl, ⟨hr, -⟩ | ⟨ha, -⟩⟩ := findKey_eq_some hf
          · cases hr
          · rw [hdu key (by simp)] at ha
            cases ha
      rw [foldl_nil, collectSigs, hf]
      exact h.collectSigs_keeps fun key _ => rfl
    · intro sig hsi key hk hv
      have hm := hal hn sig hsi key hk hv
      exact lookup_collectSigs_of_some (lookup_foldl_of_mem hm
        (fun call' hc' => h.call_eq (hca _ hm) (hca call' hc')) rfl)

end Recorded

end Collect

section Verification
variable (crypto : Crypto) (checker : SignatureChecker) (script : CScript) (sigversion : SigVersion)

/-- The signature at depth `j` is accepted while the input is verified, if verification gets to the
signatures. -/
def SeenByVerification (m : ℕ) (keys elems : List Valtype) (j : ℕ) : Prop :=
  SeenFromTop (checker.accepts script sigversion) (sigEncoded crypto standardScriptVerifyFlags)
    (keyEncoded standardScriptVerifyFlags sigversion) keys.reverse (elems.reverse.take m) j

/-- The signature is accepted for the key there. -/
def SeenFor (m : ℕ) (keys elems : List Valtype) (key sig : Valtype) : Prop :=
  ∃ j q : ℕ, SeenByVerification crypto checker script sigversion m keys elems j ∧
    elems.reverse[j]? = some sig ∧ keys.reverse[q]? = some key ∧
    checker.accepts script sigversion sig key

variable {crypto checker script sigversion} {m : ℕ} {keys elems : List Valtype} {key sig : Valtype}

theorem mem_calls_of_inKeyOrder (h : InKeyOrder (checker.accepts script sigversion) keys elems)
    (hm : m ≤ keys.length) :
    (key, sig) ∈ matchSigsCalls crypto standardScriptVerifyFlags checker sigversion script
        keys.reverse (elems.reverse.take m) ↔
      SeenFor crypto checker script sigversion m keys elems key sig := by
  rw [mem_matchSigsCalls (h.reverse.take m) (by simp; omega)]
  refine exists₂_congr fun j q => and_congr_right fun hse => and_congr_left fun _ => ?_
  obtain ⟨_, hs, -⟩ := hse j le_rfl
  rw [List.getElem?_take_of_lt (signsAt_take.mp hs).1]

theorem seen_above (h : InKeyOrder (checker.accepts script sigversion) keys elems)
    {q q₀ : ℕ} {key₀ sig₀ : Valtype}
    (hse : SeenFor crypto checker script sigversion m keys elems key₀ sig₀)
    (hq₀ : keys[q₀]? = some key₀) (hq : keys[q]? = some key) (hle : q₀ ≤ q) (hsi : sig ∈ elems)
    (hv : checker.accepts script sigversion sig key) :
    SeenFor crypto checker script sigversion m keys elems key sig := by
  obtain ⟨j₀, -, hse, hj₀, -, hv₀⟩ := hse
  obtain ⟨j, hj⟩ := mem_iff_getElem?.mp (mem_reverse.mpr hsi)
  have hl := (List.getElem?_eq_some_iff.mp hq).1
  have hl₀ := (List.getElem?_eq_some_iff.mp hq₀).1
  have hr : ∀ {p : ℕ} {k : Valtype}, keys[p]? = some k → p < keys.length →
      keys.reverse[keys.length - 1 - p]? = some k := by
    intro p k hp hl
    rw [List.getElem?_reverse (by omega), show keys.length - 1 - (keys.length - 1 - p) = p by omega,
      hp]
  have hs : SignsAt (checker.accepts script sigversion) keys.reverse elems.reverse j
      (keys.length - 1 - q) := ⟨sig, key, hj, hr hq hl, hv⟩
  have hs₀ : SignsAt (checker.accepts script sigversion) keys.reverse elems.reverse j₀
      (keys.length - 1 - q₀) := ⟨sig₀, key₀, hj₀, hr hq₀ hl₀, hv₀⟩
  refine ⟨j, keys.length - 1 - q, hse.of_le ?_, hj, hr hq hl, hv⟩
  by_contra hgt
  have := h.reverse.order (not_le.mp hgt) hs₀ hs
  omega

end Verification

section Inputs
variable {crypto : Crypto} {checker : SignatureChecker} {script : CScript} {m : ℕ}
  {keys elems witness : List Valtype} {scriptSig : CScript} {leftOver : CScript → List Valtype}

theorem stackOf_of_ok {stack : List Valtype}
    (h : evalBase crypto (.ofList [.strictEnc]) baseSignatureChecker [] scriptSig = .ok stack) :
    stackOf crypto leftOver scriptSig = stack := by
  rw [stackOf, h]

theorem ne_nil_of_solver (h : solver script = .multisig m keys) : script ≠ [] := by
  rintro rfl
  cases h

variable (out : MultisigOutput)

theorem MultisigOutput.takeScripts (hsz : crypto.HashSizes)
    (hsv : solver script = .multisig m keys)
    (hho : out.Holds crypto script elems scriptSig witness) (leftOver : CScript → List Valtype)
    (data : SignatureData) :
    ∃ s : ExtractionState, takeWitnessScript (takeRedeemScript
        ⟨solver (out.scriptPubKey crypto script), .base, out.scriptPubKey crypto script,
          stackOf crypto leftOver scriptSig, witness, data⟩) = s ∧
      s.scriptType = .multisig m keys ∧ s.sigversion = out.sigversion ∧ s.nextScript = script ∧
      s.script = elems.reverse ∧ s.data.signatures = data.signatures := by
  have hn := ne_nil_of_solver hsv
  have h32 := hsz.sha256 script
  have hw : solver (getScriptForWitnessV0 (crypto.sha256 script)) =
      .witnessV0Scripthash (crypto.sha256 script) := by
    rw [solver_getScriptForWitnessV0 (by omega) (by omega), solveWitnessProgram]
    simp [h32]
  refine ⟨_, rfl, ?_⟩
  cases out with
  | bare =>
    obtain ⟨-, hs⟩ := hho
    simp [scriptPubKey, stackOf_of_ok hs, takeRedeemScript, takeWitnessScript, hsv, sigversion]
  | scriptHash =>
    obtain ⟨-, hs⟩ := hho
    simp [scriptPubKey, stackOf_of_ok hs, takeRedeemScript, takeWitnessScript, hsv,
      solver_getScriptForScriptHash (hsz.hash160 script), hn, sigversion]
  | witnessScriptHash =>
    obtain ⟨rfl, rfl⟩ := hho
    simp [scriptPubKey, takeRedeemScript, takeWitnessScript, hsv, hw, hn, sigversion]
  | nestedWitnessScriptHash =>
    obtain ⟨rfl, rfl⟩ := hho
    have hl := length_getScriptForWitnessV0 h32
    have hp : getScriptForWitnessV0 (crypto.sha256 script) ≠ [] := by
      rw [← length_pos_iff, hl]
      omega
    have hpu : evalBase crypto (.ofList [.strictEnc]) baseSignatureChecker []
        (CScript.push [] (getScriptForWitnessV0 (crypto.sha256 script))) = .ok [_] :=
      evalBase_push (by omega) (by rw [hl]; decide)
    simp [scriptPubKey, stackOf_of_ok hpu, takeRedeemScript, takeWitnessScript, hsv, hw,
      hn, solver_getScriptForScriptHash (hsz.hash160 _), hp, sigversion]

theorem MultisigOutput.signatures_dataFromInput (hsz : crypto.HashSizes)
    (hsv : solver script = .multisig m keys) (hn : elems ≠ [])
    (hho : out.Holds crypto script elems scriptSig witness) :
    (dataFromInput crypto checker leftOver scriptSig witness
        (out.scriptPubKey crypto script)).signatures =
      let calls := verifyScriptCalls crypto standardScriptVerifyFlags
        (signatureExtractorChecker checker) scriptSig (out.scriptPubKey crypto script) witness
      if (verifyScript crypto standardScriptVerifyFlags (signatureExtractorChecker checker)
          scriptSig (out.scriptPubKey crypto script) (some witness)).isOk then
        calls.foldl (recordSig crypto) ∅
      else collectSigs crypto checker script out.sigversion elems keys
        (calls.foldl (recordSig crypto) ∅) := by
  unfold dataFromInput
  dsimp only
  split
  · rfl
  · obtain ⟨s, hs, ht, hsi, hsc, hst, hss⟩ :=
      out.takeScripts hsz hsv hho leftOver _
    rw [hs, takeSignatures, ht]
    simp only [hst, isEmpty_reverse, List.isEmpty_iff, hn, if_false, hsc, hsi, reverse_reverse, hss]

variable {calls : List SigCall}

theorem PartialSignatures.keeps_foldl_iff {valid : Valtype → Valtype → Bool}
    (h : PartialSignatures crypto valid keys elems)
    (hca : ∀ call ∈ calls, call.2 ∈ elems ∧ call.1 ∈ keys ∧ valid call.2 call.1) :
    KeepsSignatures crypto valid keys elems (calls.foldl (recordSig crypto) ∅) ↔
      ∀ sig ∈ elems, ∀ key ∈ keys, valid sig key → (key, sig) ∈ calls := by
  constructor
  · intro hke sig hs key hk hv
    obtain ⟨call, hc, hi⟩ := exists_call_of_isSome
      (isSome_of_eq_some (hke sig hs key hk hv))
    obtain rfl : call = (key, sig) := h.call_eq ⟨hs, hk, hv⟩ (hca call hc) hi
    exact hc
  · intro ha sig hs key hk hv
    have hm := ha sig hs key hk hv
    exact lookup_foldl_of_mem hm
      (fun call' hc' => h.call_eq (hca _ hm) (hca call' hc')) rfl

variable {dummy : Valtype}

theorem take_reverse_cons (hl : m ≤ elems.length) :
    (dummy :: elems).reverse.take m = elems.reverse.take m := by
  rw [reverse_cons, take_append_of_le_length (by simpa using hl)]

variable (out : MultisigOutput) (hsz : crypto.HashSizes)
  (hsv : solver script = .multisig m keys)
  (hho : out.Holds crypto script (dummy :: elems) scriptSig witness)
include hsz hsv hho

section
variable (hor : InKeyOrder (checker.accepts script out.sigversion) keys elems)
include hor

theorem MultisigOutput.mem_calls_iff {key sig : Valtype} :
    (key, sig) ∈ verifyScriptCalls crypto standardScriptVerifyFlags
        (signatureExtractorChecker checker) scriptSig (out.scriptPubKey crypto script) witness ↔
      out.Reaches crypto script m keys.length (dummy :: elems) scriptSig ∧
      SeenFor crypto checker script out.sigversion m keys elems key sig := by
  obtain ⟨pushOps, hm⟩ := exists_isMultisig (solver_eq_multisig hsv).2.2
  rw [out.mem_verifyScriptCalls hsz hsv hho]
  refine and_congr_right fun hr => ?_
  have he := hr.2.enough
  simp only [length_reverse, length_cons] at he
  rw [take_reverse_cons (by omega)]
  have hor' : InKeyOrder ((signatureExtractorChecker checker).accepts script out.sigversion) keys
    elems := hor
  exact mem_calls_of_inKeyOrder hor' hm.le_length

theorem MultisigOutput.of_mem_calls :
    ∀ call ∈ verifyScriptCalls crypto standardScriptVerifyFlags (signatureExtractorChecker checker)
        scriptSig (out.scriptPubKey crypto script) witness,
      call.2 ∈ elems ∧ call.1 ∈ keys ∧ checker.accepts script out.sigversion call.2 call.1 := by
  rintro ⟨key, sig⟩ hc
  obtain ⟨-, j, q, -, hj, hq, hv⟩ := (out.mem_calls_iff hsz hsv hho hor).mp hc
  exact ⟨(mem_of_signsAt_reverse hj hq).1, (mem_of_signsAt_reverse hj hq).2, hv⟩

end

variable (h : PartialSignatures crypto (checker.accepts script out.sigversion) keys elems)
  (hdu : ∀ key ∈ keys, checker.accepts script out.sigversion dummy key = false)
include h hdu

theorem MultisigOutput.keepsSignatures_iff_calls
    (hd : verifyScriptCalls crypto standardScriptVerifyFlags
      (signatureExtractorChecker checker) scriptSig (out.scriptPubKey crypto script) witness =
        calls) :
    KeepsSignatures crypto (checker.accepts script out.sigversion) keys elems
        (dataFromInput crypto checker leftOver scriptSig witness
          (out.scriptPubKey crypto script)).signatures ↔
      (calls ≠ [] → ∀ sig ∈ elems, ∀ key ∈ keys,
        checker.accepts script out.sigversion sig key → (key, sig) ∈ calls) := by
  have hca := out.of_mem_calls hsz hsv hho h.toInKeyOrder
  rw [out.signatures_dataFromInput hsz hsv (by simp) hho]
  rw [hd] at hca ⊢
  dsimp only
  split
  next ho =>
    obtain ⟨⟨⟩, hv⟩ := Except.exists_ok_of_isOk ho
    obtain ⟨hr, call, hc⟩ := out.exists_mem_of_verifyScript hsz hsv hho hv
    have hn : calls ≠ [] := ne_nil_of_mem
      (hd ▸ (out.mem_verifyScriptCalls hsz hsv hho).mpr ⟨hr, hc⟩)
    rw [h.keeps_foldl_iff hca]
    exact ⟨fun ha _ => ha, fun ha => ha hn⟩
  next =>
    refine h.keeps_iff hdu hca fun hc hq₀ hq hl hs hva => ?_
    subst hd
    rw [out.mem_calls_iff hsz hsv hho h.toInKeyOrder] at hc ⊢
    exact ⟨hc.1, seen_above h.toInKeyOrder hc.2 hq₀ hq hl hs hva⟩

theorem MultisigOutput.keepsSignatures_iff :
    KeepsSignatures crypto (checker.accepts script out.sigversion) keys elems
        (dataFromInput crypto checker leftOver scriptSig witness
          (out.scriptPubKey crypto script)).signatures ↔
      (out.Reaches crypto script m keys.length (dummy :: elems) scriptSig →
        SeenByVerification crypto checker script out.sigversion m keys elems 0 →
        ∀ j q, SignsAt (checker.accepts script out.sigversion) keys.reverse elems.reverse j q →
          SeenByVerification crypto checker script out.sigversion m keys elems j) := by
  rw [out.keepsSignatures_iff_calls hsz hsv hho h hdu rfl]
  constructor
  · intro hke hr hs j q hsi
    obtain ⟨q₀, hsi₀, -⟩ := hs 0 le_rfl
    obtain ⟨sig₀, key₀, hj₀, hq₀, hv₀⟩ := (signsAt_take.mp hsi₀).2
    have hn := ne_nil_of_mem ((out.mem_calls_iff hsz hsv hho h.toInKeyOrder).mpr
      ⟨hr, 0, q₀, hs, hj₀, hq₀, hv₀⟩)
    obtain ⟨sig, key, hj, hq, hv⟩ := hsi
    obtain ⟨hsg, hk⟩ := mem_of_signsAt_reverse hj hq
    obtain ⟨-, j', q', hs', hj', -⟩ := (out.mem_calls_iff hsz hsv hho
      h.toInKeyOrder).mp (hke hn sig hsg key hk hv)
    obtain rfl : j = j' := h.reverse.eq_of_signsAt ⟨sig, key, hj, hq, hv⟩
      ⟨sig, key, hj', hq, hv⟩
    exact hs'
  · intro hke hn sig hsg key hk hv
    obtain ⟨⟨key₀, sig₀⟩, hc⟩ := exists_mem_of_ne_nil _ hn
    obtain ⟨hr, j₀, q₀, hs, -⟩ :=
      (out.mem_calls_iff hsz hsv hho h.toInKeyOrder).mp hc
    obtain ⟨j, hj⟩ := mem_iff_getElem?.mp (mem_reverse.mpr hsg)
    obtain ⟨q, hq⟩ := mem_iff_getElem?.mp (mem_reverse.mpr hk)
    have hs' := hke hr (hs.of_le (Nat.zero_le j₀)) j q ⟨sig, key, hj, hq, hv⟩
    exact (out.mem_calls_iff hsz hsv hho h.toInKeyOrder).mpr
      ⟨hr, j, q, hs', hj, hq, hv⟩

end Inputs

/-- `DataFromTransaction` keeps all signatures of a multisig input if and only if verification does
not get to the signatures, does not accept the one on top, or comes to all of them. -/
theorem dataFromTransaction_keepsSignatures_iff {crypto : Crypto} {curve : Curve}
    {leftOver : CScript → List Valtype} {tx : CTransaction} {nIn : ℕ} {txout : CTxOut}
    {txin : CTxIn}
    {checker : SignatureChecker} (out : MultisigOutput) {script : CScript} {m : ℕ}
    {keys elems : List Valtype} (dummy : Valtype) {data : SignatureData}
    (hsizes : crypto.HashSizes) (hin : tx.vin[nIn]? = some txin)
    (hchecker : checker = transactionSignatureChecker crypto curve tx nIn txout.nValue none)
    (hsolver : solver script = .multisig m keys)
    (hout : txout.scriptPubKey = out.scriptPubKey crypto script)
    (hholds : out.Holds crypto script (dummy :: elems) txin.scriptSig txin.scriptWitness)
    (h : PartialSignatures crypto (checker.accepts script out.sigversion) keys elems)
    (hdummy : ∀ key ∈ keys, checker.accepts script out.sigversion dummy key = false)
    (hdata : dataFromTransaction crypto curve leftOver tx nIn txout = some data) :
    KeepsSignatures crypto (checker.accepts script out.sigversion) keys elems data.signatures ↔
      (out.Reaches crypto script m keys.length (dummy :: elems) txin.scriptSig →
        SeenByVerification crypto checker script out.sigversion m keys elems 0 →
        ∀ j q, SignsAt (checker.accepts script out.sigversion) keys.reverse elems.reverse j q →
          SeenByVerification crypto checker script out.sigversion m keys elems j) := by
  subst hchecker
  rw [dataFromTransaction, hin, map_some, Option.some.injEq, hout] at hdata
  rw [← hdata]
  exact out.keepsSignatures_iff hsizes hsolver hholds h hdummy

def sizedCrypto : Crypto :=
  { plainCrypto with
    ripemd160 := fun vch => (vch ++ .replicate 20 0).take 20
    sha256 := fun vch => (vch ++ .replicate 32 0).take 32 }

theorem sizedCrypto_hashSizes : sizedCrypto.HashSizes where
  hash160 vch := by simp [Crypto.hash160, sizedCrypto]
  sha256 vch := by simp [sizedCrypto]

def byteCurve : Curve where
  getPubKey key := .ofVch (2 :: key.keydata)
  isFullyValid pubkey := pubkey.isValid
  getXOnlyPubKey pubkey := pubkey.vch.drop 1
  createPayToTaprootPubKey := id
  sign _ _ := none
  signSchnorr _ _ := none
  signSchnorrTaproot _ _ := none
  verify pubkey _ sig := pubkey.vch.getD 1 0 = sig.getD 4 0
  verifySchnorr _ _ _ := false

def byteKey (b : UInt8) : Valtype := 2 :: b :: .replicate 31 0

def byteSig (b : UInt8) : Valtype := [0x30, 6, 2, 1, b, 2, 1, 1, 1]

def threeKeys : List Valtype := [byteKey 1, byteKey 2, byteKey 3]

def threeOfThree : CScript :=
  [0x53] ++ threeKeys.flatMap (CScript.push []) ++ [0x53, opCheckMultisigByte]

variable (elems : List Valtype)

def multisigSpend : CTransaction :=
  ⟨[⟨⟨5, 0⟩, ([] :: elems).flatMap (CScript.push []), 0, []⟩], [⟨90, []⟩], 2, 0, 7⟩

def multisigChecker : SignatureChecker :=
  transactionSignatureChecker sizedCrypto byteCurve (multisigSpend elems) 0 100 none

theorem PartialSignatures.of_positions {crypto : Crypto} {valid : Valtype → Valtype → Bool}
    {keys elems : List Valtype}
    (hu : ∀ i < elems.length, ∀ q < keys.length, ∀ q' < keys.length,
      SignsAt valid keys elems i q → SignsAt valid keys elems i q' → q = q')
    (horder : ∀ j < elems.length, ∀ i < j, SignsBefore valid keys elems i j)
    (hi : (keys.map (keyID crypto)).Nodup) : PartialSignatures crypto valid keys elems where
  unique h h' := hu _ h.lt_length.1 _ h.lt_length.2 _ h'.lt_length.2 h h'
  order hij h h' := horder _ h'.lt_length.1 _ hij _ h.lt_length.2 _ h'.lt_length.2 h h'
  one_id {i q q' key key'} _ hq hq' heq := by
    have hl := (List.getElem?_eq_some_iff.mp hq).1
    have hl' := (List.getElem?_eq_some_iff.mp hq').1
    refine (List.getElem?_inj (by simpa using hl') hi).mp ?_
    rw [List.getElem?_map, List.getElem?_map, hq, hq', map_some, map_some, heq]

/-- The blank between two signatures of three. -/
theorem not_keepsSignatures_threeOfThree : ∃ data,
    dataFromTransaction sizedCrypto byteCurve (fun _ => [])
      (multisigSpend [byteSig 1, [], byteSig 3]) 0 ⟨100, threeOfThree⟩ = some data ∧
    PartialSignatures sizedCrypto
      ((multisigChecker [byteSig 1, [], byteSig 3]).accepts threeOfThree .base) threeKeys
      [byteSig 1, [], byteSig 3] ∧
    ¬ KeepsSignatures sizedCrypto
      ((multisigChecker [byteSig 1, [], byteSig 3]).accepts threeOfThree .base) threeKeys
      [byteSig 1, [], byteSig 3] data.signatures := by
  have hl : (dataFromTransaction sizedCrypto byteCurve (fun _ => [])
      (multisigSpend [byteSig 1, [], byteSig 3]) 0 ⟨100, threeOfThree⟩).map
        (fun data => data.signatures.lookup (keyID sizedCrypto (byteKey 1))) = some none := by
    decide +kernel
  obtain ⟨data, hd, hn⟩ := map_eq_some_iff.mp hl
  refine ⟨data, hd, .of_positions (by decide +kernel) (by decide +kernel) (by decide +kernel),
    ?_⟩
  intro hks
  have hk := hks (byteSig 1) (by decide) (byteKey 1) (by decide) (by decide +kernel)
  rw [hn] at hk
  cases hk

theorem keepsSignatures_threeOfThree : ∃ data,
    dataFromTransaction sizedCrypto byteCurve (fun _ => [])
      (multisigSpend [byteSig 1, byteSig 2, []]) 0 ⟨100, threeOfThree⟩ = some data ∧
    KeepsSignatures sizedCrypto
      ((multisigChecker [byteSig 1, byteSig 2, []]).accepts threeOfThree .base) threeKeys
      [byteSig 1, byteSig 2, []] data.signatures := by
  have hso : (dataFromTransaction sizedCrypto byteCurve (fun _ => [])
      (multisigSpend [byteSig 1, byteSig 2, []]) 0 ⟨100, threeOfThree⟩).isSome = true := rfl
  obtain ⟨data, hd⟩ := isSome_iff_exists.mp hso
  have hp : PartialSignatures sizedCrypto
      ((multisigChecker [byteSig 1, byteSig 2, []]).accepts threeOfThree .base) threeKeys
      [byteSig 1, byteSig 2, []] :=
    .of_positions (by decide +kernel) (by decide +kernel) (by decide +kernel)
  refine ⟨data, hd, (dataFromTransaction_keepsSignatures_iff .bare [] sizedCrypto_hashSizes rfl
    rfl (show solver threeOfThree = .multisig 3 threeKeys by decide +kernel) rfl
    ⟨by decide +kernel, by decide +kernel⟩ (by exact hp) (by decide +kernel) hd).mpr ?_⟩
  intro _ hse
  -- the element on top is empty
  obtain ⟨q, hs, -⟩ := hse 0 le_rfl
  have hn : ∀ q < threeKeys.length, ¬ SignsAt
      ((multisigChecker [byteSig 1, byteSig 2, []]).accepts threeOfThree .base) threeKeys.reverse
      ([byteSig 1, byteSig 2, []].reverse.take 3) 0 q := by decide +kernel
  exact absurd hs (hn q (by simpa using hs.lt_length.2))

end Palladium
