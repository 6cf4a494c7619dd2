import Palladium.Lib.Matching
import Palladium.Script.Programs

/-! # What `OP_CHECKMULTISIG` computes

The loop tries the keys one after the other and never goes back.
-/

namespace Palladium
open EvalM Except List StateT
variable {crypto : Crypto} {flags : ScriptFlags} {checker : SignatureChecker}
  {sigversion : SigVersion} {s t : EvalState}

theorem matchSigs_cons_cons (scriptCode : CScript) (key sig : Valtype) (keys sigs : List Valtype) :
    matchSigs crypto flags checker sigversion scriptCode (key :: keys) (sig :: sigs) = (do
      checkSignatureEncoding crypto flags sig
      checkPubKeyEncoding flags sigversion key
      let left := if checker.checkSig sig key scriptCode sigversion = true then sigs
        else sig :: sigs
      if keys.length < left.length then return false
      else matchSigs crypto flags checker sigversion scriptCode keys left) := by
  rw [matchSigs]
  cases checker.checkSig sig key scriptCode sigversion <;> rfl

variable {keys sigs : List Valtype} {scriptCode : CScript}

theorem eq_true_iff_of_matchSigs {b : Bool}
    (h : matchSigs crypto flags checker sigversion scriptCode keys sigs = .ok b) :
    b ↔ sigs.SublistForall₂ (checker.checkSig · · scriptCode sigversion) keys := by
  induction keys generalizing sigs with
  | nil =>
    cases sigs with
    | nil => exact iff_of_true (by simpa [matchSigs] using h.symm) .nil
    | cons sig sigs => exact iff_of_false (by simpa [matchSigs] using h.symm) (by rintro ⟨⟩)
  | cons key keys ih =>
    cases sigs with
    | nil => exact iff_of_true (by simpa [matchSigs] using h.symm) .nil
    | cons sig sigs =>
      rw [matchSigs_cons_cons, bind_eq_ok_punit, bind_eq_ok_punit] at h
      rw [sublistForall₂_cons_cons]
      obtain ⟨-, -, h⟩ := h
      generalize (if checker.checkSig sig key scriptCode sigversion = true then sigs
        else sig :: sigs) = left at h ⊢
      by_cases hl : keys.length < left.length
      · rw [if_pos hl, pure_eq_ok] at h
        exact iff_of_false (by simp [← h]) fun hs => hl.not_ge hs.length_le
      · rw [if_neg hl] at h
        exact ih h

theorem encoding_of_matchSigs {e : ScriptHalt}
    (h : matchSigs crypto flags checker sigversion scriptCode keys sigs = .error e) :
    (∃ sig ∈ sigs, checkSignatureEncoding crypto flags sig = .error e) ∨
      ∃ key ∈ keys, checkPubKeyEncoding flags sigversion key = .error e := by
  induction keys generalizing sigs with
  | nil => cases sigs <;> cases h
  | cons key keys ih =>
    cases sigs with
    | nil => cases h
    | cons sig sigs =>
      rw [matchSigs_cons_cons, bind_eq_error] at h
      rcases h with hs | ⟨_, -, h⟩
      · exact .inl ⟨sig, mem_cons_self, hs⟩
      rw [bind_eq_error] at h
      rcases h with hk | ⟨_, -, h⟩
      · exact .inr ⟨key, mem_cons_self, hk⟩
      have hm : ∀ v ∈ (if checker.checkSig sig key scriptCode sigversion = true then sigs
          else sig :: sigs), v ∈ sig :: sigs := by
        split_ifs
        · exact fun v => mem_cons_of_mem sig
        · exact fun v => id
      generalize (if checker.checkSig sig key scriptCode sigversion = true then sigs
        else sig :: sigs) = left at h hm
      by_cases hl : keys.length < left.length
      · rw [if_pos hl] at h
        cases h
      · rw [if_neg hl] at h
        exact (ih h).imp (fun ⟨v, hv, h⟩ => ⟨v, hm v hv, h⟩)
          fun ⟨v, hv, h⟩ => ⟨v, mem_cons_of_mem _ hv, h⟩

theorem run_checkTopEmpty {on : Bool} {e : ScriptError} {v : Valtype} {st : List Valtype}
    (hs : s.stack = v :: st) :
    (checkTopEmpty on e).run s =
      if on && !v.isEmpty then .error (.error e) else .ok ((), s) := by
  cases on <;> cases v <;> simp [checkTopEmpty, stackTop, fromTop, check, hs] <;> rfl

theorem run_cleanUp_succ {fSuccess : Bool} {i ikey2 : ℕ} {v : Valtype} {st : List Valtype}
    (hs : s.stack = v :: st) :
    (cleanUp flags fSuccess (i + 1) ikey2).run s =
      if !fSuccess && flags.has .nullFail && ikey2 = 0 && !v.isEmpty then
        .error (.error .sigNullFail)
      else (cleanUp flags fSuccess i (ikey2 - 1)).run { s with stack := st } := by
  have hp : Ends popStack s () { s with stack := st } := by simp [hs]
  rw [cleanUp, run_bind_of_ite (run_checkTopEmpty hs), hp.run_bind]

theorem run_cleanUp {fSuccess : Bool} {others sigs rest : List Valtype}
    (hs : s.stack = others ++ (sigs ++ rest)) :
    (cleanUp flags fSuccess (others.length + sigs.length) others.length).run s =
      if !fSuccess && flags.has .nullFail && sigs.any (!·.isEmpty) then
        .error (.error .sigNullFail)
      else .ok ((), { s with stack := rest }) := by
  induction others generalizing s with
  | nil =>
    rw [length_nil, Nat.zero_add]
    induction sigs generalizing s with
    | nil =>
      obtain rfl : s.stack = rest := hs
      rw [any_nil, Bool.and_false, if_neg (by decide)]
      rfl
    | cons sig sigs ih =>
      rw [length_cons, run_cleanUp_succ hs, ih rfl, any_cons]
      cases !fSuccess && flags.has .nullFail <;> cases !sig.isEmpty <;> rfl
  | cons v others ih =>
    rw [length_cons, Nat.add_right_comm, run_cleanUp_succ hs, Nat.add_sub_cancel, ih rfl]
    simp

theorem run_finishMultisig {verify fSuccess : Bool} {vKeys vSigs dummy : Valtype}
    {keys sigs rest : List Valtype}
    (hs : s.stack = vKeys :: (keys ++ vSigs :: (sigs ++ dummy :: rest))) :
    (finishMultisig flags verify fSuccess keys.length sigs.length).run s =
      if !fSuccess && flags.has .nullFail && sigs.any (!·.isEmpty) then
        .error (.error .sigNullFail)
      else if flags.has .nullDummy && !dummy.isEmpty then .error (.error .sigNullDummy)
      else if verify && !fSuccess then .error (.error .checkMultisigVerify)
      else .ok ((), { s with
        stack := if verify then rest else (if fSuccess then [1] else []) :: rest }) := by
  have hc := @run_cleanUp flags s fSuccess (vKeys :: (keys ++ [vSigs])) sigs (dummy :: rest)
    (by simp [hs])
  rw [show (vKeys :: (keys ++ [vSigs])).length = keys.length + 2 by simp,
    show keys.length + 2 + sigs.length = 2 + keys.length + sigs.length by omega] at hc
  have hn : ∀ w : EvalState, w.stack = dummy :: rest → Ends (needs 1) w () w := by
    intro w hw
    simp [hw]
  rw [finishMultisig, run_bind_of_ite hc, (hn _ rfl).run_bind,
    run_bind_of_ite (run_checkTopEmpty rfl)]
  cases verify <;> cases fSuccess <;> rfl

theorem multisigArgs_spec {args : MultisigArgs}
    (h : Ends (multisigArgs flags sigversion) s args t) :
    args.nSigsCount ≤ args.nKeysCount ∧ args.nKeysCount ≤ maxPubkeysPerMultisig ∧
      (∃ vch n, s.stack[0]? = some vch ∧ CScriptNum.ofVch vch (flags.has .minimalData)
        CScriptNum.nDefaultMaxNumSize = .ok n ∧ args.nKeysCount = n.getint.toNat) ∧
      t = { s with nOpCount := s.nOpCount + args.nKeysCount } := by
  simp [multisigArgs] at h
  obtain ⟨-, -, n, ⟨vch, hv, hn⟩, ⟨-, hm⟩, -, -, m, -, ⟨-, hle⟩, hl, code, hd, rfl⟩ := h
  obtain ⟨-, rfl⟩ := (ends_dropSignatures (by omega) (by dsimp only; omega)).mp hd
  exact ⟨by dsimp only; omega, by dsimp only; omega, ⟨vch, n, hv, hn, rfl⟩, rfl⟩

/-- With the arguments on the stack, `OP_CHECKMULTISIG` stops at a bad encoding, or it finds out if
the signatures match keys in their order and leaves the answer in place of the arguments. -/
theorem evalCheckMultiSig_matching (crypto : Crypto) (flags : ScriptFlags)
    (checker : SignatureChecker) (sigversion : SigVersion) (verify : Bool) {s t : EvalState}
    {vKeys vSigs dummy : Valtype} {keys sigs rest : List Valtype} {scriptCode : CScript}
    (hstack : s.stack = vKeys :: (keys ++ vSigs :: (sigs ++ dummy :: rest)))
    (hargs : Ends (multisigArgs flags sigversion) s ⟨keys.length, sigs.length, scriptCode⟩ t) :
    sigs.length ≤ keys.length ∧ keys.length ≤ maxPubkeysPerMultisig ∧
    ((∃ e, ((∃ sig ∈ sigs, checkSignatureEncoding crypto flags sig = .error e) ∨
          ∃ key ∈ keys, checkPubKeyEncoding flags sigversion key = .error e) ∧
        (multisigLoop crypto flags checker sigversion scriptCode keys.length sigs.length 2
          (3 + keys.length)).run t = .error e ∧
        (evalCheckMultiSig crypto flags checker sigversion verify).run s = .error e) ∨
      ∃ fSuccess,
        (multisigLoop crypto flags checker sigversion scriptCode keys.length sigs.length 2
          (3 + keys.length)).run t = .ok (fSuccess, t) ∧
        (fSuccess = true ↔ ∃ f : Fin sigs.length → Fin keys.length, StrictMono f ∧
          ∀ i, checker.checkSig (sigs.get i) (keys.get (f i)) scriptCode sigversion = true) ∧
        (evalCheckMultiSig crypto flags checker sigversion verify).run s =
          if !fSuccess && flags.has .nullFail && sigs.any (!·.isEmpty) then
            .error (.error .sigNullFail)
          else if flags.has .nullDummy && !dummy.isEmpty then .error (.error .sigNullDummy)
          else if verify && !fSuccess then .error (.error .checkMultisigVerify)
          else .ok ((), { s with
            nOpCount := s.nOpCount + keys.length
            stack := if verify then rest else (if fSuccess then [1] else []) :: rest })) := by
  obtain ⟨hle, hmx, -, rfl⟩ := multisigArgs_spec hargs
  refine ⟨hle, hmx, ?_⟩
  have hk : (s.stack.drop (2 - 1)).take keys.length = keys := by simp [hstack]
  have hs : (s.stack.drop (3 + keys.length - 1)).take sigs.length = sigs := by
    rw [hstack, show 3 + keys.length - 1 = keys.length + 1 + 1 by omega, drop_succ_cons,
      ← drop_drop, drop_left, drop_succ_cons, drop_zero, take_left]
  have hln : s.stack.length = keys.length + sigs.length + rest.length + 3 := by
    rw [hstack]
    simp
    omega
  have hl := @run_multisigLoop crypto flags checker sigversion
    { s with nOpCount := s.nOpCount + keys.length } (3 + keys.length) 2 keys.length sigs.length
    scriptCode (by omega) (by omega) (by dsimp only; omega) (by dsimp only; omega)
  dsimp only at hl
  rw [hk, hs] at hl
  rw [evalCheckMultiSig_eq, hargs.run_bind, run_bind, hl]
  cases hm : matchSigs crypto flags checker sigversion scriptCode keys sigs with
  | error e => exact .inl ⟨e, encoding_of_matchSigs hm, rfl, rfl⟩
  | ok fSuccess =>
    refine .inr ⟨fSuccess, rfl, ?_, ?_⟩
    · rw [eq_true_iff_of_matchSigs hm, sublistForall₂_iff_strictMono]
    · exact run_finishMultisig (s := { s with nOpCount := s.nOpCount + keys.length }) hstack

def oneOfTwo : EvalState where
  stack := [[2], [4], [3], [1], [4], [], [7]]
  pbegincodehash := [opCheckMultisigByte]
  execdata := {}

theorem evalCheckMultiSig_matching_oneOfTwo :
    (evalCheckMultiSig plainCrypto 0 keyChecker .witnessV0 false).run oneOfTwo =
      .ok ((), { oneOfTwo with nOpCount := 2, stack := [[1], [7]] }) ∧
    ∃ f : Fin 1 → Fin 2, StrictMono f ∧ keyChecker.checkSig [4] ([[4], [3]].get (f 0))
      [opCheckMultisigByte] .witnessV0 = true := by
  have ha : Ends (multisigArgs 0 .witnessV0) oneOfTwo ⟨2, 1, [opCheckMultisigByte]⟩
      { oneOfTwo with nOpCount := 2 } := rfl
  obtain ⟨-, -, ⟨e, -, -, hr⟩ | ⟨b, hl, hm, hr⟩⟩ :=
    @evalCheckMultiSig_matching plainCrypto 0 keyChecker .witnessV0 false _ _ [2] [1] [] [[4], [3]]
      [[4]] [[7]] _ rfl ha
  · cases hr
  · cases hl
    obtain ⟨f, hf, hc⟩ := hm.mp rfl
    exact ⟨hr, f, hf, hc 0⟩

end Palladium
