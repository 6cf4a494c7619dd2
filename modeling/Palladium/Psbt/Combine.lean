import Palladium.Lib.Overlay
import Palladium.Psbt.Psbt

/-! # Combining partially signed transactions

`Merge` lays the records of one transaction over those of another, field by field.
-/

namespace Palladium
open List PartiallySignedTransaction Std

inductive PSBTInput.Field
  | nonWitnessUtxo
  | witnessUtxo
  | redeemScript
  | witnessScript
  | finalScriptSig
  | finalScriptWitness
  | hdKeypath (pubkey : CPubKey)
  | partialSig (keyid : Valtype)
  | unknown (key : Valtype)
  | sighashType

abbrev PSBTInput.Field.Value : PSBTInput.Field → Type
  | nonWitnessUtxo => CTransaction
  | witnessUtxo => CTxOut
  | redeemScript | witnessScript | finalScriptSig => CScript
  | finalScriptWitness => List Valtype
  | hdKeypath _ => KeyOriginInfo
  | partialSig _ => CPubKey × Valtype
  | unknown _ => Valtype
  | sighashType => ℤ

def PSBTInput.view : (field : Field) → PSBTInput → Option field.Value
  | .nonWitnessUtxo, input => input.nonWitnessUtxo
  | .witnessUtxo, input => Option.guard (!CTxOut.isNull ·) input.witnessUtxo
  | .redeemScript, input => Option.guard (!List.isEmpty ·) input.redeemScript
  | .witnessScript, input => Option.guard (!List.isEmpty ·) input.witnessScript
  | .finalScriptSig, input => Option.guard (!List.isEmpty ·) input.finalScriptSig
  | .finalScriptWitness, input => Option.guard (!List.isEmpty ·) input.finalScriptWitness
  | .hdKeypath pubkey, input => input.hdKeypaths[pubkey]?
  | .partialSig keyid, input => input.partialSigs[keyid]?
  | .unknown key, input => input.unknown[key]?
  | .sighashType, input => Option.guard (0 < ·) input.sighashType

inductive PSBTOutput.Field
  | redeemScript
  | witnessScript
  | hdKeypath (pubkey : CPubKey)
  | unknown (key : Valtype)

abbrev PSBTOutput.Field.Value : PSBTOutput.Field → Type
  | redeemScript | witnessScript => CScript
  | hdKeypath _ => KeyOriginInfo
  | unknown _ => Valtype

def PSBTOutput.view : (field : Field) → PSBTOutput → Option field.Value
  | .redeemScript, output => Option.guard (!List.isEmpty ·) output.redeemScript
  | .witnessScript, output => Option.guard (!List.isEmpty ·) output.witnessScript
  | .hdKeypath pubkey, output => output.hdKeypaths[pubkey]?
  | .unknown key, output => output.unknown[key]?

namespace PartiallySignedTransaction

inductive Field
  | input (i : ℕ) (field : PSBTInput.Field)
  | output (i : ℕ) (field : PSBTOutput.Field)
  | unknown (key : Valtype)

abbrev Field.Value : Field → Type
  | input _ field => field.Value
  | output _ field => field.Value
  | unknown _ => Valtype

def view : (field : Field) → PartiallySignedTransaction → Option field.Value
  | .input i field, psbt => psbt.inputs[i]?.bind (PSBTInput.view field)
  | .output i field, psbt => psbt.outputs[i]?.bind (PSBTOutput.view field)
  | .unknown key, psbt => psbt.unknown[key]?

structure Over (tx : CTransaction) (psbt : PartiallySignedTransaction) : Prop where
  tx_eq : psbt.tx = some tx
  inputs_length : psbt.inputs.length = tx.vin.length
  outputs_length : psbt.outputs.length = tx.vout.length

end PartiallySignedTransaction

theorem getElem?_insertRange {κ β : Type} [Ord κ] [TransOrd κ] (m range : ExtTreeMap κ β) (k : κ) :
    (insertRange m range)[k]? = m[k]?.or range[k]? :=
  ExtTreeMap.getElem?_union

variable {α : Type}

theorem guard_fill (isNull : α → Bool) (mine other : α) :
    Option.guard (!isNull ·) (fill isNull mine other) =
      (Option.guard (!isNull ·) mine).or (Option.guard (!isNull ·) other) := by
  unfold fill Option.guard
  cases hm : isNull mine <;> cases ho : isNull other <;> simp [hm, ho]

theorem fill_isNone (mine other : Option α) : fill Option.isNone mine other = mine.or other := by
  cases mine <;> cases other <;> rfl

theorem PSBTInput.view_merge (a b : PSBTInput) (field : PSBTInput.Field)
    (hf : field ≠ .sighashType) :
    view field (a.merge b) = (view field a).or (view field b) := by
  cases field with
  | nonWitnessUtxo => exact fill_isNone _ _
  | witnessUtxo | redeemScript | witnessScript | finalScriptSig | finalScriptWitness =>
    exact guard_fill _ _ _
  | hdKeypath _ | partialSig _ | unknown _ => exact getElem?_insertRange _ _ _
  | sighashType => exact absurd rfl hf

theorem PSBTOutput.view_merge (a b : PSBTOutput) (field : PSBTOutput.Field) :
    view field (a.merge b) = (view field a).or (view field b) := by
  cases field with
  | redeemScript | witnessScript => exact guard_fill _ _ _
  | hdKeypath _ | unknown _ => exact getElem?_insertRange _ _ _

namespace PartiallySignedTransaction

abbrev MergedField := { field : Field // ∀ i, field ≠ .input i .sighashType }

def mergedView (field : MergedField) (psbt : PartiallySignedTransaction) :
    Option field.val.Value :=
  view field.val psbt

theorem bind_getElem?_zipWith {α β : Type} {f : α → α → α} {view : α → Option β}
    (hf : ∀ a b, view (f a b) = (view a).or (view b)) {l l' : List α}
    (hl : l.length = l'.length) (i : ℕ) :
    (List.zipWith f l l')[i]?.bind view = (l[i]?.bind view).or (l'[i]?.bind view) := by
  rw [List.getElem?_zipWith]
  rcases Nat.lt_or_ge i l.length with hi | hi
  · rw [List.getElem?_eq_getElem hi, List.getElem?_eq_getElem (hl ▸ hi)]
    exact hf _ _
  · rw [List.getElem?_eq_none hi, List.getElem?_eq_none (hl ▸ hi)]
    rfl

theorem overlays_mergeRecords (tx : CTransaction) : Overlays mergedView (Over tx) mergeRecords where
  closed a b ha hb := by
    refine ⟨ha.tx_eq, ?_, ?_⟩
    · simp [mergeRecords, ha.inputs_length, hb.inputs_length]
    · simp [mergeRecords, ha.outputs_length, hb.outputs_length]
  view_merge f a b ha hb := by
    obtain ⟨f, hf⟩ := f
    cases f with
    | input i f =>
      exact bind_getElem?_zipWith
        (fun a b => PSBTInput.view_merge a b f fun h => hf i (by rw [h]))
        (ha.inputs_length.trans hb.inputs_length.symm) i
    | output i f =>
      exact bind_getElem?_zipWith (fun a b => PSBTOutput.view_merge a b f)
        (ha.outputs_length.trans hb.outputs_length.symm) i
    | unknown key => exact getElem?_insertRange _ _ _

theorem foldlM_merge {tx : CTransaction} {psbtx : PartiallySignedTransaction}
    {psbtxs : List PartiallySignedTransaction} (h : ∀ psbt ∈ psbtx :: psbtxs, psbt.Over tx) :
    psbtxs.foldlM merge psbtx = some (psbtxs.foldl mergeRecords psbtx) := by
  induction psbtxs generalizing psbtx with
  | nil => rfl
  | cons psbt psbtxs ih =>
    rw [forall_mem_cons, forall_mem_cons] at h
    have hm : merge psbtx psbt = some (mergeRecords psbtx psbt) := by
      rw [merge, h.1.tx_eq, h.2.1.tx_eq]
      simp
    rw [foldlM_cons, hm]
    exact ih (forall_mem_cons.mpr
      ⟨(overlays_mergeRecords tx).closed _ _ h.1 h.2.1, h.2.2⟩)

end PartiallySignedTransaction

theorem eq_of_guard_isEmpty {l l' : List α}
    (h : Option.guard (!List.isEmpty ·) l = Option.guard (!List.isEmpty ·) l') : l = l' := by
  cases l <;> cases l' <;> simp_all [Option.guard]

theorem fill_eq_self_of_isNull {isNull : α → Bool} {mine other : α}
    (h : isNull (fill isNull mine other)) : fill isNull mine other = mine := by
  unfold fill at h ⊢
  split at h
  next hf => simp_all
  next hk => exact if_neg hk

theorem PSBTInput.ext_view {a b : PSBTInput}
    (hv : ∀ field, field ≠ .sighashType → view field a = view field b)
    (hs : a.sighashType = b.sighashType)
    (hnu : a.witnessUtxo.isNull → b.witnessUtxo.isNull → a.witnessUtxo = b.witnessUtxo) : a = b := by
  have hut : a.witnessUtxo = b.witnessUtxo := by
    have h := hv .witnessUtxo (by simp)
    simp only [view, Option.guard] at h
    cases ha : a.witnessUtxo.isNull <;> cases hb : b.witnessUtxo.isNull <;> simp_all
  have hm : a.hdKeypaths = b.hdKeypaths :=
    ExtTreeMap.ext_getElem? fun k => hv (.hdKeypath k) (by simp)
  have hsi : a.partialSigs = b.partialSigs :=
    ExtTreeMap.ext_getElem? fun k => hv (.partialSig k) (by simp)
  have hu : a.unknown = b.unknown :=
    ExtTreeMap.ext_getElem? fun k => hv (.unknown k) (by simp)
  have hn : a.nonWitnessUtxo = b.nonWitnessUtxo := hv .nonWitnessUtxo (by simp)
  have hr := eq_of_guard_isEmpty (hv .redeemScript (by simp))
  have hw := eq_of_guard_isEmpty (hv .witnessScript (by simp))
  have hfs := eq_of_guard_isEmpty (hv .finalScriptSig (by simp))
  have hf := eq_of_guard_isEmpty (hv .finalScriptWitness (by simp))
  cases a
  cases b
  simp_all

theorem PSBTOutput.ext_view {a b : PSBTOutput} (hv : ∀ field, view field a = view field b) : a = b := by
  have hm : a.hdKeypaths = b.hdKeypaths := ExtTreeMap.ext_getElem? fun k => hv (.hdKeypath k)
  have hu : a.unknown = b.unknown := ExtTreeMap.ext_getElem? fun k => hv (.unknown k)
  have hr := eq_of_guard_isEmpty (hv .redeemScript)
  have hw := eq_of_guard_isEmpty (hv .witnessScript)
  cases a
  cases b
  simp_all

namespace PartiallySignedTransaction

/-- What merging keeps of the first transaction: the signature hash type of an input, and its
witness output if none is set. -/
theorem kept_of_foldl {psbtx : PartiallySignedTransaction}
    {psbtxs : List PartiallySignedTransaction} {i : ℕ} {c : PSBTInput}
    (hc : (psbtxs.foldl mergeRecords psbtx).inputs[i]? = some c) :
    ∃ a, psbtx.inputs[i]? = some a ∧ c.sighashType = a.sighashType ∧
      (c.witnessUtxo.isNull → c.witnessUtxo = a.witnessUtxo) := by
  induction psbtxs generalizing psbtx with
  | nil => exact ⟨c, hc, rfl, fun _ => rfl⟩
  | cons psbt psbtxs ih =>
    obtain ⟨m, hm, hs, hn⟩ := ih hc
    obtain ⟨a, b, ha, hb, rfl⟩ := List.getElem?_zipWith_eq_some.mp hm
    refine ⟨a, ha, hs, fun h => ?_⟩
    have hse := hn h
    rw [hse] at h ⊢
    exact fill_eq_self_of_isNull h

theorem Over.ext {tx : CTransaction} {a b : PartiallySignedTransaction} (ha : a.Over tx)
    (hb : b.Over tx) (hv : ∀ field, mergedView field a = mergedView field b)
    (his : ∀ (i : ℕ) (x y : PSBTInput), a.inputs[i]? = some x → b.inputs[i]? = some y →
      x.sighashType = y.sighashType ∧ (x.witnessUtxo.isNull →
        y.witnessUtxo.isNull → x.witnessUtxo = y.witnessUtxo)) : a = b := by
  have hu : a.unknown = b.unknown :=
    ExtTreeMap.ext_getElem? fun k => hv ⟨.unknown k, by simp⟩
  have hin : a.inputs = b.inputs := by
    refine ext_getElem (ha.inputs_length.trans hb.inputs_length.symm) fun i hi hi' => ?_
    obtain ⟨hs, hn⟩ := his i a.inputs[i] b.inputs[i]
      (List.getElem?_eq_getElem hi) (List.getElem?_eq_getElem hi')
    refine PSBTInput.ext_view (fun field hf => ?_) hs hn
    have h := hv ⟨.input i field, by simp [hf]⟩
    simpa [mergedView, view, hi, hi'] using h
  have ho : a.outputs = b.outputs := by
    refine ext_getElem (ha.outputs_length.trans hb.outputs_length.symm) fun i hi hi' => ?_
    refine PSBTOutput.ext_view fun field => ?_
    have h := hv ⟨.output i field, by simp⟩
    simpa [mergedView, view, hi, hi'] using h
  have ht : a.tx = b.tx := ha.tx_eq.trans hb.tx_eq.symm
  cases a
  cases b
  simp_all

end PartiallySignedTransaction

theorem combinePSBTs_eq_ok {tx : CTransaction} {psbtx : PartiallySignedTransaction}
    {psbtxs : List PartiallySignedTransaction} (h : ∀ psbt ∈ psbtx :: psbtxs, psbt.Over tx) :
    combinePSBTs psbtx psbtxs = .ok (psbtxs.foldl .mergeRecords psbtx) := by
  rw [combinePSBTs, foldlM_merge h]

open PartiallySignedTransaction (Over view)

/-- Combining succeeds with the same result in every order, and no field that is set gets lost. -/
def CombinesFully (psbtx : PartiallySignedTransaction) (psbtxs : List PartiallySignedTransaction) :
    Prop :=
  ∃ out, (∀ psbtx' psbtxs', (psbtx' :: psbtxs').Perm (psbtx :: psbtxs) →
      combinePSBTs psbtx' psbtxs' = .ok out) ∧
    ∀ psbt ∈ psbtx :: psbtxs, ∀ field x, view field psbt = some x → view field out = some x

/-- For each input, the same signature hash type, and the same null output if none sets the witness
output. -/
structure SameUnmerged (psbtxs : List PartiallySignedTransaction) : Prop where
  sighashType : ∀ p ∈ psbtxs, ∀ q ∈ psbtxs, ∀ (i : ℕ) (a b : PSBTInput), p.inputs[i]? = some a →
    q.inputs[i]? = some b → a.sighashType = b.sighashType
  witnessUtxo : ∀ p ∈ psbtxs, ∀ q ∈ psbtxs, ∀ (i : ℕ) (a b : PSBTInput), p.inputs[i]? = some a →
    q.inputs[i]? = some b → (∀ r ∈ psbtxs, view (.input i .witnessUtxo) r = none) →
      a.witnessUtxo = b.witnessUtxo

section Combine
variable {tx : CTransaction} {psbtx : PartiallySignedTransaction}
  {psbtxs : List PartiallySignedTransaction}

theorem exists_perm_cons {l : List α} {a : α} (h : a ∈ l) : ∃ l', (a :: l').Perm l := by
  obtain ⟨s, t, rfl⟩ := append_of_mem h
  exact ⟨s ++ t, perm_middle.symm⟩

section Agreeing
variable (hover : ∀ psbt ∈ psbtx :: psbtxs, psbt.Over tx)
  (hagree : ∀ p ∈ psbtx :: psbtxs, ∀ q ∈ psbtx :: psbtxs, Agree view p q)
include hover hagree

theorem view_foldl_of_view {field : PartiallySignedTransaction.Field}
    (hf : ∀ i, field ≠ .input i .sighashType) {x : field.Value} :
    view field (psbtxs.foldl .mergeRecords psbtx) = some x ↔
      ∃ psbt ∈ psbtx :: psbtxs, view field psbt = some x :=
  (overlays_mergeRecords tx).view_foldl_eq_some_iff (i := ⟨field, hf⟩)
    hover fun p hp q hq f => hagree p hp q hq f.val

omit hagree in
theorem exists_input_foldl {psbt : PartiallySignedTransaction} (hp : psbt ∈ psbtx :: psbtxs)
    {i : ℕ} {a : PSBTInput} (ha : psbt.inputs[i]? = some a) :
    ∃ c, (psbtxs.foldl .mergeRecords psbtx).inputs[i]? = some c := by
  have hl := ((overlays_mergeRecords tx).foldl_mem
    hover).inputs_length
  rw [← (hover psbt hp).inputs_length] at hl
  have hi := (List.getElem?_eq_some_iff.mp ha).1
  exact ⟨_, List.getElem?_eq_getElem (hl ▸ hi)⟩

theorem CombinesFully.sameUnmerged (h : CombinesFully psbtx psbtxs) :
    SameUnmerged (psbtx :: psbtxs) := by
  obtain ⟨out, hou, -⟩ := h
  -- each transaction may stand first, and the result keeps its fields
  have hk : ∀ p ∈ psbtx :: psbtxs, ∀ (i : ℕ) (a : PSBTInput), p.inputs[i]? = some a → ∃ c,
      out.inputs[i]? = some c ∧ c.sighashType = a.sighashType ∧
        (c.witnessUtxo.isNull = true → c.witnessUtxo = a.witnessUtxo) := by
    intro p hp i a ha
    obtain ⟨ps, hpe⟩ := exists_perm_cons hp
    have hover' : ∀ q ∈ p :: ps, q.Over tx := fun q hq => hover q (hpe.mem_iff.mp hq)
    have ho := hou p ps hpe
    rw [combinePSBTs_eq_ok hover', Except.ok.injEq] at ho
    obtain ⟨c, hc⟩ := exists_input_foldl hover' mem_cons_self ha
    obtain ⟨a', ha', hs, hn⟩ := kept_of_foldl hc
    rw [ha, Option.some.injEq] at ha'
    subst ha'
    exact ⟨c, ho ▸ hc, hs, hn⟩
  refine ⟨fun p hp q hq i a b ha hb => ?_, fun p hp q hq i a b ha hb hno => ?_⟩
  · obtain ⟨c, hc, hs, -⟩ := hk p hp i a ha
    obtain ⟨d, hd, hs', -⟩ := hk q hq i b hb
    rw [hc, Option.some.injEq] at hd
    rw [← hs, hd, hs']
  · obtain ⟨c, hc, -, hn⟩ := hk p hp i a ha
    obtain ⟨d, hd, -, hn'⟩ := hk q hq i b hb
    rw [hc, Option.some.injEq] at hd
    subst hd
    have hv : view (.input i .witnessUtxo) out = none := by
      have ho := hou psbtx psbtxs (List.Perm.refl _)
      rw [combinePSBTs_eq_ok hover, Except.ok.injEq] at ho
      rw [← ho, Option.eq_none_iff_forall_ne_some]
      intro x hx
      obtain ⟨r, hr, hrx⟩ := (view_foldl_of_view hover hagree (by simp)).mp hx
      rw [hno r hr] at hrx
      cases hrx
    have hcn : c.witnessUtxo.isNull := by
      simpa [view, hc, PSBTInput.view] using hv
    rw [← hn hcn, hn' hcn]

theorem SameUnmerged.combinesFully (h : SameUnmerged (psbtx :: psbtxs)) :
    CombinesFully psbtx psbtxs := by
  have ho := overlays_mergeRecords tx
  refine ⟨psbtxs.foldl .mergeRecords psbtx, fun psbtx' psbtxs' hpe => ?_,
    fun psbt hps fi x hx => ?_⟩
  · have hover' : ∀ q ∈ psbtx' :: psbtxs', q.Over tx := fun q hq => hover q (hpe.mem_iff.mp hq)
    rw [combinePSBTs_eq_ok hover', Except.ok.injEq]
    refine PartiallySignedTransaction.Over.ext (ho.foldl_mem hover')
      (ho.foldl_mem hover) (ho.view_foldl_perm hover
        (fun p hp q hq f => hagree p hp q hq f.val) hpe) fun i c d hc hd => ?_
    obtain ⟨a, ha, hs, hn⟩ := kept_of_foldl hc
    obtain ⟨b, hb, hs', hn'⟩ := kept_of_foldl hd
    have hm' : psbtx' ∈ psbtx :: psbtxs := hpe.mem_iff.mp mem_cons_self
    refine ⟨?_, fun hcn hdn => ?_⟩
    · rw [hs, hs', h.sighashType _ hm' _ mem_cons_self i a b ha hb]
    · rw [hn hcn, hn' hdn]
      refine h.witnessUtxo _ hm' _ mem_cons_self i a b ha hb fun r hr => ?_
      rw [Option.eq_none_iff_forall_ne_some]
      intro x hx
      have hv := (view_foldl_of_view hover hagree (by simp)).mpr ⟨r, hr, hx⟩
      simp [view, hd, PSBTInput.view, Option.guard, hdn] at hv
  · by_cases hf : ∀ i, fi ≠ .input i .sighashType
    · exact (view_foldl_of_view hover hagree hf).mpr ⟨psbt, hps, hx⟩
    · push Not at hf
      obtain ⟨i, rfl⟩ := hf
      obtain ⟨a, ha, hax⟩ := Option.bind_eq_some_iff.mp hx
      obtain ⟨c, hc⟩ := exists_input_foldl hover hps ha
      obtain ⟨b, hb, hs, -⟩ := kept_of_foldl hc
      have hsa := h.sighashType psbt hps psbtx mem_cons_self i a b ha hb
      rw [view, hc, Option.bind_some]
      simpa only [PSBTInput.view, hs, ← hsa] using hax

end Agreeing

/-- Partially signed forms of one transaction that agree combine fully exactly if what merging does
not carry over is the same in all of them. -/
theorem combinesFully_iff (tx : CTransaction) (psbtx : PartiallySignedTransaction)
    (psbtxs : List PartiallySignedTransaction) (hover : ∀ psbt ∈ psbtx :: psbtxs, psbt.Over tx)
    (hagree : ∀ p ∈ psbtx :: psbtxs, ∀ q ∈ psbtx :: psbtxs, Agree view p q) :
    CombinesFully psbtx psbtxs ↔ SameUnmerged (psbtx :: psbtxs) :=
  ⟨CombinesFully.sameUnmerged hover hagree, SameUnmerged.combinesFully hover hagree⟩

def psbtWith (input : PSBTInput) : PartiallySignedTransaction where
  tx := some ⟨[⟨⟨0, 0⟩, [], 0, []⟩], [], 2, 0, 7⟩
  inputs := [input]

theorem over_psbtWith (a b : PSBTInput) :
    ∀ psbt ∈ [psbtWith a, psbtWith b], psbt.Over ⟨[⟨⟨0, 0⟩, [], 0, []⟩], [], 2, 0, 7⟩ := by
  simp only [mem_cons, not_mem_nil, or_false, forall_eq_or_imp, forall_eq]
  exact ⟨⟨rfl, rfl, rfl⟩, ⟨rfl, rfl, rfl⟩⟩

theorem agree_psbtWith {a b : PSBTInput} (h : Agree PSBTInput.view a b) :
    ∀ p ∈ [psbtWith a, psbtWith b], ∀ q ∈ [psbtWith a, psbtWith b], Agree view p q := by
  have ha : Agree view (psbtWith a) (psbtWith b) := by
    rintro (⟨_ | i, f⟩ | ⟨i, f⟩ | key) x y hx hy
    · exact h f x y hx hy
    · cases hx
    · cases hx
    · simp [view, psbtWith] at hx
  simp only [mem_cons, not_mem_nil, or_false, forall_eq_or_imp, forall_eq]
  exact ⟨⟨.refl _, ha⟩, ha.symm, .refl _⟩

theorem combinesFully_redeemScript :
    CombinesFully (psbtWith { sighashType := 1, redeemScript := [81] })
      [psbtWith { sighashType := 1, finalScriptSig := [1, 81] }] := by
  refine (combinesFully_iff ⟨[⟨⟨0, 0⟩, [], 0, []⟩], [], 2, 0, 7⟩ _ _ (over_psbtWith _ _)
    (agree_psbtWith ?_)).mpr ⟨?_, ?_⟩
  · intro f x y hx hy
    cases f <;> simp_all [PSBTInput.view]
  · simp only [mem_cons, not_mem_nil, or_false, forall_eq_or_imp, forall_eq, psbtWith]
    refine ⟨⟨?_, ?_⟩, ?_, ?_⟩ <;> rintro (_ | i) a b ha hb <;> cases ha <;> cases hb <;> rfl
  · simp only [mem_cons, not_mem_nil, or_false, forall_eq_or_imp, forall_eq, psbtWith]
    refine ⟨⟨?_, ?_⟩, ?_, ?_⟩ <;> rintro (_ | i) a b ha hb - <;> cases ha <;> cases hb <;> rfl

theorem not_combinesFully_sighashType : (∀ psbt ∈ [psbtWith {}, psbtWith { sighashType := 1 }],
      psbt.Over ⟨[⟨⟨0, 0⟩, [], 0, []⟩], [], 2, 0, 7⟩) ∧
    (∀ p ∈ [psbtWith {}, psbtWith { sighashType := 1 }],
      ∀ q ∈ [psbtWith {}, psbtWith { sighashType := 1 }], Agree view p q) ∧
    ¬ CombinesFully (psbtWith {}) [psbtWith { sighashType := 1 }] := by
  refine ⟨over_psbtWith _ _, agree_psbtWith fun f x y hx hy => ?_, ?_⟩
  · cases f <;> simp_all [PSBTInput.view]
  · rintro ⟨out, hou, hv⟩
    have ho := hou _ _ (List.Perm.refl _)
    rw [combinePSBTs_eq_ok (over_psbtWith _ _), Except.ok.injEq] at ho
    have hs := hv (psbtWith { sighashType := 1 }) (by simp) (.input 0 .sighashType) 1 rfl
    rw [← ho] at hs
    cases hs

end Combine

end Palladium
