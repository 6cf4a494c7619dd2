import Palladium.Chain.VersionBits
import Palladium.Pow.Work

/-! # What is reported about a deployment

`GetStateSinceHeightFor` and `GetStateStatisticsFor`.
-/

namespace Palladium
open Forest List Nat Option

/-- What `GetStateStatisticsFor` reports. -/
structure BIP9Stats where
  period : ℤ
  threshold : ℤ
  elapsed : ℤ := 0
  count : ℤ := 0
  possible : Bool := false
  deriving DecidableEq, Repr

namespace ThresholdConditionChecker
variable {ι : Type*} (C : ThresholdConditionChecker ι) (T : IndexChain ι)
section Source
variable [DecidableEq ι]

def sinceLoop (initialState : ThresholdState) : (fuel : ℕ) → (pindexPrev : ι) →
    ThresholdConditionCache ι → Option (ℕ × ThresholdConditionCache ι)
  | 0, _, _ => none
  | fuel + 1, pindexPrev, cache =>
    match T.getAncestor pindexPrev (T.height pindexPrev - C.nPeriod) with
    | none => some (T.height pindexPrev + 1, cache)
    | some previousPeriodParent => do
      let (state, cache) ← C.getStateFor T (some previousPeriodParent) cache
      if state = initialState then sinceLoop initialState fuel previousPeriodParent cache
      else some (T.height pindexPrev + 1, cache)

/-- `GetStateSinceHeightFor`; nothing if a null pointer is dereferenced. At most one turn for each
block. -/
def getStateSinceHeightFor (pindexPrev : Option ι) (cache : ThresholdConditionCache ι) :
    Option (ℕ × ThresholdConditionCache ι) :=
  if C.nTimeStart = alwaysActive then some (0, cache)
  else do
    let (initialState, cache) ← C.getStateFor T pindexPrev cache
    if initialState = .defined then some (0, cache)
    else
      let pindex ← C.alignedPrev T pindexPrev
      C.sinceLoop T initialState (T.height pindex + 1) pindex cache

end Source

/-- The loop of `GetStateStatisticsFor`, down to a height. -/
def countBack (height : ℕ) (currentIndex : ι) (count : ℤ) : Except Abort ℤ :=
  if height ≠ T.height currentIndex then
    match _h : T.parent currentIndex with
    | some pprev => countBack height pprev (if C.condition currentIndex then count + 1 else count)
    | none => .error .nullDereference
  else .ok count
termination_by T.height currentIndex
decreasing_by
  have := T.height_parent ‹T.parent currentIndex = some pprev›
  omega

def getStateStatisticsFor (pindex : Option ι) : Except Abort BIP9Stats :=
  match pindex with
  | none => .ok { period := C.nPeriod, threshold := C.nThreshold }
  | some pindex =>
    match C.alignedPrev T (some pindex) with
    | none => .error .nullDereference
    | some pindexEndOfPrevPeriod => do
      let elapsed : ℤ := T.height pindex - T.height pindexEndOfPrevPeriod
      let count ← C.countBack T (T.height pindexEndOfPrevPeriod) pindex 0
      return {
        period := C.nPeriod
        threshold := C.nThreshold
        elapsed := elapsed
        count := count
        possible := C.nPeriod - C.nThreshold ≥ elapsed - count }

def capped : ThresholdConditionChecker ι :=
  { C with nTimeTimeout := max C.nTimeTimeout C.nTimeStart }

variable {C T} {b p : ι}

theorem stateAt_capped (h : C.nTimeStart ≤ T.getMedianTimePast b) (state : ThresholdState) :
    C.capped.stateAt T state b = C.stateAt T state b := by
  have hi : T.getMedianTimePast b ≥ C.capped.nTimeTimeout ↔
      T.getMedianTimePast b ≥ C.nTimeTimeout := by
    simp only [capped, ge_iff_le, max_le_iff, h, and_true]
  cases state <;> simp only [stateAt, stateNext, hi] <;> rfl

section Capped
variable [DecidableEq ι]

omit [DecidableEq ι] in
theorem walkForward_capped [DecidableEq ι] {vToCompute : List ι}
    (h : ∀ b ∈ vToCompute, C.nTimeStart ≤ T.getMedianTimePast b) (state : ThresholdState)
    (cache : ThresholdConditionCache ι) :
    C.capped.walkForward T vToCompute state cache = C.walkForward T vToCompute state cache := by
  induction vToCompute generalizing state cache with
  | nil => rfl
  | cons b l ih =>
    rw [forall_mem_cons] at h
    rw [walkForward, walkForward, stateAt_capped h.1, ih h.2]

theorem walkBack_capped {fuel : ℕ} {pindexPrev : Option ι} {vToCompute : List ι}
    {cache : ThresholdConditionCache ι}
    (h : ∀ b ∈ vToCompute, C.nTimeStart ≤ T.getMedianTimePast b) :
    C.capped.walkBack T fuel pindexPrev vToCompute cache =
        C.walkBack T fuel pindexPrev vToCompute cache ∧
      ∀ r, C.walkBack T fuel pindexPrev vToCompute cache = some r →
        ∀ b ∈ r.1, C.nTimeStart ≤ T.getMedianTimePast b := by
  induction fuel generalizing pindexPrev vToCompute with
  | zero => exact ⟨rfl, fun r hr => by cases hr⟩
  | succ fuel ih =>
    unfold walkBack
    cases cache pindexPrev with
    | some state => exact ⟨rfl, by rintro r ⟨⟩; exact h⟩
    | none =>
      cases pindexPrev with
      | none => exact ⟨rfl, by rintro r ⟨⟩; exact h⟩
      | some b =>
        by_cases hl : T.getMedianTimePast b < C.nTimeStart
        · simp only [capped, hl, if_true, true_and]
          rintro r ⟨⟩
          exact h
        · simp only [capped, hl, if_false]
          exact ih (forall_mem_cons.mpr ⟨not_lt.mp hl, h⟩)

theorem getStateFor_capped (pindexPrev : Option ι) (cache : ThresholdConditionCache ι) :
    C.capped.getStateFor T pindexPrev cache = C.getStateFor T pindexPrev cache := by
  have ha : C.capped.alignedPrev T pindexPrev = C.alignedPrev T pindexPrev := by
    cases pindexPrev <;> rfl
  obtain ⟨hb, hs⟩ := @walkBack_capped _ C T _ (pindexPrev.elim 0 T.height + 2)
    (C.alignedPrev T pindexPrev) [] cache (by simp)
  unfold getStateFor
  rw [ha, hb]
  cases hr : C.walkBack T _ (C.alignedPrev T pindexPrev) [] cache with
  | none => rfl
  | some r =>
    dsimp only
    rw [walkForward_capped (hs r hr)]
    rfl

end Capped

variable (C T) in
def blockState (pindexPrev : Option ι) : ThresholdState :=
  if C.nTimeStart = alwaysActive then .active else C.capped.stateFor T pindexPrev

def beforeHeight (T : IndexChain ι) (pindexPrev : Option ι) (n : ℕ) : Option ι :=
  pindexPrev.bind fun p => T.getAncestor p (n - 1)

theorem stateFor_beforeHeight {n : ℕ} (h : n ≤ T.height p + 1) :
    C.stateFor T (beforeHeight T (some p) n) = C.stateAfter T p (n / C.nPeriod) := by
  rw [beforeHeight, bind_some]
  cases n with
  | zero => rw [IndexChain.getAncestor_of_neg (by omega), Nat.zero_div, stateAfter, stateFor]
  | succ n =>
    obtain ⟨a, ha, hh, he⟩ := IndexChain.exists_ancestorAt (T := T) (b := p) (n := n)
      (by omega)
    rw [show ((n + 1 : ℕ) : ℤ) - 1 = n by omega, IndexChain.getAncestor_eq (by omega), he,
      stateFor, hh,
      stateAfter_of_mem_path ha (by rw [hh]; exact div_mul_le_self _ _)]

section Since
variable [DecidableEq ι]
variable (hP : 0 < C.nPeriod)
  (htime : ∀ b p, T.parent b = some p → T.getMedianTimePast p < T.nTime b)

include hP htime

theorem Sound.capped_call (ha : C.nTimeStart ≠ alwaysActive)
    {cache : ThresholdConditionCache ι} (hc : Sound C.capped T cache) (pindexPrev : Option ι) :
    ∃ cache', Sound C.capped T cache' ∧
      C.getStateFor T pindexPrev cache = some (C.capped.stateFor T pindexPrev, cache') := by
  obtain ⟨cache', hs, he⟩ :=
    getStateFor_of_sound (C := C.capped) hP (le_max_right _ _) htime ha hc pindexPrev
  exact ⟨cache', hs, (getStateFor_capped pindexPrev cache).symm.trans he⟩

theorem CacheReachable.sound_capped (ha : C.nTimeStart ≠ alwaysActive)
    {cache : ThresholdConditionCache ι} (h : C.CacheReachable T cache) :
    Sound C.capped T cache := by
  induction h with
  | empty =>
    intro _ _ hn
    cases hn
  | @call cache _ pindexPrev _ _ hc ih =>
    obtain ⟨cache', hs, he⟩ := ih.capped_call hP htime ha pindexPrev
    rw [he] at hc
    cases hc
    exact hs

theorem sinceLoop_spec (hac : C.nTimeStart ≠ alwaysActive) {state : ThresholdState}
    (hs : state ≠ .defined) {fuel k : ℕ} {cache : ThresholdConditionCache ι}
    (hc : Sound C.capped T cache) (hb : T.height b + 1 = (k + 1) * C.nPeriod)
    (hf : T.height b < fuel) (hk : C.capped.stateAfter T b (k + 1) = state) :
    ∃ j cache', C.sinceLoop T state fuel b cache = some ((j + 1) * C.nPeriod, cache') ∧ j ≤ k ∧
      (∀ i, j < i → i ≤ k + 1 → C.capped.stateAfter T b i = state) ∧
      C.capped.stateAfter T b j ≠ state := by
  induction fuel generalizing b k cache with
  | zero => omega
  | succ fuel ih =>
    have hl : ∀ i, k < i → i ≤ k + 1 → C.capped.stateAfter T b i = state := fun i hi hik => by
      obtain rfl : i = k + 1 := by omega
      exact hk
    rw [sinceLoop]
    rcases getAncestor_period (C := C) hP hb with ⟨rfl, hn⟩ | ⟨a, ha, hh, hso⟩
    · rw [hn]
      exact ⟨0, cache, by rw [hb], le_rfl, hl, fun h => hs (h.symm.trans rfl)⟩
    · obtain ⟨cache', hc', hca⟩ := hc.capped_call hP htime hac (some a)
      have hlw : ∀ i ≤ k, C.capped.stateAfter T b i = C.capped.stateAfter T a i := fun i hi =>
        stateAfter_of_mem_path (C := C.capped) ha ((Nat.mul_le_mul_right _ hi).trans hh.ge)
      have hp : C.capped.stateFor T (some a) = C.capped.stateAfter T b k := by
        rw [stateFor_some_eq (C := C.capped) hP hh, hlw k le_rfl]
      simp only [hso, hca, hp, bind_eq_bind, bind_some]
      split_ifs with he
      · obtain ⟨k, rfl⟩ : ∃ k', k = k' + 1 := ⟨k - 1, by
          rcases k with - | k
          · simp at hh
          · rfl⟩
        have hle := height_le ha
        obtain ⟨j, cache'', hlo, hjk, hsa, hd⟩ := ih (b := a) (k := k) hc' hh
          (by rw [succ_mul] at hb; omega) ((hlw _ le_rfl).symm.trans he)
        refine ⟨j, cache'', hlo, by omega, fun i hj hik => ?_, ?_⟩
        · rcases Nat.lt_or_ge (k + 1) i with hlt | hg
          · exact hl i hlt hik
          · rw [hlw i hg]
            exact hsa i hj hg
        · rw [hlw j (by omega)]
          exact hd
      · exact ⟨k, cache', by rw [hb], le_rfl, hl, he⟩

theorem getStateSinceHeightFor_spec {cache : ThresholdConditionCache ι}
    (hc : C.CacheReachable T cache) (pindexPrev : Option ι) :
    ∃ s cache', C.getStateSinceHeightFor T pindexPrev cache = some (s, cache') ∧
      (∀ n, s ≤ n → n ≤ pindexPrev.elim 0 (T.height · + 1) →
        C.blockState T (beforeHeight T pindexPrev n) = C.blockState T pindexPrev) ∧
      ∀ s' < s, ∃ n, s' ≤ n ∧ n ≤ pindexPrev.elim 0 (T.height · + 1) ∧
        C.blockState T (beforeHeight T pindexPrev n) ≠ C.blockState T pindexPrev := by
  unfold getStateSinceHeightFor blockState
  by_cases hac : C.nTimeStart = alwaysActive
  · simp only [hac, if_true]
    exact ⟨0, cache, rfl, fun _ _ _ => trivial, fun s' hs' => absurd hs' (Nat.not_lt_zero _)⟩
  simp only [hac, if_false]
  obtain ⟨cache₁, hso, hca⟩ :=
    (hc.sound_capped hP htime hac).capped_call hP htime hac pindexPrev
  cases pindexPrev with
  | none =>
    refine ⟨0, cache₁, ?_, fun n _ _ => rfl, fun s' hs' => absurd hs' (Nat.not_lt_zero _)⟩
    simp only [hca, bind_eq_bind, bind_some]
    rfl
  | some p =>
    have hst : C.capped.stateFor T (some p) =
        C.capped.stateAfter T p ((T.height p + 1) / C.nPeriod) := rfl
    simp only [hca, bind_eq_bind, bind_some, elim_some]
    by_cases hd : C.capped.stateFor T (some p) = .defined
    · refine ⟨0, cache₁, by rw [if_pos hd], fun n _ hn => ?_,
        fun s' hs' => absurd hs' (Nat.not_lt_zero _)⟩
      -- no other state leads to `DEFINED`
      have hl : (C.capped.stateAfter T p (n / C.nPeriod)).leadsTo
          (C.capped.stateAfter T p ((T.height p + 1) / C.nPeriod)) = true :=
        stateAfter_leadsTo (Nat.div_le_div_right hn)
      rw [stateFor_beforeHeight (C := C.capped) hn, hd]
      rw [← hst, hd] at hl
      change C.capped.stateAfter T p (n / C.nPeriod) = _
      revert hl
      cases C.capped.stateAfter T p (n / C.nPeriod) <;> simp [ThresholdState.leadsTo]
    · have hp : 0 < (T.height p + 1) / C.nPeriod := Nat.pos_of_ne_zero fun hz =>
        hd (by rw [hst, hz, stateAfter])
      obtain ⟨a, ha, he, hse⟩ := alignedPrev_some (T := T) hP hp
      obtain ⟨k, hk⟩ : ∃ k, (T.height p + 1) / C.nPeriod = k + 1 :=
        ⟨_, (succ_pred hp.ne').symm⟩
      rw [hk] at he hst
      have hlw : ∀ i ≤ k + 1, C.capped.stateAfter T p i = C.capped.stateAfter T a i := fun i hi =>
        stateAfter_of_mem_path (C := C.capped) ha ((Nat.mul_le_mul_right _ hi).trans he.ge)
      obtain ⟨j, cache', hlo, hj, hsa, hdi⟩ := sinceLoop_spec hP htime hac hd
        hso he (lt_succ_self _) ((hlw _ le_rfl).symm.trans hst.symm)
      have hjP : (j + 1) * C.nPeriod ≤ T.height p + 1 := by
        rw [← Nat.le_div_iff_mul_le hP, hk]
        omega
      refine ⟨(j + 1) * C.nPeriod, cache', ?_, fun n hs hn => ?_, fun s' hs' => ?_⟩
      · rw [if_neg hd, hse, bind_some, hlo]
      · have hle : n / C.nPeriod ≤ k + 1 := hk ▸ Nat.div_le_div_right hn
        rw [stateFor_beforeHeight (C := C.capped) hn]
        exact (hlw _ hle).trans (hsa _ ((Nat.le_div_iff_mul_le hP).mpr hs) hle)
      · -- the last block of the period before
        refine ⟨(j + 1) * C.nPeriod - 1, by omega, by omega, ?_⟩
        have hdv : ((j + 1) * C.nPeriod - 1) / C.nPeriod = j := by
          rw [succ_mul, Nat.add_sub_assoc hP, Nat.mul_comm, mul_add_div hP,
            div_eq_of_lt (by omega), Nat.add_zero]
        rw [stateFor_beforeHeight (C := C.capped) (by omega)]
        change C.capped.stateAfter T p (((j + 1) * C.nPeriod - 1) / C.nPeriod) ≠ _
        rw [hdv, hlw j (by omega)]
        exact hdi

end Since

variable (C T) in
def currentPeriod (p : ι) : List ι :=
  (T.path p).filter ((T.height p + 1) / C.nPeriod * C.nPeriod ≤ T.height ·)

theorem countBack_eq {e : ι} (he : e ∈ T.path b) (count : ℤ) : C.countBack T (T.height e) b count =
      .ok (count + ((T.path b).filter (T.height e + 1 ≤ T.height ·)).countP C.condition) := by
  induction b using T.toForest.induction generalizing count with
  | root b hb =>
    rw [(mem_path_root hb).mp he, countBack, if_neg (not_not.mpr rfl), filter_path]
    simp
  | child b p hp ih =>
    rcases (mem_path_child hp).mp he with rfl | hm
    · rw [countBack, if_neg (not_not.mpr rfl), filter_path]
      simp
    · have hh := T.height_parent hp
      have hl := height_le hm
      rw [countBack, if_pos (by omega), path_child hp,
        filter_cons_of_pos (by simp; omega), countP_cons]
      split
      · next q hq =>
        cases hp.symm.trans hq
        rw [ih hm]
        split_ifs <;> simp [add_assoc, add_comm]
      · next hn => rw [hp] at hn; cases hn

theorem length_currentPeriod (p : ι) : (C.currentPeriod T p).length = (T.height p + 1) % C.nPeriod := by
  have hd := div_add_mod' (T.height p + 1) C.nPeriod
  rw [currentPeriod, filter_path, length_take, T.length_path]
  omega

/-- A period continued to its end has the signals so far and those of the missing blocks. -/
theorem countSignalling_of_mem_path {e : ι} (hP : 0 < C.nPeriod) (hp : p ∈ T.path e)
    (he : T.height e + 1 = ((T.height p + 1) / C.nPeriod + 1) * C.nPeriod) :
    ∃ signals : List Bool, signals.length + (C.currentPeriod T p).length = C.nPeriod ∧
      C.countSignalling T e = (C.currentPeriod T p).countP C.condition + signals.count true := by
  obtain ⟨l, hl, hle⟩ := exists_append_path hp
  have hd := div_add_mod' (T.height p + 1) C.nPeriod
  have hlt := mod_lt (T.height p + 1) hP
  rw [succ_mul] at he
  refine ⟨l.map C.condition, ?_, ?_⟩
  · rw [length_currentPeriod, length_map]
    omega
  · rw [countSignalling, hl, take_append, countP_append,
      take_of_length_le (by omega), currentPeriod, filter_path, Nat.add_comm,
      count_eq_countP, countP_map]
    congr 2
    · congr 1
      omega
    · funext b
      simp

/-- The statistics are those of the current period. The threshold is out of reach exactly when no
signals of the missing blocks add up to it. -/
theorem getStateStatisticsFor_spec (hP : 0 < C.nPeriod)
    (hs : C.blockState T (some p) = .started) :
    ∃ stats, C.getStateStatisticsFor T (some p) = .ok stats ∧
      stats.elapsed = (C.currentPeriod T p).length ∧
      stats.count = (C.currentPeriod T p).countP C.condition ∧
      (stats.possible = false ↔ ¬ ∃ signals : List Bool,
        signals.length + (C.currentPeriod T p).length = C.nPeriod ∧
          C.nThreshold ≤ stats.count + signals.count true) := by
  have hp : 0 < (T.height p + 1) / C.nPeriod := Nat.pos_of_ne_zero fun hz => by
    have hd : C.capped.stateFor T (some p) = .defined := by
      rw [stateFor, show C.capped.nPeriod = C.nPeriod from rfl, hz, stateAfter]
    unfold blockState at hs
    split_ifs at hs
    rw [hd] at hs
    cases hs
  have hl := length_currentPeriod (C := C) (T := T) p
  have hlt := mod_lt (T.height p + 1) hP
  have hdi := div_add_mod' (T.height p + 1) C.nPeriod
  obtain ⟨a, ha, he, hso⟩ := alignedPrev_some (T := T) hP hp
  have hc := countBack_eq (C := C) ha 0
  rw [he, Int.zero_add, ← currentPeriod] at hc
  simp only [getStateStatisticsFor, hso, hc]
  refine ⟨_, rfl, by dsimp only; omega, rfl, ?_⟩
  dsimp only
  rw [decide_eq_false_iff_not, not_iff_not]
  constructor
  · intro hr
    refine ⟨List.replicate (C.nPeriod - (C.currentPeriod T p).length) true, ?_, ?_⟩
    · rw [length_replicate]
      omega
    · rw [count_replicate_self]
      omega
  · rintro ⟨signals, hsi, hr⟩
    have hle := signals.count_le_length (a := true)
    omega

/-- What is reported about a deployment, whatever calls of `GetStateFor` have filled the cache. -/
theorem deploymentReports_spec [DecidableEq ι] (C : ThresholdConditionChecker ι) (T : IndexChain ι)
    (hP : 0 < C.nPeriod)
    (htime : ∀ b p, T.parent b = some p → T.getMedianTimePast p < T.nTime b) :
    (∀ cache, C.CacheReachable T cache → ∀ pindexPrev,
      (∃ cache', C.getStateFor T pindexPrev cache = some (C.blockState T pindexPrev, cache')) ∧
      ∃ s cache', C.getStateSinceHeightFor T pindexPrev cache = some (s, cache') ∧
        (∀ n, s ≤ n → n ≤ pindexPrev.elim 0 (T.height · + 1) →
          C.blockState T (beforeHeight T pindexPrev n) = C.blockState T pindexPrev) ∧
        ∀ s' < s, ∃ n, s' ≤ n ∧ n ≤ pindexPrev.elim 0 (T.height · + 1) ∧
          C.blockState T (beforeHeight T pindexPrev n) ≠ C.blockState T pindexPrev) ∧
    ∀ p, C.blockState T (some p) = .started →
      ∃ stats, C.getStateStatisticsFor T (some p) = .ok stats ∧
        stats.elapsed = (C.currentPeriod T p).length ∧
        stats.count = (C.currentPeriod T p).countP C.condition ∧
        (stats.possible = false ↔ ¬ ∃ signals : List Bool,
          signals.length + (C.currentPeriod T p).length = C.nPeriod ∧
            C.nThreshold ≤ stats.count + signals.count true) ∧
        ∀ e, p ∈ T.path e → T.height e + 1 = ((T.height p + 1) / C.nPeriod + 1) * C.nPeriod →
          ∃ signals : List Bool, signals.length + (C.currentPeriod T p).length = C.nPeriod ∧
            C.countSignalling T e = stats.count + signals.count true := by
  refine ⟨fun cache hc pindexPrev =>
    ⟨?_, getStateSinceHeightFor_spec hP htime hc pindexPrev⟩, fun p hs => ?_⟩
  · unfold blockState
    split_ifs with ha
    · exact ⟨cache, if_pos ha⟩
    · obtain ⟨cache', -, hca⟩ :=
        (hc.sound_capped hP htime ha).capped_call hP htime ha pindexPrev
      exact ⟨cache', hca⟩
  · obtain ⟨stats, hst, hel, hco, hp⟩ := getStateStatisticsFor_spec hP hs
    refine ⟨stats, hst, hel, hco, hp, fun e he hen => ?_⟩
    obtain ⟨signals, hl, hsu⟩ := countSignalling_of_mem_path hP he hen
    exact ⟨signals, hl, by rw [hsu, hco, cast_add]⟩

/-- The blocks 2 and 3 of `fiveBlocks` are in the period in which the deployment is started. -/
theorem deploymentReports_fiveBlocks :
    ∃ stats, (twoBlockPeriods 5).getStateStatisticsFor fiveBlocks (some 2) = .ok stats ∧
      stats.elapsed = 1 ∧ stats.count = 1 := by
  obtain ⟨-, h⟩ := deploymentReports_spec (twoBlockPeriods 5) fiveBlocks (by decide) (by decide)
  obtain ⟨stats, hs, he, hc, -⟩ := h 2 (by decide +kernel)
  exact ⟨stats, hs, he, hc⟩

end ThresholdConditionChecker

end Palladium
