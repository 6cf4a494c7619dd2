import Palladium.Chain.Index

/-! # Deployment states

`AbstractThresholdConditionChecker::GetStateFor` with its cache.
-/

namespace Palladium
open Function IndexChain Nat Option

inductive ThresholdState | defined | started | lockedIn | active | failed
  deriving DecidableEq, Repr

def ThresholdState.leadsTo : ThresholdState → ThresholdState → Bool
  | .defined, _ => true
  | .started, state => state ≠ .defined
  | .lockedIn, state => state = .lockedIn || state = .active
  | .active, state => state = .active
  | .failed, state => state = .failed

/-- What a deployment gives to the checker. -/
structure ThresholdConditionChecker (ι : Type*) where
  nPeriod : ℕ
  nThreshold : ℤ
  nTimeStart : ℤ
  nTimeTimeout : ℤ
  condition : ι → Bool

def alwaysActive : ℤ := -1

abbrev ThresholdConditionCache (ι : Type*) := Option ι → Option ThresholdState

namespace ThresholdConditionChecker
variable {ι : Type*} (C : ThresholdConditionChecker ι) (T : IndexChain ι)

/-- The transition at the end of a period with this median time and so many signalling blocks. -/
def stateNext (medianTimePast count : ℤ) : ThresholdState → ThresholdState
  | .defined =>
    if medianTimePast ≥ C.nTimeTimeout then .failed
    else if medianTimePast ≥ C.nTimeStart then .started
    else .defined
  | .started =>
    if medianTimePast ≥ C.nTimeTimeout then .failed
    else if count ≥ C.nThreshold then .lockedIn
    else .started
  | .lockedIn => .active
  | .failed => .failed
  | .active => .active

def countSignalling (pindexPrev : ι) : ℕ := ((T.path pindexPrev).take C.nPeriod).countP C.condition

def stateAt (state : ThresholdState) (pindexPrev : ι) : ThresholdState :=
  C.stateNext (T.getMedianTimePast pindexPrev) (C.countSignalling T pindexPrev) state

def alignedPrev : Option ι → Option ι
  | none => none
  | some pindexPrev =>
    T.getAncestor pindexPrev (T.height pindexPrev - (T.height pindexPrev + 1) % C.nPeriod)

section GetStateFor
variable [DecidableEq ι]

def walkBack : (fuel : ℕ) → Option ι → List ι → ThresholdConditionCache ι →
    Option (List ι × ThresholdState × ThresholdConditionCache ι)
  | 0, _, _, _ => none
  | fuel + 1, pindexPrev, vToCompute, cache =>
    match cache pindexPrev with
    | some state => some (vToCompute, state, cache)
    | none =>
      match pindexPrev with
      | none => some (vToCompute, .defined, Function.update cache none (some .defined))
      | some pindex =>
        if T.getMedianTimePast pindex < C.nTimeStart then
          some (vToCompute, .defined, Function.update cache (some pindex) (some .defined))
        else
          walkBack fuel (T.getAncestor pindex (T.height pindex - C.nPeriod)) (pindex :: vToCompute)
            cache

def walkForward : List ι → ThresholdState → ThresholdConditionCache ι →
    ThresholdState × ThresholdConditionCache ι
  | [], state, cache => (state, cache)
  | pindexPrev :: vToCompute, state, cache =>
    walkForward vToCompute (C.stateAt T state pindexPrev)
      (Function.update cache (some pindexPrev) (some (C.stateAt T state pindexPrev)))

/-- `GetStateFor`, with the cache it leaves. The walk back takes at most one step for each block. -/
def getStateFor (pindexPrev : Option ι) (cache : ThresholdConditionCache ι) :
    Option (ThresholdState × ThresholdConditionCache ι) :=
  if C.nTimeStart = alwaysActive then some (.active, cache)
  else
    match C.walkBack T (pindexPrev.elim 0 T.height + 2) (C.alignedPrev T pindexPrev) [] cache with
    | none => none
    | some (vToCompute, state, cache) => some (C.walkForward T vToCompute state cache)

/-- The caches that calls of `GetStateFor` leave. -/
inductive CacheReachable : ThresholdConditionCache ι → Prop
  | empty : CacheReachable fun _ => none
  | call {cache cache' : ThresholdConditionCache ι} {pindexPrev : Option ι} {state : ThresholdState} :
    CacheReachable cache → C.getStateFor T pindexPrev cache = some (state, cache') →
    CacheReachable cache'

end GetStateFor

/-- The state after the first `k` periods of the chain of a block. -/
def stateAfter (b : ι) : ℕ → ThresholdState
  | 0 => .defined
  | k + 1 =>
    match T.ancestorAt b ((k + 1) * C.nPeriod - 1) with
    | none => stateAfter b k
    | some last => C.stateAt T (stateAfter b k) last

def stateFor : Option ι → ThresholdState
  | none => .defined
  | some pindexPrev => C.stateAfter T pindexPrev ((T.height pindexPrev + 1) / C.nPeriod)

def Aligned : Option ι → Prop
  | none => True
  | some b => C.nPeriod ∣ T.height b + 1

variable {C T} {a b : ι} {k : ℕ}

theorem stateAfter_of_mem_path (ha : a ∈ T.path b) (h : k * C.nPeriod ≤ T.height a + 1) :
    C.stateAfter T b k = C.stateAfter T a k := by
  induction k with
  | zero => rfl
  | succ k ih =>
    have hk : k * C.nPeriod ≤ (k + 1) * C.nPeriod := Nat.mul_le_mul_right _ (by omega)
    rw [stateAfter, stateAfter, ih (by omega),
      Forest.ancestorAt_of_mem_path ha (n := (k + 1) * C.nPeriod - 1) (by omega)]

section Period
variable (hP : 0 < C.nPeriod)
include hP

theorem stateFor_some_eq (h : T.height b + 1 = k * C.nPeriod) :
    C.stateFor T (some b) = C.stateAfter T b k := by
  rw [stateFor, h, Nat.mul_div_cancel _ hP]

section
variable (h : T.height b + 1 = (k + 1) * C.nPeriod)
include h

theorem getAncestor_period : (k = 0 ∧ T.getAncestor b (T.height b - C.nPeriod) = none) ∨
      ∃ a ∈ T.path b, T.height a + 1 = k * C.nPeriod ∧
        T.getAncestor b (T.height b - C.nPeriod) = some a := by
  rw [succ_mul] at h
  rcases Nat.eq_zero_or_pos k with rfl | hk
  · exact .inl ⟨rfl, getAncestor_of_neg (by omega)⟩
  · have hp := Nat.mul_pos hk hP
    obtain ⟨a, ha, hh, he⟩ := exists_ancestorAt (T := T) (b := b)
      (n := k * C.nPeriod - 1) (by omega)
    refine .inr ⟨a, ha, by omega, ?_⟩
    rw [← he, ← getAncestor_eq (by omega)]
    congr 1
    omega

theorem stateFor_getAncestor :
    C.stateFor T (T.getAncestor b (T.height b - C.nPeriod)) = C.stateAfter T b k := by
  rcases getAncestor_period hP h with ⟨rfl, hn⟩ | ⟨a, ha, hh, hs⟩
  · rw [hn]
    rfl
  · rw [hs, stateFor_some_eq hP hh, stateAfter_of_mem_path ha hh.ge]

theorem aligned_getAncestor : C.Aligned T (T.getAncestor b (T.height b - C.nPeriod)) := by
  rcases getAncestor_period hP h with ⟨-, hn⟩ | ⟨a, -, hh, hs⟩
  · rw [hn]
    trivial
  · rw [hs]
    exact ⟨k, by rw [hh, Nat.mul_comm]⟩

end

omit hP in
theorem Aligned.exists_eq (h : C.Aligned T (some b)) : ∃ k, T.height b + 1 = (k + 1) * C.nPeriod := by
  obtain ⟨k, hk⟩ := h
  cases k with
  | zero => simp at hk
  | succ k => exact ⟨k, by rw [hk, Nat.mul_comm]⟩

theorem stateFor_step (h : C.Aligned T (some b)) : C.stateFor T (some b) =
      C.stateAt T (C.stateFor T (T.getAncestor b (T.height b - C.nPeriod))) b := by
  obtain ⟨k, hk⟩ := h.exists_eq
  rw [stateFor_getAncestor hP hk, stateFor_some_eq hP hk, stateAfter, ← hk, Nat.add_sub_cancel,
    Forest.ancestorAt_self]

theorem alignedPrev_some {p : ι} (hk : 0 < (T.height p + 1) / C.nPeriod) :
    ∃ a ∈ T.path p, T.height a + 1 = (T.height p + 1) / C.nPeriod * C.nPeriod ∧
      C.alignedPrev T (some p) = some a := by
  have hp := Nat.mul_pos hk hP
  have hd := div_add_mod' (T.height p + 1) C.nPeriod
  have hm : (T.height p + 1 : ℤ) % C.nPeriod = ((T.height p + 1) % C.nPeriod : ℕ) := by
    push_cast
    rfl
  obtain ⟨a, ha, hh, he⟩ := exists_ancestorAt (T := T) (b := p)
    (n := (T.height p + 1) / C.nPeriod * C.nPeriod - 1) (by omega)
  refine ⟨a, ha, by omega, ?_⟩
  rw [← he, ← getAncestor_eq (by omega), alignedPrev, hm]
  congr 1
  omega

theorem alignedPrev_spec (pindexPrev : Option ι) : C.Aligned T (C.alignedPrev T pindexPrev) ∧
      C.stateFor T (C.alignedPrev T pindexPrev) = C.stateFor T pindexPrev ∧
      (C.alignedPrev T pindexPrev).elim 0 T.height ≤ pindexPrev.elim 0 T.height := by
  cases pindexPrev with
  | none => exact ⟨trivial, rfl, le_rfl⟩
  | some p =>
    have hd := div_add_mod (T.height p + 1) C.nPeriod
    have hm : (T.height p + 1 : ℤ) % C.nPeriod = ((T.height p + 1) % C.nPeriod : ℕ) := by
      push_cast
      rfl
    rcases Nat.eq_zero_or_pos ((T.height p + 1) / C.nPeriod) with hk | hk
    · have hn : C.alignedPrev T (some p) = none := by
        refine getAncestor_of_neg ?_
        rw [hk] at hd
        rw [hm]
        omega
      rw [hn]
      exact ⟨trivial, by rw [stateFor, stateFor, hk, stateAfter], Nat.zero_le _⟩
    · obtain ⟨a, ha, he, hs⟩ := alignedPrev_some (T := T) hP hk
      rw [hs]
      refine ⟨⟨(T.height p + 1) / C.nPeriod, by rw [he, Nat.mul_comm]⟩, ?_, Forest.height_le ha⟩
      rw [stateFor_some_eq hP he, stateFor, stateAfter_of_mem_path ha he.ge]

theorem stateFor_of_lt_start (hstart : C.nTimeStart ≤ C.nTimeTimeout)
    (htime : ∀ b p, T.parent b = some p → T.getMedianTimePast p < T.nTime b)
    (hb : C.Aligned T (some b)) (hl : T.getMedianTimePast b < C.nTimeStart) :
    C.stateFor T (some b) = .defined := by
  induction hn : T.height b using Nat.strong_induction_on generalizing b with
  | _ n ih =>
    obtain ⟨k, hk⟩ := hb.exists_eq
    have hp : C.stateFor T (T.getAncestor b (T.height b - C.nPeriod)) = .defined := by
      have hal := aligned_getAncestor hP hk
      rcases getAncestor_period hP hk with ⟨-, hno⟩ | ⟨a, ha, hh, hs⟩
      · rw [hno]
        rfl
      · rw [hs] at hal ⊢
        rw [succ_mul] at hk
        have hle := getMedianTimePast_mono htime ha
        exact ih (T.height a) (by omega) hal (by omega) rfl
    rw [stateFor_step hP hb, hp, stateAt, stateNext, if_neg (by omega), if_neg (by omega)]

end Period

section Cache
variable [DecidableEq ι]
variable (C T) in
omit [DecidableEq ι] in
def Sound (cache : ThresholdConditionCache ι) : Prop :=
  ∀ pindexPrev state, cache pindexPrev = some state → state = C.stateFor T pindexPrev

variable {cache : ThresholdConditionCache ι}

theorem Sound.update (h : Sound C T cache) {key : Option ι} {state : ThresholdState}
    (hst : state = C.stateFor T key) : Sound C T (update cache key (some state)) := by
  intro pindexPrev s hs
  rcases eq_or_ne pindexPrev key with rfl | hn
  · rw [update_self] at hs
    cases hs
    exact hst
  · rw [update_of_ne hn] at hs
    exact h _ _ hs

variable (hP : 0 < C.nPeriod) (hstart : C.nTimeStart ≤ C.nTimeTimeout)
  (htime : ∀ b p, T.parent b = some p → T.getMedianTimePast p < T.nTime b)
include hP hstart htime

theorem walk_spec {fuel : ℕ} {pindexPrev : Option ι} (vToCompute : List ι)
    (hca : Sound C T cache) (ha : C.Aligned T pindexPrev)
    (hf : pindexPrev.elim 0 (T.height · + 1) < fuel) :
    ∃ r, C.walkBack T fuel pindexPrev vToCompute cache = some r ∧ ∃ cache', Sound C T cache' ∧
      C.walkForward T r.1 r.2.1 r.2.2 =
        C.walkForward T vToCompute (C.stateFor T pindexPrev) cache' := by
  induction fuel generalizing pindexPrev vToCompute with
  | zero => omega
  | succ fuel ih =>
    unfold walkBack
    cases hc : cache pindexPrev with
    | some state => exact ⟨_, rfl, cache, hca, by rw [hca _ _ hc]⟩
    | none =>
      cases pindexPrev with
      | none => exact ⟨_, rfl, _, hca.update rfl, rfl⟩
      | some b =>
        dsimp only
        split_ifs with hl
        · have hs := stateFor_of_lt_start hP hstart htime ha hl
          exact ⟨_, rfl, _, hca.update hs.symm, by rw [hs]⟩
        · obtain ⟨k, hk⟩ := ha.exists_eq
          have hf' : (T.getAncestor b (T.height b - C.nPeriod)).elim 0 (T.height · + 1) < fuel := by
            simp only [elim_some] at hf
            rcases getAncestor_period hP hk with ⟨-, hn⟩ | ⟨a, -, hh, hso⟩
            · rw [hn, elim_none]
              omega
            · rw [hso, elim_some]
              rw [succ_mul] at hk
              omega
          obtain ⟨r, hr, cache', hca', hw⟩ :=
            ih (b :: vToCompute) (aligned_getAncestor hP hk) hf'
          refine ⟨r, hr, _, hca'.update (stateFor_step hP ha).symm, ?_⟩
          rw [hw, walkForward, ← stateFor_step hP ha]

variable (hactive : C.nTimeStart ≠ alwaysActive)
include hactive

theorem getStateFor_of_sound (hc : Sound C T cache) (pindexPrev : Option ι) :
    ∃ cache', Sound C T cache' ∧
      C.getStateFor T pindexPrev cache = some (C.stateFor T pindexPrev, cache') := by
  obtain ⟨ha, hs, hh⟩ := alignedPrev_spec (T := T) hP pindexPrev
  have hf : (C.alignedPrev T pindexPrev).elim 0 (T.height · + 1) <
      pindexPrev.elim 0 T.height + 2 := by
    generalize C.alignedPrev T pindexPrev = key at hh
    cases key with
    | none => exact succ_pos _
    | some a =>
      simp only [elim_some] at hh ⊢
      omega
  obtain ⟨⟨vToCompute, state, cache₁⟩, hb, cache', hc', hw⟩ :=
    walk_spec hP hstart htime [] hc ha hf
  refine ⟨cache', hc', ?_⟩
  rw [getStateFor, if_neg hactive, hb]
  dsimp only at hw ⊢
  rw [hw, hs]
  rfl

theorem CacheReachable.sound (h : C.CacheReachable T cache) : Sound C T cache := by
  induction h with
  | empty =>
    intro _ _ hn
    cases hn
  | @call cache _ pindexPrev _ _ hc ih =>
    obtain ⟨cache', hs, he⟩ := getStateFor_of_sound hP hstart htime hactive ih pindexPrev
    rw [he] at hc
    cases hc
    exact hs

end Cache

theorem leadsTo_refl (s : ThresholdState) : s.leadsTo s := by
  cases s <;> rfl

theorem leadsTo_trans {s t u : ThresholdState} (hs : s.leadsTo t)
    (ht : t.leadsTo u) : s.leadsTo u := by
  cases s <;> cases t <;> cases u <;> simp_all [ThresholdState.leadsTo]

theorem leadsTo_stateNext (medianTimePast count : ℤ) (s : ThresholdState) :
    s.leadsTo (C.stateNext medianTimePast count s) := by
  cases s with
  | started =>
    unfold stateNext
    split_ifs <;> rfl
  | _ => rfl

theorem stateAfter_leadsTo {j : ℕ} (h : j ≤ k) : (C.stateAfter T b j).leadsTo (C.stateAfter T b k) := by
  induction k, h using le_induction with
  | base => exact leadsTo_refl _
  | succ k _ ih =>
    refine leadsTo_trans ih ?_
    rw [stateAfter]
    split
    · exact leadsTo_refl _
    · exact leadsTo_stateNext _ _ _

variable (C)

theorem stateFor_parent (a : ι) :
    C.stateFor T (T.parent a) = C.stateAfter T a (T.height a / C.nPeriod) := by
  cases hp : T.parent a with
  | none => rw [T.height_root hp, Nat.zero_div, stateAfter, stateFor]
  | some p =>
    rw [stateFor, T.height_parent hp,
      stateAfter_of_mem_path (Forest.parent_mem_path hp) (div_mul_le_self _ _)]

theorem stateFor_leadsTo (ha : a ∈ T.path b) :
    (C.stateFor T (T.parent a)).leadsTo (C.stateFor T (T.parent b)) := by
  have hl : T.height a / C.nPeriod * C.nPeriod ≤ T.height a + 1 :=
    (div_mul_le_self _ _).trans (le_succ _)
  rw [stateFor_parent, stateFor_parent, ← stateAfter_of_mem_path ha hl]
  exact stateAfter_leadsTo (Nat.div_le_div_right (Forest.height_le ha))

variable {C}

theorem stateFor_eq_of_samePeriod (hP : 0 < C.nPeriod)
    (hp : T.height a / C.nPeriod = T.height b / C.nPeriod)
    (hb : ∀ c, T.height c < T.height b / C.nPeriod * C.nPeriod → (c ∈ T.path a ↔ c ∈ T.path b)) :
    C.stateFor T (T.parent a) = C.stateFor T (T.parent b) := by
  rw [stateFor_parent, stateFor_parent, hp]
  rcases Nat.eq_zero_or_pos (T.height b / C.nPeriod) with hk | hk
  · rw [hk, stateAfter, stateAfter]
  · have hpo := Nat.mul_pos hk hP
    have hl := div_mul_le_self (T.height b) C.nPeriod
    obtain ⟨e, he, hh, -⟩ := exists_ancestorAt (T := T) (b := b)
      (n := T.height b / C.nPeriod * C.nPeriod - 1) (by omega)
    rw [stateAfter_of_mem_path ((hb e (by omega)).mpr he) (by omega),
      stateAfter_of_mem_path he (by omega)]

/-- Whatever calls filled the cache, `GetStateFor` returns the state of the recursion over periods;
it is the same for all blocks of a period and does not move backwards. A deployment that is always
active has no other state. -/
theorem getStateFor_transparent [DecidableEq ι] (C : ThresholdConditionChecker ι)
    (T : IndexChain ι) (hP : 0 < C.nPeriod) (hstart : C.nTimeStart ≤ C.nTimeTimeout)
    (htime : ∀ b p, T.parent b = some p → T.getMedianTimePast p < T.nTime b) :
    (C.nTimeStart ≠ alwaysActive →
      (∀ cache, C.CacheReachable T cache → ∀ pindexPrev, ∃ cache',
        C.getStateFor T pindexPrev cache = some (C.stateFor T pindexPrev, cache')) ∧
      (∀ a b, T.height a / C.nPeriod = T.height b / C.nPeriod →
        (∀ c, T.height c < T.height b / C.nPeriod * C.nPeriod → (c ∈ T.path a ↔ c ∈ T.path b)) →
        C.stateFor T (T.parent a) = C.stateFor T (T.parent b)) ∧
      ∀ a b, a ∈ T.path b →
        (C.stateFor T (T.parent a)).leadsTo (C.stateFor T (T.parent b)) = true) ∧
    (C.nTimeStart = alwaysActive → ∀ cache pindexPrev,
      C.getStateFor T pindexPrev cache = some (.active, cache)) := by
  constructor
  · intro hactive
    refine ⟨fun cache hc pindexPrev => ?_, fun a b => stateFor_eq_of_samePeriod hP,
      fun a b => stateFor_leadsTo C⟩
    have hs := hc.sound hP hstart htime hactive
    obtain ⟨cache', -, he⟩ := getStateFor_of_sound hP hstart htime hactive hs pindexPrev
    exact ⟨cache', he⟩
  · intro hactive cache pindexPrev
    exact if_pos hactive

def fiveBlocks : IndexChain (Fin 5) where
  parent b := if b = 0 then none else some (b - 1)
  height b := b.val
  height_parent := by decide
  pskip b := if b = 0 then none else some (Fin.ofNat 5 (getSkipHeight b.val))
  nTime b := 10 * b.val
  height_root := by decide
  buildSkip := by decide

def twoBlockPeriods (nTimeStart : ℤ) : ThresholdConditionChecker (Fin 5) where
  nPeriod := 2
  nThreshold := 1
  nTimeStart := nTimeStart
  nTimeTimeout := 100
  condition _ := true

theorem getStateFor_transparent_fiveBlocks :
    ∃ cache', (twoBlockPeriods 5).getStateFor fiveBlocks (some 3) (fun _ => none) =
      some (.lockedIn, cache') := by
  have h := (getStateFor_transparent (twoBlockPeriods 5) fiveBlocks (by decide) (by decide)
    (by decide)).1 (by decide)
  exact h.1 _ .empty (some 3)

/-- A deployment that is always active is active at genesis, where the recursion starts in
`DEFINED`. -/
theorem getStateFor_alwaysActive : (∀ b p, fiveBlocks.parent b = some p →
        fiveBlocks.getMedianTimePast p < fiveBlocks.nTime b) ∧
      (twoBlockPeriods alwaysActive).nTimeStart ≤ (twoBlockPeriods alwaysActive).nTimeTimeout ∧
      ((twoBlockPeriods alwaysActive).getStateFor fiveBlocks none fun _ => none).map Prod.fst =
        some .active ∧
      (twoBlockPeriods alwaysActive).stateFor fiveBlocks none = .defined := by decide

end ThresholdConditionChecker

end Palladium
