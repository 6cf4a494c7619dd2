import Palladium.Coins.Refinement

/-! # Programs over a coins view

Validation reads and changes coins through four calls of a view.
-/

namespace Palladium
open CoinsStack

/-- The calls validation makes on a `CCoinsViewCache`. -/
inductive CoinsOp
  | addCoin (o : COutPoint) (coin : Coin) (possible_overwrite : Bool)
  | spendCoin (o : COutPoint)
  | haveCoin (o : COutPoint)
  | accessCoin (o : COutPoint)

def CoinsOp.Ans : CoinsOp → Type
  | addCoin .. => Unit
  | spendCoin _ => Option Coin
  | haveCoin _ => Bool
  | accessCoin _ => Coin

abbrev CoinsM := Program Halt CoinsOp CoinsOp.Ans

namespace CoinsM
variable (o : COutPoint)

def addCoin (coin : Coin) (possible_overwrite : Bool) : CoinsM Unit :=
  .perform (CoinsOp.addCoin o coin possible_overwrite)

/-- `SpendCoin` with the coin that is moved out, none if there was no unspent coin. -/
def spendCoin : CoinsM (Option Coin) := .perform (CoinsOp.spendCoin o)

def haveCoin : CoinsM Bool := .perform (CoinsOp.haveCoin o)

def accessCoin : CoinsM Coin := .perform (CoinsOp.accessCoin o)

end CoinsM

/-- The calls on the top layer. A spent entry moves out the empty coin, which no caller tells from
a missing one: outputs of accepted transactions are not null. -/
def cacheMachine : Machine Halt CoinsOp CoinsOp.Ans CoinsStack
  | .addCoin o coin possible_overwrite, v =>
    match v.addCoin o coin possible_overwrite with
    | .ok v' => .ok ((), v')
    | .error e => .error e
  | .spendCoin o, v => .ok ((v.spendCoin o).1.bind Coin.unspent?, (v.spendCoin o).2)
  | .haveCoin o, v => .ok (v.haveCoin o)
  | .accessCoin o, v => .ok (v.accessCoin o)

/-- `AddCoin` on a map. Where an addition not announced as a possible overwrite meets a coin, a
cache throws if its own layer holds the coin and replaces it unseen otherwise; `strict` is the
first of the two. -/
def UtxoMap.tryAddCoin (strict : Bool) (m : UtxoMap) (o : COutPoint) (coin : Coin)
    (possible_overwrite : Bool) : Except Halt (Unit × UtxoMap) :=
  if coin.isSpent then .error .assertion
  else if !CScript.isUnspendable coin.out.scriptPubKey && strict && !possible_overwrite &&
      (m o).isSome then
    .error (.logicError "Adding new coin that replaces non-pruned entry")
  else .ok ((), m.addCoin o coin)

def mapMachine (strict : Bool) : Machine Halt CoinsOp CoinsOp.Ans UtxoMap
  | .addCoin o coin possible_overwrite, m => m.tryAddCoin strict o coin possible_overwrite
  | .spendCoin o, m => .ok (m o, m.spendCoin o)
  | .haveCoin o, m => .ok ((m o).isSome, m)
  | .accessCoin o, m => .ok ((m o).getD coinEmpty, m)

variable {c : Coin} {m m' : UtxoMap} {o : COutPoint} {possible_overwrite : Bool} {v : CoinsStack}
  {α : Type}

theorem UtxoMap.tryAddCoin_eq_ok {strict : Bool} {u : Unit} :
    m.tryAddCoin strict o c possible_overwrite = .ok (u, m') ↔
      c.isSpent = false ∧ m' = m.addCoin o c ∧
        (CScript.isUnspendable c.out.scriptPubKey = false → strict →
          possible_overwrite = false → m o = none) := by
  unfold tryAddCoin
  by_cases hc : c.isSpent = true
  · simp [hc]
  rw [if_neg hc]
  split
  · rename_i ht
    simp only [Bool.and_eq_true, Bool.not_eq_true', Option.isSome_iff_ne_none] at ht
    simp only [reduceCtorEq, false_iff, not_and]
    intro _ _ h
    exact ht.2 (h ht.1.1.1 ht.1.1.2 ht.1.2)
  · rename_i ht
    simp only [Bool.and_eq_true, Bool.not_eq_true', not_and, Bool.not_eq_true,
      Option.isSome_eq_false_iff, Option.isNone_iff_eq_none] at ht
    simp only [Except.ok.injEq, Prod.mk.injEq, true_and]
    constructor
    · rintro rfl
      exact ⟨by simpa using hc, rfl, fun h₁ h₂ h₃ => ht ⟨⟨h₁, h₂⟩, h₃⟩⟩
    · rintro ⟨-, rfl, -⟩
      rfl

theorem CoinsStack.addCoin_unspendable (hc : c.isSpent = false)
    (hu : CScript.isUnspendable c.out.scriptPubKey) :
    v.addCoin o c possible_overwrite = .ok v := by
  simp [addCoin, hc, hu]

theorem cacheMachine_simulates :
    Program.Simulates cacheMachine (mapMachine true) CoinsStack.Represents := by
  intro op v m a m' h ho
  cases op with
  | spendCoin o =>
    cases ho
    obtain ⟨ha, hr⟩ := spendCoin_spec h o
    exact ⟨_, by rw [cacheMachine, ha], hr⟩
  | haveCoin o =>
    cases ho
    obtain ⟨ha, hr⟩ := haveCoin_spec h o
    exact ⟨_, congrArg Except.ok (Prod.ext ha rfl), hr⟩
  | accessCoin o =>
    cases ho
    obtain ⟨ha, hr⟩ := accessCoin_spec h o
    exact ⟨_, congrArg Except.ok (Prod.ext ha rfl), hr⟩
  | addCoin o c possible_overwrite =>
    obtain ⟨hc, rfl, hn⟩ := UtxoMap.tryAddCoin_eq_ok.1 ho
    by_cases hu : CScript.isUnspendable c.out.scriptPubKey = true
    · refine ⟨v, by rw [cacheMachine, addCoin_unspendable hc hu]; rfl, ?_⟩
      rwa [UtxoMap.addCoin, if_pos hu]
    · obtain ⟨v', hok, hr⟩ := addCoin_spec h hc (hn (by simpa using hu) rfl)
      exact ⟨v', by rw [cacheMachine, hok]; rfl, hr⟩

/-- A program that succeeds on the strict map succeeds on every cache representing it, with the
same result and a cache representing the new map. -/
theorem CoinsStack.Represents.run (h : v.Represents m) (p : CoinsM α) {a : α}
    (hp : p.run (mapMachine true) m = .ok (a, m')) :
    ∃ v', p.run cacheMachine v = .ok (a, v') ∧ v'.Represents m' :=
  cacheMachine_simulates.run p h hp

theorem cacheMachine_base {base : CCoinsView} (op : CoinsOp) (v : CoinsStack) (a : op.Ans)
    (v' : CoinsStack) (hv : v.below = [] ∧ v.base = base) (h : cacheMachine op v = .ok (a, v')) :
    v'.below = [] ∧ v'.base = base := by
  have hf (o : COutPoint) : (v.fetchCoin o).2.below = [] ∧ (v.fetchCoin o).2.base = base := by
    refine ⟨?_, hv.2⟩
    rcases v.top.fetchCoin_below o v.below fun _ => getCoinBelow v.base v.below o with hb | hb
    · exact hb.trans hv.1
    · refine hb.trans ?_
      rw [hv.1]
      rfl
  cases op with
  | spendCoin o =>
    cases h
    have ho := hf o
    unfold CoinsStack.spendCoin
    revert ho
    rcases v.fetchCoin o with ⟨_ | it, w⟩ <;> intro ho
    · exact ho
    · dsimp only
      split <;> exact ho
  | haveCoin o | accessCoin o =>
    cases h
    exact hf o
  | addCoin o c possible_overwrite =>
    simp only [cacheMachine] at h
    split at h
    · rename_i w ha
      cases h
      simp only [CoinsStack.addCoin] at ha
      split_ifs at ha <;> cases ha <;> exact hv
    · cases h

theorem CoinsStack.run_onView (base : CCoinsView) (p : CoinsM α) {a : α}
    (hp : p.run (mapMachine true) base.coins = .ok (a, m')) :
    ∃ l : CCoinsViewCache, p.run cacheMachine (onView base) = .ok (a, ⟨l, [], base⟩) ∧
      l.Sound base.coins ∧ l.flat base.coins = m' := by
  obtain ⟨v, hr, hre⟩ := (represents_onView base).run p hp
  obtain ⟨hb, hba⟩ := Program.run_invariant cacheMachine_base p ⟨rfl, rfl⟩ hr
  obtain ⟨l, ls, b⟩ := v
  cases hb
  cases hba
  exact ⟨l, hr, hre.sound.1, hre.flat⟩

section Map
variable {strict : Bool} {m m' : UtxoMap} {o : COutPoint} {c : Coin} {possible_overwrite : Bool}

@[simp] theorem run_spendCoin :
    (CoinsM.spendCoin o).run (mapMachine strict) m = .ok (m o, m.spendCoin o) := rfl

@[simp] theorem run_haveCoin :
    (CoinsM.haveCoin o).run (mapMachine strict) m = .ok ((m o).isSome, m) := rfl

@[simp] theorem run_accessCoin :
    (CoinsM.accessCoin o).run (mapMachine strict) m = .ok ((m o).getD coinEmpty, m) := rfl

@[simp] theorem run_addCoin : (CoinsM.addCoin o c possible_overwrite).run (mapMachine strict) m =
    m.tryAddCoin strict o c possible_overwrite :=
  Program.run_perform _ (CoinsOp.addCoin o c possible_overwrite) m

end Map

end Palladium
