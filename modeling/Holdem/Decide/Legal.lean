import Mathlib.Data.List.Basic

/-!
# Decide — Legal

`getLegalActions2`: the actions a player may choose from.  A raise is offered when its size passes
the test of `mRaiseRule`; the sizes are shares of the pot, or fixed amounts in the spot that the
source takes for an unraised big blind.  Amounts are integers, and shares of the pot are exact; the
`int`s that the source computes them with are listed by `Spot.legalOps`.

* `mem_getLegalActions2`: which actions are offered.
* `le_of_passes`: what an offered size says about the chips that remain.
-/

namespace Holdem.Decide

/-- The names of the actions in the game tree. -/
inductive Action
  | fold | check | call
  | raise1 | raise2 | raise3 | raise4 | raise5 | raise6
  | allin
  deriving DecidableEq, Repr

/-- What the decision reads from `Configure`. -/
structure Configure where
  mNumPlayers : Nat
  mRealRaise : Nat
  mRaiseRule : Nat
  mResearchOpening : Bool
  mResearchStage : Int
  realRaise_lt : mRealRaise < 2
  raiseRule_lt : mRaiseRule < 3

/-- The arguments of `getLegalActions2`. -/
structure Spot where
  pot_size : Int
  call_size : Int
  stage_beted : Int
  flop_raises : Int
  remain_chips : Int
  stage_index : Int
  last_raise : Int
  deriving DecidableEq, Repr

/-- `(int)floor(x * percent / 100)`. -/
def portion (x percent : Int) : Int := x * percent / 100

/-- The sizes of the raises; `bet_150` and `bet_200` are not used. -/
structure Bets where
  bet_033 : Int
  bet_050 : Int
  bet_075 : Int
  bet_100 : Int
  deriving DecidableEq, Repr

/-- Shares of an amount. -/
def Bets.shares (x : Int) : Bets := ⟨portion x 33, portion x 50, portion x 75, portion x 100⟩

/-- The amount that the sizes are shares of. -/
def Spot.base (C : Configure) (p : Spot) : Int :=
  if C.mRealRaise = 0 then p.pot_size else p.pot_size + p.call_size

/-- The spot with fixed sizes. -/
def Spot.Fixed (p : Spot) : Prop := p.stage_beted + p.call_size = 2 ∧ p.stage_index = 1

instance (p : Spot) : Decidable p.Fixed := inferInstanceAs (Decidable (_ ∧ _))

/-- `bet_033` to `bet_100`. -/
def Spot.bets (C : Configure) (p : Spot) : Bets :=
  if p.Fixed then ⟨4 - p.stage_beted, 6 - p.stage_beted, 8 - p.stage_beted, 10 - p.stage_beted⟩
  else .shares (p.base C)

/-! ### The tests of the three rules -/

/-- The chips cover the call and the raise. -/
def Spot.Covers (p : Spot) (bet : Int) : Prop := p.remain_chips ≥ bet + p.call_size

/-- `mRaiseRule == 0`: a raise over a bet at least doubles it. -/
def Spot.Doubles (p : Spot) (bet : Int) : Prop :=
  p.Covers bet ∧ (p.call_size = 0 ∨ p.call_size ≠ 0 ∧
    p.stage_beted + bet + p.call_size ≥ (p.stage_beted + p.call_size) * 2)

/-- `mRaiseRule == 1`: the raise exceeds the last one. -/
def Spot.Exceeds (p : Spot) (bet : Int) : Prop := p.Covers bet ∧ bet > p.last_raise

/-- `mRaiseRule == 2`: without `mRealRaise` the size is the whole bet. -/
def Spot.Affords (C : Configure) (p : Spot) (bet : Int) : Prop :=
  if C.mRealRaise = 1 then p.Covers bet else p.remain_chips ≥ bet

instance (p : Spot) (bet : Int) : Decidable (p.Covers bet) := inferInstanceAs (Decidable (_ ≤ _))
instance (p : Spot) (bet : Int) : Decidable (p.Doubles bet) := inferInstanceAs (Decidable (_ ∧ _))
instance (p : Spot) (bet : Int) : Decidable (p.Exceeds bet) := inferInstanceAs (Decidable (_ ∧ _))
instance (C : Configure) (p : Spot) (bet : Int) : Decidable (p.Affords C bet) :=
  inferInstanceAs (Decidable (ite _ _ _))

/-! ### The list of actions -/

/-- What `getLegalActions2` returns, and its `actions`. -/
structure Legal where
  idx : Nat
  actions : List Action
  deriving DecidableEq, Repr

namespace Legal

/-- Nothing yet. -/
def none : Legal := ⟨0, []⟩

/-- `actions.push_back(a)` and `idx |= 1 << bit`. -/
def push (l : Legal) (a : Action) (bit : Nat) : Legal := ⟨l.idx ||| 1 <<< bit, l.actions ++ [a]⟩

/-- A guarded `push`. -/
def pushIf (l : Legal) (p : Prop) [Decidable p] (a : Action) (bit : Nat) : Legal :=
  if p then l.push a bit else l

/-- The three larger raises, each if its size passes the test. -/
def pushLarger (l : Legal) (b : Bets) (ok : Int → Prop) [DecidablePred ok] : Legal :=
  ((l.pushIf (ok b.bet_050) .raise2 5).pushIf (ok b.bet_075) .raise3 6).pushIf
    (ok b.bet_100) .raise4 7

/-- The four raises, each if its size passes the test. -/
def pushRaises (l : Legal) (b : Bets) (ok : Int → Prop) [DecidablePred ok] : Legal :=
  (l.pushIf (ok b.bet_033) .raise1 4).pushLarger b ok

@[simp] theorem mem_push {l : Legal} {a x : Action} {bit : Nat} :
    x ∈ (l.push a bit).actions ↔ x ∈ l.actions ∨ x = a := by
  simp [push]

@[simp] theorem mem_pushIf {l : Legal} {p : Prop} [Decidable p] {a x : Action} {bit : Nat} :
    x ∈ (l.pushIf p a bit).actions ↔ x ∈ l.actions ∨ p ∧ x = a := by
  by_cases hp : p
  · simp [pushIf, hp]
  · simp [pushIf, hp]

end Legal

/-- FOLD and CALL against a bet, CHECK without one. -/
def Spot.answers (p : Spot) : Legal :=
  if p.call_size ≠ 0 then (Legal.none.push .fold 1).push .call 3 else Legal.none.push .check 2

/-- The raises that the rule allows. -/
def Spot.pushRaises (C : Configure) (p : Spot) (l : Legal) : Legal :=
  -- the first rule has no RAISE1
  if C.mRaiseRule = 0 then l.pushLarger (p.bets C) p.Doubles
  else if C.mRaiseRule = 1 then l.pushRaises (p.bets C) p.Exceeds
  else if C.mRaiseRule = 2 then l.pushRaises (p.bets C) (p.Affords C)
  else l

/-- Fewer than three raises after the flop, or `stage_index` 1, before the flop; the handler passes
the seat for it. -/
def Spot.Open (p : Spot) : Prop := p.flop_raises < 3 ∨ p.stage_index = 1

instance (p : Spot) : Decidable p.Open := inferInstanceAs (Decidable (_ ∨ _))

/-- `SessionHandle::getLegalActions2`. -/
def getLegalActions2 (C : Configure) (p : Spot) : Legal :=
  if p.Open then (p.pushRaises C p.answers).push .allin 10 else p.answers

/-! ### What is offered -/

/-- The test that the rule makes of a raise with this size. -/
def Spot.Passes (C : Configure) (p : Spot) (bet : Int) : Prop :=
  if C.mRaiseRule = 0 then p.Doubles bet
  else if C.mRaiseRule = 1 then p.Exceeds bet
  else p.Affords C bet

/-- The action is offered. -/
def Spot.Offered (C : Configure) (p : Spot) : Action → Prop
  | .fold | .call       => p.call_size ≠ 0
  | .check              => p.call_size = 0
  | .raise1             => p.Open ∧ C.mRaiseRule ≠ 0 ∧ p.Passes C (p.bets C).bet_033
  | .raise2             => p.Open ∧ p.Passes C (p.bets C).bet_050
  | .raise3             => p.Open ∧ p.Passes C (p.bets C).bet_075
  | .raise4             => p.Open ∧ p.Passes C (p.bets C).bet_100
  | .raise5 | .raise6   => False
  | .allin              => p.Open

variable {C : Configure} {p : Spot} {a : Action}

theorem mem_answers : a ∈ p.answers.actions ↔
    p.call_size ≠ 0 ∧ (a = .fold ∨ a = .call) ∨ p.call_size = 0 ∧ a = .check := by
  by_cases hc : p.call_size = 0
  · simp [Spot.answers, hc, Legal.none]
  · simp [Spot.answers, hc, Legal.none]

theorem mem_pushRaises {l : Legal} : a ∈ (p.pushRaises C l).actions ↔ a ∈ l.actions ∨
    (C.mRaiseRule ≠ 0 ∧ p.Passes C (p.bets C).bet_033) ∧ a = .raise1 ∨
    p.Passes C (p.bets C).bet_050 ∧ a = .raise2 ∨ p.Passes C (p.bets C).bet_075 ∧ a = .raise3 ∨
    p.Passes C (p.bets C).bet_100 ∧ a = .raise4 := by
  have hlt := C.raiseRule_lt
  -- one case a rule
  obtain h | h | h : C.mRaiseRule = 0 ∨ C.mRaiseRule = 1 ∨ C.mRaiseRule = 2 := by omega
  · simp [Spot.pushRaises, Spot.Passes, Legal.pushLarger, h, or_assoc]
  · simp [Spot.pushRaises, Spot.Passes, Legal.pushRaises, Legal.pushLarger, h, or_assoc]
  · simp [Spot.pushRaises, Spot.Passes, Legal.pushRaises, Legal.pushLarger, h, or_assoc]

theorem mem_getLegalActions2 : a ∈ (getLegalActions2 C p).actions ↔ p.Offered C a := by
  by_cases ho : p.Open
  · simp only [getLegalActions2, if_pos ho, Legal.mem_push, mem_pushRaises, mem_answers]
    cases a <;> simp [Spot.Offered, ho]
  · simp only [getLegalActions2, if_neg ho, mem_answers]
    cases a <;> simp [Spot.Offered, ho]

/-- What a size that passes its test says about the chips. -/
theorem le_of_passes {bet : Int} (hcall : 0 ≤ p.call_size) (h : p.Passes C bet) :
    bet ≤ p.remain_chips ∧ (C.mRealRaise = 1 → bet + p.call_size ≤ p.remain_chips) := by
  have hcover : p.Covers bet → bet ≤ p.remain_chips ∧
      (C.mRealRaise = 1 → bet + p.call_size ≤ p.remain_chips) := fun h =>
    ⟨by unfold Spot.Covers at h; omega, fun _ => h⟩
  unfold Spot.Passes at h
  split at h
  · exact hcover h.1
  · split at h
    · exact hcover h.1
    · unfold Spot.Affords at h
      split at h
      · exact hcover h
      · next hreal => exact ⟨h, fun hr => absurd hr hreal⟩

end Holdem.Decide
