import Holdem.Decide.Legal

/-!
# Decide — Sizing

The bet that `handleRobotDecide2` reports for an action.  `getLegalActions2` tested the size of a
raise against the chips that remain, and the bet is computed again here: an unopened preflop pot is
recognised by another condition than the fixed sizes are, every raise is at least the big blind, and
a call is never cut to the stack.  Bets are integers here too, and `DecisionState.choiceOps` lists
the `int`s of the source.

* `bet_within_stack_iff`: an offered action bets no more than the chips that remain exactly when it
  is `Affordable`.
-/

namespace Holdem.Decide

/-- What a decision is made from. -/
structure DecisionState where
  potSize : Int
  maxRoundBet : Int
  curRoundBet : Int
  curRemains : Int
  preflopRaises : Int
  flopRaises : Int
  lastRaise : Int
  newPos : Int
  historyStage : Int
  deriving DecidableEq, Repr

/-- The big blind; a request with another one is refused. -/
def bbSize : Int := 2

namespace DecisionState

def callSize (d : DecisionState) : Int := d.maxRoundBet - d.curRoundBet

/-- How `getLegalActions2` is called. -/
def spot (d : DecisionState) : Spot :=
  ⟨d.potSize, d.callSize, d.curRoundBet, d.flopRaises, d.curRemains, d.newPos, d.lastRaise⟩

/-- `validActions`. -/
def validActions (C : Configure) (d : DecisionState) : List Action :=
  (getLegalActions2 C d.spot).actions

/-- `firstBet`: the first raise before the flop. -/
def FirstBet (d : DecisionState) : Prop := d.preflopRaises = 0 ∧ d.historyStage = 1

instance (d : DecisionState) : Decidable d.FirstBet := inferInstanceAs (Decidable (_ ∧ _))

/-- The bet of a raise, before it is raised to the big blind. -/
def sized (C : Configure) (d : DecisionState) (multiple percent : Int) : Int :=
  if d.FirstBet then multiple * bbSize - (d.maxRoundBet - d.callSize)
  else if C.mRealRaise = 1 then d.callSize + portion (d.potSize + d.callSize) percent
  else portion d.potSize percent

/-- `aiBet` of a raise: a multiple of the big blind, or a share of the pot. -/
def raise (C : Configure) (d : DecisionState) (multiple percent : Int) : Int :=
  if d.sized C multiple percent < bbSize then bbSize else d.sized C multiple percent

/-- `aiAct` and `aiBet`, for the action chosen. -/
def choose (C : Configure) (d : DecisionState) : Action → Nat × Int
  | .fold   => (16, 0)
  | .check  => (32, 0)
  | .call   => if d.curRemains = d.callSize then (256, d.callSize) else (64, d.callSize)
  | .allin  => (256, d.curRemains)
  | .raise1 => (128, d.raise C 2 33)
  | .raise2 => (128, d.raise C 3 50)
  | .raise3 => (128, d.raise C 4 75)
  | .raise4 => (128, d.raise C 5 100)
  | .raise5 => (128, d.raise C 5 150)
  | .raise6 => (128, d.raise C 10 200)

/-- The bet reported for the action. -/
def aiBet (C : Configure) (d : DecisionState) (a : Action) : Int := (d.choose C a).2

/-- Nobody bet a negative amount, and nobody has negative chips. -/
structure Fair (d : DecisionState) : Prop where
  pot : 0 ≤ d.potSize
  bet : 0 ≤ d.curRoundBet
  call : d.curRoundBet ≤ d.maxRoundBet
  remains : 0 ≤ d.curRemains

/-- What the call takes of the stack before a share of the pot is added. -/
def owed (C : Configure) (d : DecisionState) : Int := if C.mRealRaise = 1 then d.callSize else 0

/-- The stack covers the big blind, and, where the size tested was not the size bet, the size bet:
the multiple of the big blind with what is in front of the player already, or the share of the pot
with the call. -/
structure AffordsRaise (C : Configure) (d : DecisionState) (multiple percent : Int) : Prop where
  blind : bbSize ≤ d.curRemains
  opening : d.FirstBet → ¬ d.spot.Fixed → multiple * bbSize ≤ d.curRoundBet + d.curRemains
  share : ¬ d.FirstBet → d.spot.Fixed →
    portion (d.spot.base C) percent ≤ d.curRemains - d.owed C

/-- The stack is large enough for the action. -/
def Affordable (C : Configure) (d : DecisionState) : Action → Prop
  | .call   => d.callSize ≤ d.curRemains
  | .raise1 => d.AffordsRaise C 2 33
  | .raise2 => d.AffordsRaise C 3 50
  | .raise3 => d.AffordsRaise C 4 75
  | .raise4 => d.AffordsRaise C 5 100
  | _       => True

variable {C : Configure} {d : DecisionState}

theorem Fair.callSize_nonneg (h : d.Fair) : 0 ≤ d.callSize := by
  have := h.call
  simp only [callSize]
  omega

theorem aiBet_call : d.aiBet C .call = d.callSize := by
  simp only [aiBet, choose]
  split
  · rfl
  · rfl

/-! ### Raises -/

/-- Outside an opening, the size bet is the share of the pot with the call. -/
theorem sized_of_not_firstBet (hf : ¬ d.FirstBet) (multiple percent : Int) :
    d.sized C multiple percent = d.owed C + portion (d.spot.base C) percent := by
  have hlt := C.realRaise_lt
  obtain h | h : C.mRealRaise = 0 ∨ C.mRealRaise = 1 := by omega
  · simp [sized, owed, Spot.base, spot, hf, h]
  · simp [sized, owed, Spot.base, spot, hf, h]

theorem sized_of_firstBet (hf : d.FirstBet) (multiple percent : Int) :
    d.sized C multiple percent = multiple * bbSize - d.curRoundBet := by
  simp only [sized, if_pos hf, callSize]
  omega

theorem raise_le_iff (multiple percent n : Int) :
    d.raise C multiple percent ≤ n ↔ bbSize ≤ n ∧ d.sized C multiple percent ≤ n := by
  simp only [raise]
  split
  · omega
  · omega

theorem raise_nonneg (multiple percent : Int) : 0 ≤ d.raise C multiple percent := by
  have hblind : 0 ≤ bbSize := by decide
  simp only [raise]
  split
  · exact hblind
  · omega

/-- A raise whose tested size passed: the bet is within the stack exactly when the stack affords
it. -/
theorem raise_within_stack_iff (hd : d.Fair) {multiple percent bet : Int}
    (hbet : bet = if d.spot.Fixed then multiple * bbSize - d.curRoundBet
      else portion (d.spot.base C) percent) (hpass : d.spot.Passes C bet) :
    0 ≤ d.raise C multiple percent ∧ d.raise C multiple percent ≤ d.curRemains ↔
      d.AffordsRaise C multiple percent := by
  obtain ⟨hle, hreal⟩ := le_of_passes (p := d.spot) hd.callSize_nonneg hpass
  have howed : d.owed C + bet ≤ d.curRemains := by
    by_cases h : C.mRealRaise = 1
    · have := hreal h
      simp only [spot] at this
      simp only [owed, if_pos h]
      omega
    · simp only [owed, if_neg h, spot] at hle ⊢
      omega
  rw [raise_le_iff]
  constructor
  · rintro ⟨-, hblind, hsized⟩
    refine ⟨hblind, fun hf _ => ?_, fun hf _ => ?_⟩
    · rw [sized_of_firstBet hf] at hsized
      omega
    · rw [sized_of_not_firstBet hf] at hsized
      omega
  · rintro ⟨hblind, hopening, hshare⟩
    refine ⟨raise_nonneg _ _, hblind, ?_⟩
    -- the size tested is the size bet where both conditions agree
    by_cases hf : d.FirstBet <;> by_cases hx : d.spot.Fixed
    · rw [sized_of_firstBet hf]
      rw [if_pos hx] at hbet
      exact hbet ▸ hle
    · rw [sized_of_firstBet hf]
      have := hopening hf hx
      omega
    · rw [sized_of_not_firstBet hf]
      have := hshare hf hx
      omega
    · rw [sized_of_not_firstBet hf]
      rw [if_neg hx] at hbet
      exact hbet ▸ howed

/-- **Bets and stacks.**  An offered action bets no more than the chips that remain exactly when it
is affordable. -/
theorem bet_within_stack_iff (hd : d.Fair) {a : Action} (ha : a ∈ d.validActions C) :
    0 ≤ d.aiBet C a ∧ d.aiBet C a ≤ d.curRemains ↔ d.Affordable C a := by
  have hoff : d.spot.Offered C a := mem_getLegalActions2.mp ha
  have hremains := hd.remains
  cases a with
  | fold => exact iff_of_true ⟨Int.le_refl _, hremains⟩ trivial
  | check => exact iff_of_true ⟨Int.le_refl _, hremains⟩ trivial
  | call => rw [aiBet_call]; exact and_iff_right hd.callSize_nonneg
  | allin => exact iff_of_true ⟨hremains, Int.le_refl _⟩ trivial
  | raise1 => exact raise_within_stack_iff hd (apply_ite Bets.bet_033 d.spot.Fixed _ _) hoff.2.2
  | raise2 => exact raise_within_stack_iff hd (apply_ite Bets.bet_050 d.spot.Fixed _ _) hoff.2
  | raise3 => exact raise_within_stack_iff hd (apply_ite Bets.bet_075 d.spot.Fixed _ _) hoff.2
  | raise4 => exact raise_within_stack_iff hd (apply_ite Bets.bet_100 d.spot.Fixed _ _) hoff.2
  | raise5 => exact hoff.elim
  | raise6 => exact hoff.elim

end DecisionState

end Holdem.Decide
