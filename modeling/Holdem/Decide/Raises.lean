import Holdem.Decide.Overflow
import Holdem.Decide.Stack
import Mathlib.Data.Fintype.Basic
import Mathlib.Data.Int.ConditionallyCompleteOrder
import Mathlib.Order.Fin.Basic
import Mathlib.Order.Interval.Set.OrdConnected
import Mathlib.Tactic.FinCases
import Mathlib.Tactic.Linarith

/-!
# Decide — Raises

The raises by their size.  `getLegalActions2` tests each of them with a condition of its own, and
`handleRobotDecide2` computes each bet with a formula of its own; here they are one family, with a
multiple of the big blind and a share of the pot for each (`Action.multiple`, `Action.percent`).

The tests let through an interval of sizes, and the sizes grow: the raises offered are a contiguous
run.  Without `mRealRaise` the bet of a raise is a share of the pot that does not contain the call,
so that it may be smaller than the call.

* `legal_raises_shape_iff`: the raises offered are a contiguous run, and grow with the chips,
  exactly as long as no sum overflows.
* `raises_exceed_call_iff`: when every raise that is offered exceeds the call.
-/

namespace Holdem.Decide
open Support

/-- RAISE1 to RAISE6. -/
def raises : Fin 6 → Action
  | 0 => .raise1
  | 1 => .raise2
  | 2 => .raise3
  | 3 => .raise4
  | 4 => .raise5
  | 5 => .raise6

/-- A raise. -/
def Action.IsRaise : Action → Prop
  | .raise1 | .raise2 | .raise3 | .raise4 | .raise5 | .raise6 => True
  | _                                                         => False

/-- The multiple of the big blind that a first raise before the flop comes to. -/
def Action.multiple : Action → Int
  | .raise1 => 2
  | .raise2 => 3
  | .raise3 => 4
  | .raise4 => 5
  | .raise5 => 5
  | .raise6 => 10
  | _       => 0

/-- The share of the pot, in percents, that any other raise is of. -/
def Action.percent : Action → Int
  | .raise1 => 33
  | .raise2 => 50
  | .raise3 => 75
  | .raise4 => 100
  | .raise5 => 150
  | .raise6 => 200
  | _       => 0

theorem isRaise_raises (i : Fin 6) : (raises i).IsRaise := by
  fin_cases i <;> trivial

theorem multiple_mono : Monotone fun i => (raises i).multiple := by
  intro i j h
  revert i j
  decide

theorem percent_mono : Monotone fun i => (raises i).percent := by
  intro i j h
  revert i j
  decide

/-! ### Sizes -/

/-- `bet_033` to `bet_200`, with the opening sizes of the first four. -/
def Spot.size (C : Configure) (p : Spot) (i : Fin 6) : Int :=
  if p.Fixed then (raises i).multiple * bbSize - p.stage_beted
  else portion (p.base C) (raises i).percent

variable {C : Configure} {p : Spot} {d : DecisionState}

theorem portion_mono {x : Int} (hx : 0 ≤ x) : Monotone (portion x) :=
  fun _ _ h => Int.ediv_le_ediv (by decide) (Int.mul_le_mul_of_nonneg_left h hx)

theorem Spot.base_nonneg (hpot : 0 ≤ p.pot_size) (hcall : 0 ≤ p.call_size) : 0 ≤ p.base C := by
  unfold Spot.base
  split
  · exact hpot
  · exact Int.add_nonneg hpot hcall

theorem Spot.size_mono (hpot : 0 ≤ p.pot_size) (hcall : 0 ≤ p.call_size) :
    Monotone (p.size C) := by
  intro i j h
  unfold Spot.size
  split
  · have hbb : 0 ≤ bbSize := by decide
    exact Int.sub_le_sub_right (Int.mul_le_mul_of_nonneg_right (multiple_mono h) hbb) _
  · exact portion_mono (base_nonneg hpot hcall) (percent_mono h)

/-- A raise is offered when its size passes the test; the first rule has no RAISE1. -/
theorem offered_raises (i : Fin 6) : raises i ∈ (getLegalActions2 C p).actions ↔
    p.Open ∧ i < 4 ∧ (i = 0 → C.mRaiseRule ≠ 0) ∧ p.Passes C (p.size C i) := by
  rw [mem_getLegalActions2]
  by_cases hx : p.Fixed
  · fin_cases i <;>
      simp [raises, Spot.Offered, Spot.size, Spot.bets, hx, Action.multiple, bbSize]
  · fin_cases i <;>
      simp [raises, Spot.Offered, Spot.size, Spot.bets, hx, Action.percent, Bets.shares]

/-! ### Tests -/

section
variable {a b x : Int}

theorem Spot.Covers.of_le (h : p.Covers b) (hx : x ≤ b) : p.Covers x :=
  (Int.add_le_add_right hx _).trans h

theorem Spot.Doubles.between (ha : p.Doubles a) (hb : p.Doubles b) (hax : a ≤ x) (hxb : x ≤ b) :
    p.Doubles x := by
  refine ⟨hb.1.of_le hxb, ?_⟩
  rcases ha.2 with h | ⟨h, hdouble⟩
  · exact .inl h
  · exact .inr ⟨h, by linarith⟩

theorem Spot.Exceeds.between (ha : p.Exceeds a) (hb : p.Exceeds b) (hax : a ≤ x) (hxb : x ≤ b) :
    p.Exceeds x :=
  ⟨hb.1.of_le hxb, lt_of_lt_of_le ha.2 hax⟩

theorem Spot.Affords.of_le (h : p.Affords C b) (hx : x ≤ b) : p.Affords C x := by
  unfold Spot.Affords at h ⊢
  split
  · next hr => exact Covers.of_le (by rwa [if_pos hr] at h) hx
  · next hr => exact hx.trans (by rwa [if_neg hr] at h)

/-- Every rule lets an interval of sizes pass. -/
theorem ordConnected_passes (C : Configure) (p : Spot) :
    Set.OrdConnected {bet | p.Passes C bet} := by
  refine ⟨fun a ha b hb x ⟨hax, hxb⟩ => ?_⟩
  change p.Passes C a at ha
  change p.Passes C b at hb
  change p.Passes C x
  unfold Spot.Passes at ha hb ⊢
  split
  · next h =>
      rw [if_pos h] at ha hb
      exact ha.between hb hax hxb
  · next h =>
      rw [if_neg h] at ha hb
      split
      · next h' =>
          rw [if_pos h'] at ha hb
          exact ha.between hb hax hxb
      · next h' =>
          rw [if_neg h'] at hb
          exact hb.of_le hxb

/-- The same spot with other chips left, after another raise. -/
def Spot.after (p : Spot) (remain_chips last_raise : Int) : Spot :=
  { p with remain_chips, last_raise }

variable {remain_chips last_raise : Int}

theorem Spot.Covers.after (h : p.Covers b) (hr : p.remain_chips ≤ remain_chips) :
    (p.after remain_chips last_raise).Covers b :=
  le_trans h hr

/-- More chips, or a smaller raise before, fail no test. -/
theorem Spot.Passes.after (h : p.Passes C b) (hr : p.remain_chips ≤ remain_chips)
    (hl : last_raise ≤ p.last_raise) : (p.after remain_chips last_raise).Passes C b := by
  unfold Spot.Passes at h ⊢
  split
  · next h0 =>
      rw [if_pos h0] at h
      exact ⟨h.1.after hr, h.2⟩
  · next h0 =>
      rw [if_neg h0] at h
      split
      · next h1 =>
          rw [if_pos h1] at h
          exact ⟨h.1.after hr, lt_of_le_of_lt hl h.2⟩
      · next h1 =>
          rw [if_neg h1] at h
          unfold Spot.Affords at h ⊢
          split
          · next hreal =>
              rw [if_pos hreal] at h
              exact h.after hr
          · next hreal =>
              rw [if_neg hreal] at h
              exact le_trans h hr

theorem Spot.Covers.affords (h : p.Covers b) (hcall : 0 ≤ p.call_size) : p.Affords C b := by
  unfold Spot.Affords
  split
  · exact h
  · exact le_trans (Int.le_add_of_nonneg_right hcall) h

/-- The configuration with another rule. -/
def Configure.withRule (C : Configure) (rule : Nat) (h : rule < 3) : Configure :=
  { C with mRaiseRule := rule, raiseRule_lt := h }

/-- What passes the test of any rule passes that of the third. -/
theorem Spot.Passes.third (h : p.Passes C b) (hcall : 0 ≤ p.call_size) :
    p.Passes (C.withRule 2 (by decide)) b := by
  change p.Affords C b
  unfold Spot.Passes at h
  split at h
  · exact h.1.affords hcall
  · split at h
    · exact h.1.affords hcall
    · exact h

end

/-! ### The shape of the legal raises -/

/-- The raises that are offered are a contiguous run. -/
theorem raises_contiguous (hpot : 0 ≤ p.pot_size) (hcall : 0 ≤ p.call_size) {i j k : Fin 6}
    (hij : i < j) (hjk : j < k) (hi : raises i ∈ (getLegalActions2 C p).actions)
    (hk : raises k ∈ (getLegalActions2 C p).actions) :
    raises j ∈ (getLegalActions2 C p).actions := by
  rw [offered_raises] at hi hk ⊢
  obtain ⟨hopen, -, -, hpi⟩ := hi
  obtain ⟨-, hk4, -, hpk⟩ := hk
  have hconn := (ordConnected_passes C p).preimage_mono (Spot.size_mono (C := C) hpot hcall)
  exact ⟨hopen, hjk.trans hk4, fun h0 => absurd (h0 ▸ hij) (Fin.not_lt_zero i),
    hconn.out hpi hpk ⟨hij.le, hjk.le⟩⟩

/-- More chips, or a smaller raise before, withdraw no action. -/
theorem offered_after {remain_chips last_raise : Int} (hr : p.remain_chips ≤ remain_chips)
    (hl : last_raise ≤ p.last_raise) {a : Action} (ha : a ∈ (getLegalActions2 C p).actions) :
    a ∈ (getLegalActions2 C (p.after remain_chips last_raise)).actions := by
  rw [mem_getLegalActions2] at ha ⊢
  cases a with
  | fold | call | check | allin => exact ha
  | raise1 => exact ⟨ha.1, ha.2.1, ha.2.2.after hr hl⟩
  | raise2 | raise3 | raise4 => exact ⟨ha.1, ha.2.after hr hl⟩
  | raise5 | raise6 => exact ha.elim

/-- A raise that any rule offers is offered by the third. -/
theorem offered_third (hcall : 0 ≤ p.call_size) {i : Fin 6}
    (h : raises i ∈ (getLegalActions2 C p).actions) :
    raises i ∈ (getLegalActions2 (C.withRule 2 (by decide)) p).actions := by
  rw [offered_raises] at h ⊢
  obtain ⟨hopen, hi, -, hpass⟩ := h
  exact ⟨hopen, hi, fun _ => Nat.succ_ne_zero 1, hpass.third hcall⟩

/-- **The shape of the legal raises.**  The raises offered are a contiguous run of sizes; more chips
or a smaller raise before withdraw no action; and what the first two rules offer, the third offers
as well: each of these exactly where the calls of `getLegalActions2` are at small spots. -/
theorem legal_raises_shape_iff (C : Configure) (hpot : 0 ≤ p.pot_size) (hcall : 0 ≤ p.call_size) :
    (Computes (p.legalOps C) ∧ (∀ i j k : Fin 6, i < j → j < k →
        raises i ∈ (getLegalActions2 C p).actions → raises k ∈ (getLegalActions2 C p).actions →
        raises j ∈ (getLegalActions2 C p).actions) ↔
      p.Small C) ∧
    (∀ remain_chips last_raise : Int, p.remain_chips ≤ remain_chips → last_raise ≤ p.last_raise →
      ((Computes (p.legalOps C) ∧ Computes ((p.after remain_chips last_raise).legalOps C)) ∧
          (∀ a ∈ (getLegalActions2 C p).actions,
            a ∈ (getLegalActions2 C (p.after remain_chips last_raise)).actions) ↔
        p.Small C ∧ (p.after remain_chips last_raise).Small C)) ∧
    ∀ (rule : Nat) (h : rule < 2),
      (Computes (p.legalOps (C.withRule rule (h.trans (by decide)))) ∧
          Computes (p.legalOps (C.withRule 2 (by decide)))) ∧
        (∀ i, raises i ∈ (getLegalActions2 (C.withRule rule (h.trans (by decide))) p).actions →
          raises i ∈ (getLegalActions2 (C.withRule 2 (by decide)) p).actions) ↔
      p.Small (C.withRule rule (h.trans (by decide))) ∧ p.Small (C.withRule 2 (by decide)) := by
  refine ⟨?_, fun remain_chips last_raise hr hl => ?_, fun rule h => ?_⟩
  · rw [Spot.legalOps_computes_iff hpot hcall]
    exact and_iff_left fun i j k hij hjk hi hk => raises_contiguous hpot hcall hij hjk hi hk
  · have hafter : Computes ((p.after remain_chips last_raise).legalOps C) ↔
        (p.after remain_chips last_raise).Small C := Spot.legalOps_computes_iff hpot hcall
    rw [Spot.legalOps_computes_iff hpot hcall, hafter]
    exact and_iff_left fun a ha => offered_after hr hl ha
  · rw [Spot.legalOps_computes_iff hpot hcall, Spot.legalOps_computes_iff hpot hcall]
    exact and_iff_left fun i hi =>
      offered_third (C := C.withRule rule (h.trans (by decide))) hcall hi

/-- The small blind in front of the big blind, with 8 chips: RAISE1 to RAISE3 are offered. -/
theorem legal_raises_shape_blind : Computes (Spot.legalOps headsUp ⟨3, 1, 1, 0, 8, 1, 0⟩) ∧
    raises 1 ∈ (getLegalActions2 headsUp ⟨3, 1, 1, 0, 8, 1, 0⟩).actions := by
  have hcomputes : Computes (Spot.legalOps headsUp ⟨3, 1, 1, 0, 8, 1, 0⟩) := by decide
  have hsmall := (Spot.legalOps_computes_iff (by decide) (by decide)).mp hcomputes
  have hshape := (legal_raises_shape_iff headsUp (p := ⟨3, 1, 1, 0, 8, 1, 0⟩) (by decide)
    (by decide)).1.mpr hsmall
  exact ⟨hshape.1, hshape.2 0 1 2 (by decide) (by decide) (by decide) (by decide)⟩

/-- A pot of 750 million with as much to call, and 1.3 thousand million chips. -/
def bigPot : Spot := ⟨750000000, 750000000, 0, 0, 1300000000, 0, 0⟩

/-- The largest raise overflows with the call.  In two's complement RAISE1 and RAISE4 pass their
tests then, and the two between do not. -/
theorem legal_raises_gap :
    0 ≤ bigPot.pot_size ∧ 0 ≤ bigPot.call_size ∧ 0 ≤ bigPot.stage_beted ∧
      ¬ Computes (bigPot.legalOps headsUp) ∧
      (bigPot.tested headsUp).map (fun bet =>
        decide (bigPot.remain_chips ≥ Int.bmod (bet + bigPot.call_size) 4294967296)) =
        [true, false, false, true] := by
  decide

/-! ### Raises and calls -/

namespace DecisionState

/-- The bet of the raise exceeds the call: the call is less than the big blind, or the opening
multiple exceeds the largest bet of the round, or the bet contains the call, or the share of the
pot is larger than the call. -/
def Outbids (C : Configure) (d : DecisionState) (i : Fin 6) : Prop :=
  d.callSize < bbSize ∨
  (d.FirstBet ∧ d.maxRoundBet < (raises i).multiple * bbSize) ∨
  (¬ d.FirstBet ∧ (C.mRealRaise = 1 ∨ (d.callSize + 1) * 100 ≤ d.potSize * (raises i).percent))

instance (C : Configure) (d : DecisionState) (i : Fin 6) : Decidable (d.Outbids C i) :=
  inferInstanceAs (Decidable (_ ∨ _))

theorem choose_of_isRaise {a : Action} (ha : a.IsRaise) :
    d.choose C a = (128, d.raise C a.multiple a.percent) := by
  cases a with
  | fold | check | call | allin => exact ha.elim
  | raise1 | raise2 | raise3 | raise4 | raise5 | raise6 => rfl

/-- The bet of an offered action is defined where, for a raise, its opening is small. -/
theorem choiceOps_computes_iff (hpot : 0 ≤ d.potSize) (hcall : 0 ≤ d.callSize)
    (hsmall : d.spot.Small C) {a : Action} (ha : a ∈ d.validActions C) :
    Computes (d.choiceOps C a) ↔ (a.IsRaise → d.OpensSmall a.multiple) := by
  have hraise : ∀ {multiple percent : Int}, 0 ≤ multiple ∧ multiple ≤ 10 →
      0 ≤ percent ∧ percent ≤ 100 →
      (Computes (d.raiseOps C multiple percent) ↔ (True → d.OpensSmall multiple)) :=
    fun hm hp => (raiseOps_computes_iff hpot hcall hsmall.pot hm hp).trans
      ⟨fun h _ => h, fun h => h trivial⟩
  have hoff : d.spot.Offered C a := mem_getLegalActions2.mp ha
  cases a with
  | fold | check | call | allin => exact iff_of_true computes_nil False.elim
  | raise1 | raise2 | raise3 | raise4 => exact hraise (by decide) (by decide)
  | raise5 | raise6 => exact hoff.elim

theorem lt_raise_iff (multiple percent n : Int) :
    n < d.raise C multiple percent ↔ n < bbSize ∨ n < d.sized C multiple percent := by
  rw [← not_le, raise_le_iff, not_and_or, not_le, not_le]

theorem lt_portion_iff (x percent n : Int) :
    n < portion x percent ↔ (n + 1) * 100 ≤ x * percent := by
  rw [← Int.add_one_le_iff]
  exact Int.le_ediv_iff_mul_le (by decide)

/-- A share of a pot with a call of a big blind is positive. -/
theorem portion_pos (hpot : 3 ≤ d.potSize) (hcall : bbSize ≤ d.callSize) (i : Fin 6) :
    0 < portion (d.potSize + d.callSize) (raises i).percent := by
  have hpercent : 33 ≤ (raises i).percent := percent_mono (Fin.zero_le i)
  have hpot5 : 5 ≤ d.potSize + d.callSize := Int.add_le_add hpot hcall
  rw [lt_portion_iff]
  calc (0 + 1) * 100 ≤ (5 : Int) * 33 := by decide
    _ ≤ (d.potSize + d.callSize) * (raises i).percent :=
        Int.mul_le_mul hpot5 hpercent (by decide) (Int.le_trans (by decide) hpot5)

/-- A raise exceeds the call exactly when it outbids it. -/
theorem callSize_lt_raise_iff (hpot : 3 ≤ d.potSize) (i : Fin 6) :
    d.callSize < d.raise C (raises i).multiple (raises i).percent ↔ d.Outbids C i := by
  rw [lt_raise_iff, Outbids]
  by_cases hcall : d.callSize < bbSize
  · exact iff_of_true (.inl hcall) (.inl hcall)
  · simp only [hcall, false_or]
    by_cases hf : d.FirstBet
    · simp only [hf, true_and, not_true_eq_false, false_and, or_false, sized_of_firstBet hf]
      exact sub_lt_sub_iff_right d.curRoundBet
    · simp only [hf, false_and, not_false_eq_true, true_and, false_or, sized, if_false]
      by_cases hreal : C.mRealRaise = 1
      · simp only [hreal, if_true, true_or, iff_true]
        exact lt_add_of_pos_right _ (portion_pos hpot (not_lt.mp hcall) i)
      · simp only [hreal, if_false, false_or, lt_portion_iff]

/-- **A raise raises.**  What is offered and bet is defined, and the bet of every raise that is
offered exceeds the call and is reported as a raise, exactly when the amounts are small enough and
the size of each raise outbids the call. -/
theorem raises_exceed_call_iff (C : Configure) (hpot : 3 ≤ d.potSize) (hcall : 0 ≤ d.callSize) :
    (Computes (d.offerOps C) ∧ ∀ i, raises i ∈ d.validActions C →
      Computes (d.choiceOps C (raises i)) ∧ (d.choose C (raises i)).1 = 128 ∧
        d.callSize < d.aiBet C (raises i)) ↔
    d.spot.Small C ∧ ∀ i, raises i ∈ d.validActions C →
      d.OpensSmall (raises i).multiple ∧ d.Outbids C i := by
  have hpot₀ : 0 ≤ d.potSize := Int.le_trans (by decide) hpot
  rw [offerOps_computes_iff hpot₀ hcall]
  refine and_congr_right fun hsmall => ?_
  refine forall_congr' fun i => imp_congr_right fun hi => ?_
  have hraise := isRaise_raises i
  rw [choiceOps_computes_iff hpot₀ hcall hsmall hi, aiBet, choose_of_isRaise hraise]
  refine and_congr ⟨fun h => h hraise, fun h _ => h⟩ ?_
  exact (and_iff_right rfl).trans (callSize_lt_raise_iff hpot i)

/-- A bet of the pot on the river, 50 chips behind. -/
def potBetState : DecisionState := ⟨8, 4, 0, 50, 0, 1, 4, 1, 4⟩

/-- With `mRealRaise` the bets contain the call. -/
theorem raises_exceed_potBet :
    (potBetState.choose headsUp (raises 0)).1 = 128 ∧
      potBetState.callSize < potBetState.aiBet headsUp (raises 0) := by
  have hsmall : potBetState.spot.Small headsUp :=
    (offerOps_computes_iff (by decide) (by decide)).mp (by decide)
  have hoff : ¬ potBetState.FirstBet := by decide
  have houtbids : ∀ i, raises i ∈ potBetState.validActions headsUp →
      potBetState.Outbids headsUp i := by decide
  exact ((raises_exceed_call_iff headsUp (by decide) (by decide)).mpr
    ⟨hsmall, fun i hi => ⟨fun hf => absurd hf hoff, houtbids i hi⟩⟩).2 0 (by decide) |>.2

end DecisionState

/-- The short stack again, with a bet of the pot on the river. -/
def potBet : Request :=
  { shortStack with history := shortStack.history.take 9 ++ [⟨0, .raise, 4, 4, 194, 3⟩] }

/-- Two players, without `mRealRaise`. -/
def wholeBets : Configure := { headsUp with mRealRaise := 0, realRaise_lt := Nat.zero_lt_two }

/-- RAISE1 is offered there against a bet of 4, and bets 2. -/
theorem raise_short_of_call : ∃ s' w' d,
    handleRobotDecide2 wholeBets plainEngine .fresh () potBet = .ok (s', w', .reached d) ∧
    3 ≤ d.state.potSize ∧ 0 ≤ d.state.callSize ∧
    ¬ ∀ i, raises i ∈ d.state.validActions wholeBets →
      (d.state.choose wholeBets (raises i)).1 = 128 ∧
        d.state.callSize < d.state.aiBet wholeBets (raises i) :=
  ⟨_, _, ⟨DecisionState.potBetState, _⟩, rfl, by decide, by decide, by decide⟩

end Holdem.Decide
