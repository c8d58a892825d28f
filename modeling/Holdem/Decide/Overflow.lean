import Holdem.Decide.Sizing
import Holdem.Support.Ints

/-!
# Decide — Overflow

`getLegalActions2` and the bet of a raise are computed with `int`s.  `Spot.legalOps` lists what a
call of `getLegalActions2` computes, and `DecisionState.raiseOps` what the bet of a raise takes, in
the order of the source; `Spot.Small` and `DecisionState.OpensSmall` say when all of this is
defined, by the amounts of the decision.  Where it is, the amounts are those of exact arithmetic.

* `legalOps_computes_iff`: a call of `getLegalActions2` is defined exactly when its spot is small.
* `raiseOps_computes_iff`: then so is the bet of a raise, but for the opening of a player with a
  negative amount in front.
-/

namespace Holdem.Decide
open Support

/-! ### The operations of `getLegalActions2` -/

/-- The size of a raise is compared with the call added to it. -/
def Configure.Compares (C : Configure) : Prop := C.mRaiseRule ≠ 2 ∨ C.mRealRaise = 1

instance (C : Configure) : Decidable C.Compares := inferInstanceAs (Decidable (_ ∨ _))

/-- Shares of an amount, converted to `int`s; the last two are those of `bet_150` and `bet_200`. -/
def shareOps (x : Int) : List Operation :=
  [33, 50, 75, 100, 150, 200].map fun percent => .toInt (portion x percent)

namespace Spot

/-- The sizes of the raises. -/
def sizeOps (C : Configure) (p : Spot) : List Operation :=
  .add p.pot_size p.call_size :: shareOps (p.pot_size + p.call_size) ++
  (if C.mRealRaise = 0 then shareOps p.pot_size else []) ++
  .add p.stage_beted p.call_size ::
  if p.Fixed then
    [.sub 4 p.stage_beted, .sub 6 p.stage_beted, .sub 8 p.stage_beted, .sub 10 p.stage_beted]
  else []

/-- `Covers`. -/
def coversOps (p : Spot) (bet : Int) : List Operation := [.add bet p.call_size]

/-- `Doubles`, which is over where the chips do not cover the raise or nothing is to be called. -/
def doublesOps (p : Spot) (bet : Int) : List Operation :=
  p.coversOps bet ++
  if p.Covers bet ∧ p.call_size ≠ 0 then
    [.add p.stage_beted bet, .add (p.stage_beted + bet) p.call_size,
      .add p.stage_beted p.call_size, .mul (p.stage_beted + p.call_size) 2]
  else []

/-- `Affords`. -/
def affordsOps (C : Configure) (p : Spot) (bet : Int) : List Operation :=
  if C.mRealRaise = 1 then p.coversOps bet else []

/-- The test that the rule makes of a raise with this size. -/
def testOps (C : Configure) (p : Spot) (bet : Int) : List Operation :=
  if C.mRaiseRule = 0 then p.doublesOps bet
  else if C.mRaiseRule = 1 then p.coversOps bet
  else if C.mRaiseRule = 2 then p.affordsOps C bet
  else []

/-- The sizes that are tested; the first rule has no RAISE1. -/
def tested (C : Configure) (p : Spot) : List Int :=
  (if C.mRaiseRule = 0 then [] else [(p.bets C).bet_033]) ++
    [(p.bets C).bet_050, (p.bets C).bet_075, (p.bets C).bet_100]

/-- `getLegalActions2`. -/
def legalOps (C : Configure) (p : Spot) : List Operation :=
  p.sizeOps C ++ if p.Open then (p.tested C).flatMap (p.testOps C) else []

/-! ### Small spots -/

/-- The sums of the test of the first rule are `int`s. -/
structure DoublesSmall (p : Spot) (bet : Int) : Prop where
  raised : IsInt (p.stage_beted + bet)
  total : IsInt (p.stage_beted + bet + p.call_size)
  double : IsInt ((p.stage_beted + p.call_size) * 2)

/-- The amounts of the spot are small enough: twice the pot with the call, and what the call comes
to, are `int`s; a call into the fixed sizes leaves room for the largest of them; and so are the sums
of the first rule, for the sizes that the chips cover. -/
structure Small (C : Configure) (p : Spot) : Prop where
  pot : p.pot_size + p.call_size ≤ 1073741823
  beted : IsInt (p.stage_beted + p.call_size)
  fixed : p.Open → C.Compares → p.Fixed → p.call_size ≤ 1073741819
  doubled : p.Open → C.mRaiseRule = 0 → p.call_size ≠ 0 → ∀ bet ∈ p.tested C, p.Covers bet →
    p.DoublesSmall bet

end Spot

variable {C : Configure} {p : Spot}

/-- The largest share is twice the amount. -/
theorem shareOps_computes_iff {x : Int} (hx : 0 ≤ x) :
    Computes (shareOps x) ↔ x ≤ 1073741823 := by
  simp only [shareOps, computes_map_iff, List.forall_mem_cons, List.not_mem_nil, false_implies,
    implies_true, and_true, Operation.Defined, portion, IsInt]
  omega

namespace Spot

theorem sizeOps_computes_iff (hpot : 0 ≤ p.pot_size) (hcall : 0 ≤ p.call_size) :
    Computes (p.sizeOps C) ↔
      p.pot_size + p.call_size ≤ 1073741823 ∧ IsInt (p.stage_beted + p.call_size) := by
  have hshares := shareOps_computes_iff (Int.add_nonneg hpot hcall)
  have hwhole : p.pot_size + p.call_size ≤ 1073741823 →
      Computes (if C.mRealRaise = 0 then shareOps p.pot_size else []) := by
    intro hle
    split
    · exact (shareOps_computes_iff hpot).mpr (by omega)
    · exact computes_nil
  have hfixed : p.pot_size + p.call_size ≤ 1073741823 → Computes (if p.Fixed then
      [.sub 4 p.stage_beted, .sub 6 p.stage_beted, .sub 8 p.stage_beted, .sub 10 p.stage_beted]
      else []) := by
    intro hle
    split
    · next hx =>
        have hfront := hx.1
        simp only [computes_cons, computes_nil, Operation.Defined, IsInt, and_true]
        omega
    · exact computes_nil
  rw [sizeOps, List.cons_append, List.cons_append, computes_cons, computes_append,
    computes_append, computes_cons, hshares]
  constructor
  · rintro ⟨-, ⟨hle, -⟩, hbeted, -⟩
    exact ⟨hle, hbeted⟩
  · rintro ⟨hle, hbeted⟩
    refine ⟨?_, ⟨hle, hwhole hle⟩, hbeted, hfixed hle⟩
    simp only [Operation.Defined, IsInt]
    omega

theorem coversOps_computes_iff {bet : Int} :
    Computes (p.coversOps bet) ↔ IsInt (bet + p.call_size) := by
  rw [coversOps, computes_cons, and_iff_left computes_nil]
  rfl

theorem doublesOps_computes_iff {bet : Int} (hbeted : IsInt (p.stage_beted + p.call_size)) :
    Computes (p.doublesOps bet) ↔ IsInt (bet + p.call_size) ∧
      (p.call_size ≠ 0 → p.Covers bet → p.DoublesSmall bet) := by
  rw [doublesOps, computes_append, coversOps_computes_iff]
  refine and_congr_right fun _ => ?_
  split
  · next h =>
      simp only [computes_cons, computes_nil, and_true]
      constructor
      · rintro ⟨hraised, htotal, -, hdouble⟩ _ _
        exact ⟨hraised, htotal, hdouble⟩
      · intro hsmall
        obtain ⟨hraised, htotal, hdouble⟩ := hsmall h.2 h.1
        exact ⟨hraised, htotal, hbeted, hdouble⟩
  · next h => exact iff_of_true computes_nil fun hne hcov => absurd ⟨hcov, hne⟩ h

theorem testOps_computes_iff {bet : Int} (hbeted : IsInt (p.stage_beted + p.call_size)) :
    Computes (p.testOps C bet) ↔ (C.Compares → IsInt (bet + p.call_size)) ∧
      (C.mRaiseRule = 0 → p.call_size ≠ 0 → p.Covers bet → p.DoublesSmall bet) := by
  have hlt := C.raiseRule_lt
  unfold testOps
  -- one case a rule
  obtain h | h | h : C.mRaiseRule = 0 ∨ C.mRaiseRule = 1 ∨ C.mRaiseRule = 2 := by omega
  · have hcompares : C.Compares := .inl (by omega)
    rw [if_pos h, doublesOps_computes_iff hbeted]
    exact and_congr ⟨fun hint _ => hint, fun hint => hint hcompares⟩
      ⟨fun hsmall _ => hsmall, fun hsmall => hsmall h⟩
  · have h0 : ¬ C.mRaiseRule = 0 := by omega
    have hcompares : C.Compares := .inl (by omega)
    rw [if_neg h0, if_pos h, coversOps_computes_iff, and_iff_left fun h' => absurd h' h0]
    exact ⟨fun hint _ => hint, fun hint => hint hcompares⟩
  · have h0 : ¬ C.mRaiseRule = 0 := by omega
    have h1 : ¬ C.mRaiseRule = 1 := by omega
    have hcompares : C.Compares ↔ C.mRealRaise = 1 := or_iff_right fun hne => hne h
    rw [if_neg h0, if_neg h1, if_pos h, and_iff_left fun h' => absurd h' h0, hcompares, affordsOps]
    split
    · next hreal =>
        rw [coversOps_computes_iff]
        exact ⟨fun hint _ => hint, fun hint => hint hreal⟩
    · next hreal => exact iff_of_true computes_nil fun h' => absurd h' hreal

/-- The sizes tested come to `int`s with the call, but for a large call into the fixed sizes. -/
theorem tested_isInt_iff (hpot : 0 ≤ p.pot_size) (hcall : 0 ≤ p.call_size)
    (hle : p.pot_size + p.call_size ≤ 1073741823) :
    (∀ bet ∈ p.tested C, IsInt (bet + p.call_size)) ↔ (p.Fixed → p.call_size ≤ 1073741819) := by
  by_cases hx : p.Fixed
  · have hfront := hx.1
    have hbets : p.bets C = ⟨4 - p.stage_beted, 6 - p.stage_beted, 8 - p.stage_beted,
        10 - p.stage_beted⟩ := if_pos hx
    simp only [tested, hbets, hx, true_implies]
    split <;>
      simp only [List.nil_append, List.cons_append, List.forall_mem_cons, List.not_mem_nil,
        false_implies, implies_true, and_true, IsInt] <;> omega
  · refine iff_of_true (fun bet hbet => ?_) fun h => absurd h hx
    have hbase : 0 ≤ p.base C ∧ p.base C ≤ 1073741823 := by
      unfold base
      split <;> omega
    have hbounds : 0 ≤ bet ∧ bet ≤ 1073741823 := by
      simp only [tested, bets, if_neg hx, Bets.shares, List.mem_append, List.mem_cons,
        List.not_mem_nil, or_false, portion] at hbet
      rcases hbet with hbet | rfl | rfl | rfl
      · split at hbet
        · cases hbet
        · rw [List.mem_singleton.mp hbet]
          omega
      · omega
      · omega
      · omega
    unfold IsInt
    omega

/-- **The arithmetic of `getLegalActions2`.**  It is defined exactly when the spot is small. -/
theorem legalOps_computes_iff (hpot : 0 ≤ p.pot_size) (hcall : 0 ≤ p.call_size) :
    Computes (p.legalOps C) ↔ p.Small C := by
  rw [legalOps, computes_append, sizeOps_computes_iff hpot hcall]
  have htests : IsInt (p.stage_beted + p.call_size) →
      (Computes ((p.tested C).flatMap (p.testOps C)) ↔
        (C.Compares → ∀ bet ∈ p.tested C, IsInt (bet + p.call_size)) ∧
        (C.mRaiseRule = 0 → p.call_size ≠ 0 → ∀ bet ∈ p.tested C, p.Covers bet →
          p.DoublesSmall bet)) := by
    intro hbeted
    simp only [computes_flatMap_iff, testOps_computes_iff hbeted]
    exact ⟨fun h => ⟨fun hc bet hbet => (h bet hbet).1 hc,
        fun h0 hne bet hbet => (h bet hbet).2 h0 hne⟩,
      fun h bet hbet => ⟨fun hc => h.1 hc bet hbet, fun h0 hne => h.2 h0 hne bet hbet⟩⟩
  constructor
  · rintro ⟨⟨hle, hbeted⟩, hops⟩
    refine ⟨hle, hbeted, fun hopen hc => ?_, fun hopen => ?_⟩
    · rw [if_pos hopen] at hops
      exact (tested_isInt_iff hpot hcall hle).mp (((htests hbeted).mp hops).1 hc)
    · rw [if_pos hopen] at hops
      exact ((htests hbeted).mp hops).2
  · rintro ⟨hle, hbeted, hfixed, hdoubled⟩
    refine ⟨⟨hle, hbeted⟩, ?_⟩
    split
    · next hopen =>
        exact (htests hbeted).mpr
          ⟨fun hc => (tested_isInt_iff hpot hcall hle).mpr (hfixed hopen hc), hdoubled hopen⟩
    · exact computes_nil

end Spot

/-! ### The bet of a raise -/

namespace DecisionState

/-- `sized`; the comparison with the big blind computes nothing. -/
def raiseOps (C : Configure) (d : DecisionState) (multiple percent : Int) : List Operation :=
  if d.FirstBet then
    [.mul multiple bbSize, .sub d.maxRoundBet d.callSize,
      .sub (multiple * bbSize) (d.maxRoundBet - d.callSize)]
  else if C.mRealRaise = 1 then
    [.add d.potSize d.callSize, .toInt (portion (d.potSize + d.callSize) percent),
      .add d.callSize (portion (d.potSize + d.callSize) percent)]
  else [.toInt (portion d.potSize percent)]

/-- The bet of the action. -/
def choiceOps (C : Configure) (d : DecisionState) : Action → List Operation
  | .raise1 => d.raiseOps C 2 33
  | .raise2 => d.raiseOps C 3 50
  | .raise3 => d.raiseOps C 4 75
  | .raise4 => d.raiseOps C 5 100
  | .raise5 => d.raiseOps C 5 150
  | .raise6 => d.raiseOps C 10 200
  | _       => []

/-- `callSize` and `validActions`. -/
def offerOps (C : Configure) (d : DecisionState) : List Operation :=
  .sub d.maxRoundBet d.curRoundBet :: d.spot.legalOps C

/-- What is in front of the player, and what the opening adds to it, are `int`s. -/
def OpensSmall (d : DecisionState) (multiple : Int) : Prop :=
  d.FirstBet → IsInt d.curRoundBet ∧ IsInt (multiple * bbSize - d.curRoundBet)

variable {d : DecisionState}

theorem offerOps_computes_iff (hpot : 0 ≤ d.potSize) (hcall : 0 ≤ d.callSize) :
    Computes (d.offerOps C) ↔ d.spot.Small C := by
  rw [offerOps, computes_cons, Spot.legalOps_computes_iff (p := d.spot) hpot hcall]
  refine and_iff_right_of_imp fun h => ?_
  have hle : d.potSize + d.callSize ≤ 1073741823 := h.pot
  have hsub : IsInt d.callSize := by
    unfold IsInt
    omega
  exact hsub

/-- **The arithmetic of a raise.**  At a small spot the bet of a raise up to the pot is defined
exactly when its opening is small. -/
theorem raiseOps_computes_iff (hpot : 0 ≤ d.potSize) (hcall : 0 ≤ d.callSize)
    (hle : d.potSize + d.callSize ≤ 1073741823) {multiple percent : Int}
    (hmultiple : 0 ≤ multiple ∧ multiple ≤ 10) (hpercent : 0 ≤ percent ∧ percent ≤ 100) :
    Computes (d.raiseOps C multiple percent) ↔ d.OpensSmall multiple := by
  have hfront : d.maxRoundBet - d.callSize = d.curRoundBet := Int.sub_sub_self _ _
  have hshare : ∀ x, 0 ≤ x → x ≤ 1073741823 →
      0 ≤ portion x percent ∧ portion x percent ≤ 1073741823 := by
    intro x hx hx'
    have hmul : x * percent ≤ x * 100 := Int.mul_le_mul_of_nonneg_left hpercent.2 hx
    have hnonneg : 0 ≤ x * percent := Int.mul_nonneg hx hpercent.1
    unfold portion
    omega
  unfold raiseOps OpensSmall
  split
  · next hf =>
      simp only [computes_cons, computes_nil, and_true, Operation.Defined, hfront, hf,
        true_implies]
      refine and_iff_right ?_
      unfold IsInt bbSize
      omega
  · next hf =>
      have hsum := hshare (d.potSize + d.callSize) (Int.add_nonneg hpot hcall) hle
      have hwhole := hshare d.potSize hpot (by omega)
      refine iff_of_true ?_ fun h => absurd h hf
      split
      · simp only [computes_cons, computes_nil, and_true, Operation.Defined, IsInt]
        omega
      · simp only [computes_cons, computes_nil, and_true, Operation.Defined, IsInt]
        omega

end DecisionState

end Holdem.Decide
