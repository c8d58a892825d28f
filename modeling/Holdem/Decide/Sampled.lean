import Holdem.Decide.Choice
import Holdem.Support.Distribution
import Mathlib.Algebra.Field.Rat
import Mathlib.Algebra.Order.Ring.Rat
import Mathlib.Data.List.Nodup

/-!
# Decide — Sampled

What `std::discrete_distribution` is given.  Weights that are not positive count as zero, and the
weights are divided by their total.  A total of zero is only logged, and the division is made
anyway: where `strategySum` gives no positive weight to the offered actions it names, there is no
distribution to draw from.

* `sampled_iff`: the probabilities are a distribution with the odds of `strategySum`, exactly when
  some offered action that `strategySum` names has a positive weight there.
-/

namespace Holdem.Decide
open Support

/-- `actions` and `probabilities`, as the action is drawn from them: a distribution over offered
actions, with the odds that `strategySum` gives to the actions it knows. -/
structure ActionDistribution (validActions : List Action) (strategySum : Strategy)
    (actions : List Action) (probabilities : List Rat) : Prop where
  length : actions.length = probabilities.length
  dist : IsDistribution probabilities
  valid : ∀ x ∈ actions.zip probabilities, 0 < x.2 → x.1 ∈ validActions
  odds : ∃ c, 0 < c ∧ ∀ x ∈ actions.zip probabilities, ∀ v, (x.1.name, v) ∈ strategySum →
    x.2 = c * weight v

/-- Whatever there is to draw from is a distribution; none of its entries is a division by zero. -/
def Sampled (validActions : List Action) (strategySum : Strategy) : Prop :=
  candidates validActions strategySum ≠ [] → ∃ probabilities : List Rat,
    normalised ((candidates validActions strategySum).map Prod.snd) = probabilities.map some ∧
    ActionDistribution validActions strategySum ((candidates validActions strategySum).map Prod.fst)
      probabilities

/-- The action is an offered one. -/
def Names (validActions : List Action) (action : String) : Prop :=
  ∃ a ∈ validActions, a.name = action

variable {validActions : List Action} {strategySum : Strategy}

/-! ### Weights -/

theorem weight_nonneg (x : Rat) : 0 ≤ weight x := by
  unfold weight
  split
  · next h => exact le_of_lt h
  · exact le_refl _

theorem weight_pos_iff {x : Rat} : 0 < weight x ↔ 0 < x := by
  unfold weight
  split
  · exact Iff.rfl
  · next h => exact iff_of_false (lt_irrefl _) h

/-- A candidate has the weight of its name, or all have the same. -/
theorem weight_of_candidate {x : Action × Rat} (h : x ∈ candidates validActions strategySum) :
    strategySum = [] ∧ x.2 = 1 / validActions.length ∨
      ∃ y ∈ strategySum, x.1.name = y.1 ∧ x.2 = weight y.2 := by
  unfold candidates at h
  split at h
  · next hs =>
      obtain ⟨a, -, rfl⟩ := List.mem_map.mp h
      exact .inl ⟨hs, rfl⟩
  · obtain ⟨y, hy, hx⟩ := List.mem_filterMap.mp h
    obtain ⟨a, ha, rfl⟩ := Option.map_eq_some_iff.mp hx
    have hname := List.find?_some ha
    exact .inr ⟨y, hy, of_decide_eq_true hname, rfl⟩

/-- An offered action that `strategySum` names is a candidate. -/
theorem candidate_of_names {y : String × Rat} (hy : y ∈ strategySum)
    (hname : Names validActions y.1) :
    ∃ x ∈ candidates validActions strategySum, x.1.name = y.1 ∧ x.2 = weight y.2 := by
  obtain ⟨a, ha, haname⟩ := hname
  obtain ⟨b, hb⟩ : ∃ b, (validActions.find? fun a => a.name = y.1) = some b :=
    Option.isSome_iff_exists.mp (List.find?_isSome.mpr ⟨a, ha, decide_eq_true haname⟩)
  have hbname := List.find?_some hb
  refine ⟨(b, weight y.2), ?_, of_decide_eq_true hbname, rfl⟩
  rw [candidates, if_neg (List.ne_nil_of_mem hy)]
  exact List.mem_filterMap.mpr ⟨y, hy, Option.map_eq_some_iff.mpr ⟨b, hb, rfl⟩⟩

theorem candidate_nonneg {p : Rat}
    (h : p ∈ (candidates validActions strategySum).map Prod.snd) : 0 ≤ p := by
  obtain ⟨x, hx, rfl⟩ := List.mem_map.mp h
  rcases weight_of_candidate hx with ⟨-, hp⟩ | ⟨y, -, -, hp⟩
  · rw [hp]
    exact div_nonneg zero_le_one (Nat.cast_nonneg _)
  · rw [hp]
    exact weight_nonneg y.2

/-- The total is positive when the same holds of a weight that is used, or when none is. -/
theorem sum_candidates_ne_zero_iff (hne : validActions ≠ []) :
    ((candidates validActions strategySum).map Prod.snd).sum ≠ 0 ↔
      strategySum = [] ∨ ∃ y ∈ strategySum, Names validActions y.1 ∧ 0 < y.2 := by
  rw [← exists_pos_iff_sum_ne_zero fun p => candidate_nonneg]
  constructor
  · rintro ⟨p, hp, hpos⟩
    obtain ⟨x, hx, rfl⟩ := List.mem_map.mp hp
    rcases weight_of_candidate hx with ⟨hs, -⟩ | ⟨y, hy, hname, hw⟩
    · exact .inl hs
    · exact .inr ⟨y, hy, ⟨x.1, mem_of_candidate hx, hname⟩, weight_pos_iff.mp (hw ▸ hpos)⟩
  · rintro (hs | ⟨y, hy, hname, hpos⟩)
    · obtain ⟨a, ha⟩ := List.exists_mem_of_ne_nil _ hne
      refine ⟨1 / validActions.length, List.mem_map.mpr ⟨(a, 1 / validActions.length), ?_, rfl⟩, ?_⟩
      · rw [candidates, if_pos hs]
        exact List.mem_map.mpr ⟨a, ha, rfl⟩
      · exact one_div_pos.mpr (Nat.cast_pos.mpr (List.length_pos_iff.mpr hne))
    · obtain ⟨x, hx, -, hw⟩ := candidate_of_names hy hname
      exact ⟨x.2, List.mem_map_of_mem hx, hw ▸ weight_pos_iff.mpr hpos⟩

/-! ### The distribution -/

theorem normalised_eq {ps : List Rat} (h : ps.sum ≠ 0) :
    normalised ps = (shares ps).map some := by
  rw [shares, List.map_map]
  exact List.map_congr_left fun p _ => if_neg h

theorem normalised_of_sum_eq_zero {ps : List Rat} (h : ps.sum = 0) {p : Option Rat}
    (hp : p ∈ normalised ps) : p = none := by
  obtain ⟨x, -, rfl⟩ := List.mem_map.mp hp
  exact if_pos h

/-- The actions of the candidates beside the shares of their weights. -/
theorem zip_shares (cs : List (Action × Rat)) :
    (cs.map Prod.fst).zip (shares (cs.map Prod.snd)) =
      cs.map fun x => (x.1, x.2 / (cs.map Prod.snd).sum) := by
  rw [shares, List.map_map, List.zip_map']
  rfl

theorem actionDistribution_shares (hmap : (strategySum.map Prod.fst).Nodup)
    (hsum : ((candidates validActions strategySum).map Prod.snd).sum ≠ 0) :
    ActionDistribution validActions strategySum ((candidates validActions strategySum).map Prod.fst)
      (shares ((candidates validActions strategySum).map Prod.snd)) := by
  have hnonneg : ∀ p ∈ (candidates validActions strategySum).map Prod.snd, 0 ≤ p :=
    fun p => candidate_nonneg
  have hpos : 0 < ((candidates validActions strategySum).map Prod.snd).sum :=
    lt_of_le_of_ne (List.sum_nonneg hnonneg) (Ne.symm hsum)
  refine ⟨by rw [shares, List.length_map, List.length_map, List.length_map],
    .shares hnonneg hsum, ?_, _, inv_pos.mpr hpos, ?_⟩
  · rw [zip_shares]
    intro z hz _
    obtain ⟨x, hx, rfl⟩ := List.mem_map.mp hz
    exact mem_of_candidate (x := x) hx
  · rw [zip_shares]
    intro z hz v hv
    obtain ⟨x, hx, rfl⟩ := List.mem_map.mp hz
    rcases weight_of_candidate hx with ⟨hs, -⟩ | ⟨y, hy, hname, hw⟩
    · exact absurd hs (List.ne_nil_of_mem hv)
    · have hvy : (x.1.name, v) = y := List.inj_on_of_nodup_map hmap hv hy hname
      calc x.2 / ((candidates validActions strategySum).map Prod.snd).sum
          = ((candidates validActions strategySum).map Prod.snd).sum⁻¹ * x.2 := div_eq_inv_mul _ _
        _ = ((candidates validActions strategySum).map Prod.snd).sum⁻¹ * weight v := by
            rw [hw, ← hvy]

/-- **The sampled distribution.**  For every map and every list of offered actions, what is drawn
from is a distribution with the odds of `strategySum`, exactly when an offered action that
`strategySum` names has a positive weight there, if it names any. -/
theorem sampled_iff (hmap : (strategySum.map Prod.fst).Nodup) (hne : validActions ≠ []) :
    Sampled validActions strategySum ↔
      ((∃ y ∈ strategySum, Names validActions y.1) →
        ∃ y ∈ strategySum, Names validActions y.1 ∧ 0 < y.2) := by
  constructor
  · rintro h ⟨y, hy, hname⟩
    obtain ⟨x, hx, -, -⟩ := candidate_of_names hy hname
    obtain ⟨ps, hps, hdist⟩ := h (List.ne_nil_of_mem hx)
    by_cases hsum : ((candidates validActions strategySum).map Prod.snd).sum = 0
    · -- a share of nothing is not a number
      obtain ⟨p, hp⟩ : ∃ p, p ∈ ps := List.exists_mem_of_ne_nil _ fun hnil => by
        have hone := hdist.dist.sum
        rw [hnil, List.sum_nil] at hone
        exact zero_ne_one hone
      have hmem : some p ∈ normalised ((candidates validActions strategySum).map Prod.snd) :=
        hps ▸ List.mem_map_of_mem hp
      cases normalised_of_sum_eq_zero hsum hmem
    · exact ((sum_candidates_ne_zero_iff hne).mp hsum).resolve_left (List.ne_nil_of_mem hy)
  · intro h hcs
    have hsum : ((candidates validActions strategySum).map Prod.snd).sum ≠ 0 := by
      rw [sum_candidates_ne_zero_iff hne]
      by_cases hs : strategySum = []
      · exact .inl hs
      · obtain ⟨x, hx⟩ := List.exists_mem_of_ne_nil _ hcs
        obtain ⟨y, hy, hname⟩ := name_of_candidate hs hx
        exact .inr (h ⟨y, hy, x.1, mem_of_candidate hx, hname⟩)
    exact ⟨_, normalised_eq hsum, actionDistribution_shares hmap hsum⟩

/-- The odds of a node: an all-in, and never a call. -/
theorem sampled_allin :
    Sampled [.fold, .call, .allin] [("ALLIN", 3), ("CALL", -1 / 2), ("RAISE5", 1)] :=
  (sampled_iff (by decide) (by decide)).mpr
    fun _ => ⟨("ALLIN", 3), List.mem_cons_self, ⟨.allin, by decide, rfl⟩, by decide⟩

/-- The `strategySum` of a node that was never visited. -/
def unvisited : Strategy := [("CALL", 0)]

/-- The short stack comes to a node that was never visited, and the only probability to draw by is
not a number. -/
theorem nan_unvisited : ∃ s' w' d,
    handleRobotDecide2 headsUp (plainDealer unvisited).toEngine .fresh () shortStack =
      .ok (s', w', .reached d) ∧
    d.lookup.map Lookup.strategySum = some unvisited ∧ (unvisited.map Prod.fst).Nodup ∧
    d.state.validActions headsUp ≠ [] ∧ ¬ Sampled (d.state.validActions headsUp) unvisited := by
  refine ⟨_, _, ⟨shortStackState, some ⟨_, _, unvisited⟩⟩, rfl, rfl, by decide, by decide, ?_⟩
  intro h
  have hcs : candidates (shortStackState.validActions headsUp) unvisited = [(.call, 0)] := by
    decide
  obtain ⟨ps, hps, -⟩ := h (hcs ▸ List.cons_ne_nil _ _)
  have hnan : normalised ([(Action.call, (0 : Rat))].map Prod.snd) = [none] := by
    simp [normalised]
  rw [hcs, hnan] at hps
  cases ps with
  | nil => cases hps
  | cons p ps => cases hps

end Holdem.Decide
