import Mathlib.Algebra.BigOperators.Ring.List
import Mathlib.Algebra.Order.BigOperators.Group.List
import Mathlib.Algebra.Order.Field.Basic

/-!
# Support — Distribution

Vectors of weights that are not negative, and their shares of the total.

* `exists_pos_iff_sum_ne_zero`: the total is not zero when some weight is positive.
* `IsDistribution.shares`: the shares of such a total are a distribution.
-/

namespace Holdem.Support

/-! ### Shares of a total -/

section
variable {α : Type*} [Field α]

/-- The share that each weight has of the total. -/
def shares (v : List α) : List α := v.map fun x => x / v.sum

theorem sum_shares {v : List α} (h : v.sum ≠ 0) : (shares v).sum = 1 := by
  have hdiv : shares v = v.map fun x => x * v.sum⁻¹ :=
    List.map_congr_left fun x _ => div_eq_mul_inv x v.sum
  rw [hdiv, List.sum_map_mul_right, List.map_id', mul_inv_cancel₀ h]

end

/-! ### Distributions -/

section
variable {α : Type*} [Field α] [LinearOrder α] [IsStrictOrderedRing α]

/-- Probabilities of the entries of a vector. -/
structure IsDistribution (v : List α) : Prop where
  nonneg : ∀ x ∈ v, 0 ≤ x
  sum : v.sum = 1

variable {v : List α}

theorem exists_pos_iff_sum_ne_zero (h : ∀ x ∈ v, 0 ≤ x) : (∃ x ∈ v, 0 < x) ↔ v.sum ≠ 0 := by
  constructor
  · rintro ⟨x, hx, hpos⟩
    exact ne_of_gt (lt_of_lt_of_le hpos (List.single_le_sum h x hx))
  · intro hsum
    by_contra hno
    push Not at hno
    exact hsum (List.sum_eq_zero fun x hx => le_antisymm (hno x hx) (h x hx))

theorem IsDistribution.le_one (h : IsDistribution v) {x : α} (hx : x ∈ v) : x ≤ 1 :=
  h.sum ▸ List.single_le_sum h.nonneg x hx

/-- The shares of a total that is not zero are a distribution. -/
theorem IsDistribution.shares (h : ∀ x ∈ v, 0 ≤ x) (hsum : v.sum ≠ 0) :
    IsDistribution (shares v) := by
  refine ⟨fun y hy => ?_, sum_shares hsum⟩
  obtain ⟨x, hx, rfl⟩ := List.mem_map.mp hy
  exact div_nonneg (h x hx) (List.sum_nonneg h)

end

end Holdem.Support
