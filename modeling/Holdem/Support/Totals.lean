import Holdem.Support.Checked
import Mathlib.Algebra.BigOperators.Group.List.Basic
import Mathlib.Algebra.Order.BigOperators.Group.List
import Mathlib.Order.MinMax

/-!
# Support — Totals

What a write does to the sum of a vector, to the sum of a vector of vectors (`gridTotal`), and to
the largest entry of a vector (`peak`).

* `sum_of_writeAt`, `gridTotal_of_writeAt₂`: the sums change by as much as the entry.
* `peak_of_writeAt`: where the entry does not get smaller, the largest entry becomes the new one or
  stays.
* `peak_le_gridTotal`: no entry exceeds the sum, where none is negative.
* `readAt₂_unwritten`: all other entries of a vector of vectors are as before.
-/

namespace Holdem.Support

universe u

/-! ### What is not written -/

section
variable {α : Type u}

theorem readAt_unwritten {v w : List α} {i j : Int} {a : α} (h : writeAt v i a = .ok w)
    (hne : j ≠ i) : readAt w j = readAt v j := by
  obtain ⟨⟨hi, -⟩, rfl⟩ := writeAt_eq_ok.mp h
  unfold readAt
  by_cases hj : 0 ≤ j
  · have hne' : i.toNat ≠ j.toNat := by omega
    rw [if_pos hj, if_pos hj, List.getElem?_set_ne hne']
  · rw [if_neg hj, if_neg hj]

theorem readAt₂_unwritten {v w : List (List α)} {i j k l : Int} {a : α}
    (h : writeAt₂ v i j a = .ok w) (hne : ¬ (k = i ∧ l = j)) : readAt₂ w k l = readAt₂ v k l := by
  obtain ⟨row, row', hrow, hrow', hw⟩ := writeAt₂_eq_ok.mp h
  by_cases hk : k = i
  · subst hk
    have hl : l ≠ j := fun hl => hne ⟨rfl, hl⟩
    rw [readAt₂, readAt₂, readAt_written hw, hrow, ok_bind, ok_bind, readAt_unwritten hrow' hl]
  · rw [readAt₂, readAt₂, readAt_unwritten hw hk]

theorem writeAt_map {β : Type u} (f : α → β) {v w : List α} {i : Int} {a : α}
    (h : writeAt v i a = .ok w) : writeAt (v.map f) i (f a) = .ok (w.map f) := by
  obtain ⟨hi, rfl⟩ := writeAt_eq_ok.mp h
  rw [writeAt_eq_ok, List.length_map]
  exact ⟨hi, List.map_set.symm⟩

theorem readAt_map {β : Type u} (f : α → β) {v : List α} {i : Int} {a : α}
    (h : readAt v i = .ok a) : readAt (v.map f) i = .ok (f a) := by
  obtain ⟨hi, hget⟩ := readAt_eq_ok.mp h
  rw [readAt_eq_ok, List.getElem?_map, hget]
  exact ⟨hi, rfl⟩

end

/-! ### Sums -/

section
variable {α : Type u} [AddCommGroup α]

/-- The sum of a vector of vectors. -/
def gridTotal (v : List (List α)) : α := (v.map List.sum).sum

theorem sum_of_writeAt {v w : List α} {i : Int} {old new : α} (hr : readAt v i = .ok old)
    (hw : writeAt v i new = .ok w) : w.sum = v.sum + (new - old) := by
  obtain ⟨⟨-, hlt⟩, rfl⟩ := writeAt_eq_ok.mp hw
  obtain ⟨-, hget⟩ := readAt_eq_ok.mp hr
  obtain ⟨_, hget⟩ := List.getElem?_eq_some_iff.mp hget
  rw [List.sum_set', dif_pos hlt, hget, neg_add_eq_sub]

theorem gridTotal_of_writeAt₂ {v w : List (List α)} {i j : Int} {old new : α}
    (hr : readAt₂ v i j = .ok old) (hw : writeAt₂ v i j new = .ok w) :
    gridTotal w = gridTotal v + (new - old) := by
  obtain ⟨row, row', hrow, hrow', hwrite⟩ := writeAt₂_eq_ok.mp hw
  obtain ⟨_, hrow₁, hold⟩ := readAt₂_eq_ok.mp hr
  cases hrow.symm.trans hrow₁
  have hsum := sum_of_writeAt (readAt_map List.sum hrow) (writeAt_map List.sum hwrite)
  rw [sum_of_writeAt hold hrow', add_sub_cancel_left] at hsum
  exact hsum

end

/-! ### Largest entries -/

section
variable {α : Type u} [LinearOrder α]

/-- The largest of `b` and the entries of the vector. -/
def peak (b : α) (v : List α) : α := v.foldr max b

theorem peak_le_iff {b c : α} {v : List α} : peak b v ≤ c ↔ b ≤ c ∧ ∀ x ∈ v, x ≤ c := by
  induction v with
  | nil => simp [peak]
  | cons x v ih =>
      have hcons : peak b (x :: v) = max x (peak b v) := rfl
      rw [hcons, max_le_iff, ih, List.forall_mem_cons]
      exact and_left_comm

theorem le_peak {b x : α} {v : List α} (h : x ∈ v) : x ≤ peak b v :=
  (peak_le_iff.mp (le_refl _)).2 x h

/-- Where the entry does not get smaller, the largest entry becomes the new one or stays. -/
theorem peak_of_writeAt {b old new : α} {v w : List α} {i : Int} (hr : readAt v i = .ok old)
    (hw : writeAt v i new = .ok w) (hle : old ≤ new) : peak b w = max (peak b v) new := by
  have hnew : new ∈ w := mem_of_readAt (readAt_written hw)
  apply le_antisymm
  · refine peak_le_iff.mpr ⟨(peak_le_iff.mp (le_refl _)).1.trans (le_max_left _ _), ?_⟩
    exact forall_writeAt hw (fun x hx => (le_peak hx).trans (le_max_left _ _)) (le_max_right _ _)
  · refine max_le (peak_le_iff.mpr ⟨(peak_le_iff.mp (le_refl _)).1, fun x hx => ?_⟩) (le_peak hnew)
    obtain ⟨j, hj⟩ := exists_readAt_of_mem hx
    by_cases hji : j = i
    · subst hji
      cases hr.symm.trans hj
      exact hle.trans (le_peak hnew)
    · rw [← readAt_unwritten hw hji] at hj
      exact le_peak (mem_of_readAt hj)

end

section
variable {α : Type u} [AddCommGroup α] [LinearOrder α] [IsOrderedAddMonoid α]

/-- Where no entry is negative, the largest one of a row is at most the sum of all rows. -/
theorem peak_le_gridTotal {v : List (List α)} {row : List α} (hv : ∀ row ∈ v, ∀ x ∈ row, 0 ≤ x)
    (hrow : row ∈ v) : peak 0 row ≤ gridTotal v := by
  have hsums : ∀ x ∈ v.map List.sum, 0 ≤ x := by
    intro x hx
    obtain ⟨row, hrow, rfl⟩ := List.mem_map.mp hx
    exact List.sum_nonneg (hv row hrow)
  have hpeak : peak 0 row ≤ row.sum :=
    peak_le_iff.mpr ⟨List.sum_nonneg (hv row hrow), List.single_le_sum (hv row hrow)⟩
  exact hpeak.trans (List.single_le_sum hsums _ (List.mem_map_of_mem hrow))

end

end Holdem.Support
