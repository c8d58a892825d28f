import Mathlib.Algebra.BigOperators.Group.Finset.Basic
import Mathlib.Algebra.Order.BigOperators.Group.Finset
import Mathlib.Data.Fintype.BigOperators

/-!
# Support — Workers

A finite family of workers, each in a state of its own.  `total f c` adds up what `f` says of every
worker; `total_update` is the effect of a single worker's step, and `total_eq_zero_iff` tells what
an empty total means.
-/

namespace Holdem.Support

variable {ι κ M : Type*} [Fintype ι]

/-- What `f` says of all workers together. -/
def total [AddCommMonoid M] (f : κ → M) (c : ι → κ) : M := ∑ i, f (c i)

/-- One worker moves: its old share goes, its new share comes. -/
theorem total_update [DecidableEq ι] [AddCommMonoid M] (f : κ → M) (c : ι → κ) (i : ι) (k : κ) :
    total f (Function.update c i k) + f (c i) = total f c + f k := by
  have hrest : ∀ d : ι → κ, total f d = f (d i) + ∑ j ∈ Finset.univ.erase i, f (d j) := fun d =>
    (Finset.add_sum_erase Finset.univ (fun j => f (d j)) (Finset.mem_univ i)).symm
  have hsame : ∑ j ∈ Finset.univ.erase i, f (Function.update c i k j) =
      ∑ j ∈ Finset.univ.erase i, f (c j) := by
    refine Finset.sum_congr rfl fun j hj => ?_
    rw [Function.update_of_ne (Finset.ne_of_mem_erase hj)]
  rw [hrest c, hrest (Function.update c i k), hsame, Function.update_self,
    add_comm, add_comm (f k), ← add_assoc]

theorem total_update_of_eq [DecidableEq ι] [AddCancelCommMonoid M] {f : κ → M} {c : ι → κ} {i : ι}
    {k : κ} (h : f k = f (c i)) : total f (Function.update c i k) = total f c := by
  have hu := total_update f c i k
  rw [h] at hu
  exact add_right_cancel hu

/-- Nothing in total is nothing for anyone. -/
theorem total_eq_zero_iff [AddCommMonoid M] [PartialOrder M] [CanonicallyOrderedAdd M]
    {f : κ → M} {c : ι → κ} [IsOrderedAddMonoid M] : total f c = 0 ↔ ∀ i, f (c i) = 0 := by
  rw [total, Finset.sum_eq_zero_iff]
  exact ⟨fun h i => h i (Finset.mem_univ i), fun h i _ => h i⟩

end Holdem.Support
