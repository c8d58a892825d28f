import Mathlib.Algebra.Order.Group.Abs
import Mathlib.Algebra.Order.Ring.Defs
import Mathlib.Tactic.Linarith

/-!
# Support — Nearest

The entry of a table that is nearest to a value, and of two such entries the larger one.

* `prefers_iff_of_lt`, `prefers_iff_of_gt`: of two entries, the one on the side of their midpoint
  where the value is.
* `NearestTo.mono`: a larger value has no smaller nearest entry.
* `NearestTo.map`: the nearest entry in other units.
-/

namespace Holdem.Support

universe u

/-! ### Preference -/

section
variable {α : Type u} [AddCommGroup α] [LinearOrder α] {v w : List α} {x a b c : α}

/-- `b` is nearer to `x` than `c` is, or as near and not smaller. -/
def Prefers (x b c : α) : Prop := |x - b| < |x - c| ∨ |x - b| = |x - c| ∧ c ≤ b

/-- `b` is the nearest entry to `x`, and the largest of these. -/
structure NearestTo (v : List α) (x b : α) : Prop where
  mem : b ∈ v
  prefers : ∀ c ∈ v, Prefers x b c

theorem prefers_refl (x b : α) : Prefers x b b := .inr ⟨rfl, le_refl b⟩

theorem Prefers.trans (hab : Prefers x a b) (hbc : Prefers x b c) : Prefers x a c := by
  rcases hab with hab | ⟨hab, hba⟩
  · rcases hbc with hbc | ⟨hbc, -⟩
    · exact .inl (hab.trans hbc)
    · exact .inl (hbc ▸ hab)
  · rcases hbc with hbc | ⟨hbc, hcb⟩
    · exact .inl (hab ▸ hbc)
    · exact .inr ⟨hab.trans hbc, hcb.trans hba⟩

namespace NearestTo

theorem singleton (x b : α) : NearestTo [b] x b :=
  ⟨List.mem_singleton.mpr rfl, fun _ hc => List.mem_singleton.mp hc ▸ prefers_refl x b⟩

/-- Further entries that are not preferred change nothing. -/
theorem append_left (h : NearestTo v x b) (hw : ∀ c ∈ w, Prefers x b c) :
    NearestTo (v ++ w) x b := by
  refine ⟨List.mem_append_left w h.mem, fun c hc => ?_⟩
  rcases List.mem_append.mp hc with hc | hc
  · exact h.prefers c hc
  · exact hw c hc

/-- A further entry that is preferred is the nearest. -/
theorem append_right (h : NearestTo v x b) (hc : Prefers x c b) : NearestTo (v ++ [c]) x c := by
  refine ⟨List.mem_append_right v List.mem_cons_self, fun d hd => ?_⟩
  rcases List.mem_append.mp hd with hd | hd
  · exact hc.trans (h.prefers d hd)
  · exact List.mem_singleton.mp hd ▸ prefers_refl x c

end NearestTo

end

/-! ### Midpoints -/

section
variable {α : Type u} [CommRing α] [LinearOrder α] [IsStrictOrderedRing α] {v : List α}
  {x y b c : α}

theorem abs_sub_le_abs_sub_iff (h : c < b) : |x - b| ≤ |x - c| ↔ b + c ≤ x + x := by
  rcases le_total b x with hb | hb
  · rw [abs_of_nonneg (sub_nonneg.mpr hb), abs_of_nonneg (sub_nonneg.mpr (h.le.trans hb))]
    exact ⟨fun _ => by linarith, fun _ => by linarith⟩
  · rw [abs_of_nonpos (sub_nonpos.mpr hb)]
    rcases le_total c x with hc | hc
    · rw [abs_of_nonneg (sub_nonneg.mpr hc)]
      exact ⟨fun _ => by linarith, fun _ => by linarith⟩
    · rw [abs_of_nonpos (sub_nonpos.mpr hc)]
      exact ⟨fun _ => by linarith, fun _ => by linarith⟩

/-- The larger of two entries is preferred from the midpoint on. -/
theorem prefers_iff_of_lt (h : c < b) : Prefers x b c ↔ b + c ≤ x + x := by
  rw [← abs_sub_le_abs_sub_iff h, le_iff_lt_or_eq, Prefers]
  exact or_congr_right (and_iff_left h.le)

/-- The smaller of two entries is preferred below the midpoint. -/
theorem prefers_iff_of_gt (h : b < c) : Prefers x b c ↔ x + x < c + b := by
  rw [← not_le, ← abs_sub_le_abs_sub_iff h, not_le, Prefers]
  exact or_iff_left fun hle => absurd hle.2 (not_le.mpr h)

namespace NearestTo

/-- Nothing is nearer to an entry than itself. -/
theorem self (h : x ∈ v) : NearestTo v x x := by
  refine ⟨h, fun c _ => ?_⟩
  unfold Prefers
  rw [sub_self, abs_zero]
  rcases eq_or_ne x c with rfl | hne
  · exact .inr ⟨by rw [sub_self, abs_zero], le_refl x⟩
  · exact .inl (abs_pos.mpr (sub_ne_zero.mpr hne))

/-- A larger value has no smaller nearest entry. -/
theorem mono (hb : NearestTo v x b) (hc : NearestTo v y c) (hxy : x ≤ y) : b ≤ c := by
  by_contra hlt
  push Not at hlt
  have hx : b + c ≤ x + x := (prefers_iff_of_lt hlt).mp (hb.prefers c hc.mem)
  have hy : y + y < b + c := (prefers_iff_of_gt hlt).mp (hc.prefers b hb.mem)
  exact absurd (add_le_add hxy hxy) (not_le.mpr (hy.trans_le hx))

/-- The nearest entry in other units. -/
theorem map {β : Type*} [CommRing β] [LinearOrder β] [IsStrictOrderedRing β] {f : α →+ β}
    (hf : StrictMono f) (h : NearestTo v x b) : NearestTo (v.map f) (f x) (f b) := by
  refine ⟨List.mem_map_of_mem h.mem, fun d hd => ?_⟩
  obtain ⟨c, hc, rfl⟩ := List.mem_map.mp hd
  have hp := h.prefers c hc
  rcases lt_trichotomy b c with hlt | rfl | hlt
  · rw [prefers_iff_of_gt hlt] at hp
    rw [prefers_iff_of_gt (hf hlt), ← map_add, ← map_add]
    exact hf hp
  · exact prefers_refl _ _
  · rw [prefers_iff_of_lt hlt] at hp
    rw [prefers_iff_of_lt (hf hlt), ← map_add, ← map_add]
    exact hf.monotone hp

end NearestTo

end

end Holdem.Support
