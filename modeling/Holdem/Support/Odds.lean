import Mathlib.Algebra.Group.Basic

/-!
# Support — Odds

Weighted lists revised by likelihoods.  A revision may drop entries; the weight of a key that is
kept is multiplied by its likelihood, where the key is one that the revision knows about, and by a
factor that all such keys share.  So the odds of two keys that are kept are those of their
likelihoods.

* `Revises.refl`, `Revises.trans`: revisions one after another.
* `Revises.odds`: the odds of two keys, from equal weights.
-/

namespace Holdem.Support

variable {κ α : Type*} [CommMonoid α]

/-- `R'` is `R`, revised by the likelihood `m` of the keys in `A`. -/
def Revises (A : κ → Prop) (m : κ → α) (R R' : List (κ × α)) : Prop :=
  ∃ d, ∀ k y, (k, y) ∈ R' → ∃ x, (k, x) ∈ R ∧ (A k → y = d * (m k * x))

namespace Revises

variable {A A' : κ → Prop} {m m' : κ → α} {R R' R'' : List (κ × α)}

theorem refl (A : κ → Prop) (R : List (κ × α)) : Revises A (fun _ => 1) R R :=
  ⟨1, fun _ y hy => ⟨y, hy, fun _ => by rw [one_mul, one_mul]⟩⟩

theorem trans (h : Revises A m R R') (h' : Revises A' m' R' R'') :
    Revises (fun k => A k ∧ A' k) (fun k => m k * m' k) R R'' := by
  obtain ⟨d, hd⟩ := h
  obtain ⟨d', hd'⟩ := h'
  refine ⟨d' * d, fun k z hz => ?_⟩
  obtain ⟨y, hy, hzy⟩ := hd' k z hz
  obtain ⟨x, hx, hyx⟩ := hd k y hy
  refine ⟨x, hx, fun hA => ?_⟩
  calc z = d' * (m' k * y) := hzy hA.2
    _ = d' * (m' k * (d * (m k * x))) := by rw [hyx hA.1]
    _ = d' * d * (m k * m' k * x) := by ac_rfl

/-- The odds of two keys, from equal weights. -/
theorem odds {c : α} (h : Revises A m R R') (hR : ∀ k x, (k, x) ∈ R → x = c) {k l : κ} {x y : α}
    (hx : (k, x) ∈ R') (hy : (l, y) ∈ R') (hk : A k) (hl : A l) : x * m l = y * m k := by
  obtain ⟨d, hd⟩ := h
  obtain ⟨x₀, hx₀, hx⟩ := hd k x hx
  obtain ⟨y₀, hy₀, hy⟩ := hd l y hy
  calc x * m l = d * (m k * c) * m l := by rw [hx hk, hR k x₀ hx₀]
    _ = d * (m l * c) * m k := by ac_rfl
    _ = y * m k := by rw [hy hl, hR l y₀ hy₀]

end Revises

end Holdem.Support
