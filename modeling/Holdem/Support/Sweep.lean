import Mathlib.Data.List.Perm.Basic
import Mathlib.Data.List.Perm.Lattice
import Mathlib.Data.List.Nodup

/-!
# Support — Sweep

A filter that changes as it goes: the elements that `O` holds of are dropped until the first one
that it does not hold of, which is kept, and behind that one those are dropped that `N` holds of.
What is kept depends on the order of the list.

* `Fixed xs x`: `x` is kept in every order of `xs`; `Wavers xs x`: in some orders and not in
  others.
* `sweep_perm`: what is kept are the fixed elements, and some that waver.
* `exists_orders`: for an element that wavers there are two orders, one of which keeps it; apart
  from it they keep the same, or one other in its place (`exists_apart`).
-/

namespace Holdem.Support

variable {α : Type*} (O N : α → Prop)

/-- What is kept. -/
def sweep [DecidablePred O] [DecidablePred N] : List α → List α
  | []      => []
  | x :: xs => if O x then sweep xs else x :: xs.filter fun y => ¬ N y

/-- The element is kept in every order: it passes `O`, and `N` too, unless no other one passes
`O`. -/
def Fixed (xs : List α) (x : α) : Prop := ¬ O x ∧ (¬ N x ∨ ∀ y ∈ xs, ¬ O y → y = x)

/-- Some element passes `O`, and `x` passes `N` and not `O`, or `O` and not `N`, and is not the only
one that passes `O`. -/
def Wavers (xs : List α) (x : α) : Prop :=
  (∃ y ∈ xs, ¬ O y) ∧ (O x ∧ ¬ N x ∨ ¬ O x ∧ N x ∧ ∃ y ∈ xs, y ≠ x ∧ ¬ O y)

theorem fixed_congr {xs ys : List α} {x : α} (h : xs.Perm ys) :
    Fixed O N xs x ↔ Fixed O N ys x := by
  simp only [Fixed, h.mem_iff]

theorem wavers_congr {xs ys : List α} {x : α} (h : xs.Perm ys) :
    Wavers O N xs x ↔ Wavers O N ys x := by
  simp only [Wavers, h.mem_iff]

variable [DecidablePred O] [DecidablePred N]

instance [DecidableEq α] (xs : List α) : DecidablePred (Fixed O N xs) :=
  fun _ => inferInstanceAs (Decidable (_ ∧ (_ ∨ _)))

instance [DecidableEq α] (xs : List α) : DecidablePred (Wavers O N xs) :=
  fun _ => inferInstanceAs (Decidable (_ ∧ _))

variable {O N} {xs : List α} {x z : α}

theorem sweep_of_pos (h : O x) : sweep O N (x :: xs) = sweep O N xs := if_pos h

theorem sweep_of_neg (h : ¬ O x) : sweep O N (x :: xs) = x :: xs.filter fun y => ¬ N y := if_neg h

theorem sweep_sublist (xs : List α) : (sweep O N xs).Sublist xs := by
  induction xs with
  | nil => exact List.Sublist.refl _
  | cons x xs ih =>
      by_cases hx : O x
      · rw [sweep_of_pos hx]
        exact ih.cons x
      · rw [sweep_of_neg hx]
        exact List.filter_sublist.cons_cons x

/-- An element that is kept is fixed or wavers. -/
theorem fixed_or_wavers (h : x ∈ sweep O N xs) : Fixed O N xs x ∨ Wavers O N xs x := by
  -- the list is cut at the first element that is kept
  have hcut : ∀ pre, (∀ y ∈ pre, O y) → x ∈ sweep O N xs →
      Fixed O N (pre ++ xs) x ∨ Wavers O N (pre ++ xs) x := by
    clear h
    induction xs with
    | nil => exact fun _ _ h => nomatch h
    | cons k xs ih =>
        intro pre hpre h
        by_cases hk : O k
        · rw [sweep_of_pos hk] at h
          rw [List.append_cons]
          refine ih (pre ++ [k]) (fun y hy => ?_) h
          rcases List.mem_append.mp hy with hy | hy
          · exact hpre y hy
          · exact List.mem_singleton.mp hy ▸ hk
        · rw [sweep_of_neg hk] at h
          have hmem : k ∈ pre ++ k :: xs := List.mem_append_right _ List.mem_cons_self
          rcases List.mem_cons.mp h with rfl | h
          · by_cases hN : N x
            · by_cases hother : ∃ y ∈ pre ++ x :: xs, y ≠ x ∧ ¬ O y
              · exact .inr ⟨⟨x, hmem, hk⟩, .inr ⟨hk, hN, hother⟩⟩
              · refine .inl ⟨hk, .inr fun y hy hO => ?_⟩
                by_contra hne
                exact hother ⟨y, hy, hne, hO⟩
            · exact .inl ⟨hk, .inl hN⟩
          · have hN : ¬ N x := of_decide_eq_true (List.mem_filter.mp h).2
            by_cases hx : O x
            · exact .inr ⟨⟨k, hmem, hk⟩, .inl ⟨hx, hN⟩⟩
            · exact .inl ⟨hx, .inl hN⟩
  exact hcut [] (fun _ hy => nomatch hy) h

theorem mem_sweep_of_fixed (hx : x ∈ xs) (h : Fixed O N xs x) : x ∈ sweep O N xs := by
  induction xs with
  | nil => cases hx
  | cons k xs ih =>
      by_cases hk : O k
      · rw [sweep_of_pos hk]
        rcases List.mem_cons.mp hx with rfl | hx
        · exact absurd hk h.1
        · exact ih hx ⟨h.1, h.2.imp_right fun hall y hy => hall y (List.mem_cons_of_mem _ hy)⟩
      · rw [sweep_of_neg hk]
        rcases List.mem_cons.mp hx with rfl | hx
        · exact List.mem_cons_self
        · rcases h.2 with hN | hall
          · exact List.mem_cons_of_mem _ (List.mem_filter.mpr ⟨hx, decide_eq_true hN⟩)
          · rw [hall k List.mem_cons_self hk]
            exact List.mem_cons_self

/-- An element on which `O` and `N` agree is kept in every order or in none. -/
theorem mem_sweep_iff (h : O x ↔ N x) : x ∈ sweep O N xs ↔ x ∈ xs ∧ ¬ O x := by
  refine ⟨fun hmem => ⟨(sweep_sublist xs).subset hmem, fun hO => ?_⟩,
    fun ⟨hmem, hO⟩ => mem_sweep_of_fixed hmem ⟨hO, .inl fun hN => hO (h.mpr hN)⟩⟩
  rcases fixed_or_wavers hmem with hfixed | ⟨-, ⟨-, hN⟩ | ⟨hO', -⟩⟩
  · exact hfixed.1 hO
  · exact hN (h.mp hO)
  · exact hO' hO

/-- What is kept are the fixed elements and some that waver. -/
theorem sweep_perm [DecidableEq α] (hxs : xs.Nodup) :
    ∃ extra, (sweep O N xs).Perm ((xs.filter fun x => Fixed O N xs x) ++ extra) ∧
      ∀ x ∈ extra, x ∈ xs ∧ Wavers O N xs x := by
  have hnodup := (sweep_sublist (O := O) (N := N) xs).nodup hxs
  refine ⟨(sweep O N xs).filter fun x => ¬ Fixed O N xs x, ?_, fun x hx => ?_⟩
  · have hfixed : ((sweep O N xs).filter fun x => Fixed O N xs x).Perm
        (xs.filter fun x => Fixed O N xs x) := by
      refine (List.perm_ext_iff_of_nodup (hnodup.filter _) (hxs.filter _)).mpr fun x => ?_
      simp only [List.mem_filter, decide_eq_true_eq]
      exact ⟨fun h => ⟨(sweep_sublist xs).subset h.1, h.2⟩,
        fun h => ⟨mem_sweep_of_fixed h.1 h.2, h.2⟩⟩
    refine (List.Perm.trans ?_ (hfixed.append_right _))
    simpa using (List.filter_append_perm (fun x => decide (Fixed O N xs x)) (sweep O N xs)).symm
  · obtain ⟨hmem, hno⟩ := List.mem_filter.mp hx
    exact ⟨(sweep_sublist xs).subset hmem,
      (fixed_or_wavers hmem).resolve_left (of_decide_eq_true hno)⟩

/-! ### Two orders -/

theorem exists_perm_cons_cons [DecidableEq α] (hx : x ∈ xs) (hz : z ∈ xs) (hne : z ≠ x) :
    ∃ rest, (x :: z :: rest).Perm xs := by
  have hz' : z ∈ xs.erase x := (List.mem_erase_of_ne hne).mpr hz
  exact ⟨(xs.erase x).erase z,
    ((List.perm_cons_erase hz').symm.cons x).trans (List.perm_cons_erase hx).symm⟩

/-- **Two orders.**  For an element that wavers there are two orders, one of which keeps it.  Apart
from it they keep the same elements; or each keeps one in the place of the other's, and all that
pass `O` fail `N`. -/
theorem exists_orders [DecidableEq α] (hx : x ∈ xs) (h : Wavers O N xs x) :
    ∃ ys zs, ys.Perm xs ∧ zs.Perm xs ∧
      ((sweep O N ys).Perm (x :: sweep O N zs) ∨
        (∀ y ∈ xs, ¬ O y → N y) ∧ ∃ z rest, z ≠ x ∧ N x ∧ (∀ y ∈ rest, ¬ N y) ∧
          sweep O N ys = x :: rest ∧ sweep O N zs = z :: rest) := by
  obtain ⟨⟨k, hk, hOk⟩, ⟨hO, hN⟩ | ⟨hO, hN, z, hz, hne, hOz⟩⟩ := h
  · -- before the first element that is kept, or behind it
    have hne : k ≠ x := fun heq => hOk (heq ▸ hO)
    obtain ⟨rest, hperm⟩ := exists_perm_cons_cons hx hk hne
    refine ⟨k :: x :: rest, x :: k :: rest, (List.Perm.swap _ _ _).trans hperm, hperm, .inl ?_⟩
    rw [sweep_of_neg hOk, sweep_of_pos hO, sweep_of_neg hOk,
      List.filter_cons_of_pos (by simp [hN])]
    exact List.Perm.swap _ _ _
  · by_cases hall : ∀ y ∈ xs, ¬ O y → N y
    · obtain ⟨rest, hperm⟩ := exists_perm_cons_cons hx hz hne
      refine ⟨x :: z :: rest, z :: x :: rest, hperm, (List.Perm.swap _ _ _).trans hperm,
        .inr ⟨hall, z, rest.filter fun y => ¬ N y, hne, hN, fun y hy => ?_, ?_, ?_⟩⟩
      · exact of_decide_eq_true (List.mem_filter.mp hy).2
      · rw [sweep_of_neg hO, List.filter_cons_of_neg (by simp [hall z hz hOz])]
      · rw [sweep_of_neg hOz, List.filter_cons_of_neg (by simp [hN])]
    · -- first of all, or behind one that passes both
      obtain ⟨y, hy, hOy, hNy⟩ : ∃ y ∈ xs, ¬ O y ∧ ¬ N y := by
        by_contra hno
        refine hall fun y hy hOy => ?_
        by_contra hNy
        exact hno ⟨y, hy, hOy, hNy⟩
      have hne' : y ≠ x := fun heq => hNy (heq ▸ hN)
      obtain ⟨rest, hperm⟩ := exists_perm_cons_cons hx hy hne'
      refine ⟨x :: y :: rest, y :: x :: rest, hperm, (List.Perm.swap _ _ _).trans hperm, .inl ?_⟩
      rw [sweep_of_neg hO, sweep_of_neg hOy, List.filter_cons_of_pos (by simp [hNy]),
        List.filter_cons_of_neg (by simp [hN])]

/-- One order keeps the element, and another does not. -/
theorem exists_apart [DecidableEq α] (hxs : xs.Nodup) (hx : x ∈ xs) (h : Wavers O N xs x) :
    ∃ ys zs, ys.Perm xs ∧ zs.Perm xs ∧ x ∈ sweep O N ys ∧ x ∉ sweep O N zs := by
  obtain ⟨ys, zs, hys, hzs, hperm | ⟨-, z, rest, hne, hN, hrest, hyeq, hzeq⟩⟩ :=
    exists_orders hx h
  · have hnodup := (sweep_sublist (O := O) (N := N) ys).nodup (hys.nodup_iff.mpr hxs)
    exact ⟨ys, zs, hys, hzs, hperm.mem_iff.mpr List.mem_cons_self,
      (List.nodup_cons.mp (hperm.nodup_iff.mp hnodup)).1⟩
  · refine ⟨ys, zs, hys, hzs, hyeq ▸ List.mem_cons_self, fun hmem => ?_⟩
    rw [hzeq] at hmem
    rcases List.mem_cons.mp hmem with heq | hmem
    · exact hne heq.symm
    · exact hrest x hmem hN

end Holdem.Support
