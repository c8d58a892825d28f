import Mathlib.Data.List.Basic
import Mathlib.Data.List.Lattice

/-!
# Support — Draws

Draws without replacement.  One after another, each drawer draws an item that it is offered and that
fits what has been taken so far; the parts of the item are taken from then on.

* `Draws.disjoint`: where an item only fits if none of its parts is taken, no part is drawn twice.
* `draws_iff`: where it fits exactly then, any choice of items without a common part can be drawn.
* `neverOut_cons`: what it takes that nobody is ever left without an item, drawer by drawer.
-/

namespace Holdem.Support

variable {ι κ γ : Type*}

/-- The items that the drawers draw, in this order. -/
inductive Draws (offers : ι → κ → Prop) (parts : κ → List γ) (fits : List γ → κ → Prop) :
    List γ → List ι → List (ι × κ) → Prop
  | nil (taken : List γ) : Draws offers parts fits taken [] []
  | cons {taken : List γ} {i : ι} {k : κ} {is : List ι} {xs : List (ι × κ)} (hoffer : offers i k)
      (hfits : fits taken k) (hrest : Draws offers parts fits (taken ++ parts k) is xs) :
      Draws offers parts fits taken (i :: is) ((i, k) :: xs)

variable {offers : ι → κ → Prop} {parts : κ → List γ} {fits : List γ → κ → Prop}
  {taken : List γ} {is : List ι} {xs : List (ι × κ)}

theorem draws_cons_iff {i : ι} {x : ι × κ} :
    Draws offers parts fits taken (i :: is) (x :: xs) ↔
      x.1 = i ∧ offers i x.2 ∧ fits taken x.2 ∧
        Draws offers parts fits (taken ++ parts x.2) is xs := by
  constructor
  · intro h
    cases h with
    | cons hoffer hfits hrest => exact ⟨rfl, hoffer, hfits, hrest⟩
  · rintro ⟨rfl, hoffer, hfits, hrest⟩
    exact .cons hoffer hfits hrest

namespace Draws

theorem drawers (h : Draws offers parts fits taken is xs) : xs.map Prod.fst = is := by
  induction h with
  | nil => rfl
  | cons _ _ _ ih => exact congrArg _ ih

theorem offered (h : Draws offers parts fits taken is xs) : ∀ x ∈ xs, offers x.1 x.2 := by
  induction h with
  | nil => exact fun _ h => nomatch h
  | cons hoffer _ _ ih => exact List.forall_mem_cons.mpr ⟨hoffer, ih⟩

/-- What fits keeps fitting when less has been taken. -/
theorem fitted (hmono : ∀ taken new k, fits (taken ++ new) k → fits taken k)
    (h : Draws offers parts fits taken is xs) : ∀ x ∈ xs, fits taken x.2 := by
  induction h with
  | nil => exact fun _ h => nomatch h
  | cons _ hfits _ ih =>
      exact List.forall_mem_cons.mpr ⟨hfits, fun x hx => hmono _ _ _ (ih x hx)⟩

/-- **No part is drawn twice.**  No item has a part that was taken before, or one of another
item. -/
theorem disjoint (hfits : ∀ taken i k, offers i k → fits taken k → taken.Disjoint (parts k))
    (h : Draws offers parts fits taken is xs) :
    (∀ x ∈ xs, taken.Disjoint (parts x.2)) ∧
      xs.Pairwise fun x y => (parts x.2).Disjoint (parts y.2) := by
  induction h with
  | nil => exact ⟨fun _ h => (nomatch h), .nil⟩
  | cons hoffer hfit _ ih =>
      obtain ⟨hbefore, hpair⟩ := ih
      refine ⟨List.forall_mem_cons.mpr ⟨hfits _ _ _ hoffer hfit, fun x hx => ?_⟩,
        List.pairwise_cons.mpr ⟨fun x hx => ?_, hpair⟩⟩
      · exact (List.disjoint_append_left.mp (hbefore x hx)).1
      · exact (List.disjoint_append_left.mp (hbefore x hx)).2

end Draws

/-- **Every choice can be drawn.**  Where an item fits exactly if it is allowed and none of its
parts is taken, as long as all parts have `P`, the items drawn are the choices of allowed items
without a common part. -/
theorem draws_iff {P : γ → Prop} {A : κ → Prop}
    (hparts : ∀ i k, offers i k → ∀ c ∈ parts k, P c)
    (hfits : ∀ taken i k, (∀ c ∈ taken, P c) → offers i k →
      (fits taken k ↔ A k ∧ taken.Disjoint (parts k))) (htaken : ∀ c ∈ taken, P c) :
    Draws offers parts fits taken is xs ↔
      xs.map Prod.fst = is ∧ (∀ x ∈ xs, offers x.1 x.2 ∧ A x.2 ∧
        taken.Disjoint (parts x.2)) ∧ xs.Pairwise fun x y => (parts x.2).Disjoint (parts y.2) := by
  induction xs generalizing taken is with
  | nil =>
      constructor
      · intro h
        cases h
        exact ⟨rfl, fun _ h => (nomatch h), .nil⟩
      · rintro ⟨rfl, -⟩
        exact .nil taken
  | cons x xs ih =>
      cases is with
      | nil => exact iff_of_false (fun h => nomatch h) fun h => nomatch h.1
      | cons i is =>
          have hmore : offers i x.2 → ∀ c ∈ taken ++ parts x.2, P c := fun hoffer =>
            List.forall_mem_append.mpr ⟨htaken, hparts i x.2 hoffer⟩
          rw [draws_cons_iff, List.map_cons, List.cons.injEq, List.forall_mem_cons,
            List.pairwise_cons]
          constructor
          · rintro ⟨rfl, hoffer, hfit, hrest⟩
            obtain ⟨rfl, hall, hpair⟩ := (ih (hmore hoffer)).mp hrest
            obtain ⟨hallowed, hnew⟩ := (hfits _ _ _ htaken hoffer).mp hfit
            refine ⟨⟨rfl, rfl⟩, ⟨⟨hoffer, hallowed, hnew⟩, fun y hy => ?_⟩, fun y hy => ?_, hpair⟩
            · obtain ⟨hyoffer, hyallowed, hynew⟩ := hall y hy
              exact ⟨hyoffer, hyallowed, (List.disjoint_append_left.mp hynew).1⟩
            · exact (List.disjoint_append_left.mp (hall y hy).2.2).2
          · rintro ⟨⟨rfl, rfl⟩, ⟨⟨hoffer, hallowed, hnew⟩, hall⟩, hapart, hpair⟩
            refine ⟨rfl, hoffer, (hfits _ _ _ htaken hoffer).mpr ⟨hallowed, hnew⟩,
              (ih (hmore hoffer)).mpr ⟨rfl, fun y hy => ?_, hpair⟩⟩
            obtain ⟨hyoffer, hyallowed, hynew⟩ := hall y hy
            exact ⟨hyoffer, hyallowed, List.disjoint_append_left.mpr ⟨hynew, hapart y hy⟩⟩

/-! ### Running out -/

variable (offers parts fits) in
/-- Whatever those before have drawn, every drawer is left an item. -/
def NeverOut (taken : List γ) (is : List ι) : Prop :=
  ∀ pre i post xs, is = pre ++ i :: post → Draws offers parts fits taken pre xs →
    ∃ k, offers i k ∧ fits (taken ++ xs.flatMap fun x => parts x.2) k

theorem neverOut_nil : NeverOut offers parts fits taken [] :=
  fun _ _ _ _ h _ => absurd h (by simp)

/-- The first is left an item, and whatever it draws, those behind it never run out. -/
theorem neverOut_cons {i : ι} :
    NeverOut offers parts fits taken (i :: is) ↔ (∃ k, offers i k ∧ fits taken k) ∧
      ∀ k, offers i k → fits taken k → NeverOut offers parts fits (taken ++ parts k) is := by
  constructor
  · intro h
    refine ⟨?_, fun k hoffer hfit pre j post xs his hdraws => ?_⟩
    · simpa using h [] i is [] rfl (.nil taken)
    · have hnext := h (i :: pre) j post ((i, k) :: xs) (by rw [his, List.cons_append])
        (.cons hoffer hfit hdraws)
      rwa [List.flatMap_cons, ← List.append_assoc] at hnext
  · rintro ⟨hfirst, hrest⟩ pre j post xs his hdraws
    cases hdraws with
    | nil =>
        obtain ⟨rfl, -⟩ := List.cons.inj his
        simpa using hfirst
    | cons hoffer hfit hdraws =>
        obtain ⟨rfl, htail⟩ := List.cons.inj his
        have hnext := hrest _ hoffer hfit _ j post _ htail hdraws
        rwa [List.flatMap_cons, ← List.append_assoc]

end Holdem.Support
