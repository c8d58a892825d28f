import Mathlib.Logic.Function.Basic
import Holdem.Support.Runs

/-!
# Support — Parties

A family of machines that share a store, over any state, store, action and index.  One machine moves
at a time; what it does may depend on the store and may change it.  Every interleaving of the
machines is a run of the family (`partyStep`).

A machine is judged by its own history (`own`).  What the others do reaches it through the store
alone, so a property of a machine and its history that a step keeps, whatever is in the store, holds
of every machine in every interleaving (`parts_invariant`).  Where the guard of a step is settled by
what the machine comes to in the end, it holds all along (`parts_guarded`).
-/

namespace Holdem.Support

variable {ι σ ω α : Type*}

/-- The machines, and what they share. -/
structure Parties (ι σ ω : Type*) where
  parts : ι → σ
  store : ω

/-- What the machine `i` was made to do. -/
def own [DecidableEq ι] (i : ι) : List (ι × α) → List α
  | []      => []
  | x :: xs => if x.1 = i then x.2 :: own i xs else own i xs

/-- A step of one machine. -/
def partyStep [DecidableEq ι] (step : ω → σ → α → Option (σ × ω)) (s : Parties ι σ ω)
    (x : ι × α) : Option (Parties ι σ ω) :=
  (step s.store (s.parts x.1) x.2).map fun r => ⟨Function.update s.parts x.1 r.1, r.2⟩

/-- The guard of a step, from that of the machine that takes it. -/
def PartyGuard (G : ω → σ → α → Prop) (s : Parties ι σ ω) (x : ι × α) : Prop :=
  G s.store (s.parts x.1) x.2

variable [DecidableEq ι] {step : ω → σ → α → Option (σ × ω)} {s s' t : Parties ι σ ω}

theorem own_cons_self (i : ι) (a : α) (xs : List (ι × α)) : own i ((i, a) :: xs) = a :: own i xs :=
  if_pos rfl

theorem own_cons_of_ne {i j : ι} (h : j ≠ i) (a : α) (xs : List (ι × α)) :
    own i ((j, a) :: xs) = own i xs :=
  if_neg h

theorem partyStep_eq_some {x : ι × α} (h : partyStep step s x = some s') :
    ∃ l w, step s.store (s.parts x.1) x.2 = some (l, w) ∧
      s' = ⟨Function.update s.parts x.1 l, w⟩ := by
  rw [partyStep, Option.map_eq_some_iff] at h
  obtain ⟨r, hr, rfl⟩ := h
  exact ⟨r.1, r.2, hr, rfl⟩

variable {P F : List α → σ → Prop} {G : ω → σ → α → Prop} {xs : List (ι × α)}

/-- A step changes one machine, and makes its history one action longer. -/
theorem parts_step {h : ι → List α} {x : ι × α} (hs : ∀ i, P (h i) (s.parts i))
    (hx : partyStep step s x = some s')
    (hP : ∀ l w, step s.store (s.parts x.1) x.2 = some (l, w) → P (h x.1 ++ [x.2]) l) (i : ι) :
    P (Function.update h x.1 (h x.1 ++ [x.2]) i) (s'.parts i) := by
  obtain ⟨l, w, hl, rfl⟩ := partyStep_eq_some hx
  by_cases hi : i = x.1
  · subst hi
    simpa only [Function.update_self] using hP l w hl
  · simpa only [Function.update_of_ne hi] using hs i

/-- The history goes on as the machine does. -/
theorem update_append_own (h : ι → List α) (x : ι × α) (xs : List (ι × α)) (i : ι) :
    Function.update h x.1 (h x.1 ++ [x.2]) i ++ own i xs = h i ++ own i (x :: xs) := by
  obtain ⟨j, a⟩ := x
  by_cases hi : i = j
  · subst hi
    rw [Function.update_self, own_cons_self, List.append_assoc]
    rfl
  · rw [Function.update_of_ne hi, own_cons_of_ne (Ne.symm hi)]

/-- **Each by its own history.**  What a step keeps, whatever is in the store, holds of every
machine and its history along every run whose steps meet the guard. -/
theorem parts_invariant
    (hstep : ∀ as w l a l' w', P as l → G w l a → step w l a = some (l', w') → P (as ++ [a]) l')
    (hs : ∀ i, P [] (s.parts i)) (hguard : Guarded (partyStep step) (PartyGuard G) s xs)
    (hrun : run (partyStep step) s xs = some t) (i : ι) : P (own i xs) (t.parts i) := by
  suffices hall : ∀ h : ι → List α, (∀ i, P (h i) (s.parts i)) →
      P (h i ++ own i xs) (t.parts i) from hall (fun _ => []) hs
  clear hs
  induction xs generalizing s with
  | nil =>
      cases hrun
      intro h hs
      simpa only [own, List.append_nil] using hs i
  | cons x xs ih =>
      intro h hs
      obtain ⟨s', hx, hrun⟩ := run_cons_eq_some hrun
      rw [← update_append_own]
      exact ih (hguard.2 s' hx) hrun _
        (parts_step hs hx fun l w hl => hstep _ _ _ _ l w (hs x.1) hguard.1 hl)

/-- What a step passes back holds of every machine before, if it does in the end. -/
theorem parts_backward
    (hback : ∀ as w l a l' w', F (as ++ [a]) l' → step w l a = some (l', w') → F as l)
    (hrun : run (partyStep step) s xs = some t) (h : ι → List α)
    (ht : ∀ i, F (h i ++ own i xs) (t.parts i)) (i : ι) : F (h i) (s.parts i) := by
  induction xs generalizing s h with
  | nil =>
      cases hrun
      simpa only [own, List.append_nil] using ht i
  | cons x xs ih =>
      obtain ⟨s', hx, hrun⟩ := run_cons_eq_some hrun
      have hs' := ih hrun (Function.update h x.1 (h x.1 ++ [x.2])) fun i => by
        rw [update_append_own]
        exact ht i
      obtain ⟨l, w, hl, rfl⟩ := partyStep_eq_some hx
      by_cases hi : i = x.1
      · subst hi
        simp only [Function.update_self] at hs'
        exact hback _ _ _ _ l w hs' hl
      · simpa only [Function.update_of_ne hi] using hs'

/-- **Settled in the end.**  Where a step meets its guard as long as the machine has not gone too
far after it, and no step brings a machine back, the guard holds along every run in which no machine
has gone too far in the end. -/
theorem parts_guarded
    (hback : ∀ as w l a l' w', F (as ++ [a]) l' → step w l a = some (l', w') → F as l)
    (hstep : ∀ as w l a l' w', P as l → F (as ++ [a]) l' → step w l a = some (l', w') →
      G w l a ∧ P (as ++ [a]) l')
    (hs : ∀ i, P [] (s.parts i)) (hrun : run (partyStep step) s xs = some t)
    (ht : ∀ i, F (own i xs) (t.parts i)) : Guarded (partyStep step) (PartyGuard G) s xs := by
  suffices hall : ∀ h : ι → List α, (∀ i, P (h i) (s.parts i)) →
      (∀ i, F (h i ++ own i xs) (t.parts i)) → Guarded (partyStep step) (PartyGuard G) s xs from
    hall (fun _ => []) hs ht
  clear hs ht
  induction xs generalizing s with
  | nil => exact fun _ _ _ => trivial
  | cons x xs ih =>
      intro h hs ht
      obtain ⟨s', hx, hrun⟩ := run_cons_eq_some hrun
      have ht' : ∀ i, F (Function.update h x.1 (h x.1 ++ [x.2]) i ++ own i xs) (t.parts i) := by
        intro i
        rw [update_append_own]
        exact ht i
      have hfar : ∀ l w, step s.store (s.parts x.1) x.2 = some (l, w) → F (h x.1 ++ [x.2]) l := by
        intro l w hl
        have hF := parts_backward hback hrun _ ht' x.1
        obtain ⟨l', w', hl', rfl⟩ := partyStep_eq_some hx
        cases hl.symm.trans hl'
        simpa only [Function.update_self] using hF
      rw [guarded_cons_of_some hx]
      constructor
      · obtain ⟨l, w, hl, -⟩ := partyStep_eq_some hx
        exact (hstep _ _ _ _ l w (hs x.1) (hfar l w hl) hl).1
      · exact ih hrun _
          (parts_step hs hx fun l w hl => (hstep _ _ _ _ l w (hs x.1) (hfar l w hl) hl).2) ht'

end Holdem.Support
