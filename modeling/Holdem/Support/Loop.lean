import Mathlib.Order.Basic

/-!
# Support — Loop

`while (true)` loops given by what one pass does.  A pass goes round again from a new state, or
leaves with a result; `loop pass n s` runs at most `n` passes, and is `none` when the loop has not
left by then.

* `loop_leave`, `loop_again`: one pass at a time.
* `diverges_of_invariant`: a loop that stays in a set of states from which it goes round again
  never leaves.
* `Reaches.invariant`: what every pass keeps holds at the head of every pass.
* `loop_map`: a loop seen through a map of its states is the loop of the passes seen through it.
-/

namespace Holdem.Support

/-- What one pass of a loop does. -/
inductive Pass (σ ρ : Type*) where
  | again (s : σ)
  | leave (r : ρ)

variable {σ ρ : Type*} {pass : σ → Pass σ ρ}

/-- The loop, for at most so many passes. -/
def loop (pass : σ → Pass σ ρ) : Nat → σ → Option ρ
  | 0, _     => none
  | n + 1, s =>
    match pass s with
    | .leave r => some r
    | .again s' => loop pass n s'

/-- The loop never leaves from `s`. -/
def Diverges (pass : σ → Pass σ ρ) (s : σ) : Prop := ∀ n, loop pass n s = none

/-- The loop leaves from `s`. -/
def Leaves (pass : σ → Pass σ ρ) (s : σ) : Prop := ∃ n r, loop pass n s = some r

theorem Diverges.not_leaves {s : σ} (h : Diverges pass s) : ¬ Leaves pass s := by
  rintro ⟨n, r, hn⟩
  rw [h n] at hn
  cases hn

theorem loop_leave {s : σ} {r : ρ} (h : pass s = .leave r) (n : Nat) :
    loop pass (n + 1) s = some r := by
  simp only [loop, h]

theorem loop_again {s s' : σ} (h : pass s = .again s') (n : Nat) :
    loop pass (n + 1) s = loop pass n s' := by
  simp only [loop, h]

/-- A loop that goes round from every state of `P` to a state of `P` never leaves `P`. -/
theorem diverges_of_invariant {P : σ → Prop} (h : ∀ s, P s → ∃ s', pass s = .again s' ∧ P s')
    {s : σ} (hs : P s) : Diverges pass s := by
  intro n
  induction n generalizing s with
  | zero => rfl
  | succ n ih =>
      obtain ⟨s', hp, hs'⟩ := h s hs
      rw [loop_again hp]
      exact ih hs'

/-! ### The states at the head of a pass -/

/-- The loop, begun at `s`, comes to the head of a pass at `t`. -/
inductive Reaches (pass : σ → Pass σ ρ) (s : σ) : σ → Prop where
  | start : Reaches pass s s
  | again {t t' : σ} (h : Reaches pass s t) (hp : pass t = .again t') : Reaches pass s t'

/-- What every pass keeps holds at the head of every pass. -/
theorem Reaches.invariant {P : σ → Prop} (hP : ∀ t t', P t → pass t = .again t' → P t')
    {s t : σ} (hs : P s) (h : Reaches pass s t) : P t := by
  induction h with
  | start => exact hs
  | again h hp ih => exact hP _ _ ih hp

/-! ### A loop seen through a map -/

variable {σ' ρ' : Type*} {pass' : σ' → Pass σ' ρ'}

/-- A pass seen through a map of the states and one of the results. -/
def Pass.map (f : σ → σ') (g : ρ → ρ') : Pass σ ρ → Pass σ' ρ'
  | .again s => .again (f s)
  | .leave r => .leave (g r)

/-- Where passes go to passes, the loop goes to the loop. -/
theorem loop_map {P : σ → Prop} {f : σ → σ'} {g : ρ → ρ'}
    (hmap : ∀ s, P s → pass' (f s) = (pass s).map f g)
    (hP : ∀ s s', P s → pass s = .again s' → P s') (n : Nat) {s : σ} (hs : P s) :
    loop pass' n (f s) = (loop pass n s).map g := by
  induction n generalizing s with
  | zero => rfl
  | succ n ih =>
      have hm := hmap s hs
      cases hp : pass s with
      | leave r =>
          rw [hp] at hm
          rw [loop_leave hp, loop_leave hm]
          rfl
      | again s' =>
          rw [hp] at hm
          rw [loop_again hp, loop_again hm, ih (hP s s' hs hp)]

theorem Diverges.map {P : σ → Prop} {f : σ → σ'} {g : ρ → ρ'}
    (hmap : ∀ s, P s → pass' (f s) = (pass s).map f g)
    (hP : ∀ s s', P s → pass s = .again s' → P s') {s : σ} (hs : P s) (h : Diverges pass s) :
    Diverges pass' (f s) := by
  intro n
  rw [loop_map hmap hP n hs, h n]
  rfl

end Holdem.Support
