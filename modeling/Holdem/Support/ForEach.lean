import Holdem.Support.Runs

/-!
# Support — ForEach

Loops over a list.  The body may fail, or give a new state and say whether the loop goes on.  The
turns that go on are a step function, so that the states which the loop comes to are those of a run.

* `forEach_invariant`: what every turn keeps holds after the loop; `forEach_guarded`: where every
  turn meets a guard, it is enough that those keep it.
* `forEach_ne_errors_iff`: where a guard says exactly which turns do not fail, the loops that do not
  fail are the guarded ones.
-/

namespace Holdem.Support

variable {σ α ε : Type*}

/-- The loop over the list. -/
def forEach (body : σ → α → Except ε (σ × Bool)) : σ → List α → Except ε σ
  | s, []      => .ok s
  | s, a :: as =>
    match body s a with
    | .error e        => .error e
    | .ok (s', true)  => forEach body s' as
    | .ok (s', false) => .ok s'

/-- A turn after which the loop goes on. -/
def goesOn (body : σ → α → Except ε (σ × Bool)) (s : σ) (a : α) : Option σ :=
  match body s a with
  | .error _       => none
  | .ok (s', true) => some s'
  | .ok (_, false) => none

variable {body : σ → α → Except ε (σ × Bool)}

theorem forEach_congr {body' : σ → α → Except ε (σ × Bool)} {as : List α}
    (h : ∀ s, ∀ a ∈ as, body s a = body' s a) (s : σ) : forEach body s as = forEach body' s as := by
  induction as generalizing s with
  | nil => rfl
  | cons a as ih =>
      have hrest := ih fun s b hb => h s b (List.mem_cons_of_mem a hb)
      simp only [forEach, h s a List.mem_cons_self, hrest]

theorem forEach_cons_of_goesOn {s s' : σ} {a : α} {as : List α} (h : body s a = .ok (s', true)) :
    forEach body s (a :: as) = forEach body s' as := by
  simp only [forEach, h]

/-- What every turn keeps that meets its guard holds after a loop whose turns all do. -/
theorem forEach_guarded {P : σ → Prop} {G : σ → α → Prop}
    (hP : ∀ s a s' more, P s → G s a → body s a = .ok (s', more) → P s') {s t : σ} {as : List α}
    (hs : P s) (hg : Guarded (goesOn body) G s as) (h : forEach body s as = .ok t) : P t := by
  induction as generalizing s with
  | nil =>
      cases h
      exact hs
  | cons a as ih =>
      rcases hbody : body s a with e | ⟨s', _ | _⟩
      · simp only [forEach, hbody, reduceCtorEq] at h
      · simp only [forEach, hbody] at h
        cases h
        exact hP s a _ _ hs hg.1 hbody
      · have hstep : goesOn body s a = some s' := by simp only [goesOn, hbody]
        simp only [forEach, hbody] at h
        exact ih (hP s a s' _ hs hg.1 hbody) (hg.2 s' hstep) h

/-- What every turn keeps holds after the loop. -/
theorem forEach_invariant {P : σ → Prop}
    (hP : ∀ s a s' more, P s → body s a = .ok (s', more) → P s') {s t : σ} {as : List α}
    (hs : P s) (h : forEach body s as = .ok t) : P t :=
  forEach_guarded (G := fun _ _ => True) (fun s a s' more hs _ => hP s a s' more hs) hs
    (guarded_of_forall (fun _ _ _ => trivial) s) h

theorem exists_turn_of_forEach {s t : σ} {a : α} {as : List α}
    (h : forEach body s (a :: as) = .ok t) : ∃ y, body s a = .ok y := by
  rcases hbody : body s a with e | y
  · simp only [forEach, hbody, reduceCtorEq] at h
  · exact ⟨y, rfl⟩

/-- **Guarded loops.**  The turns that go on keep `P`, and under `P` the turns that do not fail with
an error in `E` are those that meet the guard.  Then neither do the loops fail with one whose turns
all meet it, and no others. -/
theorem forEach_ne_errors_iff {P : σ → Prop} {G : σ → α → Prop} {E : ε → Prop}
    (hP : ∀ s a s', P s → body s a = .ok (s', true) → P s')
    (hG : ∀ s a, P s → ((∀ e, E e → body s a ≠ .error e) ↔ G s a)) {s : σ} {as : List α}
    (hs : P s) :
    (∀ e, E e → forEach body s as ≠ .error e) ↔ Guarded (goesOn body) G s as := by
  induction as generalizing s with
  | nil => exact iff_of_true (fun _ _ h => nomatch h) trivial
  | cons a as ih =>
      rcases hbody : body s a with e' | ⟨s', _ | _⟩
      · have hstop : goesOn body s a = none := by simp only [goesOn, hbody]
        rw [guarded_cons_of_none hstop, ← hG s a hs, hbody]
        simp only [forEach, hbody, ne_eq, Except.error.injEq]
      · have hstop : goesOn body s a = none := by simp only [goesOn, hbody]
        rw [guarded_cons_of_none hstop, ← hG s a hs, hbody]
        simp only [forEach, hbody, ne_eq, reduceCtorEq]
      · have hstep : goesOn body s a = some s' := by simp only [goesOn, hbody]
        have hgood : G s a := (hG s a hs).mp fun e _ => by rw [hbody]; nofun
        rw [guarded_cons_of_some hstep, ← ih (hP s a s' hs hbody)]
        simp only [forEach, hbody, ne_eq, hgood, true_and]

theorem forEach_ne_error_iff {P : σ → Prop} {G : σ → α → Prop} {e : ε}
    (hP : ∀ s a s', P s → body s a = .ok (s', true) → P s')
    (hG : ∀ s a, P s → (body s a ≠ .error e ↔ G s a)) {s : σ} {as : List α} (hs : P s) :
    forEach body s as ≠ .error e ↔ Guarded (goesOn body) G s as := by
  have hone : ∀ {τ : Type _} (x : Except ε τ), (∀ e', e' = e → x ≠ .error e') ↔ x ≠ .error e :=
    fun _ => forall_eq
  rw [← hone]
  exact forEach_ne_errors_iff hP (fun s a hs => (hone _).trans (hG s a hs)) hs

/-- Where the turns that do not fail are those that meet the guard, the loops that do not fail are
the guarded ones. -/
theorem exists_forEach_iff {G : σ → α → Prop} (hG : ∀ s a, (∃ y, body s a = .ok y) ↔ G s a)
    {s : σ} {as : List α} :
    (∃ t, forEach body s as = .ok t) ↔ Guarded (goesOn body) G s as := by
  have hok : ∀ {τ : Type _} (x : Except ε τ), (∃ y, x = .ok y) ↔ ∀ e, True → x ≠ .error e := by
    intro τ x
    cases x with
    | error e => exact iff_of_false (fun ⟨_, h⟩ => nomatch h) fun h => h e trivial rfl
    | ok y => exact iff_of_true ⟨y, rfl⟩ fun _ _ h => nomatch h
  rw [hok]
  exact forEach_ne_errors_iff (P := fun _ => True) (fun _ _ _ _ _ => trivial)
    (fun s a _ => (hok _).symm.trans (hG s a)) trivial

end Holdem.Support
