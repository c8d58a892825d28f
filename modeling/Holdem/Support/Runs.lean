import Mathlib.Data.List.Infix

/-!
# Support — Runs

Systems given by a partial step function: `step s a` is the state after the action `a`, and `none`
when `a` cannot be taken, or never finishes, at `s`.  A run is a list of actions.

* `run_invariant`: what every step keeps holds along every run.
* `run_map`: the runs of one system are those of another whose steps are its own.
* `Throughout step Q s as`: no action of `as` is stuck, and `Q` holds at the start and after each
  of them (`throughout_iff`).
* `Guarded step G s as`: every action of `as` is taken at a state that meets its guard.
* `guarded_map_iff`: guarded runs of one system are those of another that simulates it.
* `guarded_invariant`: an invariant that the guarded steps keep holds along every guarded run;
  `guarded_of_invariant`: a guard implied by an invariant of all steps.
* `run_iff_guarded`: where an unguarded step breaks `Q` for good, the runs that end in `Q` are the
  guarded ones.
* `history_invariant`, `history_guarded`: the same for what holds of the state and of the actions so
  far, the second where the guard is settled by how far the run comes.
* `throughout_iff_guarded`: where the guard is exactly what keeps the invariant, the runs along
  which `Q` holds are the guarded ones (`throughout_iff_guarded_of_run` for a run that is not
  stuck).
-/

namespace Holdem.Support

variable {σ α : Type*}

/-- The state after the actions, taken in turn. -/
def run (step : σ → α → Option σ) : σ → List α → Option σ
  | s, []      => some s
  | s, a :: as => (step s a).bind fun s' => run step s' as

variable {step : σ → α → Option σ}

@[simp] theorem run_nil (s : σ) : run step s [] = some s := rfl

theorem run_cons {s s' : σ} {a : α} (h : step s a = some s') (as : List α) :
    run step s (a :: as) = run step s' as := by
  simp only [run, h, Option.bind_some]

theorem run_cons_eq_some {s t : σ} {a : α} {as : List α} (h : run step s (a :: as) = some t) :
    ∃ s', step s a = some s' ∧ run step s' as = some t := by
  simp only [run, Option.bind_eq_some_iff] at h
  exact h

theorem run_append (s : σ) (as bs : List α) :
    run step s (as ++ bs) = (run step s as).bind fun s' => run step s' bs := by
  induction as generalizing s with
  | nil => rfl
  | cons a as ih =>
      simp only [List.cons_append, run]
      cases step s a with
      | none => rfl
      | some s' => exact ih s'

/-! ### Invariants -/

/-- What every step keeps holds along every run. -/
theorem run_invariant {P : σ → Prop} (hstep : ∀ s a s', P s → step s a = some s' → P s')
    {s t : σ} {as : List α} (hs : P s) (h : run step s as = some t) : P t := by
  induction as generalizing s with
  | nil => cases h; exact hs
  | cons a as ih =>
      obtain ⟨s', hs', h⟩ := run_cons_eq_some h
      exact ih (hstep s a s' hs hs') h

/-- Where the steps of one system are those of another, so are the runs. -/
theorem run_map {τ β : Type*} {step' : τ → β → Option τ} {f : σ → τ} {g : β → α} {P : σ → Prop}
    (hmap : ∀ s b, P s → step' (f s) b = (step s (g b)).map f)
    (hP : ∀ s a s', P s → step s a = some s' → P s') {s : σ} (bs : List β) (hs : P s) :
    run step' (f s) bs = (run step s (bs.map g)).map f := by
  induction bs generalizing s with
  | nil => rfl
  | cons b bs ih =>
      simp only [run, List.map_cons, hmap s b hs]
      cases hstep : step s (g b) with
      | none => rfl
      | some s' => exact ih (hP s _ s' hs hstep)

/-- Every action is taken at a state that meets its guard. -/
def Guarded (step : σ → α → Option σ) (G : σ → α → Prop) : σ → List α → Prop
  | _, []      => True
  | s, a :: as => G s a ∧ ∀ s', step s a = some s' → Guarded step G s' as

theorem guarded_cons_of_none {G : σ → α → Prop} {s : σ} {a : α} {as : List α}
    (h : step s a = none) : Guarded step G s (a :: as) ↔ G s a := by
  simp only [Guarded, h, reduceCtorEq, false_implies, implies_true, and_true]

theorem guarded_cons_of_some {G : σ → α → Prop} {s s' : σ} {a : α} {as : List α}
    (h : step s a = some s') :
    Guarded step G s (a :: as) ↔ G s a ∧ Guarded step G s' as := by
  simp only [Guarded, h, Option.some.injEq, forall_eq']

instance (G : σ → α → Prop) [∀ s a, Decidable (G s a)] :
    ∀ s as, Decidable (Guarded step G s as)
  | _, []      => isTrue trivial
  | s, a :: as =>
    match h : step s a with
    | none    => decidable_of_iff (G s a) (guarded_cons_of_none h).symm
    | some s' =>
      have := instDecidableGuarded G s' as
      decidable_of_iff (G s a ∧ Guarded step G s' as) (guarded_cons_of_some h).symm

/-- An invariant that the guarded steps keep holds along every guarded run. -/
theorem guarded_invariant {P : σ → Prop} {G : σ → α → Prop}
    (hstep : ∀ s a s', P s → G s a → step s a = some s' → P s') {s t : σ} {as : List α}
    (hs : P s) (hg : Guarded step G s as) (h : run step s as = some t) : P t := by
  induction as generalizing s with
  | nil => cases h; exact hs
  | cons a as ih =>
      obtain ⟨s', hs', h⟩ := run_cons_eq_some h
      exact ih (hstep s a s' hs hg.1 hs') (hg.2 s' hs') h

/-- A run seen through a map of the states and of the actions: where the map takes steps to steps
and the two guards agree, one run is guarded exactly when the other is. -/
theorem guarded_map_iff {τ β : Type*} {step' : τ → β → Option τ} {f : σ → τ} {g : α → β}
    {P : σ → Prop} {G : σ → α → Prop} {G' : τ → β → Prop}
    (hmap : ∀ s a, P s → step' (f s) (g a) = (step s a).map f)
    (hP : ∀ s a s', P s → step s a = some s' → P s')
    (hG : ∀ s a, P s → (G s a ↔ G' (f s) (g a))) {s : σ} {as : List α} (hs : P s) :
    Guarded step G s as ↔ Guarded step' G' (f s) (as.map g) := by
  induction as generalizing s with
  | nil => exact Iff.rfl
  | cons a as ih =>
      have hm := hmap s a hs
      cases hstep : step s a with
      | none =>
          rw [hstep] at hm
          rw [List.map_cons, guarded_cons_of_none hstep, guarded_cons_of_none hm]
          exact hG s a hs
      | some s' =>
          rw [hstep] at hm
          rw [List.map_cons, guarded_cons_of_some hstep, guarded_cons_of_some hm, hG s a hs,
            ih (hP s a s' hs hstep)]

/-- Guards that agree under an invariant of the state and of the actions still to come. -/
theorem guarded_congr {P : σ → List α → Prop} {G G' : σ → α → Prop}
    (hG : ∀ s a as, P s (a :: as) → (G s a ↔ G' s a))
    (hP : ∀ s a as s', P s (a :: as) → step s a = some s' → P s' as) {s : σ} {as : List α}
    (hs : P s as) : Guarded step G s as ↔ Guarded step G' s as := by
  induction as generalizing s with
  | nil => exact Iff.rfl
  | cons a as ih =>
      refine and_congr (hG s a as hs) (forall_congr' fun s' => ?_)
      exact forall_congr' fun hs' => ih (hP s a as s' hs hs')

/-- A guard that asks nothing of the state. -/
theorem Guarded.and_mem {A : α → Prop} {G : σ → α → Prop} {s : σ} {as : List α}
    (hg : Guarded step G s as) (has : ∀ a ∈ as, A a) :
    Guarded step (fun s a => A a ∧ G s a) s as := by
  induction as generalizing s with
  | nil => trivial
  | cons a as ih =>
      refine ⟨⟨has a List.mem_cons_self, hg.1⟩, fun s' hs' => ?_⟩
      exact ih (hg.2 s' hs') fun b hb => has b (List.mem_cons_of_mem _ hb)

/-- A guard that an invariant of the steps implies. -/
theorem guarded_of_invariant {P : σ → Prop} {G : σ → α → Prop} (hG : ∀ s a, P s → G s a)
    (hP : ∀ s a s', P s → step s a = some s' → P s') {s : σ} (as : List α) (hs : P s) :
    Guarded step G s as := by
  induction as generalizing s with
  | nil => trivial
  | cons a as ih => exact ⟨hG s a hs, fun s' hs' => ih (hP s a s' hs hs')⟩

theorem guarded_of_forall {G : σ → α → Prop} {as : List α} (has : ∀ a ∈ as, ∀ s, G s a) (s : σ) :
    Guarded step G s as := by
  induction as generalizing s with
  | nil => trivial
  | cons a as ih =>
      exact ⟨has a List.mem_cons_self s,
        fun s' _ => ih (fun b hb => has b (List.mem_cons_of_mem _ hb)) s'⟩

/-- **Guarded runs.**  Guarded steps keep the invariant `P`, which contains `Q`; an unguarded step
leads out of `Q`, and no step leads back.  Then a run ends in `Q` exactly when it is guarded. -/
theorem run_iff_guarded {P Q : σ → Prop} {G : σ → α → Prop} (hPQ : ∀ s, P s → Q s)
    (hgood : ∀ s a s', P s → G s a → step s a = some s' → P s')
    (hbad : ∀ s a s', P s → ¬ G s a → step s a = some s' → ¬ Q s')
    (hout : ∀ s a s', ¬ Q s → step s a = some s' → ¬ Q s') {s t : σ} {as : List α} (hs : P s)
    (h : run step s as = some t) : Q t ↔ Guarded step G s as := by
  induction as generalizing s with
  | nil =>
      cases h
      exact iff_of_true (hPQ _ hs) trivial
  | cons a as ih =>
      obtain ⟨s', hs', h⟩ := run_cons_eq_some h
      by_cases hG : G s a
      · rw [ih (hgood s a s' hs hG hs') h, guarded_cons_of_some hs', and_iff_right hG]
      · refine iff_of_false ?_ (fun hg => hG hg.1)
        exact run_invariant (P := fun s => ¬ Q s) hout (hbad s a s' hs hG hs') h

/-! ### Properties of every point of a run -/

/-- No action is stuck, and `Q` holds at the start and after each action. -/
def Throughout (step : σ → α → Option σ) (Q : σ → Prop) : σ → List α → Prop
  | s, []      => Q s
  | s, a :: as => Q s ∧ ∃ s', step s a = some s' ∧ Throughout step Q s' as

theorem throughout_iff {Q : σ → Prop} {s : σ} {as : List α} :
    Throughout step Q s as ↔ ∀ pre, pre <+: as → ∃ t, run step s pre = some t ∧ Q t := by
  induction as generalizing s with
  | nil =>
      refine ⟨fun h pre hpre => ?_, fun h => ?_⟩
      · rw [List.prefix_nil.mp hpre]
        exact ⟨s, rfl, h⟩
      · obtain ⟨t, ht, hQ⟩ := h [] (List.prefix_refl _)
        cases ht
        exact hQ
  | cons a as ih =>
      constructor
      · rintro ⟨hQ, s', hs', h⟩ pre hpre
        cases pre with
        | nil => exact ⟨s, rfl, hQ⟩
        | cons b pre =>
            obtain ⟨rfl, hrest⟩ := List.cons_prefix_cons.mp hpre
            rw [run_cons hs']
            exact ih.mp h pre hrest
      · intro h
        obtain ⟨t, ht, hQ⟩ := h [] (List.nil_prefix ..)
        cases ht
        obtain ⟨t, ht, -⟩ := h [a] (by simp)
        obtain ⟨s', hs', -⟩ := run_cons_eq_some ht
        refine ⟨hQ, s', hs', ih.mpr fun pre hpre => ?_⟩
        obtain ⟨t, ht, hQt⟩ := h (a :: pre) (by simpa using hpre)
        rw [run_cons hs'] at ht
        exact ⟨t, ht, hQt⟩

/-- **Exact guards.**  `P s as` is an invariant of the state and of the actions still to come.
Under it a guarded action leads back into `P`, and an unguarded one is stuck or leads out of `Q`.
Then `Q` holds throughout a run exactly when the run is guarded. -/
theorem throughout_iff_guarded {P : σ → List α → Prop} {Q : σ → Prop} {G : σ → α → Prop}
    (hPQ : ∀ s as, P s as → Q s)
    (hgood : ∀ s a as, P s (a :: as) → G s a → ∃ s', step s a = some s' ∧ P s' as)
    (hbad : ∀ s a as s', P s (a :: as) → ¬ G s a → step s a = some s' → ¬ Q s') {s : σ}
    {as : List α} (hs : P s as) : Throughout step Q s as ↔ Guarded step G s as := by
  induction as generalizing s with
  | nil => exact ⟨fun _ => trivial, fun _ => hPQ s [] hs⟩
  | cons a as ih =>
      constructor
      · rintro ⟨-, s', hs', h⟩
        have hQ' : Q s' := by
          obtain ⟨t, ht, hQ⟩ := throughout_iff.mp h [] (List.nil_prefix ..)
          cases ht
          exact hQ
        have hG : G s a := by
          by_contra hn
          exact hbad s a as s' hs hn hs' hQ'
        obtain ⟨s'', hs'', hP⟩ := hgood s a as hs hG
        cases hs'.symm.trans hs''
        exact (guarded_cons_of_some hs').mpr ⟨hG, (ih hP).mp h⟩
      · rintro ⟨hG, h⟩
        obtain ⟨s', hs', hP⟩ := hgood s a as hs hG
        exact ⟨hPQ s _ hs, s', hs', (ih hP).mpr (h s' hs')⟩

/-- The exact guards of a run that is not stuck. -/
theorem throughout_iff_guarded_of_run {P Q : σ → Prop} {G : σ → α → Prop}
    (hPQ : ∀ s, P s → Q s) (hgood : ∀ s a s', P s → G s a → step s a = some s' → P s')
    (hbad : ∀ s a s', P s → ¬ G s a → step s a = some s' → ¬ Q s') {s t : σ} {as : List α}
    (hs : P s) (h : run step s as = some t) : Throughout step Q s as ↔ Guarded step G s as := by
  refine throughout_iff_guarded (P := fun s as => P s ∧ ∃ t, run step s as = some t)
    (fun s _ hs => hPQ s hs.1) ?_ ?_ ⟨hs, t, h⟩
  · rintro s a as ⟨hs, t, h⟩ hG
    obtain ⟨s', hs', h⟩ := run_cons_eq_some h
    exact ⟨s', hs', hgood s a s' hs hG hs', t, h⟩
  · rintro s a as s' ⟨hs, -⟩ hG hs'
    exact hbad s a s' hs hG hs'

/-! ### Histories -/

section
variable {P F : List α → σ → Prop} {G : σ → α → Prop} {s t : σ} {as : List α}

/-- What a guarded step keeps of the actions so far and the state holds along every guarded run. -/
theorem history_invariant
    (hstep : ∀ as s a s', P as s → G s a → step s a = some s' → P (as ++ [a]) s') (hs : P [] s)
    (hg : Guarded step G s as) (hrun : run step s as = some t) : P as t := by
  suffices hall : ∀ h, P h s → P (h ++ as) t from hall [] hs
  clear hs
  induction as generalizing s with
  | nil =>
      cases hrun
      intro h hs
      rwa [List.append_nil]
  | cons a as ih =>
      intro h hs
      obtain ⟨s', ha, hrun⟩ := run_cons_eq_some hrun
      rw [List.append_cons]
      exact ih (hg.2 s' ha) hrun _ (hstep h s a s' hs hg.1 ha)

/-- What a step passes back holds before a run, if it does after. -/
theorem history_backward (hback : ∀ as s a s', F (as ++ [a]) s' → step s a = some s' → F as s)
    (hrun : run step s as = some t) (h : List α) (ht : F (h ++ as) t) : F h s := by
  induction as generalizing s h with
  | nil =>
      cases hrun
      rwa [List.append_nil] at ht
  | cons a as ih =>
      obtain ⟨s', ha, hrun⟩ := run_cons_eq_some hrun
      rw [List.append_cons] at ht
      exact hback h s a s' (ih hrun _ ht) ha

/-- Where a step meets its guard as long as the system has not gone too far after it, and no step
brings it back, a run that has not gone too far in the end is guarded. -/
theorem history_guarded (hback : ∀ as s a s', F (as ++ [a]) s' → step s a = some s' → F as s)
    (hstep : ∀ as s a s', P as s → F (as ++ [a]) s' → step s a = some s' →
      G s a ∧ P (as ++ [a]) s')
    (hs : P [] s) (hrun : run step s as = some t) (ht : F as t) : Guarded step G s as := by
  suffices hall : ∀ h, P h s → F (h ++ as) t → Guarded step G s as from hall [] hs ht
  clear hs ht
  induction as generalizing s with
  | nil => exact fun _ _ _ => trivial
  | cons a as ih =>
      intro h hs ht
      obtain ⟨s', ha, hrun⟩ := run_cons_eq_some hrun
      rw [List.append_cons] at ht
      obtain ⟨hguard, hs'⟩ := hstep h s a s' hs (history_backward hback hrun _ ht) ha
      rw [guarded_cons_of_some ha]
      exact ⟨hguard, ih hrun _ hs' ht⟩

end

end Holdem.Support
