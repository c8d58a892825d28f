import Holdem.Research.Quiescence

/-!
# Research — Phases

The discount and the strategy phase of `search`.  Each is bracketed by two calls of
`waitTaskQueueIdle`, which look at the queue only.  `PhasesApart` is what the brackets are for: no
task of a phase runs beside a research task, the research tasks are through before the phase begins,
and the phase is through before the next research task.  It holds along every run whose bracketing
waits return only when no consumer is processing a task (`phases_apart`), which is more than they
look at.
-/

namespace Holdem
open Support

variable {m : Nat}

/-- The consumer is processing a task. -/
def Consumer.busy : Consumer → Bool
  | .processing _ => true
  | _             => false

namespace Research

/-- The task is queued or being processed. -/
def Live (r : Research m) (t : Task) : Prop :=
  t ∈ r.tqResearch ∨ ∃ i, r.consumers i = .processing t

/-- Nothing is queued, and no consumer is processing a task. -/
def Idle (r : Research m) : Prop :=
  r.tqResearch = [] ∧ ∀ i, (r.consumers i).busy = false

instance (r : Research m) : Decidable r.Idle := inferInstanceAs (Decidable (_ ∧ _))

theorem Idle.not_live {r : Research m} (h : r.Idle) (t : Task) : ¬ r.Live t := by
  rintro (ht | ⟨i, hi⟩)
  · rw [h.1] at ht
    cases ht
  · have := h.2 i
    rw [hi] at this
    cases this

theorem Quiet.not_live {r : Research m} (h : r.Quiet) (t : Task) : ¬ r.Live t := by
  rintro (ht | ⟨i, hi⟩)
  · rw [h.queue] at ht
    cases ht
  · have := h.held i
    rw [hi] at this
    cases this

/-- A consumer brings no task to life. -/
theorem live_of_consume {r r' : Research m} {i : Fin m} {t : Task} (hc : r.consume i = some r')
    (h : r'.Live t) : r.Live t := by
  have hother : ∀ {j c}, j ≠ i → (r.setConsumer i c).consumers j = r.consumers j := fun hj =>
    Function.update_of_ne hj _ _
  have hself : ∀ {c}, (r.setConsumer i c).consumers i = c := Function.update_self i _ _
  rcases h with ht | ⟨j, hj⟩
  · cases consumes hc with
    | move | finish | count => exact Or.inl ht
    | take u q hi hq => exact Or.inl (hq ▸ List.mem_cons_of_mem _ ht)
  · by_cases hji : j = i
    · subst hji
      cases consumes hc with
      | move c _ hfree =>
          rw [hself.symm.trans hj] at hfree
          cases hfree
      | take u q hi hq =>
          cases hself.symm.trans hj
          exact Or.inl (hq ▸ List.mem_cons_self)
      | finish u hi | count u hi => cases hself.symm.trans hj
    · have hsame : r'.consumers j = r.consumers j := by
        cases consumes hc <;> exact hother hji
      exact Or.inr ⟨j, hsame ▸ hj⟩

end Research

/-- The waits around a phase. -/
def Wait.brackets : Wait → Bool
  | .training => false
  | _         => true

/-- From the call of `parallelDiscount` or `parallelStrategy` to the end of the wait after it. -/
def Pc.inPhase : Pc → Bool
  | .discount | .pushDiscount _ | .waiting .afterDiscount | .checking .afterDiscount
  | .strategy | .pushStrategy _ | .waiting .afterStrategy | .checking .afterStrategy => true
  | _                                                                                => false

/-- No task of a phase is processed beside a research task, no research task is left when a phase
pushes its first task, and no task of a phase is left when the next research task is pushed. -/
structure System.PhasesApart (cfg : Config) (s : System m) : Prop where
  apart : ∀ i j t u, s.research.consumers i = .processing t →
    s.research.consumers j = .processing u → (t.IsResearch ↔ u.IsResearch)
  before : s.pc = .pushDiscount 0 ∨ s.pc = .pushStrategy 0 → 0 < cfg.agentSize →
    ∀ t, s.research.Live t → ¬ t.IsResearch
  after : ∀ id, s.pc = .push id → ∀ t, s.research.Live t → t.IsResearch

/-- The wait that returns on this line of `search`. -/
def Research.returning (r : Research m) : Pc → Option Wait
  | .waiting w  => if r.consumeRunning then none else some w
  | .checking w => if r.tqResearch = [] then some w else none
  | _           => none

/-- The guard of a step: where a wait around a phase returns, no consumer is processing a task and
nothing is queued. -/
def WaitsIdle (s : System m) : Act m → Prop
  | .search _ => ∀ w ∈ s.research.returning s.pc, w.brackets → s.research.Idle
  | _         => True

instance (s : System m) : ∀ a, Decidable (WaitsIdle s a)
  | .call _ | .consume _ | .kill => isTrue trivial
  | .search _ => inferInstanceAs (Decidable (∀ w ∈ s.research.returning s.pc, _))

/-- What is live fits the place where `search` stands. -/
def PhaseInv (s : System m) : Prop :=
  ∀ t, s.research.Live t → (t.IsResearch ↔ s.pc.inPhase = false)

variable {cfg : Config} {s s' : System m}

theorem PhaseInv.phasesApart (h : PhaseInv s) : s.PhasesApart cfg where
  apart := fun i j t u hi hj => (h t (Or.inr ⟨i, hi⟩)).trans (h u (Or.inr ⟨j, hj⟩)).symm
  before := by
    intro hpc _ t ht hr
    have hout := (h t ht).mp hr
    rcases hpc with hpc | hpc
    · rw [hpc] at hout
      cases hout
    · rw [hpc] at hout
      cases hout
  after := by
    intro id hpc t ht
    refine (h t ht).mpr ?_
    rw [hpc]
    rfl

theorem PhaseInv.of_not_live (h : ∀ t, ¬ s.research.Live t) : PhaseInv s :=
  fun t ht => absurd ht (h t)

/-- A line that neither pushes a task nor enters or leaves a phase. -/
theorem PhaseInv.move {r r' : Research m} {pc pc' : Pc} (h : PhaseInv ⟨pc, r⟩)
    (hlive : ∀ t, r'.Live t → r.Live t) (hpc : pc'.inPhase = pc.inPhase) : PhaseInv ⟨pc', r'⟩ := by
  intro t ht
  have ht := h t (hlive t ht)
  rwa [← hpc] at ht

/-- A line that pushes a task of the kind that is due. -/
theorem PhaseInv.push {r : Research m} {pc pc' : Pc} {tr : Trace} (h : PhaseInv ⟨pc, r⟩) (u : Task)
    (hu : u.IsResearch ↔ pc'.inPhase = false) (hpc : pc'.inPhase = pc.inPhase) :
    PhaseInv ⟨pc', { r with tqResearch := r.tqResearch ++ [u], trace := tr }⟩ := by
  rintro t (ht | ⟨i, hi⟩)
  · rcases List.mem_append.mp ht with ht | ht
    · have ht := h t (Or.inl ht)
      rwa [← hpc] at ht
    · cases List.mem_singleton.mp ht
      exact hu
  · have ht := h t (Or.inr ⟨i, hi⟩)
    rwa [← hpc] at ht

/-- A wait that returns: idle, when it brackets a phase. -/
theorem PhaseInv.after {r : Research m} {pc : Pc} {w : Wait} (h : PhaseInv ⟨pc, r⟩)
    (hpc : pc.inPhase = (Pc.waiting w).inPhase) (hidle : w.brackets → r.Idle) :
    PhaseInv ⟨w.after, r⟩ := by
  cases w with
  | training => exact h.move (fun _ ht => ht) hpc.symm
  | beforeDiscount | afterDiscount | beforeStrategy | afterStrategy =>
      exact .of_not_live (hidle rfl).not_live

theorem inPhase_checking (w : Wait) : (Pc.checking w).inPhase = (Pc.waiting w).inPhase := by
  cases w <;> rfl

/-- Every line of `search` keeps the phases apart, where the waits around them wait. -/
theorem PhaseInv.search {r : Research m} {pc : Pc} (expired : Bool) (h : PhaseInv ⟨pc, r⟩)
    (hg : WaitsIdle ⟨pc, r⟩ (.search expired)) :
    PhaseInv ⟨r.next cfg expired pc, r.effect cfg pc⟩ := by
  cases pc with
  | waiting w =>
      simp only [Research.next, Research.effect]
      split
      · exact h.move (fun _ ht => ht) (inPhase_checking w)
      · rename_i hrun
        exact h.after rfl (hg w (if_neg hrun))
  | checking w =>
      simp only [Research.next, Research.effect]
      split
      · rename_i hq
        exact h.after (inPhase_checking w) (hg w (if_pos hq))
      · exact h.move (fun _ ht => ht) (inPhase_checking w).symm
  | cleaning =>
      refine h.move (fun t ht => ?_) rfl
      rcases ht with ht | ht
      · cases ht
      · exact Or.inr ht
  | pushDiscount i =>
      simp only [Research.next, Research.effect]
      split
      · exact h.push (.discount i) (iff_of_false id Bool.noConfusion) rfl
      · exact h.move (fun _ ht => ht) rfl
  | pushStrategy i =>
      simp only [Research.next, Research.effect]
      split
      · exact h.push (.strategy i) (iff_of_false id Bool.noConfusion) rfl
      · exact h.move (fun _ ht => ht) rfl
  | push id => exact h.push (.research id) (iff_of_true trivial rfl) rfl
  | idle | resetIterations | resetProcessed | resetMax | discount | strategy | increment =>
      exact h.move (fun _ ht => ht) rfl
  | running | completed | timing | started | threshold | discountDue | strategyDue | taskDue =>
      simp only [Research.next, Research.effect]
      split <;> exact h.move (fun _ ht => ht) rfl

/-- Every step of every party keeps the phases apart, until the next call. -/
theorem PhaseInv.step {a : Act m} (h : PhaseInv s) (ha : a.Internal) (hg : WaitsIdle s a)
    (hstep : step cfg s a = some s') : PhaseInv s' := by
  obtain ⟨pc, r⟩ := s
  cases a with
  | call n => cases ha
  | search expired =>
      simp only [Holdem.step, Option.ite_none_right_eq_some, Option.some.injEq] at hstep
      obtain ⟨-, rfl⟩ := hstep
      exact h.search expired hg
  | consume i =>
      simp only [Holdem.step, Option.map_eq_some_iff] at hstep
      obtain ⟨r', hr, rfl⟩ := hstep
      exact h.move (fun _ ht => Research.live_of_consume hr ht) rfl
  | kill =>
      simp only [Holdem.step, Option.some.injEq] at hstep
      subst hstep
      exact h.move (fun _ ht => ht) rfl

/-- **Phases apart.**  In every interleaving of a call of `search` that starts at rest, the discount
and strategy phases exclude training, when the waits around them return only with no consumer
processing a task and nothing queued. -/
theorem phases_apart (cfg : Config) (n : Int32) (s₀ s : System m) (as : List (Act m))
    (hrest : s₀.AtRest) (has : ∀ a ∈ as, a.Internal)
    (hg : Guarded (step cfg) WaitsIdle s₀ (.call n :: as))
    (hrun : run (step cfg) s₀ (.call n :: as) = some s) : s.PhasesApart cfg := by
  obtain ⟨s₁, hcall, hrun⟩ := run_cons_eq_some hrun
  have h₁ : PhaseInv s₁ := by
    simp only [step, hrest.idle, Bool.false_eq_true, if_false, Option.some.injEq] at hcall
    subst hcall
    exact .of_not_live fun t ht => hrest.quiet.not_live t ht
  have hkeep : ∀ s (a : Act m) s', PhaseInv s → a.Internal ∧ WaitsIdle s a →
      step cfg s a = some s' → PhaseInv s' := fun _ _ _ h hg hstep => h.step hg.1 hg.2 hstep
  exact (guarded_invariant hkeep h₁ ((hg.2 s₁ hcall).and_mem has) hrun).phasesApart

/-- The start of `search(3)` on one consumer: the tasks 1 and 2 are processed, and the discount of
the first boundary is pushed. -/
def firstDiscount : List (Act 1) :=
  lines 12 ++ (consumes (Fin.last 0) 4 ++ (lines 12 ++ (consumes (Fin.last 0) 4 ++ lines 12)))

theorem phases_apart_firstDiscount :
    ∃ s, run (step pairConfig) (System.fresh 1) (.call 3 :: firstDiscount) = some s ∧
      s.pc = .pushDiscount 1 ∧ s.research.tqResearch = [.discount 0] ∧
      s.PhasesApart pairConfig := by
  refine ⟨_, rfl, rfl, rfl, phases_apart pairConfig 3 (System.fresh 1) _ firstDiscount
    (atRest_fresh 1) (fun a ha => ?_) (by decide +kernel) rfl⟩
  simp only [firstDiscount, List.mem_append] at ha
  rcases ha with ha | ha | ha | ha | ha
  · exact Act.internal_lines ha
  · exact Act.internal_consumes ha
  · exact Act.internal_lines ha
  · exact Act.internal_consumes ha
  · exact Act.internal_lines ha

/-- The consumer 0 has taken the task 2 when the queue is found empty, and the consumer 1 takes the
discount beside it. -/
theorem discount_beside_research :
    ∃ s, run (step pairConfig) (System.fresh 2)
        (.call 3 :: (lines 12 ++ (consumes 0 4 ++
          (lines 12 ++ (consumes 0 2 ++ (lines 12 ++ consumes 1 2)))))) = some s ∧
      s.research.consumers 0 = .processing (.research 2) ∧
      s.research.consumers 1 = .processing (.discount 0) ∧ ¬ s.PhasesApart pairConfig := by
  refine ⟨_, rfl, rfl, rfl, fun h => ?_⟩
  exact (h.apart 0 1 _ _ rfl rfl).mp trivial

end Holdem
