import Holdem.Research.Counting

/-!
# Research — Boundaries

How often a boundary is discounted.  The loop of `search` tests the value of `numIterations`, not a
change of it, so a phase comes again with every turn at the same value.  As long as tasks are left
to push every turn takes a new value; with none left the loop goes round at the last value until the
consumers are through.  `DueOnce` is the condition for a phase at the last value: it is reached only
once `numProcessed == maxIterations`, which ends the loop at the next turn.  Along every run that
meets it, no value is discounted twice and no strategy is updated twice for one value
(`boundaries_once`).
-/

namespace Holdem
open Support

variable {m : Nat}

/-- Every value of `numIterations` had at most one call of `parallelDiscount`, and at most one of
`parallelStrategy`. -/
structure System.BoundariesOnce (s : System m) : Prop where
  discounts : s.research.trace.discounts.Nodup
  strategies : s.research.trace.strategies.Nodup

/-- A phase is entered on this line. -/
def Research.entering (cfg : Config) (r : Research m) : Pc → Prop
  | .discountDue => r.numIterations % cfg.mResearchDiscountInterval = 0
  | .strategyDue => r.numIterations % cfg.mResearchStrategyInterval = 0
  | _            => False

/-- The guard of a step: where a phase is entered with no task left to push, every task was
processed. -/
def DueOnce (cfg : Config) (s : System m) : Act m → Prop
  | .search _ => s.research.entering cfg s.pc → s.research.taskNum ≤ 0 →
      s.research.numProcessed = s.research.maxIterations
  | _         => True

instance (cfg : Config) (r : Research m) : ∀ pc, Decidable (r.entering cfg pc)
  | .discountDue | .strategyDue => inferInstanceAs (Decidable (_ = _))
  | .idle _ | .resetIterations _ | .resetProcessed _ | .resetMax _ | .running | .completed
  | .waiting _ | .checking _ | .timing | .cleaning | .started | .threshold | .discount
  | .pushDiscount _ | .strategy | .pushStrategy _ | .taskDue | .increment | .push _ => isFalse id

instance (cfg : Config) (s : System m) : ∀ a, Decidable (DueOnce cfg s a)
  | .call _ | .consume _ | .kill => isTrue trivial
  | .search _ => inferInstanceAs (Decidable (_ → _ → _ = _))

namespace Research

/-- No phase has run at this value of `numIterations`. -/
def Fresh (r : Research m) : Prop :=
  r.numIterations ∉ r.trace.discounts ∧ r.numIterations ∉ r.trace.strategies

/-- Every task was processed. -/
def Done (r : Research m) : Prop := r.numProcessed = r.maxIterations

/-- The phases that ran, each once at a value, and at none beyond the present one. -/
structure Logged (r : Research m) : Prop where
  discounts : r.trace.discounts.Nodup
  strategies : r.trace.strategies.Nodup
  discounts_le : ∀ d ∈ r.trace.discounts, d ≤ r.numIterations
  strategies_le : ∀ d ∈ r.trace.strategies, d ≤ r.numIterations

/-- What has run at the present value, line by line.  With no task left to push, a phase runs only
when every task was processed. -/
def BoundaryAt (r : Research m) : Pc → Prop
  | .idle _ | .increment => True
  | .running | .completed => r.Fresh ∨ r.Done
  | .waiting .beforeDiscount | .checking .beforeDiscount | .discount =>
    r.Fresh ∧ (r.taskNum ≤ 0 → r.Done)
  | .pushDiscount _ | .waiting .afterDiscount | .checking .afterDiscount | .strategyDue =>
    r.numIterations ∉ r.trace.strategies ∧ (r.taskNum ≤ 0 → r.Fresh ∨ r.Done)
  | .waiting .beforeStrategy | .checking .beforeStrategy | .strategy =>
    r.numIterations ∉ r.trace.strategies ∧ (r.taskNum ≤ 0 → r.Done)
  | .pushStrategy _ | .waiting .afterStrategy | .checking .afterStrategy | .taskDue =>
    r.taskNum ≤ 0 → r.Fresh ∨ r.Done
  | _ => r.Fresh

theorem fresh_of_empty {r : Research m} (h : r.trace = .empty) : r.Fresh := by
  rw [Fresh, h]
  exact ⟨List.not_mem_nil, List.not_mem_nil⟩

theorem logged_of_empty {r : Research m} (h : r.trace = .empty) : r.Logged := by
  constructor
  · rw [h]; exact List.nodup_nil
  · rw [h]; exact List.nodup_nil
  · rw [h]; exact fun d hd => absurd hd List.not_mem_nil
  · rw [h]; exact fun d hd => absurd hd List.not_mem_nil

theorem nodup_snoc {l : List Nat} {d : Nat} (h : l.Nodup) (hd : d ∉ l) : (l ++ [d]).Nodup := by
  rw [List.nodup_append]
  refine ⟨h, List.nodup_singleton d, fun a ha b hb => ?_⟩
  rw [List.mem_singleton.mp hb]
  exact fun hab => hd (hab ▸ ha)

theorem le_snoc {l : List Nat} {n : Nat} (h : ∀ d ∈ l, d ≤ n) : ∀ d ∈ l ++ [n], d ≤ n := by
  intro d hd
  rcases List.mem_append.mp hd with hd | hd
  · exact h d hd
  · exact Nat.le_of_eq (List.mem_singleton.mp hd)

/-- The next value is fresh. -/
theorem Logged.fresh_succ {r : Research m} (h : r.Logged) :
    r.numIterations + 1 ∉ r.trace.discounts ∧ r.numIterations + 1 ∉ r.trace.strategies :=
  ⟨fun hd => Nat.not_succ_le_self _ (h.discounts_le _ hd),
    fun hd => Nat.not_succ_le_self _ (h.strategies_le _ hd)⟩

/-! ### A line of `search` -/

/-- The phases on record change at their two calls only. -/
theorem Logged.search {n : Int32} {r : Research m} {pc : Pc} (cfg : Config) (h : r.Logged)
    (hcount : r.CountingAt n pc) (hb : r.BoundaryAt pc) : (r.effect cfg pc).Logged := by
  cases pc with
  | resetIterations n' | resetProcessed n' | resetMax n' =>
      obtain ⟨-, -, htrace⟩ := hcount
      first
        | exact logged_of_empty htrace
        | exact logged_of_empty htrace.1
  | discount =>
      exact ⟨nodup_snoc h.discounts hb.1.1, h.strategies, le_snoc h.discounts_le, h.strategies_le⟩
  | strategy =>
      exact ⟨h.discounts, nodup_snoc h.strategies hb.1, h.discounts_le, le_snoc h.strategies_le⟩
  | increment =>
      exact ⟨h.discounts, h.strategies, fun d hd => Nat.le_succ_of_le (h.discounts_le d hd),
        fun d hd => Nat.le_succ_of_le (h.strategies_le d hd)⟩
  | pushDiscount i | pushStrategy i =>
      simp only [effect]
      split
      · exact ⟨h.discounts, h.strategies, h.discounts_le, h.strategies_le⟩
      · exact h
  | cleaning | push id => exact ⟨h.discounts, h.strategies, h.discounts_le, h.strategies_le⟩
  | idle | running | completed | waiting | checking | timing | started | threshold | discountDue
  | strategyDue | taskDue => exact h

/-- A wait keeps what it waits with. -/
theorem boundaryAt_after {r : Research m} {w : Wait} (h : r.BoundaryAt (.waiting w)) :
    r.BoundaryAt w.after := by
  cases w <;> exact h

/-- Every line of `search` keeps the phases in their places, where they are due once. -/
theorem BoundaryAt.search {cfg : Config} {n : Int32} {r : Research m} {pc : Pc} (expired : Bool)
    (h : r.BoundaryAt pc) (hlog : r.Logged) (hcount : r.CountingAt n pc)
    (hg : DueOnce cfg ⟨pc, r⟩ (.search expired)) :
    (r.effect cfg pc).BoundaryAt (r.next cfg expired pc) := by
  cases pc with
  | idle last => trivial
  | resetIterations n' => exact fresh_of_empty hcount.2.2
  | resetProcessed n' => exact fresh_of_empty hcount.2.2.1
  | resetMax n' => exact Or.inl (fresh_of_empty hcount.2.2.1)
  | running =>
      simp only [next, effect]
      split
      · exact h
      · trivial
  | completed =>
      simp only [next, effect]
      split
      · trivial
      · rename_i hne
        exact h.resolve_right hne
  | waiting w =>
      simp only [next, effect]
      split
      · cases w <;> exact h
      · exact boundaryAt_after h
  | checking w =>
      have h : r.BoundaryAt (.waiting w) := by cases w <;> exact h
      simp only [next, effect]
      split
      · exact boundaryAt_after h
      · exact h
  | timing =>
      simp only [next, effect]
      split <;> exact h
  | cleaning => trivial
  | started =>
      simp only [next, effect]
      split
      · exact h
      · exact fun _ => Or.inl h
  | threshold =>
      simp only [next, effect]
      split
      · exact h
      · exact ⟨h.2, fun _ => Or.inl h⟩
  | discountDue =>
      simp only [next, effect]
      split
      · rename_i hdue
        exact ⟨h, hg hdue⟩
      · exact ⟨h.2, fun _ => Or.inl h⟩
  | discount => exact ⟨h.1.2, fun hlast => Or.inr (h.2 hlast)⟩
  | pushDiscount i =>
      simp only [next, effect]
      split <;> exact h
  | strategyDue =>
      simp only [next, effect]
      split
      · rename_i hdue
        exact ⟨h.1, hg hdue⟩
      · exact h.2
  | strategy => exact fun hlast => Or.inr (h.2 hlast)
  | pushStrategy i =>
      simp only [next, effect]
      split <;> exact h
  | taskDue =>
      simp only [next, effect]
      split
      · trivial
      · rename_i hnone
        exact h (Int.not_lt.mp hnone)
  | increment => exact hlog.fresh_succ
  | push id => exact Or.inl h

/-! ### A line of `consume` -/

/-- A consumer leaves alone what the boundaries depend on. -/
theorem consume_trace {r r' : Research m} {i : Fin m} (hc : r.consume i = some r') :
    r'.trace.discounts = r.trace.discounts ∧ r'.trace.strategies = r.trace.strategies := by
  cases consumes hc with
  | finish t => cases t <;> exact ⟨rfl, rfl⟩
  | move | take | count => exact ⟨rfl, rfl⟩

theorem Logged.consume {r r' : Research m} {i : Fin m} (h : r.Logged)
    (hc : r.consume i = some r') : r'.Logged := by
  obtain ⟨hd, hs⟩ := consume_trace hc
  obtain ⟨hi, -⟩ := consume_counters hc
  constructor
  · rw [hd]; exact h.discounts
  · rw [hs]; exact h.strategies
  · rw [hd, hi]; exact h.discounts_le
  · rw [hs, hi]; exact h.strategies_le

/-- What the boundaries depend on stays, and what is done stays done. -/
theorem BoundaryAt.congr {r r' : Research m} {pc : Pc} (h : r.BoundaryAt pc)
    (hi : r'.numIterations = r.numIterations) (hm : r'.maxIterations = r.maxIterations)
    (hd : r'.trace.discounts = r.trace.discounts)
    (hs : r'.trace.strategies = r.trace.strategies) (hdone : r.Done → r'.Done) :
    r'.BoundaryAt pc := by
  have hfresh : r.Fresh → r'.Fresh := by
    rw [Fresh, Fresh, hi, hd, hs]
    exact id
  have hor : r.Fresh ∨ r.Done → r'.Fresh ∨ r'.Done := Or.imp hfresh hdone
  have htask : r'.taskNum = r.taskNum := by
    rw [taskNum, taskNum, hi, hm]
  have hstr : r.numIterations ∉ r.trace.strategies → r'.numIterations ∉ r'.trace.strategies := by
    rw [hi, hs]
    exact id
  cases pc with
  | idle | increment => trivial
  | running | completed => exact hor h
  | discount => exact ⟨hfresh h.1, fun hl => hdone (h.2 (htask ▸ hl))⟩
  | pushDiscount | strategyDue => exact ⟨hstr h.1, fun hl => hor (h.2 (htask ▸ hl))⟩
  | strategy => exact ⟨hstr h.1, fun hl => hdone (h.2 (htask ▸ hl))⟩
  | pushStrategy | taskDue => exact fun hl => hor (h (htask ▸ hl))
  | waiting w | checking w =>
      cases w with
      | training => exact hfresh h
      | beforeDiscount => exact ⟨hfresh h.1, fun hl => hdone (h.2 (htask ▸ hl))⟩
      | afterDiscount => exact ⟨hstr h.1, fun hl => hor (h.2 (htask ▸ hl))⟩
      | beforeStrategy => exact ⟨hstr h.1, fun hl => hdone (h.2 (htask ▸ hl))⟩
      | afterStrategy => exact fun hl => hor (h (htask ▸ hl))
  | resetIterations | resetProcessed | resetMax | timing | cleaning | started | threshold
  | discountDue | push => exact hfresh h

end Research

/-! ### One call of `search` -/

/-- A call of `search(n)` that has kept its boundaries. -/
structure BoundaryInv (n : Int32) (s : System m) : Prop where
  counting : s.Counting n
  logged : s.research.Logged
  boundary : s.research.BoundaryAt s.pc

variable {cfg : Config} {s s' : System m} {n : Int32}

theorem BoundaryInv.call (hrest : s.AtRest) (hstep : step cfg s (.call n) = some s') :
    BoundaryInv n s' := by
  have hcount := System.Counting.call hrest hstep
  simp only [step, hrest.idle, Bool.false_eq_true, if_false, Option.some.injEq] at hstep
  subst hstep
  exact ⟨hcount, Research.logged_of_empty rfl, Research.fresh_of_empty rfl⟩

theorem BoundaryInv.step {a : Act m} (h : BoundaryInv n s) (ha : a.Internal)
    (hg : DueOnce cfg s a) (hstep : step cfg s a = some s') : BoundaryInv n s' := by
  have hcount := h.counting.step ha hstep
  obtain ⟨pc, r⟩ := s
  cases a with
  | call n' => cases ha
  | search expired =>
      simp only [Holdem.step, Option.ite_none_right_eq_some, Option.some.injEq] at hstep
      obtain ⟨-, rfl⟩ := hstep
      exact ⟨hcount, h.logged.search cfg h.counting h.boundary,
        h.boundary.search expired h.logged h.counting hg⟩
  | consume i =>
      simp only [Holdem.step, Option.map_eq_some_iff] at hstep
      obtain ⟨r', hr, rfl⟩ := hstep
      obtain ⟨hi, hm⟩ := Research.consume_counters hr
      obtain ⟨hd, hs⟩ := Research.consume_trace hr
      exact ⟨hcount, h.logged.consume hr,
        h.boundary.congr hi hm hd hs fun hp => h.counting.numProcessed_eq hp hr⟩
  | kill =>
      simp only [Holdem.step, Option.some.injEq] at hstep
      subst hstep
      obtain ⟨hd, hs, hdle, hsle⟩ := h.logged
      exact ⟨hcount, ⟨hd, hs, hdle, hsle⟩, h.boundary.congr rfl rfl rfl rfl id⟩

/-- **Boundaries once.**  In every interleaving of a call of `search` that starts at rest, no value
of `numIterations` is discounted twice and none has its strategy updated twice, when a phase with no
task left to push is entered only after every task was processed. -/
theorem boundaries_once (cfg : Config) (n : Int32) (s₀ s : System m) (as : List (Act m))
    (hrest : s₀.AtRest) (has : ∀ a ∈ as, a.Internal)
    (hg : Guarded (step cfg) (DueOnce cfg) s₀ (.call n :: as))
    (hrun : run (step cfg) s₀ (.call n :: as) = some s) : s.BoundariesOnce := by
  obtain ⟨s₁, hcall, hrun⟩ := run_cons_eq_some hrun
  have hkeep : ∀ s (a : Act m) s', BoundaryInv n s → a.Internal ∧ DueOnce cfg s a →
      step cfg s a = some s' → BoundaryInv n s' := fun _ _ _ h hg hstep => h.step hg.1 hg.2 hstep
  have h := guarded_invariant hkeep (BoundaryInv.call hrest hcall)
    ((hg.2 s₁ hcall).and_mem has) hrun
  exact ⟨h.logged.discounts, h.logged.strategies⟩

/-- `search(2)` on one consumer that is through with the task 2 when its boundary is reached. -/
def boundaryInTime : List (Act 1) :=
  lines 12 ++ consumes 0 4 ++ lines 14 ++ consumes 0 4 ++ lines 11 ++ consumes 0 4 ++ lines 8 ++
    consumes 0 4 ++ lines 5

theorem boundaries_once_inTime :
    ∃ s, run (step pairConfig) (System.fresh 1) (.call 2 :: boundaryInTime) = some s ∧
      s.pc = .idle (some .processed) ∧ s.research.trace.discounts = [2] ∧
      s.research.trace.strategies = [2] ∧ s.BoundariesOnce := by
  refine ⟨_, rfl, rfl, rfl, rfl, boundaries_once pairConfig 2 (System.fresh 1) _ boundaryInTime
    (atRest_fresh 1) (fun a ha => ?_) (by decide +kernel) rfl⟩
  simp only [boundaryInTime, List.mem_append] at ha
  rcases ha with (((((((ha | ha) | ha) | ha) | ha) | ha) | ha) | ha) | ha
  all_goals first
    | exact Act.internal_lines ha
    | exact Act.internal_consumes ha

/-- `search(2)` on two consumers: the consumer 0 is still processing the task 2 when its boundary
was discounted, so the loop comes round to it once more. -/
theorem discounted_twice :
    ∃ s, run (step pairConfig) (System.fresh 2)
        (.call 2 :: (lines 12 ++ (consumes 0 4 ++ (lines 12 ++ (consumes 0 2 ++ (lines 13 ++
          (consumes 1 2 ++ (lines 8 ++ (consumes 1 4 ++ lines 14))))))))) = some s ∧
      s.research.numIterations = 2 ∧ s.research.trace.discounts = [2, 2] ∧
      ¬ s.BoundariesOnce := by
  refine ⟨_, rfl, rfl, rfl, fun h => ?_⟩
  exact absurd h.discounts (by decide)

end Holdem
