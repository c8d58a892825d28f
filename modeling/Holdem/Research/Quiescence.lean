import Holdem.Research.Counting

/-!
# Research — Quiescence

What is left when `search` returns.  Its only means are the queue being empty and `numProcessed`,
and a task that a consumer has taken shows in neither.  `LeavesQuiet` is what each of the three
exits needs: the timeout, that no consumer holds a task when it cleans the queue; `kill`, that
nothing is queued or held; and `numProcessed == maxIterations` only that no discount or strategy
task is, for the tally accounts for every research task.  `returns_quiet_iff` says that over any
sequence of calls and any interleaving this is exactly what is needed.
-/

namespace Holdem
open Support

variable {m : Nat}

/-- The task is a research task. -/
def Task.IsResearch : Task → Prop
  | .research _ => True
  | _           => False

/-- When no call of `search` is running, nothing is queued or held. -/
def System.ReturnsQuiet (s : System m) : Prop := s.pc.searching = false → s.research.Quiet

/-- Only research tasks are queued or held. -/
structure Research.OnlyResearch (r : Research m) : Prop where
  queue : ∀ t ∈ r.tqResearch, t.IsResearch
  held : ∀ i, ∀ t ∈ (r.consumers i).task, t.IsResearch

/-- The exit of `search` on this line. -/
def Research.leaving (r : Research m) : Pc → Option Exit
  | .running   => if r.consumeRunning then none else some .killed
  | .completed => if r.numProcessed = r.maxIterations then some .processed else none
  | .cleaning  => some .timeout
  | _          => none

/-- What an exit needs to leave nothing behind. -/
def Exit.Needs (r : Research m) : Exit → Prop
  | .processed => r.OnlyResearch
  | .timeout   => ∀ i, (r.consumers i).task = none
  | .killed    => r.Quiet

/-- The guard of a step: an exit has what it needs. -/
def LeavesQuiet (s : System m) : Act m → Prop
  | .search _ => ∀ e ∈ s.research.leaving s.pc, e.Needs s.research
  | _         => True

instance : ∀ t : Task, Decidable t.IsResearch
  | .research _                => isTrue trivial
  | .discount _ | .strategy _  => isFalse id

instance (r : Research m) : ∀ e : Exit, Decidable (e.Needs r)
  | .processed => decidable_of_iff ((∀ t ∈ r.tqResearch, t.IsResearch) ∧
      ∀ i, ∀ t ∈ (r.consumers i).task, t.IsResearch) ⟨fun h => ⟨h.1, h.2⟩, fun h => ⟨h.1, h.2⟩⟩
  | .timeout   => inferInstanceAs (Decidable (∀ i, (r.consumers i).task = none))
  | .killed    => decidable_of_iff (r.tqResearch = [] ∧ ∀ i, (r.consumers i).task = none)
      ⟨fun h => ⟨h.1, h.2⟩, fun h => ⟨h.1, h.2⟩⟩

instance (s : System m) : ∀ a, Decidable (LeavesQuiet s a)
  | .call _ | .consume _ | .kill => isTrue trivial
  | .search _ => inferInstanceAs (Decidable (∀ e ∈ s.research.leaving s.pc, e.Needs s.research))

/-! ### The exit through the counters -/

theorem Task.ids_ne_zero {t : Task} (h : t.IsResearch) : t.ids ≠ 0 := by
  cases t with
  | research id => exact Multiset.singleton_ne_zero id
  | discount a | strategy a => cases h

theorem queue_eq_nil {q : List Task} (h : ∀ t ∈ q, t.IsResearch) (hids : idsOf q = 0) :
    q = [] := by
  cases q with
  | nil => rfl
  | cons t q =>
      rw [idsOf_cons] at hids
      exact absurd (add_eq_zero.mp hids).1 (Task.ids_ne_zero (h t List.mem_cons_self))

theorem Consumer.task_eq_none {c : Consumer} (h : ∀ t, c.task = some t → t.IsResearch)
    (hin : c.inProcess = 0) : c.task = none := by
  cases c with
  | testing | fetching | exited => rfl
  | processing t =>
      have hids : t.ids = 0 := Consumer.running_of_inProcess hin
      exact absurd hids (Task.ids_ne_zero (h t rfl))
  | counting t =>
      have hcount : t.count = 0 := Nat.eq_zero_of_add_eq_zero_left hin
      rw [← Task.card_ids, Multiset.card_eq_zero] at hcount
      exact absurd hcount (Task.ids_ne_zero (h t rfl))

/-- Once all are counted, only a discount or strategy task can be left. -/
theorem Research.Counted.quiet {n : Int32} {r : Research m} (h : r.Counted n)
    (hp : r.numProcessed = r.maxIterations) (hr : r.OnlyResearch) : r.Quiet := by
  obtain ⟨hin, hqueue, -⟩ := h.none_left hp
  exact ⟨queue_eq_nil hr.queue hqueue,
    fun i => Consumer.task_eq_none (hr.held i) (total_eq_zero_iff.mp hin i)⟩

theorem Research.Quiet.onlyResearch {r : Research m} (h : r.Quiet) : r.OnlyResearch where
  queue := by rw [h.queue]; exact fun t ht => absurd ht List.not_mem_nil
  held := fun i t ht => by rw [h.held i] at ht; cases ht

/-- Three lines lead out of the loop, and they leave through their exits. -/
theorem Research.leaving_of_next {cfg : Config} {expired : Bool} {r : Research m} {pc : Pc}
    (hpc : pc.searching = true) (hidle : (r.next cfg expired pc).searching = false) :
    ∃ e, r.leaving pc = some e := by
  cases pc with
  | idle last => cases hpc
  | running =>
      cases hrun : r.consumeRunning with
      | true =>
          simp only [next, hrun, if_true] at hidle
          cases hidle
      | false => exact ⟨.killed, by simp only [leaving, hrun]; rfl⟩
  | completed =>
      by_cases heq : r.numProcessed = r.maxIterations
      · exact ⟨.processed, if_pos heq⟩
      · simp only [next, if_neg heq] at hidle
        cases hidle
  | cleaning => exact ⟨.timeout, rfl⟩
  | resetIterations | resetProcessed | resetMax | discount | strategy | increment | push =>
      cases hidle
  | waiting w | checking w =>
      simp only [next] at hidle
      split at hidle <;> cases w <;> cases hidle
  | timing | started | threshold | discountDue | pushDiscount | strategyDue | pushStrategy
  | taskDue =>
      simp only [next] at hidle
      split at hidle <;> cases hidle

/-- An exit is an exit: `search` no longer runs, and only the timeout touched the queue. -/
theorem Research.next_of_leaving {cfg : Config} {expired : Bool} {r : Research m} {pc : Pc}
    {e : Exit} (he : r.leaving pc = some e) :
    (r.next cfg expired pc).searching = false ∧
      ((r.effect cfg pc).Quiet → e.Needs r) := by
  cases pc with
  | running =>
      cases hrun : r.consumeRunning with
      | true =>
          simp only [leaving, hrun, if_true] at he
          cases he
      | false =>
          simp only [leaving, hrun, Bool.false_eq_true, if_false] at he
          cases he
          exact ⟨by simp only [next, hrun]; rfl, id⟩
  | completed =>
      by_cases heq : r.numProcessed = r.maxIterations
      · simp only [leaving, if_pos heq] at he
        cases he
        exact ⟨by simp only [next, if_pos heq]; rfl, Quiet.onlyResearch⟩
      · simp only [leaving, if_neg heq] at he
        cases he
  | cleaning =>
      cases he
      exact ⟨rfl, fun h => h.held⟩
  | idle | resetIterations | resetProcessed | resetMax | waiting | checking | timing | started
  | threshold | discountDue | discount | pushDiscount | strategyDue | strategy | pushStrategy
  | taskDue | increment | push => cases he

/-- With what it needs, an exit leaves nothing queued or held. -/
theorem Research.quiet_of_leaving {cfg : Config} {n : Int32} {r : Research m} {pc : Pc} {e : Exit}
    (h : r.CountingAt n pc) (he : r.leaving pc = some e) (hneeds : e.Needs r) :
    (r.effect cfg pc).Quiet := by
  cases pc with
  | running =>
      simp only [leaving] at he
      split at he
      · cases he
      · cases he
        exact hneeds
  | completed =>
      simp only [leaving] at he
      split at he
      · rename_i heq
        cases he
        exact Counted.quiet h heq hneeds
      · cases he
  | cleaning =>
      cases he
      exact ⟨rfl, hneeds⟩
  | idle | resetIterations | resetProcessed | resetMax | waiting | checking | timing | started
  | threshold | discountDue | discount | pushDiscount | strategyDue | strategy | pushStrategy
  | taskDue | increment | push => cases he

/-! ### Over the calls -/

/-- Between the calls nothing is queued or held, and a running call has its tally. -/
structure QuietInv (s : System m) : Prop where
  quiet : s.ReturnsQuiet
  counting : s.pc.searching = true → ∃ n, s.Counting n

variable {cfg : Config} {s s' : System m} {a : Act m}

theorem QuietInv.of_atRest (h : s.AtRest) : QuietInv s where
  quiet := fun _ => h.quiet
  counting := fun hs => by rw [h.idle] at hs; cases hs

theorem QuietInv.of_counting {n : Int32} (h : s.Counting n) (hs : s.pc.searching = true) :
    QuietInv s where
  quiet := fun hidle => by rw [hs] at hidle; cases hidle
  counting := fun _ => ⟨n, h⟩

theorem QuietInv.step (h : QuietInv s) (hg : LeavesQuiet s a) (hstep : step cfg s a = some s') :
    QuietInv s' := by
  cases hs : s.pc.searching with
  | false =>
      have hquiet := h.quiet hs
      cases a with
      | call n =>
          have hcount := System.Counting.call ⟨hs, hquiet⟩ hstep
          simp only [Holdem.step, hs, Bool.false_eq_true, if_false, Option.some.injEq] at hstep
          subst hstep
          exact .of_counting hcount rfl
      | search expired =>
          simp only [Holdem.step, hs, Bool.false_eq_true, if_false] at hstep
          cases hstep
      | consume i =>
          simp only [Holdem.step, Option.map_eq_some_iff] at hstep
          obtain ⟨r, hr, rfl⟩ := hstep
          exact .of_atRest ⟨hs, (hquiet.consume hr).1⟩
      | kill =>
          simp only [Holdem.step, Option.some.injEq] at hstep
          subst hstep
          exact .of_atRest ⟨hs, hquiet.queue, hquiet.held⟩
  | true =>
      obtain ⟨n, hn⟩ := h.counting hs
      cases a with
      | call n' =>
          simp only [Holdem.step, hs, if_true] at hstep
          cases hstep
      | consume i =>
          have hn' := hn.step (a := .consume i) trivial hstep
          simp only [Holdem.step, Option.map_eq_some_iff] at hstep
          obtain ⟨r, hr, rfl⟩ := hstep
          exact .of_counting hn' hs
      | kill =>
          have hn' := hn.step (a := .kill) trivial hstep
          simp only [Holdem.step, Option.some.injEq] at hstep
          subst hstep
          exact .of_counting hn' hs
      | search expired =>
          have hn' := hn.step (a := .search expired) trivial hstep
          refine ⟨fun hidle => ?_, fun _ => ⟨n, hn'⟩⟩
          simp only [Holdem.step, hs, if_true, Option.some.injEq] at hstep
          subst hstep
          obtain ⟨e, he⟩ := Research.leaving_of_next hs hidle
          exact Research.quiet_of_leaving hn he (hg e he)

/-- An exit that does not have what it needs leaves something queued or held. -/
theorem not_returnsQuiet_of_not_leavesQuiet (hg : ¬ LeavesQuiet s a)
    (hstep : step cfg s a = some s') : ¬ s'.ReturnsQuiet := by
  cases a with
  | call n | consume i | kill => exact absurd trivial hg
  | search expired =>
      simp only [step, Option.ite_none_right_eq_some, Option.some.injEq] at hstep
      obtain ⟨-, rfl⟩ := hstep
      refine fun hq => hg fun e he => ?_
      obtain ⟨hidle, hneeds⟩ :
          (s.research.next cfg expired s.pc).searching = false ∧ _ := Research.next_of_leaving he
      exact hneeds (hq hidle)

/-- **Quiescence.**  Over any sequence of calls from rest and any interleaving, nothing is queued or
held whenever no call is running, exactly when every exit leaves what it needs. -/
theorem returns_quiet_iff (cfg : Config) (s₀ s : System m) (as : List (Act m))
    (hrest : s₀.AtRest) (hrun : run (step cfg) s₀ as = some s) :
    Throughout (step cfg) System.ReturnsQuiet s₀ as ↔ Guarded (step cfg) LeavesQuiet s₀ as :=
  throughout_iff_guarded_of_run (fun _ h => h.quiet) (fun _ _ _ h hg hstep => h.step hg hstep)
    (fun _ _ _ _ hg hstep => not_returnsQuiet_of_not_leavesQuiet hg hstep)
    (QuietInv.of_atRest hrest) hrun

/-- `search(1)` twice on one consumer, which processes the task each time. -/
theorem returns_quiet_twice :
    Throughout (step pairConfig) System.ReturnsQuiet (System.fresh 1)
      (.call 1 :: (lines 12 ++ (consumes 0 4 ++ (lines 2 ++
        .call 1 :: (lines 12 ++ (consumes 0 4 ++ lines 2)))))) :=
  (returns_quiet_iff pairConfig (System.fresh 1) _ _ (atRest_fresh 1) rfl).mpr (by decide +kernel)

/-- The consumer takes the only task, the queue is empty, and the time is up: `search` returns while
the task is being processed. -/
theorem timeout_during_process :
    ∃ s, run (step pairConfig) (System.fresh 1)
        (.call 1 :: (lines 12 ++ (consumes 0 2 ++ (lines 4 ++ .search true :: lines 1)))) = some s ∧
      s.pc = .idle (some .timeout) ∧ s.research.trace.pushed = [1] ∧
      s.research.consumers 0 = .processing (.research 1) ∧ ¬ s.ReturnsQuiet := by
  refine ⟨_, rfl, rfl, rfl, rfl, fun h => ?_⟩
  cases (h rfl).held 0

end Holdem
