import Mathlib.Tactic.Abel
import Holdem.Research.Model

/-!
# Research — Counting

The bookkeeping of one call of `search`.  `Tally r k` says that the research tasks pushed are those
with the ids 1 to `k`, in order, that each of them is finished, in process, queued or cleaned, and
that the finished ones are those counted and those about to be.  Every line of every thread keeps it
(`CountingAt`), discount and strategy tasks share the queue but have no ids, and so the counters
stay in order and the exit through `numProcessed == maxIterations` is never jumped over
(`search_counts`).
-/

namespace Holdem
open Support

variable {m : Nat}

/-- The id of a research task. -/
def Task.ids : Task → Multiset Nat
  | .research id => {id}
  | _            => 0

/-- The ids of the research tasks of a list. -/
def idsOf (q : List Task) : Multiset Nat := (q.map Task.ids).sum

namespace Consumer

/-- The task a consumer holds. -/
def task : Consumer → Option Task
  | .processing t | .counting t => some t
  | _                           => none

/-- The id of the research task a consumer is processing. -/
def running : Consumer → Multiset Nat
  | .processing t => t.ids
  | _             => 0

/-- The research task a consumer has finished and not counted yet. -/
def uncounted : Consumer → Nat
  | .counting t => t.count
  | _           => 0

/-- The research task a consumer holds. -/
def inProcess (c : Consumer) : Nat := c.running.card + c.uncounted

end Consumer

/-! ### Ids -/

@[simp] theorem idsOf_nil : idsOf [] = 0 := rfl

@[simp] theorem idsOf_cons (t : Task) (q : List Task) : idsOf (t :: q) = t.ids + idsOf q :=
  List.sum_cons

@[simp] theorem idsOf_append (p q : List Task) : idsOf (p ++ q) = idsOf p + idsOf q := by
  rw [idsOf, List.map_append, List.sum_append]
  rfl

theorem Task.card_ids (t : Task) : t.ids.card = t.count := by
  cases t <;> rfl

theorem Trace.coe_finish (tr : Trace) (t : Task) :
    ((tr.finish t).finished : Multiset Nat) = tr.finished + t.ids := by
  cases t with
  | research id => exact (Multiset.coe_add tr.finished [id]).symm
  | discount a => exact (add_zero _).symm
  | strategy a => exact (add_zero _).symm

theorem Trace.length_finish (tr : Trace) (t : Task) :
    (tr.finish t).finished.length = tr.finished.length + t.count := by
  cases t with
  | research id => exact List.length_append
  | discount a => rfl
  | strategy a => rfl

theorem Trace.finish_pushed (tr : Trace) (t : Task) : (tr.finish t).pushed = tr.pushed := by
  cases t <;> rfl

theorem Trace.finish_cleaned (tr : Trace) (t : Task) : (tr.finish t).cleaned = tr.cleaned := by
  cases t <;> rfl

theorem Consumer.running_of_task {c : Consumer} (h : c.task = none) : c.running = 0 := by
  cases c with
  | processing t | counting t => cases h
  | testing | fetching | exited => rfl

theorem Consumer.uncounted_of_task {c : Consumer} (h : c.task = none) : c.uncounted = 0 := by
  cases c with
  | processing t | counting t => cases h
  | testing | fetching | exited => rfl

/-! ### A line of `consume` -/

namespace Research

/-- What a line of `consume` does: the consumer moves on without a task, or takes one, finishes it
or counts it. -/
inductive Consumes (r : Research m) (i : Fin m) : Research m → Prop
  | move (c : Consumer) (hi : (r.consumers i).task = none) (hc : c.task = none) :
      Consumes r i (r.setConsumer i c)
  | take (t : Task) (q : List Task) (hi : r.consumers i = .fetching)
      (hq : r.tqResearch = t :: q) :
      Consumes r i { r.setConsumer i (.processing t) with tqResearch := q }
  | finish (t : Task) (hi : r.consumers i = .processing t) :
      Consumes r i { r.setConsumer i (.counting t) with trace := r.trace.finish t }
  | count (t : Task) (hi : r.consumers i = .counting t) :
      Consumes r i { r.setConsumer i .testing with numProcessed := r.numProcessed + t.count }

theorem consumes {r r' : Research m} {i : Fin m} (h : r.consume i = some r') :
    r.Consumes i r' := by
  cases hi : r.consumers i with
  | testing =>
      simp only [consume, hi, Option.some.injEq] at h
      subst h
      refine .move _ (by rw [hi]; rfl) ?_
      split <;> rfl
  | fetching =>
      cases hq : r.tqResearch with
      | nil =>
          simp only [consume, hi, hq, Option.some.injEq] at h
          subst h
          exact .move _ (by rw [hi]; rfl) rfl
      | cons t q =>
          simp only [consume, hi, hq, Option.some.injEq] at h
          subst h
          exact .take t q hi hq
  | processing t =>
      simp only [consume, hi, Option.some.injEq] at h
      subst h
      exact .finish t hi
  | counting t =>
      simp only [consume, hi, Option.some.injEq] at h
      subst h
      exact .count t hi
  | exited =>
      simp only [consume, hi] at h
      cases h

/-! ### Quiet -/

/-- Nothing is queued, and no consumer holds a task. -/
structure Quiet (r : Research m) : Prop where
  queue : r.tqResearch = []
  held : ∀ i, (r.consumers i).task = none

/-- When nothing is queued or held, the consumers change nothing. -/
theorem Quiet.consume {r r' : Research m} {i : Fin m} (h : r.Quiet) (hc : r.consume i = some r') :
    r'.Quiet ∧ r'.trace = r.trace ∧ r'.numProcessed = r.numProcessed := by
  have hi := h.held i
  cases consumes hc with
  | move c _ hfree =>
      refine ⟨⟨h.queue, fun j => ?_⟩, rfl, rfl⟩
      by_cases hj : j = i
      · subst hj
        simpa only [setConsumer, Function.update_self] using hfree
      · simpa only [setConsumer, Function.update_of_ne hj] using h.held j
  | take t q _ hq => cases h.queue.symm.trans hq
  | finish t ht | count t ht =>
      rw [ht] at hi
      cases hi

theorem Quiet.running {r : Research m} (h : r.Quiet) : total Consumer.running r.consumers = 0 :=
  total_eq_zero_iff.mpr fun i => Consumer.running_of_task (h.held i)

theorem Quiet.uncounted {r : Research m} (h : r.Quiet) :
    total Consumer.uncounted r.consumers = 0 :=
  total_eq_zero_iff.mpr fun i => Consumer.uncounted_of_task (h.held i)

/-! ### The tally -/

/-- The research tasks pushed are those with the ids 1 to `k`.  Each is finished, being processed,
queued or cleaned, and the finished ones are the counted and the uncounted. -/
structure Tally (r : Research m) (k : Nat) : Prop where
  pushed : r.trace.pushed = List.range' 1 k
  conserved : (r.trace.finished : Multiset Nat) + total Consumer.running r.consumers +
    idsOf r.tqResearch + idsOf r.trace.cleaned = r.trace.pushed
  counted : r.numProcessed + total Consumer.uncounted r.consumers = r.trace.finished.length

namespace Tally

variable {r r' : Research m} {k : Nat}

theorem of_quiet (h : r.Quiet) (ht : r.trace = .empty) (hp : r.numProcessed = 0) : Tally r 0 where
  pushed := by rw [ht]; rfl
  conserved := by rw [ht, h.queue, h.running]; rfl
  counted := by rw [ht, hp, h.uncounted]; rfl

/-- Every line of a consumer keeps the tally. -/
theorem consume {i : Fin m} (h : Tally r k) (hc : r.consume i = some r') : Tally r' k := by
  have hrun := total_update Consumer.running r.consumers i
  have hunc := total_update Consumer.uncounted r.consumers i
  have hcons := h.conserved
  have hcount := h.counted
  cases consumes hc with
  | move c hi hfree =>
      have hr : c.running = (r.consumers i).running := by
        rw [Consumer.running_of_task hi, Consumer.running_of_task hfree]
      have hu : c.uncounted = (r.consumers i).uncounted := by
        rw [Consumer.uncounted_of_task hi, Consumer.uncounted_of_task hfree]
      refine ⟨h.pushed, ?_, ?_⟩
      · simpa only [setConsumer, total_update_of_eq hr] using hcons
      · simpa only [setConsumer, total_update_of_eq hu] using hcount
  | take t q hi hq =>
      have hrun := hrun (.processing t)
      have hunc := hunc (.processing t)
      rw [hi] at hrun hunc
      simp only [Consumer.running, Consumer.uncounted, add_zero] at hrun hunc
      rw [hq, idsOf_cons] at hcons
      refine ⟨h.pushed, ?_, ?_⟩
      · simp only [setConsumer, hrun]
        rw [← hcons]
        abel
      · simpa only [setConsumer, hunc] using hcount
  | finish t hi =>
      have hrun := hrun (.counting t)
      have hunc := hunc (.counting t)
      rw [hi] at hrun hunc
      simp only [Consumer.running, Consumer.uncounted, add_zero] at hrun hunc
      refine ⟨?_, ?_, ?_⟩
      · simpa only [Trace.finish_pushed] using h.pushed
      · simp only [setConsumer, Trace.coe_finish, Trace.finish_pushed, Trace.finish_cleaned]
        rw [← hcons, ← hrun]
        abel
      · simp only [setConsumer, Trace.length_finish, hunc]
        omega
  | count t hi =>
      have hrun := hrun .testing
      have hunc := hunc .testing
      rw [hi] at hrun hunc
      simp only [Consumer.running, Consumer.uncounted, add_zero] at hrun hunc
      refine ⟨h.pushed, ?_, ?_⟩
      · simpa only [setConsumer, hrun] using hcons
      · simp only [setConsumer]
        omega

/-- The next research task. -/
theorem push (h : Tally r k) (cfg : Config) : Tally (r.effect cfg (.push (k + 1))) (k + 1) where
  pushed := by
    simp only [effect]
    rw [h.pushed, List.range'_1_concat, Nat.add_comm 1 k]
  conserved := by
    simp only [effect, idsOf_append, idsOf_cons, idsOf_nil, Task.ids]
    rw [← Multiset.coe_add, ← h.conserved, ← Multiset.coe_singleton]
    abel
  counted := h.counted

/-- A task that is no research. -/
theorem push_other {t : Task} (h : Tally r k) (ht : t.ids = 0) :
    Tally { r with tqResearch := r.tqResearch ++ [t] } k where
  pushed := h.pushed
  conserved := by
    simp only [idsOf_append, idsOf_cons, idsOf_nil, ht, add_zero]
    exact h.conserved
  counted := h.counted

theorem clean (h : Tally r k) (cfg : Config) : Tally (r.effect cfg .cleaning) k where
  pushed := h.pushed
  conserved := by
    simp only [effect, idsOf_append, idsOf_nil]
    rw [← h.conserved]
    abel
  counted := h.counted

/-- The research tasks, counted: processed, in process, queued and cleaned. -/
theorem sum_eq (h : Tally r k) :
    r.numProcessed + total Consumer.inProcess r.consumers + (idsOf r.tqResearch).card +
      (idsOf r.trace.cleaned).card = k := by
  have hcard := congrArg Multiset.card h.conserved
  have hrun : (total Consumer.running r.consumers).card =
      total (fun c => (Consumer.running c).card) r.consumers := by
    simp only [total, Multiset.card_sum]
  have hin : total Consumer.inProcess r.consumers =
      total (fun c => (Consumer.running c).card) r.consumers +
        total Consumer.uncounted r.consumers := Finset.sum_add_distrib
  have hcount := h.counted
  simp only [Multiset.card_add, Multiset.coe_card, h.pushed, List.length_range'] at hcard
  omega

theorem numProcessed_le (h : Tally r k) : r.numProcessed ≤ k := by
  have := h.sum_eq
  omega

end Tally

/-- With every task pushed, no task is due. -/
theorem lt_of_taskNum {r : Research m} (h : 0 < r.taskNum)
    (hle : r.numIterations ≤ r.maxIterations) : r.numIterations < r.maxIterations := by
  refine Nat.lt_of_le_of_ne hle fun heq => ?_
  rw [taskNum, heq, sub_self] at h
  exact absurd h (by decide)

/-! ### Where `search` stands -/

/-- The tally of a call of `search(n)` on a turn of its loop. -/
structure Counted (n : Int32) (r : Research m) : Prop where
  tally : r.Tally r.numIterations
  max : r.maxIterations = n.toUInt32.toNat
  le_max : r.numIterations ≤ r.maxIterations

/-- The tally of a call of `search(n)`, line by line. -/
def CountingAt (n : Int32) (r : Research m) : Pc → Prop
  | .resetIterations n' => n' = n ∧ r.Quiet ∧ r.trace = .empty
  | .resetProcessed n'  => n' = n ∧ r.Quiet ∧ r.trace = .empty ∧ r.numIterations = 0
  | .resetMax n'        =>
    n' = n ∧ r.Quiet ∧ r.trace = .empty ∧ r.numIterations = 0 ∧ r.numProcessed = 0
  | .increment          => r.Counted n ∧ r.numIterations < r.maxIterations
  -- between the increment and the push, one task is counted that is not there yet
  | .push id            =>
    r.numIterations = id ∧ r.maxIterations = n.toUInt32.toNat ∧ id ≤ r.maxIterations ∧
      ∃ k, id = k + 1 ∧ r.Tally k
  | .idle (some .processed) => r.Counted n ∧ r.numProcessed = r.maxIterations
  | _                   => r.Counted n

theorem Counted.numProcessed_le {n : Int32} {r : Research m} (h : r.Counted n) :
    r.numProcessed ≤ r.numIterations :=
  h.tally.numProcessed_le

/-- Every line of `search` keeps the tally. -/
theorem CountingAt.search {n : Int32} {r : Research m} {pc : Pc} (cfg : Config) (expired : Bool)
    (h : r.CountingAt n pc) :
    (r.effect cfg pc).CountingAt n (r.next cfg expired pc) := by
  cases pc with
  | idle last => exact h
  | resetIterations n' => exact ⟨h.1, ⟨h.2.1.queue, h.2.1.held⟩, h.2.2, rfl⟩
  | resetProcessed n' =>
      obtain ⟨hn, hq, ht, hi⟩ := h
      exact ⟨hn, ⟨hq.queue, hq.held⟩, ht, hi, rfl⟩
  | resetMax n' =>
      obtain ⟨rfl, hq, ht, hi, hp⟩ := h
      have htally : r.Tally r.numIterations := hi ▸ Tally.of_quiet hq ht hp
      exact ⟨⟨htally.pushed, htally.conserved, htally.counted⟩, rfl, by
        show r.numIterations ≤ _
        rw [hi]
        exact Nat.zero_le _⟩
  | running =>
      simp only [next, effect]
      split <;> exact h
  | completed =>
      simp only [next, effect]
      split
      · rename_i heq
        exact ⟨h, heq⟩
      · exact h
  | waiting w =>
      simp only [next, effect]
      split
      · exact h
      · cases w <;> exact h
  | checking w =>
      simp only [next, effect]
      split
      · cases w <;> exact h
      · exact h
  | timing =>
      simp only [next, effect]
      split <;> exact h
  | cleaning => exact ⟨h.tally.clean cfg, h.max, h.le_max⟩
  | started =>
      simp only [next, effect]
      split <;> exact h
  | threshold =>
      simp only [next, effect]
      split <;> exact h
  | discountDue =>
      simp only [next, effect]
      split <;> exact h
  | discount => exact ⟨⟨h.tally.pushed, h.tally.conserved, h.tally.counted⟩, h.max, h.le_max⟩
  | pushDiscount i =>
      simp only [next, effect]
      split
      · exact ⟨h.tally.push_other rfl, h.max, h.le_max⟩
      · exact h
  | strategyDue =>
      simp only [next, effect]
      split <;> exact h
  | strategy => exact ⟨⟨h.tally.pushed, h.tally.conserved, h.tally.counted⟩, h.max, h.le_max⟩
  | pushStrategy i =>
      simp only [next, effect]
      split
      · exact ⟨h.tally.push_other rfl, h.max, h.le_max⟩
      · exact h
  | taskDue =>
      simp only [next, effect]
      split
      · rename_i hdue
        exact ⟨h, lt_of_taskNum hdue h.le_max⟩
      · exact h
  | increment =>
      obtain ⟨hc, hlt⟩ := h
      exact ⟨rfl, hc.max, hlt, r.numIterations, rfl,
        ⟨hc.tally.pushed, hc.tally.conserved, hc.tally.counted⟩⟩
  | push id =>
      obtain ⟨hid, hmax, hle, k, rfl, htally⟩ := h
      have hnext : (r.effect cfg (.push (k + 1))).Tally (k + 1) := htally.push cfg
      exact ⟨hid ▸ hnext, hmax, hid ▸ hle⟩

/-- The consumers keep the counters of `search`. -/
theorem consume_counters {r r' : Research m} {i : Fin m} (hc : r.consume i = some r') :
    r'.numIterations = r.numIterations ∧ r'.maxIterations = r.maxIterations := by
  cases consumes hc <;> exact ⟨rfl, rfl⟩

theorem Counted.consume {n : Int32} {r r' : Research m} {i : Fin m} (h : r.Counted n)
    (hc : r.consume i = some r') : r'.Counted n := by
  obtain ⟨hi, hm⟩ := consume_counters hc
  exact ⟨hi ▸ h.tally.consume hc, hm ▸ h.max, by rw [hi, hm]; exact h.le_max⟩

/-- Once all are counted, no consumer counts another. -/
theorem Tally.numProcessed_eq {r r' : Research m} {k : Nat} {i : Fin m} (h : r.Tally k)
    (hle : k ≤ r.maxIterations) (hp : r.numProcessed = r.maxIterations)
    (hc : r.consume i = some r') : r'.numProcessed = r'.maxIterations := by
  have hle' := (h.consume hc).numProcessed_le
  obtain ⟨-, hm⟩ := consume_counters hc
  have hmono : r.numProcessed ≤ r'.numProcessed := by
    cases consumes hc with
    | move | take | finish => exact Nat.le_refl _
    | count => exact Nat.le_add_right _ _
  omega

/-- Every line of a consumer keeps the tally, wherever `search` stands. -/
theorem CountingAt.consume {n : Int32} {r r' : Research m} {i : Fin m} {pc : Pc}
    (h : r.CountingAt n pc) (hc : r.consume i = some r') : r'.CountingAt n pc := by
  obtain ⟨hi, hm⟩ := consume_counters hc
  cases pc with
  | resetIterations n' =>
      obtain ⟨hn, hq, ht⟩ := h
      obtain ⟨hq', ht', -⟩ := hq.consume hc
      exact ⟨hn, hq', ht'.trans ht⟩
  | resetProcessed n' =>
      obtain ⟨hn, hq, ht, hit⟩ := h
      obtain ⟨hq', ht', -⟩ := hq.consume hc
      exact ⟨hn, hq', ht'.trans ht, hi.trans hit⟩
  | resetMax n' =>
      obtain ⟨hn, hq, ht, hit, hp⟩ := h
      obtain ⟨hq', ht', hp'⟩ := hq.consume hc
      exact ⟨hn, hq', ht'.trans ht, hi.trans hit, hp'.trans hp⟩
  | increment => exact ⟨h.1.consume hc, by rw [hi, hm]; exact h.2⟩
  | push id =>
      obtain ⟨hid, hmax, hle, k, hk, htally⟩ := h
      exact ⟨hi.trans hid, hm.trans hmax, hm ▸ hle, k, hk, htally.consume hc⟩
  | idle last =>
      rcases last with _ | e
      · exact Counted.consume h hc
      · cases e with
        | processed => exact ⟨h.1.consume hc, h.1.tally.numProcessed_eq h.1.le_max h.2 hc⟩
        | timeout | killed => exact Counted.consume h hc
  | running | completed | waiting w | checking w | timing | cleaning | started | threshold
  | discountDue | discount | pushDiscount i | strategyDue | strategy | pushStrategy i | taskDue =>
      exact Counted.consume h hc

/-- Wherever `search` stands, once all are counted, no consumer counts another. -/
theorem CountingAt.numProcessed_eq {n : Int32} {r r' : Research m} {i : Fin m} {pc : Pc}
    (h : r.CountingAt n pc) (hp : r.numProcessed = r.maxIterations)
    (hc : r.consume i = some r') : r'.numProcessed = r'.maxIterations := by
  cases pc with
  | resetIterations n' | resetProcessed n' | resetMax n' =>
      obtain ⟨-, -, hp'⟩ := h.2.1.consume hc
      exact hp'.trans (hp.trans (consume_counters hc).2.symm)
  | increment => exact h.1.tally.numProcessed_eq h.1.le_max hp hc
  | push id =>
      obtain ⟨-, -, hle, k, rfl, htally⟩ := h
      exact htally.numProcessed_eq (Nat.le_of_succ_le hle) hp hc
  | idle last =>
      rcases last with _ | e
      · exact Tally.numProcessed_eq h.tally h.le_max hp hc
      · cases e with
        | processed => exact h.1.tally.numProcessed_eq h.1.le_max hp hc
        | timeout | killed => exact Tally.numProcessed_eq h.tally h.le_max hp hc
  | running | completed | waiting w | checking w | timing | cleaning | started | threshold
  | discountDue | discount | pushDiscount i | strategyDue | strategy | pushStrategy i | taskDue =>
      exact Tally.numProcessed_eq h.tally h.le_max hp hc

end Research

/-- Nothing is going on: no call of `search` is running, nothing is queued and nothing is held. -/
structure System.AtRest (s : System m) : Prop where
  idle : s.pc.searching = false
  quiet : s.research.Quiet

/-- A step other than a call. -/
def Act.Internal : Act m → Prop
  | .call _ => False
  | _       => True

/-- The call of `search(n)` is under way, with its tally. -/
def System.Counting (n : Int32) (s : System m) : Prop := s.research.CountingAt n s.pc

namespace System

variable {cfg : Config} {s s' : System m} {n : Int32}

/-- A call of `search` at rest. -/
theorem Counting.call (h : s.AtRest) (hstep : step cfg s (.call n) = some s') : s'.Counting n := by
  simp only [step, h.idle, Bool.false_eq_true, if_false, Option.some.injEq] at hstep
  subst hstep
  exact ⟨rfl, ⟨h.quiet.queue, h.quiet.held⟩, rfl⟩

theorem Counting.kill {r : Research m} {pc : Pc} (h : r.CountingAt n pc) :
    ({ r with consumeRunning := false } : Research m).CountingAt n pc := by
  have hc : r.Counted n → ({ r with consumeRunning := false } : Research m).Counted n := fun h =>
    ⟨⟨h.tally.pushed, h.tally.conserved, h.tally.counted⟩, h.max, h.le_max⟩
  cases pc with
  | resetIterations n' | resetProcessed n' | resetMax n' =>
      exact ⟨h.1, ⟨h.2.1.queue, h.2.1.held⟩, h.2.2⟩
  | increment => exact ⟨hc h.1, h.2⟩
  | push id =>
      obtain ⟨hid, hmax, hle, k, hk, htally⟩ := h
      exact ⟨hid, hmax, hle, k, hk, ⟨htally.pushed, htally.conserved, htally.counted⟩⟩
  | idle last =>
      rcases last with _ | e
      · exact hc h
      · cases e with
        | processed => exact ⟨hc h.1, h.2⟩
        | timeout | killed => exact hc h
  | running | completed | waiting w | checking w | timing | cleaning | started | threshold
  | discountDue | discount | pushDiscount i | strategyDue | strategy | pushStrategy i | taskDue =>
      exact hc h

/-- Every step of every party keeps the tally, until the next call. -/
theorem Counting.step {a : Act m} (h : s.Counting n) (ha : a.Internal)
    (hstep : step cfg s a = some s') : s'.Counting n := by
  cases a with
  | call n' => cases ha
  | search expired =>
      simp only [Holdem.step, Option.ite_none_right_eq_some, Option.some.injEq] at hstep
      obtain ⟨-, rfl⟩ := hstep
      exact Research.CountingAt.search cfg expired h
  | consume i =>
      simp only [Holdem.step, Option.map_eq_some_iff] at hstep
      obtain ⟨r, hr, rfl⟩ := hstep
      exact Research.CountingAt.consume h hr
  | kill =>
      simp only [Holdem.step, Option.some.injEq] at hstep
      subst hstep
      exact Counting.kill h

end System

/-! ### One call of `search` -/

/-- `search` is setting its counters. -/
def Pc.resetting : Pc → Bool
  | .resetIterations _ | .resetProcessed _ | .resetMax _ => true
  | _                                                    => false

/-- The tasks that are counted and not pushed yet: one, between `++numIterations` and `Push`. -/
def Pc.behind : Pc → Nat
  | .push _ => 1
  | _       => 0

/-- The counters, the ids and the tasks of a call of `search(n)` agree, and after the exit through
`numProcessed == maxIterations` every task was processed exactly once. -/
structure System.Counts (n : Int32) (s : System m) : Prop where
  processed_le : s.research.numProcessed ≤ s.research.numIterations
  iterations_le : s.research.numIterations ≤ s.research.maxIterations
  max_eq : s.research.maxIterations = n.toUInt32.toNat
  ids : s.research.trace.pushed = List.range' 1 (s.research.numIterations - s.pc.behind)
  sum : s.research.numProcessed + total Consumer.inProcess s.research.consumers +
    (idsOf s.research.tqResearch).card + (idsOf s.research.trace.cleaned).card + s.pc.behind =
      s.research.numIterations
  all : s.pc = .idle (some .processed) →
    s.research.trace.finished.Perm (List.range' 1 s.research.maxIterations)

/-- Once all are counted, no research task is left anywhere. -/
theorem Research.Counted.none_left {n : Int32} {r : Research m} (h : r.Counted n)
    (hp : r.numProcessed = r.maxIterations) :
    total Consumer.inProcess r.consumers = 0 ∧ idsOf r.tqResearch = 0 ∧
      idsOf r.trace.cleaned = 0 := by
  have hsum := h.tally.sum_eq
  have hle := h.le_max
  exact ⟨by omega, Multiset.card_eq_zero.mp (by omega), Multiset.card_eq_zero.mp (by omega)⟩

theorem Consumer.running_of_inProcess {c : Consumer} (h : c.inProcess = 0) : c.running = 0 :=
  Multiset.card_eq_zero.mp (Nat.eq_zero_of_add_eq_zero_right h)

namespace System

theorem Counted.counts {n : Int32} {s : System m} (h : s.research.Counted n)
    (hpc : s.pc.behind = 0)
    (hall : s.pc = .idle (some .processed) → s.research.numProcessed = s.research.maxIterations) :
    s.Counts n where
  processed_le := h.numProcessed_le
  iterations_le := h.le_max
  max_eq := h.max
  ids := by rw [hpc]; exact h.tally.pushed
  sum := by rw [hpc]; exact h.tally.sum_eq
  all := by
    intro hidle
    have hp := hall hidle
    obtain ⟨hin, hqueue, hclean⟩ := h.none_left hp
    have hrun : total Consumer.running s.research.consumers = 0 :=
      total_eq_zero_iff.mpr fun i => Consumer.running_of_inProcess (total_eq_zero_iff.mp hin i)
    -- nothing is left anywhere else, so what was pushed is finished
    have hcons := h.tally.conserved
    rw [hrun, hqueue, hclean, add_zero, add_zero, add_zero, h.tally.pushed] at hcons
    have hmax := Nat.le_antisymm (hp ▸ h.numProcessed_le) h.le_max
    rw [hmax]
    exact Multiset.coe_eq_coe.mp hcons

theorem Counting.counts {n : Int32} {s : System m} (h : s.Counting n)
    (hset : s.pc.resetting = false) : s.Counts n := by
  obtain ⟨pc, r⟩ := s
  cases pc with
  | resetIterations n' | resetProcessed n' | resetMax n' => cases hset
  | increment => exact Counted.counts h.1 rfl nofun
  | push id =>
      obtain ⟨hid, hmax, hle, k, rfl, htally⟩ : r.CountingAt n (.push id) := h
      have hsum := htally.sum_eq
      have hp : r.numProcessed ≤ r.numIterations := by
        have := htally.numProcessed_le
        omega
      exact {
        processed_le := hp
        iterations_le := hid ▸ hle
        max_eq := hmax
        ids := by
          show r.trace.pushed = List.range' 1 (r.numIterations - 1)
          rw [hid]
          exact htally.pushed
        sum := (congrArg (· + 1) hsum).trans hid.symm
        all := nofun }
  | idle last =>
      rcases last with _ | e
      · exact Counted.counts h rfl nofun
      · cases e with
        | processed => exact Counted.counts h.1 rfl fun _ => h.2
        | timeout | killed => exact Counted.counts h rfl nofun
  | running | completed | waiting w | checking w | timing | cleaning | started | threshold
  | discountDue | discount | pushDiscount i | strategyDue | strategy | pushStrategy i | taskDue =>
      exact Counted.counts h rfl nofun

end System

/-- In every state of a call of `search` that started at rest, the tally holds. -/
theorem counting_of_run {cfg : Config} {s₀ s : System m} {n : Int32} {as : List (Act m)}
    (hrest : s₀.AtRest) (has : ∀ a ∈ as, a.Internal)
    (hrun : run (step cfg) s₀ (.call n :: as) = some s) : s.Counting n := by
  obtain ⟨s₁, hcall, hrun⟩ := run_cons_eq_some hrun
  have hkeep : ∀ s (a : Act m) s', s.Counting n → a.Internal → step cfg s a = some s' →
      s'.Counting n := fun _ _ _ h ha hstep => h.step ha hstep
  exact guarded_invariant hkeep (System.Counting.call hrest hcall)
    (guarded_of_forall (fun a ha _ => has a ha) _) hrun

/-- **Search counting.**  In every interleaving of a call of `search(n)` that starts at rest, once
the counters are set and until the next call, the counters, the ids and the tasks agree. -/
theorem search_counts (cfg : Config) (n : Int32) (s₀ s : System m) (as : List (Act m))
    (hrest : s₀.AtRest) (has : ∀ a ∈ as, a.Internal)
    (hrun : run (step cfg) s₀ (.call n :: as) = some s) (hset : s.pc.resetting = false) :
    s.Counts n :=
  (counting_of_run hrest has hrun).counts hset

theorem atRest_fresh (m : Nat) : (System.fresh m).AtRest := ⟨rfl, ⟨rfl, fun _ => rfl⟩⟩

theorem Act.internal_lines {k : Nat} {a : Act m} (ha : a ∈ lines k) : a.Internal := by
  rw [List.eq_of_mem_replicate ha]
  trivial

theorem Act.internal_consumes {i : Fin m} {k : Nat} {a : Act m} (ha : a ∈ consumes i k) :
    a.Internal := by
  rw [List.eq_of_mem_replicate ha]
  trivial

/-- `search(1)`, from its call to its return: the task is pushed, processed and counted. -/
theorem search_counts_one :
    ∃ s, run (step pairConfig) (System.fresh 1)
        (.call 1 :: (lines 12 ++ (consumes 0 4 ++ lines 2))) = some s ∧
      s.pc = .idle (some .processed) ∧ s.Counts 1 := by
  refine ⟨_, rfl, rfl, search_counts pairConfig 1 (System.fresh 1) _
    (lines 12 ++ (consumes 0 4 ++ lines 2)) (atRest_fresh 1) (fun a ha => ?_) rfl rfl⟩
  rcases List.mem_append.mp ha with ha | ha
  · exact Act.internal_lines ha
  · rcases List.mem_append.mp ha with ha | ha
    · exact Act.internal_consumes ha
    · exact Act.internal_lines ha

/-- After `++numIterations` and before `Push`, the first task is neither processed, nor in process,
nor queued, nor cleaned. -/
theorem increment_before_push :
    ∃ s, run (step pairConfig) (System.fresh 1) (.call 1 :: lines 11) = some s ∧
      s.research.numProcessed + total Consumer.inProcess s.research.consumers +
        (idsOf s.research.tqResearch).card + (idsOf s.research.trace.cleaned).card ≠
          s.research.numIterations :=
  ⟨_, rfl, Nat.zero_ne_one⟩

end Holdem
