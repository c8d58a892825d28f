import Holdem.Research.Working

/-!
# Research — Settled

A call of `search` does not need a `Research` at rest.  It is enough that no research task of an
earlier call is queued or held (`NoneLeft`): a discount or a strategy task that a consumer still
holds is not counted, and adds nothing to the tally of the next call.  A call that leaves through
`numProcessed == maxIterations` leaves no research task behind, so that the next one may follow at
once (`Sets.settled`).
-/

namespace Holdem
open Support

variable {m : Nat} {cfg : Config} {n : Int32} {s s' : System m} {a : Act m}

/-- No research task is queued, and none is held. -/
structure Research.NoneLeft (r : Research m) : Prop where
  queue : idsOf r.tqResearch = 0
  held : ∀ i, (r.consumers i).inProcess = 0

/-- No call of `search` is running, and no research task is queued or held. -/
structure System.Settled (s : System m) : Prop where
  idle : s.pc.searching = false
  none_left : s.research.NoneLeft

/-- A call of `search(n)` with its tally, or setting its counters with no research task left. -/
def Research.SetsAt (n : Int32) (r : Research m) : Pc → Prop
  | .resetIterations n' => n' = n ∧ r.NoneLeft ∧ r.trace = .empty
  | .resetProcessed n'  => n' = n ∧ r.NoneLeft ∧ r.trace = .empty ∧ r.numIterations = 0
  | .resetMax n'        =>
    n' = n ∧ r.NoneLeft ∧ r.trace = .empty ∧ r.numIterations = 0 ∧ r.numProcessed = 0
  | pc                  => r.CountingAt n pc

/-- The call of `search(n)` is under way. -/
def System.Sets (n : Int32) (s : System m) : Prop := s.research.SetsAt n s.pc

/-! ### No research task -/

theorem Consumer.inProcess_of_task {c : Consumer} (h : c.task = none) : c.inProcess = 0 := by
  rw [Consumer.inProcess, Consumer.running_of_task h, Consumer.uncounted_of_task h]
  rfl

namespace Research

theorem Quiet.noneLeft {r : Research m} (h : r.Quiet) : r.NoneLeft where
  queue := by rw [h.queue, idsOf_nil]
  held := fun i => Consumer.inProcess_of_task (h.held i)

theorem NoneLeft.running {r : Research m} (h : r.NoneLeft) :
    total Consumer.running r.consumers = 0 :=
  total_eq_zero_iff.mpr fun i => Consumer.running_of_inProcess (h.held i)

theorem NoneLeft.uncounted {r : Research m} (h : r.NoneLeft) :
    total Consumer.uncounted r.consumers = 0 :=
  total_eq_zero_iff.mpr fun i => Nat.eq_zero_of_add_eq_zero_left (h.held i)

/-- Where no research task is left, the consumers finish and count none. -/
theorem NoneLeft.consume {r r' : Research m} {i : Fin m} (h : r.NoneLeft)
    (hc : r.consume i = some r') :
    r'.NoneLeft ∧ r'.trace = r.trace ∧ r'.numProcessed = r.numProcessed := by
  have hset : ∀ c : Consumer, c.inProcess = 0 → ∀ j,
      (Function.update r.consumers i c j).inProcess = 0 := by
    intro c hc j
    by_cases hj : j = i
    · subst hj
      rwa [Function.update_self]
    · rw [Function.update_of_ne hj]
      exact h.held j
  have hi := h.held i
  cases consumes hc with
  | move c _ hfree => exact ⟨⟨h.queue, hset c (Consumer.inProcess_of_task hfree)⟩, rfl, rfl⟩
  | take t q _ hq =>
      have hqueue := h.queue
      rw [hq, idsOf_cons] at hqueue
      obtain ⟨ht, hrest⟩ := add_eq_zero.mp hqueue
      refine ⟨⟨hrest, hset (.processing t) ?_⟩, rfl, rfl⟩
      rw [Consumer.inProcess, Consumer.running, ht]
      rfl
  | finish t ht =>
      rw [ht] at hi
      have hids : t.ids = 0 := Consumer.running_of_inProcess hi
      have hcount : t.count = 0 := by rw [← Task.card_ids, hids, Multiset.card_zero]
      refine ⟨⟨h.queue, hset (.counting t) ?_⟩, ?_, rfl⟩
      · rw [Consumer.inProcess, Consumer.uncounted, hcount]
        rfl
      · cases t with
        | research id => cases hcount
        | discount j | strategy j => rfl
  | count t ht =>
      rw [ht] at hi
      have hcount : t.count = 0 := Nat.eq_zero_of_add_eq_zero_left hi
      refine ⟨⟨h.queue, hset .testing rfl⟩, rfl, ?_⟩
      simp only [hcount, add_zero]

/-- No research task is queued or processed. -/
theorem NoneLeft.free {r : Research m} (h : r.NoneLeft) (id : Nat) :
    .research id ∉ r.tqResearch ∧ ∀ i, r.consumers i ≠ .processing (.research id) := by
  constructor
  · intro hmem
    obtain ⟨p, q, hq⟩ := List.append_of_mem hmem
    have hqueue := h.queue
    rw [hq, idsOf_append, idsOf_cons] at hqueue
    obtain ⟨-, hqueue⟩ := add_eq_zero.mp hqueue
    exact Multiset.singleton_ne_zero id (add_eq_zero.mp hqueue).1
  · intro i hi
    have hheld := h.held i
    rw [hi] at hheld
    exact Multiset.singleton_ne_zero id (Consumer.running_of_inProcess hheld)

theorem Tally.of_noneLeft {r : Research m} (h : r.NoneLeft) (ht : r.trace = .empty)
    (hp : r.numProcessed = 0) : r.Tally 0 where
  pushed := by
    rw [ht]
    rfl
  conserved := by
    rw [ht, h.queue, h.running]
    rfl
  counted := by
    rw [ht, hp, h.uncounted]
    rfl

/-- Once all are counted, none is left. -/
theorem Counted.noneLeft {r : Research m} (h : r.Counted n)
    (hp : r.numProcessed = r.maxIterations) : r.NoneLeft := by
  obtain ⟨hin, hqueue, -⟩ := h.none_left hp
  exact ⟨hqueue, total_eq_zero_iff.mp hin⟩

end Research

/-! ### Setting the counters -/

namespace System

theorem AtRest.settled (h : s.AtRest) : s.Settled := ⟨h.idle, h.quiet.noneLeft⟩

/-- Between two calls the consumers leave no research task either. -/
theorem Settled.step (h : s.Settled) (ha : a.Internal) (hstep : Holdem.step cfg s a = some s') :
    s'.Settled := by
  cases a with
  | call k => cases ha
  | kill =>
      simp only [Holdem.step, Option.some.injEq] at hstep
      subst hstep
      exact ⟨h.idle, h.none_left.queue, h.none_left.held⟩
  | consume i =>
      simp only [Holdem.step, Option.map_eq_some_iff] at hstep
      obtain ⟨r, hr, rfl⟩ := hstep
      exact ⟨h.idle, (h.none_left.consume hr).1⟩
  | search expired =>
      simp only [Holdem.step, h.idle, Bool.false_eq_true, if_false, reduceCtorEq] at hstep

theorem Sets.call (h : s.Settled) (hstep : Holdem.step cfg s (.call n) = some s') :
    s'.Sets n ∧ s'.pc.resetting = true := by
  simp only [Holdem.step, h.idle, Bool.false_eq_true, if_false, Option.some.injEq] at hstep
  subst hstep
  exact ⟨⟨rfl, ⟨h.none_left.queue, h.none_left.held⟩, rfl⟩, rfl⟩

/-- Once the counters are set, the call has its tally. -/
theorem Sets.counting (h : s.Sets n) (hset : s.pc.resetting = false) : s.Counting n := by
  obtain ⟨pc, r⟩ := s
  cases pc with
  | resetIterations n' | resetProcessed n' | resetMax n' => cases hset
  | _ => exact h

theorem Counting.sets (h : s.Counting n) (hset : s.pc.resetting = false) : s.Sets n := by
  obtain ⟨pc, r⟩ := s
  cases pc with
  | resetIterations n' | resetProcessed n' | resetMax n' => cases hset
  | _ => exact h

/-- A step other than a call, before the counters are set. -/
theorem Sets.step_of_resetting (h : s.Sets n) (hset : s.pc.resetting = true) (ha : a.Internal)
    (hstep : Holdem.step cfg s a = some s') : s'.Sets n := by
  obtain ⟨pc, r⟩ := s
  cases a with
  | call k => cases ha
  | kill =>
      simp only [Holdem.step, Option.some.injEq] at hstep
      subst hstep
      cases pc with
      | resetIterations n' | resetProcessed n' | resetMax n' =>
          exact ⟨h.1, ⟨h.2.1.queue, h.2.1.held⟩, h.2.2⟩
      | _ => cases hset
  | consume i =>
      simp only [Holdem.step, Option.map_eq_some_iff] at hstep
      obtain ⟨r', hr, rfl⟩ := hstep
      cases pc with
      | resetIterations n' =>
          obtain ⟨hnone, htrace, -⟩ := h.2.1.consume hr
          exact ⟨h.1, hnone, htrace.trans h.2.2⟩
      | resetProcessed n' =>
          obtain ⟨hnone, htrace, -⟩ := h.2.1.consume hr
          exact ⟨h.1, hnone, htrace.trans h.2.2.1,
            (Research.consume_counters hr).1.trans h.2.2.2⟩
      | resetMax n' =>
          obtain ⟨hnone, htrace, hp⟩ := h.2.1.consume hr
          exact ⟨h.1, hnone, htrace.trans h.2.2.1,
            (Research.consume_counters hr).1.trans h.2.2.2.1, hp.trans h.2.2.2.2⟩
      | _ => cases hset
  | search expired =>
      simp only [Holdem.step, Option.ite_none_right_eq_some, Option.some.injEq] at hstep
      obtain ⟨-, rfl⟩ := hstep
      cases pc with
      | resetIterations n' => exact ⟨h.1, ⟨h.2.1.queue, h.2.1.held⟩, h.2.2, rfl⟩
      | resetProcessed n' =>
          exact ⟨h.1, ⟨h.2.1.queue, h.2.1.held⟩, h.2.2.1, h.2.2.2, rfl⟩
      | resetMax n' =>
          obtain ⟨rfl, hnone, htrace, hi, hp⟩ := h
          have hi : r.numIterations = 0 := hi
          have htally : r.Tally r.numIterations :=
            hi.symm ▸ Research.Tally.of_noneLeft hnone htrace hp
          refine ⟨⟨htally.pushed, htally.conserved, htally.counted⟩, rfl, ?_⟩
          show r.numIterations ≤ _
          rw [hi]
          exact Nat.zero_le _
      | _ => cases hset

/-- Every step of every party keeps the tally, until the next call. -/
theorem Sets.step (h : s.Sets n) (ha : a.Internal) (hstep : Holdem.step cfg s a = some s') :
    s'.Sets n := by
  cases hset : s.pc.resetting with
  | true => exact h.step_of_resetting hset ha hstep
  | false =>
      have hset' : s'.pc.resetting = false := by
        cases a with
        | call k => cases ha
        | kill =>
            simp only [Holdem.step, Option.some.injEq] at hstep
            subst hstep
            exact hset
        | consume i =>
            simp only [Holdem.step, Option.map_eq_some_iff] at hstep
            obtain ⟨r, -, rfl⟩ := hstep
            exact hset
        | search expired =>
            simp only [Holdem.step, Option.ite_none_right_eq_some, Option.some.injEq] at hstep
            obtain ⟨-, rfl⟩ := hstep
            exact Research.next_resetting hset
      exact ((h.counting hset).step ha hstep).sets hset'

/-- A call that leaves through `numProcessed == maxIterations` leaves no research task. -/
theorem Sets.settled (h : s.Sets n) (hpc : s.pc = .idle (some .processed)) : s.Settled := by
  obtain ⟨pc, r⟩ := s
  cases hpc
  exact ⟨rfl, Research.Counted.noneLeft h.1 h.2⟩

end System

end Holdem
