import Holdem.Research.Returns

/-!
# Research — Completes

Calls of `search` that are neither killed nor out of time.  With a non-negative number of iterations
a call leaves through `numProcessed == maxIterations`, with every task processed exactly once, and
the next call may follow whenever it likes.

`maxIterations` is unsigned and `taskDif` is not, so with a negative number there are four thousand
million tasks to wait for and none is ever due: no task of any kind is pushed (`search_negative`),
and only the clock or `kill` ends the call.  `completes_iff` puts the two together, and
`all_complete_iff` says it of any number of calls on one `Research`.
-/

namespace Holdem
open Support

variable {m : Nat} {cfg : Config} {n : Int32} {s s' : System m} {a : Act m}

/-- The call was neither killed nor out of time. -/
structure System.InTime (s : System m) : Prop where
  running : s.research.consumeRunning = true
  cleaning : s.pc ≠ .cleaning
  left : s.pc.searching = false → s.pc = .idle (some .processed)

theorem System.InTime.step (h : s.InTime) (ha : a.Timely) (hstep : step cfg s a = some s') :
    s'.InTime := by
  cases a with
  | call k | kill => cases ha
  | consume i =>
      simp only [Holdem.step, Option.map_eq_some_iff] at hstep
      obtain ⟨r, hr, rfl⟩ := hstep
      exact ⟨(Research.consume_moves hr).1.trans h.running, h.cleaning, h.left⟩
  | search expired =>
      cases ha
      simp only [Holdem.step, Option.ite_none_right_eq_some, Option.some.injEq] at hstep
      obtain ⟨hs, rfl⟩ := hstep
      refine ⟨by simpa only [Research.effect_consumeRunning] using h.running, ?_, fun hidle => ?_⟩
      · cases hpc : s.pc with
        | waiting w | checking w =>
            simp only [Research.next]
            split <;> cases w <;> exact Pc.noConfusion
        | timing => exact Pc.noConfusion
        | running | completed | started | threshold | discountDue | pushDiscount i | strategyDue
        | pushStrategy i | taskDue =>
            simp only [Research.next]
            split <;> exact Pc.noConfusion
        | _ => exact Pc.noConfusion
      · obtain ⟨e, he⟩ := Research.leaving_of_next hs hidle
        cases hpc : s.pc with
        | running =>
            simp only [hpc, Research.leaving, h.running, if_true] at he
            cases he
        | completed =>
            simp only [hpc, Research.leaving, Option.ite_none_right_eq_some] at he
            simp only [Research.next, if_pos he.1]
        | cleaning => exact absurd hpc h.cleaning
        | _ =>
            rw [hpc] at he
            cases he

/-! ### A negative number of iterations -/

/-- The lines of a turn on which nothing is due. -/
def Pc.Spins : Pc → Prop
  | .idle (some .processed) => False
  | .idle _ | .resetIterations _ | .resetProcessed _ | .resetMax _ | .running | .completed
  | .waiting .training | .checking .training | .timing | .cleaning | .started | .taskDue => True
  | _ => False

/-- No task was pushed, and no phase was entered. -/
structure Trace.Idle (tr : Trace) : Prop where
  pushed : tr.pushed = []
  discounts : tr.discounts = []
  strategies : tr.strategies = []

/-- A call of `search(n)` that has not pushed anything. -/
structure System.Spinning (n : Int32) (s : System m) : Prop where
  sets : s.Sets n
  trace : s.research.trace.Idle
  pc : s.pc.Spins
  none_yet : s.pc.resetting = false → s.research.numIterations = 0

/-- A negative number of iterations is a large number of tasks, and none of them is due. -/
theorem Research.taskNum_of_negative {r : Research m} (hn : n.toInt < 0)
    (hmax : r.maxIterations = n.toUInt32.toNat) (hi : r.numIterations = 0) :
    0 < r.maxIterations ∧ ¬ 0 < r.taskNum := by
  have hlt := n.toUInt32.toBitVec.isLt
  have hint : n.toInt = n.toUInt32.toBitVec.toInt := rfl
  have hnat : n.toUInt32.toNat = n.toUInt32.toBitVec.toNat := rfl
  rw [hint, BitVec.toInt_eq_toNat_cond] at hn
  rw [← hnat, ← hmax] at hn hlt
  have hdif : ((r.maxIterations : Int) - r.numIterations).bmod (2 ^ 32) < 1 := by
    rw [hi, Int.bmod_def]
    split at hn <;> split <;> omega
  refine ⟨by split at hn <;> omega, ?_⟩
  simp only [taskNum, if_pos hdif]
  omega

namespace System.Spinning

theorem call (hsettled : s.Settled) (hcall : Holdem.step cfg s (.call n) = some s') :
    s'.Spinning n := by
  have hsets := (System.Sets.call hsettled hcall).1
  simp only [Holdem.step, Option.ite_none_left_eq_some, Option.some.injEq] at hcall
  obtain ⟨-, rfl⟩ := hcall
  exact ⟨hsets, ⟨rfl, rfl, rfl⟩, trivial, fun h => by cases h⟩

theorem counts (h : s.Spinning n) (hset : s.pc.resetting = false) :
    s.research.numProcessed = 0 ∧ s.research.maxIterations = n.toUInt32.toNat := by
  have hcounts := (h.sets.counting hset).counts hset
  have hle := hcounts.processed_le
  rw [h.none_yet hset] at hle
  exact ⟨Nat.le_zero.mp hle, hcounts.max_eq⟩

/-- A line of a consumer leaves the trace idle. -/
theorem trace_consume {r r' : Research m} {i : Fin m} (h : r.trace.Idle)
    (hc : r.consume i = some r') : r'.trace.Idle := by
  cases Research.consumes hc with
  | move | take | count => exact h
  | finish t =>
      cases t with
      | research id => exact ⟨h.pushed, h.discounts, h.strategies⟩
      | discount j | strategy j => exact h

/-- A line of `search` on which nothing is due leads to another one. -/
theorem spins_next (h : s.Spinning n) (hn : n.toInt < 0) (hs : s.pc.searching = true)
    (expired : Bool) : (s.research.next cfg expired s.pc).Spins := by
  have hpcs := h.pc
  have hnone := h.none_yet
  have hcounts := h.counts
  obtain ⟨pc, r⟩ := s
  cases pc with
  | idle last => cases hs
  | resetIterations k | resetProcessed k | resetMax k => trivial
  | running =>
      simp only [Research.next]
      split <;> trivial
  | completed =>
      obtain ⟨hp, hmax⟩ := hcounts rfl
      have hpos := (Research.taskNum_of_negative hn hmax (hnone rfl)).1
      have hne : ¬ r.numProcessed = r.maxIterations := by
        intro heq
        exact absurd (heq.symm.trans hp) (Nat.ne_of_gt hpos)
      simp only [Research.next, if_neg hne]
      trivial
  | waiting w | checking w =>
      cases w with
      | training =>
          simp only [Research.next]
          split <;> trivial
      | _ => cases hpcs
  | timing =>
      simp only [Research.next]
      split <;> trivial
  | cleaning => trivial
  | started =>
      have hi : r.numIterations = 0 := hnone rfl
      have hnot : ¬ (0 < r.numIterations ∧ 0 < r.numProcessed) := by
        rw [hi]
        exact fun h => absurd h.1 (Nat.lt_irrefl 0)
      simp only [Research.next, if_neg hnot]
      trivial
  | taskDue =>
      have hnot := (Research.taskNum_of_negative hn (hcounts rfl).2 (hnone rfl)).2
      simp only [Research.next, if_neg hnot]
      trivial
  | _ => cases hpcs

/-- Such a line pushes nothing and counts nothing. -/
theorem effect_of_spins (cfg : Config) {r : Research m} {pc : Pc} (hpc : pc.Spins)
    (h : r.trace.Idle) :
    (r.effect cfg pc).trace.Idle ∧
      (r.numIterations = 0 → (r.effect cfg pc).numIterations = 0) := by
  cases pc with
  | cleaning => exact ⟨⟨h.pushed, h.discounts, h.strategies⟩, id⟩
  | resetIterations k => exact ⟨h, fun _ => rfl⟩
  | idle last | resetProcessed k | resetMax k | running | completed | waiting w | checking w
  | timing | started | taskDue => exact ⟨h, id⟩
  | _ => cases hpc

/-- No line of any thread brings a task. -/
theorem step (h : s.Spinning n) (hn : n.toInt < 0) (ha : a.Internal)
    (hstep : Holdem.step cfg s a = some s') : s'.Spinning n := by
  have hsets := h.sets.step ha hstep
  cases a with
  | call k => cases ha
  | kill =>
      simp only [Holdem.step, Option.some.injEq] at hstep
      subst hstep
      exact ⟨hsets, h.trace, h.pc, h.none_yet⟩
  | consume i =>
      simp only [Holdem.step, Option.map_eq_some_iff] at hstep
      obtain ⟨r, hr, rfl⟩ := hstep
      refine ⟨hsets, trace_consume h.trace hr, h.pc, fun hset => ?_⟩
      exact (Research.consume_counters hr).1.trans (h.none_yet hset)
  | search expired =>
      simp only [Holdem.step, Option.ite_none_right_eq_some, Option.some.injEq] at hstep
      obtain ⟨hs, rfl⟩ := hstep
      obtain ⟨htrace, hi⟩ := effect_of_spins cfg h.pc h.trace
      refine ⟨hsets, htrace, h.spins_next hn hs expired, fun hset => ?_⟩
      cases hreset : s.pc.resetting with
      | false => exact hi (h.none_yet hreset)
      | true =>
          -- the counters were set in this line
          obtain ⟨pc, r⟩ := s
          cases pc with
          | resetMax k =>
              obtain ⟨-, -, -, hzero, -⟩ := h.sets
              exact hi hzero
          | resetIterations k | resetProcessed k => cases hset
          | _ => cases hreset

end System.Spinning

/-- **A negative number of iterations.**  In every interleaving of a call of `search(n)` with
negative `n`, made where no research task is left, no task is ever pushed and no phase entered, and
the call does not leave through `numProcessed == maxIterations`. -/
theorem search_negative (cfg : Config) (n : Int32) (hn : n.toInt < 0) (s₀ s : System m)
    (as : List (Act m)) (hsettled : s₀.Settled) (has : ∀ a ∈ as, a.Internal)
    (hrun : run (step cfg) s₀ (.call n :: as) = some s) :
    s.research.trace.Idle ∧ s.pc ≠ .idle (some .processed) := by
  obtain ⟨s₁, hcall, hrun⟩ := run_cons_eq_some hrun
  have hkeep : ∀ s (a : Act m) s', s.Spinning n → a.Internal → step cfg s a = some s' →
      s'.Spinning n := fun _ _ _ h ha hstep => h.step hn ha hstep
  have hspin := guarded_invariant hkeep (System.Spinning.call hsettled hcall)
    (guarded_of_forall (fun a ha _ => has a ha) _) hrun
  refine ⟨hspin.trace, fun hpc => ?_⟩
  have hpcs := hspin.pc
  rw [hpc] at hpcs
  exact hpcs

/-- `search(-1)`, for as long as nothing else happens. -/
theorem negative_one :
    ∃ s, run (step pairConfig) (System.fresh 1) (.call (-1) :: lines 9) = some s ∧
      s.research.trace.Idle ∧ s.pc ≠ .idle (some .processed) :=
  ⟨_, rfl, search_negative pairConfig (-1) (by decide) (System.fresh 1) _ (lines 9)
    (atRest_fresh 1).settled (fun _ ha => Act.internal_lines ha) rfl⟩

/-! ### Exactly when a call completes -/

/-- The call has left through `numProcessed == maxIterations`, with every task processed once. -/
def System.Completed (n : Int32) (s : System m) : Prop :=
  s.pc = .idle (some .processed) ∧
    s.research.trace.finished.Perm (List.range' 1 n.toUInt32.toNat)

/-- No research task is left, and the consumers run. -/
structure System.Ready (s : System m) : Prop where
  settled : s.Settled
  alive : s.Alive
  running : s.research.consumeRunning = true

theorem ready_fresh (m : Nat) : (System.fresh m).Ready :=
  ⟨(atRest_fresh m).settled, alive_fresh m, rfl⟩

theorem System.Ready.step (h : s.Ready) (ha : a.Timely) (hstep : Holdem.step cfg s a = some s') :
    s'.Ready := by
  refine ⟨h.settled.step ha.internal hstep, h.alive.step hstep, ?_⟩
  cases a with
  | call k | kill => cases ha
  | search expired =>
      simp only [Holdem.step, h.settled.idle, Bool.false_eq_true, if_false, reduceCtorEq] at hstep
  | consume i =>
      simp only [Holdem.step, Option.map_eq_some_iff] at hstep
      obtain ⟨r, hr, rfl⟩ := hstep
      exact (Research.consume_moves hr).1.trans h.running

/-- A call of `search(n)` that is neither killed nor out of time, with its consumers running. -/
structure System.Serving (n : Int32) (s : System m) : Prop where
  sets : s.Sets n
  inTime : s.InTime
  alive : s.Alive

namespace System.Serving

theorem call (h : s.Ready) (hcall : Holdem.step cfg s (.call n) = some s') : s'.Serving n where
  sets := (System.Sets.call h.settled hcall).1
  inTime := by
    simp only [Holdem.step, Option.ite_none_left_eq_some, Option.some.injEq] at hcall
    obtain ⟨-, rfl⟩ := hcall
    exact ⟨h.running, Pc.noConfusion, fun h => by cases h⟩
  alive := h.alive.step hcall

theorem step (h : s.Serving n) (ha : a.Timely) (hstep : Holdem.step cfg s a = some s') :
    s'.Serving n :=
  ⟨h.sets.step ha.internal hstep, h.inTime.step ha hstep, h.alive.step hstep⟩

/-- A call that has returned is complete. -/
theorem completed (h : s.Serving n) (hidle : s.pc.searching = false) : s.Completed n := by
  have hpc := h.inTime.left hidle
  have hset : s.pc.resetting = false := by
    rw [hpc]
    rfl
  have hcounts := (h.sets.counting hset).counts hset
  exact ⟨hpc, hcounts.max_eq ▸ hcounts.all hpc⟩

/-- Behind a call that has returned, the next one may be made. -/
theorem ready (h : s.Serving n) (hidle : s.pc.searching = false) : s.Ready where
  settled := h.sets.settled (h.inTime.left hidle)
  alive := h.alive
  running := h.inTime.running

/-- What is complete stays so, until the next call. -/
theorem idle_step (hidle : s.pc.searching = false) (ha : a.Timely)
    (hstep : Holdem.step cfg s a = some s') : s'.pc.searching = false := by
  cases a with
  | call k | kill => cases ha
  | search expired =>
      simp only [Holdem.step, hidle, Bool.false_eq_true, if_false] at hstep
      cases hstep
  | consume i =>
      simp only [Holdem.step, Option.map_eq_some_iff] at hstep
      obtain ⟨r, -, rfl⟩ := hstep
      exact hidle

end System.Serving

/-- Under every fair schedule on which the call is neither killed nor out of time, it completes if
the number of iterations is not negative, and otherwise never returns. -/
theorem completes_iff {s₀ s₁ : System m} (hm : 0 < m) (hready : s₀.Ready)
    (hcall : step cfg s₀ (.call n) = some s₁) {sched : Nat → Act m}
    (hfair : Fair Act.Timely Party.Turn sched) :
    ((∃ k, (after (step cfg) sched s₁ k).Completed n) ↔ 0 ≤ n.toInt) ∧
      ((∃ k, (after (step cfg) sched s₁ k).pc.searching = false) ↔ 0 ≤ n.toInt) := by
  have hinternal := hfair.mono fun a ha => ha.internal
  have hserving : ∀ k, (after (step cfg) sched s₁ k).Serving n :=
    after_invariant (fun _ _ _ h ha hstep => h.step ha hstep) hfair
      (System.Serving.call hready hcall)
  have hback : (∃ k, (after (step cfg) sched s₁ k).pc.searching = false) → 0 ≤ n.toInt := by
    rintro ⟨k, hk⟩
    refine Int.not_lt.mp fun hn => ?_
    have hspin : (after (step cfg) sched s₁ k).Spinning n :=
      after_invariant (fun _ _ _ h ha hstep => h.step hn ha hstep) hinternal
        (System.Spinning.call hready.settled hcall) k
    have hpcs := hspin.pc
    rw [(hserving k).inTime.left hk] at hpcs
    exact hpcs
  have hforth : 0 ≤ n.toInt → ∃ k, (after (step cfg) sched s₁ k).Completed n := by
    intro hn
    obtain ⟨hsets, hset⟩ := System.Sets.call hready.settled hcall
    obtain ⟨k, hk⟩ := leads_returned hn ⟨0, hm⟩ sched hinternal s₁
      ⟨hsets, hset, hready.alive.step hcall⟩
    exact ⟨k, (hserving k).completed hk⟩
  have hreturned : (∃ k, (after (step cfg) sched s₁ k).Completed n) →
      ∃ k, (after (step cfg) sched s₁ k).pc.searching = false := by
    rintro ⟨k, hk, -⟩
    exact ⟨k, by rw [hk]; rfl⟩
  exact ⟨⟨fun h => hback (hreturned h), hforth⟩, hback, fun hn => hreturned (hforth hn)⟩

/-! ### One call after the other -/

/-- The calls complete one after the other, each from some point of the schedule on until the next
is made, at whichever later point that is. -/
def AllComplete (cfg : Config) : List Int32 → (Nat → Act m) → System m → Prop
  | [], _, _           => True
  | n :: ns, sched, s₀ => ∃ s₁, step cfg s₀ (.call n) = some s₁ ∧ ∃ k, ∀ j,
    (after (step cfg) sched s₁ (k + j)).Completed n ∧
      AllComplete cfg ns (fun i => sched (k + j + i)) (after (step cfg) sched s₁ (k + j))

/-- **Any number of calls.**  On a `Research` where no research task is left and the consumers run,
under every fair schedule on which nothing is killed or out of time: the calls of `search` complete
one after the other, each with every task processed once, exactly when no number of iterations is
negative. -/
theorem all_complete_iff (cfg : Config) (hm : 0 < m) (ns : List Int32) (s₀ : System m)
    (hready : s₀.Ready) (sched : Nat → Act m) (hfair : Fair Act.Timely Party.Turn sched) :
    AllComplete cfg ns sched s₀ ↔ ∀ n ∈ ns, 0 ≤ n.toInt := by
  induction ns generalizing s₀ sched with
  | nil => exact iff_of_true trivial fun n hn => absurd hn List.not_mem_nil
  | cons n ns ih =>
      obtain ⟨s₁, hcall⟩ : ∃ s₁, step cfg s₀ (.call n) = some s₁ := by
        simp only [step, hready.settled.idle, Bool.false_eq_true, if_false]
        exact ⟨_, rfl⟩
      have hone := (completes_iff hm hready hcall hfair).1
      have hserving : ∀ k, (after (step cfg) sched s₁ k).Serving n :=
        after_invariant (fun _ _ _ h ha hstep => h.step ha hstep) hfair
          (System.Serving.call hready hcall)
      have hnext : ∀ k, (after (step cfg) sched s₁ k).Completed n →
          (AllComplete cfg ns (fun i => sched (k + i)) (after (step cfg) sched s₁ k) ↔
            ∀ n ∈ ns, 0 ≤ n.toInt) := fun k hk =>
        ih _ ((hserving k).ready (by rw [hk.1]; rfl)) _ (hfair.drop k)
      rw [List.forall_mem_cons]
      constructor
      · rintro ⟨s₁', hcall', k, hk⟩
        cases hcall.symm.trans hcall'
        obtain ⟨hcomplete, hrest⟩ := hk 0
        exact ⟨hone.mp ⟨k, hcomplete⟩, (hnext k hcomplete).mp hrest⟩
      · rintro ⟨hn, hns⟩
        obtain ⟨k, hk⟩ := hone.mpr hn
        refine ⟨s₁, hcall, k, fun j => ?_⟩
        have hidle : (after (step cfg) sched s₁ (k + j)).pc.searching = false := by
          rw [after_add]
          exact after_invariant (P := fun s : System m => s.pc.searching = false)
            (fun _ _ _ h ha hstep => System.Serving.idle_step h ha hstep) (hfair.drop k)
            (by rw [hk.1]; rfl) j
        have hcomplete := (hserving (k + j)).completed hidle
        exact ⟨hcomplete, (hnext (k + j) hcomplete).mpr hns⟩

/-- Three tasks, none, and two, on one consumer that takes every other line. -/
theorem all_complete_three :
    AllComplete pairConfig [3, 0, 2] alternating (System.fresh 1) ↔
      ∀ n ∈ ([3, 0, 2] : List Int32), 0 ≤ n.toInt :=
  all_complete_iff pairConfig Nat.zero_lt_one [3, 0, 2] (System.fresh 1) (ready_fresh 1) alternating
    fair_alternating

end Holdem
