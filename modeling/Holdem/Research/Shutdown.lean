import Holdem.Research.Counting

/-!
# Research — Shutdown

What is left to do after `kill`.  The flag `consumeRunning` never comes back, and with it down every
line of every thread leads towards the end: `search` goes through its current turn without waiting,
at most pushing the tasks of the two phases, and a consumer at most processes one more task.

`left` counts the lines.  `shutdown_bounded` is the bound on every interleaving, and
`over_of_stuck` says that where no line can be taken any more, `search` has returned and every
consumer has exited.  So the threads of a killed `Research` always come to their end.
-/

namespace Holdem
open Support

variable {m : Nat}

/-- The lines of one turn of the loop of `search` that are still to come, up to the push of the
next task.  The two lines of a wait are counted once. -/
def Pc.left (agents : Nat) : Pc → Nat
  | .idle _                   => 0
  | .push _ | .cleaning       => 1
  | .increment                => 2
  | .taskDue                  => 3
  | .waiting .afterStrategy   => 4
  | .checking .afterStrategy  => 5
  | .pushStrategy i           => 6 + (agents - i)
  | .strategy                 => 7 + agents
  | .waiting .beforeStrategy  => 8 + agents
  | .checking .beforeStrategy => 9 + agents
  | .strategyDue              => 10 + agents
  | .waiting .afterDiscount   => 11 + agents
  | .checking .afterDiscount  => 12 + agents
  | .pushDiscount i           => 13 + agents + (agents - i)
  | .discount                 => 14 + 2 * agents
  | .waiting .beforeDiscount  => 15 + 2 * agents
  | .checking .beforeDiscount => 16 + 2 * agents
  | .discountDue              => 17 + 2 * agents
  | .threshold                => 18 + 2 * agents
  | .started                  => 19 + 2 * agents
  | .timing                   => 20 + 2 * agents
  | .waiting .training        => 21 + 2 * agents
  | .checking .training       => 22 + 2 * agents
  | .completed                => 23 + 2 * agents
  | .running                  => 24 + 2 * agents
  | .resetMax _               => 25 + 2 * agents
  | .resetProcessed _         => 26 + 2 * agents
  | .resetIterations _        => 27 + 2 * agents

/-- The wait `search` stands at. -/
def Pc.wait : Pc → Option Wait
  | .waiting w | .checking w => some w
  | _                        => none

/-- The lines until `search` returns, once `consumeRunning` is down. -/
def Pc.leftKilled (agents : Nat) : Pc → Nat
  | .idle _  => 0
  | .running => 1
  | pc       => pc.left agents + 1

/-- The lines until a consumer exits, once `consumeRunning` is down. -/
def Consumer.left : Consumer → Nat
  | .exited       => 0
  | .testing      => 1
  | .counting _   => 2
  | .processing _ => 3
  | .fetching     => 4

/-! ### The lines of `search` -/

/-- What follows a wait is nearer to the push than the wait. -/
theorem Wait.left_after (agents : Nat) (w : Wait) :
    w.after.left agents < (Pc.waiting w).left agents ∧
      (Pc.waiting w).left agents < (Pc.checking w).left agents := by
  cases w <;> simp only [Wait.after, Pc.left] <;> omega

namespace Research

/-- From this line `search` goes to the head of its loop. -/
def Loops (r : Research m) : Pc → Prop
  | .resetMax _ | .push _ => True
  | .taskDue              => ¬ 0 < r.taskNum
  | _                     => False

/-- A line of `search` that does not wait leads nearer to the push, or to the head of the loop, or
out of it. -/
theorem left_next (cfg : Config) (expired : Bool) (r : Research m) {pc : Pc}
    (hwait : pc.wait = none) (hpc : pc.searching = true) :
    r.next cfg expired pc = .running ∧ r.Loops pc ∨
      (r.next cfg expired pc).searching = false ∨
      (r.next cfg expired pc).left cfg.agentSize < pc.left cfg.agentSize := by
  cases pc with
  | idle last => cases hpc
  | waiting w | checking w => cases hwait
  | resetMax n | push id => exact Or.inl ⟨rfl, trivial⟩
  | cleaning => exact Or.inr (Or.inl rfl)
  | resetIterations n | resetProcessed n | increment =>
      exact Or.inr (Or.inr (by simp only [next, Pc.left]; omega))
  | discount | strategy => exact Or.inr (Or.inr (by simp only [next, Pc.left]; omega))
  | taskDue =>
      simp only [next]
      split
      · exact Or.inr (Or.inr (by simp only [Pc.left]; omega))
      · rename_i hdue
        exact Or.inl ⟨rfl, hdue⟩
  | running =>
      simp only [next]
      split
      · exact Or.inr (Or.inr (by simp only [Pc.left]; omega))
      · exact Or.inr (Or.inl rfl)
  | completed =>
      simp only [next]
      split
      · exact Or.inr (Or.inl rfl)
      · exact Or.inr (Or.inr (by simp only [Pc.left]; omega))
  | timing | started | threshold | discountDue | pushDiscount i | strategyDue | pushStrategy i =>
      refine Or.inr (Or.inr ?_)
      simp only [next]
      split <;> simp only [Pc.left] <;> omega

/-- Once `consumeRunning` is down, every line of `search` leads towards its return. -/
theorem leftKilled_next (cfg : Config) (expired : Bool) {r : Research m} {pc : Pc}
    (hkill : r.consumeRunning = false) (hpc : pc.searching = true) :
    (r.next cfg expired pc).leftKilled cfg.agentSize < pc.leftKilled cfg.agentSize := by
  have hrun : pc = .running ∨ pc.leftKilled cfg.agentSize = pc.left cfg.agentSize + 1 := by
    cases pc with
    | idle last => cases hpc
    | running => exact Or.inl rfl
    | _ => exact Or.inr rfl
  rcases hrun with rfl | hrun
  · simp only [next, hkill, Bool.false_eq_true, if_false, Pc.leftKilled, Nat.zero_lt_one]
  · have hle : ∀ pc' : Pc, pc'.leftKilled cfg.agentSize ≤ pc'.left cfg.agentSize + 1 := by
      intro pc'
      cases pc' <;> simp only [Pc.leftKilled, Pc.left] <;> omega
    have hpos : 0 < pc.left cfg.agentSize := by
      cases pc with
      | idle last => cases hpc
      | waiting w | checking w => cases w <;> simp only [Pc.left] <;> omega
      | _ => simp only [Pc.left]; omega
    cases hwait : pc.wait with
    | some w =>
        obtain ⟨hw, hc⟩ := w.left_after cfg.agentSize
        have hnext : (r.next cfg expired pc).left cfg.agentSize < pc.left cfg.agentSize := by
          cases pc with
          | waiting w' =>
              cases hwait
              simpa only [next, hkill, Bool.false_eq_true, if_false] using hw
          | checking w' =>
              cases hwait
              simp only [next]
              split
              · exact Nat.lt_trans hw hc
              · exact hc
          | _ => cases hwait
        have := hle (r.next cfg expired pc)
        omega
    | none =>
        rcases left_next cfg expired r hwait hpc with ⟨h, -⟩ | h | h
        · rw [h, hrun]
          simp only [Pc.leftKilled]
          omega
        · cases hnext : r.next cfg expired pc with
          | idle last =>
              rw [hrun]
              exact Nat.succ_pos _
          | _ =>
              rw [hnext] at h
              cases h
        · have := hle (r.next cfg expired pc)
          omega

/-- `search` leaves the flag and the consumers alone. -/
@[simp] theorem effect_consumeRunning (cfg : Config) (r : Research m) (pc : Pc) :
    (r.effect cfg pc).consumeRunning = r.consumeRunning := by
  cases pc with
  | pushDiscount i | pushStrategy i =>
      simp only [effect]
      split <;> rfl
  | _ => rfl

@[simp] theorem effect_consumers (cfg : Config) (r : Research m) (pc : Pc) :
    (r.effect cfg pc).consumers = r.consumers := by
  cases pc with
  | pushDiscount i | pushStrategy i =>
      simp only [effect]
      split <;> rfl
  | _ => rfl

/-- A line of a consumer moves this consumer, and leaves the flag alone. -/
theorem consume_moves {r r' : Research m} {i : Fin m} (h : r.consume i = some r') :
    r'.consumeRunning = r.consumeRunning ∧
      ∃ c, r'.consumers = Function.update r.consumers i c := by
  cases consumes h <;> exact ⟨rfl, _, rfl⟩

/-- A consumer that has not exited has a line to take. -/
theorem consume_enabled {r : Research m} {i : Fin m} (h : r.consumers i ≠ .exited) :
    ∃ r', r.consume i = some r' := by
  cases hi : r.consumers i with
  | exited => exact absurd hi h
  | testing | processing t | counting t => exact ⟨_, by rw [consume, hi]⟩
  | fetching =>
      cases hq : r.tqResearch with
      | nil => exact ⟨_, by simp only [consume, hi, hq]; rfl⟩
      | cons t q => exact ⟨_, by simp only [consume, hi, hq]; rfl⟩

/-- Once `consumeRunning` is down, every line of a consumer leads towards its exit. -/
theorem left_consume {r r' : Research m} {i : Fin m} (hkill : r.consumeRunning = false)
    (h : r.consume i = some r') :
    ∃ c, r'.consumers = Function.update r.consumers i c ∧ c.left < (r.consumers i).left := by
  cases hi : r.consumers i with
  | testing =>
      simp only [consume, hi, hkill, Bool.false_eq_true, if_false, Option.some.injEq] at h
      subst h
      exact ⟨.exited, rfl, Nat.zero_lt_one⟩
  | fetching =>
      cases hq : r.tqResearch with
      | nil =>
          simp only [consume, hi, hq, Option.some.injEq] at h
          subst h
          exact ⟨.testing, rfl, by simp only [Consumer.left]; omega⟩
      | cons t q =>
          simp only [consume, hi, hq, Option.some.injEq] at h
          subst h
          exact ⟨.processing t, rfl, by simp only [Consumer.left]; omega⟩
  | processing t =>
      simp only [consume, hi, Option.some.injEq] at h
      subst h
      exact ⟨.counting t, rfl, by simp only [Consumer.left]; omega⟩
  | counting t =>
      simp only [consume, hi, Option.some.injEq] at h
      subst h
      exact ⟨.testing, rfl, by simp only [Consumer.left]; omega⟩
  | exited =>
      simp only [consume, hi] at h
      cases h

end Research

/-! ### The whole system -/

/-- A line of `search` or of a consumer. -/
def Act.Line : Act m → Prop
  | .search _ | .consume _ => True
  | .call _ | .kill        => False

/-- The lines that are left once `consumeRunning` is down. -/
def System.left (cfg : Config) (s : System m) : Nat :=
  s.pc.leftKilled cfg.agentSize + total Consumer.left s.research.consumers

/-- Every thread has come to its end. -/
def System.Over (s : System m) : Prop :=
  s.pc.searching = false ∧ ∀ i, s.research.consumers i = .exited

variable {cfg : Config} {s s' : System m} {a : Act m}

/-- Once `consumeRunning` is down, every line leads towards the end. -/
theorem left_step (hkill : s.research.consumeRunning = false) (ha : a.Line)
    (hstep : step cfg s a = some s') :
    s'.research.consumeRunning = false ∧ s'.left cfg < s.left cfg := by
  cases a with
  | call n | kill => cases ha
  | search expired =>
      simp only [step, Option.ite_none_right_eq_some, Option.some.injEq] at hstep
      obtain ⟨hs, rfl⟩ := hstep
      have hlt := Research.leftKilled_next cfg expired hkill hs
      refine ⟨by simpa only [Research.effect_consumeRunning] using hkill, ?_⟩
      simp only [System.left, Research.effect_consumers]
      exact Nat.add_lt_add_right hlt _
  | consume i =>
      simp only [step, Option.map_eq_some_iff] at hstep
      obtain ⟨r, hr, rfl⟩ := hstep
      obtain ⟨c, hc, hlt⟩ := Research.left_consume hkill hr
      have htotal := total_update Consumer.left s.research.consumers i c
      refine ⟨(Research.consume_moves hr).1.trans hkill, ?_⟩
      simp only [System.left, hc]
      omega

/-- Where no line can be taken, every thread has come to its end. -/
theorem over_of_stuck (hstuck : ∀ a : Act m, a.Line → step cfg s a = none) : s.Over := by
  refine ⟨?_, fun i => ?_⟩
  · cases hs : s.pc.searching with
    | false => rfl
    | true =>
        have hnone := hstuck (.search false) trivial
        simp only [step, hs, if_true] at hnone
        cases hnone
  · by_contra hne
    obtain ⟨r, hr⟩ := Research.consume_enabled hne
    have hnone := hstuck (.consume i) trivial
    simp only [step, hr, Option.map_some] at hnone
    cases hnone

theorem Pc.leftKilled_le (agents : Nat) (pc : Pc) : pc.leftKilled agents ≤ 28 + 2 * agents := by
  cases pc with
  | waiting w | checking w => cases w <;> simp only [Pc.leftKilled, Pc.left] <;> omega
  | _ => simp only [Pc.leftKilled, Pc.left]; omega

theorem left_le (cfg : Config) (s : System m) : s.left cfg ≤ 28 + 2 * cfg.agentSize + 4 * m := by
  have hpc := s.pc.leftKilled_le cfg.agentSize
  have htotal : total Consumer.left s.research.consumers ≤ m * 4 := by
    calc total Consumer.left s.research.consumers
        ≤ ∑ _i : Fin m, 4 := Finset.sum_le_sum fun i _ => by
          cases s.research.consumers i <;> simp only [Consumer.left] <;> omega
      _ = m * 4 := by
          rw [Finset.sum_const, Finset.card_univ, Fintype.card_fin]
          rfl
  simp only [System.left]
  omega

/-- A run of lines uses up what is left. -/
theorem length_add_left_le {as : List (Act m)} (hkill : s.research.consumeRunning = false)
    (has : ∀ a ∈ as, a.Line) (hrun : run (step cfg) s as = some s') :
    s'.research.consumeRunning = false ∧ as.length + s'.left cfg ≤ s.left cfg := by
  induction as generalizing s with
  | nil =>
      cases hrun
      exact ⟨hkill, by rw [List.length_nil, Nat.zero_add]⟩
  | cons a as ih =>
      obtain ⟨ha, has⟩ := List.forall_mem_cons.mp has
      obtain ⟨s₁, hstep, hrun⟩ := run_cons_eq_some hrun
      obtain ⟨hkill₁, hlt⟩ := left_step hkill ha hstep
      obtain ⟨hkill', hle⟩ := ih hkill₁ has hrun
      refine ⟨hkill', ?_⟩
      rw [List.length_cons]
      omega

/-- **Shutdown.**  From any state of a killed `Research`, whatever is queued and wherever `search`
and the consumers stand, every interleaving of their lines ends within `28 + 2 * agentSize + 4 * m`
lines, and where it cannot go on, `search` has returned and every consumer has exited. -/
theorem shutdown_bounded (cfg : Config) (s s' : System m) (as : List (Act m))
    (hkill : s.research.consumeRunning = false) (has : ∀ a ∈ as, a.Line)
    (hrun : run (step cfg) s as = some s') :
    as.length ≤ 28 + 2 * cfg.agentSize + 4 * m ∧
      ((∀ a : Act m, a.Line → step cfg s' a = none) ↔ s'.Over) := by
  obtain ⟨-, hle⟩ := length_add_left_le hkill has hrun
  have hmax := left_le cfg s
  refine ⟨by omega, over_of_stuck, ?_⟩
  rintro ⟨hidle, hexit⟩ a ha
  cases a with
  | call n | kill => cases ha
  | search expired => simp only [step, hidle, Bool.false_eq_true, if_false]
  | consume i => simp only [step, Research.consume, hexit i, Option.map_none]

/-- A killed `Research` with a task in its queue that the consumer is about to take. -/
def System.killedQueued : System 1 where
  pc := .idle (some .killed)
  research := { (System.fresh 1).research with
    consumeRunning := false
    tqResearch := [.research 1]
    consumers := fun _ => .fetching }

/-- The consumer takes the task, processes it, counts it and exits. -/
theorem shutdown_queued :
    ∃ s', run (step pairConfig) System.killedQueued (consumes 0 4) = some s' ∧
      (consumes (0 : Fin 1) 4).length ≤ 28 + 2 * pairConfig.agentSize + 4 * 1 ∧
      ((∀ a : Act 1, a.Line → step pairConfig s' a = none) ↔ s'.Over) := by
  refine ⟨_, rfl, shutdown_bounded pairConfig System.killedQueued _ (consumes 0 4) rfl ?_ rfl⟩
  intro a ha
  rw [List.eq_of_mem_replicate ha]
  trivial

end Holdem
