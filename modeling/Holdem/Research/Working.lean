import Holdem.Research.Quiescence
import Holdem.Research.Shutdown
import Holdem.Support.Leads

/-!
# Research — Working

A turn of `search`, as far as the threads bring it on.  `Working n x` is a call of `search(n)` in
its loop with `x` tasks counted, and `Away n x` what it comes to: the call has returned, or was
killed, or one more task is counted.

Each step is the work of one thread (`leads_working`).  A task that a consumer holds gets counted
(`leads_of_held`); one that is queued gets taken, for the tasks of the phases are only ever pushed
behind it (`leads_of_queued`); and while `search` waits the queue runs empty (`leads_of_wait`).
-/

namespace Holdem
open Support

variable {m : Nat}

/-- A thread. -/
inductive Party (m : Nat)
  | search
  | consumer (i : Fin m)

/-- The lines of a thread. -/
def Party.Turn : Party m → Act m → Prop
  | .search,     .search _  => True
  | .consumer i, .consume j => j = i
  | _,           _          => False

/-- A line of a thread in its time. -/
def Act.Timely : Act m → Prop
  | .search expired   => expired = false
  | .consume _        => True
  | .call _ | .kill   => False

theorem Act.Timely.internal {a : Act m} (h : a.Timely) : a.Internal := by
  cases a with
  | call k => cases h
  | search expired | consume i | kill => trivial

/-- What the threads lead to under every fair schedule, with `kill` at any time and any clock. -/
abbrev SearchLeads (cfg : Config) (P Q : System m → Prop) : Prop :=
  Leads (step cfg) Act.Internal Party.Turn P Q

/-- Until `kill`, the consumers run. -/
def System.Alive (s : System m) : Prop :=
  s.research.consumeRunning = true → ∀ i, s.research.consumers i ≠ .exited

/-- A call of `search(n)` that has set its counters, with consumers that run until `kill`. -/
structure System.Underway (n : Int32) (s : System m) : Prop where
  counting : s.Counting n
  set : s.pc.resetting = false
  cleaned : s.pc.searching = true → s.research.trace.cleaned = []
  alive : s.Alive

/-- The call is in its loop, was not killed, and has `x` tasks counted. -/
structure System.Working (n : Int32) (x : Nat) (s : System m) : Prop where
  underway : s.Underway n
  searching : s.pc.searching = true
  running : s.research.consumeRunning = true
  processed : s.research.numProcessed = x

/-- The call has returned, or was killed, or has more than `x` tasks counted. -/
def System.Away (n : Int32) (x : Nat) (s : System m) : Prop :=
  s.Underway n ∧ (s.pc.searching = false ∨ s.research.consumeRunning = false ∨
    x < s.research.numProcessed)

/-- The lines until a consumer takes a task. -/
def Consumer.toFetch : Consumer → Nat
  | .exited | .fetching => 0
  | .testing            => 1
  | .counting _         => 2
  | .processing _       => 3

/-- How many tasks stand before the first research task of the queue. -/
def ahead : List Task → Nat
  | []               => 0
  | .research _ :: _ => 0
  | _ :: q           => ahead q + 1

variable {cfg : Config} {n : Int32} {x : Nat} {s s' : System m}

/-! ### One line -/

namespace Research

/-- Only the timeout takes tasks out of the queue unprocessed. -/
theorem effect_cleaned {r : Research m} {pc : Pc} (h : pc ≠ .cleaning) :
    (r.effect cfg pc).trace.cleaned = r.trace.cleaned := by
  cases pc with
  | cleaning => exact absurd rfl h
  | pushDiscount i | pushStrategy i =>
      simp only [effect]
      split <;> rfl
  | _ => rfl

/-- `search` pushes behind what is queued. -/
theorem effect_queue (cfg : Config) (r : Research m) {pc : Pc} (h : pc ≠ .cleaning) :
    ∃ q, (r.effect cfg pc).tqResearch = r.tqResearch ++ q := by
  cases pc with
  | cleaning => exact absurd rfl h
  | pushDiscount i | pushStrategy i =>
      simp only [effect]
      split
      · exact ⟨_, rfl⟩
      · exact ⟨[], (List.append_nil _).symm⟩
  | push id => exact ⟨_, rfl⟩
  | _ => exact ⟨[], (List.append_nil _).symm⟩

/-- In its loop, `search` leaves `numProcessed` and `maxIterations` alone. -/
theorem effect_counters (cfg : Config) (r : Research m) {pc : Pc} (h : pc.resetting = false) :
    (r.effect cfg pc).numProcessed = r.numProcessed ∧
      (r.effect cfg pc).maxIterations = r.maxIterations := by
  cases pc with
  | resetIterations k | resetProcessed k | resetMax k => cases h
  | pushDiscount i | pushStrategy i =>
      simp only [effect]
      split <;> exact ⟨rfl, rfl⟩
  | _ => exact ⟨rfl, rfl⟩

theorem next_resetting {expired : Bool} {r : Research m} {pc : Pc} (h : pc.resetting = false) :
    (r.next cfg expired pc).resetting = false := by
  cases pc with
  | resetIterations k | resetProcessed k | resetMax k => cases h
  | waiting w | checking w =>
      simp only [next]
      split <;> cases w <;> rfl
  | running | completed | timing | started | threshold | discountDue | pushDiscount i | strategyDue
  | pushStrategy i | taskDue =>
      simp only [next]
      split <;> rfl
  | idle last | cleaning | discount | strategy | increment | push id => rfl

/-- A line of a consumer that was not killed: it takes the first task, or leads towards that. -/
theorem consume_running {r r' : Research m} {i : Fin m} (hrun : r.consumeRunning = true)
    (h : r.consume i = some r') :
    (∃ t q, r.tqResearch = t :: q ∧ r.consumers i = .fetching ∧
        r' = { r.setConsumer i (.processing t) with tqResearch := q }) ∨
      r'.tqResearch = r.tqResearch ∧ ∃ c, r'.consumers = Function.update r.consumers i c ∧
        c ≠ .exited ∧ (r.tqResearch ≠ [] → c.toFetch < (r.consumers i).toFetch) := by
  cases hi : r.consumers i with
  | testing =>
      simp only [consume, hi, hrun, if_true, Option.some.injEq] at h
      subst h
      exact Or.inr ⟨rfl, .fetching, rfl, Consumer.noConfusion, fun _ => Nat.zero_lt_one⟩
  | fetching =>
      cases hq : r.tqResearch with
      | nil =>
          simp only [consume, hi, hq, Option.some.injEq] at h
          subst h
          exact Or.inr ⟨hq, .testing, rfl, Consumer.noConfusion, fun hne => absurd rfl hne⟩
      | cons t q =>
          simp only [consume, hi, hq, Option.some.injEq] at h
          exact Or.inl ⟨t, q, rfl, rfl, h.symm⟩
  | processing t =>
      simp only [consume, hi, Option.some.injEq] at h
      subst h
      exact Or.inr ⟨rfl, .counting t, rfl, Consumer.noConfusion, fun _ => Nat.lt_succ_self 2⟩
  | counting t =>
      simp only [consume, hi, Option.some.injEq] at h
      subst h
      exact Or.inr ⟨rfl, .testing, rfl, Consumer.noConfusion, fun _ => Nat.lt_succ_self 1⟩
  | exited =>
      simp only [consume, hi] at h
      cases h

/-- A consumer never takes back what was counted. -/
theorem numProcessed_le_consume {r r' : Research m} {i : Fin m} (h : r.consume i = some r') :
    r.numProcessed ≤ r'.numProcessed := by
  cases consumes h with
  | move | take | finish => exact Nat.le_refl _
  | count t => exact Nat.le_add_right _ _

end Research

namespace System

theorem Alive.step {a : Act m} (h : s.Alive) (hstep : step cfg s a = some s') : s'.Alive := by
  intro hrun j
  cases a with
  | call k =>
      simp only [Holdem.step, Option.ite_none_left_eq_some, Option.some.injEq] at hstep
      obtain ⟨-, rfl⟩ := hstep
      exact h hrun j
  | kill =>
      simp only [Holdem.step, Option.some.injEq] at hstep
      subst hstep
      cases hrun
  | search expired =>
      simp only [Holdem.step, Option.ite_none_right_eq_some, Option.some.injEq] at hstep
      obtain ⟨-, rfl⟩ := hstep
      simp only [Research.effect_consumeRunning, Research.effect_consumers] at hrun ⊢
      exact h hrun j
  | consume i =>
      simp only [Holdem.step, Option.map_eq_some_iff] at hstep
      obtain ⟨r, hr, rfl⟩ := hstep
      have hrun' : s.research.consumeRunning = true := (Research.consume_moves hr).1 ▸ hrun
      by_cases hj : j = i
      · subst hj
        rcases Research.consume_running hrun' hr with ⟨t, q, -, -, rfl⟩ | ⟨-, c, hc, hne, -⟩
        · simp only [Research.setConsumer, Function.update_self]
          exact Consumer.noConfusion
        · simpa only [hc, Function.update_self] using hne
      · obtain ⟨c, hc⟩ := (Research.consume_moves hr).2
        simpa only [hc, Function.update_of_ne hj] using h hrun' j

theorem Underway.step {a : Act m} (h : s.Underway n) (ha : a.Internal)
    (hstep : step cfg s a = some s') : s'.Underway n := by
  have hcount := h.counting.step ha hstep
  have halive := h.alive.step hstep
  cases a with
  | call k => cases ha
  | kill =>
      simp only [Holdem.step, Option.some.injEq] at hstep
      subst hstep
      exact ⟨hcount, h.set, h.cleaned, halive⟩
  | search expired =>
      simp only [Holdem.step, Option.ite_none_right_eq_some, Option.some.injEq] at hstep
      obtain ⟨hs, rfl⟩ := hstep
      refine ⟨hcount, Research.next_resetting h.set, fun hs' => ?_, halive⟩
      have hpc : s.pc ≠ .cleaning := by
        intro hpc
        simp only [hpc, Research.next, Pc.searching] at hs'
        cases hs'
      exact (Research.effect_cleaned hpc).trans (h.cleaned hs)
  | consume i =>
      simp only [Holdem.step, Option.map_eq_some_iff] at hstep
      obtain ⟨r, hr, rfl⟩ := hstep
      refine ⟨hcount, h.set, fun hs => ?_, halive⟩
      have htrace : r.trace.cleaned = s.research.trace.cleaned := by
        cases Research.consumes hr with
        | move | take | count => rfl
        | finish t => exact Trace.finish_cleaned _ t
      exact htrace.trans (h.cleaned hs)

/-- After a line, the call is still at work or has got away. -/
theorem Working.step {a : Act m} (h : s.Working n x) (ha : a.Internal)
    (hstep : step cfg s a = some s') : s'.Working n x ∨ s'.Away n x := by
  have hunder := h.underway.step ha hstep
  have hle : x ≤ s'.research.numProcessed := by
    rw [← h.processed]
    cases a with
    | call k => cases ha
    | kill =>
        simp only [Holdem.step, Option.some.injEq] at hstep
        subst hstep
        exact Nat.le_refl _
    | search expired =>
        simp only [Holdem.step, Option.ite_none_right_eq_some, Option.some.injEq] at hstep
        obtain ⟨-, rfl⟩ := hstep
        exact (Research.effect_counters cfg s.research h.underway.set).1.ge
    | consume i =>
        simp only [Holdem.step, Option.map_eq_some_iff] at hstep
        obtain ⟨r, hr, rfl⟩ := hstep
        exact Research.numProcessed_le_consume hr
  cases hs : s'.pc.searching with
  | false => exact Or.inr ⟨hunder, Or.inl hs⟩
  | true =>
      cases hrun : s'.research.consumeRunning with
      | false => exact Or.inr ⟨hunder, Or.inr (Or.inl hrun)⟩
      | true =>
          rcases hle.eq_or_lt with heq | hlt
          · exact Or.inl ⟨hunder, hs, hrun, heq.symm⟩
          · exact Or.inr ⟨hunder, Or.inr (Or.inr hlt)⟩

/-- A call at work does not stop the threads: each of them has a line to take. -/
theorem Working.enabled {a : Act m} {p : Party m} (h : s.Working n x) (hturn : p.Turn a) :
    ∃ s', Holdem.step cfg s a = some s' := by
  cases p with
  | search =>
      cases a with
      | search expired => exact ⟨_, by rw [Holdem.step, if_pos h.searching]⟩
      | call k | consume j | kill => cases hturn
  | consumer i =>
      cases a with
      | consume j =>
          obtain ⟨r, hr⟩ := Research.consume_enabled (h.underway.alive h.running j)
          exact ⟨_, by rw [Holdem.step, hr, Option.map_some]⟩
      | call k | search expired | kill => cases hturn

end System

/-! ### One thread at a time -/

/-- A rank that no line of the threads at work raises, and that a line of the thread `p` brings
down. -/
theorem leads_working {R Q : System m → Prop} (rank : System m → Nat) (p : Party m)
    (hsearch : ∀ (s : System m) (expired : Bool) (s' : System m), s.Working n x → R s →
      s' = ⟨s.research.next cfg expired s.pc, s.research.effect cfg s.pc⟩ → s'.Working n x →
      Q s' ∨ R s' ∧ rank s' ≤ rank s ∧ (p = .search → rank s' < rank s))
    (hconsume : ∀ (s : System m) (i : Fin m) (r : Research m), s.Working n x → R s →
      s.research.consume i = some r → (⟨s.pc, r⟩ : System m).Working n x →
      Q ⟨s.pc, r⟩ ∨ R ⟨s.pc, r⟩ ∧ rank ⟨s.pc, r⟩ ≤ rank s ∧
        (p = .consumer i → rank ⟨s.pc, r⟩ < rank s)) :
    SearchLeads cfg (fun s => s.Working n x ∧ R s)
      (fun s => s.Away n x ∨ s.Working n x ∧ Q s) := by
  refine leads_of_steps rank p ?_ fun s a hP _ hturn => hP.1.enabled hturn
  rintro s a s' ⟨hw, hR⟩ ha hstep
  rcases hw.step ha hstep with hw' | haway
  · cases a with
    | call k => cases ha
    | kill =>
        simp only [step, Option.some.injEq] at hstep
        subst hstep
        cases hw'.running
    | search expired =>
        simp only [step, Option.ite_none_right_eq_some, Option.some.injEq] at hstep
        obtain ⟨-, rfl⟩ := hstep
        rcases hsearch s expired _ hw hR rfl hw' with hQ | ⟨hR', hle, hlt⟩
        · exact Or.inl (Or.inr ⟨hw', hQ⟩)
        · refine Or.inr ⟨⟨hw', hR'⟩, hle, fun hturn => hlt ?_⟩
          cases p with
          | search => rfl
          | consumer j => cases hturn
    | consume i =>
        simp only [step, Option.map_eq_some_iff] at hstep
        obtain ⟨r, hr, rfl⟩ := hstep
        rcases hconsume s i r hw hR hr hw' with hQ | ⟨hR', hle, hlt⟩
        · exact Or.inl (Or.inr ⟨hw', hQ⟩)
        · refine Or.inr ⟨⟨hw', hR'⟩, hle, fun hturn => hlt ?_⟩
          cases p with
          | search => cases hturn
          | consumer j =>
              obtain rfl : i = j := hturn
              rfl
  · exact Or.inl (Or.inl haway)

/-! ### A research task in hand -/

/-- A consumer that is processing a research task gets through with it. -/
theorem leads_of_processing (i : Fin m) (id : Nat) :
    SearchLeads cfg
      (fun s => s.Working n x ∧ s.research.consumers i = .processing (.research id))
      (fun s => s.Away n x ∨
        s.Working n x ∧ s.research.consumers i = .counting (.research id)) := by
  refine leads_working (fun _ => 0) (.consumer i) ?_ ?_
  · rintro s expired s' - hi rfl -
    refine Or.inr ⟨?_, Nat.le_refl _, fun h => by cases h⟩
    simpa only [Research.effect_consumers] using hi
  · intro s j r _ hi hr _
    by_cases hj : j = i
    · subst hj
      simp only [Research.consume, hi, Option.some.injEq] at hr
      subst hr
      exact Or.inl (Function.update_self ..)
    · obtain ⟨c, hc⟩ := (Research.consume_moves hr).2
      refine Or.inr ⟨?_, Nat.le_refl _, fun h => ?_⟩
      · simpa only [hc, Function.update_of_ne (Ne.symm hj)] using hi
      · cases h
        exact absurd rfl hj

/-- A research task that is through gets counted. -/
theorem leads_of_counting (i : Fin m) (id : Nat) :
    SearchLeads cfg
      (fun s => s.Working n x ∧ s.research.consumers i = .counting (.research id))
      (fun s => s.Away n x ∨ s.Working n x ∧ False) := by
  refine leads_working (fun _ => 0) (.consumer i) ?_ ?_
  · rintro s expired s' - hi rfl -
    refine Or.inr ⟨?_, Nat.le_refl _, fun h => by cases h⟩
    simpa only [Research.effect_consumers] using hi
  · intro s j r hw hi hr hw'
    by_cases hj : j = i
    · subst hj
      simp only [Research.consume, hi, Option.some.injEq] at hr
      subst hr
      have hcount : s.research.numProcessed + 1 = x := hw'.processed
      rw [hw.processed] at hcount
      exact absurd hcount (Nat.succ_ne_self x)
    · obtain ⟨c, hc⟩ := (Research.consume_moves hr).2
      refine Or.inr ⟨?_, Nat.le_refl _, fun h => ?_⟩
      · simpa only [hc, Function.update_of_ne (Ne.symm hj)] using hi
      · cases h
        exact absurd rfl hj

/-- A research task that a consumer holds gets counted. -/
theorem leads_of_held :
    SearchLeads cfg
      (fun s : System m =>
        s.Working n x ∧ ∃ i, ∃ t ∈ (s.research.consumers i).task, t.IsResearch)
      (fun s => s.Away n x ∨ s.Working n x ∧ False) := by
  rintro sched hfair s ⟨hw, i, t, ht, hr⟩
  cases t with
  | discount a | strategy a => cases hr
  | research id =>
      cases hi : s.research.consumers i with
      | testing | fetching | exited =>
          rw [hi] at ht
          cases ht
      | processing u =>
          rw [hi] at ht
          cases ht
          exact (leads_of_processing i id).then_ (leads_of_counting i id) sched hfair s ⟨hw, hi⟩
      | counting u =>
          rw [hi] at ht
          cases ht
          exact leads_of_counting i id sched hfair s ⟨hw, hi⟩

/-! ### A research task in the queue -/

/-- What is pushed behind a research task does not come before it. -/
theorem ahead_append {p : List Task} (h : ∃ t ∈ p, t.IsResearch) (q : List Task) :
    ahead (p ++ q) = ahead p := by
  induction p with
  | nil =>
      obtain ⟨t, ht, -⟩ := h
      cases ht
  | cons u p ih =>
      cases u with
      | research id => rfl
      | discount a | strategy a =>
          refine congrArg (· + 1) (ih ?_)
          obtain ⟨t, ht, hr⟩ := h
          rcases List.mem_cons.mp ht with rfl | ht
          · cases hr
          · exact ⟨t, ht, hr⟩

/-- A research task that is queued is taken: the consumers take one task after the other, and the
tasks of the phases come behind it. -/
theorem leads_of_queued (i₀ : Fin m) :
    SearchLeads cfg
      (fun s : System m => s.Working n x ∧ ∃ t ∈ s.research.tqResearch, t.IsResearch)
      (fun s => s.Away n x ∨
        s.Working n x ∧ ∃ i, ∃ t ∈ (s.research.consumers i).task, t.IsResearch) := by
  refine leads_working
    (fun s => 4 * ahead s.research.tqResearch + (s.research.consumers i₀).toFetch)
    (.consumer i₀) ?_ ?_
  · rintro s expired s' - hq rfl hw'
    have hpc : s.pc ≠ .cleaning := by
      intro hpc
      have hs := hw'.searching
      simp only [hpc, Research.next, Pc.searching] at hs
      cases hs
    obtain ⟨q, hq'⟩ := Research.effect_queue cfg s.research hpc
    simp only [hq', ahead_append hq, Research.effect_consumers]
    refine Or.inr ⟨?_, Nat.le_refl _, fun h => by cases h⟩
    obtain ⟨t, ht, hr⟩ := hq
    exact ⟨t, List.mem_append_left q ht, hr⟩
  · rintro s i r hw ⟨t, ht, hres⟩ hr -
    rcases Research.consume_running hw.running hr with
      ⟨u, q, hq, hi, rfl⟩ | ⟨hq, c, hc, -, hlt⟩
    · -- the first task is taken: it is the research task, or one that stood before it
      cases u with
      | research id =>
          refine Or.inl ⟨i, .research id, ?_, trivial⟩
          simp only [Research.setConsumer, Function.update_self]
          rfl
      | discount a | strategy a =>
          rw [hq] at ht
          rcases List.mem_cons.mp ht with rfl | ht
          · cases hres
          · right
            simp only [Research.setConsumer, hq, ahead]
            by_cases hi₀ : i₀ = i
            · subst hi₀
              simp only [Function.update_self, hi, Consumer.toFetch]
              exact ⟨⟨t, ht, hres⟩, by omega, fun _ => by omega⟩
            · simp only [Function.update_of_ne hi₀]
              exact ⟨⟨t, ht, hres⟩, by omega, fun _ => by omega⟩
    · right
      have hlt := hlt (List.ne_nil_of_mem ht)
      simp only [hq, hc]
      by_cases hi₀ : i₀ = i
      · subst hi₀
        simp only [Function.update_self]
        exact ⟨⟨t, ht, hres⟩, by omega, fun _ => by omega⟩
      · simp only [Function.update_of_ne hi₀]
        refine ⟨⟨t, ht, hres⟩, Nat.le_refl _, fun h => ?_⟩
        cases h
        exact absurd rfl hi₀

/-! ### A wait -/

/-- Whatever is done, `R` stays until `Q` comes. -/
structure Stays (cfg : Config) (n : Int32) (x : Nat) (R Q : System m → Prop) : Prop where
  search : ∀ (s : System m) (expired : Bool) (s' : System m), s.Working n x → R s →
    s' = ⟨s.research.next cfg expired s.pc, s.research.effect cfg s.pc⟩ → s'.Working n x →
    Q s' ∨ R s'
  consume : ∀ (s : System m) (i : Fin m) (r : Research m), s.Working n x → R s →
    s.research.consume i = some r → (⟨s.pc, r⟩ : System m).Working n x →
    Q ⟨s.pc, r⟩ ∨ R ⟨s.pc, r⟩

/-- A line of a wait: the other line of it, or what follows. -/
theorem wait_next (cfg : Config) (expired : Bool) {r : Research m} {pc : Pc} {w : Wait}
    (hwait : pc.wait = some w) (hrun : r.consumeRunning = true) :
    (r.effect cfg pc).tqResearch = r.tqResearch ∧
      (r.next cfg expired pc = w.after ∨ (r.next cfg expired pc).wait = some w ∧
        (r.tqResearch = [] → pc = .waiting w ∧ r.next cfg expired pc = .checking w)) := by
  cases pc with
  | waiting w' =>
      cases hwait
      simp only [Research.next, Research.effect, hrun, if_true]
      exact ⟨trivial, Or.inr ⟨rfl, fun _ => ⟨trivial, trivial⟩⟩⟩
  | checking w' =>
      cases hwait
      simp only [Research.next, Research.effect]
      split
      · exact ⟨trivial, Or.inl rfl⟩
      · rename_i hne
        exact ⟨trivial, Or.inr ⟨rfl, fun h => absurd h hne⟩⟩
  | _ => cases hwait

/-- The queue that `search` waits for runs empty, unless the wait is over before. -/
theorem leads_of_waiting {R Q : System m → Prop} (hR : Stays cfg n x R Q) (i₀ : Fin m) (w : Wait) :
    SearchLeads cfg (fun s => s.Working n x ∧ s.pc.wait = some w ∧ R s)
      (fun s => s.Away n x ∨ s.Working n x ∧ (Q s ∨ s.pc = w.after ∧ R s ∨
        s.pc.wait = some w ∧ s.research.tqResearch = [] ∧ R s)) := by
  refine leads_working
    (fun s => 4 * s.research.tqResearch.length + (s.research.consumers i₀).toFetch)
    (.consumer i₀) ?_ ?_
  · rintro s expired s' hw ⟨hwait, hs⟩ rfl hw'
    rcases hR.search s expired _ hw hs rfl hw' with hQ | hs'
    · exact Or.inl (Or.inl hQ)
    · obtain ⟨hq, hafter | ⟨hwait', -⟩⟩ :=
        wait_next cfg expired hwait hw.running
      · exact Or.inl (Or.inr (Or.inl ⟨hafter, hs'⟩))
      · refine Or.inr ⟨⟨hwait', hs'⟩, ?_, fun h => by cases h⟩
        simp only [hq, Research.effect_consumers]
        exact Nat.le_refl _
  · rintro s i r hw ⟨hwait, hs⟩ hr hw'
    rcases hR.consume s i r hw hs hr hw' with hQ | hs'
    · exact Or.inl (Or.inl hQ)
    · rcases Research.consume_running hw.running hr with
        ⟨t, q, hq, hi, rfl⟩ | ⟨hq, c, hc, -, hlt⟩
      · right
        simp only [Research.setConsumer, hq, List.length_cons]
        by_cases hi₀ : i₀ = i
        · subst hi₀
          simp only [Function.update_self, hi, Consumer.toFetch]
          exact ⟨⟨hwait, hs'⟩, by omega, fun _ => by omega⟩
        · simp only [Function.update_of_ne hi₀]
          exact ⟨⟨hwait, hs'⟩, by omega, fun _ => by omega⟩
      · by_cases hempty : s.research.tqResearch = []
        · exact Or.inl (Or.inr (Or.inr ⟨hwait, hq.trans hempty, hs'⟩))
        · right
          have hlt := hlt hempty
          simp only [hq, hc]
          by_cases hi₀ : i₀ = i
          · subst hi₀
            simp only [Function.update_self]
            exact ⟨⟨hwait, hs'⟩, by omega, fun _ => by omega⟩
          · simp only [Function.update_of_ne hi₀]
            refine ⟨⟨hwait, hs'⟩, Nat.le_refl _, fun h => ?_⟩
            cases h
            exact absurd rfl hi₀

/-- With the queue empty, the wait is over after two lines. -/
theorem leads_of_empty {R Q : System m → Prop} (hR : Stays cfg n x R Q) (w : Wait) :
    SearchLeads cfg
      (fun s => s.Working n x ∧ s.pc.wait = some w ∧ s.research.tqResearch = [] ∧ R s)
      (fun s => s.Away n x ∨ s.Working n x ∧ (Q s ∨ s.pc = w.after ∧ R s)) := by
  refine leads_working (fun s => if s.pc = .waiting w then 1 else 0) .search ?_ ?_
  · rintro s expired s' hw ⟨hwait, hempty, hs⟩ rfl hw'
    rcases hR.search s expired _ hw hs rfl hw' with hQ | hs'
    · exact Or.inl (Or.inl hQ)
    · obtain ⟨hq, hafter | ⟨hwait', hlines⟩⟩ :=
        wait_next cfg expired hwait hw.running
      · exact Or.inl (Or.inr ⟨hafter, hs'⟩)
      · obtain ⟨hpc, hnext⟩ := hlines hempty
        refine Or.inr ⟨⟨hwait', hq.trans hempty, hs'⟩, ?_⟩
        have hne : ¬ Pc.checking w = .waiting w := Pc.noConfusion
        simp only [if_pos hpc, hnext, if_neg hne]
        exact ⟨Nat.zero_le _, fun _ => Nat.zero_lt_one⟩
  · rintro s i r hw ⟨hwait, hempty, hs⟩ hr hw'
    rcases hR.consume s i r hw hs hr hw' with hQ | hs'
    · exact Or.inl (Or.inl hQ)
    · rcases Research.consume_running hw.running hr with ⟨t, q, hq, -, -⟩ | ⟨hq, -⟩
      · rw [hempty] at hq
        cases hq
      · refine Or.inr ⟨⟨hwait, hq.trans hempty, hs'⟩, Nat.le_refl _, fun h => ?_⟩
        cases h

/-- Every wait comes to its end. -/
theorem leads_of_wait {R Q : System m → Prop} (hR : Stays cfg n x R Q) (i₀ : Fin m) (w : Wait) :
    SearchLeads cfg (fun s => s.Working n x ∧ s.pc.wait = some w ∧ R s)
      (fun s => s.Away n x ∨ s.Working n x ∧ (Q s ∨ s.pc = w.after ∧ R s)) := by
  refine (leads_of_waiting hR i₀ w).then_ ?_
  rintro sched hfair s ⟨hw, hQ | hafter | hempty⟩
  · exact ⟨0, Or.inr ⟨hw, Or.inl hQ⟩⟩
  · exact ⟨0, Or.inr ⟨hw, Or.inr hafter⟩⟩
  · exact leads_of_empty hR w sched hfair s ⟨hw, hempty⟩

end Holdem
