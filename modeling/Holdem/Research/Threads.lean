import Holdem.Research.Returns

/-!
# Research — Threads

The consumer threads of a `Research`, from `init` to `wait`.  `init` starts them one by one and
counts each after it was started; a consumer counts itself out when it is through; `wait` looks at
the count alone.  The constructor does not set the count.

In every reachable state the count is the number that was there, plus the threads counted, less the
threads gone, modulo `2 ^ 32` (`Pool.Tallied`).  So `wait` joins the threads of an initialised
`Research` exactly when the count began at zero (`wait_joins_iff`), and after `kill` every fair
schedule then brings all threads to their end and `wait` to its return (`wait_returns`).
-/

namespace Holdem
open Support

variable {m : Nat}

/-- Where `init` stands in its loop over the threads. -/
inductive Starting
  /-- `i < threadNum`, and the start of the thread `i`. -/
  | spawning (i : Nat)
  /-- `numTaskThread++`, for the thread `i`. -/
  | counting (i : Nat)
  | finished
  deriving DecidableEq, Repr

/-- How many of the `m` threads were started. -/
def Starting.spawned (m : Nat) : Starting → Nat
  | .spawning i => i
  | .counting i => i + 1
  | .finished   => m

/-- How many of the `m` threads were counted. -/
def Starting.counted (m : Nat) : Starting → Nat
  | .spawning i | .counting i => i
  | .finished                 => m

/-- A `Research` with its threads. -/
structure Pool (m : Nat) where
  system : System m
  starting : Starting
  /-- The thread is through with `numTaskThread--`. -/
  gone : Fin m → Bool
  numTaskThread : UInt32

/-- A new `Research`, with whatever stands in the memory of `numTaskThread`. -/
def Pool.new (m : Nat) (numTaskThread : UInt32) : Pool m where
  system := System.fresh m
  starting := .spawning 0
  gone := fun _ => false
  numTaskThread := numTaskThread

/-- What can happen next: a line of `init`, or one of the threads of the system. -/
inductive PoolAct (m : Nat)
  | init
  | act (a : Act m)

/-- The system takes a step. -/
def Pool.act (cfg : Config) (p : Pool m) (a : Act m) : Option (Pool m) :=
  (step cfg p.system a).map fun s => { p with system := s }

/-- A step of the threads.  A consumer that was not started does nothing, and one that has left its
loop counts itself out. -/
def poolStep (cfg : Config) (p : Pool m) : PoolAct m → Option (Pool m)
  | .init =>
    match p.starting with
    | .spawning i => some { p with starting := if i < m then .counting i else .finished }
    | .counting i => some { p with
        starting := .spawning (i + 1)
        numTaskThread := p.numTaskThread + 1 }
    | .finished   => none
  | .act (.consume i) =>
    if i < p.starting.spawned m then
      if p.system.research.consumers i = .exited then
        if p.gone i then none
        else some { p with
          gone := Function.update p.gone i true
          numTaskThread := p.numTaskThread - 1 }
      else p.act cfg (.consume i)
    else none
  | .act (.call n)    => p.act cfg (.call n)
  | .act (.search e)  => p.act cfg (.search e)
  | .act .kill        => p.act cfg .kill

/-- `wait` returns: `numTaskThread > 0` does not hold. -/
def Pool.WaitReturns (p : Pool m) : Prop := p.numTaskThread = 0

/-- Every thread is through with its last line. -/
def Pool.AllGone (p : Pool m) : Prop := ∀ i, p.gone i = true

/-! ### The count -/

/-- How many threads are gone. -/
def Pool.goneNum (p : Pool m) : Nat := total Bool.toNat p.gone

/-- The count is the number `c` that was there, with the threads counted and without those gone. -/
structure Pool.Tallied (c : UInt32) (p : Pool m) : Prop where
  count : p.numTaskThread + UInt32.ofNat p.goneNum =
    c + UInt32.ofNat (p.starting.counted m)
  within : p.starting.spawned m ≤ m
  exited : ∀ i, p.gone i = true → p.system.research.consumers i = .exited

variable {cfg : Config} {p p' : Pool m} {c : UInt32} {a : PoolAct m}

/-- What a step does: `init` takes a line, a consumer counts itself out, or the system takes a step,
in which a consumer that has exited does not move. -/
inductive PoolStep (cfg : Config) (p : Pool m) : PoolAct m → Pool m → Prop
  | spawn (i : Nat) (h : p.starting = .spawning i) :
      PoolStep cfg p .init { p with starting := if i < m then .counting i else .finished }
  | count (i : Nat) (h : p.starting = .counting i) :
      PoolStep cfg p .init { p with
        starting := .spawning (i + 1)
        numTaskThread := p.numTaskThread + 1 }
  | leave (i : Fin m) (h : p.system.research.consumers i = .exited) (hgone : p.gone i = false) :
      PoolStep cfg p (.act (.consume i)) { p with
        gone := Function.update p.gone i true
        numTaskThread := p.numTaskThread - 1 }
  | act (a : Act m) (s : System m) (h : step cfg p.system a = some s)
      (hexit : ∀ i, a = .consume i → p.system.research.consumers i ≠ .exited) :
      PoolStep cfg p (.act a) { p with system := s }

theorem poolStep_cases (h : poolStep cfg p a = some p') : PoolStep cfg p a p' := by
  cases a with
  | init =>
      cases hs : p.starting with
      | spawning i =>
          simp only [poolStep, hs, Option.some.injEq] at h
          subst h
          exact .spawn i hs
      | counting i =>
          simp only [poolStep, hs, Option.some.injEq] at h
          subst h
          exact .count i hs
      | finished =>
          simp only [poolStep, hs] at h
          cases h
  | act a =>
      cases a with
      | consume i =>
          simp only [poolStep, Option.ite_none_right_eq_some] at h
          obtain ⟨-, h⟩ := h
          by_cases hexit : p.system.research.consumers i = .exited
          · rw [if_pos hexit, Option.ite_none_left_eq_some] at h
            obtain ⟨hgone, h⟩ := h
            cases h
            exact .leave i hexit (Bool.eq_false_of_not_eq_true hgone)
          · rw [if_neg hexit, Pool.act, Option.map_eq_some_iff] at h
            obtain ⟨s, hs, rfl⟩ := h
            refine .act (.consume i) s hs ?_
            rintro j hj
            cases hj
            exact hexit
      | call n | search e | kill =>
          simp only [poolStep, Pool.act, Option.map_eq_some_iff] at h
          obtain ⟨s, hs, rfl⟩ := h
          exact .act _ s hs fun i hi => by cases hi

/-- A step of the system moves the consumer whose line it is, and no other. -/
theorem consumers_of_step {s s' : System m} {a : Act m} {i : Fin m} (ha : a ≠ .consume i)
    (h : step cfg s a = some s') : s'.research.consumers i = s.research.consumers i := by
  cases a with
  | call n =>
      simp only [step, Option.ite_none_left_eq_some, Option.some.injEq] at h
      obtain ⟨-, rfl⟩ := h
      rfl
  | search e =>
      simp only [step, Option.ite_none_right_eq_some, Option.some.injEq] at h
      obtain ⟨-, rfl⟩ := h
      exact congrFun (Research.effect_consumers cfg s.research s.pc) i
  | kill =>
      simp only [step, Option.some.injEq] at h
      subst h
      rfl
  | consume j =>
      simp only [step, Option.map_eq_some_iff] at h
      obtain ⟨r, hr, rfl⟩ := h
      obtain ⟨c, hc⟩ := (Research.consume_moves hr).2
      have hj : i ≠ j := fun hij => ha (hij ▸ rfl)
      simp only [hc, Function.update_of_ne hj]

namespace Pool

theorem Tallied.new (m : Nat) (c : UInt32) : (Pool.new m c).Tallied c where
  count := by
    have hzero : (Pool.new m c).goneNum = 0 := total_eq_zero_iff.mpr fun _ => rfl
    rw [hzero]
    rfl
  within := Nat.zero_le m
  exited := fun _ h => by cases h

theorem Tallied.step (h : p.Tallied c) (hstep : poolStep cfg p a = some p') : p'.Tallied c := by
  have hcount := h.count
  have hwithin := h.within
  cases poolStep_cases hstep with
  | spawn i hs =>
      rw [hs] at hcount hwithin
      by_cases hi : i < m
      · refine ⟨?_, ?_, h.exited⟩
        · simp only [if_pos hi]
          exact hcount
        · simp only [if_pos hi]
          exact hi
      · obtain rfl : i = m := Nat.le_antisymm hwithin (Nat.not_lt.mp hi)
        refine ⟨?_, ?_, h.exited⟩
        · simp only [if_neg hi]
          exact hcount
        · simp only [if_neg hi]
          exact Nat.le_refl i
  | count i hs =>
      rw [hs] at hcount hwithin
      refine ⟨?_, hwithin, h.exited⟩
      simp only [Starting.counted, UInt32.ofNat_add, goneNum] at hcount ⊢
      grind
  | leave i hexit hgone =>
      have htotal := total_update Bool.toNat p.gone i true
      rw [hgone] at htotal
      refine ⟨?_, hwithin, fun j hj => ?_⟩
      · have hnum : total Bool.toNat (Function.update p.gone i true) = p.goneNum + 1 := htotal
        simp only [goneNum, hnum, UInt32.ofNat_add] at hcount ⊢
        grind
      · by_cases hji : j = i
        · exact hji ▸ hexit
        · exact h.exited j (by simpa only [Function.update_of_ne hji] using hj)
  | act a s hs hne =>
      refine ⟨hcount, hwithin, fun j hj => ?_⟩
      have hexit := h.exited j hj
      exact (consumers_of_step (fun ha => hne j ha hexit) hs).trans hexit

/-- All threads are gone when the number of those gone is `m`. -/
theorem goneNum_eq_iff (p : Pool m) : p.goneNum ≤ m ∧ (p.goneNum = m ↔ p.AllGone) := by
  have hsum : p.goneNum + total (fun b => (!b).toNat) p.gone = m := by
    calc p.goneNum + total (fun b => (!b).toNat) p.gone
        = ∑ i : Fin m, ((p.gone i).toNat + (!p.gone i).toNat) := by
          simp only [goneNum, total, Finset.sum_add_distrib]
      _ = ∑ _i : Fin m, 1 := Finset.sum_congr rfl fun i _ => by cases p.gone i <;> rfl
      _ = m := by rw [Finset.sum_const, Finset.card_univ, Fintype.card_fin]; exact Nat.mul_one m
  have hzero : total (fun b => (!b).toNat) p.gone = 0 ↔ p.AllGone := by
    refine total_eq_zero_iff.trans (forall_congr' fun i => ?_)
    cases p.gone i <;> decide
  refine ⟨by omega, ?_⟩
  rw [← hzero]
  omega

/-- Once `init` is over, the count is zero exactly when all threads are gone, if it began at
zero. -/
theorem Tallied.waitReturns_iff (h : p.Tallied 0) (hm : m < 2 ^ 32)
    (hover : p.starting = .finished) : p.WaitReturns ↔ p.AllGone := by
  obtain ⟨hle, hall⟩ := p.goneNum_eq_iff
  have hcount := h.count
  rw [hover, Starting.counted, UInt32.zero_add] at hcount
  rw [← hall, WaitReturns]
  constructor
  · intro hz
    rw [hz, UInt32.zero_add] at hcount
    have hnat := congrArg UInt32.toNat hcount
    rwa [UInt32.toNat_ofNat_of_lt' (Nat.lt_of_le_of_lt hle hm), UInt32.toNat_ofNat_of_lt' hm]
      at hnat
  · intro hz
    rw [hz] at hcount
    grind

/-- Once `init` is over and all threads are gone, what is left of the count is what was there. -/
theorem Tallied.count_of_allGone (h : p.Tallied c) (hover : p.starting = .finished)
    (hall : p.AllGone) : p.numTaskThread = c := by
  have hcount := h.count
  rw [p.goneNum_eq_iff.2.mpr hall, hover] at hcount
  simp only [Starting.counted] at hcount
  grind

end Pool

theorem tallied_of_run {as : List (PoolAct m)}
    (hrun : run (poolStep cfg) (Pool.new m c) as = some p) : p.Tallied c :=
  run_invariant (fun _ _ _ h hstep => h.step hstep) (Pool.Tallied.new m c) hrun

/-! ### After `kill` -/

/-- The thread of `init`, and the consumers. -/
inductive PoolParty (m : Nat)
  | init
  | consumer (i : Fin m)

/-- The lines of a thread. -/
def PoolParty.Turn : PoolParty m → PoolAct m → Prop
  | .init,       .init            => True
  | .consumer i, .act (.consume j) => j = i
  | _,           _                => False

/-- What the threads lead to under every fair schedule, whatever else is done. -/
abbrev PoolLeads (cfg : Config) (P Q : Pool m → Prop) : Prop :=
  Leads (poolStep cfg) (fun _ => True) PoolParty.Turn P Q

/-- The lines of `init` that are left. -/
def Starting.left (m : Nat) : Starting → Nat
  | .spawning i => 2 * (m - i) + 1
  | .counting i => 2 * (m - i)
  | .finished   => 0

/-- `kill` was called, and `init` counts no thread that is not there. -/
structure Pool.Killed (p : Pool m) : Prop where
  killed : p.system.research.consumeRunning = false
  within : p.starting.spawned m ≤ m

/-- `kill` cannot be taken back. -/
theorem killed_of_step {s s' : System m} {a : Act m} (hkill : s.research.consumeRunning = false)
    (h : step cfg s a = some s') : s'.research.consumeRunning = false := by
  cases a with
  | call n =>
      simp only [step, Option.ite_none_left_eq_some, Option.some.injEq] at h
      obtain ⟨-, rfl⟩ := h
      exact hkill
  | kill =>
      simp only [step, Option.some.injEq] at h
      subst h
      rfl
  | search e => exact (left_step (a := .search e) hkill trivial h).1
  | consume i => exact (left_step (a := .consume i) hkill trivial h).1

namespace Pool

theorem Killed.step (h : p.Killed) (hstep : poolStep cfg p a = some p') : p'.Killed := by
  cases poolStep_cases hstep with
  | spawn i hs =>
      have hwithin := h.within
      rw [hs] at hwithin
      refine ⟨h.killed, ?_⟩
      by_cases hi : i < m
      · simp only [if_pos hi]
        exact hi
      · simp only [if_neg hi]
        exact Nat.le_refl m
  | count i hs =>
      have hwithin := h.within
      rw [hs] at hwithin
      exact ⟨h.killed, hwithin⟩
  | leave i hexit hgone => exact ⟨h.killed, h.within⟩
  | act a s hs hne => exact ⟨killed_of_step h.killed hs, h.within⟩

/-- Once `init` is over it stays so. -/
theorem finished_step (h : p.starting = .finished) (hstep : poolStep cfg p a = some p') :
    p'.starting = .finished := by
  cases poolStep_cases hstep with
  | spawn i hs | count i hs => cases h.symm.trans hs
  | leave i hexit hgone => exact h
  | act a s hs hne => exact h

/-- A thread that is gone stays so. -/
theorem gone_step {i : Fin m} (h : p.gone i = true) (hstep : poolStep cfg p a = some p') :
    p'.gone i = true := by
  cases poolStep_cases hstep with
  | spawn j hs | count j hs => exact h
  | act a s hs hne => exact h
  | leave j hexit hgone =>
      by_cases hij : i = j
      · exact hij ▸ Function.update_self i true p.gone
      · simpa only [Function.update_of_ne hij] using h

end Pool

/-- `init` comes to its end. -/
theorem leads_over : PoolLeads (m := m) cfg (fun p => p.Killed)
    fun p => p.Killed ∧ p.starting = .finished := by
  have hstart : PoolLeads cfg (fun p : Pool m => p.Killed ∧ p.starting ≠ .finished)
      fun p => p.Killed ∧ p.starting = .finished := by
    refine leads_of_steps (fun p => p.starting.left m) PoolParty.init ?_ ?_
    · rintro p a p' ⟨hk, hne⟩ - hstep
      have hk' := hk.step hstep
      by_cases hover : p'.starting = .finished
      · exact Or.inl ⟨hk', hover⟩
      · refine Or.inr ⟨⟨hk', hover⟩, ?_⟩
        cases poolStep_cases hstep with
        | spawn i hs =>
            by_cases hi : i < m
            · simp only [if_pos hi, hs, Starting.left]
              omega
            · exact absurd (if_neg hi) hover
        | count i hs =>
            have hi := hk.within
            simp only [hs, Starting.spawned] at hi
            simp only [hs, Starting.left]
            omega
        | leave i hexit hgone => exact ⟨Nat.le_refl _, fun ht => ht.elim⟩
        | act a s hs hne => exact ⟨Nat.le_refl _, fun ht => by cases a <;> exact ht.elim⟩
    · rintro p a ⟨-, hne⟩ - hturn
      cases a with
      | act a => cases a <;> exact hturn.elim
      | init =>
          cases hs : p.starting with
          | finished => exact absurd hs hne
          | spawning i | counting i => exact ⟨_, by simp only [poolStep, hs]; rfl⟩
  intro sched hfair p hp
  by_cases hover : p.starting = .finished
  · exact ⟨0, hp, hover⟩
  · exact hstart sched hfair p ⟨hp, hover⟩

/-- Every thread comes to its end. -/
theorem leads_gone (i : Fin m) : PoolLeads cfg (fun p : Pool m => p.Killed ∧ p.starting = .finished)
    fun p => p.gone i = true := by
  have hstart : PoolLeads cfg
      (fun p : Pool m => (p.Killed ∧ p.starting = .finished) ∧ p.gone i = false)
      fun p => p.gone i = true := by
    refine leads_of_steps (fun p => (p.system.research.consumers i).left) (PoolParty.consumer i)
      ?_ ?_
    · rintro p a p' ⟨⟨hk, hover⟩, hi⟩ - hstep
      cases hgone : p'.gone i with
      | true => exact Or.inl rfl
      | false =>
          refine Or.inr ⟨⟨⟨hk.step hstep, Pool.finished_step hover hstep⟩, rfl⟩, ?_⟩
          cases poolStep_cases hstep with
          | spawn j hs | count j hs => cases hover.symm.trans hs
          | leave j hexit hj =>
              refine ⟨Nat.le_refl _, fun ht => ?_⟩
              cases ht
              simp only [Function.update_self] at hgone
              cases hgone
          | act a s hs hne =>
              by_cases ha : a = .consume i
              · subst ha
                simp only [step, Option.map_eq_some_iff] at hs
                obtain ⟨r, hr, rfl⟩ := hs
                obtain ⟨c, hc, hlt⟩ := Research.left_consume hk.killed hr
                simp only [hc, Function.update_self]
                exact ⟨Nat.le_of_lt hlt, fun _ => hlt⟩
              · rw [consumers_of_step ha hs]
                refine ⟨Nat.le_refl _, fun ht => absurd ?_ ha⟩
                cases a with
                | consume j => exact congrArg Act.consume ht
                | call n | search e | kill => exact ht.elim
    · rintro p a ⟨⟨hk, hover⟩, hi⟩ - hturn
      cases a with
      | init => exact hturn.elim
      | act a =>
          cases a with
          | call n | search e | kill => exact hturn.elim
          | consume j =>
              cases hturn
              simp only [poolStep, hover, Starting.spawned, if_pos i.isLt]
              split
              · exact ⟨_, by rw [hi]; rfl⟩
              · rename_i hexit
                obtain ⟨r, hr⟩ := Research.consume_enabled hexit
                exact ⟨_, by simp only [Pool.act, step, hr, Option.map_some]; rfl⟩
  intro sched hfair p hp
  cases hi : p.gone i with
  | true => exact ⟨0, hi⟩
  | false => exact hstart sched hfair p ⟨hp, hi⟩

/-- `init` and all threads come to their end. -/
theorem leads_allGone : PoolLeads (m := m) cfg (fun p => p.Killed)
    fun p => p.starting = .finished ∧ p.AllGone := by
  have hall : PoolLeads cfg (fun p : Pool m => p.Killed ∧ p.starting = .finished) Pool.AllGone :=
    Leads.all (fun i p a p' h _ hstep => Pool.gone_step h hstep) leads_gone
  refine leads_over.trans ?_
  intro sched hfair p hp
  obtain ⟨n, hn⟩ := hall sched hfair p hp
  exact ⟨n, after_invariant (fun _ _ _ h _ => Pool.finished_step h) hfair hp.2 n, hn⟩

/-! ### `wait` -/

/-- The thread of `init` and the consumers in turn. -/
def inTurn (m : Nat) : Nat → PoolAct m :=
  roundRobin (Fin.cons .init fun i => .act (.consume i))

theorem fair_inTurn (m : Nat) : Fair (fun _ => True) PoolParty.Turn (inTurn m) := by
  refine fair_roundRobin (fun _ => trivial) ?_
  intro p
  cases p with
  | init => exact ⟨0, trivial⟩
  | consumer i => exact ⟨i.succ, rfl⟩

/-- **What `wait` waits for.**  Once `init` is over, `wait` returns exactly when every thread is
gone, in every interleaving of the threads, if and only if the memory of `numTaskThread` held zero
before `init`. -/
theorem wait_joins_iff (cfg : Config) (c : UInt32) (hm : m < 2 ^ 32) :
    (∀ as p, run (poolStep cfg) (Pool.new m c) as = some p → p.starting = .finished →
      (p.WaitReturns ↔ p.AllGone)) ↔ c = 0 := by
  constructor
  · intro hjoins
    -- Killed at once, the threads all come to their end; then the count is what it began with.
    obtain ⟨p₀, hkill⟩ : ∃ p₀, poolStep cfg (Pool.new m c) (.act .kill) = some p₀ := ⟨_, rfl⟩
    have hkilled : p₀.Killed := by
      cases hkill
      exact ⟨rfl, Nat.zero_le m⟩
    obtain ⟨n, hover, hall⟩ := leads_allGone _ (fair_inTurn m) p₀ hkilled
    obtain ⟨as, has⟩ : ∃ as, run (poolStep cfg) p₀ as =
        some (after (poolStep cfg) (inTurn m) p₀ n) := exists_run_after (inTurn m) p₀ n
    have hrun := (run_cons hkill as).trans has
    have hzero := (hjoins _ _ hrun hover).mpr hall
    exact ((tallied_of_run hrun).count_of_allGone hover hall).symm.trans hzero
  · rintro rfl as p hrun hover
    exact (tallied_of_run hrun).waitReturns_iff hm hover

theorem wait_joins_two :
    (∀ as p, run (poolStep pairConfig) (Pool.new 2 7) as = some p → p.starting = .finished →
      (p.WaitReturns ↔ p.AllGone)) ↔ (7 : UInt32) = 0 :=
  wait_joins_iff pairConfig 7 (by decide)

/-- **`wait` returns.**  Once `kill` was called, whatever is queued and whatever is done besides,
every fair schedule brings `init` and all threads to their end, and from then on `wait` returns. -/
theorem wait_returns (cfg : Config) (hm : m < 2 ^ 32) (as : List (PoolAct m)) (p : Pool m)
    (hrun : run (poolStep cfg) (Pool.new m 0) as = some p)
    (hkill : p.system.research.consumeRunning = false) (sched : Nat → PoolAct m)
    (hfair : Fair (fun _ => True) PoolParty.Turn sched) :
    ∃ n, ∀ k, (after (poolStep cfg) sched p (n + k)).starting = .finished ∧
      (after (poolStep cfg) sched p (n + k)).AllGone ∧
      (after (poolStep cfg) sched p (n + k)).WaitReturns := by
  have htallied := tallied_of_run hrun
  obtain ⟨n, hover, hall⟩ := leads_allGone sched hfair p ⟨hkill, htallied.within⟩
  refine ⟨n, fun k => ?_⟩
  have hover' : (after (poolStep cfg) sched p (n + k)).starting = .finished := by
    rw [after_add]
    exact after_invariant (fun _ _ _ h _ => Pool.finished_step h) (hfair.drop n) hover k
  have hall' : (after (poolStep cfg) sched p (n + k)).AllGone := by
    rw [after_add]
    exact fun i =>
      after_invariant (fun _ _ _ h _ => Pool.gone_step h) (hfair.drop n) (hall i) k
  have htallied' : (after (poolStep cfg) sched p (n + k)).Tallied 0 :=
    after_invariant (fun _ _ _ h _ hstep => h.step hstep) hfair htallied (n + k)
  exact ⟨hover', hall', (htallied'.waitReturns_iff hm hover').mpr hall'⟩

/-- Two threads are started, one of them takes two lines, and `kill` is called. -/
def twoStarted : List (PoolAct 2) :=
  [.init, .init, .init, .init, .init, .act (.consume (Fin.last 1)),
    .act (.consume (Fin.last 1)), .act .kill]

theorem wait_returns_two :
    ∃ p, run (poolStep pairConfig) (Pool.new 2 0) twoStarted = some p ∧
      ∃ n, ∀ k, (after (poolStep pairConfig) (inTurn 2) p (n + k)).starting = .finished ∧
        (after (poolStep pairConfig) (inTurn 2) p (n + k)).AllGone ∧
        (after (poolStep pairConfig) (inTurn 2) p (n + k)).WaitReturns :=
  ⟨_, rfl, wait_returns pairConfig (by decide) twoStarted _ rfl rfl (inTurn 2) (fair_inTurn 2)⟩

end Holdem
