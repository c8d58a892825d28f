import Holdem.Support.Runs
import Holdem.Support.Workers

/-!
# Research — Model

The search and its consumers.  `search` runs on one thread at a time (it holds `mtxReseach`), and
`consume` on each of `m` threads; they share the counters and the task queue, which is an atomic
FIFO.  A step is one line of one of them, so that every interleaving of their lines is a run.

The trace keeps, for the running call of `search`, the ids of the research tasks pushed and of those
that `Process` is through with, the tasks cleaned from the queue, and the values of `numIterations`
at which `parallelDiscount` and `parallelStrategy` were called.
-/

namespace Holdem
open Support

/-- A task, by its `mType`: of the research with this number, or of the discount or the strategy of
this agent. -/
inductive Task
  | research (mTaskId : Nat)
  | discount (mAgent : Nat)
  | strategy (mAgent : Nat)
  deriving DecidableEq, Repr

/-- What the task adds to `numProcessed`. -/
def Task.count : Task → Nat
  | .research _ => 1
  | _           => 0

/-- Where `consume` stands. -/
inductive Consumer
  /-- `while (consumeRunning)`. -/
  | testing
  /-- `tqResearch.Get(task)`. -/
  | fetching
  /-- `task.Process()`. -/
  | processing (task : Task)
  /-- `if (task.mType == TASK_TYPE_RESEARCH) numProcessed++`. -/
  | counting (task : Task)
  | exited
  deriving DecidableEq, Repr

/-- What the running call of `search` has seen. -/
structure Trace where
  pushed : List Nat
  finished : List Nat
  cleaned : List Task
  discounts : List Nat
  strategies : List Nat
  deriving DecidableEq, Repr

namespace Trace

/-- Nothing seen yet. -/
def empty : Trace := ⟨[], [], [], [], []⟩

/-- `Process` is through with the task. -/
def finish (tr : Trace) : Task → Trace
  | .research id => { tr with finished := tr.finished ++ [id] }
  | _            => tr

end Trace

/-- `Research`, with its consumer threads.  The counters never pass `maxIterations`, so they do not
wrap. -/
structure Research (m : Nat) where
  consumeRunning : Bool
  maxIterations : Nat
  numIterations : Nat
  numProcessed : Nat
  tqResearch : List Task
  consumers : Fin m → Consumer
  trace : Trace

/-- What `search` reads from the configuration and from the blueprint. -/
structure Config where
  mResearchCfrThreshold : Nat
  mResearchDiscountInterval : Nat
  mResearchStrategyInterval : Nat
  /-- `pluribus->getAgentSize()`. -/
  agentSize : Nat
  discount_pos : 0 < mResearchDiscountInterval
  strategy_pos : 0 < mResearchStrategyInterval

/-- How `search` leaves its loop. -/
inductive Exit
  | processed | timeout | killed
  deriving DecidableEq, Repr

/-- The calls of `waitTaskQueueIdle` in `search`. -/
inductive Wait
  /-- At the head of every turn. -/
  | training
  | beforeDiscount | afterDiscount
  | beforeStrategy | afterStrategy
  deriving DecidableEq, Repr

/-- Where `search` stands. -/
inductive Pc
  /-- Not running; `last` is how the last call left its loop. -/
  | idle (last : Option Exit)
  | resetIterations (iterations : Int32)
  | resetProcessed (iterations : Int32)
  | resetMax (iterations : Int32)
  /-- `while (consumeRunning)` of `search`. -/
  | running
  /-- `numProcessed == maxIterations`. -/
  | completed
  /-- `while (consumeRunning)` of `waitTaskQueueIdle`. -/
  | waiting (w : Wait)
  /-- `tqResearch.Empty()`. -/
  | checking (w : Wait)
  /-- `duration >= mResearchTimeout`. -/
  | timing
  | cleaning
  /-- `(numIterations > 0) && (numProcessed > 0)`. -/
  | started
  | threshold
  | discountDue
  /-- The call of `parallelDiscount`. -/
  | discount
  | pushDiscount (i : Nat)
  | strategyDue
  /-- The call of `parallelStrategy`. -/
  | strategy
  | pushStrategy (i : Nat)
  | taskDue
  /-- `++numIterations`. -/
  | increment
  /-- `tqResearch.Push(t)`, for the task with this id. -/
  | push (id : Nat)
  deriving DecidableEq

/-- Where `search` goes on after a wait. -/
def Wait.after : Wait → Pc
  | .training       => .timing
  | .beforeDiscount => .discount
  | .afterDiscount  => .strategyDue
  | .beforeStrategy => .strategy
  | .afterStrategy  => .taskDue

namespace Research

variable {m : Nat}

/-- `taskNum` of `search`, the difference taken as an `int`. -/
def taskNum (r : Research m) : Int :=
  let taskDif := ((r.maxIterations : Int) - r.numIterations).bmod (2 ^ 32)
  if taskDif < 1 then taskDif else 1

/-- The line of `search` after this one.  `expired` is whether the time is up, where the line asks
for it. -/
def next (cfg : Config) (expired : Bool) (r : Research m) : Pc → Pc
  | .idle last         => .idle last
  | .resetIterations n => .resetProcessed n
  | .resetProcessed n  => .resetMax n
  | .resetMax _        => .running
  | .running           => if r.consumeRunning then .completed else .idle (some .killed)
  | .completed         =>
    if r.numProcessed = r.maxIterations then .idle (some .processed) else .waiting .training
  | .waiting w         => if r.consumeRunning then .checking w else w.after
  | .checking w        => if r.tqResearch = [] then w.after else .waiting w
  | .timing            => if expired then .cleaning else .started
  | .cleaning          => .idle (some .timeout)
  | .started           =>
    if 0 < r.numIterations ∧ 0 < r.numProcessed then .threshold else .taskDue
  | .threshold         =>
    if r.numProcessed ≤ cfg.mResearchCfrThreshold then .discountDue else .strategyDue
  | .discountDue       =>
    if r.numIterations % cfg.mResearchDiscountInterval = 0 then .waiting .beforeDiscount
    else .strategyDue
  | .discount          => .pushDiscount 0
  | .pushDiscount i    =>
    if i < cfg.agentSize then .pushDiscount (i + 1) else .waiting .afterDiscount
  | .strategyDue       =>
    if r.numIterations % cfg.mResearchStrategyInterval = 0 then .waiting .beforeStrategy
    else .taskDue
  | .strategy          => .pushStrategy 0
  | .pushStrategy i    =>
    if i < cfg.agentSize then .pushStrategy (i + 1) else .waiting .afterStrategy
  | .taskDue           => if 0 < r.taskNum then .increment else .running
  | .increment         => .push (r.numIterations + 1)
  | .push _            => .running

/-- What a line of `search` does to the shared state. -/
def effect (cfg : Config) (r : Research m) : Pc → Research m
  | .resetIterations _ => { r with numIterations := 0 }
  | .resetProcessed _  => { r with numProcessed := 0 }
  | .resetMax n        => { r with maxIterations := n.toUInt32.toNat }
  | .cleaning          =>
    { r with
      tqResearch := []
      trace := { r.trace with cleaned := r.trace.cleaned ++ r.tqResearch } }
  | .discount          =>
    { r with trace := { r.trace with discounts := r.trace.discounts ++ [r.numIterations] } }
  | .pushDiscount i    =>
    if i < cfg.agentSize then { r with tqResearch := r.tqResearch ++ [.discount i] } else r
  | .strategy          =>
    { r with trace := { r.trace with strategies := r.trace.strategies ++ [r.numIterations] } }
  | .pushStrategy i    =>
    if i < cfg.agentSize then { r with tqResearch := r.tqResearch ++ [.strategy i] } else r
  | .increment         => { r with numIterations := r.numIterations + 1 }
  | .push id           =>
    { r with
      tqResearch := r.tqResearch ++ [.research id]
      trace := { r.trace with pushed := r.trace.pushed ++ [id] } }
  | .idle _ | .running | .completed | .waiting _ | .checking _ | .timing | .started | .threshold
  | .discountDue | .strategyDue | .taskDue => r

/-- One consumer moves. -/
def setConsumer (r : Research m) (i : Fin m) (c : Consumer) : Research m :=
  { r with consumers := Function.update r.consumers i c }

/-- A line of `consume`, on the thread `i`. -/
def consume (r : Research m) (i : Fin m) : Option (Research m) :=
  match r.consumers i with
  | .testing      => some (r.setConsumer i (if r.consumeRunning then .fetching else .exited))
  | .fetching     =>
    match r.tqResearch with
    | []     => some (r.setConsumer i .testing)
    | t :: q => some { r.setConsumer i (.processing t) with tqResearch := q }
  | .processing t =>
    some { r.setConsumer i (.counting t) with trace := r.trace.finish t }
  | .counting t   =>
    some { r.setConsumer i .testing with numProcessed := r.numProcessed + t.count }
  | .exited       => none

end Research

/-- The whole system: where `search` stands, and what it shares with the consumers. -/
structure System (m : Nat) where
  pc : Pc
  research : Research m

/-- What can happen next. -/
inductive Act (m : Nat)
  | call (iterations : Int32)
  /-- `search` takes a line, with the clock saying whether its time is up. -/
  | search (expired : Bool)
  | consume (i : Fin m)
  | kill

variable {m : Nat}

/-- `search` is running. -/
def Pc.searching : Pc → Bool
  | .idle _ => false
  | _       => true

/-- A step of the system. -/
def step (cfg : Config) (s : System m) : Act m → Option (System m)
  | .call n         =>
    if s.pc.searching then none
    else some ⟨.resetIterations n, { s.research with trace := .empty }⟩
  | .search expired =>
    if s.pc.searching then
      some ⟨s.research.next cfg expired s.pc, s.research.effect cfg s.pc⟩
    else none
  | .consume i      => (s.research.consume i).map fun r => ⟨s.pc, r⟩
  | .kill           => some ⟨s.pc, { s.research with consumeRunning := false }⟩

/-- A fresh `Research`, its consumers about to start. -/
def System.fresh (m : Nat) : System m where
  pc := .idle none
  research := {
    consumeRunning := true
    maxIterations := 2000
    numIterations := 0
    numProcessed := 0
    tqResearch := []
    consumers := fun _ => .testing
    trace := .empty }

/-- A configuration for the examples: one agent, and both intervals two. -/
def pairConfig : Config := ⟨100, 2, 2, 1, by decide, by decide⟩

/-- `search` takes `k` lines in its time. -/
def lines (k : Nat) : List (Act m) := List.replicate k (.search false)

/-- The thread `i` takes `k` lines. -/
def consumes (i : Fin m) (k : Nat) : List (Act m) := List.replicate k (.consume i)

end Holdem
