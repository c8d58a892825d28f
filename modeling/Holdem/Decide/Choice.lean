import Holdem.Decide.Stack
import Mathlib.Algebra.Ring.Rat

/-!
# Decide — Choice

How `handleRobotDecide2` chooses.  The weights come from `strategySum`, which names its actions as
the game tree does; what `getLegalActions2` does not offer is left out, and an empty `strategySum`
gives every offered action the same weight.  The action is drawn by the normalised weights.  Where
`strategySum` names actions but none that is offered, there is nothing to draw from, and the reply
keeps its default, a fold.

* `reply_cases`: the action drawn is one of those offered, or the reply is the default.
* `offered_iff`: every reply is the code of an offered action exactly when a fold would be, or there
  is something to draw from.
-/

namespace Holdem.Decide
open Support

/-- The name of an action in `validActions` and `strategySum`. -/
def Action.name : Action → String
  | .fold   => "FOLD"
  | .check  => "CHECK"
  | .call   => "CALL"
  | .raise1 => "RAISE1"
  | .raise2 => "RAISE2"
  | .raise3 => "RAISE3"
  | .raise4 => "RAISE4"
  | .raise5 => "RAISE5"
  | .raise6 => "RAISE6"
  | .allin  => "ALLIN"

theorem Action.name_injective : Function.Injective Action.name := by
  intro a b h
  cases a <;> cases b <;> first | rfl | exact absurd h (by decide)

/-! ### Drawing an action -/

/-- The probability that an offered action gets for its value in `strategySum`. -/
def weight (x : Rat) : Rat := if x > 0 then x else 0

/-- `actions` and `probabilities`, before these are normalised. -/
def candidates (validActions : List Action) (strategySum : Strategy) : List (Action × Rat) :=
  if strategySum = [] then validActions.map fun a => (a, 1 / validActions.length)
  else strategySum.filterMap fun x =>
    (validActions.find? fun a => a.name = x.1).map fun a => (a, weight x.2)

/-- `probabilities[v] / sumProbs` for each of them; `none` is not a number. -/
def normalised (probabilities : List Rat) : List (Option Rat) :=
  probabilities.map fun p =>
    if probabilities.sum = 0 then none else some (p / probabilities.sum)

/-- `std::discrete_distribution<int>`: an index of one of the probabilities; `Sampler.Sound` is that
none of 0 is drawn. -/
structure Sampler where
  pick : List (Option Rat) → Nat
  pick_lt : ∀ ps, ps ≠ [] → pick ps < ps.length

/-- The sampler that draws the first. -/
def Sampler.first : Sampler := ⟨fun _ => 0, fun _ h => List.length_pos_iff.mpr h⟩

/-- `actions[random_choice(mActionEng)]`, if there are any probabilities. -/
def draw (cs : List (Action × Rat)) (S : Sampler) : Option Action :=
  if h : normalised (cs.map Prod.snd) = [] then none
  else some (cs.get ⟨S.pick (normalised (cs.map Prod.snd)), by
    simpa [normalised] using S.pick_lt _ h⟩).1

/-- What the response says of the action, and the action drawn, if there was one to draw. -/
structure Reply where
  action : Option Action
  aiAct : Nat
  aiBet : Int
  deriving DecidableEq, Repr

/-- `aiAct` and `aiBet` as they are before the choice. -/
def Reply.default : Reply := ⟨none, 16, 0⟩

namespace DecisionState

/-- The reply for the action. -/
def replyWith (C : Configure) (d : DecisionState) (a : Action) : Reply :=
  ⟨some a, (d.choose C a).1, (d.choose C a).2⟩

/-- The choice from `strategySum`. -/
def reply (C : Configure) (d : DecisionState) (strategySum : Strategy) (S : Sampler) : Reply :=
  match draw (candidates (d.validActions C) strategySum) S with
  | none   => .default
  | some a => d.replyWith C a

end DecisionState

/-! ### The handler -/

/-- An engine with what the choice takes from elsewhere: the initial strategy of the game state, and
the draws of `mActionEng`. -/
structure Dealer (W : Type) extends Engine W where
  initialRegret : W → Strategy
  sampler : W → Sampler
  /-- The world after a draw. -/
  drawn : W → W

variable {W : Type}

/-- `strategySum` before the choice. -/
def Dealer.strategySum (D : Dealer W) (C : Configure) (q : Ready) (lookup : Option Lookup)
    (w : W) : Strategy :=
  if q.Searches C then (lookup.map Lookup.strategySum).getD []
  -- `regretNum` is still 0 without the search
  else D.initialRegret w

/-- `SessionHandle::handleRobotDecide2`, with the reply. -/
def handleRobotDecide2Rsp (C : Configure) (D : Dealer W) (s : Cards) (w : W) (r : Request) :
    Checked (Cards × W × Outcome Reply) := do
  match ← restore C D.toEngine s w r with
  | (s, w, .refused)   => .ok (s, w, .refused)
  | (s, w, .skipped)   => .ok (s, w, .skipped)
  | (s, w, .reached q) =>
    match search C D.toEngine q s w with
    | (s, w, .refused)        => .ok (s, w, .refused)
    | (s, w, .skipped)        => .ok (s, w, .skipped)
    | (s, w, .reached lookup) =>
      .ok (s, D.drawn w, .reached (q.state.reply C (D.strategySum C q lookup w) (D.sampler w)))

variable {C : Configure}

/-! ### Candidates -/

variable {validActions : List Action} {strategySum : Strategy} {d : DecisionState} {S : Sampler}

/-- Only offered actions are candidates. -/
theorem mem_of_candidate {x : Action × Rat} (h : x ∈ candidates validActions strategySum) :
    x.1 ∈ validActions := by
  unfold candidates at h
  split at h
  · obtain ⟨a, ha, rfl⟩ := List.mem_map.mp h
    exact ha
  · obtain ⟨y, -, hy⟩ := List.mem_filterMap.mp h
    obtain ⟨a, ha, rfl⟩ := Option.map_eq_some_iff.mp hy
    exact List.mem_of_find?_eq_some ha

/-- A candidate is named by `strategySum`, unless that is empty. -/
theorem name_of_candidate (hs : strategySum ≠ []) {x : Action × Rat}
    (h : x ∈ candidates validActions strategySum) : ∃ y ∈ strategySum, x.1.name = y.1 := by
  unfold candidates at h
  rw [if_neg hs] at h
  obtain ⟨y, hy, hx⟩ := List.mem_filterMap.mp h
  obtain ⟨a, ha, rfl⟩ := Option.map_eq_some_iff.mp hx
  have hname := List.find?_some ha
  exact ⟨y, hy, of_decide_eq_true hname⟩

/-- There is nothing to draw from when the names of `strategySum` are none of those offered. -/
theorem candidates_eq_nil_iff (hne : validActions ≠ []) :
    candidates validActions strategySum = [] ↔
      strategySum ≠ [] ∧ ∀ x ∈ strategySum, ∀ a ∈ validActions, a.name ≠ x.1 := by
  unfold candidates
  by_cases hs : strategySum = []
  · rw [if_pos hs]
    exact iff_of_false (fun h => hne (List.map_eq_nil_iff.mp h)) (fun h => h.1 hs)
  · rw [if_neg hs, List.filterMap_eq_nil_iff]
    simp only [Option.map_eq_none_iff, List.find?_eq_none, decide_eq_true_eq, ne_eq, hs,
      not_false_eq_true, true_and]

/-- There is something to draw exactly when there are candidates. -/
theorem draw_eq_none_iff {cs : List (Action × Rat)} : draw cs S = none ↔ cs = [] := by
  unfold draw
  split
  · next h => simpa [normalised] using h
  · next h => simpa [normalised] using h

theorem mem_of_draw {cs : List (Action × Rat)} {a : Action} (h : draw cs S = some a) :
    ∃ x ∈ cs, x.1 = a := by
  unfold draw at h
  split at h
  · cases h
  · cases h
    exact ⟨_, List.get_mem _ _, rfl⟩

namespace DecisionState

theorem validActions_ne_nil : d.validActions C ≠ [] := by
  by_cases hc : d.callSize = 0
  · have h : Action.check ∈ d.validActions C := mem_getLegalActions2.mpr hc
    exact List.ne_nil_of_mem h
  · have h : Action.call ∈ d.validActions C := mem_getLegalActions2.mpr hc
    exact List.ne_nil_of_mem h

/-- An offered action is drawn, or there is none to draw. -/
theorem reply_cases (C : Configure) (d : DecisionState) (strategySum : Strategy) (S : Sampler) :
    candidates (d.validActions C) strategySum = [] ∧ d.reply C strategySum S = .default ∨
      ∃ x ∈ candidates (d.validActions C) strategySum,
        d.reply C strategySum S = d.replyWith C x.1 := by
  cases hdraw : draw (candidates (d.validActions C) strategySum) S with
  | none => exact .inl ⟨draw_eq_none_iff.mp hdraw, by simp only [reply, hdraw]⟩
  | some a =>
      obtain ⟨x, hx, rfl⟩ := mem_of_draw hdraw
      exact .inr ⟨x, hx, by simp only [reply, hdraw]⟩

/-- An action that is offered and alone in `strategySum` is chosen. -/
theorem reply_of_single {a : Action} (ha : a ∈ d.validActions C) (x : Rat) :
    d.reply C [(a.name, x)] S = d.replyWith C a := by
  have hs : [(a.name, x)] ≠ [] := List.cons_ne_nil _ _
  rcases reply_cases C d [(a.name, x)] S with
    ⟨hcs, -⟩ | ⟨y, hy, hreply⟩
  · obtain ⟨-, hno⟩ := (candidates_eq_nil_iff validActions_ne_nil).mp hcs
    exact absurd rfl (hno _ List.mem_cons_self a ha)
  · obtain ⟨z, hz, hname⟩ := name_of_candidate hs hy
    rw [List.mem_singleton.mp hz] at hname
    rw [hreply, Action.name_injective hname]

/-- Only a fold has the code of the default. -/
theorem choose_fst_eq_sixteen {a : Action} (h : (d.choose C a).1 = 16) : a = .fold := by
  cases a with
  | fold => rfl
  | call =>
      simp only [choose] at h
      split at h
      · cases h
      · cases h
  | check | raise1 | raise2 | raise3 | raise4 | raise5 | raise6 | allin => cases h

/-- **Replies and offered actions.**  Whatever is drawn, the reply has the code of an offered
action, exactly when `strategySum` is empty, or names an offered action, or a fold is offered. -/
theorem offered_iff (C : Configure) (d : DecisionState) (strategySum : Strategy) :
    (∀ S : Sampler, ∃ a ∈ d.validActions C,
      (d.choose C a).1 = (d.reply C strategySum S).aiAct) ↔
    strategySum = [] ∨ (∃ x ∈ strategySum, ∃ a ∈ d.validActions C, a.name = x.1) ∨
      d.callSize ≠ 0 := by
  constructor
  · intro h
    by_contra hno
    simp only [not_or, not_exists, not_and, not_not] at hno
    obtain ⟨hs, hnames, hcall⟩ := hno
    have hcs : candidates (d.validActions C) strategySum = [] :=
      (candidates_eq_nil_iff validActions_ne_nil).mpr ⟨hs, hnames⟩
    obtain ⟨a, ha, hcode⟩ := h .first
    rcases reply_cases C d strategySum .first with
      ⟨-, hdef⟩ | ⟨x, hx, -⟩
    · rw [hdef] at hcode
      rw [choose_fst_eq_sixteen hcode] at ha
      exact mem_getLegalActions2.mp ha hcall
    · rw [hcs] at hx
      cases hx
  · intro h S
    rcases reply_cases C d strategySum S with
      ⟨hcs, hdef⟩ | ⟨x, hx, hreply⟩
    · -- nothing to draw: the fold has to be offered
      obtain ⟨hs, hnames⟩ := (candidates_eq_nil_iff validActions_ne_nil).mp hcs
      rcases h with h | ⟨x, hx, a, ha, hname⟩ | hcall
      · exact absurd h hs
      · exact absurd hname (hnames x hx a ha)
      · exact ⟨.fold, mem_getLegalActions2.mpr hcall, by rw [hdef]; rfl⟩
    · exact ⟨x.1, mem_of_candidate hx, by rw [hreply]; rfl⟩

end DecisionState

/-- The plain engine with this `strategySum` everywhere, and the sampler that draws the first. -/
def plainDealer (strategySum : Strategy) : Dealer Unit :=
  { plainEngine with
    findAgentNode := fun _ _ _ _ => some strategySum
    initialRegret := fun _ => strategySum
    sampler := fun _ => .first
    drawn := id }

/-- The short stack again, with a check instead of the bet on the river. -/
def checkedRiver : Request :=
  { shortStack with history := shortStack.history.take 9 ++ [⟨0, .pass, 0, 4, 198, 3⟩] }

/-- A node that only knows a call, and the robot folds where nothing is to be called. -/
theorem fold_unbet : ∃ s' w' w₁ d rp,
    handleRobotDecide2 headsUp (plainDealer [("CALL", 1)]).toEngine .fresh () checkedRiver =
      .ok (s', w₁, .reached d) ∧
    handleRobotDecide2Rsp headsUp (plainDealer [("CALL", 1)]) .fresh () checkedRiver =
      .ok (s', w', .reached rp) ∧
    rp.aiAct = 16 ∧ d.state.callSize = 0 ∧
    ¬ ∃ a ∈ d.state.validActions headsUp, (d.state.choose headsUp a).1 = rp.aiAct :=
  ⟨_, _, _, _, _, rfl, rfl, by decide, by decide, by decide⟩

end Holdem.Decide
