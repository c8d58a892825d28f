import Holdem.Decide.Replay

/-!
# Decide — Handle

`handleRobotDecide2`, up to the choice of an action: the checks of the request, the replay of its
history, the cards it is dealt, the state that the decision is made from, and the real-time search.
`testhands` and `testboardCards` are members of the session, and live from one request to the next.
Whatever is only logged is left out.

* `restore_reached`, `handle_reached`: what a request that reaches the choice went through.
* `decisionState_fair`: no decision state has negative amounts where the request has none.
-/

namespace Holdem.Decide
open Support

/-- `hands[k] = cards`. -/
def Hands.put (hands : Hands) (k : Int) (cards : List Card) : Hands :=
  fun i => if i = k then some cards else hands i

/-- The value of `hands[k]`, which is put there when there is none. -/
def Hands.get (hands : Hands) (k : Int) : List Card × Hands :=
  match hands k with
  | some cards => (cards, hands)
  | none       => ([], hands.put k [])

namespace Hands

@[simp] theorem put_self (hands : Hands) (k : Int) (cards : List Card) :
    hands.put k cards k = some cards := if_pos rfl

theorem put_of_ne (hands : Hands) {k i : Int} (cards : List Card) (h : i ≠ k) :
    hands.put k cards i = hands i := if_neg h

@[simp] theorem put_put (hands : Hands) (k : Int) (cards cards' : List Card) :
    (hands.put k cards).put k cards' = hands.put k cards' := by
  funext i
  by_cases h : i = k
  · simp [put, h]
  · simp [put, h]

end Hands

/-- What a session keeps from one request to the next. -/
structure Cards where
  testhands : Hands
  testboardCards : List Card

namespace Cards

/-- The cards of a fresh session. -/
def fresh : Cards := ⟨fun _ => none, []⟩

/-- `testboardCards`, once they are set. -/
def testBoard : List Card := ["2d", "2c", "2s", "4d", "4c"]

/-- A request with ten entries sets the cards. -/
def begin (s : Cards) (r : Request) : Cards :=
  if r.history.length = 10 then
    ⟨(Hands.put (fun _ => none) 0 ["As", "Kh"]).put 1 ["Kc", "Ac"], testBoard⟩
  else s

end Cards

/-- How the handler gets on: `return -1`, `return 0`, or further. -/
inductive Outcome (α : Type)
  | refused
  | skipped
  | reached (a : α)

/-! ### The checks -/

/-- The seats from number `i` on are scanned for the robot and its cards. -/
def Request.scanFrom (r : Request) : Nat → List SeatInfo → Int × List Card → Int × List Card
  | _, [], acc                      => acc
  | i, si :: seats, (turn, holeCards) =>
    r.scanFrom (i + 1) seats
      (if si.robot_guid = r.uid then (i, holeCards ++ si.hole_card) else (turn, holeCards))

/-- The seat of the robot, and its hole cards. -/
def Request.scan (r : Request) : Int × List Card := r.scanFrom 0 r.seat_info (-1, [])

/-- The request's own hole cards. -/
def Request.holeCards (r : Request) : List Card := r.scan.2

/-- The checks of the blinds and of the robot's seat. -/
def Request.Valid (r : Request) : Prop :=
  (1 = r.small_blind ∧ 2 = r.big_blind) ∧ -1 ≠ r.scan.1 ∧ 2 = r.holeCards.length

instance (r : Request) : Decidable r.Valid := inferInstanceAs (Decidable (_ ∧ _))

/-- `turnIndex`, behind the empty seats. -/
def Request.turnIndex (C : Configure) (r : Request) : Int := r.newPos C r.scan.1

variable {W : Type}

/-- The empty seats fold. -/
def foldEmpty (E : Engine W) : Nat → W → W
  | 0, w     => w
  | n + 1, w => foldEmpty E n (E.Command w (some .fold))

/-- The game state at the start of the replay. -/
def prepare (C : Configure) (E : Engine W) (w : W) (r : Request) : Option W := do
  let w ← E.newState w C.mNumPlayers r.numSeats
  some (foldEmpty E (r.seatOffset C).toNat (E.setBoardCards w r.board_card))

/-- The game state is set up for dealing the session's cards. -/
def unshuffle (E : Engine W) (w : W) (r : Request) : W :=
  E.cloneHandProbs
    (E.setShuffle (if r.history.length = 10 then E.setBoardCards w [] else w) false)

/-! ### The decision state -/

/-- `round`, by the board cards of the request. -/
def roundOf (holeCards : List Card) (numBoardCards : Nat) : Option Nat :=
  if 2 = holeCards.length then
    match numBoardCards with
    | 0 => some 0
    | 3 => some 1
    | 4 => some 2
    | 5 => some 3
    | _ => none
  else none

/-- `historyStage`, by the board cards of the game state. -/
def historyStageOf (holeCards : List Card) (boardCardsNum : Nat) : Int :=
  if holeCards.length = 2 then
    match boardCardsNum with
    | 0 => 1
    | 3 => 2
    | 4 => 3
    | 5 => 4
    | _ => -1
  else -1

/-- The state the decision is made from. -/
def decisionState (p : Replay W) (round : Nat) (newPos historyStage : Int) :
    Checked DecisionState := do
  let maxRoundBet ← readAt p.accounts.vRoundBet round
  let curRoundBet ← readAt₂ p.accounts.vBetting round newPos
  let curRemains ← readAt p.accounts.vRemains newPos
  .ok ⟨p.accounts.potSize, maxRoundBet, curRoundBet, curRemains, p.raises.preflopRaises,
    p.raises.flopRaises, p.raises.lastRaise, newPos, historyStage⟩

/-- What the restored game comes to. -/
structure Ready where
  isSucceed : Bool
  round : Nat
  infoSet : String
  state : DecisionState

/-- The session's cards are dealt after the replay, and its hands for the players 0 and 1 read. -/
def deal (E : Engine W) (s : Cards) (w : W) : Option (List Card) × Cards × W :=
  match E.distributeCards5 (E.setBoardCards w s.testboardCards) s.testhands s.testboardCards with
  | (false, w) => (none, s, w)
  | (true, w)  =>
    -- whichever seat the robot has
    let holeCards := s.testhands.get 0
    let holeCards1 := holeCards.2.get 1
    (some holeCards.1, { s with testhands := holeCards1.2 }, E.setShuffle w true)

/-- The decision state, once the cards are dealt. -/
def resume (C : Configure) (E : Engine W) (r : Request) (p : Replay W) :
    Option (List Card) × Cards × W → Checked (Cards × W × Outcome Ready)
  | (none, s, w)           => .ok (s, w, .refused)
  | (some holeCards, s, w) =>
    match roundOf holeCards r.board_card.length with
    | none       => .ok (s, w, .refused)
    | some round => do
      let d ← decisionState p round (r.turnIndex C)
        (historyStageOf holeCards s.testboardCards.length)
      .ok (s, w, .reached ⟨p.isSucceed, round, E.infoSet w, d⟩)

/-- From the request to the decision state. -/
def restore (C : Configure) (E : Engine W) (s : Cards) (w : W) (r : Request) :
    Checked (Cards × W × Outcome Ready) :=
  if r.Valid then
    match prepare C E w r with
    | none   => .ok (s, w, .refused)
    | some w =>
      if r.history.length < 10 then .ok (s, w, .skipped)
      else do
        let p ← replay C E r (s.begin r).testboardCards (unshuffle E w r)
        resume C E r p (deal E (s.begin r) p.world)
  else .ok (s, w, .refused)

/-! ### The real-time search -/

/-- A lookup that found a node: the deal before it, and the `strategySum` of the node. -/
structure Lookup where
  hands : Hands
  board : List Card
  strategySum : Strategy

/-- `atoi(infoSet.substr(0, 1).c_str())`. -/
def stageOf (infoSet : String) : Int :=
  match infoSet.toList with
  | []     => 0
  | c :: _ => if c.isDigit then c.toNat - 48 else 0

/-- The hands that the search is asked about. -/
def showlist : List (List Card) := [["As", "Ah"], ["As", "Kh"], ["Ks", "Kh"]]

/-- The rest of the loop over `showlist`, after the lookup `found`. -/
def showFrom (E : Engine W) (round : Nat) (stage : Int) :
    List (List Card) → Cards → W → Option Lookup → Cards × W × Outcome (Option Lookup)
  | [], s, w, found           => (s, w, .reached found)
  | hand :: rest, s, w, found =>
    let s := { s with testhands := s.testhands.put 0 hand }
    match E.distributeCards5 w s.testhands s.testboardCards with
    | (false, w) => (s, w, .refused)
    | (true, w)  =>
      match E.findAgentNode w round stage (E.infoSet w) with
      | none             => showFrom E round stage rest s w found
      | some strategySum =>
        showFrom E round stage rest s w (some ⟨s.testhands, s.testboardCards, strategySum⟩)

/-- The search is open for this state. -/
def Ready.Searches (C : Configure) (q : Ready) : Prop :=
  q.isSucceed = true ∧ C.mResearchOpening = true ∧ stageOf q.infoSet ≥ C.mResearchStage

instance (C : Configure) (q : Ready) : Decidable (q.Searches C) :=
  inferInstanceAs (Decidable (_ ∧ _ ∧ _))

/-- The search itself, where there is no node yet. -/
def research (E : Engine W) (q : Ready) (w : W) : W :=
  match E.findAgentNode w q.round (stageOf q.infoSet) q.infoSet with
  | none   => E.depthLimitedSearch w q.round
  | some _ => w

/-- The lookup whose `strategySum` is used, if the search is open. -/
def search (C : Configure) (E : Engine W) (q : Ready) (s : Cards) (w : W) :
    Cards × W × Outcome (Option Lookup) :=
  if q.Searches C then
    -- no lookup before the loop gives a `strategySum`
    showFrom E q.round (stageOf q.infoSet) showlist s (research E q w) none
  else (s, w, .reached none)

/-- What the choice is made from: the decision state, and the lookup that the search used. -/
structure Decision where
  state : DecisionState
  lookup : Option Lookup

/-- `SessionHandle::handleRobotDecide2`, up to the choice. -/
def handleRobotDecide2 (C : Configure) (E : Engine W) (s : Cards) (w : W) (r : Request) :
    Checked (Cards × W × Outcome Decision) := do
  match ← restore C E s w r with
  | (s, w, .refused)   => .ok (s, w, .refused)
  | (s, w, .skipped)   => .ok (s, w, .skipped)
  | (s, w, .reached q) =>
    match search C E q s w with
    | (s, w, .refused)        => .ok (s, w, .refused)
    | (s, w, .skipped)        => .ok (s, w, .skipped)
    | (s, w, .reached lookup) => .ok (s, w, .reached ⟨q.state, lookup⟩)

/-- An engine that deals every card it is given, never ends a game, and has a node for every
state. -/
def plainEngine : Engine Unit where
  newState _ _ _ := some ()
  setBoardCards _ _ := ()
  setShuffle _ _ := ()
  cloneHandProbs _ := ()
  Command _ _ := ()
  isTerminal _ := false
  updateRange _ _ _ _ _ := .ok ((), true)
  distributeCards5 _ _ _ := (true, ())
  infoSet _ := "4"
  findAgentNode _ _ _ _ := some []
  depthLimitedSearch _ _ := ()

/-! ### Requests that reach the choice -/

variable {C : Configure} {E : Engine W} {s s' : Cards} {w w' : W} {r : Request}

theorem resume_reached {p : Replay W} {dealt : Option (List Card) × Cards × W} {q : Ready}
    (h : resume C E r p dealt = .ok (s', w', .reached q)) :
    ∃ holeCards, dealt = (some holeCards, s', w') ∧
      roundOf holeCards r.board_card.length = some q.round ∧
      decisionState p q.round (r.turnIndex C)
        (historyStageOf holeCards s'.testboardCards.length) = .ok q.state := by
  obtain ⟨_ | holeCards, s, w⟩ := dealt
  · cases h
  · simp only [resume] at h
    split at h
    · cases h
    · next round hround =>
        obtain ⟨d, hd, h⟩ := bind_eq_ok.mp h
        cases h
        exact ⟨holeCards, rfl, hround, hd⟩

theorem restore_reached {q : Ready} (h : restore C E s w r = .ok (s', w', .reached q)) :
    r.Valid ∧ 10 ≤ r.history.length ∧ ∃ w₀ p holeCards, prepare C E w r = some w₀ ∧
      replay C E r (s.begin r).testboardCards (unshuffle E w₀ r) = .ok p ∧
      deal E (s.begin r) p.world = (some holeCards, s', w') ∧
      roundOf holeCards r.board_card.length = some q.round ∧
      decisionState p q.round (r.turnIndex C)
        (historyStageOf holeCards s'.testboardCards.length) = .ok q.state := by
  unfold restore at h
  split at h
  · next hvalid =>
    cases hprep : prepare C E w r with
    | none => simp only [hprep] at h; cases h
    | some w₀ =>
        simp only [hprep] at h
        split at h
        · cases h
        · next hlen =>
            obtain ⟨p, hp, h⟩ := bind_eq_ok.mp h
            obtain ⟨holeCards, hdeal, hround, hd⟩ := resume_reached h
            exact ⟨hvalid, Nat.not_lt.mp hlen, w₀, p, holeCards, rfl, hp, hdeal, hround, hd⟩
  · cases h

theorem handle_reached {d : Decision}
    (h : handleRobotDecide2 C E s w r = .ok (s', w', .reached d)) :
    ∃ s₁ w₁ q, restore C E s w r = .ok (s₁, w₁, .reached q) ∧ d.state = q.state ∧
      search C E q s₁ w₁ = (s', w', .reached d.lookup) := by
  obtain ⟨⟨s₁, w₁, _ | _ | q⟩, hrestore, h⟩ := bind_eq_ok.mp h
  · cases h
  · cases h
  · refine ⟨s₁, w₁, q, hrestore, ?_⟩
    rcases hsearch : search C E q s₁ w₁ with ⟨s₂, w₂, _ | _ | lookup⟩
    · simp only [hsearch] at h; cases h
    · simp only [hsearch] at h; cases h
    · simp only [hsearch] at h
      cases h
      exact ⟨rfl, rfl⟩

/-- The decision state has no negative amounts where the accounts have none. -/
theorem decisionState_fair {p : Replay W} {round : Nat} {newPos historyStage : Int}
    {d : DecisionState} (hp : p.accounts.Fair)
    (h : decisionState p round newPos historyStage = .ok d) : d.Fair := by
  obtain ⟨maxRoundBet, hmax, h⟩ := bind_eq_ok.mp h
  obtain ⟨curRoundBet, hcur, h⟩ := bind_eq_ok.mp h
  obtain ⟨curRemains, hrem, h⟩ := bind_eq_ok.mp h
  cases h
  obtain ⟨row, hrow, hbet⟩ := readAt₂_eq_ok.mp hcur
  exact ⟨hp.pot, forall_readAt₂ hcur hp.betting,
    hp.roundBet _ _ _ hrow hmax _ (mem_of_readAt hbet), hp.remains _ (mem_of_readAt hrem)⟩

end Holdem.Decide
