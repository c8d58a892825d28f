import Holdem.Decide.Sizing
import Holdem.Support.Checked
import Mathlib.Order.Lattice

/-!
# Decide — Replay

`handleRobotDecide2` replays the history of a request: it adds up the bets, and translates every
entry after the blinds into an action of the game tree for the engine.  The engine, the blueprint
and the search are code of other repositories, given by what they do to the world `W` they share.
Amounts are integers, and `turnOps` lists the `int`s of the source; the ratio of a bet to the pot is
compared in whole percents.

* `replayLine_cases`: what a turn of the loop can do.
* `record_fair`: an entry without negative amounts keeps every amount non-negative, and every bet
  of a round at most the largest one.
* `replay_fair`: so does the replay of a history.
-/

namespace Holdem.Decide
open Support

/-- A card, as `Card::cardToStr` spells it. -/
abbrev Card := String

/-- Some cards for each player. -/
abbrev Hands := Int → Option (List Card)

/-- `strategySum`: the weights of the actions, by their names. -/
abbrev Strategy := List (String × Rat)

/-- The acts of a history that the replay names; `other` is any other code. -/
inductive NnAct
  | fold | pass | follow | raise | allin | other
  deriving DecidableEq, Repr

structure HistoryLine where
  pos : Int
  act : NnAct
  bet : Int
  pot : Int
  chips : Int
  round : Int
  deriving DecidableEq, Repr

structure SeatInfo where
  robot_guid : Int
  is_fold : Bool
  init_chips : Int
  hole_card : List Card
  deriving DecidableEq, Repr

/-- `AlgRobotActionReq`. -/
structure Request where
  uid : Int
  small_blind : Int
  big_blind : Int
  seat_info : List SeatInfo
  board_card : List Card
  history : List HistoryLine
  deriving DecidableEq, Repr

/-- The code outside this repository, by its effect on the world it shares: a game state with its
engine, the blueprint, and the search of each round. -/
structure Engine (W : Type) where
  /-- `new State(numPlayers)` with `numSeats`, or no engine. -/
  newState : W → Nat → Nat → Option W
  setBoardCards : W → List Card → W
  setShuffle : W → Bool → W
  /-- `cloneHandProbs` into every hand range. -/
  cloneHandProbs : W → W
  /-- `Command`, with the action, or with the empty string. -/
  Command : W → Option Action → W
  isTerminal : W → Bool
  /-- The update of the hand range of a player, for a round, an action and `testboardCards`; whether
  the range was valid. -/
  updateRange : W → Int → Int → Option Action → List Card → Checked (W × Bool)
  distributeCards5 : W → Hands → List Card → Bool × W
  infoSet : W → String
  /-- `findAgentNode` of the search of this round, at a stage and an `infoSet`: the `strategySum` of
  the node, if there is one. -/
  findAgentNode : W → Nat → Int → String → Option Strategy
  /-- `depthLimitedSearch` of the search of this round. -/
  depthLimitedSearch : W → Nat → W

/-! ### Game statistics -/

/-- The seat of the big blind. -/
def bbPos : Int := 1

namespace Request

def numSeats (r : Request) : Nat := r.seat_info.length

/-- The seats of the configuration that the request leaves empty. -/
def seatOffset (C : Configure) (r : Request) : Int := C.mNumPlayers - r.numSeats

/-- `newPos`: the empty seats lie behind the blinds. -/
def newPos (C : Configure) (r : Request) (pos : Int) : Int :=
  if pos > bbPos then pos + r.seatOffset C else pos

/-- `discardPlayers`, for the seats from number `i` on. -/
def discardFrom (C : Configure) (r : Request) : Nat → List SeatInfo → List Int
  | _, []          => []
  | i, si :: seats =>
    if si.is_fold then r.newPos C i :: r.discardFrom C (i + 1) seats
    else r.discardFrom C (i + 1) seats

def discardPlayers (C : Configure) (r : Request) : List Int := r.discardFrom C 0 r.seat_info

end Request

/-- The bet of entry `i`; one entry has it overwritten. -/
def HistoryLine.his_bet (his : HistoryLine) (i : Nat) : Int := if i = 14 then 32 else his.bet

/-- What the replay adds up, by player, by round, and by round and player. -/
structure Accounts where
  potSize : Int
  vRemains : List Int
  vRoundBet : List Int
  vRoundCall : List (List Int)
  vBetting : List (List Int)
  deriving DecidableEq, Repr

namespace Accounts

/-- All zero, for so many players. -/
def start (numPlayers : Nat) : Accounts :=
  ⟨0, .replicate numPlayers 0, .replicate 4 0, .replicate 4 (.replicate numPlayers 0),
    .replicate 4 (.replicate numPlayers 0)⟩

/-- The chips the players came with, for the seats from number `i` on. -/
def seatFrom (C : Configure) (r : Request) : Nat → List SeatInfo → Accounts → Checked Accounts
  | _, [], a            => .ok a
  | i, info :: seats, a => do
    let vRemains ← writeAt a.vRemains (r.newPos C i) info.init_chips
    seatFrom C r (i + 1) seats { a with vRemains }

/-- The largest bet of a round after a bet in it. -/
def raiseRoundBet (a : Accounts) (round totalBeted : Int) : Checked (List Int) := do
  if (← readAt a.vRoundBet round) < totalBeted then writeAt a.vRoundBet round totalBeted
  else .ok a.vRoundBet

/-- An entry of the history. -/
def record (a : Accounts) (round newPos his_bet chips : Int) : Checked Accounts := do
  let vRemains ← writeAt a.vRemains newPos chips
  let roundBet ← readAt a.vRoundBet round
  let beted ← readAt₂ a.vBetting round newPos
  let vRoundCall ← writeAt₂ a.vRoundCall round newPos (roundBet - beted)
  let vBetting ← writeAt₂ a.vBetting round newPos (beted + his_bet)
  let vRoundBet ← a.raiseRoundBet round (beted + his_bet)
  .ok ⟨a.potSize + his_bet, vRemains, vRoundBet, vRoundCall, vBetting⟩

end Accounts

/-! ### From acts to actions -/

/-- The raises seen so far. -/
structure Raises where
  preflopRaises : Int
  flopRaises : Int
  lastRaise : Int
  deriving DecidableEq, Repr

/-- A raise in this round is counted. -/
def Raises.count (t : Raises) (round : Int) : Raises :=
  if 0 = round then { t with preflopRaises := t.preflopRaises + 1 }
  else { t with flopRaises := t.flopRaises + 1 }

/-- The search for the nearest entry goes on at entry `idx`, from `tag` at distance `dif`. -/
def nearestFrom (x : Int) : Nat → List Int → Nat → Nat → Nat
  | _, [], tag, _                 => tag
  | idx, bet :: betting, tag, dif =>
    if bet = x then idx
    else
      let tmp := (x - bet).natAbs
      if dif ≥ tmp then nearestFrom x (idx + 1) betting idx tmp
      else nearestFrom x (idx + 1) betting tag dif

/-- The index of the nearest entry, and of the last one of these. -/
def nearest (x : Int) : List Int → Nat
  | []             => 0
  | bet :: betting => nearestFrom x 1 betting 0 (x - bet).natAbs

/-- The first raise before the flop, by its distance to 6, 8 and 10. -/
def firstRaise (beted : Int) : Option Action :=
  match nearest beted [6, 8, 10] with
  | 0 => some .raise2
  | 1 => some .raise3
  | 2 => some .raise4
  | 3 => some .raise5
  | 4 => some .raise6
  | _ => none

/-- Any other raise, by the distance of its `factor`, in percents, to 0, 50, 75 and 100. -/
def ratioRaise (factor : Int) : Option Action :=
  match nearest factor [0, 50, 75, 100] with
  | 0 => some .call
  | 1 => some .raise2
  | 2 => some .raise3
  | 3 => some .raise4
  | 4 => some .raise5
  | 5 => some .raise6
  | _ => none

/-- The ratio of a bet to the pot, in percents. -/
def factor (C : Configure) (his_bet his_pot callSize : Int) : Checked Int := do
  -- this division is made in both modes
  let f ← divide ((his_bet - callSize) * 100) (his_pot + callSize)
  if C.mRealRaise = 0 then divide (his_bet * 100) his_pot else .ok f

/-- The action that an entry stands for; `none` is the empty string. -/
def translate (C : Configure) (a : Accounts) (t : Raises) (his : HistoryLine)
    (newPos his_bet : Int) : Checked (Raises × Option Action) :=
  if 0 = his.round ∧ 0 = t.preflopRaises then
    match his.act with
    | .fold           => .ok (t, some .fold)
    | .pass           => .ok (t, some .check)
    | .follow         => .ok (t, some .call)
    | .allin          => .ok ({ t with preflopRaises := t.preflopRaises + 1 }, some .allin)
    -- any other code counts as a raise here, and as nothing further on
    | .raise | .other => do
      let beted ← readAt₂ a.vBetting his.round newPos
      .ok ({ t with preflopRaises := t.preflopRaises + 1 }, firstRaise beted)
  else
    match his.act with
    | .fold   => .ok (t, some .fold)
    | .pass   => .ok (t, some .check)
    | .follow => .ok (t, some .call)
    | .raise  => do
      let callSize ← readAt₂ a.vRoundCall his.round newPos
      let f ← factor C his_bet his.pot callSize
      .ok ({ t with lastRaise := his_bet }.count his.round, ratioRaise f)
    | .allin  => .ok (t.count his.round, some .allin)
    | .other  => .ok (t, none)

/-! ### The loop -/

/-- What the replay has come to. -/
structure Replay (W : Type) where
  accounts : Accounts
  raises : Raises
  isSucceed : Bool
  world : W

variable {W : Type}

/-- Whether the range of the player is updated for entry `i`. -/
def UpdatesRange (C : Configure) (r : Request) (i : Nat) (newPos : Int) (action : Option Action) :
    Prop :=
  newPos ∉ r.discardPlayers C ∧ action ≠ some .fold ∧ r.history.length > 13 ∧ i > 12

instance (C : Configure) (r : Request) (i : Nat) (newPos : Int) (action : Option Action) :
    Decidable (UpdatesRange C r i newPos action) := inferInstanceAs (Decidable (_ ∧ _ ∧ _ ∧ _))

/-- The update of the range of the player for entry `i`, if it has one. -/
def updateRange (C : Configure) (E : Engine W) (r : Request) (board : List Card) (i : Nat)
    (newPos round : Int) (action : Option Action) (w : W) : Checked (W × Bool) :=
  if UpdatesRange C r i newPos action then E.updateRange w newPos round action board
  else .ok (w, true)

/-- The turn of the loop for entry `i`, and whether the loop goes on. -/
def replayLine (C : Configure) (E : Engine W) (r : Request) (board : List Card) (i : Nat)
    (his : HistoryLine) (p : Replay W) : Checked (Replay W × Bool) := do
  let newPos := r.newPos C his.pos
  let accounts ← p.accounts.record his.round newPos (his.his_bet i) his.chips
  if (i : Int) > bbPos then
    -- the loop is left with the entry recorded
    if E.isTerminal p.world then .ok (⟨accounts, p.raises, false, p.world⟩, false)
    else do
      let (raises, action) ← translate C accounts p.raises his newPos (his.his_bet i)
      let (world, valid) ← updateRange C E r board i newPos his.round action p.world
      .ok (⟨accounts, raises, p.isSucceed && valid, E.Command world action⟩, true)
  else .ok (⟨accounts, p.raises, p.isSucceed, p.world⟩, true)

/-- The loop, from entry `i` on. -/
def replayFrom (C : Configure) (E : Engine W) (r : Request) (board : List Card) :
    Nat → List HistoryLine → Replay W → Checked (Replay W)
  | _, [], p          => .ok p
  | i, his :: rest, p => do
    let (p, more) ← replayLine C E r board i his p
    if more then replayFrom C E r board (i + 1) rest p else .ok p

/-- The chips of the seats, and then the whole history. -/
def replay (C : Configure) (E : Engine W) (r : Request) (board : List Card) (w : W) :
    Checked (Replay W) := do
  let accounts ← Accounts.seatFrom C r 0 r.seat_info (.start C.mNumPlayers)
  replayFrom C E r board 0 r.history ⟨accounts, ⟨0, 0, 0⟩, true, w⟩

/-! ### What an entry does -/

variable {C : Configure} {E : Engine W} {r : Request} {board : List Card}

namespace Accounts

/-- The largest bet of a round, written over itself or not. -/
theorem raiseRoundBet_eq_ok {a : Accounts} {round total roundBet : Int} {v : List Int}
    (hround : readAt a.vRoundBet round = .ok roundBet) (h : a.raiseRoundBet round total = .ok v) :
    writeAt a.vRoundBet round (max roundBet total) = .ok v := by
  obtain ⟨m, hm, h⟩ := bind_eq_ok.mp h
  cases hround.symm.trans hm
  split at h
  · next hlt => rw [max_eq_right (Int.le_of_lt hlt)]; exact h
  · next hle =>
      cases h
      obtain ⟨h0, hget⟩ := readAt_eq_ok.mp hround
      obtain ⟨hlt, hget⟩ := List.getElem?_eq_some_iff.mp hget
      rw [max_eq_left (Int.not_lt.mp hle)]
      refine writeAt_eq_ok.mpr ⟨⟨h0, hlt⟩, ?_⟩
      rw [← hget]
      exact List.set_getElem_self hlt

/-- What an entry does to the accounts. -/
theorem record_eq_ok {a a' : Accounts} {round newPos his_bet chips : Int}
    (h : a.record round newPos his_bet chips = .ok a') :
    ∃ roundBet beted, readAt a.vRoundBet round = .ok roundBet ∧
      readAt₂ a.vBetting round newPos = .ok beted ∧
      writeAt a.vRemains newPos chips = .ok a'.vRemains ∧
      writeAt₂ a.vRoundCall round newPos (roundBet - beted) = .ok a'.vRoundCall ∧
      writeAt₂ a.vBetting round newPos (beted + his_bet) = .ok a'.vBetting ∧
      writeAt a.vRoundBet round (max roundBet (beted + his_bet)) = .ok a'.vRoundBet ∧
      a'.potSize = a.potSize + his_bet := by
  simp only [record, bind_eq_ok] at h
  obtain ⟨vRemains, hrem, roundBet, hround, beted, hbeted, vRoundCall, hcall, vBetting, hbet,
    vRoundBet, hmax, h⟩ := h
  cases h
  exact ⟨roundBet, beted, hround, hbeted, hrem, hcall, hbet, raiseRoundBet_eq_ok hround hmax, rfl⟩

/-- What every write of a seat's chips keeps holds after all of them. -/
theorem seatFrom_invariant {P : Accounts → Prop} {seats : List SeatInfo} {i : Nat}
    {a a' : Accounts}
    (hP : ∀ a, ∀ info ∈ seats, ∀ newPos vRemains, P a →
      writeAt a.vRemains newPos info.init_chips = .ok vRemains → P { a with vRemains })
    (ha : P a) (h : seatFrom C r i seats a = .ok a') : P a' := by
  induction seats generalizing i a with
  | nil => cases h; exact ha
  | cons info seats ih =>
      obtain ⟨vRemains, hrem, h⟩ := bind_eq_ok.mp h
      exact ih (fun a info hinfo => hP a info (List.mem_cons_of_mem _ hinfo))
        (hP a info List.mem_cons_self _ _ ha hrem) h

/-- The seats write nothing but chips. -/
theorem seatFrom_eq {seats : List SeatInfo} {i : Nat} {a a' : Accounts}
    (h : seatFrom C r i seats a = .ok a') : ∃ vRemains, a' = { a with vRemains } := by
  refine seatFrom_invariant (P := fun a' => ∃ vRemains, a' = { a with vRemains }) ?_
    ⟨a.vRemains, rfl⟩ h
  rintro _ info - newPos vRemains ⟨_, rfl⟩ -
  exact ⟨vRemains, rfl⟩

/-- No negative amounts, and no bet of a round above the largest one. -/
structure Fair (a : Accounts) : Prop where
  pot : 0 ≤ a.potSize
  remains : ∀ x ∈ a.vRemains, 0 ≤ x
  betting : ∀ row ∈ a.vBetting, ∀ x ∈ row, 0 ≤ x
  roundBet : ∀ round row m, readAt a.vBetting round = .ok row →
    readAt a.vRoundBet round = .ok m → ∀ x ∈ row, x ≤ m

theorem start_fair (n : Nat) : (start n).Fair where
  pot := Int.le_refl _
  remains := by
    intro x hx
    exact Int.le_of_eq (List.eq_of_mem_replicate hx).symm
  betting := by
    intro row hrow x hx
    rw [List.eq_of_mem_replicate hrow] at hx
    exact Int.le_of_eq (List.eq_of_mem_replicate hx).symm
  roundBet := by
    intro round row m hrow hm x hx
    rw [List.eq_of_mem_replicate (mem_of_readAt hrow)] at hx
    exact Int.le_of_eq ((List.eq_of_mem_replicate hx).trans
      (List.eq_of_mem_replicate (mem_of_readAt hm)).symm)

theorem seatFrom_fair {i : Nat} {seats : List SeatInfo} {a a' : Accounts} (ha : a.Fair)
    (hseats : ∀ info ∈ seats, 0 ≤ info.init_chips) (h : seatFrom C r i seats a = .ok a') :
    a'.Fair := by
  refine seatFrom_invariant (fun a info hinfo newPos vRemains ha hrem => ?_) ha h
  exact ⟨ha.pot, forall_writeAt hrem ha.remains (hseats info hinfo), ha.betting, ha.roundBet⟩

theorem record_fair {a a' : Accounts} {round newPos his_bet chips : Int} (ha : a.Fair)
    (hbet : 0 ≤ his_bet) (hchips : 0 ≤ chips)
    (h : a.record round newPos his_bet chips = .ok a') : a'.Fair := by
  obtain ⟨roundBet, beted, hround, hbeted, hrem, -, hwrite, hmax, hpot⟩ := record_eq_ok h
  have hbeted₀ : 0 ≤ beted := forall_readAt₂ hbeted ha.betting
  have hpot₀ := ha.pot
  refine ⟨by omega, forall_writeAt hrem ha.remains hchips,
    forall_writeAt₂ hwrite ha.betting (by omega), fun i row m hrow hm x hx => ?_⟩
  obtain ⟨old, new, hold, hnew, hrows⟩ := writeAt₂_eq_ok.mp hwrite
  rcases readAt_of_writeAt hrows hrow with ⟨rfl, rfl⟩ | ⟨hne, hrow⟩
  · -- the round of the entry
    obtain ⟨-, rfl⟩ | ⟨hne, -⟩ := readAt_of_writeAt hmax hm
    · refine forall_writeAt (P := fun x => x ≤ max roundBet (beted + his_bet)) hnew
        (fun y hy => ?_) (le_max_right _ _) x hx
      exact (ha.roundBet _ _ _ hold hround y hy).trans (le_max_left _ _)
    · exact absurd rfl hne
  · obtain ⟨rfl, -⟩ | ⟨-, hm⟩ := readAt_of_writeAt hmax hm
    · exact absurd rfl hne
    · exact ha.roundBet i row m hrow hm x hx

end Accounts

/-- What a turn of the loop can do: record the entry of a blind, record it and end the loop, or
translate it, update the range and command the action. -/
theorem replayLine_cases {i : Nat} {his : HistoryLine} {p p' : Replay W} {more : Bool}
    (h : replayLine C E r board i his p = .ok (p', more)) :
    ∃ accounts, p.accounts.record his.round (r.newPos C his.pos) (his.his_bet i) his.chips =
        .ok accounts ∧
      (¬ (i : Int) > bbPos ∧ more = true ∧
          p' = ⟨accounts, p.raises, p.isSucceed, p.world⟩ ∨
        ((i : Int) > bbPos ∧ E.isTerminal p.world = true) ∧ more = false ∧
          p' = ⟨accounts, p.raises, false, p.world⟩ ∨
        ∃ raises action world valid, ((i : Int) > bbPos ∧ ¬ E.isTerminal p.world = true) ∧
          translate C accounts p.raises his (r.newPos C his.pos) (his.his_bet i) =
            .ok (raises, action) ∧
          updateRange C E r board i (r.newPos C his.pos) his.round action p.world =
            .ok (world, valid) ∧
          more = true ∧ p' = ⟨accounts, raises, p.isSucceed && valid, E.Command world action⟩) := by
  obtain ⟨accounts, hrec, h⟩ := bind_eq_ok.mp h
  refine ⟨accounts, hrec, ?_⟩
  split at h
  · next hi =>
    split at h
    · next hend =>
      cases h
      exact .inr (.inl ⟨⟨hi, hend⟩, rfl, rfl⟩)
    · next hend =>
      obtain ⟨⟨raises, action⟩, htrans, h⟩ := bind_eq_ok.mp h
      obtain ⟨⟨world, valid⟩, hupdate, h⟩ := bind_eq_ok.mp h
      cases h
      exact .inr (.inr ⟨raises, action, world, valid, ⟨hi, hend⟩, htrans, hupdate, rfl, rfl⟩)
  · next hi =>
    cases h
    exact .inl ⟨hi, rfl, rfl⟩

/-- The accounts after an entry are those it was recorded in. -/
theorem replayLine_accounts {i : Nat} {his : HistoryLine} {p p' : Replay W} {more : Bool}
    (h : replayLine C E r board i his p = .ok (p', more)) :
    p.accounts.record his.round (r.newPos C his.pos) (his.his_bet i) his.chips =
      .ok p'.accounts := by
  obtain ⟨accounts, hrec, ⟨-, -, rfl⟩ | ⟨-, -, rfl⟩ | ⟨_, _, _, _, -, -, -, -, rfl⟩⟩ :=
    replayLine_cases h
  · exact hrec
  · exact hrec
  · exact hrec

/-- What every recorded entry keeps holds of the accounts after the replay. -/
theorem replayFrom_accounts {P : Accounts → Prop} {A : HistoryLine → Prop}
    (hrec : ∀ a a' his i, P a → A his →
      a.record his.round (r.newPos C his.pos) (HistoryLine.his_bet his i) his.chips = .ok a' →
      P a') {i : Nat} {history : List HistoryLine} {p p' : Replay W} (hp : P p.accounts)
    (hhis : ∀ his ∈ history, A his) (h : replayFrom C E r board i history p = .ok p') :
    P p'.accounts := by
  induction history generalizing i p with
  | nil => cases h; exact hp
  | cons his rest ih =>
      -- an early end leaves the accounts as the last entry recorded them
      obtain ⟨⟨q, more⟩, hline, h⟩ := bind_eq_ok.mp h
      obtain ⟨hfirst, hrest⟩ := List.forall_mem_cons.mp hhis
      have hq : P q.accounts := hrec _ _ _ _ hp hfirst (replayLine_accounts hline)
      cases more with
      | true => exact ih hq hrest h
      | false => cases h; exact hq

/-- No negative bets and no negative chips. -/
structure Request.Fair (r : Request) : Prop where
  seats : ∀ info ∈ r.seat_info, 0 ≤ info.init_chips
  history : ∀ his ∈ r.history, 0 ≤ his.bet ∧ 0 ≤ his.chips

theorem his_bet_nonneg {his : HistoryLine} (h : 0 ≤ his.bet) (i : Nat) : 0 ≤ his.his_bet i := by
  unfold HistoryLine.his_bet
  split
  · omega
  · exact h

/-- **Accounts.**  The replay of a history without negative amounts has none, and no bet of a
round above the largest one. -/
theorem replay_fair {w : W} {p : Replay W} (hr : r.Fair) (h : replay C E r board w = .ok p) :
    p.accounts.Fair := by
  obtain ⟨accounts, hseat, h⟩ := bind_eq_ok.mp h
  refine replayFrom_accounts (P := Accounts.Fair)
    (A := fun his => 0 ≤ his.bet ∧ 0 ≤ his.chips) ?_
    (Accounts.seatFrom_fair (Accounts.start_fair _) hr.seats hseat) hr.history h
  intro a a' his i ha hhis hrec
  exact Accounts.record_fair ha (his_bet_nonneg hhis.1 i) hhis.2 hrec

end Holdem.Decide
