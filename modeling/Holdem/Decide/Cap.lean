import Holdem.Decide.Choice

/-!
# Decide — Cap

The cap on raises: `getLegalActions2` offers no raise and no all-in once three raises were seen
after the flop, except where `stage_index` is 1.  The replay counts these raises as they were made
(`flopRaises_replayFrom`).  The handler passes the seat for `stage_index`, so that the exception is
not for a stage but for the big blind.

* `capped_iff`: after three raises the reply is never a raise or all-in, exactly when the robot is
  not the big blind.
-/

namespace Holdem.Decide
open Support

variable {W : Type}

/-- A raise or an all-in after the flop. -/
def HistoryLine.RaisesPostflop (his : HistoryLine) : Prop :=
  his.round ≠ 0 ∧ (his.act = .raise ∨ his.act = .allin)

instance (his : HistoryLine) : Decidable his.RaisesPostflop := inferInstanceAs (Decidable (_ ∧ _))

/-- The entries that the loop of the replay translates, from entry `i` on. -/
def replayedFrom (C : Configure) (E : Engine W) (r : Request) (board : List Card) :
    Nat → List HistoryLine → Replay W → List HistoryLine
  | _, [], _          => []
  | i, his :: rest, p =>
    match replayLine C E r board i his p with
    | .ok (p', true) =>
      (if (i : Int) > bbPos then [his] else []) ++ replayedFrom C E r board (i + 1) rest p'
    | _              => []

/-- The entries of the history that a request makes the replay translate. -/
def replayed (C : Configure) (E : Engine W) (s : Cards) (w : W) (r : Request) :
    List HistoryLine :=
  match prepare C E w r, Accounts.seatFrom C r 0 r.seat_info (.start C.mNumPlayers) with
  | some w, .ok accounts => replayedFrom C E r (s.begin r).testboardCards 0 r.history
      ⟨accounts, ⟨0, 0, 0⟩, true, unshuffle E w r⟩
  | _, _                 => []

/-- A raise, or all-in. -/
def Action.Raises : Action → Prop
  | .fold | .check | .call => False
  | _                      => True

instance : ∀ a : Action, Decidable a.Raises
  | .fold | .check | .call => isFalse id
  | .raise1 | .raise2 | .raise3 | .raise4 | .raise5 | .raise6 | .allin => isTrue trivial

/-- The action of the reply is no raise and no all-in. -/
def Reply.Capped (rp : Reply) : Prop := ∀ a ∈ rp.action, ¬ a.Raises

/-! ### Raises are counted -/

variable {C : Configure} {E : Engine W} {s s' : Cards} {w w' : W} {r : Request}
  {board : List Card}

theorem count_flopRaises (t : Raises) (round : Int) :
    (t.count round).flopRaises = t.flopRaises + if round ≠ 0 then 1 else 0 := by
  unfold Raises.count
  by_cases h : round = 0
  · simp [h]
  · simp [h, Ne.symm h]

/-- A translated entry adds to the raises after the flop exactly when it is one. -/
theorem translate_flopRaises {a : Accounts} {t t' : Raises} {his : HistoryLine}
    {newPos his_bet : Int} {action : Option Action}
    (h : translate C a t his newPos his_bet = .ok (t', action)) :
    t'.flopRaises = t.flopRaises + if his.RaisesPostflop then 1 else 0 := by
  unfold translate at h
  by_cases hfirst : 0 = his.round ∧ 0 = t.preflopRaises
  · -- before the flop, whatever the act
    have hno : ¬ his.RaisesPostflop := fun hr => hr.1 hfirst.1.symm
    rw [if_pos hfirst] at h
    rw [if_neg hno, Int.add_zero]
    cases hact : his.act with
    | fold | pass | follow | allin => simp only [hact] at h; cases h; rfl
    | raise | other =>
        simp only [hact] at h
        obtain ⟨beted, -, h⟩ := bind_eq_ok.mp h
        cases h
        rfl
  · rw [if_neg hfirst] at h
    cases hact : his.act with
    | fold | pass | follow | other =>
        simp only [hact] at h
        cases h
        simp [HistoryLine.RaisesPostflop, hact]
    | raise =>
        simp only [hact] at h
        obtain ⟨callSize, -, h⟩ := bind_eq_ok.mp h
        obtain ⟨f, -, h⟩ := bind_eq_ok.mp h
        cases h
        simp [HistoryLine.RaisesPostflop, hact, count_flopRaises]
    | allin =>
        simp only [hact] at h
        cases h
        simp [HistoryLine.RaisesPostflop, hact, count_flopRaises]

/-- A turn of the loop that goes on translates the entry, unless it is a blind. -/
theorem replayLine_flopRaises {i : Nat} {his : HistoryLine} {p p' : Replay W} {more : Bool}
    (h : replayLine C E r board i his p = .ok (p', more)) :
    p'.raises.flopRaises = p.raises.flopRaises +
      if more = true ∧ (i : Int) > bbPos ∧ his.RaisesPostflop then 1 else 0 := by
  obtain ⟨accounts, -, ⟨hi, rfl, rfl⟩ | ⟨-, rfl, rfl⟩ |
    ⟨raises, action, world, valid, ⟨hi, -⟩, htrans, -, rfl, rfl⟩⟩ := replayLine_cases h
  · simp [hi]
  · simp
  · simpa [hi] using translate_flopRaises htrans

/-- **The replay counts the raises.**  What it adds to the raises after the flop is how many of the
entries that it translates are raises after the flop. -/
theorem flopRaises_replayFrom {i : Nat} {history : List HistoryLine} {p p' : Replay W}
    (h : replayFrom C E r board i history p = .ok p') :
    p'.raises.flopRaises = p.raises.flopRaises +
      ((replayedFrom C E r board i history p).countP (·.RaisesPostflop) : Nat) := by
  induction history generalizing i p with
  | nil =>
      cases h
      simp [replayedFrom]
  | cons his rest ih =>
      obtain ⟨⟨q, more⟩, hline, h⟩ := bind_eq_ok.mp h
      have hcount := replayLine_flopRaises hline
      cases more with
      | false =>
          cases h
          simpa [replayedFrom, hline] using hcount
      | true =>
          rw [ih h, hcount]
          simp only [replayedFrom, hline, List.countP_append]
          by_cases hi : (i : Int) > bbPos
          · by_cases hr : his.RaisesPostflop
            · simp [hi, hr]
              omega
            · simp [hi, hr]
          · simp [hi]

/-- The decision state has the raises of the replay, and the seat of the robot. -/
theorem handle_flopRaises {d : Decision}
    (h : handleRobotDecide2 C E s w r = .ok (s', w', .reached d)) :
    d.state.flopRaises = ((replayed C E s w r).countP (·.RaisesPostflop) : Nat) ∧
      d.state.newPos = r.turnIndex C := by
  obtain ⟨s₁, w₁, q, hrestore, hstate, -⟩ := handle_reached h
  obtain ⟨-, -, w₀, p, holeCards, hprep, hreplay, -, -, hd⟩ := restore_reached hrestore
  obtain ⟨accounts, hseats, hreplay⟩ := bind_eq_ok.mp hreplay
  have hcount := flopRaises_replayFrom hreplay
  obtain ⟨maxRoundBet, -, hd⟩ := bind_eq_ok.mp hd
  obtain ⟨curRoundBet, -, hd⟩ := bind_eq_ok.mp hd
  obtain ⟨curRemains, -, hd⟩ := bind_eq_ok.mp hd
  have hq : q.state = _ := (Except.ok.inj hd).symm
  rw [hstate, hq]
  refine ⟨?_, rfl⟩
  simp only [replayed, hprep, hseats]
  exact hcount.trans (Int.zero_add _)

/-! ### The cap -/

namespace DecisionState
variable {d : DecisionState}

/-- Raises are offered only where the list is open. -/
theorem open_of_raises {a : Action} (ha : a ∈ d.validActions C) (hr : a.Raises) :
    d.spot.Open := by
  have hoff : d.spot.Offered C a := mem_getLegalActions2.mp ha
  cases a with
  | fold | check | call => exact hr.elim
  | raise1 | raise2 | raise3 | raise4 => exact hoff.1
  | raise5 | raise6 => exact hoff.elim
  | allin => exact hoff

/-- No reply is a raise exactly where the list is closed. -/
theorem capped_iff_not_open :
    (∀ strategySum S, (d.reply C strategySum S).Capped) ↔ ¬ d.spot.Open := by
  constructor
  · intro h hopen
    have hallin : Action.allin ∈ d.validActions C := mem_getLegalActions2.mpr hopen
    have hcapped := h [(Action.allin.name, 1)] .first
    rw [reply_of_single hallin] at hcapped
    exact hcapped .allin rfl trivial
  · intro hopen strategySum S a ha hr
    rcases reply_cases C d strategySum S with
      ⟨-, hdef⟩ | ⟨x, hx, hreply⟩
    · rw [hdef] at ha
      cases ha
    · rw [hreply] at ha
      cases ha
      exact hopen (open_of_raises (mem_of_candidate hx) hr)

end DecisionState

/-- **The cap on raises.**  When the replay translated three raises or all-ins after the flop, no
`strategySum` and no draw gives a raise or an all-in, exactly when the robot is not the big
blind. -/
theorem capped_iff {d : Decision} (h : handleRobotDecide2 C E s w r = .ok (s', w', .reached d))
    (hraises : 3 ≤ (replayed C E s w r).countP (·.RaisesPostflop)) :
    (∀ strategySum S, (d.state.reply C strategySum S).Capped) ↔ r.turnIndex C ≠ 1 := by
  obtain ⟨hcount, hpos⟩ := handle_flopRaises h
  rw [DecisionState.capped_iff_not_open, ← hpos]
  have hmany : ¬ d.state.spot.flop_raises < 3 := by
    simp only [DecisionState.spot]
    omega
  exact not_congr ⟨fun hopen => hopen.resolve_left hmany, Or.inr⟩

/-- Three raises on the flop; the big blind is first to act on the turn, and checks. -/
def raisedFlop : Request where
  uid := 6
  small_blind := 1
  big_blind := 2
  seat_info := [⟨6, false, 200, ["As", "Kh"]⟩, ⟨7, false, 200, []⟩]
  board_card := ["2d", "2c", "2s", "4d"]
  history :=
    [⟨0, .other, 1, 0, 199, 0⟩, ⟨1, .other, 2, 1, 198, 0⟩, ⟨0, .raise, 5, 3, 194, 0⟩,
      ⟨1, .raise, 16, 8, 182, 0⟩, ⟨0, .follow, 12, 24, 182, 0⟩, ⟨1, .raise, 10, 36, 172, 1⟩,
      ⟨0, .raise, 24, 46, 158, 1⟩, ⟨1, .raise, 34, 70, 138, 1⟩, ⟨0, .follow, 20, 104, 138, 1⟩,
      ⟨1, .pass, 0, 124, 138, 2⟩]

/-- Four raises on the flop, and the robot is the big blind. -/
def raisedFlopBlind : Request where
  uid := 7
  small_blind := 1
  big_blind := 2
  seat_info := [⟨6, false, 200, []⟩, ⟨7, false, 200, ["Kc", "Ac"]⟩]
  board_card := ["2d", "2c", "2s", "4d"]
  history :=
    [⟨0, .other, 1, 0, 199, 0⟩, ⟨1, .other, 2, 1, 198, 0⟩, ⟨0, .raise, 5, 3, 194, 0⟩,
      ⟨1, .follow, 4, 8, 194, 0⟩, ⟨1, .pass, 0, 12, 194, 1⟩, ⟨0, .raise, 6, 12, 188, 1⟩,
      ⟨1, .raise, 14, 18, 180, 1⟩, ⟨0, .raise, 20, 32, 168, 1⟩, ⟨1, .raise, 30, 52, 150, 1⟩,
      ⟨0, .follow, 18, 82, 150, 1⟩]

/-- The small blind is capped there. -/
theorem capped_raisedFlop : ∃ s' w' d,
    handleRobotDecide2 headsUp plainEngine .fresh () raisedFlop = .ok (s', w', .reached d) ∧
      ∀ strategySum S, (d.state.reply headsUp strategySum S).Capped := by
  obtain ⟨s', w', d, h⟩ : ∃ s' w' d,
      handleRobotDecide2 headsUp plainEngine .fresh () raisedFlop = .ok (s', w', .reached d) :=
    ⟨_, _, _, rfl⟩
  exact ⟨s', w', d, h, (capped_iff h (by decide)).mpr (by decide)⟩

/-- The big blind goes all-in after four raises on the flop. -/
theorem allin_over_cap : ∃ s' w' rp,
    handleRobotDecide2Rsp headsUp (plainDealer [("ALLIN", 1)]) .fresh () raisedFlopBlind =
      .ok (s', w', .reached rp) ∧
    4 ≤ (replayed headsUp (plainDealer [("ALLIN", 1)]).toEngine .fresh () raisedFlopBlind).countP
      (·.RaisesPostflop) ∧
    rp.action = some .allin ∧ rp.aiAct = 256 ∧ ¬ rp.Capped :=
  ⟨_, _, _, rfl, by decide, rfl, rfl, fun h => h .allin rfl trivial⟩

end Holdem.Decide
