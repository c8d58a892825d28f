import Holdem.Decide.Access
import Holdem.Support.Ints
import Holdem.Support.Totals

/-!
# Decide — Ledger

The accounts of the replay as a ledger of the history.

`Balanced` is what every recorded entry keeps: the pot is the sum of all bets, and the largest bet
of a round is the largest of the bets of its players.  So what an entry finds lacking, and what the
robot has to call, is never negative.  The sums are `int`s, and an entry is booked only where they
fit (`Books`): as no bet is negative, where the pot does.

* `sumsDefined_iff_betsFit`, `sumsDefined_iff_potSize`: all sums are defined exactly when the bets
  up to every entry that the loop comes to, or the pot after it, fit an `int`.
* `replay_balanced_iff`: that is also exactly when every entry leaves the accounts balanced.
* `ledger_iff`: the loop overwrites the bet of entry 14, so that the ledger is that of another
  history, the `booked` one; exactly when it is that of the request.
-/

namespace Holdem.Decide
open Support

variable {W : Type} {C : Configure} {E : Engine W} {r : Request} {board : List Card}

/-- The rounds are 0 to 3, the positions are of players, and no bet is negative. -/
def Request.InRange (C : Configure) (r : Request) : Prop :=
  ∀ his ∈ r.history, Bounds his.round 4 ∧ Bounds (r.newPos C his.pos) C.mNumPlayers ∧ 0 ≤ his.bet

instance (C : Configure) (r : Request) : Decidable (r.InRange C) :=
  inferInstanceAs (Decidable (∀ his ∈ r.history, _))

/-- The state of the loop at its first entry, with the number of the entry. -/
def begins (accounts : Accounts) (w : W) : Nat × Replay W := (0, ⟨accounts, ⟨0, 0, 0⟩, true, w⟩)

/-- The loop runs through the whole history to `p`, and no turn ends it early. -/
def RunsThrough (C : Configure) (E : Engine W) (r : Request) (board : List Card) (w : W)
    (p : Replay W) : Prop :=
  ∃ accounts, Accounts.seatFrom C r 0 r.seat_info (.start C.mNumPlayers) = .ok accounts ∧
    run (goesOn (turn C E r board)) (begins accounts w) r.history = some (r.history.length, p)

/-- `record`; nothing is computed behind an index out of range. -/
def Accounts.recordOps (a : Accounts) (round newPos his_bet : Int) : List Operation :=
  .add a.potSize his_bet ::
    match readAt a.vRoundBet round, readAt₂ a.vBetting round newPos with
    | .ok roundBet, .ok beted => [.sub roundBet beted, .add beted his_bet]
    | _, _                    => []

/-- The sums of an entry are defined. -/
def Books (C : Configure) (r : Request) (x : Nat × Replay W) (his : HistoryLine) : Prop :=
  Computes (x.2.accounts.recordOps his.round (r.newPos C his.pos) (his.his_bet x.1))

/-- The sums of all entries are defined that the loop comes to from `w`. -/
def SumsDefined (C : Configure) (E : Engine W) (r : Request) (board : List Card) (w : W) : Prop :=
  ∀ accounts, Accounts.seatFrom C r 0 r.seat_info (.start C.mNumPlayers) = .ok accounts →
    Guarded (goesOn (turn C E r board)) (Books C r) (begins accounts w) r.history

/-- The bets of a player in a round. -/
def Request.betsOf (C : Configure) (r : Request) (round player : Int)
    (history : List HistoryLine) : Int :=
  ((history.filter fun his => his.round = round ∧ r.newPos C his.pos = player).map
    HistoryLine.bet).sum

/-- The bets of a history. -/
def betsIn (history : List HistoryLine) : Int := (history.map HistoryLine.bet).sum

/-- The accounts are those of the history: the pot is the sum of the bets, and what a player has bet
in a round is the sum of the player's bets in it. -/
structure Ledger (C : Configure) (r : Request) (a : Accounts) : Prop where
  pot : a.potSize = betsIn r.history
  betting : ∀ round player, Bounds round 4 → Bounds player C.mNumPlayers →
    readAt₂ a.vBetting round player = .ok (r.betsOf C round player r.history)

/-- The history as the loop books it, from entry `i` on. -/
def bookedFrom : Nat → List HistoryLine → List HistoryLine
  | _, []          => []
  | i, his :: rest => { his with bet := his.his_bet i } :: bookedFrom (i + 1) rest

/-- The entries before number `i` as they are booked, the last of them first. -/
def Request.earlier (r : Request) (i : Nat) : List HistoryLine :=
  (bookedFrom 0 (r.history.take i)).reverse

/-- The bets of the entries up to this one add up to an `int`. -/
def Request.FitsTo (r : Request) (x : Nat × Replay W) (_his : HistoryLine) : Prop :=
  betsIn (r.earlier (x.1 + 1)) ≤ 2147483647

instance (r : Request) (x : Nat × Replay W) (his : HistoryLine) : Decidable (r.FitsTo x his) :=
  inferInstanceAs (Decidable (_ ≤ _))

/-- They do up to every entry that the loop comes to from `w`. -/
def BetsFit (C : Configure) (E : Engine W) (r : Request) (board : List Card) (w : W) : Prop :=
  ∀ accounts, Accounts.seatFrom C r 0 r.seat_info (.start C.mNumPlayers) = .ok accounts →
    Guarded (goesOn (turn C E r board)) r.FitsTo (begins accounts w) r.history

namespace Accounts

/-- The pot is the sum of all bets, and the largest bet of a round the largest bet of its
players. -/
structure Balanced (a : Accounts) : Prop where
  pot : a.potSize = gridTotal a.vBetting
  betting : ∀ row ∈ a.vBetting, ∀ x ∈ row, 0 ≤ x
  roundBet : ∀ round row m, readAt a.vBetting round = .ok row →
    readAt a.vRoundBet round = .ok m → m = peak 0 row

/-- What is stored for an entry as the call: what the player lacked, before the bet, to match the
largest bet of the round. -/
def StoresCall (a a' : Accounts) (round newPos : Int) : Prop :=
  ∃ row beted, readAt a.vBetting round = .ok row ∧ readAt row newPos = .ok beted ∧
    readAt₂ a'.vRoundCall round newPos = .ok (peak 0 row - beted) ∧ 0 ≤ peak 0 row - beted

/-! ### One entry -/

variable {a a' : Accounts} {round newPos his_bet chips : Int}

theorem start_balanced (n : Nat) : (start n).Balanced where
  pot := by
    have hrow : (List.replicate n (0 : Int)).sum = 0 := by
      rw [List.sum_replicate, nsmul_zero]
    rw [gridTotal, start, List.map_replicate, hrow]
    rfl
  betting := by
    intro row hrow x hx
    rw [List.eq_of_mem_replicate hrow] at hx
    exact Int.le_of_eq (List.eq_of_mem_replicate hx).symm
  roundBet := by
    intro round row m hrow hm
    rw [List.eq_of_mem_replicate (mem_of_readAt hm),
      List.eq_of_mem_replicate (mem_of_readAt hrow)]
    refine le_antisymm (peak_le_iff.mp (le_refl _)).1 (peak_le_iff.mpr ⟨le_refl _, ?_⟩)
    intro x hx
    exact Int.le_of_eq (List.eq_of_mem_replicate hx)

/-- The chips of the seats are not part of the balance. -/
theorem seatFrom_balanced {i : Nat} {seats : List SeatInfo} (ha : a.Balanced)
    (h : seatFrom C r i seats a = .ok a') : a'.Balanced := by
  obtain ⟨vRemains, rfl⟩ := seatFrom_eq h
  exact ⟨ha.pot, ha.betting, ha.roundBet⟩

/-- A bet that is not negative keeps the balance. -/
theorem record_balanced (ha : a.Balanced) (hbet : 0 ≤ his_bet)
    (h : a.record round newPos his_bet chips = .ok a') : a'.Balanced := by
  obtain ⟨roundBet, beted, hround, hbeted, -, -, hwrite, hmax, hpot⟩ := record_eq_ok h
  refine ⟨?_, ?_, fun i row m hrow hm => ?_⟩
  · rw [hpot, gridTotal_of_writeAt₂ hbeted hwrite, ha.pot, add_sub_cancel_left]
  · have hbeted₀ : 0 ≤ beted := forall_readAt₂ hbeted ha.betting
    exact forall_writeAt₂ hwrite ha.betting (add_nonneg hbeted₀ hbet)
  · obtain ⟨old, new, hold, hnew, hrows⟩ := writeAt₂_eq_ok.mp hwrite
    by_cases hi : i = round
    · -- the round of the entry: the peak of its row is raised as the largest bet is
      subst hi
      obtain ⟨_, hold', hbeted'⟩ := readAt₂_eq_ok.mp hbeted
      cases hold.symm.trans hold'
      cases hrow.symm.trans (readAt_written hrows)
      cases hm.symm.trans (readAt_written hmax)
      rw [peak_of_writeAt hbeted' hnew (le_add_of_nonneg_right hbet),
        ha.roundBet _ _ _ hold hround]
    · rw [readAt_unwritten hrows hi] at hrow
      rw [readAt_unwritten hmax hi] at hm
      exact ha.roundBet i row m hrow hm

/-- The call is read before the bet is added. -/
theorem record_storesCall (ha : a.Balanced)
    (h : a.record round newPos his_bet chips = .ok a') : a.StoresCall a' round newPos := by
  obtain ⟨roundBet, beted, hround, hbeted, -, hcall, -, -, -⟩ := record_eq_ok h
  obtain ⟨row, hrow, hmine⟩ := readAt₂_eq_ok.mp hbeted
  have hpeak := ha.roundBet _ _ _ hrow hround
  refine ⟨row, beted, hrow, hmine, ?_, sub_nonneg.mpr (le_peak (mem_of_readAt hmine))⟩
  rw [readAt₂_written hcall, hpeak]

/-- An entry adds its bet to those of its player in its round. -/
theorem record_betting (h : a.record round newPos his_bet chips = .ok a') {i j x : Int}
    (hx : readAt₂ a.vBetting i j = .ok x) :
    readAt₂ a'.vBetting i j =
      .ok (x + if round = i ∧ newPos = j then his_bet else 0) := by
  obtain ⟨roundBet, beted, -, hbeted, -, -, hwrite, -, -⟩ := record_eq_ok h
  by_cases hij : round = i ∧ newPos = j
  · obtain ⟨rfl, rfl⟩ := hij
    cases hbeted.symm.trans hx
    rw [readAt₂_written hwrite, if_pos ⟨rfl, rfl⟩]
  · rw [readAt₂_unwritten hwrite fun ⟨hi, hj⟩ => hij ⟨hi.symm, hj.symm⟩, if_neg hij, add_zero, hx]

/-- No bet exceeds the pot, so that the sums of an entry fit where the pot does. -/
theorem recordOps_computes_iff_pot (ha : a.Balanced) (hbet : 0 ≤ his_bet) :
    Computes (a.recordOps round newPos his_bet) ↔ a.potSize + his_bet ≤ 2147483647 := by
  have hpot : (Operation.add a.potSize his_bet).Defined ↔ a.potSize + his_bet ≤ 2147483647 := by
    have hnonneg : 0 ≤ a.potSize := by
      rw [ha.pot]
      refine List.sum_nonneg fun x hx => ?_
      obtain ⟨row, hrow, rfl⟩ := List.mem_map.mp hx
      exact List.sum_nonneg (ha.betting row hrow)
    simp only [Operation.Defined, IsInt]
    omega
  rw [recordOps, computes_cons, hpot]
  refine and_iff_left_of_imp fun hle => ?_
  split
  · next roundBet beted hround hbeted =>
      obtain ⟨row, hrow, hmine⟩ := readAt₂_eq_ok.mp hbeted
      have hpeak : roundBet = peak 0 row := ha.roundBet _ _ _ hrow hround
      have hmost : peak 0 row ≤ a.potSize :=
        ha.pot ▸ peak_le_gridTotal ha.betting (mem_of_readAt hrow)
      have hmine₀ : 0 ≤ beted := ha.betting row (mem_of_readAt hrow) beted (mem_of_readAt hmine)
      have hle' : beted ≤ peak 0 row := le_peak (mem_of_readAt hmine)
      simp only [computes_cons, computes_nil, and_true, Operation.Defined, IsInt]
      omega
  · exact computes_nil

end Accounts

/-! ### The booked history -/

theorem betsIn_cons (his : HistoryLine) (rest : List HistoryLine) :
    betsIn (his :: rest) = his.bet + betsIn rest := List.sum_cons

/-- The bets booked are those of the history, but for the one of entry 14. -/
theorem betsIn_bookedFrom (i : Nat) (history : List HistoryLine) :
    betsIn (bookedFrom i history) = betsIn history +
      if i ≤ 14 then history[14 - i]?.elim 0 (fun his => 32 - his.bet) else 0 := by
  induction history generalizing i with
  | nil => simp [betsIn, bookedFrom]
  | cons his rest ih =>
      rw [bookedFrom, betsIn_cons, betsIn_cons, ih]
      rcases lt_trichotomy i 14 with hlt | rfl | hgt
      · have hnext : 14 - i = 14 - (i + 1) + 1 := by omega
        have hbet : his.his_bet i = his.bet := if_neg (Nat.ne_of_lt hlt)
        rw [if_pos (show i + 1 ≤ 14 from hlt), if_pos (Nat.le_of_lt hlt), hnext,
          List.getElem?_cons_succ, hbet, add_assoc]
      · have hbet : his.his_bet 14 = 32 := rfl
        simp only [hbet, Nat.reduceLeDiff, if_false, if_true, Nat.sub_self,
          List.getElem?_cons_zero, Option.elim_some]
        omega
      · have hbet : his.his_bet i = his.bet := if_neg (Nat.ne_of_gt hgt)
        rw [if_neg (by omega), if_neg (by omega), hbet, add_assoc]

/-- A history whose entry 14, if it has one, bets 32 is booked as it is. -/
theorem bookedFrom_eq_self {i : Nat} {history : List HistoryLine}
    (h : ∀ his, i ≤ 14 → history[14 - i]? = some his → his.bet = 32) :
    bookedFrom i history = history := by
  induction history generalizing i with
  | nil => rfl
  | cons his rest ih =>
      have hrest : bookedFrom (i + 1) rest = rest := by
        refine ih fun his' hle hget => h his' (by omega) ?_
        rw [show 14 - i = 14 - (i + 1) + 1 by omega, List.getElem?_cons_succ]
        exact hget
      have hbet : his.his_bet i = his.bet := by
        by_cases hi : i = 14
        · subst hi
          exact (h his (Nat.le_refl _) rfl).symm
        · exact if_neg hi
      rw [bookedFrom, hrest, hbet]

/-- The loop books the bets of the request exactly when entry 14, if there is one, bets 32. -/
theorem betsIn_booked_iff (history : List HistoryLine) :
    betsIn (bookedFrom 0 history) = betsIn history ↔
      ∀ his, history[14]? = some his → his.bet = 32 := by
  rw [betsIn_bookedFrom, if_pos (Nat.zero_le _)]
  cases history[14 - 0]? with
  | none => simp
  | some his =>
      simp only [Option.elim_some, Option.some.injEq, forall_eq']
      omega

theorem bookedFrom_append (i : Nat) (history rest : List HistoryLine) :
    bookedFrom i (history ++ rest) =
      bookedFrom i history ++ bookedFrom (i + history.length) rest := by
  induction history generalizing i with
  | nil => rfl
  | cons his history ih =>
      rw [List.cons_append, bookedFrom, ih, bookedFrom, List.cons_append, List.length_cons,
        Nat.add_right_comm, Nat.add_assoc]

/-- An entry is the last one before the next. -/
theorem earlier_succ {i : Nat} {his : HistoryLine} (h : r.history[i]? = some his) :
    r.earlier (i + 1) = { his with bet := his.his_bet i } :: r.earlier i := by
  obtain ⟨hlt, hget⟩ := List.getElem?_eq_some_iff.mp h
  have hlen : 0 + (r.history.take i).length = i := by
    rw [List.length_take, Nat.zero_add, Nat.min_eq_left (Nat.le_of_lt hlt)]
  rw [Request.earlier, List.take_succ_eq_append_getElem hlt, bookedFrom_append, hlen,
    List.reverse_append, hget]
  rfl

/-! ### The loop -/

/-- A turn after which the loop goes on. -/
theorem goesOn_turn {x y : Nat × Replay W} {his : HistoryLine}
    (h : goesOn (turn C E r board) x his = some y) :
    y.1 = x.1 + 1 ∧ replayLine C E r board x.1 his x.2 = .ok (y.2, true) := by
  rcases hline : replayLine C E r board x.1 his x.2 with e | ⟨q, _ | _⟩
  · simp only [goesOn, turn, hline, Except.map] at h
    cases h
  · simp only [goesOn, turn, hline, Except.map] at h
    cases h
  · simp only [goesOn, turn, hline, Except.map] at h
    cases h
    exact ⟨rfl, rfl⟩

theorem goesOn_of_replayLine {x : Nat × Replay W} {his : HistoryLine} {q : Replay W}
    (h : replayLine C E r board x.1 his x.2 = .ok (q, true)) :
    goesOn (turn C E r board) x his = some (x.1 + 1, q) := by
  simp only [goesOn, turn, h, Except.map]

theorem goesOn_of_replayLine_false {x : Nat × Replay W} {his : HistoryLine} {q : Replay W}
    (h : replayLine C E r board x.1 his x.2 = .ok (q, false)) :
    goesOn (turn C E r board) x his = none := by
  simp only [goesOn, turn, h, Except.map]

/-- What a run through the loop adds up. -/
theorem run_books {history : List HistoryLine} {x y : Nat × Replay W}
    (h : run (goesOn (turn C E r board)) x history = some y) :
    y.2.accounts.potSize = x.2.accounts.potSize + betsIn (bookedFrom x.1 history) ∧
      ∀ {round player b}, readAt₂ x.2.accounts.vBetting round player = .ok b →
        readAt₂ y.2.accounts.vBetting round player =
          .ok (b + r.betsOf C round player (bookedFrom x.1 history)) := by
  induction history generalizing x with
  | nil =>
      cases h
      refine ⟨(add_zero _).symm, fun hb => ?_⟩
      rw [hb]
      exact congrArg Except.ok (add_zero _).symm
  | cons his rest ih =>
      obtain ⟨z, hz, h⟩ := run_cons_eq_some h
      obtain ⟨hnum, hline⟩ := goesOn_turn hz
      have hrec := replayLine_accounts hline
      obtain ⟨hpot, hbetting⟩ := ih h
      rw [hnum] at hpot hbetting
      obtain ⟨_, _, -, -, -, -, -, -, hpot₁⟩ := Accounts.record_eq_ok hrec
      constructor
      · rw [hpot, hpot₁, add_assoc]
        rfl
      · intro round player b hb
        rw [hbetting (Accounts.record_betting hrec hb), add_assoc]
        refine congrArg (fun n => Except.ok (b + n)) ?_
        by_cases hmine : his.round = round ∧ r.newPos C his.pos = player
        · simp [Request.betsOf, bookedFrom, hmine]
        · simp [Request.betsOf, bookedFrom, hmine]

theorem readAt₂_replicate {rows columns : Nat} {i j : Int} (a : Int) (hi : Bounds i rows)
    (hj : Bounds j columns) :
    readAt₂ (List.replicate rows (List.replicate columns a)) i j = .ok a := by
  obtain ⟨b, hb⟩ := (grid_replicate rows columns a).readAt₂_of_bounds hi hj
  obtain ⟨row, hrow, hb'⟩ := readAt₂_eq_ok.mp hb
  rw [List.eq_of_mem_replicate (mem_of_readAt hrow)] at hb'
  rw [hb, List.eq_of_mem_replicate (mem_of_readAt hb')]

/-- A run through the loop is the loop. -/
theorem run_replayFrom {history : List HistoryLine} {x y : Nat × Replay W}
    (h : run (goesOn (turn C E r board)) x history = some y) :
    replayFrom C E r board x.1 history x.2 = .ok y.2 := by
  induction history generalizing x with
  | nil => cases h; rfl
  | cons his rest ih =>
      obtain ⟨z, hz, h⟩ := run_cons_eq_some h
      obtain ⟨hnum, hline⟩ := goesOn_turn hz
      have hrest := ih h
      rw [hnum] at hrest
      simp only [replayFrom, hline, ok_bind, if_true, hrest]

theorem RunsThrough.replay {w : W} {p : Replay W} (h : RunsThrough C E r board w p) :
    replay C E r board w = .ok p := by
  obtain ⟨accounts, hseat, hrun⟩ := h
  exact bind_eq_ok.mpr ⟨accounts, hseat, run_replayFrom hrun⟩

/-- The accounts after a run through the loop are those of the booked history. -/
theorem RunsThrough.books {w : W} {p : Replay W} (h : RunsThrough C E r board w p) :
    p.accounts.potSize = betsIn (bookedFrom 0 r.history) ∧
      ∀ round player, Bounds round 4 → Bounds player C.mNumPlayers →
        readAt₂ p.accounts.vBetting round player =
          .ok (r.betsOf C round player (bookedFrom 0 r.history)) := by
  obtain ⟨accounts, hseat, hrun⟩ := h
  obtain ⟨vRemains, rfl⟩ := Accounts.seatFrom_eq hseat
  obtain ⟨hpot, hbetting⟩ := run_books hrun
  refine ⟨?_, fun round player hround hplayer => ?_⟩
  · refine hpot.trans ?_
    simp only [begins, Accounts.start, zero_add]
  · have hzero : readAt₂ (Accounts.start C.mNumPlayers).vBetting round player = .ok 0 :=
      readAt₂_replicate 0 hround hplayer
    rw [hbetting hzero, zero_add]
    rfl

/-! ### The sums of the loop -/

theorem seatFrom_settles {accounts : Accounts}
    (h : Accounts.seatFrom C r 0 r.seat_info (.start C.mNumPlayers) = .ok accounts) :
    accounts.Shaped C.mNumPlayers ∧ accounts.Balanced :=
  ⟨Accounts.seatFrom_shaped (Accounts.start_shaped _) h,
    Accounts.seatFrom_balanced (Accounts.start_balanced _) h⟩

/-- The loop has come to the entries `rest`, with the accounts of those before. -/
structure ComesTo (r : Request) (x : Nat × Replay W) (rest : List HistoryLine) : Prop where
  rest : r.history.drop x.1 = rest
  pot : x.2.accounts.potSize = betsIn (r.earlier x.1)
  balanced : x.2.accounts.Balanced

theorem comesTo_begins {accounts : Accounts} (w : W)
    (h : Accounts.seatFrom C r 0 r.seat_info (.start C.mNumPlayers) = .ok accounts) :
    ComesTo r (begins accounts w) r.history := by
  refine ⟨rfl, ?_, (seatFrom_settles h).2⟩
  obtain ⟨vRemains, rfl⟩ := Accounts.seatFrom_eq h
  rfl

namespace ComesTo
variable {x y : Nat × Replay W} {his : HistoryLine} {rest : List HistoryLine}

theorem get (h : ComesTo r x (his :: rest)) : r.history[x.1]? = some his := by
  rw [← List.head?_drop, h.rest]
  rfl

theorem mem (h : ComesTo r x (his :: rest)) : his ∈ r.history :=
  List.mem_of_getElem? h.get

/-- The bets up to the entry are the pot with its bet. -/
theorem betsIn_earlier (h : ComesTo r x (his :: rest)) :
    betsIn (r.earlier (x.1 + 1)) = x.2.accounts.potSize + his.his_bet x.1 := by
  rw [earlier_succ h.get, betsIn_cons, h.pot, add_comm]

theorem next (h : ComesTo r x (his :: rest)) (hbet : 0 ≤ his.bet)
    (hy : goesOn (turn C E r board) x his = some y) : ComesTo r y rest := by
  obtain ⟨hnum, hline⟩ := goesOn_turn hy
  have hrec := replayLine_accounts hline
  obtain ⟨_, _, -, -, -, -, -, -, hpot⟩ := Accounts.record_eq_ok hrec
  refine ⟨?_, ?_, Accounts.record_balanced h.balanced (his_bet_nonneg hbet x.1) hrec⟩
  · rw [hnum, ← List.tail_drop, h.rest]
    rfl
  · rw [hnum, h.betsIn_earlier, hpot]

/-- The sums of an entry are defined exactly when the bets up to it fit. -/
theorem books_iff (h : ComesTo r x (his :: rest)) (hbet : 0 ≤ his.bet) :
    Books C r x his ↔ r.FitsTo x his := by
  rw [Request.FitsTo, h.betsIn_earlier]
  exact Accounts.recordOps_computes_iff_pot h.balanced (his_bet_nonneg hbet x.1)

end ComesTo

/-- **The sums of the replay.**  Without negative bets they are defined exactly when the bets up to
every entry that the loop comes to fit. -/
theorem sumsDefined_iff_betsFit (hr : ∀ his ∈ r.history, 0 ≤ his.bet) (w : W) :
    SumsDefined C E r board w ↔ BetsFit C E r board w := by
  refine forall_congr' fun accounts => forall_congr' fun hseat => ?_
  refine guarded_congr (P := ComesTo r) (fun x his rest hx => ?_) (fun x his rest y hx hy => ?_)
    (comesTo_begins w hseat)
  · exact hx.books_iff (hr his hx.mem)
  · exact hx.next (hr his hx.mem) hy

/-- No bet makes the pot smaller. -/
theorem potSize_le_of_replayFrom {i : Nat} {history : List HistoryLine} {p p' : Replay W}
    (hhis : ∀ his ∈ history, 0 ≤ his.bet) (h : replayFrom C E r board i history p = .ok p') :
    p.accounts.potSize ≤ p'.accounts.potSize := by
  refine replayFrom_accounts (P := fun a => p.accounts.potSize ≤ a.potSize)
    (A := fun his => 0 ≤ his.bet) ?_ (le_refl _) hhis h
  intro a a' his i ha hbet hrec
  obtain ⟨_, _, -, -, -, -, -, -, hpot⟩ := Accounts.record_eq_ok hrec
  rw [hpot]
  exact ha.trans (le_add_of_nonneg_right (his_bet_nonneg hbet i))

theorem guarded_books_iff {history : List HistoryLine} {x : Nat × Replay W} {p : Replay W}
    (hhis : ∀ his ∈ history, 0 ≤ his.bet) (hb : x.2.accounts.Balanced)
    (hx : x.2.accounts.potSize ≤ 2147483647)
    (h : replayFrom C E r board x.1 history x.2 = .ok p) :
    Guarded (goesOn (turn C E r board)) (Books C r) x history ↔
      p.accounts.potSize ≤ 2147483647 := by
  induction history generalizing x with
  | nil =>
      cases h
      exact iff_of_true trivial hx
  | cons his rest ih =>
      obtain ⟨hfirst, hrest⟩ := List.forall_mem_cons.mp hhis
      have hbet := his_bet_nonneg hfirst x.1
      obtain ⟨⟨q, more⟩, hline, h⟩ := bind_eq_ok.mp h
      have hrec := replayLine_accounts hline
      obtain ⟨_, _, -, -, -, -, -, -, hpot⟩ := Accounts.record_eq_ok hrec
      have hbooks : Books C r x his ↔ q.accounts.potSize ≤ 2147483647 := by
        rw [hpot]
        exact Accounts.recordOps_computes_iff_pot hb hbet
      cases more with
      | false =>
          cases h
          rw [guarded_cons_of_none (goesOn_of_replayLine_false hline), hbooks]
      | true =>
          rw [guarded_cons_of_some (goesOn_of_replayLine hline), hbooks]
          constructor
          · rintro ⟨hq, hg⟩
            exact (ih (x := (x.1 + 1, q)) hrest (Accounts.record_balanced hb hbet hrec) hq h).mp hg
          · intro hp
            have hq := (potSize_le_of_replayFrom hrest h).trans hp
            exact ⟨hq,
              (ih (x := (x.1 + 1, q)) hrest (Accounts.record_balanced hb hbet hrec) hq h).mpr hp⟩

/-- The sums of a replay that comes to its end are defined exactly when the pot fits. -/
theorem sumsDefined_iff_potSize {w : W} {p : Replay W} (hr : ∀ his ∈ r.history, 0 ≤ his.bet)
    (h : replay C E r board w = .ok p) :
    SumsDefined C E r board w ↔ p.accounts.potSize ≤ 2147483647 := by
  obtain ⟨accounts, hseat, h⟩ := bind_eq_ok.mp h
  have hstart : (begins accounts w).2.accounts.potSize ≤ 2147483647 := by
    rw [(comesTo_begins w hseat).pot]
    exact (by decide : (0 : Int) ≤ 2147483647)
  rw [← guarded_books_iff (x := begins accounts w) hr (seatFrom_settles hseat).2 hstart h]
  refine ⟨fun hsums => hsums accounts hseat, fun hg accounts' hseat' => ?_⟩
  cases hseat.symm.trans hseat'
  exact hg

/-- **Exactly when the accounts are those of the history.**  After a run through the whole history,
the sums are defined, and the pot and the bets of every player in every round are the sums of the
bets of the request, exactly when these fit an `int` and entry 14, if there is one, bets 32. -/
theorem ledger_iff {w : W} {p : Replay W} (hr : r.InRange C) (h : RunsThrough C E r board w p) :
    SumsDefined C E r board w ∧ Ledger C r p.accounts ↔
      betsIn r.history ≤ 2147483647 ∧ ∀ his, r.history[14]? = some his → his.bet = 32 := by
  obtain ⟨hpot, hbetting⟩ := h.books
  rw [sumsDefined_iff_potSize (fun his hhis => (hr his hhis).2.2) h.replay, hpot]
  constructor
  · rintro ⟨hfits, hl⟩
    have hbooked : betsIn (bookedFrom 0 r.history) = betsIn r.history := hpot.symm.trans hl.pot
    exact ⟨hbooked ▸ hfits, (betsIn_booked_iff r.history).mp hbooked⟩
  · rintro ⟨hfits, hfourteen⟩
    have hself : bookedFrom 0 r.history = r.history :=
      bookedFrom_eq_self fun his _ hget => hfourteen his hget
    rw [hself] at hpot hbetting ⊢
    exact ⟨hfits, hpot, hbetting⟩

theorem ledger_shortStack : ∃ p,
    RunsThrough headsUp plainEngine shortStack shortStack.board_card () p ∧
      Ledger headsUp shortStack p.accounts := by
  obtain ⟨p, hp⟩ : ∃ p, RunsThrough headsUp plainEngine shortStack shortStack.board_card () p :=
    ⟨_, _, rfl, rfl⟩
  exact ⟨p, hp, ((ledger_iff (by decide) hp).mpr ⟨by decide, nofun⟩).2⟩

/-- Fifteen calls of one chip. -/
def fifteen : Request :=
  { shortStack with history := List.replicate 15 ⟨0, .follow, 1, 3, 100, 1⟩ }

/-- The last of the fifteen calls is booked with 32 chips. -/
theorem not_ledger_fifteen : fifteen.Valid ∧ fifteen.InRange headsUp ∧
    ∃ p, RunsThrough headsUp plainEngine fifteen fifteen.board_card () p ∧
      ¬ Ledger headsUp fifteen p.accounts := by
  obtain ⟨p, hp⟩ : ∃ p, RunsThrough headsUp plainEngine fifteen fifteen.board_card () p :=
    ⟨_, _, rfl, rfl⟩
  refine ⟨by decide, by decide, p, hp, fun hl => ?_⟩
  have hbooked : betsIn (bookedFrom 0 fifteen.history) = betsIn fifteen.history :=
    hp.books.1.symm.trans hl.pot
  exact absurd hbooked (by decide)

/-! ### The balance of the replay -/

/-- The entry is recorded with the call that its player lacks, and the accounts are balanced after
it. -/
def Settled (C : Configure) (r : Request) (x : Nat × Replay W) (his : HistoryLine) : Prop :=
  ∃ a, x.2.accounts.record his.round (r.newPos C his.pos) (his.his_bet x.1) his.chips = .ok a ∧
    a.Shaped C.mNumPlayers ∧ a.Balanced ∧
      x.2.accounts.StoresCall a his.round (r.newPos C his.pos)

/-- The call of the decision state is what the robot lacks to match the largest bet of the
round. -/
def Lacks (a : Accounts) (round newPos : Int) (d : DecisionState) : Prop :=
  ∃ row mine, readAt a.vBetting round = .ok row ∧ readAt row newPos = .ok mine ∧
    d.callSize = peak 0 row - mine ∧ 0 ≤ d.callSize ∧ (d.callSize = 0 ↔ mine = peak 0 row)

/-- An entry in range is settled. -/
theorem settled_of_inRange {x : Nat × Replay W} {his : HistoryLine}
    (ha : x.2.accounts.Shaped C.mNumPlayers) (hb : x.2.accounts.Balanced)
    (hhis : Bounds his.round 4 ∧ Bounds (r.newPos C his.pos) C.mNumPlayers ∧ 0 ≤ his.bet) :
    Settled C r x his := by
  obtain ⟨hround, hpos, hbet⟩ := hhis
  obtain ⟨a, hrec⟩ := Accounts.exists_record ha hpos hround (his.his_bet x.1) his.chips
  exact ⟨a, hrec, Accounts.record_shaped ha hrec,
    Accounts.record_balanced hb (his_bet_nonneg hbet x.1) hrec,
    Accounts.record_storesCall hb hrec⟩

/-- The sums of the entries are defined, and they are settled, exactly as far as the bets fit. -/
theorem guarded_settles_iff {accounts : Accounts} (hr : r.InRange C) (w : W)
    (hseat : Accounts.seatFrom C r 0 r.seat_info (.start C.mNumPlayers) = .ok accounts) :
    Guarded (goesOn (turn C E r board)) (fun x his => Books C r x his ∧ Settled C r x his)
        (begins accounts w) r.history ↔
      Guarded (goesOn (turn C E r board)) r.FitsTo (begins accounts w) r.history := by
  refine guarded_congr
    (P := fun x rest => ComesTo r x rest ∧ x.2.accounts.Shaped C.mNumPlayers)
    (fun x his rest hx => ?_) (fun x his rest y hx hy => ?_)
    ⟨comesTo_begins w hseat, (seatFrom_settles hseat).1⟩
  · obtain ⟨hcomes, hshaped⟩ := hx
    have hhis := hr his hcomes.mem
    rw [hcomes.books_iff hhis.2.2]
    exact and_iff_left (settled_of_inRange hshaped hcomes.balanced hhis)
  · obtain ⟨hcomes, hshaped⟩ := hx
    exact ⟨hcomes.next (hr his hcomes.mem).2.2 hy,
      Accounts.record_shaped hshaped (replayLine_accounts (goesOn_turn hy).2)⟩

/-- The accounts are balanced after the replay. -/
theorem replay_accounts_balanced {w : W} {p : Replay W} (hr : r.InRange C)
    (h : replay C E r board w = .ok p) : p.accounts.Balanced := by
  obtain ⟨accounts, hseat, h⟩ := bind_eq_ok.mp h
  refine replayFrom_accounts (P := Accounts.Balanced) (A := fun his => 0 ≤ his.bet) ?_
    (seatFrom_settles hseat).2 (fun his hhis => (hr his hhis).2.2) h
  intro a a' his i ha hbet hrec
  exact Accounts.record_balanced ha (his_bet_nonneg hbet i) hrec

/-- The decision state of balanced accounts calls what the robot lacks. -/
theorem decisionState_lacks {p : Replay W} {round : Nat} {newPos historyStage : Int}
    {d : DecisionState} (hp : p.accounts.Balanced)
    (h : decisionState p round newPos historyStage = .ok d) :
    Lacks p.accounts round newPos d := by
  obtain ⟨maxRoundBet, hmax, h⟩ := bind_eq_ok.mp h
  obtain ⟨curRoundBet, hcur, h⟩ := bind_eq_ok.mp h
  obtain ⟨curRemains, -, h⟩ := bind_eq_ok.mp h
  cases h
  obtain ⟨row, hrow, hmine⟩ := readAt₂_eq_ok.mp hcur
  cases hp.roundBet _ _ _ hrow hmax
  have hle : curRoundBet ≤ peak 0 row := le_peak (mem_of_readAt hmine)
  refine ⟨row, curRoundBet, hrow, hmine, rfl, sub_nonneg.mpr hle, ?_⟩
  exact sub_eq_zero.trans eq_comm

/-- The call of a decision is an `int` where the pot is. -/
theorem call_computes {p : Replay W} {round : Nat} {newPos historyStage : Int}
    {d : DecisionState} (hp : p.accounts.Balanced) (hpot : p.accounts.potSize ≤ 2147483647)
    (h : decisionState p round newPos historyStage = .ok d) :
    Computes [.sub d.maxRoundBet d.curRoundBet] := by
  obtain ⟨row, mine, hrow, hmine, hcall, hnonneg, -⟩ := decisionState_lacks hp h
  have hrow' := mem_of_readAt hrow
  have hmost := hp.pot ▸ peak_le_gridTotal hp.betting hrow'
  have hmine₀ : 0 ≤ mine := hp.betting row hrow' mine (mem_of_readAt hmine)
  have hsub : d.callSize ≤ 2147483647 := by omega
  rw [computes_cons, and_iff_left computes_nil]
  exact ⟨(by decide : (-2147483648 : Int) ≤ 0).trans hnonneg, hsub⟩

/-- **The balance of the replay.**  Of a history in range every entry that the loop comes to is
booked and settled exactly when the bets up to it fit an `int`; and that is exactly when the call of
a decision that is reached is what the robot lacks, which is then never negative. -/
theorem replay_balanced_iff (hr : r.InRange C) :
    (∀ accounts w, Accounts.seatFrom C r 0 r.seat_info (.start C.mNumPlayers) = .ok accounts →
      (Guarded (goesOn (turn C E r board)) (fun x his => Books C r x his ∧ Settled C r x his)
          (begins accounts w) r.history ↔
        Guarded (goesOn (turn C E r board)) r.FitsTo (begins accounts w) r.history)) ∧
    ∀ s w s' w' q, restore C E s w r = .ok (s', w', .reached q) →
      ∃ w₀ p, prepare C E w r = some w₀ ∧
        replay C E r (s.begin r).testboardCards (unshuffle E w₀ r) = .ok p ∧
        (SumsDefined C E r (s.begin r).testboardCards (unshuffle E w₀ r) ∧
            Computes [.sub q.state.maxRoundBet q.state.curRoundBet] ∧
            Lacks p.accounts q.round (r.turnIndex C) q.state ↔
          BetsFit C E r (s.begin r).testboardCards (unshuffle E w₀ r)) := by
  refine ⟨fun accounts w hseat => guarded_settles_iff hr w hseat, fun s w s' w' q hq => ?_⟩
  obtain ⟨-, -, w₀, p, _, hprep, hp, -, -, hd⟩ := restore_reached hq
  have hbets : ∀ his ∈ r.history, 0 ≤ his.bet := fun his hhis => (hr his hhis).2.2
  have hbalanced := replay_accounts_balanced hr hp
  refine ⟨w₀, p, hprep, hp, ?_⟩
  rw [← sumsDefined_iff_betsFit hbets]
  refine and_iff_left_of_imp fun hsums => ?_
  exact ⟨call_computes hbalanced ((sumsDefined_iff_potSize hbets hp).mp hsums) hd,
    decisionState_lacks hbalanced hd⟩

theorem balanced_shortStack :
    (∃ accounts, Accounts.seatFrom headsUp shortStack 0 shortStack.seat_info
        (.start headsUp.mNumPlayers) = .ok accounts ∧
      Guarded (goesOn (turn headsUp plainEngine shortStack shortStack.board_card))
        (fun x his => Books headsUp shortStack x his ∧ Settled headsUp shortStack x his)
        (begins accounts ()) shortStack.history) ∧
    ∃ s' w' q p, restore headsUp plainEngine .fresh () shortStack = .ok (s', w', .reached q) ∧
      Lacks p q.round (shortStack.turnIndex headsUp) q.state := by
  have hr : shortStack.InRange headsUp := by decide
  obtain ⟨hloop, hcall⟩ :=
    @replay_balanced_iff _ headsUp plainEngine shortStack shortStack.board_card hr
  have hfits : BetsFit headsUp plainEngine shortStack shortStack.board_card () := by
    intro accounts hseat
    cases hseat
    decide
  obtain ⟨accounts, hseat⟩ : ∃ accounts, Accounts.seatFrom headsUp shortStack 0
      shortStack.seat_info (.start headsUp.mNumPlayers) = .ok accounts := ⟨_, rfl⟩
  obtain ⟨s', w', q, hq⟩ : ∃ s' w' q,
      restore headsUp plainEngine .fresh () shortStack = .ok (s', w', .reached q) :=
    ⟨_, _, _, rfl⟩
  obtain ⟨w₀, p, -, -, hlacks⟩ := hcall _ _ _ _ _ hq
  exact ⟨⟨accounts, hseat, (hloop accounts () hseat).mpr (hfits accounts hseat)⟩,
    s', w', q, p.accounts, hq, (hlacks.mpr hfits).2.2⟩

/-- The amounts of the history are `int`s. -/
def Request.HasInts (r : Request) : Prop :=
  ∀ his ∈ r.history, IsInt his.bet ∧ IsInt his.pot ∧ IsInt his.chips

instance (r : Request) : Decidable r.HasInts :=
  inferInstanceAs (Decidable (∀ his ∈ r.history, _))

/-- The short stack again, with another bet of the small blind on the river. -/
def riverBet (bet pot : Int) : Request :=
  { shortStack with history := shortStack.history.take 9 ++ [⟨0, .raise, bet, pot, 98, 3⟩] }

/-- After the largest bet every bet is an `int`, and their sum, which is the pot, is not. -/
theorem not_balanced_riverBet :
    (riverBet 2147483647 4).Valid ∧ (riverBet 2147483647 4).HasInts ∧
      (riverBet 2147483647 4).InRange headsUp ∧
      (∃ p, RunsThrough headsUp plainEngine (riverBet 2147483647 4) Cards.testBoard () p ∧
        (∀ row ∈ p.accounts.vBetting, ∀ x ∈ row, IsInt x) ∧
          ¬ IsInt (gridTotal p.accounts.vBetting)) ∧
      ¬ ∀ accounts, Accounts.seatFrom headsUp (riverBet 2147483647 4) 0
          (riverBet 2147483647 4).seat_info (.start headsUp.mNumPlayers) = .ok accounts →
        Guarded (goesOn (turn headsUp plainEngine (riverBet 2147483647 4) Cards.testBoard))
          (fun x his => Books headsUp (riverBet 2147483647 4) x his ∧
            Settled headsUp (riverBet 2147483647 4) x his)
          (begins accounts ()) (riverBet 2147483647 4).history := by
  have hr : (riverBet 2147483647 4).InRange headsUp := by decide
  obtain ⟨p, hp, hbets, hpot⟩ : ∃ p,
      RunsThrough headsUp plainEngine (riverBet 2147483647 4) Cards.testBoard () p ∧
        (∀ row ∈ p.accounts.vBetting, ∀ x ∈ row, IsInt x) ∧
          ¬ IsInt (gridTotal p.accounts.vBetting) :=
    ⟨_, ⟨_, rfl, rfl⟩, by decide, by decide⟩
  refine ⟨by decide, by decide, hr, ⟨p, hp, hbets, hpot⟩, fun h => ?_⟩
  have hfits := (guarded_settles_iff hr () rfl).mp (h _ rfl)
  exact absurd hfits (by decide)

end Holdem.Decide
