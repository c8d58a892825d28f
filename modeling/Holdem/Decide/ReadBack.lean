import Holdem.Decide.Raises
import Holdem.Decide.Shape

/-!
# Decide — ReadBack

The bet that the robot reports for a raise, read back by the replay of a later request.  The sizes
that are bet and the tables that bets are read by were made apart: a size below half the pot has no
entry in the tables, a small pot rounds to another entry, and entry 14 of a history has its bet
overwritten.

* `firstRaise_eq_iff`, `ratioRaise_eq_iff`: what the two tables read.
* `readLine_echo_iff`: the raise is read as the action it was made for exactly when `ReadsBack`.
-/

namespace Holdem.Decide
open Support

variable {W : Type}

/-- How the loop of the replay reads entry `i`. -/
def readLine (C : Configure) (p : Replay W) (i : Nat) (his : HistoryLine) (newPos : Int) :
    Checked (Raises × Option Action) := do
  let accounts ← p.accounts.record his.round newPos (his.his_bet i) his.chips
  translate C accounts p.raises his newPos (his.his_bet i)

/-- The totals that are read as the action, for the first raise before the flop. -/
def Action.ReadsTotal : Action → Int → Prop
  | .raise2, total => total ≤ 6
  | .raise3, total => 7 ≤ total ∧ total ≤ 8
  | .raise4, total => 9 ≤ total
  | _, _           => False

/-- The raises, over a base, that are read as the action otherwise. -/
def Action.ReadsRatio : Action → Int → Int → Prop
  | .raise2, base, x => 25 * base ≤ 100 * x ∧ 100 * x < 63 * base
  | .raise3, base, x => 63 * base ≤ 100 * x ∧ 100 * x < 88 * base
  | .raise4, base, x => 88 * base ≤ 100 * x
  | _, _, _          => False

/-- What a player has in front for the first raise of so many big blinds to be read as it, the bet
being at least one blind. -/
def Action.ReadsBlinds : Action → Int → Prop
  | .raise2, beted => beted ≤ 4
  | .raise3, beted => beted ≤ 6
  | .raise4, _     => True
  | _, _           => False

/-- The bases of which the share is read as it, with what is owed for a call. -/
def Action.ReadsShare : Action → Int → Int → Prop
  | .raise2, base, owed => ¬ (base = 3 ∧ owed = 0)
  | .raise3, base, _    => base ≠ 5
  | .raise4, _, _       => True
  | _, _, _             => False

namespace DecisionState

/-- The history entry of a raise made at this state, by the seat of the robot. -/
def echo (C : Configure) (d : DecisionState) (a : Action) (pos round chips : Int) :
    HistoryLine := ⟨pos, .raise, d.aiBet C a, d.potSize, chips, round⟩

/-- When the raise is read as the first one before the flop.  Entry 14 is read as a bet of 32. -/
def ReadsBackFirst (C : Configure) (d : DecisionState) (i : Nat) (a : Action) : Prop :=
  if i = 14 then a.ReadsTotal (d.curRoundBet + 32)
  else if d.FirstBet then a.ReadsBlinds d.curRoundBet
  else a.ReadsTotal
    (d.curRoundBet + max bbSize (d.owed C + portion (d.spot.base C) a.percent))

/-- When the raise is read by its ratio to the pot, with the call where `mRealRaise` counts it. -/
def ReadsBackRatio (C : Configure) (d : DecisionState) (i : Nat) (a : Action) : Prop :=
  if i = 14 then a.ReadsRatio (d.spot.base C) (32 - d.owed C)
  else if d.FirstBet then
    a.ReadsRatio (d.spot.base C) (max bbSize (a.multiple * bbSize - d.curRoundBet) - d.owed C)
  else a.ReadsShare (d.spot.base C) (d.owed C)

/-- The raise made at this state in the round is read back as it was made, at entry `i`. -/
def ReadsBack (C : Configure) (d : DecisionState) (round : Nat) (i : Nat) (a : Action) : Prop :=
  if round = 0 ∧ d.preflopRaises = 0 then d.ReadsBackFirst C i a else d.ReadsBackRatio C i a

end DecisionState

/-! ### The two tables -/

theorem nearest_first (total : Int) :
    nearest total [6, 8, 10] = if total ≤ 6 then 0 else if total ≤ 8 then 1 else 2 := by
  simp only [nearest, nearestFrom]
  split_ifs <;> omega

theorem nearest_ratio (f : Int) : nearest f [0, 50, 75, 100] =
    if f < 25 then 0 else if f < 63 then 1 else if f < 88 then 2 else 3 := by
  simp only [nearest, nearestFrom]
  split_ifs <;> omega

theorem firstRaise_eq (total : Int) : firstRaise total =
    some (if total ≤ 6 then .raise2 else if total ≤ 8 then .raise3 else .raise4) := by
  rw [firstRaise, nearest_first]
  split_ifs <;> rfl

theorem ratioRaise_eq (f : Int) : ratioRaise f =
    some (if f < 25 then .call else if f < 63 then .raise2 else if f < 88 then .raise3
      else .raise4) := by
  rw [ratioRaise, nearest_ratio]
  split_ifs <;> rfl

/-- What the table of the first raise before the flop reads. -/
theorem firstRaise_eq_iff (total : Int) (a : Action) :
    firstRaise total = some a ↔ a.ReadsTotal total := by
  rw [firstRaise_eq, Option.some.injEq]
  cases a <;> simp only [Action.ReadsTotal] <;> split_ifs <;> simp <;> omega

/-- Truncation does not matter against a positive bound. -/
theorem tdiv_lt_iff {x base k : Int} (hbase : 0 < base) (hk : 0 < k) :
    x.tdiv base < k ↔ x < k * base := by
  by_cases hx : 0 ≤ x
  · rw [Int.tdiv_eq_ediv_of_nonneg hx]
    exact Int.ediv_lt_iff_lt_mul hbase
  · have hneg : 0 ≤ (-x).tdiv base := Int.tdiv_nonneg (by omega) (Int.le_of_lt hbase)
    rw [Int.neg_tdiv] at hneg
    have hpos : 0 < k * base := Int.mul_pos hk hbase
    exact iff_of_true (by omega) (by omega)

/-- What the table of ratios reads. -/
theorem ratioRaise_eq_iff {a : Action} (ha : a.IsRaise) {base x : Int} (hbase : 0 < base) :
    ratioRaise ((x * 100).tdiv base) = some a ↔ a.ReadsRatio base x := by
  have hlt : ∀ k, 0 < k → ((x * 100).tdiv base < k ↔ x * 100 < k * base) :=
    fun k hk => tdiv_lt_iff hbase hk
  rw [ratioRaise_eq, Option.some.injEq]
  simp only [hlt 25 (by decide), hlt 63 (by decide), hlt 88 (by decide)]
  cases a with
  | fold | check | call | allin => exact ha.elim
  | raise1 | raise5 | raise6 =>
      refine iff_of_false ?_ id
      split_ifs <;> exact not_false
  | raise2 | raise3 | raise4 =>
      simp only [Action.ReadsRatio]
      split_ifs <;> simp only [true_iff, false_iff] <;> omega

/-! ### Reading an entry -/

variable {C : Configure}

theorem readLine_of_record {p : Replay W} {i : Nat} {his : HistoryLine} {newPos : Int}
    {a : Accounts}
    (h : p.accounts.record his.round newPos (his.his_bet i) his.chips = .ok a) :
    readLine C p i his newPos = translate C a p.raises his newPos (his.his_bet i) := by
  simp only [readLine, h, ok_bind]

/-- A turn of the loop that goes on behind the blinds commands the engine what it reads. -/
theorem replayLine_reads {E : Engine W} {r : Request} {board : List Card} {i : Nat}
    {his : HistoryLine} {p p' : Replay W} (hi : (i : Int) > bbPos)
    (h : replayLine C E r board i his p = .ok (p', true)) :
    ∃ action w valid, readLine C p i his (r.newPos C his.pos) = .ok (p'.raises, action) ∧
      updateRange C E r board i (r.newPos C his.pos) his.round action p.world = .ok (w, valid) ∧
      p'.world = E.Command w action := by
  obtain ⟨accounts, hrec, ⟨hn, -⟩ | ⟨-, hmore, -⟩ |
    ⟨raises, action, w, valid, -, htrans, hupdate, -, rfl⟩⟩ := replayLine_cases h
  · exact absurd hi hn
  · cases hmore
  · exact ⟨action, w, valid, bind_eq_ok.mpr ⟨accounts, hrec, htrans⟩, hupdate, rfl⟩

/-- What an entry leaves where it is read. -/
theorem record_reads {a a' : Accounts} {round newPos his_bet chips roundBet beted : Int}
    (hround : readAt a.vRoundBet round = .ok roundBet)
    (hbeted : readAt₂ a.vBetting round newPos = .ok beted)
    (h : a.record round newPos his_bet chips = .ok a') :
    readAt₂ a'.vRoundCall round newPos = .ok (roundBet - beted) ∧
      readAt₂ a'.vBetting round newPos = .ok (beted + his_bet) := by
  obtain ⟨roundBet', beted', hround', hbeted', -, hcall, hbet, -⟩ := Accounts.record_eq_ok h
  cases hround.symm.trans hround'
  cases hbeted.symm.trans hbeted'
  exact ⟨readAt₂_written hcall, readAt₂_written hbet⟩

/-- The ratio of a bet is that of the raise to the base of the sizes. -/
theorem factor_eq (his_bet : Int) {d : DecisionState} (hpot : 0 < d.potSize)
    (hcall : 0 ≤ d.callSize) : factor C his_bet d.potSize d.callSize =
      .ok (((his_bet - d.owed C) * 100).tdiv (d.spot.base C)) := by
  have hlt := C.realRaise_lt
  have hdiv : ¬ d.potSize + d.callSize = 0 := by omega
  obtain h | h : C.mRealRaise = 0 ∨ C.mRealRaise = 1 := by omega
  · simp [factor, divide, hdiv, Int.ne_of_gt hpot, h, DecisionState.owed, Spot.base,
      DecisionState.spot, ok_bind]
  · simp [factor, divide, hdiv, h, DecisionState.owed, Spot.base, DecisionState.spot,
      ok_bind]

/-- The decision state reads the accounts at the seat and the round. -/
theorem decisionState_reads {p : Replay W} {round : Nat} {newPos historyStage : Int}
    {d : DecisionState} (h : decisionState p round newPos historyStage = .ok d) :
    readAt p.accounts.vRoundBet round = .ok d.maxRoundBet ∧
      readAt₂ p.accounts.vBetting round newPos = .ok d.curRoundBet ∧
      readAt p.accounts.vRemains newPos = .ok d.curRemains ∧
      p.raises.preflopRaises = d.preflopRaises := by
  obtain ⟨maxRoundBet, hmax, h⟩ := bind_eq_ok.mp h
  obtain ⟨curRoundBet, hcur, h⟩ := bind_eq_ok.mp h
  obtain ⟨curRemains, hrem, h⟩ := bind_eq_ok.mp h
  cases h
  exact ⟨hmax, hcur, hrem, rfl⟩

/-- It copies the pot and the raises. -/
theorem decisionState_copies {p : Replay W} {round : Nat} {newPos historyStage : Int}
    {d : DecisionState} (h : decisionState p round newPos historyStage = .ok d) :
    d.potSize = p.accounts.potSize ∧ d.flopRaises = p.raises.flopRaises := by
  obtain ⟨_, -, h⟩ := bind_eq_ok.mp h
  obtain ⟨_, -, h⟩ := bind_eq_ok.mp h
  obtain ⟨_, -, h⟩ := bind_eq_ok.mp h
  cases h
  exact ⟨rfl, rfl⟩

/-- The first raise before the flop is read by its total. -/
theorem translate_first {a : Accounts} {t : Raises} {his : HistoryLine} {newPos his_bet beted : Int}
    (hfirst : 0 = his.round ∧ 0 = t.preflopRaises) (hact : his.act = .raise)
    (hbeted : readAt₂ a.vBetting his.round newPos = .ok beted) :
    ∃ t', translate C a t his newPos his_bet = .ok (t', firstRaise beted) := by
  simp only [translate, if_pos hfirst, hact, hbeted, ok_bind]
  exact ⟨_, rfl⟩

/-- Any other raise is read by its ratio. -/
theorem translate_ratio {a : Accounts} {t : Raises} {his : HistoryLine}
    {newPos his_bet callSize f : Int} (hfirst : ¬ (0 = his.round ∧ 0 = t.preflopRaises))
    (hact : his.act = .raise) (hcall : readAt₂ a.vRoundCall his.round newPos = .ok callSize)
    (hf : factor C his_bet his.pot callSize = .ok f) :
    ∃ t', translate C a t his newPos his_bet = .ok (t', ratioRaise f) := by
  simp only [translate, if_neg hfirst, hact, hcall, hf, ok_bind]
  exact ⟨_, rfl⟩

/-- How the raise is read: as the first one before the flop, or by its ratio. -/
theorem readLine_echo {p : Replay W} {round : Nat} {newPos historyStage : Int}
    {d : DecisionState} (hp : p.accounts.Shaped C.mNumPlayers)
    (hd : decisionState p round newPos historyStage = .ok d) (hpot : 0 < d.potSize)
    (hcall : 0 ≤ d.callSize) (a : Action) (i : Nat) (pos chips : Int) :
    ∃ t, readLine C p i (d.echo C a pos round chips) newPos = .ok (t,
      if round = 0 ∧ d.preflopRaises = 0 then
        firstRaise (d.curRoundBet + (d.echo C a pos round chips).his_bet i)
      else ratioRaise
        ((((d.echo C a pos round chips).his_bet i - d.owed C) * 100).tdiv (d.spot.base C))) := by
  obtain ⟨hround, hbeted, hrem, hpre⟩ := decisionState_reads hd
  have hseat : Bounds newPos C.mNumPlayers := hp.remains ▸ bounds_of_readAt hrem
  have hstreet : Bounds round 4 := hp.roundBet ▸ bounds_of_readAt hround
  obtain ⟨accounts, hrec⟩ :=
    Accounts.exists_record hp hseat hstreet ((d.echo C a pos round chips).his_bet i) chips
  obtain ⟨hcalls, hbets⟩ := record_reads hround hbeted hrec
  have hread : readLine C p i (d.echo C a pos round chips) newPos = _ := readLine_of_record hrec
  rw [hread]
  by_cases hfirst : round = 0 ∧ d.preflopRaises = 0
  · rw [if_pos hfirst]
    obtain ⟨h₀, h₁⟩ := hfirst
    have hfirst' : 0 = (d.echo C a pos round chips).round ∧ 0 = p.raises.preflopRaises :=
      ⟨by simp only [DecisionState.echo, h₀]; rfl, (hpre.trans h₁).symm⟩
    exact translate_first hfirst' rfl hbets
  · rw [if_neg hfirst]
    have hfirst' : ¬ (0 = (d.echo C a pos round chips).round ∧ 0 = p.raises.preflopRaises) := by
      rintro ⟨h₀, h₁⟩
      simp only [DecisionState.echo] at h₀
      exact hfirst ⟨by omega, hpre.symm.trans h₁.symm⟩
    exact translate_ratio hfirst' rfl hcalls (factor_eq _ hpot hcall)

/-! ### The raise read back -/

namespace DecisionState
variable {d : DecisionState} {a : Action}

theorem raise_eq_max (multiple percent : Int) :
    d.raise C multiple percent = max bbSize (d.sized C multiple percent) := by
  simp only [raise]
  split
  · next h => exact (max_eq_left (Int.le_of_lt h)).symm
  · next h => exact (max_eq_right (Int.not_lt.mp h)).symm

theorem aiBet_of_isRaise (ha : a.IsRaise) :
    d.aiBet C a = d.raise C a.multiple a.percent :=
  congrArg Prod.snd (choose_of_isRaise ha)

theorem aiBet_of_firstBet (ha : a.IsRaise) (hf : d.FirstBet) :
    d.aiBet C a = max bbSize (a.multiple * bbSize - d.curRoundBet) := by
  rw [aiBet_of_isRaise ha, raise_eq_max, sized_of_firstBet hf]

theorem aiBet_of_not_firstBet (ha : a.IsRaise) (hf : ¬ d.FirstBet) :
    d.aiBet C a = max bbSize (d.owed C + portion (d.spot.base C) a.percent) := by
  rw [aiBet_of_isRaise ha, raise_eq_max, sized_of_not_firstBet hf]

theorem owed_nonneg (hcall : 0 ≤ d.callSize) : 0 ≤ d.owed C := by
  unfold owed
  split
  · exact hcall
  · exact Int.le_refl 0

/-- The sizes are shares of at least the pot. -/
theorem le_base (hcall : 0 ≤ d.callSize) : d.potSize ≤ d.spot.base C := by
  simp only [Spot.base, spot]
  split
  · exact Int.le_refl _
  · omega

/-- The total of the raise is one of those read as it. -/
theorem readsTotal_echo_iff (ha : a.IsRaise) (i : Nat) (pos round chips : Int) :
    a.ReadsTotal (d.curRoundBet + (d.echo C a pos round chips).his_bet i) ↔
      d.ReadsBackFirst C i a := by
  by_cases hi : i = 14
  · simp only [ReadsBackFirst, HistoryLine.his_bet, if_pos hi]
  · have hbet : (d.echo C a pos round chips).his_bet i = d.aiBet C a := if_neg hi
    rw [hbet, ReadsBackFirst, if_neg hi]
    by_cases hf : d.FirstBet
    · rw [if_pos hf, aiBet_of_firstBet ha hf]
      cases a with
      | fold | check | call | allin => exact ha.elim
      | raise1 | raise5 | raise6 => exact Iff.rfl
      | raise2 =>
          simp only [Action.ReadsTotal, Action.ReadsBlinds, Action.multiple, bbSize]
          omega
      | raise3 =>
          simp only [Action.ReadsTotal, Action.ReadsBlinds, Action.multiple, bbSize]
          omega
      | raise4 =>
          refine iff_of_true ?_ trivial
          simp only [Action.ReadsTotal, Action.multiple, bbSize]
          omega
    · rw [if_neg hf, aiBet_of_not_firstBet ha hf]

/-- A share of the base is rounded down, and only a base of 3 or 5 is small enough to notice. -/
theorem readsRatio_share_iff {base owed : Int} (ha : a.IsRaise) (hbase : 3 ≤ base)
    (howed : 0 ≤ owed) :
    a.ReadsRatio base (max bbSize (owed + portion base a.percent) - owed) ↔
      a.ReadsShare base owed := by
  cases a with
  | fold | check | call | allin => exact ha.elim
  | raise1 | raise5 | raise6 => exact Iff.rfl
  | raise2 =>
      simp only [Action.ReadsRatio, Action.ReadsShare, Action.percent, portion, bbSize]
      omega
  | raise3 =>
      simp only [Action.ReadsRatio, Action.ReadsShare, Action.percent, portion, bbSize]
      by_cases hlarge : 7 ≤ base
      · omega
      · obtain rfl | rfl | rfl | rfl : base = 3 ∨ base = 4 ∨ base = 5 ∨ base = 6 := by omega
        · omega
        · omega
        · omega
        · omega
  | raise4 =>
      refine iff_of_true ?_ trivial
      simp only [Action.ReadsRatio, Action.percent, portion, bbSize]
      omega

/-- The raise over the call is in one of the ratios to the base that are read as it. -/
theorem readsRatio_echo_iff (ha : a.IsRaise) (hpot : 3 ≤ d.potSize) (hcall : 0 ≤ d.callSize)
    (i : Nat) (pos round chips : Int) :
    a.ReadsRatio (d.spot.base C) ((d.echo C a pos round chips).his_bet i - d.owed C) ↔
      d.ReadsBackRatio C i a := by
  by_cases hi : i = 14
  · simp only [ReadsBackRatio, HistoryLine.his_bet, if_pos hi]
  · have hbet : (d.echo C a pos round chips).his_bet i = d.aiBet C a := if_neg hi
    rw [hbet, ReadsBackRatio, if_neg hi]
    by_cases hf : d.FirstBet
    · rw [if_pos hf, aiBet_of_firstBet ha hf]
    · rw [if_neg hf, aiBet_of_not_firstBet ha hf]
      exact readsRatio_share_iff ha (Int.le_trans hpot (le_base hcall)) (owed_nonneg hcall)

end DecisionState

/-- **Bets read back.**  A raise made at a decision state is read back as the action it was made for
exactly when `ReadsBack`: never RAISE1, and the others by the pot, the call and what is in front of
the player. -/
theorem readLine_echo_iff {p : Replay W} {round : Nat} {newPos historyStage : Int}
    {d : DecisionState} (hp : p.accounts.Shaped C.mNumPlayers)
    (hd : decisionState p round newPos historyStage = .ok d) (hpot : 3 ≤ d.potSize)
    (hcall : 0 ≤ d.callSize) {a : Action} (ha : a.IsRaise) (i : Nat) (pos chips : Int) :
    (∃ t, readLine C p i (d.echo C a pos round chips) newPos = .ok (t, some a)) ↔
      d.ReadsBack C round i a := by
  obtain ⟨t, hread⟩ := readLine_echo hp hd (by omega) hcall a i pos chips
  have hbase : 0 < d.spot.base C := by
    have := d.le_base (C := C) hcall
    omega
  simp only [hread, Except.ok.injEq, Prod.mk.injEq, exists_eq_left', DecisionState.ReadsBack]
  by_cases hfirst : round = 0 ∧ d.preflopRaises = 0
  · rw [if_pos hfirst, if_pos hfirst, firstRaise_eq_iff]
    exact DecisionState.readsTotal_echo_iff ha i pos round chips
  · rw [if_neg hfirst, if_neg hfirst, ratioRaise_eq_iff ha hbase]
    exact DecisionState.readsRatio_echo_iff ha hpot hcall i pos round chips

end Holdem.Decide
