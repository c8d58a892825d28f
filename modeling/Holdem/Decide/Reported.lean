import Holdem.Decide.Arithmetic

/-!
# Decide — Reported

The bets that the handler reports, with the arithmetic behind them.  The replay adds up the bets of
the history, `getLegalActions2` compares sums of the pot, the call and the sizes of the raises, and
the bet that is reported comes back as an entry of a later request.  A sum that is no `int` leaves
nothing to say of the reply, so that each property holds where the amounts are small enough besides.

* `reply_within_stack_iff`: the reply is defined, and bets no more than the player's chips, exactly
  when the spot is small and the action is `Affordable`.
* `reads_back_iff`: a raise is defined, and is read back as the action it was made for, exactly when
  the amounts are small and it `ReadsBack`.
-/

namespace Holdem.Decide
open Support

variable {W : Type} {C : Configure} {E : Engine W} {s s' : Cards} {w w' : W} {r : Request}

/-! ### The stack -/

/-- The sums are defined of the replay that the request leads to. -/
def AccountsDefined (C : Configure) (E : Engine W) (s : Cards) (w : W) (r : Request) : Prop :=
  ∀ w₀, prepare C E w r = some w₀ →
    SumsDefined C E r (s.begin r).testboardCards (unshuffle E w₀ r)

/-- A decision with a small pot comes from a replay whose sums are defined. -/
theorem accountsDefined_of_potSize {d : Decision} (hr : r.Fair)
    (h : handleRobotDecide2 C E s w r = .ok (s', w', .reached d))
    (hpot : d.state.potSize ≤ 2147483647) : AccountsDefined C E s w r := by
  obtain ⟨s₁, w₁, q, hrestore, hstate, -⟩ := handle_reached h
  obtain ⟨-, -, w₀, p, _, hprep, hp, -, -, hd⟩ := restore_reached hrestore
  intro w₀' hprep'
  cases hprep.symm.trans hprep'
  rw [hstate, (decisionState_copies hd).1] at hpot
  exact (sumsDefined_iff_potSize (fun his hhis => (hr.history his hhis).1) hp).mpr hpot

namespace DecisionState
variable {d : DecisionState}

/-- Without negative amounts every opening at a small spot is small. -/
theorem opensSmall_of_fair (hd : d.Fair) (hsmall : d.spot.Small C) (a : Action) :
    d.OpensSmall a.multiple := by
  intro _
  have hmultiple : 0 ≤ a.multiple ∧ a.multiple ≤ 10 := by
    cases a <;> decide
  have hbet := hd.bet
  have hcall := hd.call
  have hmost : IsInt (d.curRoundBet + d.callSize) := hsmall.beted
  unfold callSize at hmost
  unfold IsInt bbSize at *
  omega

end DecisionState

/-- **Replies and stacks.**  For a request without negative amounts, an action that is offered is
decided on and bet with defined sums, and bets no more than the player's chips, exactly when the
spot is small and the action affordable. -/
theorem reply_within_stack_iff {d : Decision} {a : Action} (hr : r.Fair)
    (h : handleRobotDecide2 C E s w r = .ok (s', w', .reached d))
    (ha : a ∈ d.state.validActions C) :
    (AccountsDefined C E s w r ∧ Computes (d.state.offerOps C) ∧
        Computes (d.state.choiceOps C a)) ∧
      0 ≤ d.state.aiBet C a ∧ d.state.aiBet C a ≤ d.state.curRemains ↔
    d.state.spot.Small C ∧ d.state.Affordable C a := by
  have hd := handle_fair hr h
  have hcall := hd.callSize_nonneg
  rw [DecisionState.offerOps_computes_iff hd.pot hcall, d.state.bet_within_stack_iff hd ha]
  constructor
  · rintro ⟨⟨-, hsmall, -⟩, hbet⟩
    exact ⟨hsmall, hbet⟩
  · rintro ⟨hsmall, hbet⟩
    have hle : d.state.potSize + d.state.callSize ≤ 1073741823 := hsmall.pot
    refine ⟨⟨accountsDefined_of_potSize hr h (by omega), hsmall, ?_⟩, hbet⟩
    rw [DecisionState.choiceOps_computes_iff hd.pot hcall hsmall ha]
    exact fun _ => DecisionState.opensSmall_of_fair hd hsmall a

/-- The call of a bet beyond the stack is offered, and bets more than the chips that remain. -/
theorem call_beyond_stack : ∃ s' w' d,
    handleRobotDecide2 headsUp plainEngine .fresh () shortStack = .ok (s', w', .reached d) ∧
      shortStack.Fair ∧ .call ∈ d.state.validActions headsUp ∧
      d.state.curRemains < d.state.aiBet headsUp .call := by
  obtain ⟨s', w', d, h, hd⟩ := handle_shortStack
  refine ⟨s', w', d, h, shortStack_fair, ?_⟩
  rw [hd]
  decide

/-- All-in is affordable there. -/
theorem allin_within_shortStack : ∃ s' w' d,
    handleRobotDecide2 headsUp plainEngine .fresh () shortStack = .ok (s', w', .reached d) ∧
      .allin ∈ d.state.validActions headsUp ∧
      d.state.aiBet headsUp .allin ≤ d.state.curRemains := by
  obtain ⟨s', w', d, h, hd⟩ := handle_shortStack
  have ha : .allin ∈ d.state.validActions headsUp := by rw [hd]; decide
  have hcomputes : Computes (shortStackState.spot.legalOps headsUp) := by decide
  have hsmall : d.state.spot.Small headsUp :=
    hd ▸ (Spot.legalOps_computes_iff (by decide) (by decide)).mp hcomputes
  exact ⟨s', w', d, h, ha,
    ((reply_within_stack_iff shortStack_fair h ha).mpr ⟨hsmall, trivial⟩).2.2⟩

/-! ### Reading back -/

/-- `readLine`. -/
def readOps (C : Configure) (p : Replay W) (i : Nat) (his : HistoryLine) (newPos : Int) :
    List Operation :=
  p.accounts.recordOps his.round newPos (his.his_bet i) ++
  match p.accounts.record his.round newPos (his.his_bet i) his.chips with
  | .error _     => []
  | .ok accounts => translateOps C accounts p.raises his newPos (his.his_bet i)

namespace DecisionState

/-- The bet of a raise as entry `i` comes back with it. -/
def comesBack (C : Configure) (d : DecisionState) (i : Nat) (a : Action) : Int :=
  if i = 14 then 32
  else max bbSize (if d.FirstBet then a.multiple * bbSize - d.curRoundBet
    else d.owed C + portion (d.spot.base C) a.percent)

/-- The bet that comes back is small enough to be added to the pot and to what is in front of the
player, and to be read: as the first raise before the flop, or by its ratio, where a hundred times
the raise over the call is an `int`, and the raises can be counted up. -/
structure EchoSmall (C : Configure) (d : DecisionState) (round i : Nat) (a : Action) : Prop where
  pot : IsInt (d.potSize + d.comesBack C i a)
  total : IsInt (d.curRoundBet + d.comesBack C i a)
  first : round = 0 ∧ d.preflopRaises = 0 → -2147483637 ≤ d.curRoundBet + d.comesBack C i a
  ratio : ¬ (round = 0 ∧ d.preflopRaises = 0) → Scales (d.comesBack C i a - d.callSize) ∧
    (C.mRealRaise = 0 → Scales (d.comesBack C i a))
  count : ¬ (round = 0 ∧ d.preflopRaises = 0) →
    if round = 0 then IsInt (d.preflopRaises + 1) else IsInt (d.flopRaises + 1)

variable {d : DecisionState} {a : Action}

theorem his_bet_echo (ha : a.IsRaise) (i : Nat) (pos round chips : Int) :
    (d.echo C a pos round chips).his_bet i = d.comesBack C i a := by
  by_cases hi : i = 14
  · simp only [HistoryLine.his_bet, comesBack, if_pos hi]
  · have hbet : (d.echo C a pos round chips).his_bet i = d.aiBet C a := if_neg hi
    rw [hbet, comesBack, if_neg hi]
    by_cases hf : d.FirstBet
    · rw [if_pos hf, aiBet_of_firstBet ha hf]
    · rw [if_neg hf, aiBet_of_not_firstBet ha hf]

end DecisionState

/-- Translating a raise, where what is in front of the player is an `int`. -/
theorem translateOps_raise_iff {a : Accounts} {t : Raises} {his : HistoryLine}
    {newPos his_bet beted callSize : Int} (hact : his.act = .raise)
    (hbeted : readAt₂ a.vBetting his.round newPos = .ok beted) (htotal : IsInt beted)
    (hcall : readAt₂ a.vRoundCall his.round newPos = .ok callSize) :
    Computes (translateOps C a t his newPos his_bet) ↔
      if 0 = his.round ∧ 0 = t.preflopRaises then -2147483637 ≤ beted
      else RatioSmall C his_bet his.pot callSize ∧ t.Counts his.round := by
  unfold translateOps
  split
  · next hfirst =>
      have hone : (Operation.add t.preflopRaises 1).Defined := by
        rw [← hfirst.2]
        decide
      simp only [hact, hbeted, computes_append, computes_cons, hone, computes_nil, and_true]
      exact nearestOps_computes_iff htotal
  · simp only [hact, hcall, computes_append, factorOps_computes_iff, countOps_computes_iff]

/-- The divisors of the ratio are the pot, with the call. -/
theorem ratioSmall_iff {his_bet his_pot callSize : Int} (hpot : 0 < his_pot) (hcall : 0 ≤ callSize)
    (hsum : IsInt (his_pot + callSize)) :
    RatioSmall C his_bet his_pot callSize ↔
      Scales (his_bet - callSize) ∧ (C.mRealRaise = 0 → Scales his_bet) := by
  constructor
  · intro h
    exact ⟨h.raise, h.bet⟩
  · rintro ⟨hraise, hbet⟩
    exact ⟨hraise, hsum, by omega, hbet, fun _ => ne_of_gt hpot⟩

/-- What reading the raise computes is defined exactly when the bet that comes back is small. -/
theorem readOps_computes_iff {p : Replay W} {round : Nat} {newPos historyStage : Int}
    {d : DecisionState} (hp : p.accounts.Shaped C.mNumPlayers)
    (hd : decisionState p round newPos historyStage = .ok d) (hpot : 3 ≤ d.potSize)
    (hcall : 0 ≤ d.callSize) (hle : d.potSize + d.callSize ≤ 1073741823) {a : Action}
    (ha : a.IsRaise) (i : Nat) (pos chips : Int) :
    Computes (readOps C p i (d.echo C a pos round chips) newPos) ↔ d.EchoSmall C round i a := by
  obtain ⟨hround, hbeted, hrem, hpre⟩ := decisionState_reads hd
  obtain ⟨hsize, hflop⟩ := decisionState_copies hd
  have hseat : Bounds newPos C.mNumPlayers := hp.remains ▸ bounds_of_readAt hrem
  have hstreet : Bounds round 4 := hp.roundBet ▸ bounds_of_readAt hround
  obtain ⟨accounts, hrec⟩ := Accounts.exists_record hp hseat hstreet (d.comesBack C i a) chips
  obtain ⟨hcalls, hbets⟩ := record_reads hround hbeted hrec
  have hsub : IsInt (d.maxRoundBet - d.curRoundBet) := by
    unfold DecisionState.callSize at hle hcall
    unfold IsInt
    omega
  have hsum : IsInt (d.potSize + d.callSize) := by
    unfold IsInt
    omega
  have hrecord : Computes (p.accounts.recordOps round newPos (d.comesBack C i a)) ↔
      IsInt (d.potSize + d.comesBack C i a) ∧ IsInt (d.curRoundBet + d.comesBack C i a) := by
    simp only [Accounts.recordOps, hround, hbeted, computes_cons, computes_nil, and_true,
      Operation.Defined, hsub, true_and, ← hsize]
  have hreadOps : readOps C p i (d.echo C a pos round chips) newPos =
      p.accounts.recordOps round newPos (d.comesBack C i a) ++
        translateOps C accounts p.raises (d.echo C a pos round chips) newPos
          (d.comesBack C i a) := by
    have hrec' : p.accounts.record (d.echo C a pos round chips).round newPos (d.comesBack C i a)
        (d.echo C a pos round chips).chips = .ok accounts := hrec
    rw [readOps, DecisionState.his_bet_echo ha, hrec']
    rfl
  have hfirst : (0 = (d.echo C a pos round chips).round ∧ 0 = p.raises.preflopRaises) ↔
      round = 0 ∧ d.preflopRaises = 0 := by
    simp only [DecisionState.echo, ← hpre]
    omega
  have hcount : p.raises.Counts (d.echo C a pos round chips).round ↔
      if round = 0 then IsInt (d.preflopRaises + 1) else IsInt (d.flopRaises + 1) := by
    simp only [Raises.Counts, DecisionState.echo, hflop, ← hpre]
    exact iff_of_eq (if_congr (by omega) rfl rfl)
  rw [hreadOps, computes_append, hrecord]
  constructor
  · rintro ⟨⟨hfits, htotal⟩, hops⟩
    rw [translateOps_raise_iff rfl hbets htotal hcalls] at hops
    refine ⟨hfits, htotal, fun h => ?_, fun h => ?_, fun h => ?_⟩
    · rwa [if_pos (hfirst.mpr h)] at hops
    · rw [if_neg (mt hfirst.mp h)] at hops
      exact (ratioSmall_iff (by omega) hcall hsum).mp hops.1
    · rw [if_neg (mt hfirst.mp h)] at hops
      exact hcount.mp hops.2
  · rintro ⟨hfits, htotal, hreads, hratio, hcounts⟩
    refine ⟨⟨hfits, htotal⟩, ?_⟩
    rw [translateOps_raise_iff rfl hbets htotal hcalls]
    split
    · next h => exact hreads (hfirst.mp h)
    · next h =>
        have hno := mt hfirst.mpr h
        exact ⟨(ratioSmall_iff (by omega) hcall hsum).mpr (hratio hno), hcount.mpr (hcounts hno)⟩

/-- **Bets read back.**  A raise that is offered at a decision state is computed, and read back,
with defined sums, as the action it was made for, exactly when the spot, the opening and the bet
that comes back are small and it `ReadsBack`. -/
theorem reads_back_iff {p : Replay W} {round : Nat} {newPos historyStage : Int}
    {d : DecisionState} (hp : p.accounts.Shaped C.mNumPlayers)
    (hd : decisionState p round newPos historyStage = .ok d) (hpot : 3 ≤ d.potSize)
    (hcall : 0 ≤ d.callSize) {a : Action} (ha : a.IsRaise) (hoff : a ∈ d.validActions C) (i : Nat)
    (pos chips : Int) :
    (Computes (d.offerOps C) ∧ Computes (d.choiceOps C a) ∧
        Computes (readOps C p i (d.echo C a pos round chips) newPos)) ∧
      (∃ t, readLine C p i (d.echo C a pos round chips) newPos = .ok (t, some a)) ↔
    (d.spot.Small C ∧ d.OpensSmall a.multiple ∧ d.EchoSmall C round i a) ∧
      d.ReadsBack C round i a := by
  have hpot₀ : 0 ≤ d.potSize := Int.le_trans (by decide) hpot
  rw [readLine_echo_iff hp hd hpot hcall ha, DecisionState.offerOps_computes_iff hpot₀ hcall]
  refine and_congr_left fun _ => and_congr_right fun hsmall => ?_
  rw [DecisionState.choiceOps_computes_iff hpot₀ hcall hsmall hoff,
    readOps_computes_iff hp hd hpot hcall hsmall.pot ha]
  exact and_congr_left fun _ => ⟨fun h => h ha, fun h _ => h⟩

/-- Two players with 50 each in the pot, before anybody acts on the flop. -/
def flopPot : Replay Unit where
  accounts :=
    ⟨100, [450, 450], [50, 0, 0, 0], [[48, 0], [0, 0], [0, 0], [0, 0]],
      [[50, 50], [0, 0], [0, 0], [0, 0]]⟩
  raises := ⟨1, 0, 49⟩
  isSucceed := true
  world := ()

theorem flopPot_shaped : flopPot.accounts.Shaped 2 :=
  ⟨rfl, rfl, ⟨rfl, by decide⟩, ⟨rfl, by decide⟩⟩

/-- A third of the pot, RAISE1, is read back as RAISE2. -/
theorem raise1_read_as_raise2 : ∃ d t,
    decisionState flopPot 1 0 2 = .ok d ∧ 3 ≤ d.potSize ∧ 0 ≤ d.callSize ∧
      .raise1 ∈ d.validActions headsUp ∧ d.aiBet headsUp .raise1 = 33 ∧
      readLine headsUp flopPot 11 (d.echo headsUp .raise1 0 (1 : Nat) 417) 0 =
        .ok (t, some .raise2) :=
  ⟨_, _, rfl, by decide, by decide, by decide, by decide, rfl⟩

/-- The whole pot is read back as RAISE4. -/
theorem raise4_read_back : ∃ d t,
    decisionState flopPot 1 0 2 = .ok d ∧
      readLine headsUp flopPot 11 (d.echo headsUp .raise4 0 (1 : Nat) 350) 0 =
        .ok (t, some .raise4) := by
  obtain ⟨d, hd, rfl⟩ : ∃ d, decisionState flopPot 1 0 2 = .ok d ∧
      d = ⟨100, 0, 0, 450, 1, 0, 49, 0, 2⟩ := ⟨_, rfl, rfl⟩
  have hsmall : Spot.Small headsUp ⟨100, 0, 0, 0, 450, 0, 49⟩ :=
    (Spot.legalOps_computes_iff (by decide) (by decide)).mp (by decide)
  obtain ⟨t, ht⟩ := ((reads_back_iff (C := headsUp) (a := .raise4) flopPot_shaped hd (by decide)
    (by decide) trivial (by decide) 11 0 350).mpr
      ⟨⟨hsmall, fun h => absurd h (by decide), by decide, by decide, fun h => absurd h (by decide),
        fun _ => by decide, fun _ => by decide⟩, trivial⟩).2
  exact ⟨_, t, hd, ht⟩

end Holdem.Decide
