import Holdem.Decide.Ledger

/-!
# Decide — Arithmetic

The replay computes with `int`s: it adds up the bets, and takes the ratio of a bet to the pot that
the entry reports.  The checks of the request say nothing of these amounts.  `turnOps` lists what a
turn of the loop computes, in the order of the source, and `EntrySmall` says of an entry when all of
this is defined, by the amounts of the request and the bets before it.  What is computed behind the
loop, for the offer and the bet, is in `DecisionState.offerOps` and `DecisionState.choiceOps`.

* `turnOps_computes_iff`: the arithmetic of a turn is defined exactly when its entry is small.
* `arithmetic_iff`: that of the loop is, exactly when every entry is small that it comes to.
-/

namespace Holdem.Decide
open Support

variable {W : Type}

/-! ### The operations of a turn -/

/-- `newPos`. -/
def seatOps (C : Configure) (r : Request) (his : HistoryLine) : List Operation :=
  if his.pos > bbPos then [.add his.pos (r.seatOffset C)] else []

/-- `nearestFrom`: the distances, up to an entry that is the value itself. -/
def nearestFromOps (x : Int) : List Int → List Operation
  | []             => []
  | bet :: betting =>
    if bet = x then [] else .sub x bet :: .abs (x - bet) :: nearestFromOps x betting

/-- `nearest`. -/
def nearestOps (x : Int) : List Int → List Operation
  | []             => []
  | bet :: betting => .sub x bet :: .abs (x - bet) :: nearestFromOps x betting

/-- `factor`. -/
def factorOps (C : Configure) (his_bet his_pot callSize : Int) : List Operation :=
  [.sub his_bet callSize, .mul (his_bet - callSize) 100, .add his_pot callSize,
    .div ((his_bet - callSize) * 100) (his_pot + callSize)] ++
  if C.mRealRaise = 0 then [.mul his_bet 100, .div (his_bet * 100) his_pot] else []

/-- `Raises.count`. -/
def Raises.countOps (t : Raises) (round : Int) : List Operation :=
  if 0 = round then [.add t.preflopRaises 1] else [.add t.flopRaises 1]

/-- `translate`. -/
def translateOps (C : Configure) (a : Accounts) (t : Raises) (his : HistoryLine)
    (newPos his_bet : Int) : List Operation :=
  if 0 = his.round ∧ 0 = t.preflopRaises then
    match his.act with
    | .fold | .pass | .follow => []
    | .allin                  => [.add t.preflopRaises 1]
    | .raise | .other         =>
      match readAt₂ a.vBetting his.round newPos with
      | .ok beted => nearestOps beted [6, 8, 10] ++ [.add t.preflopRaises 1]
      | .error _  => []
  else
    match his.act with
    | .fold | .pass | .follow | .other => []
    | .allin                           => t.countOps his.round
    | .raise                           =>
      match readAt₂ a.vRoundCall his.round newPos with
      | .ok callSize => factorOps C his_bet his.pot callSize ++ t.countOps his.round
      | .error _     => []

/-- The entry is translated: it is behind the blinds, and the game has not ended. -/
def Translates (E : Engine W) (i : Nat) (p : Replay W) : Prop :=
  (i : Int) > bbPos ∧ E.isTerminal p.world = false

instance (E : Engine W) (i : Nat) (p : Replay W) : Decidable (Translates E i p) :=
  inferInstanceAs (Decidable (_ ∧ _))

/-- The turn of the loop for entry `i`. -/
def turnOps (C : Configure) (E : Engine W) (r : Request) (i : Nat) (his : HistoryLine)
    (p : Replay W) : List Operation :=
  seatOps C r his ++
  p.accounts.recordOps his.round (r.newPos C his.pos) (his.his_bet i) ++
  match p.accounts.record his.round (r.newPos C his.pos) (his.his_bet i) his.chips with
  | .error _     => []
  | .ok accounts =>
    if Translates E i p then
      translateOps C accounts p.raises his (r.newPos C his.pos) (his.his_bet i)
    else []

/-- Everything is defined that the loop of the replay computes. -/
def ArithmeticDefined (C : Configure) (E : Engine W) (r : Request) (board : List Card) (w : W) :
    Prop :=
  ∀ accounts, Accounts.seatFrom C r 0 r.seat_info (.start C.mNumPlayers) = .ok accounts →
    Guarded (goesOn (turn C E r board)) (fun x his => Computes (turnOps C E r x.1 his x.2))
      (begins accounts w) r.history

/-! ### Small entries -/

namespace Request

/-- The largest bet that a player has come to in the round; the last entry is the first of the
list. -/
def largestBet (C : Configure) (r : Request) (round : Int) : List HistoryLine → Int
  | []          => 0
  | his :: rest =>
    if his.round = round then
      max (r.largestBet C round rest) (r.betsOf C round (r.newPos C his.pos) (his :: rest))
    else r.largestBet C round rest

/-- What the player of the entry has bet in the round before it. -/
def beted (C : Configure) (r : Request) (i : Nat) (his : HistoryLine) : Int :=
  r.betsOf C his.round (r.newPos C his.pos) (r.earlier i)

/-- What the player of the entry lacks before it. -/
def owes (C : Configure) (r : Request) (i : Nat) (his : HistoryLine) : Int :=
  r.largestBet C his.round (r.earlier i) - r.beted C i his

/-- The entry is of a player and a round that there are. -/
def Places (C : Configure) (r : Request) (his : HistoryLine) : Prop :=
  Bounds (r.newPos C his.pos) C.mNumPlayers ∧ Bounds his.round 4

instance (C : Configure) (r : Request) (his : HistoryLine) : Decidable (r.Places C his) :=
  inferInstanceAs (Decidable (_ ∧ _))

end Request

/-- The counter of the round can be counted up. -/
def Raises.Counts (t : Raises) (round : Int) : Prop :=
  if 0 = round then IsInt (t.preflopRaises + 1) else IsInt (t.flopRaises + 1)

instance (t : Raises) (round : Int) : Decidable (t.Counts round) :=
  inferInstanceAs (Decidable (ite _ _ _))

/-- The ratio of the raise is defined: the raise over the call and, where it is the ratio, the bet
are small enough for percents, and the divisors are not zero. -/
structure RatioSmall (C : Configure) (his_bet his_pot callSize : Int) : Prop where
  raise : Scales (his_bet - callSize)
  divisor : IsInt (his_pot + callSize)
  divisor_ne : his_pot + callSize ≠ 0
  bet : C.mRealRaise = 0 → Scales his_bet
  pot_ne : C.mRealRaise = 0 → his_pot ≠ 0

/-- What is computed to translate the entry is defined. -/
def TranslatesSmall (C : Configure) (r : Request) (i : Nat) (his : HistoryLine) (t : Raises) :
    Prop :=
  if 0 = his.round ∧ 0 = t.preflopRaises then
    his.act = .raise ∨ his.act = .other → -2147483637 ≤ r.beted C i his + his.his_bet i
  else (his.act = .raise → RatioSmall C (his.his_bet i) his.pot (r.owes C i his)) ∧
    (his.act = .raise ∨ his.act = .allin → t.Counts his.round)

/-- The amounts of entry `i` are small enough, and its divisors are not zero, where `t` are the
raises before it, and `translated` says whether it is translated. -/
structure EntrySmall (C : Configure) (r : Request) (i : Nat) (his : HistoryLine) (t : Raises)
    (translated : Prop) : Prop where
  seat : his.pos > bbPos → IsInt (his.pos + r.seatOffset C)
  pot : IsInt (betsIn (r.earlier i) + his.his_bet i)
  total : r.Places C his → IsInt (r.beted C i his + his.his_bet i)
  call : r.Places C his → r.owes C i his ≤ 2147483647
  translation : r.Places C his → translated → TranslatesSmall C r i his t

variable {C : Configure} {E : Engine W} {r : Request} {board : List Card}

/-! ### Earlier entries -/

theorem betsOf_cons (his : HistoryLine) (rest : List HistoryLine) (round player : Int) :
    r.betsOf C round player (his :: rest) = r.betsOf C round player rest +
      if his.round = round ∧ r.newPos C his.pos = player then his.bet else 0 := by
  by_cases hmine : his.round = round ∧ r.newPos C his.pos = player
  · simp [Request.betsOf, hmine, add_comm]
  · simp [Request.betsOf, hmine]

/-- Nobody has bet more than the largest bet. -/
theorem betsOf_le_largestBet (round player : Int) (earlier : List HistoryLine) :
    r.betsOf C round player earlier ≤ r.largestBet C round earlier := by
  induction earlier with
  | nil => exact le_refl 0
  | cons his rest ih =>
      by_cases hround : his.round = round
      · rw [Request.largestBet, if_pos hround]
        by_cases hplayer : r.newPos C his.pos = player
        · rw [hplayer]
          exact le_max_right _ _
        · rw [betsOf_cons, if_neg fun h => hplayer h.2, add_zero]
          exact ih.trans (le_max_left _ _)
      · rw [Request.largestBet, if_neg hround, betsOf_cons, if_neg fun h => hround h.1, add_zero]
        exact ih

theorem owes_nonneg (i : Nat) (his : HistoryLine) : 0 ≤ r.owes C i his :=
  sub_nonneg.mpr (betsOf_le_largestBet _ _ _)

/-! ### The accounts of the earlier entries -/

/-- The accounts are those of these entries. -/
structure Tallied (C : Configure) (r : Request) (earlier : List HistoryLine) (a : Accounts) :
    Prop where
  shaped : a.Shaped C.mNumPlayers
  pot : a.potSize = betsIn earlier
  betting : ∀ round player, Bounds round 4 → Bounds player C.mNumPlayers →
    readAt₂ a.vBetting round player = .ok (r.betsOf C round player earlier)
  roundBet : ∀ round, Bounds round 4 →
    readAt a.vRoundBet round = .ok (r.largestBet C round earlier)

theorem tallied_of_seatFrom {accounts : Accounts}
    (h : Accounts.seatFrom C r 0 r.seat_info (.start C.mNumPlayers) = .ok accounts) :
    Tallied C r [] accounts := by
  have hshaped := Accounts.seatFrom_shaped (Accounts.start_shaped _) h
  obtain ⟨vRemains, rfl⟩ := Accounts.seatFrom_eq h
  refine ⟨hshaped, rfl, ?_, ?_⟩
  · intro round player hround hplayer
    exact readAt₂_replicate 0 hround hplayer
  · intro round hround
    obtain ⟨m, hm⟩ := readAt_of_bounds (v := List.replicate 4 (0 : Int)) hround
    exact hm.trans (congrArg Except.ok (List.eq_of_mem_replicate (mem_of_readAt hm)))

/-- An entry that is recorded is one of the earlier entries of the next. -/
theorem record_tallied {earlier : List HistoryLine} {a a' : Accounts} (his : HistoryLine)
    (ha : Tallied C r earlier a)
    (h : a.record his.round (r.newPos C his.pos) his.bet his.chips = .ok a') :
    Tallied C r (his :: earlier) a' := by
  obtain ⟨roundBet, beted, hround, hbeted, -, -, -, hmax, hpot⟩ := Accounts.record_eq_ok h
  refine ⟨Accounts.record_shaped ha.shaped h, ?_, fun round player hr hp => ?_, fun round hr => ?_⟩
  · rw [hpot, ha.pot, betsIn_cons, add_comm]
  · rw [betsOf_cons]
    exact Accounts.record_betting h (ha.betting round player hr hp)
  · by_cases hmine : his.round = round
    · subst hmine
      have hplayer : Bounds (r.newPos C his.pos) C.mNumPlayers := by
        obtain ⟨row, hrow, hcell⟩ := readAt₂_eq_ok.mp hbeted
        rw [← ha.shaped.betting.columns_eq row (mem_of_readAt hrow)]
        exact bounds_of_readAt hcell
      cases hround.symm.trans (ha.roundBet _ hr)
      cases hbeted.symm.trans (ha.betting _ _ hr hplayer)
      rw [Request.largestBet, if_pos rfl, betsOf_cons, if_pos ⟨rfl, rfl⟩]
      exact readAt_written hmax
    · rw [Request.largestBet, if_neg hmine, readAt_unwritten hmax fun heq => hmine heq.symm]
      exact ha.roundBet round hr

/-! ### A turn of the loop -/

variable {i : Nat} {his : HistoryLine} {t : Raises} {a a' : Accounts}

theorem seatOps_computes_iff :
    Computes (seatOps C r his) ↔ (his.pos > bbPos → IsInt (his.pos + r.seatOffset C)) := by
  unfold seatOps
  split
  · next h =>
      rw [computes_cons, and_iff_left computes_nil]
      exact ⟨fun hadd _ => hadd, fun hadd => hadd h⟩
  · next h => exact iff_of_true computes_nil fun h' => absurd h' h

/-- The reads of an entry are in range exactly when it is of a player and a round that there are. -/
theorem places_iff (ha : a.Shaped C.mNumPlayers) : r.Places C his ↔ ∃ roundBet beted,
    readAt a.vRoundBet his.round = .ok roundBet ∧
      readAt₂ a.vBetting his.round (r.newPos C his.pos) = .ok beted := by
  constructor
  · rintro ⟨hplayer, hround⟩
    obtain ⟨roundBet, hmax⟩ := readAt_of_bounds (v := a.vRoundBet) (by rwa [ha.roundBet])
    obtain ⟨beted, hbeted⟩ := ha.betting.readAt₂_of_bounds hround hplayer
    exact ⟨roundBet, beted, hmax, hbeted⟩
  · rintro ⟨roundBet, beted, hmax, hbeted⟩
    obtain ⟨row, hrow, hcell⟩ := readAt₂_eq_ok.mp hbeted
    refine ⟨?_, ?_⟩
    · rw [← ha.betting.columns_eq row (mem_of_readAt hrow)]
      exact bounds_of_readAt hcell
    · rw [← ha.roundBet]
      exact bounds_of_readAt hmax

theorem recordOps_computes_iff (ha : Tallied C r (r.earlier i) a) :
    Computes (a.recordOps his.round (r.newPos C his.pos) (his.his_bet i)) ↔
      IsInt (betsIn (r.earlier i) + his.his_bet i) ∧
        (r.Places C his → IsInt (r.owes C i his) ∧ IsInt (r.beted C i his + his.his_bet i)) := by
  rw [Accounts.recordOps, computes_cons, ← ha.pot]
  refine and_congr_right fun _ => ?_
  by_cases hplace : r.Places C his
  · obtain ⟨hplayer, hround⟩ := hplace
    rw [ha.roundBet _ hround, ha.betting _ _ hround hplayer, computes_cons, computes_cons,
      and_iff_left computes_nil]
    exact ⟨fun h _ => h, fun h => h ⟨hplayer, hround⟩⟩
  · refine iff_of_true ?_ fun h => absurd h hplace
    have hreads := mt (places_iff ha.shaped).mpr hplace
    rcases hmax : readAt a.vRoundBet his.round with e | roundBet
    · exact computes_nil
    · rcases hbeted : readAt₂ a.vBetting his.round (r.newPos C his.pos) with e | beted
      · exact computes_nil
      · exact absurd ⟨roundBet, beted, hmax, hbeted⟩ hreads

/-- The distances to the first raises are defined down to the smallest totals. -/
theorem nearestOps_computes_iff {total : Int} (htotal : IsInt total) :
    Computes (nearestOps total [6, 8, 10]) ↔ -2147483637 ≤ total := by
  unfold IsInt at htotal
  simp only [nearestOps, nearestFromOps]
  split_ifs <;>
    simp only [computes_cons, computes_nil, and_true, Operation.Defined, IsInt] <;> omega

theorem factorOps_computes_iff {his_bet his_pot callSize : Int} :
    Computes (factorOps C his_bet his_pot callSize) ↔
      RatioSmall C his_bet his_pot callSize := by
  rw [factorOps, computes_append]
  simp only [computes_cons, computes_nil, and_true]
  constructor
  · rintro ⟨⟨-, hmul, hadd, hdiv⟩, hwhole⟩
    refine ⟨scales_iff.mp hmul, hadd, hdiv.1, fun h => ?_, fun h => ?_⟩
    · rw [if_pos h, computes_cons] at hwhole
      exact scales_iff.mp hwhole.1
    · rw [if_pos h, computes_cons, computes_cons] at hwhole
      exact hwhole.2.1.1
  · rintro ⟨hraise, hadd, hne, hbet, hpot⟩
    have hsub : IsInt (his_bet - callSize) := by
      unfold Scales at hraise
      unfold IsInt
      omega
    refine ⟨⟨hsub, scales_iff.mpr hraise, hadd, (defined_div_hundred_iff hraise).mpr hne⟩, ?_⟩
    split
    · next h =>
        rw [computes_cons, computes_cons, and_iff_left computes_nil]
        exact ⟨scales_iff.mpr (hbet h), (defined_div_hundred_iff (hbet h)).mpr (hpot h)⟩
    · exact computes_nil

theorem countOps_computes_iff {round : Int} : Computes (t.countOps round) ↔ t.Counts round := by
  unfold Raises.countOps Raises.Counts
  split
  · rw [computes_cons, and_iff_left computes_nil]
    exact Iff.rfl
  · rw [computes_cons, and_iff_left computes_nil]
    exact Iff.rfl

/-- Translating an entry that was recorded. -/
theorem translateOps_computes_iff (ha : Tallied C r (r.earlier i) a) (hplace : r.Places C his)
    (hrec : a.record his.round (r.newPos C his.pos) (his.his_bet i) his.chips = .ok a')
    (htotal : IsInt (r.beted C i his + his.his_bet i)) :
    Computes (translateOps C a' t his (r.newPos C his.pos) (his.his_bet i)) ↔
      TranslatesSmall C r i his t := by
  obtain ⟨hplayer, hround⟩ := hplace
  obtain ⟨hcall, hbet⟩ := record_reads (ha.roundBet _ hround) (ha.betting _ _ hround hplayer) hrec
  unfold translateOps TranslatesSmall
  split
  · next hfirst =>
      -- the counter becomes one
      have hone : (Operation.add t.preflopRaises 1).Defined := by
        rw [← hfirst.2]
        decide
      cases hact : his.act with
      | fold | pass | follow =>
          exact iff_of_true computes_nil (by rintro (h | h) <;> cases h)
      | allin =>
          exact iff_of_true (computes_cons.mpr ⟨hone, computes_nil⟩) (by rintro (h | h) <;> cases h)
      | raise =>
          simp only [hbet, computes_append, computes_cons, hone, computes_nil, and_true]
          exact (nearestOps_computes_iff htotal).trans ⟨fun h _ => h, fun h => h (.inl trivial)⟩
      | other =>
          simp only [hbet, computes_append, computes_cons, hone, computes_nil, and_true]
          exact (nearestOps_computes_iff htotal).trans ⟨fun h _ => h, fun h => h (.inr trivial)⟩
  · cases hact : his.act with
    | fold | pass | follow | other =>
        refine iff_of_true computes_nil ⟨fun h => ?_, fun h => ?_⟩
        · cases h
        · rcases h with h | h <;> cases h
    | allin =>
        rw [countOps_computes_iff]
        refine ⟨fun h => ⟨fun hraise => ?_, fun _ => h⟩, fun h => h.2 (.inr rfl)⟩
        cases hraise
    | raise =>
        simp only [hcall, computes_append, factorOps_computes_iff, countOps_computes_iff]
        exact ⟨fun h => ⟨fun _ => h.1, fun _ => h.2⟩, fun h => ⟨h.1 trivial, h.2 (.inl trivial)⟩⟩

/-- **The arithmetic of a turn.**  It is defined exactly when the entry is small. -/
theorem turnOps_computes_iff {p : Replay W} (ha : Tallied C r (r.earlier i) p.accounts) :
    Computes (turnOps C E r i his p) ↔ EntrySmall C r i his p.raises (Translates E i p) := by
  have howes : IsInt (r.owes C i his) ↔ r.owes C i his ≤ 2147483647 :=
    and_iff_right ((by decide : (-2147483648 : Int) ≤ 0).trans (owes_nonneg i his))
  rw [turnOps, computes_append, computes_append, seatOps_computes_iff, recordOps_computes_iff ha,
    howes]
  by_cases hplace : r.Places C his
  · obtain ⟨a', hrec⟩ :=
      Accounts.exists_record ha.shaped hplace.1 hplace.2 (his.his_bet i) his.chips
    simp only [hrec, hplace, true_implies]
    constructor
    · rintro ⟨⟨hseat, hpot, hcall, htotal⟩, hops⟩
      refine ⟨hseat, hpot, fun _ => htotal, fun _ => hcall, fun _ htrans => ?_⟩
      rw [if_pos htrans] at hops
      exact (translateOps_computes_iff ha hplace hrec htotal).mp hops
    · rintro ⟨hseat, hpot, htotal, hcall, htranslation⟩
      refine ⟨⟨hseat, hpot, hcall hplace, htotal hplace⟩, ?_⟩
      split
      · next htrans =>
          exact (translateOps_computes_iff ha hplace hrec (htotal hplace)).mpr
            (htranslation hplace htrans)
      · exact computes_nil
  · simp only [Accounts.record_eq_error ha.shaped hplace, computes_nil, and_true]
    constructor
    · rintro ⟨hseat, hpot, -⟩
      exact ⟨hseat, hpot, fun h => absurd h hplace, fun h => absurd h hplace,
        fun h => absurd h hplace⟩
    · intro h
      exact ⟨h.seat, h.pot, fun h' => absurd h' hplace⟩

/-! ### The loop -/

/-- Every entry is small that the loop comes to from `w`. -/
def EntriesSmall (C : Configure) (E : Engine W) (r : Request) (board : List Card) (w : W) : Prop :=
  ∀ accounts, Accounts.seatFrom C r 0 r.seat_info (.start C.mNumPlayers) = .ok accounts →
    Guarded (goesOn (turn C E r board))
      (fun x his => EntrySmall C r x.1 his x.2.raises (Translates E x.1 x.2))
      (begins accounts w) r.history

/-- **The arithmetic of the replay.**  It is defined throughout the loop exactly when every entry is
small that the loop comes to. -/
theorem arithmetic_iff (C : Configure) (E : Engine W) (r : Request) (board : List Card) (w : W) :
    ArithmeticDefined C E r board w ↔ EntriesSmall C E r board w := by
  refine forall_congr' fun accounts => forall_congr' fun hseat => ?_
  have hstart : Tallied C r (r.earlier 0) accounts := tallied_of_seatFrom hseat
  -- the loop has come to the entries that are left, with the accounts of those before
  refine guarded_congr (P := fun x rest => r.history.drop x.1 = rest ∧
    Tallied C r (r.earlier x.1) x.2.accounts) (fun x his rest hx => ?_)
    (fun x his rest y hx hy => ?_) (⟨rfl, hstart⟩ : r.history.drop 0 = r.history ∧ _)
  · exact turnOps_computes_iff hx.2
  · obtain ⟨hdrop, ha⟩ := hx
    obtain ⟨hnum, hline⟩ := goesOn_turn hy
    have hget : r.history[x.1]? = some his := by
      rw [← List.head?_drop, hdrop]
      rfl
    have hrec : x.2.accounts.record his.round (r.newPos C his.pos) (his.his_bet x.1) his.chips =
        .ok y.2.accounts := replayLine_accounts hline
    rw [hnum, earlier_succ hget]
    refine ⟨?_, record_tallied { his with bet := his.his_bet x.1 } ha hrec⟩
    rw [← List.tail_drop, hdrop]
    rfl

/-- A bet into an empty pot is divided by zero, and the largest bet overflows the pot. -/
theorem undefined_riverBet :
    ((riverBet 100 0).Valid ∧ (riverBet 100 0).HasInts ∧
      ¬ ArithmeticDefined headsUp plainEngine (riverBet 100 0) Cards.testBoard ()) ∧
    (riverBet 2147483647 4).Valid ∧ (riverBet 2147483647 4).HasInts ∧
      ¬ ArithmeticDefined headsUp plainEngine (riverBet 2147483647 4) Cards.testBoard () :=
  ⟨⟨by decide, by decide, fun h => absurd (h _ rfl) (by decide)⟩,
    by decide, by decide, fun h => absurd (h _ rfl) (by decide)⟩

end Holdem.Decide
