import Holdem.Decide.Bayes
import Holdem.Support.ForEach

/-!
# Decide — Access

Whether `handleRobotDecide2` stays in range.  The seats of the request, the seat and the round of
every entry, and the board that an earlier request left are used as indices.  The checks at the
start say nothing of them.

* `spreads_iff`: the shift of the seats keeps them apart exactly when there are not too many.
* `replayLine_ne_index_iff`, `replay_ne_index_iff`: when a turn of the loop, and the replay, stay in
  range.
* `accesses_iff`: the handler stays in range, with its seats apart, exactly when `Covered`.
-/

namespace Holdem.Decide
open Support

variable {W : Type}

/-! ### The accesses of the handler -/

/-- The log of the test cards reads `boardCards`, which has just been cleared. -/
def logCards (logs : Bool) (r : Request) : Checked Unit :=
  if logs = true ∧ r.history.length = 10 then do
    let boardCards : List Card := []
    let _ ← readAt boardCards 0
    let _ ← readAt boardCards 1
    let _ ← readAt boardCards 2
    let _ ← readAt boardCards 3
    .ok ()
  else .ok ()

/-- The log of the ranges reads those of the players 0 and 1. -/
def logRanges (w : Ranged W) : Checked Unit := do
  let _ ← readAt w.handRanges 0
  let _ ← readAt w.handRanges 1
  .ok ()

/-- The log of the ranges, once the cards are dealt. -/
def logDealt : Option (List Card) × Cards × Ranged W → Checked Unit
  | (none, _, _)   => .ok ()
  | (some _, _, w) => logRanges w

/-- The search that the choice goes on with. -/
def searchOf : Outcome Ready → Checked Unit
  | .refused   => .ok ()
  | .skipped   => .ok ()
  | .reached q => do
    let _ ← researchAt q.round
    .ok ()

/-- `resume`, with the log and the search. -/
def resumeLogged (C : Configure) (T : Table W) (r : Request) (p : Replay (Ranged W))
    (dealt : Option (List Card) × Cards × Ranged W) :
    Checked (Cards × Ranged W × Outcome Ready) := do
  logDealt dealt
  let (s, w, o) ← resume C T.ranged r p dealt
  searchOf o
  .ok (s, w, o)

/-- `restore` with the hand ranges, the logs and the search; `logs` says whether the arguments of a
log message are read. -/
def restoreLogged (logs : Bool) (C : Configure) (T : Table W) (s : Cards) (w : Ranged W)
    (r : Request) : Checked (Cards × Ranged W × Outcome Ready) :=
  if r.Valid then
    match prepare C T.ranged w r with
    | none   => .ok (s, w, .refused)
    | some w =>
      if r.history.length < 10 then .ok (s, w, .skipped)
      else do
        logCards logs r
        let p ← replay C T.ranged r (s.begin r).testboardCards (unshuffle T.ranged w r)
        resumeLogged C T r p (deal T.ranged (s.begin r) p.world)
  else .ok (s, w, .refused)

/-! ### What is in range -/

/-- The shifted seats are players, and differ where the seats do. -/
def Request.Spreads (C : Configure) (r : Request) : Prop :=
  ∀ i < r.numSeats, Bounds (r.newPos C i) C.mNumPlayers ∧
    ∀ j < r.numSeats, r.newPos C i = r.newPos C j → i = j

/-- The cards are enough for the board of the round. -/
def Dealt (round : Int) (testboardCards : List Card) : Prop :=
  round = 0 ∨ round + 2 ≤ testboardCards.length

/-- For the entry a hand is looked up that shares no card with the board. -/
def LooksUp (T : Table W) (C : Configure) (r : Request) (i : Nat) (his : HistoryLine)
    (p : Replay (Ranged W)) : Prop :=
  T.isTerminal p.world.state = false ∧ ∃ raises action range,
    readLine C p i his (r.newPos C his.pos) = .ok (raises, action) ∧
    UpdatesRange C r i (r.newPos C his.pos) action ∧
    readAt p.world.handRanges (r.newPos C his.pos) = .ok range ∧
    ∃ x ∈ range, ¬ Collides (T.boardCards p.world.state) (T.split x.1)

/-- The entry is of a player and a round that there are, and the board of the round is there if a
hand is looked up. -/
structure Fits (T : Table W) (C : Configure) (r : Request) (board : List Card) (i : Nat)
    (his : HistoryLine) (p : Replay (Ranged W)) : Prop where
  seat : Bounds (r.newPos C his.pos) C.mNumPlayers
  round : Bounds his.round 4
  board : LooksUp T C r i his p → Dealt his.round board

/-- The turn of the replay for an entry, with the number of the next one. -/
def turn (C : Configure) (E : Engine W) (r : Request) (board : List Card) (x : Nat × Replay W)
    (his : HistoryLine) : Checked ((Nat × Replay W) × Bool) :=
  (replayLine C E r board x.1 his x.2).map fun y => ((x.1 + 1, y.1), y.2)

/-- Every entry fits that the loop comes to from `w`. -/
def EntriesFit (T : Table W) (C : Configure) (r : Request) (board : List Card) (w : Ranged W) :
    Prop :=
  ∀ accounts, Accounts.seatFrom C r 0 r.seat_info (.start C.mNumPlayers) = .ok accounts →
    Guarded (goesOn (turn C T.ranged r board)) (fun x his => Fits T C r board x.1 his x.2)
      (0, ⟨accounts, ⟨0, 0, 0⟩, true, w⟩) r.history

/-- What keeps the handler in range, from the prepared game state `w`. -/
structure Covered (logs : Bool) (C : Configure) (T : Table W) (s : Cards) (w : Ranged W)
    (r : Request) : Prop where
  seats : r.numSeats ≤ C.mNumPlayers
  logged : logs = true → r.history.length ≠ 10
  entries : EntriesFit T C r (s.begin r).testboardCards (unshuffle T.ranged w r)
  players : ∀ p, replay C T.ranged r (s.begin r).testboardCards (unshuffle T.ranged w r) = .ok p →
    (deal T.ranged (s.begin r) p.world).1 ≠ none → 2 ≤ C.mNumPlayers

/-! ### Seats -/

variable {C : Configure} {r : Request}

theorem newPos_cases (C : Configure) (r : Request) (pos : Int) :
    1 < pos ∧ r.newPos C pos = pos + (C.mNumPlayers - r.numSeats) ∨
      pos ≤ 1 ∧ r.newPos C pos = pos := by
  by_cases hpos : pos > bbPos
  · exact .inl ⟨hpos, if_pos hpos⟩
  · exact .inr ⟨Int.not_lt.mp hpos, if_neg hpos⟩

theorem bounds_newPos (h : r.numSeats ≤ C.mNumPlayers) {i : Nat} (hi : i < r.numSeats) :
    Bounds (r.newPos C i) C.mNumPlayers := by
  rcases newPos_cases C r i with ⟨hlt, hpos⟩ | ⟨hle, hpos⟩
  · exact ⟨by omega, by omega⟩
  · exact ⟨by omega, by omega⟩

/-- The shift keeps the seats apart exactly when there are no more of them than players. -/
theorem spreads_iff : r.Spreads C ↔ r.numSeats ≤ C.mNumPlayers := by
  constructor
  · intro h
    by_contra hmany
    by_cases htwo : C.mNumPlayers < 2
    · -- a seat up to the big blind is not shifted
      obtain ⟨-, hlt⟩ := (h C.mNumPlayers (by omega)).1
      rcases newPos_cases C r C.mNumPlayers with ⟨hpos, -⟩ | ⟨-, heq⟩
      · omega
      · omega
    · -- the first seat behind it is shifted into the blinds, or below
      obtain ⟨⟨hneg, hlt⟩, hapart⟩ := h 2 (by omega)
      have hzero := hapart 0 (by omega)
      have hone := hapart 1 (by omega)
      rcases newPos_cases C r 0 with ⟨hpos, -⟩ | ⟨-, h0⟩
      · omega
      rcases newPos_cases C r 1 with ⟨hpos, -⟩ | ⟨-, h1⟩
      · omega
      rcases newPos_cases C r 2 with ⟨-, h2⟩ | ⟨hle, -⟩
      · simp only [Nat.cast_ofNat, Nat.cast_zero, Nat.cast_one] at hneg hlt hzero hone
        omega
      · omega
  · intro h i hi
    refine ⟨bounds_newPos h hi, fun j hj heq => ?_⟩
    rcases newPos_cases C r i with ⟨hi', hi₂⟩ | ⟨hi', hi₂⟩
    · rcases newPos_cases C r j with ⟨hj', hj₂⟩ | ⟨hj', hj₂⟩
      · omega
      · omega
    · rcases newPos_cases C r j with ⟨hj', hj₂⟩ | ⟨hj', hj₂⟩
      · omega
      · omega

/-! ### The update of a range -/

variable {T : Table W} {board : List Card} {round : Int} {action : Option Action}

theorem firstCards_of_le {n : Nat} {cards : List Card} (h : n ≤ cards.length) :
    firstCards n cards = .ok (cards.take n) := if_pos h

theorem firstCards_of_not_le {n : Nat} {cards : List Card} (h : ¬ n ≤ cards.length) :
    firstCards n cards = .error .index := if_neg h

theorem exists_boardOf (hround : Bounds round 4) (hdealt : Dealt round board)
    (boardCards : List Card) : ∃ b, boardOf round board boardCards = .ok b := by
  unfold Dealt at hdealt
  obtain rfl | rfl | rfl | rfl := round_cases hround
  · exact ⟨_, rfl⟩
  · exact ⟨_, firstCards_of_le (n := 3) (by omega)⟩
  · exact ⟨_, firstCards_of_le (n := 4) (by omega)⟩
  · exact ⟨_, firstCards_of_le (n := 5) (by omega)⟩

theorem boardOf_eq_error (hround : Bounds round 4) (hdealt : ¬ Dealt round board)
    (boardCards : List Card) : boardOf round board boardCards = .error .index := by
  unfold Dealt at hdealt
  obtain rfl | rfl | rfl | rfl := round_cases hround
  · omega
  · exact firstCards_of_not_le (n := 3) (by omega)
  · exact firstCards_of_not_le (n := 4) (by omega)
  · exact firstCards_of_not_le (n := 5) (by omega)

/-- The lookup of a pair is defined, in any of the four rounds. -/
theorem exists_lookup {u : RangeUpdate} {hand : String} (hround : Bounds u.round 4)
    (hpair : 2 = (T.split hand).length) : ∃ res, T.lookup u hand = .ok res := by
  have hresearch : researchAt u.round = .ok ⟨u.round.toNat, _⟩ := dif_pos hround
  obtain ⟨res, hres⟩ := T.exists_eval u.infoSet u.board ⟨u.round.toNat, _⟩ hpair.symm
  exact ⟨res, bind_eq_ok.mpr ⟨_, hresearch, hres⟩⟩

namespace Table

/-- A hand that shares a card with the board leaves the game state as it is. -/
theorem scanHand_of_collides {t : Scan W} {hand : String} {weight : Rat}
    (h : Collides (T.boardCards t.state) (T.split hand)) :
    T.scanHand round action board hand weight t =
      .ok (weight, { t with vRemoves := t.vRemoves ++ [hand] }) := if_pos h

theorem exists_scanHand (action : Option Action) (hround : Bounds round 4)
    (hdealt : Dealt round board) {hand : String} (hpair : 2 = (T.split hand).length)
    (weight : Rat) (t : Scan W) :
    ∃ y, T.scanHand round action board hand weight t = .ok y := by
  by_cases h : Collides (T.boardCards t.state) (T.split hand)
  · exact ⟨_, scanHand_of_collides h⟩
  · obtain ⟨b, hb⟩ := exists_boardOf hround hdealt (T.boardCards t.state)
    obtain ⟨res, hres⟩ := exists_lookup (T := T)
      (u := ⟨T.infoSet (T.setBoardCards t.state b), b, round, action⟩) hround hpair
    simp only [scanHand, if_neg h, hb, hres, ok_bind]
    cases res with
    | ok strategy => exact ⟨_, rfl⟩
    | error code => exact ⟨_, rfl⟩

theorem scanHand_eq_error (hround : Bounds round 4) (hdealt : ¬ Dealt round board) {t : Scan W}
    {hand : String} {weight : Rat} (h : ¬ Collides (T.boardCards t.state) (T.split hand)) :
    T.scanHand round action board hand weight t = .error .index := by
  simp only [scanHand, if_neg h, boardOf_eq_error hround hdealt, error_bind]

theorem exists_scanHands (action : Option Action) (hround : Bounds round 4)
    (hdealt : Dealt round board) {range : HandRange}
    (hpairs : ∀ x ∈ range, 2 = (T.split x.1).length) (t : Scan W) :
    ∃ y, T.scanHands round action board range t = .ok y := by
  induction range generalizing t with
  | nil => exact ⟨_, rfl⟩
  | cons x rest ih =>
      obtain ⟨hpair, hpairs⟩ := List.forall_mem_cons.mp hpairs
      obtain ⟨y, hy⟩ := exists_scanHand action hround hdealt hpair x.2 t
      obtain ⟨z, hz⟩ := ih hpairs y.2
      simp only [scanHands, if_pos hpair]
      exact ⟨_, bind_eq_ok.mpr ⟨y, hy, bind_eq_ok.mpr ⟨z, hz, rfl⟩⟩⟩

/-- Without the board of the round, the first hand that is looked up is out of range. -/
theorem scanHands_eq_error_iff (action : Option Action) (hround : Bounds round 4)
    (hdealt : ¬ Dealt round board) {range : HandRange}
    (hpairs : ∀ x ∈ range, 2 = (T.split x.1).length) {t : Scan W} :
    T.scanHands round action board range t = .error .index ↔
      ∃ x ∈ range, ¬ Collides (T.boardCards t.state) (T.split x.1) := by
  induction range generalizing t with
  | nil => exact iff_of_false nofun nofun
  | cons x rest ih =>
      obtain ⟨hpair, hpairs⟩ := List.forall_mem_cons.mp hpairs
      by_cases h : Collides (T.boardCards t.state) (T.split x.1)
      · have hrest := ih hpairs (t := { t with vRemoves := t.vRemoves ++ [x.1] })
        rw [List.exists_mem_cons_iff, or_iff_right (not_not_intro h), ← hrest]
        simp only [scanHands, if_pos hpair, scanHand_of_collides h, ok_bind]
        exact bind_eq_error_left fun _ => ⟨_, rfl⟩
      · refine iff_of_true ?_ ⟨x, List.mem_cons_self, h⟩
        simp only [scanHands, if_pos hpair, scanHand_eq_error hround hdealt h, error_bind]

/-- The update of a range is out of range exactly when a hand is looked up without its board. -/
theorem updateHands_eq_error_iff (action : Option Action) (hround : Bounds round 4)
    {range : HandRange} (hpairs : ∀ x ∈ range, 2 = (T.split x.1).length) {w : W} :
    T.updateHands w range round action board = .error .index ↔
      ¬ Dealt round board ∧ ∃ x ∈ range, ¬ Collides (T.boardCards w) (T.split x.1) := by
  by_cases hdealt : Dealt round board
  · obtain ⟨y, hy⟩ := exists_scanHands action hround hdealt hpairs ⟨w, [], 0, true⟩
    refine iff_of_false ?_ (fun h => h.1 hdealt)
    simp only [updateHands, hy, ok_bind]
    nofun
  · rw [and_iff_right hdealt, ← scanHands_eq_error_iff action
      (t := ⟨w, [], 0, true⟩) hround hdealt hpairs]
    exact bind_eq_error_left fun _ => ⟨_, rfl⟩

end Table

theorem ranged_updateRange_eq_error_iff (hround : Bounds round 4) {s : Ranged W}
    (hkeys : s.Keyed T.toLookups) {newPos : Int} {range : HandRange}
    (hrange : readAt s.handRanges newPos = .ok range) :
    T.ranged.updateRange s newPos round action board = .error .index ↔
      ¬ Dealt round board ∧ ∃ x ∈ range, ¬ Collides (T.boardCards s.state) (T.split x.1) := by
  have hpairs : ∀ x ∈ range, 2 = (T.split x.1).length := by
    intro x hx
    exact Lookups.pair_of_mem (hkeys range (mem_of_readAt hrange) x hx)
  rw [← Table.updateHands_eq_error_iff action hround hpairs]
  simp only [Table.ranged, hrange, ok_bind]
  refine bind_eq_error_left fun y => ?_
  -- the range that was read can be written
  rw [writeAt_of_bounds (bounds_of_readAt hrange)]
  exact ⟨_, rfl⟩

/-! ### A turn of the loop -/

theorem divide_ne_index (x y : Int) : divide x y ≠ .error .index := by
  unfold divide
  split
  · nofun
  · nofun

theorem factor_ne_index (his_bet his_pot callSize : Int) :
    factor C his_bet his_pot callSize ≠ .error .index := by
  intro h
  rcases bind_eq_error.mp h with h | ⟨f, -, h⟩
  · exact divide_ne_index _ _ h
  · split at h
    · exact divide_ne_index _ _ h
    · cases h

/-- Translating an entry that was recorded stays in range. -/
theorem translate_ne_index {a : Accounts} {n : Nat} {t : Raises} {his : HistoryLine}
    {newPos his_bet : Int} (ha : a.Shaped n) (hpos : Bounds newPos n)
    (hround : Bounds his.round 4) : translate C a t his newPos his_bet ≠ .error .index := by
  obtain ⟨beted, hbeted⟩ := ha.betting.readAt₂_of_bounds hround hpos
  obtain ⟨callSize, hcall⟩ := ha.roundCall.readAt₂_of_bounds hround hpos
  intro h
  unfold translate at h
  split at h
  · cases hact : his.act with
    | fold | pass | follow | allin =>
        simp only [hact] at h
        cases h
    | raise | other =>
        simp only [hact, hbeted, ok_bind] at h
        cases h
  · cases hact : his.act with
    | fold | pass | follow | allin | other =>
        simp only [hact] at h
        cases h
    | raise =>
        simp only [hact, hcall, ok_bind] at h
        rcases bind_eq_error.mp h with h | ⟨f, -, h⟩
        · exact factor_ne_index _ _ _ h
        · cases h

/-- What the loop keeps: the lengths of its vectors, and the hands of its ranges. -/
structure Sound (T : Table W) (C : Configure) (p : Replay (Ranged W)) : Prop where
  shaped : p.accounts.Shaped C.mNumPlayers
  keyed : p.world.Keyed T.toLookups
  players : p.world.handRanges.length = C.mNumPlayers

variable {i : Nat} {his : HistoryLine} {p p' : Replay (Ranged W)}

/-- Reading an entry of a player and a round that there are stays in range. -/
theorem readLine_ne_index (hp : p.accounts.Shaped C.mNumPlayers)
    (hpos : Bounds (r.newPos C his.pos) C.mNumPlayers) (hround : Bounds his.round 4) :
    readLine C p i his (r.newPos C his.pos) ≠ .error .index := by
  obtain ⟨a, hrec⟩ := Accounts.exists_record hp hpos hround (his.his_bet i) his.chips
  rw [readLine_of_record hrec]
  exact translate_ne_index (Accounts.record_shaped hp hrec) hpos hround

/-- A turn behind the blinds reads the entry, updates the range and commands the action. -/
theorem replayLine_eq_error_iff {E : Engine W} {p : Replay W} {e : Fault} (hi : (i : Int) > bbPos)
    (hlive : E.isTerminal p.world = false) : replayLine C E r board i his p = .error e ↔
      readLine C p i his (r.newPos C his.pos) = .error e ∨
      ∃ raises action, readLine C p i his (r.newPos C his.pos) = .ok (raises, action) ∧
        updateRange C E r board i (r.newPos C his.pos) his.round action p.world = .error e := by
  rcases hread : readLine C p i his (r.newPos C his.pos) with e' | ⟨raises, action⟩
  · have hline : replayLine C E r board i his p = .error e' := by
      rcases bind_eq_error.mp hread with hrec | ⟨accounts, hrec, htrans⟩
      · simp only [replayLine, hrec, error_bind]
      · simp only [replayLine, hrec, ok_bind, if_pos hi, hlive, htrans, error_bind]
        rfl
    simp only [hline, Except.error.injEq, reduceCtorEq, false_and, exists_false, or_false]
  · obtain ⟨accounts, hrec, htrans⟩ := bind_eq_ok.mp hread
    have hline : replayLine C E r board i his p =
        (updateRange C E r board i (r.newPos C his.pos) his.round action p.world >>= fun x =>
          .ok (⟨accounts, raises, p.isSucceed && x.2, E.Command x.1 action⟩, true)) := by
      simp only [replayLine, hrec, ok_bind, if_pos hi, hlive, htrans]
      rfl
    rw [hline, bind_eq_error_left fun _ => ⟨_, rfl⟩]
    refine ⟨fun herr => .inr ⟨raises, action, rfl, herr⟩, ?_⟩
    rintro (herr | ⟨_, _, hok, herr⟩)
    · cases herr
    · cases hok
      exact herr

/-- **A turn of the loop.**  It stays in range exactly when its entry fits. -/
theorem replayLine_ne_index_iff (hp : Sound T C p) :
    replayLine C T.ranged r board i his p ≠ .error .index ↔ Fits T C r board i his p := by
  by_cases hbounds : Bounds (r.newPos C his.pos) C.mNumPlayers ∧ Bounds his.round 4
  · obtain ⟨hpos, hround⟩ := hbounds
    have hread := readLine_ne_index (i := i) hp.shaped hpos hround
    obtain ⟨range, hrange⟩ := readAt_of_bounds (v := p.world.handRanges) (by rwa [hp.players])
    suffices herr : replayLine C T.ranged r board i his p = .error .index ↔
        LooksUp T C r i his p ∧ ¬ Dealt his.round board by
      rw [ne_eq, herr, not_and_not_right]
      exact ⟨fun hboard => ⟨hpos, hround, hboard⟩, Fits.board⟩
    by_cases hlive : (i : Int) > bbPos ∧ T.isTerminal p.world.state = false
    · refine (replayLine_eq_error_iff hlive.1 hlive.2).trans ⟨?_, ?_⟩
      · rintro (herr | ⟨raises, action, hok, herr⟩)
        · exact absurd herr hread
        · unfold updateRange at herr
          split at herr
          · next hU =>
            obtain ⟨hdealt, hx⟩ :=
              (ranged_updateRange_eq_error_iff hround hp.keyed hrange).mp herr
            exact ⟨⟨hlive.2, raises, action, range, hok, hU, hrange, hx⟩, hdealt⟩
          · cases herr
      · rintro ⟨⟨-, raises, action, range', hok, hU, hrange', hx⟩, hdealt⟩
        refine .inr ⟨raises, action, hok, ?_⟩
        simp only [updateRange, if_pos hU]
        exact (ranged_updateRange_eq_error_iff hround hp.keyed hrange').mpr ⟨hdealt, hx⟩
    · refine iff_of_false ?_ ?_
      · -- a blind, or the end of the game: the entry is recorded, and that is all
        obtain ⟨a, hrec⟩ :=
          Accounts.exists_record hp.shaped hpos hround (his.his_bet i) his.chips
        simp only [replayLine, hrec, ok_bind]
        split
        · next hi =>
          have hend : T.ranged.isTerminal p.world = true :=
            Bool.eq_true_of_not_eq_false fun hend => hlive ⟨hi, hend⟩
          rw [if_pos hend]
          exact fun h => Except.noConfusion rfl rfl (heq_of_eq h)
        · exact fun h => Except.noConfusion rfl rfl (heq_of_eq h)
      · rintro ⟨⟨hend, raises, action, range', -, ⟨-, -, -, h12⟩, -⟩, -⟩
        exact hlive ⟨by simp only [bbPos]; omega, hend⟩
  · refine iff_of_false (not_not_intro ?_) (fun h => hbounds ⟨h.seat, h.round⟩)
    simp only [replayLine, Accounts.record_eq_error hp.shaped hbounds, error_bind]

theorem replayLine_sound (hp : Sound T C p)
    (h : replayLine C T.ranged r board i his p = .ok (p', true)) : Sound T C p' := by
  refine ⟨Accounts.record_shaped hp.shaped (replayLine_accounts h),
    replayLine_keyed hp.shaped hp.keyed h, ?_⟩
  by_cases hi : (i : Int) > bbPos
  · obtain ⟨action, w, valid, -, hupdate, hranges⟩ := replayLine_handRanges hi h
    rw [hranges]
    unfold updateRange at hupdate
    split at hupdate
    · obtain ⟨range, state, range', -, -, hwrite⟩ := ranged_updateRange hupdate
      exact (length_of_writeAt hwrite).trans hp.players
    · cases hupdate
      exact hp.players
  · rw [replayLine_still h (.inr hi)]
    exact hp.players

/-! ### The replay -/

theorem replayFrom_eq_forEach {E : Engine W} (i : Nat) (history : List HistoryLine)
    (p : Replay W) : replayFrom C E r board i history p =
      (forEach (turn C E r board) (i, p) history).map Prod.snd := by
  induction history generalizing i p with
  | nil => rfl
  | cons his rest ih =>
      rcases hline : replayLine C E r board i his p with e | ⟨q, _ | _⟩
      · simp only [replayFrom, forEach, turn, hline, error_bind, Except.map]
      · simp only [replayFrom, forEach, turn, hline, ok_bind, Except.map]
        rfl
      · simp only [replayFrom, forEach, turn, hline, ok_bind, Except.map]
        exact ih (i + 1) q

theorem replayFrom_sound {history : List HistoryLine} (hp : Sound T C p)
    (h : replayFrom C T.ranged r board i history p = .ok p') : Sound T C p' := by
  induction history generalizing i p with
  | nil => cases h; exact hp
  | cons his rest ih =>
      obtain ⟨⟨q, more⟩, hline, h⟩ := bind_eq_ok.mp h
      cases more with
      | true => exact ih (replayLine_sound hp hline) h
      | false =>
          cases h
          have hworld := replayLine_still hline (.inl rfl)
          exact ⟨Accounts.record_shaped hp.shaped (replayLine_accounts hline),
            hworld ▸ hp.keyed, hworld ▸ hp.players⟩

/-- The loop stays in range exactly when every entry fits that it comes to. -/
theorem replayFrom_ne_index_iff {history : List HistoryLine} (hp : Sound T C p) :
    replayFrom C T.ranged r board i history p ≠ .error .index ↔
      Guarded (goesOn (turn C T.ranged r board)) (fun x his => Fits T C r board x.1 his x.2)
        (i, p) history := by
  have hmap : ∀ {α β : Type} {x : Checked α} {f : α → β} {e : Fault},
      x.map f = .error e ↔ x = .error e := by
    intro α β x f e
    cases x with
    | error e' => simp [Except.map]
    | ok a => simp [Except.map]
  rw [replayFrom_eq_forEach, ne_eq, hmap]
  refine forEach_ne_error_iff (P := fun x => Sound T C x.2) ?_ ?_ hp
  · intro x his x' hx h
    rcases hline : replayLine C T.ranged r board x.1 his x.2 with e | ⟨q, more⟩
    · simp only [turn, hline, Except.map, reduceCtorEq] at h
    · simp only [turn, hline, Except.map] at h
      cases h
      exact replayLine_sound hx hline
  · intro x his hx
    rw [← replayLine_ne_index_iff hx, turn, ne_eq, hmap]

/-- The chips of the seats are recorded when there are enough players. -/
theorem exists_seatFrom (hseats : r.numSeats ≤ C.mNumPlayers) (i : Nat) (seats : List SeatInfo)
    {a : Accounts} (hi : i + seats.length ≤ r.numSeats) (ha : a.Shaped C.mNumPlayers) :
    ∃ a', Accounts.seatFrom C r i seats a = .ok a' := by
  induction seats generalizing i a with
  | nil => exact ⟨a, rfl⟩
  | cons info seats ih =>
      rw [List.length_cons] at hi
      have hrem := writeAt_of_bounds (v := a.vRemains) (i := r.newPos C i)
        (by rw [ha.remains]; exact bounds_newPos hseats (by omega)) info.init_chips
      have hshaped := (length_of_writeAt hrem).trans ha.remains
      obtain ⟨a', ha'⟩ := ih (i + 1)
        (a := { a with vRemains := a.vRemains.set (r.newPos C i).toNat info.init_chips })
        (by omega) ⟨hshaped, ha.roundBet, ha.roundCall, ha.betting⟩
      exact ⟨a', bind_eq_ok.mpr ⟨_, hrem, ha'⟩⟩

theorem sound_of_seatFrom {w : Ranged W} {accounts : Accounts} (hkeys : w.Keyed T.toLookups)
    (hplayers : w.handRanges.length = C.mNumPlayers)
    (h : Accounts.seatFrom C r 0 r.seat_info (.start C.mNumPlayers) = .ok accounts) :
    Sound T C ⟨accounts, ⟨0, 0, 0⟩, true, w⟩ :=
  ⟨Accounts.seatFrom_shaped (Accounts.start_shaped _) h, hkeys, hplayers⟩

theorem replay_sound {w : Ranged W} (hkeys : w.Keyed T.toLookups)
    (hplayers : w.handRanges.length = C.mNumPlayers)
    (h : replay C T.ranged r board w = .ok p) : Sound T C p := by
  obtain ⟨accounts, hseat, h⟩ := bind_eq_ok.mp h
  exact replayFrom_sound (sound_of_seatFrom hkeys hplayers hseat) h

/-- **The replay.**  It stays in range exactly when its entries fit. -/
theorem replay_ne_index_iff (hseats : r.numSeats ≤ C.mNumPlayers) {w : Ranged W}
    (hkeys : w.Keyed T.toLookups) (hplayers : w.handRanges.length = C.mNumPlayers) :
    replay C T.ranged r board w ≠ .error .index ↔ EntriesFit T C r board w := by
  obtain ⟨accounts, hseat⟩ := exists_seatFrom hseats 0 r.seat_info
    (by rw [Nat.zero_add]; exact Nat.le_refl _) (Accounts.start_shaped C.mNumPlayers)
  simp only [replay, EntriesFit, hseat, ok_bind, Except.ok.injEq, forall_eq']
  exact replayFrom_ne_index_iff (sound_of_seatFrom hkeys hplayers hseat)

/-! ### The handler -/

/-- A robot that is seated has one of the seats. -/
theorem scanFrom_turn (seats : List SeatInfo) (i : Nat) (acc : Int × List Card) :
    (r.scanFrom i seats acc).1 = acc.1 ∨
      ∃ j : Nat, (r.scanFrom i seats acc).1 = j ∧ i ≤ j ∧ j < i + seats.length := by
  induction seats generalizing i acc with
  | nil => exact .inl rfl
  | cons si seats ih =>
      obtain ⟨turnIndex, holeCards⟩ := acc
      simp only [Request.scanFrom, List.length_cons]
      rcases ih (i + 1) (if si.robot_guid = r.uid then (i, holeCards ++ si.hole_card)
        else (turnIndex, holeCards)) with heq | ⟨j, heq, hle, hlt⟩
      · rw [heq]
        split
        · exact .inr ⟨i, rfl, Nat.le_refl _, by omega⟩
        · exact .inl rfl
      · exact .inr ⟨j, heq, by omega, by omega⟩

theorem bounds_turnIndex (hseats : r.numSeats ≤ C.mNumPlayers) (hvalid : r.Valid) :
    Bounds (r.turnIndex C) C.mNumPlayers := by
  rcases scanFrom_turn (r := r) r.seat_info 0 (-1, []) with heq | ⟨j, heq, -, hlt⟩
  · exact absurd heq.symm hvalid.2.1
  · rw [Request.turnIndex, Request.scan, heq]
    exact bounds_newPos hseats (by rwa [Nat.zero_add] at hlt)

theorem roundOf_lt {holeCards : List Card} {n k : Nat} (h : roundOf holeCards n = some k) :
    k < 4 := by
  unfold roundOf at h
  split at h
  · split at h <;> cases h <;> decide
  · cases h

/-- Reading the decision state stays in range. -/
theorem exists_decisionState {p : Replay W} {k : Nat} {newPos : Int}
    (hp : p.accounts.Shaped C.mNumPlayers) (hk : k < 4) (hpos : Bounds newPos C.mNumPlayers)
    (historyStage : Int) : ∃ d, decisionState p k newPos historyStage = .ok d := by
  have hround : Bounds (k : Int) 4 := bounds_natCast hk
  obtain ⟨maxRoundBet, hmax⟩ := readAt_of_bounds (v := p.accounts.vRoundBet)
    (by rwa [hp.roundBet])
  obtain ⟨curRoundBet, hcur⟩ := hp.betting.readAt₂_of_bounds hround hpos
  obtain ⟨curRemains, hrem⟩ := readAt_of_bounds (v := p.accounts.vRemains) (by rwa [hp.remains])
  exact ⟨_, bind_eq_ok.mpr ⟨_, hmax, bind_eq_ok.mpr ⟨_, hcur, bind_eq_ok.mpr ⟨_, hrem, rfl⟩⟩⟩⟩

/-- From the deal on nothing but the log of the ranges can be out of range. -/
theorem resume_searchOf {p : Replay (Ranged W)} (dealt : Option (List Card) × Cards × Ranged W)
    (hseats : r.numSeats ≤ C.mNumPlayers) (hvalid : r.Valid)
    (hp : p.accounts.Shaped C.mNumPlayers) :
    ∃ x, resume C T.ranged r p dealt = .ok x ∧ searchOf x.2.2 = .ok () := by
  obtain ⟨_ | holeCards, s, w⟩ := dealt
  · exact ⟨_, rfl, rfl⟩
  · rcases hround : roundOf holeCards r.board_card.length with _ | k
    · exact ⟨(s, w, .refused), by simp only [resume, hround], rfl⟩
    · have hk := roundOf_lt hround
      obtain ⟨d, hd⟩ := exists_decisionState hp hk (bounds_turnIndex hseats hvalid)
        (historyStageOf holeCards s.testboardCards.length)
      have hsearch : researchAt k = .ok ⟨(k : Int).toNat, _⟩ := dif_pos ⟨by omega, by omega⟩
      refine ⟨(s, w, .reached ⟨p.isSucceed, k, T.ranged.infoSet w, d⟩), ?_, ?_⟩
      · simp only [resume, hround, hd, ok_bind]
      · simp only [searchOf, hsearch, ok_bind]

/-- The log of the ranges needs two of them. -/
theorem logRanges_ne_index_iff {w : Ranged W} :
    logRanges w ≠ .error .index ↔ 2 ≤ w.handRanges.length := by
  constructor
  · intro h
    by_contra hshort
    refine h ?_
    rcases hfirst : readAt w.handRanges 0 with e | range
    · by_cases h0 : Bounds 0 w.handRanges.length
      · obtain ⟨range, hrange⟩ := readAt_of_bounds h0
        cases hfirst.symm.trans hrange
      · simp only [logRanges, readAt_of_not_bounds h0, error_bind]
    · have h1 : ¬ Bounds 1 w.handRanges.length := fun h1 => hshort (by have := h1.2; omega)
      simp only [logRanges, hfirst, ok_bind, readAt_of_not_bounds h1, error_bind]
  · intro h
    obtain ⟨range₀, h0⟩ := readAt_of_bounds (v := w.handRanges) (i := 0) ⟨by omega, by omega⟩
    obtain ⟨range₁, h1⟩ := readAt_of_bounds (v := w.handRanges) (i := 1) ⟨by omega, by omega⟩
    simp only [logRanges, h0, h1, ok_bind]
    nofun

/-- The deal leaves the ranges as they are. -/
theorem deal_handRanges (s : Cards) (w : Ranged W) :
    (deal T.ranged s w).2.2.handRanges = w.handRanges := by
  unfold deal
  rcases hdeal : T.ranged.distributeCards5 (T.ranged.setBoardCards w s.testboardCards)
    s.testhands s.testboardCards with ⟨_ | _, w'⟩
  · exact (congrArg (fun x => x.2.handRanges) hdeal).symm
  · exact (congrArg (fun x => x.2.handRanges) hdeal).symm

/-- From the deal on the handler stays in range exactly when there are ranges to log. -/
theorem resumeLogged_ne_index_iff {p : Replay (Ranged W)}
    {dealt : Option (List Card) × Cards × Ranged W} (hseats : r.numSeats ≤ C.mNumPlayers)
    (hvalid : r.Valid) (hp : p.accounts.Shaped C.mNumPlayers) :
    resumeLogged C T r p dealt ≠ .error .index ↔
      (dealt.1 ≠ none → 2 ≤ dealt.2.2.handRanges.length) := by
  obtain ⟨x, hresume, hsearch⟩ := resume_searchOf (T := T) dealt hseats hvalid hp
  obtain ⟨_ | holeCards, s, w⟩ := dealt
  · have hrefused : resumeLogged C T r p (none, s, w) = .ok (s, w, .refused) := rfl
    rw [hrefused]
    exact iff_of_true nofun (fun h => absurd rfl h)
  · have hlogged : resumeLogged C T r p (some holeCards, s, w) =
        (logRanges w >>= fun _ => .ok x) := by
      simp only [resumeLogged, hresume, ok_bind, hsearch]
      rfl
    rw [hlogged, forall_prop_of_true (Option.some_ne_none holeCards),
      ← logRanges_ne_index_iff (w := w)]
    exact not_congr (bind_eq_error_left fun _ => ⟨x, rfl⟩)

/-- With the log, a request with ten entries is out of range. -/
theorem logCards_eq_ok_or (logs : Bool) (r : Request) :
    ¬ (logs = true ∧ r.history.length = 10) ∧ logCards logs r = .ok () ∨
      (logs = true ∧ r.history.length = 10) ∧ logCards logs r = .error .index := by
  by_cases h : logs = true ∧ r.history.length = 10
  · exact .inr ⟨h, if_pos h⟩
  · exact .inl ⟨h, if_neg h⟩

theorem foldEmpty_handRanges (n : Nat) (w : Ranged W) :
    (foldEmpty T.ranged n w).handRanges = w.handRanges := by
  induction n generalizing w with
  | zero => rfl
  | succ n ih => exact ih (T.ranged.Command w (some .fold))

theorem unshuffle_length {w₀ w : Ranged W} (h : prepare C T.ranged w₀ r = some w) :
    (unshuffle T.ranged w r).handRanges.length = C.mNumPlayers := by
  obtain ⟨w₁, hnew, h⟩ := Option.bind_eq_some_iff.mp h
  obtain ⟨state, -, rfl⟩ := Option.map_eq_some_iff.mp hnew
  cases h
  have hlen : ∀ w : Ranged W,
      (unshuffle T.ranged w r).handRanges.length = w.handRanges.length := by
    intro w
    unfold unshuffle
    split
    · exact List.length_map _
    · exact List.length_map _
  rw [hlen, foldEmpty_handRanges]
  exact List.length_replicate

/-- What the handler comes to with the logs and the search, it comes to without them. -/
theorem restore_of_restoreLogged {logs : Bool} {s : Cards} {w : Ranged W}
    {x : Cards × Ranged W × Outcome Ready} (h : restoreLogged logs C T s w r = .ok x) :
    restore C T.ranged s w r = .ok x := by
  have hresume : ∀ {p : Replay (Ranged W)} {dealt}, resumeLogged C T r p dealt = .ok x →
      resume C T.ranged r p dealt = .ok x := by
    intro p dealt h
    obtain ⟨⟨⟩, -, h⟩ := bind_eq_ok.mp h
    obtain ⟨y, hy, h⟩ := bind_eq_ok.mp h
    obtain ⟨⟨⟩, -, h⟩ := bind_eq_ok.mp h
    cases h
    exact hy
  unfold restoreLogged at h
  unfold restore
  split at h
  · next hvalid =>
    rw [if_pos hvalid]
    rcases hprep : prepare C T.ranged w r with _ | w'
    · simp only [hprep] at h ⊢
      exact h
    · simp only [hprep] at h ⊢
      split at h
      · next hlen =>
        rw [if_pos hlen]
        exact h
      · next hlen =>
        rw [if_neg hlen]
        obtain ⟨⟨⟩, -, h⟩ := bind_eq_ok.mp h
        obtain ⟨p, hp, h⟩ := bind_eq_ok.mp h
        exact bind_eq_ok.mpr ⟨p, hp, hresume h⟩
  · next hvalid =>
    rw [if_neg hvalid]
    exact h

/-- **Accesses.**  For a request that passes the checks, the handler stays in range and keeps the
seats apart exactly when: there are no more seats than players; every entry that the replay comes to
is of one of the players and of one of the four rounds; the session holds the board of the round
wherever a hand is looked up; and the logs have what they read. -/
theorem accesses_iff {logs : Bool} {s : Cards} {w₀ w : Ranged W} (hvalid : r.Valid)
    (hlen : 10 ≤ r.history.length) (hprep : prepare C T.ranged w₀ r = some w) :
    restoreLogged logs C T s w₀ r ≠ .error .index ∧ r.Spreads C ↔ Covered logs C T s w r := by
  have hkeys : (unshuffle T.ranged w r).Keyed T.toLookups := unshuffle_keyed w
  have hplayers := unshuffle_length hprep
  have hrun : restoreLogged logs C T s w₀ r = (logCards logs r >>= fun _ =>
      replay C T.ranged r (s.begin r).testboardCards (unshuffle T.ranged w r) >>= fun p =>
        resumeLogged C T r p (deal T.ranged (s.begin r) p.world)) := by
    simp only [restoreLogged, if_pos hvalid, hprep, if_neg (Nat.not_lt.mpr hlen)]
  have hdeal : ∀ p, r.numSeats ≤ C.mNumPlayers →
      replay C T.ranged r (s.begin r).testboardCards (unshuffle T.ranged w r) = .ok p →
      (resumeLogged C T r p (deal T.ranged (s.begin r) p.world) ≠ .error .index ↔
        ((deal T.ranged (s.begin r) p.world).1 ≠ none → 2 ≤ C.mNumPlayers)) := by
    intro p hseats hp
    have hsound := replay_sound hkeys hplayers hp
    rw [resumeLogged_ne_index_iff hseats hvalid hsound.shaped, deal_handRanges, hsound.players]
  rw [hrun, spreads_iff]
  constructor
  · rintro ⟨hne, hseats⟩
    rcases logCards_eq_ok_or logs r with ⟨hlog, hok⟩ | ⟨-, herr⟩
    · rw [hok, ok_bind] at hne
      refine ⟨hseats, fun hlogs hten => hlog ⟨hlogs, hten⟩, ?_, fun p hp => ?_⟩
      · exact (replay_ne_index_iff hseats hkeys hplayers).mp fun herr =>
          hne (bind_eq_error.mpr (.inl herr))
      · exact (hdeal p hseats hp).mp fun herr => hne (bind_eq_error.mpr (.inr ⟨p, hp, herr⟩))
    · rw [herr, error_bind] at hne
      exact absurd rfl hne
  · rintro ⟨hseats, hlogged, hentries, hdealt⟩
    refine ⟨?_, hseats⟩
    rcases logCards_eq_ok_or logs r with ⟨-, hok⟩ | ⟨⟨hlogs, hten⟩, -⟩
    · rw [hok, ok_bind]
      intro herr
      rcases bind_eq_error.mp herr with herr | ⟨p, hp, herr⟩
      · exact (replay_ne_index_iff hseats hkeys hplayers).mpr hentries herr
      · exact (hdeal p hseats hp).mpr (hdealt p hp) herr
    · exact absurd hten (hlogged hlogs)

/-- The handler is covered where the request is in range as it stands, and the session holds the
boards of its rounds. -/
theorem covered_of_inRange {logs : Bool} {s : Cards} (w : Ranged W)
    (hseats : r.numSeats ≤ C.mNumPlayers) (hplayers : 2 ≤ C.mNumPlayers)
    (hlogs : logs = true → r.history.length ≠ 10)
    (hentries : ∀ his ∈ r.history, Bounds (r.newPos C his.pos) C.mNumPlayers ∧
      Bounds his.round 4 ∧ Dealt his.round (s.begin r).testboardCards) :
    Covered logs C T s w r where
  seats := hseats
  logged := hlogs
  players := fun _ _ _ => hplayers
  entries := by
    intro accounts _
    refine guarded_of_forall (fun his hhis x => ?_) _
    obtain ⟨hpos, hround, hdealt⟩ := hentries his hhis
    exact ⟨hpos, hround, fun _ => hdealt⟩

/-- A session without a board is asked for one of three cards. -/
theorem index_fourteen : fourteen.Valid ∧ 10 ≤ fourteen.history.length ∧
    (prepare headsUp boardTable.ranged ⟨[], []⟩ fourteen).isSome ∧
    restoreLogged false headsUp boardTable .fresh ⟨[], []⟩ fourteen = .error .index :=
  ⟨by decide, by decide, rfl, rfl⟩

/-- The request of the short stack sets the board itself. -/
theorem covered_shortStack : ∃ w, prepare headsUp boardTable.ranged ⟨[], []⟩ shortStack = some w ∧
    Covered false headsUp boardTable .fresh w shortStack := by
  obtain ⟨w, hprep⟩ : ∃ w, prepare headsUp boardTable.ranged ⟨[], []⟩ shortStack = some w :=
    ⟨_, rfl⟩
  obtain ⟨x, hx⟩ : ∃ x, restoreLogged false headsUp boardTable .fresh ⟨[], []⟩ shortStack =
      .ok x := ⟨_, rfl⟩
  refine ⟨w, hprep, (accesses_iff (by decide) (by decide) hprep).mp ⟨?_, ?_⟩⟩
  · rw [hx]
    nofun
  · exact spreads_iff.mpr (by decide)

end Holdem.Decide
