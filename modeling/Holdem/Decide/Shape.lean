import Holdem.Decide.Replay

/-!
# Decide — Shape

The vectors of the replay have an entry for every player, or for every one of the four rounds, or
for both, and keep these lengths.  So whether an entry of the history is recorded, or stopped by an
index out of range, depends on its seat and its round alone.

* `exists_record`, `record_eq_error`: what becomes of an entry.
* `replay_shaped`: the lengths after a replay.
-/

namespace Holdem.Decide
open Support

variable {W : Type} {C : Configure} {E : Engine W} {r : Request} {board : List Card}

namespace Accounts

/-- Entries for `n` players and four rounds. -/
structure Shaped (n : Nat) (a : Accounts) : Prop where
  remains : a.vRemains.length = n
  roundBet : a.vRoundBet.length = 4
  roundCall : Grid 4 n a.vRoundCall
  betting : Grid 4 n a.vBetting

theorem start_shaped (n : Nat) : (start n).Shaped n where
  remains := List.length_replicate
  roundBet := List.length_replicate
  roundCall := grid_replicate 4 n 0
  betting := grid_replicate 4 n 0

variable {n : Nat} {a a' : Accounts} {round newPos his_bet chips : Int}

theorem seatFrom_shaped {i : Nat} {seats : List SeatInfo} (ha : a.Shaped n)
    (h : seatFrom C r i seats a = .ok a') : a'.Shaped n := by
  refine seatFrom_invariant (fun a info hinfo newPos vRemains ha hrem => ?_) ha h
  exact ⟨(length_of_writeAt hrem).trans ha.remains, ha.roundBet, ha.roundCall, ha.betting⟩

theorem record_shaped (ha : a.Shaped n) (h : a.record round newPos his_bet chips = .ok a') :
    a'.Shaped n := by
  obtain ⟨roundBet, beted, -, -, hrem, hcall, hbet, hmax, -⟩ := record_eq_ok h
  exact ⟨(length_of_writeAt hrem).trans ha.remains, (length_of_writeAt hmax).trans ha.roundBet,
    ha.roundCall.of_writeAt₂ hcall, ha.betting.of_writeAt₂ hbet⟩

/-- An entry for a player and a round that there are is recorded. -/
theorem exists_record (ha : a.Shaped n) (hpos : Bounds newPos n) (hround : Bounds round 4)
    (his_bet chips : Int) : ∃ a', a.record round newPos his_bet chips = .ok a' := by
  have hrem := writeAt_of_bounds (v := a.vRemains) (by rwa [ha.remains]) chips
  obtain ⟨roundBet, hmax⟩ := readAt_of_bounds (v := a.vRoundBet) (by rwa [ha.roundBet])
  obtain ⟨beted, hbeted⟩ := ha.betting.readAt₂_of_bounds hround hpos
  obtain ⟨vRoundCall, hcall⟩ :=
    ha.roundCall.writeAt₂_of_bounds hround hpos (roundBet - beted)
  obtain ⟨vBetting, hbet⟩ := ha.betting.writeAt₂_of_bounds hround hpos (beted + his_bet)
  obtain ⟨vRoundBet, hraise⟩ : ∃ v, a.raiseRoundBet round (beted + his_bet) = .ok v := by
    simp only [raiseRoundBet, hmax, ok_bind]
    split
    · exact ⟨_, writeAt_of_bounds (by rwa [ha.roundBet]) _⟩
    · exact ⟨_, rfl⟩
  exact ⟨_, bind_eq_ok.mpr ⟨_, hrem, bind_eq_ok.mpr ⟨_, hmax, bind_eq_ok.mpr ⟨_, hbeted,
    bind_eq_ok.mpr ⟨_, hcall, bind_eq_ok.mpr ⟨_, hbet, bind_eq_ok.mpr ⟨_, hraise, rfl⟩⟩⟩⟩⟩⟩⟩

/-- Any other entry is stopped. -/
theorem record_eq_error (ha : a.Shaped n) (h : ¬ (Bounds newPos n ∧ Bounds round 4))
    (his_bet chips : Int) : a.record round newPos his_bet chips = .error .index := by
  by_cases hpos : Bounds newPos n
  · have hrem := writeAt_of_bounds (v := a.vRemains) (by rwa [ha.remains]) chips
    have hround : readAt a.vRoundBet round = .error .index :=
      readAt_of_not_bounds (by rw [ha.roundBet]; exact fun hr => h ⟨hpos, hr⟩)
    simp only [record, hrem, hround, ok_bind, error_bind]
  · have hrem : writeAt a.vRemains newPos chips = .error .index :=
      writeAt_of_not_bounds (by rwa [ha.remains]) chips
    simp only [record, hrem, error_bind]

end Accounts

theorem replayFrom_shaped {n i : Nat} {history : List HistoryLine} {p p' : Replay W}
    (hp : p.accounts.Shaped n) (h : replayFrom C E r board i history p = .ok p') :
    p'.accounts.Shaped n :=
  replayFrom_accounts (P := Accounts.Shaped n) (A := fun _ => True)
    (fun _ _ _ _ ha _ hrec => Accounts.record_shaped ha hrec) hp (fun _ _ => trivial) h

/-- The lengths after a replay. -/
theorem replay_shaped {w : W} {p : Replay W} (h : replay C E r board w = .ok p) :
    p.accounts.Shaped C.mNumPlayers := by
  obtain ⟨accounts, hseat, h⟩ := bind_eq_ok.mp h
  exact replayFrom_shaped (Accounts.seatFrom_shaped (Accounts.start_shaped _) hseat) h

end Holdem.Decide
