import Holdem.Decide.Handle

/-!
# Decide — Stack

The decision state that a request without negative amounts leads to, in any session and with any
engine.

* `handle_fair`: it has no negative amounts.
* `handle_shortStack`: a river bet larger than the stack leads to one with a call beyond it.
-/

namespace Holdem.Decide
open Support

variable {W : Type} {C : Configure} {E : Engine W} {s s' : Cards} {w w' : W} {r : Request}

/-- The decision state of a request without negative amounts has none. -/
theorem handle_fair {d : Decision} (hr : r.Fair)
    (h : handleRobotDecide2 C E s w r = .ok (s', w', .reached d)) : d.state.Fair := by
  obtain ⟨s₁, w₁, q, hrestore, hstate, -⟩ := handle_reached h
  obtain ⟨-, -, w₀, p, holeCards, -, hreplay, -, -, hd⟩ := restore_reached hrestore
  rw [hstate]
  exact decisionState_fair (replay_fair hr hreplay) hd

/-- Two players, with `mRealRaise` and the third rule. -/
def headsUp : Configure := ⟨2, 1, 2, true, 3, by decide, by decide⟩

/-- The small blind limps and bets 100 on the river; the big blind, the robot, has 50 left. -/
def shortStack : Request where
  uid := 7
  small_blind := 1
  big_blind := 2
  seat_info := [⟨6, false, 200, []⟩, ⟨7, false, 52, ["Kc", "Ac"]⟩]
  board_card := Cards.testBoard
  history :=
    [⟨0, .other, 1, 0, 199, 0⟩, ⟨1, .other, 2, 1, 50, 0⟩, ⟨0, .follow, 1, 3, 198, 0⟩,
      ⟨1, .pass, 0, 4, 50, 0⟩, ⟨1, .pass, 0, 4, 50, 1⟩, ⟨0, .pass, 0, 4, 198, 1⟩,
      ⟨1, .pass, 0, 4, 50, 2⟩, ⟨0, .pass, 0, 4, 198, 2⟩, ⟨1, .pass, 0, 4, 50, 3⟩,
      ⟨0, .raise, 100, 4, 98, 3⟩]

theorem shortStack_fair : shortStack.Fair := ⟨by decide, by decide⟩

/-- The decision the short stack comes to. -/
def shortStackState : DecisionState := ⟨104, 100, 0, 50, 0, 1, 100, 1, 4⟩

theorem handle_shortStack : ∃ s' w' d,
    handleRobotDecide2 headsUp plainEngine .fresh () shortStack = .ok (s', w', .reached d) ∧
      d.state = shortStackState :=
  ⟨_, _, _, rfl, rfl⟩

end Holdem.Decide
