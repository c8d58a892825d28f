import Holdem.Decide.Dealing

/-!
# Decide — Runs out

Whether dealing runs out of hands.  A player without a range is refused, but a range of which the
board and the cards dealt before leave no hand is drawn from all the same, and the hand is read from
an empty vector.

* `dealFrom_fine_iff`: exactly when a call deals or returns a code.
* `fine_iff`: the same for each of the four.
* `notOut_iff_neverOut`: with weights above zero, exactly when no draw at all runs out.
-/

namespace Holdem.Decide
open Support

/-- The call returns a negative code without `distributeCards5`, or has dealt to all of the
seats. -/
def Fine (seats : Int → Prop) : Checked DealResult → Prop
  | .error _            => False
  | .ok ⟨ret, none⟩     => ret < 0
  | .ok ⟨_, some mHands⟩ => ∀ i, seats i → (mHands i).isSome

section
variable (G : Game) (boardCards : List Card) (handRanges : List HandRange)

/-- A player who has not folded has a range, and if there is a hand in it, there is one that has
none of the cards on the board or dealt so far. -/
def Servable (d : Deal) (i : Int) : Prop :=
  G.Live i → ∃ hands, readAt handRanges i = .ok hands ∧
    (hands ≠ [] → ∃ x ∈ hands, IsValid boardCards d.dealDards x.1)

/-- Every seat can be dealt to when its turn comes. -/
def NotOut (D : Deck) (vPositions : List Int) (d : Deal) : Prop :=
  Guarded (goesOn (dealSeat G D boardCards handRanges)) (Servable G boardCards handRanges) d
    vPositions

end

variable {G : Game} {D : Deck} {boardCards : List Card} {handRanges : List HandRange}
  {d d' : Deal} {vPositions : List Int}

/-! ### One seat -/

/-- A hand can be drawn exactly when there is a valid one. -/
theorem exists_draw_iff (S : Sampler) {dealDards : List Card} {hands : HandRange} :
    (∃ x, readAt (validHands boardCards dealDards hands)
        (S.pick ((validHands boardCards dealDards hands).map fun x => some x.2)) = .ok x) ↔
      ∃ x ∈ hands, IsValid boardCards dealDards x.1 := by
  rw [exists_readAt_iff]
  constructor
  · rintro ⟨-, hlt⟩
    obtain ⟨x, hx⟩ := List.exists_mem_of_length_pos (Nat.zero_lt_of_lt (Int.ofNat_lt.mp hlt))
    obtain ⟨hmem, hvalid⟩ := mem_validHands.mp hx
    exact ⟨x, hmem, hvalid⟩
  · rintro ⟨x, hmem, hvalid⟩
    have hx : x ∈ validHands boardCards dealDards hands := mem_validHands.mpr ⟨hmem, hvalid⟩
    have hne : ((validHands boardCards dealDards hands).map fun x => some x.2) ≠ [] :=
      List.ne_nil_of_mem (List.mem_map_of_mem hx)
    have hlt := S.pick_lt _ hne
    rw [List.length_map] at hlt
    exact ⟨Int.natCast_nonneg _, Int.ofNat_lt.mpr hlt⟩

/-- A turn does not fail exactly when the seat can be dealt to. -/
theorem exists_dealSeat_iff (d : Deal) (i : Int) :
    (∃ y, dealSeat G D boardCards handRanges d i = .ok y) ↔
      Servable G boardCards handRanges d i := by
  by_cases hlive : G.Live i
  · rw [dealSeat_of_live hlive]
    constructor
    · rintro ⟨y, h⟩ -
      obtain ⟨hands, hrange, h⟩ := bind_eq_ok.mp h
      refine ⟨hands, hrange, fun hne => ?_⟩
      rw [if_neg hne] at h
      obtain ⟨x, hx, -⟩ := bind_eq_ok.mp h
      exact (exists_draw_iff _).mp ⟨x, hx⟩
    · intro h
      obtain ⟨hands, hrange, hserve⟩ := h hlive
      rw [hrange, ok_bind]
      by_cases hempty : hands = []
      · rw [if_pos hempty]
        exact ⟨_, rfl⟩
      · rw [if_neg hempty]
        obtain ⟨x, hx⟩ := (exists_draw_iff (D.random_choice i)).mpr (hserve hempty)
        simp only [hx, ok_bind]
        split
        · exact ⟨_, rfl⟩
        · exact ⟨_, rfl⟩
  · exact iff_of_true ⟨_, dealSeat_of_not_live hlive⟩ fun h => absurd h hlive

/-! ### The loop -/

/-- The loop only returns -1. -/
theorem ret_of_forEach (hd : d.ret = none)
    (h : forEach (dealSeat G D boardCards handRanges) d vPositions = .ok d') :
    d'.ret = none ∨ d'.ret = some (-1) := by
  refine forEach_invariant (P := fun d => d.ret = none ∨ d.ret = some (-1)) ?_ (.inl hd) h
  intro d i d' more hret hturn
  rcases dealSeat_cases hturn with ⟨-, rfl, -⟩ | ⟨-, rfl, -⟩ | ⟨-, -, hand, -, -, rfl⟩
  · exact hret
  · exact .inr rfl
  · exact hret

theorem isSome_emplace (hands : Hands) (k : Int) (cards : List Card) (i : Int) :
    (hands.emplace k cards i).isSome ↔ i = k ∨ (hands i).isSome := by
  by_cases hk : (hands k).isSome
  · rw [Hands.emplace, if_pos hk]
    constructor
    · exact .inr
    · rintro (rfl | h)
      · exact hk
      · exact h
  · rw [Hands.emplace, if_neg hk]
    by_cases hi : i = k
    · cases hi
      simp
    · rw [Hands.put_of_ne _ _ hi]
      exact (or_iff_right hi).symm

/-- Whoever has a hand keeps one, and whoever is dealt one has it. -/
theorem isSome_serveAll (D : Deck) (d : Deal) (xs : List (Int × String)) (i : Int) :
    ((D.serveAll d xs).mHands i).isSome ↔ (d.mHands i).isSome ∨ i ∈ xs.map Prod.fst := by
  induction xs generalizing d with
  | nil => simp [Deck.serveAll]
  | cons x xs ih =>
      rw [Deck.serveAll, ih, Deck.serve, isSome_emplace, List.map_cons, List.mem_cons, or_assoc,
        or_left_comm]

/-- **Exactly when dealing is fine.**  From the cards dealt before, a call deals or returns a code
exactly when every seat can be dealt to when its turn comes. -/
theorem dealFrom_fine_iff {seats : Int → Prop} (hd : d.ret = none)
    (hseats : ∀ i, seats i → (d.mHands i).isSome ∨ i ∈ vPositions ∧ G.Live i) :
    Fine seats (dealFrom G D boardCards handRanges vPositions d) ↔
      NotOut G boardCards handRanges D vPositions d := by
  rw [NotOut, ← exists_forEach_iff exists_dealSeat_iff]
  constructor
  · intro hfine
    rcases hloop : forEach (dealSeat G D boardCards handRanges) d vPositions with e | d'
    · rw [dealFrom, hloop, error_bind] at hfine
      exact hfine.elim
    · exact ⟨d', rfl⟩
  · rintro ⟨d', hloop⟩
    rw [dealFrom, hloop, ok_bind]
    rcases ret_of_forEach hd hloop with hret | hret
    · obtain ⟨xs, hdraws, rfl⟩ := exists_draws hd hloop hret
      simp only [hret]
      intro i hi
      rw [isSome_serveAll, hdraws.drawers, List.mem_filter, decide_eq_true_iff]
      exact hseats i hi
    · simp only [hret]
      exact (by decide : (-1 : Int) < 0)

/-! ### The four -/

theorem dealOthers_fine_iff :
    Fine (fun i => 0 ≤ i ∧ i < G.getPlayerNum ∧ i ≠ G.getTurnIndex ∧ G.Live i)
        (dealOthers G D boardCards handRanges) ↔
      ∀ curPlayer, G.getPlayer G.getTurnIndex = some curPlayer →
        NotOut G boardCards handRanges D (positions G (G.getTurnIndex + 1) G.getTurnIndex)
          ⟨[curPlayer.hand0, curPlayer.hand1], fun _ => none, none⟩ := by
  rcases hcur : G.getPlayer G.getTurnIndex with _ | curPlayer
  · simp only [dealOthers, hcur]
    refine iff_of_true (by decide : (-1 : Int) < 0) fun _ h => ?_
    cases h
  · simp only [dealOthers, hcur, Option.some.injEq, forall_eq']
    refine dealFrom_fine_iff rfl ?_
    rintro i ⟨h0, hn, hne, hlive⟩
    exact .inr ⟨mem_positions.mpr (by omega), hlive⟩

/-- **Exactly when the four are fine.**  Each of them deals to every live player, or returns a
negative code, exactly when every seat can be dealt to when its turn comes; `dealCards2` also takes
a pair that there is. -/
theorem fine_iff (G : Game) (D : Deck) (boardCards : List Card) (handRanges : List HandRange) :
    (Fine (fun i => 0 ≤ i ∧ i < G.getPlayerNum ∧ G.Live i)
        (dealCards G D boardCards handRanges) ↔
      NotOut G boardCards handRanges D (positions G G.getTurnIndex G.getTurnIndex)
        ⟨[], fun _ => none, none⟩) ∧
    (∀ iterations turnIndex cardPairs,
      Fine (fun i => 0 ≤ i ∧ i < G.getPlayerNum ∧ G.Live i)
          (dealCards2 G D boardCards handRanges iterations turnIndex cardPairs) ↔
        ∃ holeCards, readAt cardPairs (iterations.tmod 1326) = .ok holeCards ∧
          NotOut G boardCards handRanges D (positions G (turnIndex + 1) turnIndex)
            ⟨holeCards, Hands.emplace (fun _ => none) turnIndex holeCards, none⟩) ∧
    (Fine (fun i => 0 ≤ i ∧ i < G.getPlayerNum ∧ i ≠ G.getTurnIndex ∧ G.Live i)
        (dealCards3 G D boardCards handRanges) ↔
      ∀ curPlayer, G.getPlayer G.getTurnIndex = some curPlayer →
        NotOut G boardCards handRanges D (positions G (G.getTurnIndex + 1) G.getTurnIndex)
          ⟨[curPlayer.hand0, curPlayer.hand1], fun _ => none, none⟩) ∧
    ∀ holeCards,
      Fine (fun i => 0 ≤ i ∧ i < G.getPlayerNum ∧ i ≠ G.getTurnIndex ∧ G.Live i)
          (dealCards4 G D boardCards handRanges holeCards) ↔
        ∀ curPlayer, G.getPlayer G.getTurnIndex = some curPlayer →
          NotOut G boardCards handRanges D (positions G (G.getTurnIndex + 1) G.getTurnIndex)
            ⟨[curPlayer.hand0, curPlayer.hand1], fun _ => none, none⟩ := by
  refine ⟨?_, fun iterations turnIndex cardPairs => ?_, dealOthers_fine_iff,
    fun holeCards => dealOthers_fine_iff⟩
  · refine dealFrom_fine_iff rfl ?_
    rintro i ⟨h0, hn, hlive⟩
    exact .inr ⟨mem_positions.mpr (by omega), hlive⟩
  · rw [dealCards2]
    rcases hchosen : readAt cardPairs (iterations.tmod 1326) with e | holeCards
    · exact iff_of_false id fun ⟨_, h, _⟩ => nomatch h
    · rw [ok_bind]
      simp only [Except.ok.injEq, exists_eq_left']
      refine dealFrom_fine_iff rfl ?_
      rintro i ⟨h0, hn, hlive⟩
      by_cases hi : i = turnIndex
      · exact .inl ((isSome_emplace (fun _ => none) turnIndex holeCards i).mpr (.inl hi))
      · exact .inr ⟨mem_positions.mpr (by omega), hlive⟩

theorem not_fine_of_fault {seats : Int → Prop} {x : Checked DealResult}
    (h : (do
      let _ ← x
      .ok ()) = (.error .index : Checked Unit)) : ¬ Fine seats x := by
  rcases bind_eq_error.mp h with rfl | ⟨_, -, h⟩
  · exact id
  · cases h

/-- Two players, and the first holds the aces. -/
def twoSeats : Game where
  getPlayerNum := 2
  getTurnIndex := 0
  getPlayer i := if i = 0 then some ⟨false, "Ah", "As"⟩ else some ⟨false, "Kh", "Ks"⟩
  distributeCards5 _ _ := true

/-- Both of them have nothing but the aces in their ranges. -/
def acesOnly : List HandRange := [[("Ah-As", 1)], [("Ah-As", 1)]]

/-- There is no hand left for the second player, and one is drawn. -/
theorem not_fine_twoSeats :
    (¬ Fine (fun i => 0 ≤ i ∧ i < 2 ∧ twoSeats.Live i)
      (dealCards twoSeats dashDeck [] acesOnly)) ∧
    (¬ Fine (fun i => 0 ≤ i ∧ i < 2 ∧ twoSeats.Live i)
      (dealCards2 twoSeats dashDeck [] acesOnly 0 0 [["Ah", "As"]])) ∧
    (¬ Fine (fun i => 0 ≤ i ∧ i < 2 ∧ i ≠ 0 ∧ twoSeats.Live i)
      (dealCards3 twoSeats dashDeck [] acesOnly)) ∧
    ¬ Fine (fun i => 0 ≤ i ∧ i < 2 ∧ i ≠ 0 ∧ twoSeats.Live i)
      (dealCards4 twoSeats dashDeck [] acesOnly ["Kd", "Kc"]) :=
  ⟨not_fine_of_fault (by decide +kernel), not_fine_of_fault (by decide +kernel),
    not_fine_of_fault (by decide +kernel), not_fine_of_fault (by decide +kernel)⟩

/-! ### Every draw -/

/-- **Exactly when no draw runs out.**  Where every live player has a range of pairs with weights
above zero, no draw at the seats runs out of hands exactly when, whatever hands that share no card
those before have been dealt, every player is left one. -/
theorem notOut_iff_neverOut (hseats : vPositions.Nodup)
    (hranges : ∀ i ∈ vPositions, G.Live i → ∃ hands, readAt handRanges i = .ok hands ∧
      hands ≠ [] ∧ ∀ x ∈ hands, (D.split x.1).length = 2 ∧ 0 < x.2) :
    (∀ random_choice, (∀ i, Sampler.Sound (random_choice i)) →
      NotOut G boardCards handRanges (D.drawing random_choice) vPositions d) ↔
      NeverOut (D.Offers handRanges) D.split (IsValid boardCards) d.dealDards
        (vPositions.filter fun i => G.Live i) := by
  simp only [NotOut, ← exists_forEach_iff exists_dealSeat_iff]
  induction vPositions generalizing d with
  | nil => exact iff_of_true (fun _ _ => ⟨d, rfl⟩) neverOut_nil
  | cons i rest ih =>
      obtain ⟨hi, hseats⟩ := List.nodup_cons.mp hseats
      obtain ⟨hrange, hranges⟩ := List.forall_mem_cons.mp hranges
      by_cases hlive : G.Live i
      · rw [List.filter_cons_of_pos (by simp [hlive]), neverOut_cons]
        obtain ⟨hands, hread, hne, hpairs⟩ := hrange hlive
        constructor
        · intro h
          refine ⟨?_, fun hand hoffer hvalid =>
            (ih (d := D.serve d i hand) hseats hranges).mp fun random_choice hsound => ?_⟩
          · -- the first seat can be dealt to, with whatever draw
            obtain ⟨t, ht⟩ := h (fun _ => .at 0) fun _ => Sampler.at_sound 0
            obtain ⟨y, hturn⟩ := exists_turn_of_forEach ht
            obtain ⟨hands', hread', hserve⟩ := (exists_dealSeat_iff d i).mp ⟨y, hturn⟩ hlive
            cases hread.symm.trans hread'
            obtain ⟨x, hx, hvalid⟩ := hserve hne
            exact ⟨x.1, ⟨hands, hread, List.mem_map_of_mem hx, (hpairs x hx).1⟩, hvalid⟩
          · -- it may draw this hand, while those behind it draw as they like
            have hweights : ∀ hands', readAt handRanges i = .ok hands' → ∀ x ∈ hands', 0 < x.2 := by
              intro hands' hread' x hx
              cases hread.symm.trans hread'
              exact (hpairs x hx).2
            obtain ⟨random_choice', hsound', heq⟩ :=
              exists_forEach_cons hi hlive hoffer hweights hvalid hsound
            exact heq ▸ h random_choice' hsound'
        · rintro ⟨⟨hand, ⟨hands', hread', hmem, -⟩, hvalid⟩, hrest⟩ random_choice hsound
          obtain ⟨x, hx, rfl⟩ := List.mem_map.mp hmem
          obtain ⟨⟨d₁, more⟩, hturn⟩ := (exists_dealSeat_iff (D := D.drawing random_choice) d i).mpr
            fun _ => ⟨hands', hread', fun _ => ⟨x, hx, hvalid⟩⟩
          rcases dealSeat_cases hturn with ⟨hno, -⟩ | ⟨-, -, rfl⟩ |
            ⟨-, rfl, hand, hoffer, hvalid, rfl⟩
          · exact absurd hlive hno
          · exact ⟨d₁, by simp only [forEach, hturn]⟩
          · rw [forEach_cons_of_goesOn hturn]
            exact (ih (d := D.serve d i hand) hseats hranges).mpr (hrest hand hoffer hvalid)
              random_choice hsound
      · rw [List.filter_cons_of_neg (by simp [hlive]), ← ih hseats hranges]
        refine forall_congr' fun random_choice => imp_congr_right fun _ => ?_
        rw [forEach_cons_of_goesOn (dealSeat_of_not_live hlive)]

/-- The second player of the two may be left nothing. -/
theorem notOut_twoSeats :
    (∀ random_choice, (∀ i, Sampler.Sound (random_choice i)) →
      NotOut twoSeats [] acesOnly (dashDeck.drawing random_choice) [0, 1]
        ⟨[], fun _ => none, none⟩) ↔
      NeverOut (dashDeck.Offers acesOnly) dashDeck.split (IsValid []) []
        ([0, 1].filter fun i => twoSeats.Live i) := by
  refine notOut_iff_neverOut (d := ⟨[], fun _ => none, none⟩) (by decide) fun i hi _ => ?_
  rcases List.mem_pair.mp hi with rfl | rfl <;>
    exact ⟨[("Ah-As", 1)], rfl, by decide, by decide +kernel⟩

end Holdem.Decide
