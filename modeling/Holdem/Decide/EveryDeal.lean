import Holdem.Decide.Dealing

/-!
# Decide — Every deal

`dealCards` and `dealCards3` come to every consistent deal.  With hands and cards of the usual form
the test of a hand as a string is exact, and with weights above zero every hand that passes it can
be drawn, so that what the seats can draw one after another is any choice of hands without a common
card.

* `contains_hand_iff`: a hand contains a card exactly when this is one of its two.
* `dealCards_iff`, `dealCards3_iff`: the deals that they come to are the consistent ones.
-/

namespace Holdem.Decide
open Support

/-! ### The test of a hand -/

/-- **The test is exact.**  A hand contains a card exactly when this is one of its two. -/
theorem contains_hand_iff {card1 card2 card : Card} (h1 : IsCard card1) (h2 : IsCard card2)
    (h : IsCard card) : Contains (card1 ++ "-" ++ card2) card ↔ card ∈ [card1, card2] := by
  refine ⟨fun hin => ?_, contains_of_cut⟩
  obtain ⟨a, b, hab⟩ := List.length_eq_two.mp h1.1
  obtain ⟨c, d, hcd⟩ := List.length_eq_two.mp h2.1
  obtain ⟨x, y, hxy⟩ := List.length_eq_two.mp h.1
  have hlist : [x, y] <:+: [a, b, '-', c, d] := by
    rwa [Contains, String.toList_append, String.toList_append, hab, hcd, hxy] at hin
  have hdash : x ≠ '-' ∧ y ≠ '-' := by
    have hno := h.2
    rw [hxy] at hno
    simp only [List.mem_cons, List.not_mem_nil, or_false, not_or] at hno
    exact ⟨Ne.symm hno.1, Ne.symm hno.2⟩
  have heq : [x, y] = [a, b] ∨ [x, y] = [c, d] := by
    simp only [List.infix_cons_iff, List.cons_prefix_cons, List.nil_prefix, List.prefix_nil,
      List.infix_nil, reduceCtorEq, and_true, and_false, or_false] at hlist
    rcases hlist with ⟨rfl, rfl⟩ | ⟨-, hy⟩ | ⟨hx, -⟩ | ⟨rfl, rfl⟩
    · exact .inl rfl
    · exact absurd hy hdash.2
    · exact absurd hx hdash.1
    · exact .inr rfl
  rw [List.mem_pair, ← String.toList_inj, ← String.toList_inj, hab, hcd, hxy]
  exact heq

variable {G : Game} {D : Deck} {boardCards : List Card} {handRanges : List HandRange}

/-- A hand is valid exactly when it shares no card with the board or with what has been dealt. -/
theorem isValid_iff (hsplit : D.SplitsAtDash)
    (hkeys : ∀ range ∈ handRanges, ∀ x ∈ range, IsHand x.1)
    (hboard : ∀ card ∈ boardCards, IsCard card) {dealt : List Card} {i : Int} {hand : String}
    (hdealt : ∀ card ∈ dealt, IsCard card) (hoffer : D.Offers handRanges i hand) :
    IsValid boardCards dealt hand ↔
      boardCards.Disjoint (D.split hand) ∧ dealt.Disjoint (D.split hand) := by
  obtain ⟨card1, card2, h1, h2, -, rfl, hcards⟩ := split_of_offers hsplit hkeys hoffer
  refine ⟨disjoint_of_isValid fun card hcard => contains_of_cut (hcards ▸ hcard), ?_⟩
  rintro ⟨hb, hd⟩
  rw [hcards] at hb hd
  exact ⟨fun card hcard hin => hb hcard ((contains_hand_iff h1 h2 (hboard card hcard)).mp hin),
    fun card hcard hin => hd hcard ((contains_hand_iff h1 h2 (hdealt card hcard)).mp hin)⟩

/-! ### The draws -/

/-- Whatever the seats can draw is drawn with some draws, where all weights are above zero. -/
theorem exists_choice_of_draws {d : Deal} {vPositions : List Int} {xs : List (Int × String)}
    (hseats : vPositions.Nodup) (hweights : ∀ range ∈ handRanges, ∀ x ∈ range, 0 < x.2)
    (h : Draws (D.Offers handRanges) D.split (IsValid boardCards) d.dealDards
      (vPositions.filter fun i => G.Live i) xs) :
    ∃ random_choice, (∀ i, Sampler.Sound (random_choice i)) ∧
      forEach (dealSeat G (D.drawing random_choice) boardCards handRanges) d vPositions =
        .ok (D.serveAll d xs) := by
  induction vPositions generalizing d xs with
  | nil =>
      cases h
      exact ⟨fun _ => .at 0, fun _ => Sampler.at_sound 0, rfl⟩
  | cons i rest ih =>
      obtain ⟨hi, hseats⟩ := List.nodup_cons.mp hseats
      by_cases hlive : G.Live i
      · rw [List.filter_cons_of_pos (by simp [hlive])] at h
        cases h with
        | cons hoffer hvalid hrest =>
            obtain ⟨random_choice, hsound, hloop⟩ := ih (d := D.serve d i _) hseats hrest
            obtain ⟨random_choice', hsound', heq⟩ := exists_forEach_cons hi hlive hoffer
              (fun hands hread => hweights hands (mem_of_readAt hread)) hvalid hsound
            exact ⟨random_choice', hsound', heq.trans hloop⟩
      · rw [List.filter_cons_of_neg (by simp [hlive])] at h
        obtain ⟨random_choice, hsound, hloop⟩ := ih hseats h
        refine ⟨random_choice, hsound, ?_⟩
        exact (forEach_cons_of_goesOn (dealSeat_of_not_live hlive)).trans hloop

theorem serveAll_ret (D : Deck) (d : Deal) (xs : List (Int × String)) :
    (D.serveAll d xs).ret = d.ret := by
  induction xs generalizing d with
  | nil => rfl
  | cons x xs ih => exact ih (D.serve d x.1 x.2)

/-! ### The hands of a consistent deal -/

/-- The name of a hand. -/
def handOf : List Card → String
  | [card1, card2] => card1 ++ "-" ++ card2
  | _              => ""

/-- The hands of a deal, by the names that they have in the ranges. -/
def handsAt (mHands : Hands) (seats : List Int) : List (Int × String) :=
  seats.map fun i => (i, handOf ((mHands i).getD []))

theorem mem_handsAt {mHands : Hands} {seats : List Int} {i : Int} {hand : String} :
    (i, hand) ∈ handsAt mHands seats ↔ i ∈ seats ∧ hand = handOf ((mHands i).getD []) := by
  rw [handsAt, List.mem_map]
  constructor
  · rintro ⟨j, hj, heq⟩
    cases heq
    exact ⟨hj, rfl⟩
  · rintro ⟨hi, rfl⟩
    exact ⟨i, hi, rfl⟩

variable {taken : List Card} {vPositions : List Int} {mHands : Hands}

namespace Consistent

/-- A hand of the deal is offered at its seat, under its name. -/
theorem offers (hsplit : D.SplitsAtDash) {seats : Int → Prop} {i : Int}
    (h : Consistent boardCards handRanges taken seats mHands) (hi : seats i) :
    ∃ cards, mHands i = some cards ∧ D.Offers handRanges i (handOf cards) ∧
      D.split (handOf cards) = cards := by
  obtain ⟨cards, hcards⟩ := Option.isSome_iff_exists.mp ((h.seats i).mpr hi)
  obtain ⟨range, card1, card2, hrange, hmem, rfl, h1, h2, -⟩ := h.hands i cards hcards
  have hcut := hsplit card1 card2 h1.2 h2.2
  exact ⟨_, hcards, ⟨range, hrange, hmem, congrArg List.length hcut⟩, hcut⟩

/-- **A consistent deal can be drawn.** -/
theorem draws (hsplit : D.SplitsAtDash) (hkeys : ∀ range ∈ handRanges, ∀ x ∈ range, IsHand x.1)
    (hboard : ∀ card ∈ boardCards, IsCard card) (htaken : ∀ card ∈ taken, IsCard card)
    (hseats : vPositions.Nodup)
    (h : Consistent boardCards handRanges taken (fun i => i ∈ vPositions ∧ G.Live i) mHands) :
    Draws (D.Offers handRanges) D.split (IsValid boardCards) taken
      (vPositions.filter fun i => G.Live i)
      (handsAt mHands (vPositions.filter fun i => G.Live i)) := by
  have hlive : ∀ i, i ∈ vPositions.filter (fun i => G.Live i) ↔ i ∈ vPositions ∧ G.Live i :=
    fun i => by rw [List.mem_filter, decide_eq_true_iff]
  refine (draws_iff (P := IsCard) (A := fun hand => boardCards.Disjoint (D.split hand))
    (fun i hand hoffer card hcard => ?_)
    (fun dealt i hand hdealt hoffer => isValid_iff hsplit hkeys hboard hdealt hoffer) htaken).mpr
    ⟨?_, ?_, ?_⟩
  · obtain ⟨card1, card2, h1, h2, -, -, hcards⟩ := split_of_offers hsplit hkeys hoffer
    rcases List.mem_pair.mp (hcards ▸ hcard) with rfl | rfl
    · exact h1
    · exact h2
  · rw [handsAt, List.map_map]
    exact List.map_id _
  · rintro ⟨i, hand⟩ hx
    obtain ⟨hi, rfl⟩ := mem_handsAt.mp hx
    obtain ⟨cards, hcards, hoffer, hcut⟩ := h.offers hsplit ((hlive i).mp hi)
    simp only [hcards, Option.getD_some, hcut]
    exact ⟨hoffer, h.board i cards hcards, h.taken i cards hcards⟩
  · refine List.pairwise_map.mpr ((hseats.filter _).imp_of_mem fun {i j} hi hj hne => ?_)
    obtain ⟨cards, hcards, -, hcut⟩ := h.offers hsplit ((hlive i).mp hi)
    obtain ⟨cards', hcards', -, hcut'⟩ := h.offers hsplit ((hlive j).mp hj)
    simp only [hcards, hcards', Option.getD_some, hcut, hcut']
    exact h.apart i j cards cards' hne hcards hcards'

/-- The hands that are dealt under their names are those of the deal. -/
theorem serveAll_handsAt (hsplit : D.SplitsAtDash) (hseats : vPositions.Nodup)
    (h : Consistent boardCards handRanges taken (fun i => i ∈ vPositions ∧ G.Live i) mHands) :
    (D.serveAll ⟨taken, fun _ => none, none⟩
      (handsAt mHands (vPositions.filter fun i => G.Live i))).mHands = mHands := by
  have hnodup : ((handsAt mHands (vPositions.filter fun i => G.Live i)).map Prod.fst).Nodup := by
    rw [handsAt, List.map_map]
    exact (List.map_id (vPositions.filter fun i => G.Live i)).symm ▸ hseats.filter _
  funext i
  refine Option.ext fun cards => ?_
  rw [serveAll_mHands D hnodup fun _ _ => rfl, or_iff_right nofun]
  simp only [mem_handsAt, List.mem_filter, decide_eq_true_iff]
  constructor
  · rintro ⟨_, ⟨hi, rfl⟩, rfl⟩
    obtain ⟨cards, hcards, -, hcut⟩ := h.offers hsplit hi
    rw [hcards, Option.getD_some, hcut]
  · intro hcards
    have hi := (h.seats i).mp (Option.isSome_iff_exists.mpr ⟨cards, hcards⟩)
    obtain ⟨cards', hcards', -, hcut⟩ := h.offers hsplit hi
    cases hcards.symm.trans hcards'
    exact ⟨handOf cards, ⟨hi, by rw [hcards, Option.getD_some]⟩, hcut⟩

end Consistent

/-- With some draws the seats are dealt to exactly as in the consistent deals. -/
theorem dealFrom_iff (hsplit : D.SplitsAtDash)
    (hkeys : ∀ range ∈ handRanges, ∀ x ∈ range, IsHand x.1)
    (hweights : ∀ range ∈ handRanges, ∀ x ∈ range, 0 < x.2)
    (hboard : ∀ card ∈ boardCards, IsCard card) (htaken : ∀ card ∈ taken, IsCard card)
    (hseats : vPositions.Nodup) :
    (∃ random_choice, (∀ i, Sampler.Sound (random_choice i)) ∧
      ∃ ret, dealFrom G (D.drawing random_choice) boardCards handRanges vPositions
        ⟨taken, fun _ => none, none⟩ = .ok ⟨ret, some mHands⟩) ↔
      Consistent boardCards handRanges taken (fun i => i ∈ vPositions ∧ G.Live i) mHands := by
  constructor
  · rintro ⟨random_choice, -, ret, h⟩
    exact consistent_of_dealFrom (D := D.drawing random_choice) hsplit hkeys hseats h
  · intro h
    obtain ⟨random_choice, hsound, hloop⟩ :=
      exists_choice_of_draws (d := ⟨taken, fun _ => none, none⟩) hseats hweights
        (h.draws hsplit hkeys hboard htaken hseats)
    exact ⟨random_choice, hsound, _, dealFrom_reached.mpr ⟨_, hloop, serveAll_ret D _ _,
      h.serveAll_handsAt hsplit hseats, rfl⟩⟩

/-- **Every consistent deal.**  From ranges whose weights are above zero, `dealCards` comes to a
deal with some draws exactly when this is consistent, with one hand for each player who has not
folded. -/
theorem dealCards_iff (hsplit : D.SplitsAtDash)
    (hkeys : ∀ range ∈ handRanges, ∀ x ∈ range, IsHand x.1)
    (hweights : ∀ range ∈ handRanges, ∀ x ∈ range, 0 < x.2)
    (hboard : ∀ card ∈ boardCards, IsCard card) (hturn : 0 ≤ G.getTurnIndex)
    (hnum : G.getTurnIndex < G.getPlayerNum) :
    (∃ random_choice, (∀ i, Sampler.Sound (random_choice i)) ∧
      ∃ ret, dealCards G (D.drawing random_choice) boardCards handRanges =
        .ok ⟨ret, some mHands⟩) ↔
      Consistent boardCards handRanges []
        (fun i => 0 ≤ i ∧ i < G.getPlayerNum ∧ G.Live i) mHands := by
  have hseats : ∀ i, i ∈ positions G G.getTurnIndex G.getTurnIndex ∧ G.Live i ↔
      0 ≤ i ∧ i < G.getPlayerNum ∧ G.Live i :=
    fun i => by rw [mem_positions_all hturn hnum, and_assoc]
  have hnone : ∀ card ∈ ([] : List Card), IsCard card := fun _ h => absurd h List.not_mem_nil
  refine (dealFrom_iff hsplit hkeys hweights hboard hnone (nodup_positions (le_refl _))).trans ?_
  exact ⟨Consistent.congr_seats hseats, Consistent.congr_seats fun i => (hseats i).symm⟩

/-- Aces for the first player, and kings for the second. -/
def acesAndKings : Hands := fun i =>
  if i = 0 then some ["Ah", "As"] else if i = 1 then some ["Kh", "Ks"] else none

theorem dealCards_acesAndKings :
    (∃ random_choice, (∀ i, Sampler.Sound (random_choice i)) ∧
      ∃ ret, dealCards fourSeats (dashDeck.drawing random_choice) ["2d", "2c", "2s"] fourRanges =
        .ok ⟨ret, some acesAndKings⟩) ↔
      Consistent ["2d", "2c", "2s"] fourRanges []
        (fun i => 0 ≤ i ∧ i < fourSeats.getPlayerNum ∧ fourSeats.Live i) acesAndKings := by
  refine dealCards_iff dashDeck_splitsAtDash isHand_fourRanges (by decide +kernel) ?_ (by decide)
    (by decide)
  intro card hcard
  rcases List.mem_cons.mp hcard with rfl | hcard
  · decide
  · rcases List.mem_pair.mp hcard with rfl | rfl <;> decide

/-- With some draws `dealCards3` comes to a deal exactly when this is consistent with the cards of
the turn player, and has one hand for each other player who has not folded. -/
theorem dealCards3_iff (hsplit : D.SplitsAtDash)
    (hkeys : ∀ range ∈ handRanges, ∀ x ∈ range, IsHand x.1)
    (hweights : ∀ range ∈ handRanges, ∀ x ∈ range, 0 < x.2)
    (hboard : ∀ card ∈ boardCards, IsCard card) (hturn : 0 ≤ G.getTurnIndex)
    (hnum : G.getTurnIndex < G.getPlayerNum) {curPlayer : Player}
    (hcur : G.getPlayer G.getTurnIndex = some curPlayer) (hcard0 : IsCard curPlayer.hand0)
    (hcard1 : IsCard curPlayer.hand1) :
    (∃ random_choice, (∀ i, Sampler.Sound (random_choice i)) ∧
      ∃ ret, dealCards3 G (D.drawing random_choice) boardCards handRanges =
        .ok ⟨ret, some mHands⟩) ↔
      Consistent boardCards handRanges [curPlayer.hand0, curPlayer.hand1]
        (fun i => 0 ≤ i ∧ i < G.getPlayerNum ∧ i ≠ G.getTurnIndex ∧ G.Live i) mHands := by
  have hseats : ∀ i, i ∈ positions G (G.getTurnIndex + 1) G.getTurnIndex ∧ G.Live i ↔
      0 ≤ i ∧ i < G.getPlayerNum ∧ i ≠ G.getTurnIndex ∧ G.Live i :=
    fun i => by rw [mem_positions_others hturn hnum, and_assoc, and_assoc]
  have hown : ∀ card ∈ [curPlayer.hand0, curPlayer.hand1], IsCard card := by
    intro card hcard
    rcases List.mem_pair.mp hcard with rfl | rfl
    · exact hcard0
    · exact hcard1
  simp only [dealCards3, dealOthers, hcur]
  refine (dealFrom_iff hsplit hkeys hweights hboard hown (nodup_positions (by omega))).trans ?_
  exact ⟨Consistent.congr_seats hseats, Consistent.congr_seats fun i => (hseats i).symm⟩

end Holdem.Decide
