import Holdem.Decide.Choice
import Holdem.Decide.Evaluate
import Holdem.Support.Draws
import Holdem.Support.ForEach
import Mathlib.Data.Int.Range
import Mathlib.Data.List.Infix
import Mathlib.Data.List.Pairwise

/-!
# Decide — Dealing

`Evaluate::dealCards` to `dealCards4`.  One seat after another, from the turn player on, a player
who has not folded is dealt a hand of its range that has none of the cards on the board or dealt
before; the hands are given to `distributeCards5`.  A hand is tested as a string, by the names of
the cards in it.  What is drawn at a seat, the game and the cutting of a hand into its cards are
code of other repositories.

* `dealSeat_cases`: what a turn of the loop does.
* `exists_draws`: the hands of a deal are drawn one after another, from the ranges of the seats.
* `deals_consistent`: what the hands are that `dealCards` and `dealCards3` come to.
-/

namespace Holdem.Decide
open Support

/-- A player, and the `strCluster()` of its two cards. -/
structure Player where
  isFold : Bool
  hand0 : Card
  hand1 : Card

/-- The game that the cards are dealt in. -/
structure Game where
  getPlayerNum : Int
  getTurnIndex : Int
  getPlayer : Int → Option Player
  distributeCards5 : Hands → List Card → Bool

/-- `StringUtils::split` at `"-"`, and the `random_choice` of a seat. -/
structure Deck where
  split : String → List String
  random_choice : Int → Sampler

/-- `hand.find(card) != std::string::npos`. -/
def Contains (hand : String) (card : Card) : Prop := card.toList <:+: hand.toList

instance (hand : String) (card : Card) : Decidable (Contains hand card) :=
  inferInstanceAs (Decidable (_ <:+: _))

/-- The hand has none of the cards on the board, and none that has been dealt. -/
def IsValid (boardCards dealDards : List Card) (hand : String) : Prop :=
  (∀ card ∈ boardCards, ¬ Contains hand card) ∧ ∀ card ∈ dealDards, ¬ Contains hand card

instance (boardCards dealDards : List Card) : DecidablePred (IsValid boardCards dealDards) :=
  fun _ => inferInstanceAs (Decidable (_ ∧ _))

/-- `validHands`, with `validProbs`. -/
def validHands (boardCards dealDards : List Card) (hands : HandRange) : HandRange :=
  hands.filter fun x => IsValid boardCards dealDards x.1

/-- `hands.emplace(k, cards)`. -/
def Hands.emplace (hands : Hands) (k : Int) (cards : List Card) : Hands :=
  if (hands k).isSome then hands else hands.put k cards

/-- The cards dealt so far, the hands, and the code of a return from the loop. -/
structure Deal where
  dealDards : List Card
  mHands : Hands
  ret : Option Int

/-- What a call comes to: its code, and the hands that `distributeCards5` was called with. -/
structure DealResult where
  ret : Int
  distributed : Option Hands

section
variable (G : Game) (D : Deck) (boardCards : List Card) (handRanges : List HandRange)

/-- A turn of the loop over the seats. -/
def dealSeat (d : Deal) (i : Int) : Checked (Deal × Bool) :=
  match G.getPlayer i with
  | none        => .ok (d, true)
  | some player =>
    if player.isFold then .ok (d, true)
    else do
      let hands ← readAt handRanges i
      if hands = [] then .ok ({ d with ret := some (-1) }, false)
      else do
        let valid := validHands boardCards d.dealDards hands
        let idx := (D.random_choice i).pick (valid.map fun x => some x.2)
        let x ← readAt valid idx
        let cards := D.split x.1
        if cards.length ≠ 2 then .ok ({ d with ret := some (-1) }, false)
        else .ok (⟨d.dealDards ++ cards, d.mHands.emplace i cards, d.ret⟩, true)

/-- The loop, and the call of `distributeCards5`. -/
def dealFrom (vPositions : List Int) (d : Deal) : Checked DealResult := do
  let d ← forEach (dealSeat G D boardCards handRanges) d vPositions
  match d.ret with
  | some ret => .ok ⟨ret, none⟩
  | none     => .ok ⟨if G.distributeCards5 d.mHands boardCards then 0 else -2, some d.mHands⟩

/-- The seats behind the turn player, from `first` on, and those before it. -/
def positions (first turnIndex : Int) : List Int :=
  Int.range first G.getPlayerNum ++ Int.range 0 turnIndex

/-- `Evaluate::dealCards`. -/
def dealCards : Checked DealResult :=
  dealFrom G D boardCards handRanges (positions G G.getTurnIndex G.getTurnIndex)
    ⟨[], fun _ => none, none⟩

/-- `Evaluate::dealCards2`. -/
def dealCards2 (iterations turnIndex : Int) (cardPairs : List (List Card)) :
    Checked DealResult := do
  let holeCards ← readAt cardPairs (iterations.tmod 1326)
  dealFrom G D boardCards handRanges (positions G (turnIndex + 1) turnIndex)
    ⟨holeCards, Hands.emplace (fun _ => none) turnIndex holeCards, none⟩

/-- The cards of the turn player are those it has, and the others are dealt to. -/
def dealOthers : Checked DealResult :=
  match G.getPlayer G.getTurnIndex with
  | none           => .ok ⟨-1, none⟩
  | some curPlayer =>
    dealFrom G D boardCards handRanges (positions G (G.getTurnIndex + 1) G.getTurnIndex)
      ⟨[curPlayer.hand0, curPlayer.hand1], fun _ => none, none⟩

/-- `Evaluate::dealCards3`. -/
def dealCards3 : Checked DealResult := dealOthers G D boardCards handRanges

/-- `Evaluate::dealCards4`.  The body is that of `dealCards3`, and has no use for `holeCards`. -/
def dealCards4 (_holeCards : List Card) : Checked DealResult :=
  dealOthers G D boardCards handRanges

end

/-- At the seat is a player who has not folded. -/
def Game.Live (G : Game) (i : Int) : Prop := ∃ player, G.getPlayer i = some player ∧
  player.isFold = false

instance (G : Game) : DecidablePred G.Live := fun i =>
  match h : G.getPlayer i with
  | none        => isFalse fun ⟨_, hp, _⟩ => nomatch h.symm.trans hp
  | some player =>
    if hf : player.isFold = false then isTrue ⟨player, h, hf⟩
    else isFalse fun ⟨_, hp, hlive⟩ => hf (Option.some.inj (h.symm.trans hp) ▸ hlive)

/-! ### One seat -/

section
variable {G : Game} {D : Deck} {boardCards : List Card} {handRanges : List HandRange}
  {d d' : Deal} {i : Int}

theorem mem_validHands {dealDards : List Card} {hands : HandRange} {x : String × Rat} :
    x ∈ validHands boardCards dealDards hands ↔ x ∈ hands ∧ IsValid boardCards dealDards x.1 := by
  rw [validHands, List.mem_filter, decide_eq_true_iff]

theorem dealSeat_of_not_live (h : ¬ G.Live i) :
    dealSeat G D boardCards handRanges d i = .ok (d, true) := by
  rcases hp : G.getPlayer i with _ | player
  · simp only [dealSeat, hp]
  · have hfold : player.isFold = true := by
      by_contra hf
      exact h ⟨player, hp, Bool.eq_false_of_not_eq_true hf⟩
    simp only [dealSeat, hp, hfold, if_true]

theorem dealSeat_of_live (h : G.Live i) : dealSeat G D boardCards handRanges d i = (do
    let hands ← readAt handRanges i
    if hands = [] then .ok ({ d with ret := some (-1) }, false)
    else do
      let valid := validHands boardCards d.dealDards hands
      let x ← readAt valid ((D.random_choice i).pick (valid.map fun x => some x.2))
      if (D.split x.1).length ≠ 2 then .ok ({ d with ret := some (-1) }, false)
      else .ok (⟨d.dealDards ++ D.split x.1, d.mHands.emplace i (D.split x.1), d.ret⟩, true)) := by
  obtain ⟨player, hp, hlive⟩ := h
  simp only [dealSeat, hp, hlive, Bool.false_eq_true, if_false]

/-- The hand is of the range of the seat, and has two cards. -/
def Deck.Offers (D : Deck) (handRanges : List HandRange) (i : Int) (hand : String) : Prop :=
  ∃ hands, readAt handRanges i = .ok hands ∧ hand ∈ hands.map Prod.fst ∧
    (D.split hand).length = 2

/-- The hand is dealt at the seat. -/
def Deck.serve (D : Deck) (d : Deal) (i : Int) (hand : String) : Deal :=
  ⟨d.dealDards ++ D.split hand, d.mHands.emplace i (D.split hand), d.ret⟩

/-- What a turn of the loop does: nothing, where nobody is dealt to; else it returns -1, or deals a
hand of the range. -/
theorem dealSeat_cases {more : Bool}
    (h : dealSeat G D boardCards handRanges d i = .ok (d', more)) :
    (¬ G.Live i ∧ d' = d ∧ more = true) ∨
    (G.Live i ∧ d' = { d with ret := some (-1) } ∧ more = false) ∨
    (G.Live i ∧ more = true ∧ ∃ hand, D.Offers handRanges i hand ∧
      IsValid boardCards d.dealDards hand ∧ d' = D.serve d i hand) := by
  by_cases hlive : G.Live i
  · rw [dealSeat_of_live hlive] at h
    obtain ⟨hands, hrange, h⟩ := bind_eq_ok.mp h
    by_cases hempty : hands = []
    · rw [if_pos hempty] at h
      cases h
      exact .inr (.inl ⟨hlive, rfl, rfl⟩)
    · rw [if_neg hempty] at h
      obtain ⟨x, hx, h⟩ := bind_eq_ok.mp h
      obtain ⟨hmem, hvalid⟩ := mem_validHands.mp (mem_of_readAt hx)
      by_cases hcards : (D.split x.1).length = 2
      · rw [if_neg (not_not.mpr hcards)] at h
        cases h
        exact .inr (.inr ⟨hlive, rfl, x.1, ⟨hands, hrange, List.mem_map_of_mem hmem, hcards⟩,
          hvalid, rfl⟩)
      · rw [if_pos hcards] at h
        cases h
        exact .inr (.inl ⟨hlive, rfl, rfl⟩)
  · rw [dealSeat_of_not_live hlive] at h
    cases h
    exact .inl ⟨hlive, rfl, rfl⟩

/-- A weight above zero. -/
def Positive (p : Option Rat) : Bool := p.any fun x => 0 < x

/-- Nothing of weight 0 is drawn, as long as there is a weight above it. -/
def Sampler.Sound (S : Sampler) : Prop :=
  ∀ ps, ps.any Positive → ∃ p, ps[S.pick ps]? = some p ∧ Positive p

/-- The sampler that draws at the index, if there is a weight above zero, or at the first one that
has. -/
def Sampler.at (k : Nat) : Sampler where
  pick ps :=
    if ps[k]?.any Positive then k else if ps.any Positive then ps.findIdx Positive else 0
  pick_lt ps hps := by
    split
    · next h =>
        obtain ⟨p, hp, -⟩ := (Option.any_eq_true Positive _).mp h
        exact (List.getElem?_eq_some_iff.mp hp).1
    · split
      · next h => exact List.findIdx_lt_length_of_exists (List.any_eq_true.mp h)
      · exact List.length_pos_iff.mpr hps

theorem Sampler.at_sound (k : Nat) : (Sampler.at k).Sound := by
  intro ps hps
  by_cases h : ps[k]?.any Positive
  · obtain ⟨p, hp, hpos⟩ := (Option.any_eq_true Positive _).mp h
    have hpick : (Sampler.at k).pick ps = k := if_pos h
    exact ⟨p, hpick.symm ▸ hp, hpos⟩
  · have hpick : (Sampler.at k).pick ps = ps.findIdx Positive := (if_neg h).trans (if_pos hps)
    have hlt : ps.findIdx Positive < ps.length :=
      List.findIdx_lt_length_of_exists (List.any_eq_true.mp hps)
    refine ⟨ps[ps.findIdx Positive], ?_, List.findIdx_getElem⟩
    rw [hpick]
    exact List.getElem?_eq_getElem hlt

/-- The deck with other draws. -/
def Deck.drawing (D : Deck) (random_choice : Int → Sampler) : Deck := ⟨D.split, random_choice⟩

/-- A turn only asks for the draw of its seat. -/
theorem dealSeat_congr {random_choice random_choice' : Int → Sampler}
    (h : random_choice i = random_choice' i) :
    dealSeat G (D.drawing random_choice) boardCards handRanges d i =
      dealSeat G (D.drawing random_choice') boardCards handRanges d i := by
  simp only [dealSeat, Deck.drawing, h]
  rfl

/-- Any valid hand of the range may be drawn, where all of them have weights above zero. -/
theorem exists_pick {hand : String} (hlive : G.Live i) (hoffer : D.Offers handRanges i hand)
    (hweights : ∀ hands, readAt handRanges i = .ok hands → ∀ x ∈ hands, 0 < x.2)
    (hvalid : IsValid boardCards d.dealDards hand) :
    ∃ S : Sampler, S.Sound ∧ ∀ random_choice : Int → Sampler, random_choice i = S →
      dealSeat G (D.drawing random_choice) boardCards handRanges d i =
        .ok (D.serve d i hand, true) := by
  obtain ⟨hands, hrange, hmem, hcards⟩ := hoffer
  obtain ⟨x, hx, rfl⟩ := List.mem_map.mp hmem
  have hx' : x ∈ validHands boardCards d.dealDards hands := mem_validHands.mpr ⟨hx, hvalid⟩
  obtain ⟨k, hk, hget⟩ := List.getElem_of_mem hx'
  refine ⟨.at k, Sampler.at_sound k, fun random_choice hS => ?_⟩
  have hpick : (random_choice i).pick
      ((validHands boardCards d.dealDards hands).map fun x => some x.2) = k := by
    rw [hS]
    refine if_pos ?_
    rw [List.getElem?_map, List.getElem?_eq_getElem hk, hget]
    exact decide_eq_true (hweights hands hrange x hx)
  have hread : readAt (validHands boardCards d.dealDards hands) (k : Int) = .ok x :=
    readAt_eq_ok.mpr ⟨Int.natCast_nonneg k, List.getElem?_eq_some_iff.mpr ⟨hk, hget⟩⟩
  rw [dealSeat_of_live hlive, hrange, ok_bind, if_neg (List.ne_nil_of_mem hx)]
  simp only [Deck.drawing, hpick, hread, ok_bind, hcards, ne_eq, not_true_eq_false, if_false]
  rfl

end

/-! ### The loop -/

section
variable {G : Game} {D : Deck} {boardCards : List Card} {handRanges : List HandRange}
  {d d' : Deal} {vPositions : List Int}

/-- The hands are dealt, in this order. -/
def Deck.serveAll (D : Deck) : Deal → List (Int × String) → Deal
  | d, []      => d
  | d, x :: xs => D.serveAll (D.serve d x.1 x.2) xs

/-- **The hands are drawn.**  Where the loop does not return, it deals hands that the seats draw
from their ranges. -/
theorem exists_draws (hd : d.ret = none)
    (h : forEach (dealSeat G D boardCards handRanges) d vPositions = .ok d')
    (hret : d'.ret = none) :
    ∃ xs, Draws (D.Offers handRanges) D.split (IsValid boardCards) d.dealDards
      (vPositions.filter fun i => G.Live i) xs ∧ d' = D.serveAll d xs := by
  induction vPositions generalizing d with
  | nil =>
      cases h
      exact ⟨[], .nil _, rfl⟩
  | cons i rest ih =>
      rcases hturn : dealSeat G D boardCards handRanges d i with e | ⟨d₁, more⟩
      · simp only [forEach, hturn] at h
        cases h
      · rcases dealSeat_cases hturn with ⟨hlive, rfl, rfl⟩ | ⟨-, rfl, rfl⟩ |
          ⟨hlive, rfl, hand, hoffer, hvalid, rfl⟩
        · simp only [forEach, hturn] at h
          rw [List.filter_cons_of_neg (by simp [hlive])]
          exact ih hd h
        · simp only [forEach, hturn] at h
          cases h
          cases hret
        · simp only [forEach, hturn] at h
          rw [List.filter_cons_of_pos (by simp [hlive])]
          obtain ⟨xs, hdraws, rfl⟩ := ih (d := D.serve d i hand) hd h
          exact ⟨(i, hand) :: xs, .cons hoffer hvalid hdraws, rfl⟩

theorem dealOthers_reached {ret : Int} {mHands : Hands}
    (h : dealOthers G D boardCards handRanges = .ok ⟨ret, some mHands⟩) :
    ∃ curPlayer, G.getPlayer G.getTurnIndex = some curPlayer ∧
      dealFrom G D boardCards handRanges (positions G (G.getTurnIndex + 1) G.getTurnIndex)
        ⟨[curPlayer.hand0, curPlayer.hand1], fun _ => none, none⟩ = .ok ⟨ret, some mHands⟩ := by
  rcases hcur : G.getPlayer G.getTurnIndex with _ | curPlayer
  · simp only [dealOthers, hcur] at h
    cases h
  · simp only [dealOthers, hcur] at h
    exact ⟨curPlayer, rfl, h⟩

theorem dealFrom_reached {ret : Int} {mHands : Hands} :
    dealFrom G D boardCards handRanges vPositions d = .ok ⟨ret, some mHands⟩ ↔
      ∃ d', forEach (dealSeat G D boardCards handRanges) d vPositions = .ok d' ∧ d'.ret = none ∧
        d'.mHands = mHands ∧ (if G.distributeCards5 d'.mHands boardCards then 0 else -2) = ret := by
  rw [dealFrom, bind_eq_ok]
  refine exists_congr fun d' => and_congr_right fun _ => ?_
  rcases hret : d'.ret with _ | code
  · simp only [Except.ok.injEq, DealResult.mk.injEq, Option.some.injEq, true_and]
    exact and_comm
  · simp only [Except.ok.injEq, DealResult.mk.injEq, reduceCtorEq, and_false, false_and]

/-- The first seat may draw any valid hand, while those behind it draw as they do. -/
theorem exists_forEach_cons {i : Int} {hand : String} (hi : i ∉ vPositions) (hlive : G.Live i)
    (hoffer : D.Offers handRanges i hand)
    (hweights : ∀ hands, readAt handRanges i = .ok hands → ∀ x ∈ hands, 0 < x.2)
    (hvalid : IsValid boardCards d.dealDards hand) {random_choice : Int → Sampler}
    (hsound : ∀ j, (random_choice j).Sound) :
    ∃ random_choice', (∀ j, Sampler.Sound (random_choice' j)) ∧
      forEach (dealSeat G (D.drawing random_choice') boardCards handRanges) d (i :: vPositions) =
      forEach (dealSeat G (D.drawing random_choice) boardCards handRanges) (D.serve d i hand)
        vPositions := by
  obtain ⟨S, hS₀, hS⟩ := exists_pick (D := D) hlive hoffer hweights hvalid
  refine ⟨Function.update random_choice i S, fun j => ?_, ?_⟩
  · by_cases hj : j = i
    · rw [hj, Function.update_self]
      exact hS₀
    · rw [Function.update_of_ne hj]
      exact hsound j
  rw [forEach_cons_of_goesOn (hS _ (Function.update_self ..))]
  refine forEach_congr (fun d j hj => dealSeat_congr (Function.update_of_ne ?_ _ _)) _
  rintro rfl
  exact hi hj

end

/-! ### The hands of a deal -/

theorem emplace_of_none {hands : Hands} {k : Int} (h : hands k = none) (cards : List Card) :
    hands.emplace k cards = hands.put k cards := by
  rw [Hands.emplace, h]
  rfl

theorem put_eq_some {hands : Hands} {k i : Int} {cards cards' : List Card} (h : hands k = none) :
    hands.put k cards i = some cards' ↔ i = k ∧ cards = cards' ∨ hands i = some cards' := by
  by_cases hi : i = k
  · cases hi
    rw [Hands.put_self, h, Option.some.injEq]
    simp only [true_and, reduceCtorEq, or_false]
  · rw [Hands.put_of_ne _ _ hi]
    simp only [hi, false_and, false_or]

/-- The hands that there are after a deal. -/
theorem serveAll_mHands (D : Deck) {d : Deal} {xs : List (Int × String)}
    (hseats : (xs.map Prod.fst).Nodup) (hnew : ∀ x ∈ xs, d.mHands x.1 = none) (i : Int)
    (cards : List Card) :
    (D.serveAll d xs).mHands i = some cards ↔
      d.mHands i = some cards ∨ ∃ hand, (i, hand) ∈ xs ∧ D.split hand = cards := by
  induction xs generalizing d with
  | nil => simp [Deck.serveAll]
  | cons x xs ih =>
      obtain ⟨hx, hseats⟩ := List.nodup_cons.mp hseats
      obtain ⟨hnone, hnew⟩ := List.forall_mem_cons.mp hnew
      have hserve : (D.serve d x.1 x.2).mHands = d.mHands.put x.1 (D.split x.2) :=
        emplace_of_none hnone _
      have hrest : ∀ y ∈ xs, (D.serve d x.1 x.2).mHands y.1 = none := by
        intro y hy
        have hne : y.1 ≠ x.1 := fun heq => hx (heq ▸ List.mem_map_of_mem hy)
        rw [hserve, Hands.put_of_ne _ _ hne]
        exact hnew y hy
      rw [Deck.serveAll, ih hseats hrest, hserve, put_eq_some hnone]
      constructor
      · rintro ((⟨rfl, rfl⟩ | h) | ⟨hand, hmem, hcards⟩)
        · exact .inr ⟨x.2, List.mem_cons_self, rfl⟩
        · exact .inl h
        · exact .inr ⟨hand, List.mem_cons_of_mem _ hmem, hcards⟩
      · rintro (h | ⟨hand, hmem, hcards⟩)
        · exact .inl (.inr h)
        · rcases List.mem_cons.mp hmem with rfl | hmem
          · exact .inl (.inl ⟨rfl, hcards⟩)
          · exact .inr ⟨hand, hmem, hcards⟩

/-- A card has two letters, and none of them is a dash. -/
def IsCard (card : Card) : Prop := card.toList.length = 2 ∧ '-' ∉ card.toList

instance : DecidablePred IsCard := fun _ => inferInstanceAs (Decidable (_ ∧ _))

/-- The hand is written as two different cards with a dash between them. -/
def IsHand (hand : String) : Prop :=
  ∃ card1 card2, IsCard card1 ∧ IsCard card2 ∧ card1 ≠ card2 ∧ hand = card1 ++ "-" ++ card2

/-- A hand is cut at the dash. -/
def Deck.SplitsAtDash (D : Deck) : Prop :=
  ∀ card1 card2 : Card, '-' ∉ card1.toList → '-' ∉ card2.toList →
    D.split (card1 ++ "-" ++ card2) = [card1, card2]

/-- What a deal is to be: one hand for each of the seats, of its range, with no card twice, and none
that is on the board or taken. -/
structure Consistent (boardCards : List Card) (handRanges : List HandRange) (taken : List Card)
    (seats : Int → Prop) (mHands : Hands) : Prop where
  seats : ∀ i, (mHands i).isSome ↔ seats i
  hands : ∀ i cards, mHands i = some cards → ∃ range card1 card2,
    readAt handRanges i = .ok range ∧ card1 ++ "-" ++ card2 ∈ range.map Prod.fst ∧
      cards = [card1, card2] ∧ IsCard card1 ∧ IsCard card2 ∧ card1 ≠ card2
  apart : ∀ i j cards cards', i ≠ j → mHands i = some cards → mHands j = some cards' →
    cards.Disjoint cards'
  board : ∀ i cards, mHands i = some cards → boardCards.Disjoint cards
  taken : ∀ i cards, mHands i = some cards → taken.Disjoint cards

section
variable {D : Deck} {boardCards taken : List Card} {handRanges : List HandRange}

/-- A valid hand shares no card with the board or with what has been dealt. -/
theorem disjoint_of_isValid {hand : String} (hcut : ∀ card ∈ D.split hand, Contains hand card)
    (h : IsValid boardCards taken hand) :
    boardCards.Disjoint (D.split hand) ∧ taken.Disjoint (D.split hand) :=
  ⟨fun _ hboard hcard => h.1 _ hboard (hcut _ hcard),
    fun _ htaken hcard => h.2 _ htaken (hcut _ hcard)⟩

theorem contains_of_cut {card1 card2 card : Card} (h : card ∈ [card1, card2]) :
    Contains (card1 ++ "-" ++ card2) card := by
  rw [Contains, String.toList_append, String.toList_append]
  rcases List.mem_pair.mp h with rfl | rfl
  · exact ⟨[], _, by rw [List.nil_append, List.append_assoc]⟩
  · exact ⟨_, [], by rw [List.append_nil]⟩

/-- What a seat is offered of a range of hands in this form. -/
theorem split_of_offers (hsplit : D.SplitsAtDash)
    (hkeys : ∀ range ∈ handRanges, ∀ x ∈ range, IsHand x.1) {i : Int} {hand : String}
    (h : D.Offers handRanges i hand) : ∃ card1 card2, IsCard card1 ∧ IsCard card2 ∧
      card1 ≠ card2 ∧ hand = card1 ++ "-" ++ card2 ∧ D.split hand = [card1, card2] := by
  obtain ⟨range, hrange, hmem, -⟩ := h
  obtain ⟨x, hx, rfl⟩ := List.mem_map.mp hmem
  obtain ⟨card1, card2, h1, h2, hne, heq⟩ := hkeys range (mem_of_readAt hrange) x hx
  exact ⟨card1, card2, h1, h2, hne, heq, heq ▸ hsplit card1 card2 h1.2 h2.2⟩

variable {G : Game} {vPositions : List Int}

/-- **Hands drawn one after another are consistent.** -/
theorem consistent_of_draws (hsplit : D.SplitsAtDash)
    (hkeys : ∀ range ∈ handRanges, ∀ x ∈ range, IsHand x.1) (hseats : vPositions.Nodup)
    {xs : List (Int × String)}
    (h : Draws (D.Offers handRanges) D.split (IsValid boardCards) taken
      (vPositions.filter fun i => G.Live i) xs) :
    Consistent boardCards handRanges taken (fun i => i ∈ vPositions ∧ G.Live i)
      (D.serveAll ⟨taken, fun _ => none, none⟩ xs).mHands := by
  have hnodup : (xs.map Prod.fst).Nodup := h.drawers ▸ hseats.filter _
  have hget : ∀ i cards, (D.serveAll ⟨taken, fun _ => none, none⟩ xs).mHands i = some cards ↔
      ∃ hand, (i, hand) ∈ xs ∧ D.split hand = cards := by
    intro i cards
    rw [serveAll_mHands D hnodup fun _ _ => rfl]
    exact or_iff_right nofun
  have hcut : ∀ i hand, D.Offers handRanges i hand → ∀ card ∈ D.split hand,
      Contains hand card := by
    intro i hand hoffer card hcard
    obtain ⟨card1, card2, -, -, -, rfl, hcards⟩ := split_of_offers hsplit hkeys hoffer
    exact contains_of_cut (hcards ▸ hcard)
  obtain ⟨hnew, hapart⟩ := h.disjoint fun dealt i hand hoffer hvalid =>
    (disjoint_of_isValid (hcut i hand hoffer) hvalid).2
  have hboard : ∀ x ∈ xs, IsValid boardCards taken x.2 := h.fitted fun dealt new hand hvalid =>
    ⟨hvalid.1, fun card hcard => hvalid.2 card (List.mem_append_left _ hcard)⟩
  constructor
  case seats =>
    intro i
    rw [Option.isSome_iff_exists]
    simp only [hget]
    have hmem : i ∈ xs.map Prod.fst ↔ i ∈ vPositions ∧ G.Live i := by
      rw [h.drawers, List.mem_filter, decide_eq_true_iff]
    rw [← hmem, List.mem_map]
    constructor
    · rintro ⟨_, hand, hx, -⟩
      exact ⟨(i, hand), hx, rfl⟩
    · rintro ⟨⟨_, hand⟩, hx, rfl⟩
      exact ⟨_, hand, hx, rfl⟩
  case hands =>
    intro i cards hi
    obtain ⟨hand, hx, rfl⟩ := (hget i cards).mp hi
    have hoffer := h.offered _ hx
    obtain ⟨card1, card2, h1, h2, hne, rfl, hcards⟩ := split_of_offers hsplit hkeys hoffer
    obtain ⟨range, hrange, hmem, -⟩ := hoffer
    exact ⟨range, card1, card2, hrange, hmem, hcards, h1, h2, hne⟩
  case apart =>
    intro i j cards cards' hne hi hj
    obtain ⟨hand, hx, rfl⟩ := (hget i cards).mp hi
    obtain ⟨hand', hy, rfl⟩ := (hget j cards').mp hj
    have : Std.Symm fun x y : Int × String => (D.split x.2).Disjoint (D.split y.2) :=
      ⟨fun _ _ h => h.symm⟩
    exact hapart.forall hx hy fun heq => hne (congrArg Prod.fst heq)
  case board =>
    intro i cards hi
    obtain ⟨hand, hx, rfl⟩ := (hget i cards).mp hi
    exact (disjoint_of_isValid (hcut i hand (h.offered _ hx)) (hboard _ hx)).1
  case taken =>
    intro i cards hi
    obtain ⟨hand, hx, rfl⟩ := (hget i cards).mp hi
    exact hnew _ hx

theorem consistent_of_dealFrom (hsplit : D.SplitsAtDash)
    (hkeys : ∀ range ∈ handRanges, ∀ x ∈ range, IsHand x.1) (hseats : vPositions.Nodup)
    {ret : Int} {mHands : Hands}
    (h : dealFrom G D boardCards handRanges vPositions ⟨taken, fun _ => none, none⟩ =
      .ok ⟨ret, some mHands⟩) :
    Consistent boardCards handRanges taken (fun i => i ∈ vPositions ∧ G.Live i) mHands := by
  obtain ⟨d', hloop, hret, rfl, -⟩ := dealFrom_reached.mp h
  obtain ⟨xs, hdraws, rfl⟩ := exists_draws rfl hloop hret
  exact consistent_of_draws hsplit hkeys hseats hdraws

end

/-! ### The seats -/

theorem nodup_range (a b : Int) : (Int.range a b).Nodup := by
  rw [Int.range]
  refine List.Nodup.map ?_ List.nodup_range
  intro x y h
  exact Int.ofNat_inj.mp (Int.add_left_cancel h)

theorem mem_positions {G : Game} {first turnIndex i : Int} :
    i ∈ positions G first turnIndex ↔
      first ≤ i ∧ i < G.getPlayerNum ∨ 0 ≤ i ∧ i < turnIndex := by
  rw [positions, List.mem_append, Int.mem_range_iff, Int.mem_range_iff]

/-- From the turn player on, all seats are gone to. -/
theorem mem_positions_all {G : Game} (hturn : 0 ≤ G.getTurnIndex)
    (hnum : G.getTurnIndex < G.getPlayerNum) {i : Int} :
    i ∈ positions G G.getTurnIndex G.getTurnIndex ↔ 0 ≤ i ∧ i < G.getPlayerNum := by
  rw [mem_positions]
  omega

/-- From the one behind it on, all but the turn player's. -/
theorem mem_positions_others {G : Game} (hturn : 0 ≤ G.getTurnIndex)
    (hnum : G.getTurnIndex < G.getPlayerNum) {i : Int} :
    i ∈ positions G (G.getTurnIndex + 1) G.getTurnIndex ↔
      0 ≤ i ∧ i < G.getPlayerNum ∧ i ≠ G.getTurnIndex := by
  rw [mem_positions]
  omega

/-- No seat is gone to twice. -/
theorem nodup_positions {G : Game} {first turnIndex : Int} (h : turnIndex ≤ first) :
    (positions G first turnIndex).Nodup := by
  refine List.nodup_append'.mpr ⟨nodup_range _ _, nodup_range _ _, fun i hbehind hbefore => ?_⟩
  have hfirst := (Int.mem_range_iff.mp hbehind).1
  have hlt := (Int.mem_range_iff.mp hbefore).2
  omega

theorem Consistent.congr_seats {boardCards taken : List Card} {handRanges : List HandRange}
    {seats seats' : Int → Prop} {mHands : Hands} (hseats : ∀ i, seats i ↔ seats' i)
    (h : Consistent boardCards handRanges taken seats mHands) :
    Consistent boardCards handRanges taken seats' mHands :=
  { h with seats := fun i => (h.seats i).trans (hseats i) }

/-! ### The deals -/

/-- **Consistent deals.**  The hands that `dealCards` gives to the game are consistent, one for each
player who has not folded; so are those of `dealCards3`, one for each but the turn player, and they
have none of its own two cards. -/
theorem deals_consistent {G : Game} {D : Deck} (boardCards : List Card)
    (handRanges : List HandRange) (hsplit : D.SplitsAtDash)
    (hkeys : ∀ range ∈ handRanges, ∀ x ∈ range, IsHand x.1) (hturn : 0 ≤ G.getTurnIndex)
    (hnum : G.getTurnIndex < G.getPlayerNum) :
    (∀ ret mHands, dealCards G D boardCards handRanges = .ok ⟨ret, some mHands⟩ →
      Consistent boardCards handRanges []
        (fun i => 0 ≤ i ∧ i < G.getPlayerNum ∧ G.Live i) mHands) ∧
    ∀ ret mHands, dealCards3 G D boardCards handRanges = .ok ⟨ret, some mHands⟩ →
      ∃ curPlayer, G.getPlayer G.getTurnIndex = some curPlayer ∧
        Consistent boardCards handRanges [curPlayer.hand0, curPlayer.hand1]
          (fun i => 0 ≤ i ∧ i < G.getPlayerNum ∧ i ≠ G.getTurnIndex ∧ G.Live i) mHands := by
  refine ⟨fun ret mHands h => ?_, fun ret mHands h => ?_⟩
  · refine (consistent_of_dealFrom hsplit hkeys (nodup_positions (le_refl _)) h).congr_seats
      fun i => ?_
    rw [mem_positions_all hturn hnum, and_assoc]
  · obtain ⟨curPlayer, hcur, h⟩ := dealOthers_reached h
    refine ⟨curPlayer, hcur, (consistent_of_dealFrom hsplit hkeys
      (nodup_positions (by omega)) h).congr_seats fun i => ?_⟩
    rw [mem_positions_others hturn hnum, and_assoc, and_assoc]

/-- Hands are cut at every dash, and the first valid one is dealt. -/
def dashDeck : Deck := ⟨fun s => (s.toList.splitOn '-').map String.ofList, fun _ => .first⟩

theorem dashDeck_splitsAtDash : dashDeck.SplitsAtDash := by
  intro card1 card2 h1 h2
  have hlist : (card1 ++ "-" ++ card2).toList = card1.toList ++ '-' :: card2.toList := by
    rw [String.toList_append, String.toList_append, List.append_assoc]
    rfl
  simp only [dashDeck, hlist, List.splitOn_append_cons_self_of_not_mem h1,
    List.splitOn_eq_singleton h2, List.map_cons, List.map_nil, String.ofList_toList]

/-- Four seats, of which the third has folded and the last is empty. -/
def fourSeats : Game where
  getPlayerNum := 4
  getTurnIndex := 1
  getPlayer i :=
    if i = 0 then some ⟨false, "Kd", "Kc"⟩
    else if i = 1 then some ⟨false, "Ks", "Ac"⟩
    else if i = 2 then some ⟨true, "Kd", "Kc"⟩
    else none
  distributeCards5 _ _ := true

/-- Every seat has aces, or kings of which the turn player has one. -/
def fourRanges : List HandRange :=
  List.replicate 4 [("Ah-As", 1 / 2), ("Kh-Ks", 1 / 4), ("Kh-Ad", 1 / 4)]

theorem exists_distributed {x : Checked DealResult}
    (h : (do
      let r ← x
      .ok (r.ret, r.distributed.isSome)) = (.ok (0, true) : Checked (Int × Bool))) :
    ∃ mHands, x = .ok ⟨0, some mHands⟩ := by
  obtain ⟨⟨ret, hands⟩, rfl, h⟩ := bind_eq_ok.mp h
  obtain ⟨rfl, hsome⟩ := Prod.mk.inj (Except.ok.inj h)
  obtain ⟨mHands, rfl⟩ := Option.isSome_iff_exists.mp hsome
  exact ⟨mHands, rfl⟩

theorem isHand_fourRanges : ∀ range ∈ fourRanges, ∀ x ∈ range, IsHand x.1 := by
  intro range hrange x hx
  rw [List.eq_of_mem_replicate hrange] at hx
  rcases List.mem_cons.mp hx with rfl | hx
  · exact ⟨"Ah", "As", by decide +kernel⟩
  · rcases List.mem_pair.mp hx with rfl | rfl
    · exact ⟨"Kh", "Ks", by decide +kernel⟩
    · exact ⟨"Kh", "Ad", by decide +kernel⟩

theorem consistent_fourSeats :
    (∃ mHands, dealCards fourSeats dashDeck ["2d", "2c", "2s"] fourRanges = .ok ⟨0, some mHands⟩ ∧
      Consistent ["2d", "2c", "2s"] fourRanges []
        (fun i => 0 ≤ i ∧ i < 4 ∧ fourSeats.Live i) mHands) ∧
    ∃ mHands, dealCards3 fourSeats dashDeck ["2d", "2c", "2s"] fourRanges =
        .ok ⟨0, some mHands⟩ ∧
      Consistent ["2d", "2c", "2s"] fourRanges ["Ks", "Ac"]
        (fun i => 0 ≤ i ∧ i < 4 ∧ i ≠ 1 ∧ fourSeats.Live i) mHands := by
  obtain ⟨mHands, h⟩ := exists_distributed
    (x := dealCards fourSeats dashDeck ["2d", "2c", "2s"] fourRanges) (by decide +kernel)
  obtain ⟨mHands₃, h₃⟩ := exists_distributed
    (x := dealCards3 fourSeats dashDeck ["2d", "2c", "2s"] fourRanges) (by decide +kernel)
  obtain ⟨hall, hothers⟩ := deals_consistent (G := fourSeats) ["2d", "2c", "2s"] fourRanges
    dashDeck_splitsAtDash isHand_fourRanges (by decide) (by decide)
  obtain ⟨curPlayer, hcur, hcons⟩ := hothers 0 mHands₃ h₃
  cases hcur
  exact ⟨⟨mHands, h, hall 0 mHands h⟩, mHands₃, h₃, hcons⟩

end Holdem.Decide
