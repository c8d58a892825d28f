import Holdem.Decide.Dealing
import Holdem.Decide.Tables

/-!
# Decide — Own hand

The hand that `dealCards2` and `dealCards4` are to deal to the turn player.  `dealCards2` takes it
from a table of pairs, by the number of the iteration, and never looks at the board; `dealCards4` is
given it, and deals as `dealCards3` does, without it.

* `dealt_others`: no other player is dealt a card that was dealt before the loop.
* `ownHandDealt_iff`: exactly when the hand is dealt, and possible.
-/

namespace Holdem.Decide
open Support

/-- The pieces of a hand are in it. -/
def Deck.Cuts (D : Deck) : Prop := ∀ hand card, card ∈ D.split hand → Contains hand card

/-- The call comes to `distributeCards5`. -/
def Distributes (x : Checked DealResult) : Prop := ∃ ret mHands, x = .ok ⟨ret, some mHands⟩

/-- The hand is the one that the turn player has in the deal, and is possible there. -/
structure Designated (boardCards : List Card) (turnIndex : Int) (holeCards : List Card)
    (mHands : Hands) : Prop where
  board : boardCards.Disjoint holeCards
  others : ∀ i cards, i ≠ turnIndex → mHands i = some cards → holeCards.Disjoint cards
  own : mHands turnIndex = some holeCards

/-- There is a hand chosen, and whenever the call comes to `distributeCards5`, this is the one that
the turn player has in the deal, and is possible there. -/
def OwnHandDealt (boardCards : List Card) (turnIndex : Int) (chosen : Checked (List Card))
    (x : Checked DealResult) : Prop :=
  ∃ holeCards, chosen = .ok holeCards ∧
    ∀ ret mHands, x = .ok ⟨ret, some mHands⟩ → Designated boardCards turnIndex holeCards mHands

variable {G : Game} {D : Deck} {boardCards : List Card} {handRanges : List HandRange}

/-! ### Dealing to the others -/

theorem turnIndex_notMem_positions (turnIndex : Int) :
    turnIndex ∉ positions G (turnIndex + 1) turnIndex := by
  rw [mem_positions]
  omega

/-- The hands dealt to the others leave that of the turn player as it is, and have none of the cards
dealt before. -/
theorem dealt_others (hcuts : D.Cuts) {turnIndex ret : Int} {d : Deal} {mHands : Hands}
    (hret : d.ret = none) (hd : ∀ i, i ≠ turnIndex → d.mHands i = none)
    (h : dealFrom G D boardCards handRanges (positions G (turnIndex + 1) turnIndex) d =
      .ok ⟨ret, some mHands⟩) :
    mHands turnIndex = d.mHands turnIndex ∧
      ∀ i cards, i ≠ turnIndex → mHands i = some cards → d.dealDards.Disjoint cards := by
  obtain ⟨d', hloop, hret', rfl, -⟩ := dealFrom_reached.mp h
  obtain ⟨xs, hdraws, rfl⟩ := exists_draws hret hloop hret'
  have hseats : (xs.map Prod.fst).Nodup :=
    hdraws.drawers ▸ (nodup_positions (by omega)).filter _
  have hother : ∀ x ∈ xs, x.1 ≠ turnIndex := by
    intro x hx heq
    have hmem : x.1 ∈ xs.map Prod.fst := List.mem_map_of_mem hx
    rw [hdraws.drawers, heq] at hmem
    exact turnIndex_notMem_positions turnIndex (List.mem_of_mem_filter hmem)
  have hget := serveAll_mHands D hseats fun x hx => hd x.1 (hother x hx)
  obtain ⟨hnew, -⟩ := hdraws.disjoint fun dealt i hand _ hvalid =>
    (disjoint_of_isValid (hcuts hand) hvalid).2
  constructor
  · refine Option.ext fun cards => ?_
    rw [hget]
    refine or_iff_left ?_
    rintro ⟨hand, hx, -⟩
    exact hother _ hx rfl
  · intro i cards hne hi
    rcases (hget i cards).mp hi with hbefore | ⟨hand, hx, rfl⟩
    · exact nomatch (hd i hne).symm.trans hbefore
    · exact hnew _ hx

/-- The pair of `dealCards2` is dealt, and shares no card with another hand. -/
theorem designated_dealCards2 (hcuts : D.Cuts) {iterations turnIndex : Int}
    {cardPairs : List (List Card)} {holeCards : List Card}
    (hchosen : readAt cardPairs (iterations.tmod 1326) = .ok holeCards) {ret : Int}
    {mHands : Hands}
    (h : dealCards2 G D boardCards handRanges iterations turnIndex cardPairs =
      .ok ⟨ret, some mHands⟩) :
    Designated boardCards turnIndex holeCards mHands ↔ boardCards.Disjoint holeCards := by
  rw [dealCards2, hchosen, ok_bind] at h
  have hput : Hands.emplace (fun _ => none) turnIndex holeCards =
      Hands.put (fun _ => none) turnIndex holeCards := emplace_of_none rfl _
  rw [hput] at h
  obtain ⟨hown, hothers⟩ := dealt_others hcuts rfl
    (fun i hne => Hands.put_of_ne (fun _ => none) holeCards hne) h
  exact ⟨Designated.board, fun hboard =>
    ⟨hboard, hothers, hown.trans (Hands.put_self (fun _ => none) turnIndex holeCards)⟩⟩

/-- `dealCards4` deals nothing to the turn player. -/
theorem dealCards4_own (hcuts : D.Cuts) {holeCards : List Card} {ret : Int} {mHands : Hands}
    (h : dealCards4 G D boardCards handRanges holeCards = .ok ⟨ret, some mHands⟩) :
    mHands G.getTurnIndex = none := by
  obtain ⟨curPlayer, -, h⟩ := dealOthers_reached h
  exact (dealt_others hcuts rfl (fun _ _ => rfl) h).1

/-! ### The hand of the turn player -/

theorem ownHandDealt_dealCards2 (hcuts : D.Cuts) {iterations turnIndex : Int}
    {cardPairs : List (List Card)} (hiter : 0 ≤ iterations) :
    OwnHandDealt boardCards turnIndex (readAt cardPairs (iterations.tmod 1326))
        (dealCards2 G D boardCards handRanges iterations turnIndex cardPairs) ↔
      iterations.tmod 1326 < cardPairs.length ∧
        (Distributes (dealCards2 G D boardCards handRanges iterations turnIndex cardPairs) →
          ∀ holeCards, readAt cardPairs (iterations.tmod 1326) = .ok holeCards →
            boardCards.Disjoint holeCards) := by
  constructor
  · rintro ⟨holeCards, hchosen, hdeal⟩
    refine ⟨(bounds_of_readAt hchosen).2, ?_⟩
    rintro ⟨ret, mHands, h⟩ holeCards' hchosen'
    cases hchosen.symm.trans hchosen'
    exact (hdeal ret mHands h).board
  · rintro ⟨hlt, hboard⟩
    obtain ⟨holeCards, hchosen⟩ := readAt_of_bounds ⟨Int.tmod_nonneg _ hiter, hlt⟩
    refine ⟨holeCards, hchosen, fun ret mHands h => ?_⟩
    exact (designated_dealCards2 hcuts hchosen h).mpr (hboard ⟨ret, mHands, h⟩ _ hchosen)

theorem ownHandDealt_dealCards4 (hcuts : D.Cuts) (holeCards : List Card) :
    OwnHandDealt boardCards G.getTurnIndex (.ok holeCards)
        (dealCards4 G D boardCards handRanges holeCards) ↔
      ¬ Distributes (dealCards4 G D boardCards handRanges holeCards) := by
  constructor
  · rintro ⟨_, hchosen, hdeal⟩ ⟨ret, mHands, h⟩
    have hown := (hdeal ret mHands h).own
    rw [dealCards4_own hcuts h] at hown
    cases hown
  · intro hno
    exact ⟨holeCards, rfl, fun ret mHands h => absurd ⟨ret, mHands, h⟩ hno⟩

/-- **Exactly when the own hand is dealt.**  With the pairs that there are after `init()`, and where
there is no pair for the iteration or `distributeCards5` is come to, `dealCards2` deals a possible
hand to the turn player exactly when the iteration is, modulo 1326, one of the first 28, and the
pair shares no card with the board; `dealCards4` never does. -/
theorem ownHandDealt_iff {N : CardNames} {t : Tables} (hinit : Tables.init N .fresh = .ok t)
    (hcuts : D.Cuts) :
    (∀ iterations turnIndex, 0 ≤ iterations →
      28 ≤ iterations.tmod 1326 ∨
        Distributes (dealCards2 G D boardCards handRanges iterations turnIndex t.cloneHandPairs) →
      (OwnHandDealt boardCards turnIndex (readAt t.cloneHandPairs (iterations.tmod 1326))
          (dealCards2 G D boardCards handRanges iterations turnIndex t.cloneHandPairs) ↔
        iterations.tmod 1326 < 28 ∧
          ∀ holeCards, readAt t.cloneHandPairs (iterations.tmod 1326) = .ok holeCards →
            boardCards.Disjoint holeCards)) ∧
    ∀ holeCards, Distributes (dealCards4 G D boardCards handRanges holeCards) →
      ¬ OwnHandDealt boardCards G.getTurnIndex (.ok holeCards)
        (dealCards4 G D boardCards handRanges holeCards) := by
  constructor
  · intro iterations turnIndex hiter hscope
    rw [ownHandDealt_dealCards2 hcuts hiter, Tables.cloneHandPairs,
      Tables.length_vPairs_init hinit]
    refine and_congr_right fun hlt => ⟨fun h => h (hscope.resolve_left ?_), fun h _ => h⟩
    exact not_le.mpr hlt
  · intro holeCards hdeal hown
    exact (ownHandDealt_dealCards4 hcuts holeCards).mp hown hdeal

theorem infix_intercalate {α : Type} {sep l : List α} {ls : List (List α)} (h : l ∈ ls) :
    l <:+: sep.intercalate ls := by
  induction ls with
  | nil => exact nomatch h
  | cons l' ls ih =>
      by_cases hls : ls = []
      · subst hls
        rw [List.mem_singleton.mp h, List.intercalate_singleton]
      · rw [List.intercalate_cons_of_ne_nil hls]
        rcases List.mem_cons.mp h with rfl | h
        · rw [List.append_assoc]
          exact (List.prefix_append _ _).isInfix
        · exact (ih h).trans (List.suffix_append _ _).isInfix

theorem dashDeck_cuts : dashDeck.Cuts := by
  intro hand card hcard
  obtain ⟨l, hl, rfl⟩ := List.mem_map.mp hcard
  have hinfix : l <:+: ['-'].intercalate (hand.toList.splitOn '-') := infix_intercalate hl
  rwa [List.intercalate_splitOn, ← String.toList_ofList (l := l)] at hinfix

/-- The letters of the faces. -/
def faceLetters : List String := ["2", "3", "4", "5", "6", "7", "8", "9", "T", "J", "Q", "K", "A"]

/-- The letters of the suits. -/
def suitLetters : List String := ["s", "h", "d", "c"]

/-- The cards by their letters. -/
def allLetters : CardNames where
  faceToStr n := (faceLetters[n.toNat]?).getD ""
  suitToStr n := (suitLetters[n.toNat]?).getD ""
  faceToInt s := faceLetters.idxOf s + 2
  suitToInt s := suitLetters.idxOf s

/-- The first hand of `dealCards2` is the three and the two of spades. -/
def firstDeal (boardCards : List Card) (t : Tables) : Checked DealResult :=
  dealCards2 fourSeats dashDeck boardCards fourRanges 0 1 t.cloneHandPairs

theorem exists_firstDeal (boardCards : List Card)
    (h : (do
      let t ← Tables.init allLetters .fresh
      let holeCards ← readAt t.cloneHandPairs 0
      let r ← firstDeal boardCards t
      .ok (decide (holeCards = ["3s", "2s"]), r.ret, r.distributed.isSome)) =
        (.ok (true, 0, true) : Checked (Bool × Int × Bool))) :
    ∃ t mHands, Tables.init allLetters .fresh = .ok t ∧
      readAt t.cloneHandPairs 0 = .ok ["3s", "2s"] ∧
      firstDeal boardCards t = .ok ⟨0, some mHands⟩ := by
  obtain ⟨t, hinit, h⟩ := bind_eq_ok.mp h
  obtain ⟨holeCards, hchosen, h⟩ := bind_eq_ok.mp h
  obtain ⟨⟨ret, hands⟩, hdeal, h⟩ := bind_eq_ok.mp h
  obtain ⟨hcards, hret, hsome⟩ : _ ∧ ret = 0 ∧ hands.isSome = true := by
    simpa using h
  obtain ⟨mHands, rfl⟩ := Option.isSome_iff_exists.mp hsome
  cases hret
  exact ⟨t, mHands, hinit, hcards ▸ hchosen, hdeal⟩

/-- On a board without its cards, it is dealt to the turn player. -/
theorem ownHandDealt_first : ∃ t, Tables.init allLetters .fresh = .ok t ∧
    Distributes (firstDeal ["4d", "4c", "4h"] t) ∧
      OwnHandDealt ["4d", "4c", "4h"] 1 (readAt t.cloneHandPairs 0)
        (firstDeal ["4d", "4c", "4h"] t) := by
  obtain ⟨t, mHands, hinit, hchosen, hdeal⟩ :=
    exists_firstDeal ["4d", "4c", "4h"] (by decide +kernel)
  refine ⟨t, hinit, ⟨0, mHands, hdeal⟩, ?_⟩
  refine ((ownHandDealt_iff hinit dashDeck_cuts).1 0 1 (by decide)
    (.inr ⟨0, mHands, hdeal⟩)).mpr ⟨by decide, ?_⟩
  intro holeCards hhole
  cases hchosen.symm.trans hhole
  intro card hboard hcard
  revert card
  decide

/-- There is no pair for iteration 28; the first pair is dealt on a board with one of its cards; and
`dealCards4` leaves the turn player without a hand. -/
theorem not_ownHandDealt : ∃ t, Tables.init allLetters .fresh = .ok t ∧
    ¬ OwnHandDealt ["4d", "4c", "4h"] 1 (readAt t.cloneHandPairs 28)
      (dealCards2 fourSeats dashDeck ["4d", "4c", "4h"] fourRanges 28 1 t.cloneHandPairs) ∧
    ¬ OwnHandDealt ["2s", "4c", "4h"] 1 (readAt t.cloneHandPairs 0)
      (firstDeal ["2s", "4c", "4h"] t) ∧
    ¬ OwnHandDealt ["4d", "4c", "4h"] 1 (.ok ["3s", "2s"])
      (dealCards4 fourSeats dashDeck ["4d", "4c", "4h"] fourRanges ["3s", "2s"]) := by
  obtain ⟨t, mHands, hinit, hchosen, hdeal⟩ :=
    exists_firstDeal ["2s", "4c", "4h"] (by decide +kernel)
  obtain ⟨mHands₄, h₄⟩ := exists_distributed
    (x := dealCards4 fourSeats dashDeck ["4d", "4c", "4h"] fourRanges ["3s", "2s"])
    (by decide +kernel)
  refine ⟨t, hinit, ?_, ?_, ?_⟩
  · rintro ⟨holeCards, hhole, -⟩
    have hlt := (bounds_of_readAt hhole).2
    rw [Tables.cloneHandPairs, Tables.length_vPairs_init hinit] at hlt
    exact absurd hlt (by decide)
  · rintro ⟨holeCards, hhole, hall⟩
    cases hchosen.symm.trans hhole
    exact (hall 0 mHands hdeal).board (a := "2s") (by decide) (by decide)
  · rintro ⟨holeCards, -, hall⟩
    cases (dealCards4_own dashDeck_cuts h₄).symm.trans (hall 0 mHands₄ h₄).own

end Holdem.Decide
