import Holdem.Decide.Replay
import Mathlib.Data.List.Nodup

/-!
# Decide — Evaluate

`Evaluate`: the hands that a range starts with, and the lookup of the strategy that the searched
tree has for a hand.  The lookup asks for the information set of the game state with the card
cluster of the hand written into it.  The names of cards, the cutting of strings and the tables of
clusters and nodes are code of other repositories.

* `split_of_mem_hands`: a hand is cut into its two cards.
* `exists_eval`: the lookup for two cards is defined.
-/

namespace Holdem.Decide
open Support

/-- `Card`, by the names of suits and faces. -/
structure CardNames where
  faceToStr : Int → String
  suitToStr : Int → String
  faceToInt : String → Int
  suitToInt : String → Int

namespace CardNames

/-- `testCards`, after `initCardsList`: two faces of every suit. -/
def testCards (N : CardNames) : List Card :=
  [0, 1, 2, 3].flatMap fun suit =>
    [13, 14].map fun face => N.faceToStr (face - 2) ++ N.suitToStr suit

/-- The pairs of a card with one before it, by their names. -/
def pairs : List Card → List String
  | []            => []
  | card :: cards => cards.map (fun c => c ++ "-" ++ card) ++ pairs cards

/-- `vHands`, after `initHandsList`. -/
def hands (N : CardNames) : List String := pairs N.testCards

/-- `s.substr(i, 1)`. -/
def substr (s : String) (i : Nat) : String := String.ofList ((s.toList.drop i).take 1)

/-- The cluster of two cards before the flop. -/
def preflopCluster (N : CardNames) (card1 card2 : Card) : Int :=
  let suit1 := N.suitToInt (substr card1 1)
  let suit2 := N.suitToInt (substr card2 1)
  let face1 := N.faceToInt (substr card1 0)
  let face2 := N.faceToInt (substr card2 0)
  let mid := if face1 ≥ face2 then face2 - 2 else face1 - 2
  let dif := if face1 ≥ face2 then face1 - face2 else face2 - face1
  if suit1 = suit2 then mid * 13 + mid + dif * 13 else mid * 13 + mid + dif

end CardNames

/-- What `Evaluate` takes from elsewhere. -/
structure Lookups extends CardNames where
  /-- `StringUtils::split` at `"-"`. -/
  split : String → List String
  /-- The names of cards have no `"-"` to split at. -/
  split_pair : ∀ f s f' s',
    split (faceToStr f ++ suitToStr s ++ "-" ++ (faceToStr f' ++ suitToStr s')) =
      [faceToStr f ++ suitToStr s, faceToStr f' ++ suitToStr s']
  /-- `StringUtils::strcat` with `"-"`. -/
  strcat : List String → String
  /-- `TestCard` of the shared memory. -/
  TestCard : String → Int
  /-- `findAgentNode` of the tree of one of the four searches, at a stage and an `infoSet`: the
  `getAverageStrategy` of the node, if there is one. -/
  averageStrategy : Fin 4 → Int → String → Option Strategy
  /-- The keys of `mProbs`, in the order that a range copied from it is gone through. -/
  mProbs : List String
  nodup_mProbs : mProbs.Nodup
  mem_mProbs : ∀ hand, hand ∈ mProbs ↔ hand ∈ toCardNames.hands

/-- `DEFAULT_PROBS`. -/
def defaultProbs : Rat := 1 / 1326

/-- A hand range: the weights of the hands, by their names. -/
abbrev HandRange := List (String × Rat)

/-- The digits at the front, read after the number `n`. -/
def digitsFrom : Int → List Char → Int
  | n, []      => n
  | n, c :: cs => if c.isDigit then digitsFrom (n * 10 + (c.toNat - 48)) cs else n

/-- `atoi`. -/
def atoi (s : String) : Int :=
  match s.toList.dropWhile fun c => c.toNat = 32 ∨ 9 ≤ c.toNat ∧ c.toNat ≤ 13 with
  | '-' :: cs => -digitsFrom 0 cs
  | '+' :: cs => digitsFrom 0 cs
  | cs        => digitsFrom 0 cs

namespace Lookups

/-- `cloneHandProbs`. -/
def cloneHandProbs (T : Lookups) : HandRange := T.mProbs.map fun hand => (hand, defaultProbs)

/-- The cards of a hand behind one another, the last first, and the board. -/
def cardStr (holeCards boardCards : List Card) : String :=
  String.join (holeCards.reverse ++ boardCards)

/-- `cardCluster`. -/
def cardCluster (T : Lookups) (holeCards boardCards : List Card) : Checked Int :=
  if boardCards = [] then do
    .ok (T.preflopCluster (← readAt holeCards 0) (← readAt holeCards 1))
  else .ok (T.TestCard (cardStr holeCards boardCards))

/-- The strategy at the node for a card cluster, or a code below 0. -/
def strategyAt (T : Lookups) (research : Fin 4) (infoSet : String) (cardCluster : Int) :
    Except Int Strategy :=
  if -1 = cardCluster then .error (-999)
  else
    let vFields := T.split infoSet
    if vFields = [] then .error (-4)
    else if 12 ≠ vFields.length then .error (-5)
    else
      let newInfoSet := T.strcat (vFields.set 5 (toString cardCluster))
      match T.averageStrategy research (atoi (vFields.headD "")) newInfoSet with
      | none          => .error (-6)
      | some strategy => .ok strategy

/-- `Evaluate::eval`: the strategy of a hand, or the code that is returned in its place. -/
def eval (T : Lookups) (infoSet : String) (holeCards boardCards : List Card)
    (research : Fin 4) : Checked (Except Int Strategy) :=
  if holeCards = [] then .ok (.error (-2))
  else do .ok (T.strategyAt research infoSet (← T.cardCluster holeCards boardCards))

variable {T : Lookups}

theorem split_of_mem_pairs {cards : List Card} {hand : String}
    (hcards : ∀ card ∈ cards, ∃ f s, card = T.faceToStr f ++ T.suitToStr s)
    (h : hand ∈ CardNames.pairs cards) : (T.split hand).length = 2 := by
  induction cards with
  | nil => cases h
  | cons card cards ih =>
      obtain ⟨⟨f, s, hcard⟩, hrest⟩ := List.forall_mem_cons.mp hcards
      rcases List.mem_append.mp h with h | h
      · obtain ⟨c, hc, rfl⟩ := List.mem_map.mp h
        obtain ⟨f', s', rfl⟩ := hrest c hc
        rw [hcard, T.split_pair]
        rfl
      · exact ih hrest h

/-- A hand is cut into its two cards. -/
theorem split_of_mem_hands {hand : String} (h : hand ∈ T.hands) : (T.split hand).length = 2 := by
  refine split_of_mem_pairs (fun card hcard => ?_) h
  obtain ⟨suit, -, hcard⟩ := List.mem_flatMap.mp hcard
  obtain ⟨face, -, rfl⟩ := List.mem_map.mp hcard
  exact ⟨_, _, rfl⟩

/-- The lookup for two cards is defined. -/
theorem exists_eval (infoSet : String) {holeCards : List Card} (boardCards : List Card)
    (research : Fin 4) (h : holeCards.length = 2) :
    ∃ res, T.eval infoSet holeCards boardCards research = .ok res := by
  obtain ⟨card1, card2, rfl⟩ := List.length_eq_two.mp h
  by_cases hboard : boardCards = []
  · subst hboard
    exact ⟨_, rfl⟩
  · simp only [eval, cardCluster, if_neg hboard]
    exact ⟨_, rfl⟩

end Lookups

end Holdem.Decide
