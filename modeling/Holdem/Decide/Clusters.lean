import Holdem.Decide.Order
import Mathlib.GroupTheory.GroupAction.MultipleTransitivity

/-!
# Decide — Clusters

What the updates of a range cannot tell apart.  `Evaluate::eval` sees of a hand its card cluster and
nothing else.  Before the flop that is a number below 169, settled by the two faces and by whether
the suits are the same; on a board it comes from `TestCard`.

* `preflopCluster_classifies`: before the flop two hands have the same cluster exactly when they are
  the same up to the names of the suits and the order of the cards; `alike_preflop`: an update on an
  empty board does not tell such hands apart.
* `replay_even`: two hands that no update of the range of a player tells apart are both in the range
  after the replay, with the same weight, or both not.
-/

namespace Holdem.Decide
open Support

namespace CardNames

/-- `Card::faceToInt` of the card. -/
def face (N : CardNames) (card : Card) : Int := N.faceToInt (substr card 0)

/-- `Card::suitToInt` of the card. -/
def suit (N : CardNames) (card : Card) : Int := N.suitToInt (substr card 1)

/-- Two different cards, with faces from 2 to 14. -/
structure TwoCards (N : CardNames) (a b : Card) : Prop where
  first : 2 ≤ N.face a ∧ N.face a ≤ 14
  second : 2 ≤ N.face b ∧ N.face b ≤ 14
  differ : N.suit a = N.suit b → N.face a ≠ N.face b

/-- The card `c` is `a` with the suits renamed. -/
def Renames (N : CardNames) (π : Equiv.Perm Int) (a c : Card) : Prop :=
  N.face c = N.face a ∧ N.suit c = π (N.suit a)

/-- The hands are the same up to the names of the suits and the order of the cards. -/
def SameUpToSuits (N : CardNames) (a b c d : Card) : Prop :=
  ∃ π : Equiv.Perm Int,
    N.Renames π a c ∧ N.Renames π b d ∨ N.Renames π a d ∧ N.Renames π b c

/-- The hands have the same two faces. -/
def SameFaces (N : CardNames) (a b c d : Card) : Prop :=
  N.face c = N.face a ∧ N.face d = N.face b ∨ N.face d = N.face a ∧ N.face c = N.face b

variable {N : CardNames} {a b c d : Card}

/-! ### Before the flop -/

/-- Two cards of a suit stand below the diagonal. -/
theorem preflopCluster_suited (h : N.suit a = N.suit b) :
    N.preflopCluster a b =
      13 * (max (N.face a) (N.face b) - 2) + (min (N.face a) (N.face b) - 2) := by
  simp only [suit] at h
  simp only [preflopCluster, if_pos h, face]
  split <;> omega

/-- Two cards of different suits stand above the diagonal, or on it. -/
theorem preflopCluster_offsuit (h : N.suit a ≠ N.suit b) :
    N.preflopCluster a b =
      13 * (min (N.face a) (N.face b) - 2) + (max (N.face a) (N.face b) - 2) := by
  simp only [suit] at h
  simp only [preflopCluster, if_neg h, face]
  split <;> omega

/-- The cluster tells the faces and whether the suits are the same, and nothing else. -/
theorem preflopCluster_eq_iff (h : N.TwoCards a b) (h' : N.TwoCards c d) :
    N.preflopCluster a b = N.preflopCluster c d ↔
      N.SameFaces a b c d ∧ (N.suit a = N.suit b ↔ N.suit c = N.suit d) := by
  obtain ⟨ha, hb, hab⟩ := h
  obtain ⟨hc, hd, hcd⟩ := h'
  simp only [SameFaces]
  by_cases hs : N.suit a = N.suit b
  · have hne := hab hs
    by_cases hs' : N.suit c = N.suit d
    · rw [preflopCluster_suited hs, preflopCluster_suited hs', iff_of_true hs hs']
      omega
    · rw [preflopCluster_suited hs, preflopCluster_offsuit hs']
      refine iff_of_false ?_ fun ⟨_, hiff⟩ => hs' (hiff.mp hs)
      omega
  · by_cases hs' : N.suit c = N.suit d
    · have hne := hcd hs'
      rw [preflopCluster_offsuit hs, preflopCluster_suited hs']
      refine iff_of_false ?_ fun ⟨_, hiff⟩ => hs (hiff.mpr hs')
      omega
    · rw [preflopCluster_offsuit hs, preflopCluster_offsuit hs', iff_of_false hs hs']
      omega

/-- Two suits can be renamed to two others if they are the same where those are. -/
theorem exists_renaming {x y x' y' : Int} (h : x = y ↔ x' = y') :
    ∃ π : Equiv.Perm Int, x' = π x ∧ y' = π y := by
  by_cases hxy : x = y
  · subst hxy
    obtain rfl := h.mp rfl
    exact ⟨Equiv.swap x x', (Equiv.swap_apply_left x x').symm, (Equiv.swap_apply_left x x').symm⟩
  · obtain ⟨π, hx, hy⟩ := MulAction.is_two_pretransitive_iff.mp
      (Equiv.Perm.isMultiplyPretransitive Int 2) hxy (mt h.mpr hxy)
    exact ⟨π, hx.symm, hy.symm⟩

theorem sameUpToSuits_iff :
    N.SameUpToSuits a b c d ↔
      N.SameFaces a b c d ∧ (N.suit a = N.suit b ↔ N.suit c = N.suit d) := by
  constructor
  · rintro ⟨π, ⟨⟨hac, hπa⟩, hbd, hπb⟩ | ⟨⟨had, hπa⟩, hbc, hπb⟩⟩
    · exact ⟨.inl ⟨hac, hbd⟩, by rw [hπa, hπb, π.injective.eq_iff]⟩
    · exact ⟨.inr ⟨had, hbc⟩, by rw [hπa, hπb, π.injective.eq_iff, eq_comm]⟩
  · rintro ⟨⟨hac, hbd⟩ | ⟨had, hbc⟩, hsuits⟩
    · obtain ⟨π, hπa, hπb⟩ := exists_renaming hsuits
      exact ⟨π, .inl ⟨⟨hac, hπa⟩, hbd, hπb⟩⟩
    · obtain ⟨π, hπa, hπb⟩ := exists_renaming (hsuits.trans eq_comm)
      exact ⟨π, .inr ⟨⟨had, hπa⟩, hbc, hπb⟩⟩

/-- **The clusters before the flop.**  They are numbers below 169, and two hands of different cards
have the same one exactly when they are the same up to the names of the suits and the order of the
cards. -/
theorem preflopCluster_classifies (N : CardNames) (a b c d : Card) (h : N.TwoCards a b)
    (h' : N.TwoCards c d) :
    (0 ≤ N.preflopCluster a b ∧ N.preflopCluster a b < 169) ∧
      (N.preflopCluster a b = N.preflopCluster c d ↔ N.SameUpToSuits a b c d) := by
  refine ⟨?_, (preflopCluster_eq_iff h h').trans sameUpToSuits_iff.symm⟩
  obtain ⟨ha, hb, hab⟩ := h
  by_cases hs : N.suit a = N.suit b
  · rw [preflopCluster_suited hs]
    omega
  · rw [preflopCluster_offsuit hs]
    omega

/-- An ace and a king of different suits, in two of their forms. -/
theorem classifies_aceKing :
    (0 ≤ letters.preflopCluster "As" "Kh" ∧ letters.preflopCluster "As" "Kh" < 169) ∧
      (letters.preflopCluster "As" "Kh" = letters.preflopCluster "Kd" "Ac" ↔
        letters.SameUpToSuits "As" "Kh" "Kd" "Ac") :=
  preflopCluster_classifies letters "As" "Kh" "Kd" "Ac"
    ⟨by decide, by decide, by decide⟩ ⟨by decide, by decide, by decide⟩

end CardNames

/-! ### One lookup -/

namespace Lookups

/-- The update does not tell the two hands apart: they have the same cluster, and both or none of
them collide with the board, whether that is the board of the update or the one from before. -/
structure Alike (T : Lookups) (u : RangeUpdate) (old : List Card) (h k : String) : Prop where
  cluster : T.cardCluster (T.split h) u.board = T.cardCluster (T.split k) u.board
  collide : Collides u.board (T.split h) ↔ Collides u.board (T.split k)
  first : Collides old (T.split h) ↔ Collides u.board (T.split h)
  second : Collides old (T.split k) ↔ Collides u.board (T.split k)

instance (T : Lookups) (u : RangeUpdate) (old : List Card) (h k : String) :
    Decidable (T.Alike u old h k) :=
  decidable_of_iff
    (T.cardCluster (T.split h) u.board = T.cardCluster (T.split k) u.board ∧
      (Collides u.board (T.split h) ↔ Collides u.board (T.split k)) ∧
      (Collides old (T.split h) ↔ Collides u.board (T.split h)) ∧
      (Collides old (T.split k) ↔ Collides u.board (T.split k)))
    ⟨fun ⟨h₁, h₂, h₃, h₄⟩ => ⟨h₁, h₂, h₃, h₄⟩, fun ⟨h₁, h₂, h₃, h₄⟩ => ⟨h₁, h₂, h₃, h₄⟩⟩

variable {T : Lookups} {u : RangeUpdate} {old : List Card} {h k : String}

/-- Before the flop, with no card on the table, hands are alike up to the names of the suits and the
order of the cards. -/
theorem alike_preflop {a b c d : Card} (hboard : u.board = []) (hold : old = [])
    (hh : T.split h = [a, b]) (hk : T.split k = [c, d]) (hab : T.TwoCards a b)
    (hcd : T.TwoCards c d) (hsame : T.SameUpToSuits a b c d) : T.Alike u old h k := by
  have hclear : ∀ cards : List Card, ¬ Collides [] cards := fun _ h => h.1 rfl
  subst hold
  refine ⟨?_, ?_, ?_, ?_⟩
  · rw [hboard, hh, hk]
    exact congrArg Except.ok
      ((CardNames.preflopCluster_eq_iff hab hcd).mpr (CardNames.sameUpToSuits_iff.mp hsame))
  · rw [hboard]
    exact iff_of_false (hclear _) (hclear _)
  · rw [hboard]
  · rw [hboard]

theorem mem_cloneHandProbs {hand : String} {weight : Rat} :
    (hand, weight) ∈ T.cloneHandProbs ↔ hand ∈ T.mProbs ∧ weight = defaultProbs := by
  rw [cloneHandProbs, List.mem_map]
  constructor
  · rintro ⟨hand', hmem, heq⟩
    cases heq
    exact ⟨hmem, rfl⟩
  · rintro ⟨hmem, rfl⟩
    exact ⟨hand, hmem, rfl⟩

/-- `eval` sees the cluster of a hand and nothing else. -/
theorem eval_congr {holeCards holeCards' board : List Card} (infoSet : String) (research : Fin 4)
    (hh : holeCards ≠ []) (hk : holeCards' ≠ [])
    (hcluster : T.cardCluster holeCards board = T.cardCluster holeCards' board) :
    T.eval infoSet holeCards board research = T.eval infoSet holeCards' board research := by
  rw [eval, if_neg hh, eval, if_neg hk, hcluster]

/-- A lookup gives the same answer for both hands, and so the same weight. -/
theorem Alike.revised (halike : T.Alike u old h k) (hh : 2 = (T.split h).length)
    (hk : 2 = (T.split k).length) (weight : Rat) :
    T.revised u (h, weight) = T.revised u (k, weight) := by
  have hne : ∀ hand, 2 = (T.split hand).length → T.split hand ≠ [] := by
    intro hand hlen hnil
    rw [hnil] at hlen
    cases hlen
  have hlookup : T.lookup u h = T.lookup u k := by
    rw [lookup, lookup]
    refine congrArg _ (funext fun research => ?_)
    exact eval_congr u.infoSet research (hne h hh) (hne k hk) halike.cluster
  simp only [Lookups.revised, hlookup]

end Lookups

/-! ### One update -/

/-- Both hands are in the range with the same weight, or both are not. -/
def HandRange.Even (h k : String) (range : HandRange) : Prop :=
  ∀ weight, (h, weight) ∈ range ↔ (k, weight) ∈ range

variable {W : Type} {T : Table W} {h k : String}

namespace Table

/-- A hand that collides with both boards or with none is looked up or not in every order. -/
theorem mem_lookedUp_iff (hT : T.ReadsBoard) {board : List Card} {w : W} {x : String × Rat}
    {range : HandRange}
    (hx : Collides (T.boardCards w) (T.split x.1) ↔ Collides board (T.split x.1)) :
    x ∈ T.lookedUp board w range ↔ x ∈ range ∧ ¬ Collides board (T.split x.1) := by
  rw [T.lookedUp_eq_sweep hT, mem_sweep_iff (O := T.Hits (T.boardCards w)) (N := T.Hits board) hx]
  exact and_congr_right fun _ => not_congr hx

/-- An update that does not tell the hands apart keeps them even. -/
theorem updateHands_even (hT : T.ReadsBoard) {w w' : W} {range range' : HandRange} {round : Int}
    {action : Option Action} {board : List Card} {valid : Bool} (hround : Bounds round 4)
    (hpairs : ∀ x ∈ range, 2 = (T.split x.1).length) (hkeys : (range.map Prod.fst).Nodup)
    (hh : 2 = (T.split h).length) (hk : 2 = (T.split k).length)
    (halike : T.Alike (T.asks w round action board) (T.boardCards w) h k)
    (heven : range.Even h k)
    (hupdate : T.updateHands w range round action board = .ok (w', range', valid)) :
    range'.Even h k := by
  obtain rfl := updateHands_eq hround hpairs hkeys hupdate
  have hlooked : (T.lookedUp (boardAt round board) w range).Even h k := by
    intro weight
    rw [mem_lookedUp_iff hT halike.first, mem_lookedUp_iff hT halike.second, heven weight]
    exact and_congr_right fun _ => not_congr halike.collide
  intro weight
  rw [Lookups.mem_posterior, Lookups.mem_posterior]
  refine and_congr_right fun _ => ⟨?_, ?_⟩
  · rintro ⟨⟨_, weight₀⟩, hmem, hx⟩
    cases hx
    exact ⟨(k, weight₀), (hlooked weight₀).mp hmem,
      congrArg (fun x => (k, relative _ x)) (halike.revised hh hk weight₀).symm⟩
  · rintro ⟨⟨_, weight₀⟩, hmem, hx⟩
    cases hx
    exact ⟨(h, weight₀), (hlooked weight₀).mpr hmem,
      congrArg (fun x => (h, relative _ x)) (halike.revised hh hk weight₀)⟩

end Table

/-! ### The replay -/

/-- The entry does not tell the two hands apart, if it updates the range of the player. -/
def AlikeAt (T : Table W) (C : Configure) (r : Request) (board : List Card) (player : Int)
    (h k : String) (x : Nat × Replay (Ranged W)) (his : HistoryLine) : Prop :=
  ∀ u ∈ rangeUpdate T C r board player x.1 his x.2,
    T.Alike u (T.boardCards x.2.world.state) h k

instance (T : Table W) (C : Configure) (r : Request) (board : List Card) (player : Int)
    (h k : String) (x : Nat × Replay (Ranged W)) (his : HistoryLine) :
    Decidable (AlikeAt T C r board player h k x his) :=
  inferInstanceAs (Decidable (∀ u ∈ rangeUpdate T C r board player x.1 his x.2, _))

variable {C : Configure} {r : Request} {board : List Card} {player : Int}

/-- What the replay keeps for two hands that it does not tell apart. -/
structure Evenly (T : Table W) (C : Configure) (player : Int) (h k : String)
    (p : Replay (Ranged W)) : Prop where
  orderly : Orderly T C p
  even : ∀ range, readAt p.world.handRanges player = .ok range → range.Even h k

theorem Evenly.turn (hT : T.ReadsBoard) (hh : h ∈ T.mProbs) (hk : k ∈ T.mProbs)
    {x y : Nat × Replay (Ranged W)} {his : HistoryLine} {more : Bool}
    (hp : Evenly T C player h k x.2) (halike : AlikeAt T C r board player h k x his)
    (hturn : Decide.turn C T.ranged r board x his = .ok (y, more)) :
    Evenly T C player h k y.2 := by
  obtain ⟨⟨q, more⟩, hline, hy⟩ := map_eq_ok.mp hturn
  cases hy
  cases more with
  | false =>
      have hworld := replayLine_still hline (.inl rfl)
      refine ⟨⟨Accounts.record_shaped hp.orderly.shaped (replayLine_accounts hline), ?_, ?_⟩, ?_⟩
      · rw [hworld]
        exact hp.orderly.keyed
      · rw [hworld]
        exact hp.orderly.distinct
      · rw [hworld]
        exact hp.even
  | true =>
      refine ⟨hp.orderly.replayLine hline, fun range' hrange' => ?_⟩
      rcases replayLine_ranges hline hrange' with
        ⟨-, hsame⟩ | ⟨action, range, state, valid, hsome, hrange, hhands⟩
      · exact hp.even range' hsame
      · have hmem := mem_of_readAt hrange
        exact T.updateHands_even hT
          (bounds_of_record hp.orderly.shaped (replayLine_accounts hline))
          (hp.orderly.pairs hmem) (hp.orderly.distinct range hmem) (Lookups.pair_of_mem hh)
          (Lookups.pair_of_mem hk) (halike _ hsome) (hp.even range hrange) hhands

/-- **Hands that are not told apart.**  Where no entry of a replay tells two hands apart that the
ranges start with, both are in the range of the player afterwards with the same weight, or both are
not. -/
theorem replay_even (T : Table W) (hT : T.ReadsBoard) (C : Configure) (r : Request)
    (board : List Card) (player : Int) (h k : String) (hh : h ∈ T.mProbs) (hk : k ∈ T.mProbs)
    (w : Ranged W) (accounts : Accounts) (p : Replay (Ranged W)) (range : HandRange)
    (hseat : Accounts.seatFrom C r 0 r.seat_info (.start C.mNumPlayers) = .ok accounts)
    (halike : Guarded (goesOn (turn C T.ranged r board)) (AlikeAt T C r board player h k)
      (begins accounts (unshuffle T.ranged w r)) r.history)
    (hreplay : replay C T.ranged r board (unshuffle T.ranged w r) = .ok p)
    (hrange : readAt p.world.handRanges player = .ok range) :
    ∀ weight, (h, weight) ∈ range ↔ (k, weight) ∈ range := by
  have hstart : Evenly T C player h k (begins accounts (unshuffle T.ranged w r)).2 := by
    refine ⟨Orderly.unshuffle w hseat, fun range hrange weight => ?_⟩
    rw [eq_of_mem_unshuffle (mem_of_readAt hrange), T.mem_cloneHandProbs, T.mem_cloneHandProbs]
    exact and_congr_left fun _ => iff_of_true hh hk
  rw [replay, hseat, ok_bind, replayFrom_eq_forEach] at hreplay
  obtain ⟨x, hloop, rfl⟩ := map_eq_ok.mp hreplay
  exact (forEach_guarded (P := fun x => Evenly T C player h k x.2)
    (fun _ _ _ _ hp hat hturn => hp.turn hT hh hk hat hturn) hstart halike hloop).even range hrange

/-- The call on the flop does not tell a king with the ace of spades from another ace with it. -/
theorem even_fourteen : ∃ p range,
    replay headsUp boardTable.ranged fourteen fourteen.board_card flopState = .ok p ∧
      readAt p.world.handRanges 0 = .ok range ∧
      ∀ weight, ("Kh-As", weight) ∈ range ↔ ("Ac-As", weight) ∈ range := by
  obtain ⟨p, range, hp, hrange, -⟩ := range_fourteen
  obtain ⟨accounts, hseat⟩ : ∃ accounts, Accounts.seatFrom headsUp fourteen 0 fourteen.seat_info
      (.start headsUp.mNumPlayers) = .ok accounts := ⟨_, rfl⟩
  refine ⟨p, range, hp, hrange, ?_⟩
  refine replay_even boardTable (fun _ _ => rfl) headsUp fourteen fourteen.board_card 0 "Kh-As"
    "Ac-As" (by decide +kernel) (by decide +kernel) _ accounts p range hseat ?_ hp hrange
  cases hseat
  decide +kernel

end Holdem.Decide
