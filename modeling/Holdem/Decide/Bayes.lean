import Holdem.Decide.Ranges
import Holdem.Decide.ReadBack
import Mathlib.Algebra.BigOperators.Group.List.Basic
import Mathlib.Data.List.Dedup

/-!
# Decide — Bayes

The replayed ranges are Bayesian.  The updates of a player's range are listed along the replay; the
weight of a hand that has an answer at every one of them is the product of its likelihoods, up to a
factor that all such hands share.

* `replayLine_revises`: what a turn of the loop does to the range of a player.
* `replay_bayes`: the odds of two hands after the replay.
-/

namespace Holdem.Decide
open Support

variable {W : Type} {T : Table W} {C : Configure} {r : Request} {board : List Card} {player : Int}

/-- The update of the range of the player for entry `i`, if it has one. -/
def rangeUpdate (T : Table W) (C : Configure) (r : Request) (board : List Card) (player : Int)
    (i : Nat) (his : HistoryLine) (p : Replay (Ranged W)) : Option RangeUpdate :=
  match readLine C p i his (r.newPos C his.pos) with
  | .ok (_, action) =>
    if r.newPos C his.pos = player ∧ UpdatesRange C r i (r.newPos C his.pos) action then
      some (T.asks p.world.state his.round action board)
    else none
  | .error _        => none

/-- The updates of the range of the player, from entry `i` on. -/
def updatesFrom (T : Table W) (C : Configure) (r : Request) (board : List Card) (player : Int) :
    Nat → List HistoryLine → Replay (Ranged W) → List RangeUpdate
  | _, [], _          => []
  | i, his :: rest, p =>
    match replayLine C T.ranged r board i his p with
    | .ok (p', true)  =>
      (rangeUpdate T C r board player i his p).toList ++
        updatesFrom T C r board player (i + 1) rest p'
    | .ok (_, false)  => []
    | .error _        => []

/-- The updates of the range of the player in the replay of the request. -/
def updates (T : Table W) (C : Configure) (r : Request) (board : List Card) (w : Ranged W)
    (player : Int) : List RangeUpdate :=
  match Accounts.seatFrom C r 0 r.seat_info (.start C.mNumPlayers) with
  | .ok accounts => updatesFrom T C r board player 0 r.history ⟨accounts, ⟨0, 0, 0⟩, true, w⟩
  | .error _     => []

namespace Lookups

/-- The hand has an answer at every update. -/
def AnswersAll (T : Lookups) (us : List RangeUpdate) (hand : String) : Prop :=
  ∀ u ∈ us, T.Answers u hand

/-- The product of the likelihoods of the hand. -/
def likelihoods (T : Lookups) (us : List RangeUpdate) (hand : String) : Rat :=
  (us.map fun u => T.likelihood u hand).prod

variable {T : Lookups}

theorem answersAll_singleton (u : RangeUpdate) : T.AnswersAll [u] = T.Answers u := by
  funext hand
  exact propext List.forall_mem_singleton

theorem likelihoods_singleton (u : RangeUpdate) : T.likelihoods [u] = T.likelihood u := by
  funext hand
  exact List.prod_singleton

theorem answersAll_append (us vs : List RangeUpdate) :
    T.AnswersAll (us ++ vs) = fun hand => T.AnswersAll us hand ∧ T.AnswersAll vs hand := by
  funext hand
  exact propext List.forall_mem_append

theorem likelihoods_append (us vs : List RangeUpdate) :
    T.likelihoods (us ++ vs) = fun hand => T.likelihoods us hand * T.likelihoods vs hand := by
  funext hand
  simp only [likelihoods, List.map_append, List.prod_append]

end Lookups

/-! ### One turn of the loop -/

/-- Every range is of hands that the ranges start with. -/
def Ranged.Keyed (T : Lookups) (s : Ranged W) : Prop :=
  ∀ range ∈ s.handRanges, ∀ x ∈ range, x.1 ∈ T.mProbs

theorem Lookups.pair_of_mem {T : Lookups} {hand : String} (h : hand ∈ T.mProbs) :
    2 = (T.split hand).length := (T.split_of_mem_hands ((T.mem_mProbs hand).mp h)).symm

/-- What the engine does for an update. -/
theorem ranged_updateRange {s s' : Ranged W} {newPos round : Int} {action : Option Action}
    {valid : Bool} (h : T.ranged.updateRange s newPos round action board = .ok (s', valid)) :
    ∃ range state range', readAt s.handRanges newPos = .ok range ∧
      T.updateHands s.state range round action board = .ok (state, range', valid) ∧
      writeAt s.handRanges newPos range' = .ok s'.handRanges := by
  obtain ⟨range, hread, h⟩ := bind_eq_ok.mp h
  obtain ⟨⟨state, range', valid⟩, hupdate, h⟩ := bind_eq_ok.mp h
  obtain ⟨handRanges, hwrite, h⟩ := bind_eq_ok.mp h
  cases h
  exact ⟨range, state, range', hread, hupdate, hwrite⟩

/-- An entry is recorded in one of the four rounds. -/
theorem bounds_of_record {a a' : Accounts} {n : Nat} {round newPos his_bet chips : Int}
    (ha : a.Shaped n) (h : a.record round newPos his_bet chips = .ok a') : Bounds round 4 := by
  obtain ⟨roundBet, beted, hround, -⟩ := Accounts.record_eq_ok h
  exact ha.roundBet ▸ bounds_of_readAt hround

/-- A turn that ends the loop, or is for a blind, leaves the world as it is. -/
theorem replayLine_still {E : Engine W} {i : Nat} {his : HistoryLine} {p p' : Replay W}
    {more : Bool} (h : replayLine C E r board i his p = .ok (p', more))
    (hstill : more = false ∨ ¬ (i : Int) > bbPos) : p'.world = p.world := by
  obtain ⟨accounts, -, ⟨-, -, rfl⟩ | ⟨-, -, rfl⟩ | ⟨_, _, _, _, ⟨hi, -⟩, -, -, rfl, rfl⟩⟩ :=
    replayLine_cases h
  · rfl
  · rfl
  · exact absurd hi (hstill.resolve_left Bool.noConfusion)

theorem rangeUpdate_of_read {i : Nat} {his : HistoryLine} {p : Replay (Ranged W)} {raises : Raises}
    {action : Option Action} (h : readLine C p i his (r.newPos C his.pos) = .ok (raises, action)) :
    rangeUpdate T C r board player i his p =
      if r.newPos C his.pos = player ∧ UpdatesRange C r i (r.newPos C his.pos) action then
        some (T.asks p.world.state his.round action board)
      else none := by
  simp only [rangeUpdate, h]

/-- No entry of a blind updates a range. -/
theorem rangeUpdate_of_blind {i : Nat} {his : HistoryLine} {p : Replay (Ranged W)}
    (hi : ¬ (i : Int) > bbPos) : rangeUpdate T C r board player i his p = none := by
  rcases hread : readLine C p i his (r.newPos C his.pos) with e | ⟨raises, action⟩
  · simp only [rangeUpdate, hread]
  · rw [rangeUpdate_of_read hread, if_neg]
    rintro ⟨-, -, -, -, h12⟩
    simp only [bbPos] at hi
    omega

/-- The command at the end of a turn leaves the ranges as the update left them. -/
theorem replayLine_handRanges {i : Nat} {his : HistoryLine} {p p' : Replay (Ranged W)}
    (hi : (i : Int) > bbPos) (h : replayLine C T.ranged r board i his p = .ok (p', true)) :
    ∃ action w valid, readLine C p i his (r.newPos C his.pos) = .ok (p'.raises, action) ∧
      updateRange C T.ranged r board i (r.newPos C his.pos) his.round action p.world =
        .ok (w, valid) ∧
      p'.world.handRanges = w.handRanges := by
  obtain ⟨action, w, valid, hread, hupdate, hworld⟩ := replayLine_reads hi h
  refine ⟨action, w, valid, hread, hupdate, ?_⟩
  rw [hworld]
  rfl

/-- A turn of the loop updates the range of its player, and no other range. -/
theorem replayLine_ranges {i : Nat} {his : HistoryLine} {p p' : Replay (Ranged W)}
    {range' : HandRange} (h : replayLine C T.ranged r board i his p = .ok (p', true))
    (hrange' : readAt p'.world.handRanges player = .ok range') :
    rangeUpdate T C r board player i his p = none ∧
        readAt p.world.handRanges player = .ok range' ∨
      ∃ action range state valid,
        rangeUpdate T C r board player i his p =
          some (T.asks p.world.state his.round action board) ∧
        readAt p.world.handRanges player = .ok range ∧
        T.updateHands p.world.state range his.round action board =
          .ok (state, range', valid) := by
  by_cases hi : (i : Int) > bbPos
  · obtain ⟨action, w, valid, hread, hupdate, hranges⟩ := replayLine_handRanges hi h
    rw [hranges] at hrange'
    rw [rangeUpdate_of_read hread]
    by_cases hU : UpdatesRange C r i (r.newPos C his.pos) action
    · simp only [updateRange, if_pos hU] at hupdate
      obtain ⟨range, state, range'', hmine, hhands, hwrite⟩ := ranged_updateRange hupdate
      rcases readAt_of_writeAt hwrite hrange' with ⟨rfl, rfl⟩ | ⟨hne, hother⟩
      · exact .inr ⟨action, range, state, valid, if_pos ⟨rfl, hU⟩, hmine, hhands⟩
      · exact .inl ⟨if_neg fun ⟨heq, _⟩ => hne heq.symm, hother⟩
    · simp only [updateRange, if_neg hU] at hupdate
      cases hupdate
      exact .inl ⟨if_neg fun ⟨_, hin⟩ => hU hin, hrange'⟩
  · rw [replayLine_still h (.inr hi)] at hrange'
    exact .inl ⟨rangeUpdate_of_blind hi, hrange'⟩

/-- What a turn of the loop does to the range of a player. -/
theorem replayLine_revises {i : Nat} {his : HistoryLine} {p p' : Replay (Ranged W)}
    {range' : HandRange} (hp : p.accounts.Shaped C.mNumPlayers) (hkeys : p.world.Keyed T.toLookups)
    (h : replayLine C T.ranged r board i his p = .ok (p', true))
    (hrange' : readAt p'.world.handRanges player = .ok range') :
    ∃ range, readAt p.world.handRanges player = .ok range ∧
      Revises (T.AnswersAll (rangeUpdate T C r board player i his p).toList)
        (T.likelihoods (rangeUpdate T C r board player i his p).toList) range range' := by
  rcases replayLine_ranges h hrange' with
    ⟨hnone, hrange⟩ | ⟨action, range, state, valid, hsome, hrange, hhands⟩
  · rw [hnone]
    exact ⟨range', hrange, Revises.refl _ _⟩
  · have hround := bounds_of_record hp (replayLine_accounts h)
    rw [hsome, Option.toList_some, Lookups.answersAll_singleton, Lookups.likelihoods_singleton]
    refine ⟨range, hrange, Table.updateHands_revises hround ?_ hhands⟩
    intro x hx
    exact Lookups.pair_of_mem (hkeys range (mem_of_readAt hrange) x hx)

/-- The ranges stay ones of the hands they start with. -/
theorem replayLine_keyed {i : Nat} {his : HistoryLine} {p p' : Replay (Ranged W)}
    (hp : p.accounts.Shaped C.mNumPlayers) (hkeys : p.world.Keyed T.toLookups)
    (h : replayLine C T.ranged r board i his p = .ok (p', true)) :
    p'.world.Keyed T.toLookups := by
  intro range' hrange' x hx
  obtain ⟨player, hread⟩ := exists_readAt_of_mem hrange'
  obtain ⟨range, hrange, d, hd⟩ := replayLine_revises hp hkeys h hread
  obtain ⟨weight, hmem, -⟩ := hd x.1 x.2 hx
  exact hkeys range (mem_of_readAt hrange) (x.1, weight) hmem

/-! ### The replay -/

/-- The updates of a player revise the range of the player, one after another. -/
theorem replayFrom_revises {i : Nat} {history : List HistoryLine} {p p' : Replay (Ranged W)}
    {range' : HandRange} (hp : p.accounts.Shaped C.mNumPlayers) (hkeys : p.world.Keyed T.toLookups)
    (h : replayFrom C T.ranged r board i history p = .ok p')
    (hrange' : readAt p'.world.handRanges player = .ok range') :
    ∃ range, readAt p.world.handRanges player = .ok range ∧
      Revises (T.AnswersAll (updatesFrom T C r board player i history p))
        (T.likelihoods (updatesFrom T C r board player i history p)) range range' := by
  induction history generalizing i p with
  | nil =>
      cases h
      exact ⟨range', hrange', Revises.refl _ _⟩
  | cons his rest ih =>
      obtain ⟨⟨q, more⟩, hline, h⟩ := bind_eq_ok.mp h
      have hq := Accounts.record_shaped hp (replayLine_accounts hline)
      cases more with
      | true =>
          obtain ⟨range₁, hrange₁, hlater⟩ := ih hq (replayLine_keyed hp hkeys hline) h
          obtain ⟨range, hrange, hfirst⟩ := replayLine_revises hp hkeys hline hrange₁
          refine ⟨range, hrange, ?_⟩
          simp only [updatesFrom, hline]
          rw [Lookups.answersAll_append, Lookups.likelihoods_append]
          exact hfirst.trans hlater
      | false =>
          cases h
          rw [replayLine_still hline (.inl rfl)] at hrange'
          simp only [updatesFrom, hline]
          exact ⟨range', hrange', Revises.refl _ _⟩

/-- Every range starts with all hands, at the default weight. -/
theorem eq_of_mem_unshuffle {w : Ranged W} {range : HandRange}
    (h : range ∈ (unshuffle T.ranged w r).handRanges) : range = T.toLookups.cloneHandProbs := by
  obtain ⟨old, -, heq⟩ := List.mem_map.mp h
  exact heq.symm

theorem unshuffle_keyed (w : Ranged W) : (unshuffle T.ranged w r).Keyed T.toLookups := by
  intro range hrange x hx
  rw [eq_of_mem_unshuffle hrange] at hx
  obtain ⟨hand, hhand, rfl⟩ := List.mem_map.mp hx
  exact hhand

/-- **Bayes.**  The weights of two hands that are left in the range of a player, and had an answer
at every update of it, are in the ratio of the products of their likelihoods. -/
theorem replay_bayes {w : Ranged W} {p : Replay (Ranged W)} {range : HandRange} {h k : String}
    {wh wk : Rat} (hreplay : replay C T.ranged r board (unshuffle T.ranged w r) = .ok p)
    (hrange : readAt p.world.handRanges player = .ok range)
    (hh : (h, wh) ∈ range) (hk : (k, wk) ∈ range)
    (hans : T.AnswersAll (updates T C r board (unshuffle T.ranged w r) player) h)
    (kans : T.AnswersAll (updates T C r board (unshuffle T.ranged w r) player) k) :
    wh * T.likelihoods (updates T C r board (unshuffle T.ranged w r) player) k =
      wk * T.likelihoods (updates T C r board (unshuffle T.ranged w r) player) h := by
  obtain ⟨accounts, hseat, hreplay⟩ := bind_eq_ok.mp hreplay
  obtain ⟨first, hfirst, hrev⟩ := replayFrom_revises
    (Accounts.seatFrom_shaped (Accounts.start_shaped _) hseat) (unshuffle_keyed w) hreplay hrange
  simp only [updates, hseat] at hans kans ⊢
  refine hrev.odds (c := defaultProbs) (fun hand weight hmem => ?_) hh hk hans kans
  rw [eq_of_mem_unshuffle (mem_of_readAt hfirst)] at hmem
  obtain ⟨hand, -, heq⟩ := List.mem_map.mp hmem
  cases heq
  rfl

/-- Cards by their usual letters. -/
def letters : CardNames where
  faceToStr n := if n = 11 then "K" else "A"
  suitToStr n := if n = 0 then "s" else if n = 1 then "h" else if n = 2 then "d" else "c"
  faceToInt s := if s = "K" then 13 else 14
  suitToInt s := if s = "s" then 0 else if s = "h" then 1 else if s = "d" then 2 else 3

/-- Two clusters and two nodes, by the face of the second card of a hand. -/
def twoNodes : Lookups where
  toCardNames := letters
  split s := (s.toList.splitOn '-').map String.ofList
  split_pair := by
    intro f s f' s'
    simp only [letters, String.toList_append]
    split_ifs <;> rfl
  strcat := "-".intercalate
  TestCard cards := if cards.toList.head? = some 'A' then 1 else 2
  averageStrategy _ _ infoSet :=
    if infoSet = "3-0-0-0-0-1-0-0-0-0-0-0" then some [("CALL", 1 / 2)]
    else some [("FOLD", 3 / 4), ("CALL", 1 / 4)]
  mProbs := letters.hands.dedup
  nodup_mProbs := List.nodup_dedup _
  mem_mProbs := fun _ => List.mem_dedup

/-- A game that is its board, and never ends. -/
def boardTable : Table (List Card) where
  newState _ _ _ := some []
  setBoardCards _ cards := cards
  setShuffle w _ := w
  cloneHandProbs w := w
  Command w _ := w
  isTerminal _ := false
  updateRange w _ _ _ _ := .ok (w, true)
  distributeCards5 w _ _ := (true, w)
  infoSet _ := "3-0-0-0-0-0-0-0-0-0-0-0"
  findAgentNode _ _ _ _ := none
  depthLimitedSearch w _ := w
  toLookups := twoNodes
  boardCards w := w
  setBoardCards_twice _ _ := rfl

/-- Fourteen entries on the flop, so that the last one updates a range. -/
def fourteen : Request where
  uid := 7
  small_blind := 1
  big_blind := 2
  seat_info := [⟨6, false, 200, []⟩, ⟨7, false, 52, ["Kc", "Ac"]⟩]
  board_card := ["2d", "2c", "2s"]
  history := List.replicate 14 ⟨0, .follow, 1, 3, 100, 1⟩

/-- The game that it is replayed from. -/
def flopState : Ranged (List Card) := unshuffle boardTable.ranged ⟨[], [[], []]⟩ fourteen

/-- The update of the last entry. -/
def lastUpdate : RangeUpdate := ⟨"3-0-0-0-0-0-0-0-0-0-0-0", ["2d", "2c", "2s"], 1, some .call⟩

theorem range_fourteen : ∃ p range,
    replay headsUp boardTable.ranged fourteen fourteen.board_card flopState = .ok p ∧
      readAt p.world.handRanges 0 = .ok range ∧
      ("Ah-As", 1 / 20) ∈ range ∧ ("Kh-Ks", 1 / 40) ∈ range := by
  have hrun : (do
      let p ← replay headsUp boardTable.ranged fourteen fourteen.board_card flopState
      let range ← readAt p.world.handRanges 0
      Except.ok (decide (("Ah-As", 1 / 20) ∈ range ∧ ("Kh-Ks", 1 / 40) ∈ range))) =
        (.ok true : Checked Bool) := by
    decide +kernel
  obtain ⟨p, hp, hrun⟩ := bind_eq_ok.mp hrun
  obtain ⟨range, hrange, hrun⟩ := bind_eq_ok.mp hrun
  exact ⟨p, range, hp, hrange, of_decide_eq_true (Except.ok.inj hrun)⟩

theorem updates_fourteen :
    updates boardTable headsUp fourteen fourteen.board_card flopState 0 = [lastUpdate] := by
  decide +kernel

/-- Two aces are twice as likely to call as two kings, and twice as likely after the call. -/
theorem bayes_fourteen :
    (1 / 20 : Rat) * boardTable.likelihoods [lastUpdate] "Kh-Ks" =
      1 / 40 * boardTable.likelihoods [lastUpdate] "Ah-As" := by
  obtain ⟨p, range, hp, hrange, haces, hkings⟩ := range_fourteen
  have hans : boardTable.AnswersAll [lastUpdate] "Ah-As" :=
    List.forall_mem_singleton.mpr ⟨[("CALL", 1 / 2)], by decide +kernel⟩
  have kans : boardTable.AnswersAll [lastUpdate] "Kh-Ks" :=
    List.forall_mem_singleton.mpr ⟨[("FOLD", 3 / 4), ("CALL", 1 / 4)], by decide +kernel⟩
  rw [← updates_fourteen] at hans kans ⊢
  exact replay_bayes hp hrange haces hkings hans kans

end Holdem.Decide
