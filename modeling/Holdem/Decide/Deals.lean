import Holdem.Decide.Stack
import Holdem.Support.Runs

/-!
# Decide — Deals

The cards a decision is made on.  The deal before every lookup of the search takes its board from
`testboardCards`, and its hands from `testhands` with a hand of `showlist` for player 0.  Both are
only ever set to constants, so that the cards of a request are in no deal.

* `Cards.Kept`: the cards of a session are not set yet, or are the constants.
* `own_cards_iff_guarded`: the decisions of a run are all made on the requests' own cards exactly
  when every request that the search answers holds the constants itself (`HoldsTestCards`).
* `dealt_other_cards`: a request that is answered on cards it does not hold.
-/

namespace Holdem.Decide
open Support

variable {W : Type}

/-- A request that is answered from a lookup. -/
structure Served where
  request : Request
  lookup : Lookup

/-- The deal before the lookup gives the robot the hole cards of the request, and uses the board
cards of the request. -/
def Served.Own (C : Configure) (x : Served) : Prop :=
  ((x.lookup.hands (x.request.turnIndex C)).getD []).Perm x.request.holeCards ∧
    x.lookup.board = x.request.board_card

instance (C : Configure) (x : Served) : Decidable (x.Own C) := inferInstanceAs (Decidable (_ ∧ _))

/-- A session with the world around it, and the requests answered from a lookup so far. -/
structure Server (W : Type) where
  cards : Cards
  world : W
  log : List Served

/-- A fresh session. -/
def Server.fresh (w : W) : Server W := ⟨.fresh, w, []⟩

/-- The entry that the answer to a request leaves in the log. -/
def logged (r : Request) : Outcome Decision → List Served
  | .reached ⟨_, some lookup⟩ => [⟨r, lookup⟩]
  | _                         => []

/-- A request is handled. -/
def serve (C : Configure) (E : Engine W) (σ : Server W) (r : Request) : Option (Server W) :=
  match handleRobotDecide2 C E σ.cards σ.world r with
  | .error _      => none
  | .ok (s, w, o) => some ⟨s, w, σ.log ++ logged r o⟩

/-- The last of the hands whose lookup finds a node, unless a deal fails. -/
def lastFound (E : Engine W) (round : Nat) (stage : Int) (s : Cards) :
    List (List Card) → W → Option (List Card) → Option (List Card)
  | [], _, found           => found
  | hand :: rest, w, found =>
    match E.distributeCards5 w (s.testhands.put 0 hand) s.testboardCards with
    | (false, _) => none
    | (true, w)  =>
      match E.findAgentNode w round stage (E.infoSet w) with
      | none   => lastFound E round stage s rest w found
      | some _ => lastFound E round stage s rest w (some hand)

/-- The hand of `showlist` whose lookup the search uses. -/
def searchedHand (C : Configure) (E : Engine W) (q : Ready) (s : Cards) (w : W) :
    Option (List Card) :=
  if q.Searches C then lastFound E q.round (stageOf q.infoSet) s showlist (research E q w) none
  else none

/-- The hand of `showlist` that the search answers the request for. -/
def shownHand (C : Configure) (E : Engine W) (σ : Server W) (r : Request) : Option (List Card) :=
  match restore C E σ.cards σ.world r with
  | .ok (s, w, .reached q) => searchedHand C E q s w
  | _                      => none

/-- The request's board is `testBoard`, and its robot is player 0 with this hand, or player 1 with
the hand that player 1 is always dealt. -/
def HoldsTestCards (C : Configure) (r : Request) (hand : List Card) : Prop :=
  (r.turnIndex C = 0 ∧ hand.Perm r.holeCards ∨
    r.turnIndex C = 1 ∧ ["Kc", "Ac"].Perm r.holeCards) ∧ Cards.testBoard = r.board_card

instance (C : Configure) (r : Request) (hand : List Card) : Decidable (HoldsTestCards C r hand) :=
  inferInstanceAs (Decidable (_ ∧ _))

/-- If the search answers the request, the request holds the test cards. -/
def AsksTestCards (C : Configure) (E : Engine W) (σ : Server W) (r : Request) : Prop :=
  ∀ hand ∈ shownHand C E σ r, HoldsTestCards C r hand

instance (C : Configure) (E : Engine W) (σ : Server W) (r : Request) :
    Decidable (AsksTestCards C E σ r) :=
  match h : shownHand C E σ r with
  | none      => isTrue (by simp [AsksTestCards, h])
  | some hand => decidable_of_iff (HoldsTestCards C r hand) (by simp [AsksTestCards, h])

/-! ### The cards of a session -/

namespace Hands

theorem get_fst (hands : Hands) (k : Int) : (hands.get k).1 = (hands k).getD [] := by
  unfold get
  split
  · next cards h => simp [h]
  · next h => simp [h]

/-- Reading puts nothing but empty hands. -/
theorem get_snd (hands : Hands) (k i : Int) :
    ((hands.get k).2 i).getD [] = (hands i).getD [] := by
  unfold get
  split
  · rfl
  · next h =>
      by_cases hi : i = k
      · subst hi
        simp [h]
      · exact congrArg (Option.getD · []) (put_of_ne _ _ hi)

end Hands

namespace Cards

/-- The cards are set: the board and the hand of player 1 are the constants, and nobody but the
players 0 and 1 has cards. -/
structure Assigned (s : Cards) : Prop where
  board : s.testboardCards = testBoard
  other : (s.testhands 1).getD [] = ["Kc", "Ac"]
  rest : ∀ k, k ≠ 0 → k ≠ 1 → (s.testhands k).getD [] = []

/-- The cards are set, or player 0 has no hand yet. -/
def Kept (s : Cards) : Prop := s.Assigned ∨ (s.testhands 0).getD [] = []

theorem fresh_kept : fresh.Kept := .inr rfl

theorem Kept.begin {s : Cards} (hs : s.Kept) (r : Request) : (s.begin r).Kept := by
  unfold Cards.begin
  split
  · refine .inl ⟨rfl, rfl, fun k h0 h1 => ?_⟩
    dsimp only
    rw [Hands.put_of_ne _ _ h1, Hands.put_of_ne _ _ h0]
    rfl
  · exact hs

/-- What the hands are, up to empty ones, is all that matters. -/
theorem Kept.congr {s s' : Cards} (hs : s.Kept) (hboard : s'.testboardCards = s.testboardCards)
    (hhands : ∀ k, (s'.testhands k).getD [] = (s.testhands k).getD []) : s'.Kept := by
  rcases hs with ⟨hb, ho, hrest⟩ | hs
  · exact .inl ⟨hboard.trans hb, (hhands 1).trans ho,
      fun k h0 h1 => (hhands k).trans (hrest k h0 h1)⟩
  · exact .inr ((hhands 0).trans hs)

/-- Cards that are set stay so, whatever hand player 0 is given. -/
theorem Assigned.put {s : Cards} (hs : s.Assigned) (hand : List Card) :
    Assigned { s with testhands := s.testhands.put 0 hand } where
  board := hs.board
  other := by
    dsimp only
    rw [Hands.put_of_ne _ _ (by decide)]
    exact hs.other
  rest := fun k h0 h1 => by
    dsimp only
    rw [Hands.put_of_ne _ _ h0]
    exact hs.rest k h0 h1

end Cards

variable {C : Configure} {E : Engine W} {s s' : Cards} {w w' : W} {r : Request}

/-! ### What is kept up to the search -/

theorem deal_kept {o : Option (List Card)} (hs : s.Kept) (h : deal E s w = (o, s', w')) :
    s'.Kept ∧ ∀ holeCards ∈ o, 2 = holeCards.length → s'.Assigned := by
  unfold deal at h
  split at h
  · cases h
    exact ⟨hs, nofun⟩
  · cases h
    have hk : ∀ k, ((((s.testhands.get 0).2.get 1).2) k).getD [] = (s.testhands k).getD [] :=
      fun k => (Hands.get_snd _ 1 k).trans (Hands.get_snd _ 0 k)
    have hkept : Cards.Kept ⟨((s.testhands.get 0).2.get 1).2, s.testboardCards⟩ :=
      hs.congr rfl hk
    refine ⟨hkept, ?_⟩
    rintro holeCards ⟨⟩ hlen
    -- a hand of two cards for player 0 is there only once the cards are set
    rw [Hands.get_fst] at hlen
    rcases hkept with hset | hnone
    · exact hset
    · rw [← hk 0, hnone] at hlen
      cases hlen

theorem roundOf_length {holeCards : List Card} {n round : Nat}
    (h : roundOf holeCards n = some round) : 2 = holeCards.length := by
  unfold roundOf at h
  split at h
  · assumption
  · cases h

/-- The decision state is made without touching the cards. -/
theorem resume_cards {p : Replay W} {dealt : Option (List Card) × Cards × W} {o : Outcome Ready}
    (h : resume C E r p dealt = .ok (s', w', o)) : s' = dealt.2.1 := by
  obtain ⟨_ | holeCards, s, w⟩ := dealt
  · cases h; rfl
  · simp only [resume] at h
    split at h
    · cases h; rfl
    · obtain ⟨d, -, h⟩ := bind_eq_ok.mp h
      cases h
      rfl

/-- The cards after the checks and the replay; they are set when the choice is reached. -/
theorem restore_kept {o : Outcome Ready} (hs : s.Kept)
    (h : restore C E s w r = .ok (s', w', o)) : s'.Kept ∧ ∀ q, o = .reached q → s'.Assigned := by
  refine ⟨?_, ?_⟩
  · unfold restore at h
    split at h
    · split at h
      · cases h; exact hs
      · split at h
        · cases h; exact hs
        · obtain ⟨p, -, h⟩ := bind_eq_ok.mp h
          rw [resume_cards h]
          exact (deal_kept (hs.begin r) rfl).1
    · cases h; exact hs
  · rintro q rfl
    obtain ⟨-, -, w₀, p, holeCards, -, -, hdeal, hround, -⟩ := restore_reached h
    exact (deal_kept (hs.begin r) hdeal).2 holeCards rfl (roundOf_length hround)

/-! ### The lookups -/

/-- The deal for a hand of `showlist`. -/
def dealt (s : Cards) (hand : List Card) : Hands × List Card :=
  (s.testhands.put 0 hand, s.testboardCards)

/-- The deal before a lookup. -/
def Lookup.deal (l : Lookup) : Hands × List Card := (l.hands, l.board)

theorem lastFound_put (E : Engine W) (round : Nat) (stage : Int) (s : Cards) (hand : List Card)
    (hands : List (List Card)) (w : W) (found : Option (List Card)) :
    lastFound E round stage { s with testhands := s.testhands.put 0 hand } hands w found =
      lastFound E round stage s hands w found := by
  induction hands generalizing w found with
  | nil => rfl
  | cons next rest ih =>
      simp only [lastFound, Hands.put_put]
      split
      · rfl
      · split
        · exact ih _ _
        · exact ih _ _

/-- The loop over hands keeps set cards set, and its lookup is the one for the hand found last. -/
theorem showFrom_spec {round : Nat} {stage : Int} {hands : List (List Card)}
    {found : Option Lookup} {o : Outcome (Option Lookup)} (shown : Option (List Card))
    (hs : s.Assigned) (hfound : found.map Lookup.deal = shown.map (dealt s))
    (h : showFrom E round stage hands s w found = (s', w', o)) :
    s'.Assigned ∧ (o = .refused ∧ lastFound E round stage s hands w shown = none ∨
      ∃ found', o = .reached found' ∧
        found'.map Lookup.deal = (lastFound E round stage s hands w shown).map (dealt s)) := by
  -- every turn puts a hand for player 0 over the one before, so the deals are those from `s`
  induction hands generalizing s w found shown with
  | nil =>
      cases h
      exact ⟨hs, .inr ⟨found, rfl, hfound⟩⟩
  | cons hand rest ih =>
      have hput := hs.put hand
      have hdealt : dealt { s with testhands := s.testhands.put 0 hand } = dealt s := by
        funext hand'
        simp only [dealt, Hands.put_put]
      rcases hdeal : E.distributeCards5 w (s.testhands.put 0 hand) s.testboardCards
        with ⟨_ | _, w₁⟩
      · simp only [showFrom, hdeal] at h
        cases h
        refine ⟨hput, .inl ⟨rfl, ?_⟩⟩
        simp only [lastFound, hdeal]
      · cases hnode : E.findAgentNode w₁ round stage (E.infoSet w₁) with
        | none =>
            simp only [showFrom, hdeal, hnode] at h
            simp only [lastFound, hdeal, hnode]
            have := ih shown hput (by rw [hdealt]; exact hfound) h
            rwa [lastFound_put, hdealt] at this
        | some strategySum =>
            simp only [showFrom, hdeal, hnode] at h
            simp only [lastFound, hdeal, hnode]
            have := ih (some hand) hput (by rw [hdealt]; rfl) h
            rwa [lastFound_put, hdealt] at this

/-- The search keeps set cards set, and uses the lookup for the hand found last. -/
theorem search_spec {q : Ready} {o : Outcome (Option Lookup)} (hs : s.Assigned)
    (h : search C E q s w = (s', w', o)) :
    s'.Assigned ∧ (o = .refused ∧ searchedHand C E q s w = none ∨
      ∃ found, o = .reached found ∧
        found.map Lookup.deal = (searchedHand C E q s w).map (dealt s)) := by
  by_cases hq : q.Searches C
  · simp only [search, if_pos hq] at h
    simp only [searchedHand, if_pos hq]
    exact showFrom_spec none hs rfl h
  · simp only [search, if_neg hq] at h
    simp only [searchedHand, if_neg hq]
    cases h
    exact ⟨hs, .inr ⟨none, rfl, rfl⟩⟩

/-- With set cards, the deal for a hand is the request's own exactly when the request holds the test
cards. -/
theorem own_iff {lookup : Lookup} {hand : List Card} (hs : s.Assigned) (hr : r.Valid)
    (hl : lookup.deal = dealt s hand) :
    Served.Own C ⟨r, lookup⟩ ↔ HoldsTestCards C r hand := by
  obtain ⟨hhands, hboard⟩ := Prod.mk.inj hl
  simp only [Served.Own, HoldsTestCards, hhands, hboard, hs.board]
  refine and_congr_left fun _ => ?_
  by_cases h0 : r.turnIndex C = 0
  · simp [h0]
  · rw [Hands.put_of_ne _ _ h0]
    by_cases h1 : r.turnIndex C = 1
    · rw [h1, hs.other]
      simp
    · -- nobody else has cards, and the request has two
      rw [hs.rest _ h0 h1]
      refine iff_of_false (fun hperm => ?_) ?_
      · have hlen : 2 = r.holeCards.length := hr.2.2
        rw [← hperm.length_eq] at hlen
        cases hlen
      · rintro (⟨h, -⟩ | ⟨h, -⟩)
        · exact h0 h
        · exact h1 h

/-! ### Runs of requests -/

/-- A request that the search does not answer leaves the log as it is; one that it answers is dealt
its own cards exactly when it holds the test cards. -/
theorem serve_cases {σ σ' : Server W} (hs : σ.cards.Kept) (h : serve C E σ r = some σ') :
    σ'.cards.Kept ∧ (shownHand C E σ r = none ∧ σ'.log = σ.log ∨
      ∃ hand lookup, shownHand C E σ r = some hand ∧ σ'.log = σ.log ++ [⟨r, lookup⟩] ∧
        (Served.Own C ⟨r, lookup⟩ ↔ HoldsTestCards C r hand)) := by
  unfold serve at h
  split at h
  · cases h
  · next s₂ w₂ o hhandle =>
      cases h
      obtain ⟨⟨s₁, w₁, _ | _ | q⟩, hrestore, hsearch⟩ := bind_eq_ok.mp hhandle
      · cases hsearch
        exact ⟨(restore_kept hs hrestore).1, .inl ⟨by rw [shownHand, hrestore], by simp [logged]⟩⟩
      · cases hsearch
        exact ⟨(restore_kept hs hrestore).1, .inl ⟨by rw [shownHand, hrestore], by simp [logged]⟩⟩
      · have hset : s₁.Assigned := (restore_kept hs hrestore).2 q rfl
        have hshown : shownHand C E σ r = searchedHand C E q s₁ w₁ := by rw [shownHand, hrestore]
        rcases hq : search C E q s₁ w₁ with ⟨s₃, w₃, o₃⟩
        obtain ⟨hset₃, ⟨rfl, hnone⟩ | ⟨found, rfl, hfound⟩⟩ := search_spec hset hq
        · simp only [hq] at hsearch
          cases hsearch
          exact ⟨.inl hset₃, .inl ⟨hshown.trans hnone, by simp [logged]⟩⟩
        · simp only [hq] at hsearch
          cases hsearch
          refine ⟨.inl hset₃, ?_⟩
          rw [← hshown] at hfound
          cases found with
          | none => exact .inl ⟨Option.map_eq_none_iff.mp hfound.symm, by simp [logged]⟩
          | some lookup =>
              obtain ⟨hand, hhand, hdeal⟩ := Option.map_eq_some_iff.mp hfound.symm
              exact .inr ⟨hand, lookup, hhand, rfl,
                own_iff hset (restore_reached hrestore).1 hdeal.symm⟩

/-- **The cards of the decisions.**  A run of requests on a fresh session is decided on the
requests' own cards throughout exactly when every request that the search answers holds the test
cards. -/
theorem own_cards_iff_guarded {w : W} {rs : List Request} {σ : Server W}
    (h : run (serve C E) (.fresh w) rs = some σ) :
    (∀ x ∈ σ.log, x.Own C) ↔ Guarded (serve C E) (AsksTestCards C E) (.fresh w) rs := by
  refine run_iff_guarded (P := fun σ => σ.cards.Kept ∧ ∀ x ∈ σ.log, x.Own C)
    (Q := fun σ => ∀ x ∈ σ.log, x.Own C) (fun _ hσ => hσ.2) ?_ ?_ ?_
    ⟨Cards.fresh_kept, nofun⟩ h
  · rintro σ r σ' ⟨hkept, hown⟩ hasks hserve
    obtain ⟨hkept', ⟨-, hlog⟩ | ⟨hand, lookup, hshown, hlog, howniff⟩⟩ := serve_cases hkept hserve
    · exact ⟨hkept', hlog ▸ hown⟩
    · refine ⟨hkept', fun x hx => ?_⟩
      rw [hlog, List.mem_append, List.mem_singleton] at hx
      rcases hx with hx | rfl
      · exact hown x hx
      · exact howniff.mpr (hasks hand hshown)
  · rintro σ r σ' ⟨hkept, -⟩ hasks hserve hown
    obtain ⟨-, ⟨hshown, -⟩ | ⟨hand, lookup, hshown, hlog, howniff⟩⟩ := serve_cases hkept hserve
    · exact hasks fun hand hhand => by rw [hshown] at hhand; cases hhand
    · refine hasks fun hand' hhand' => ?_
      cases hshown.symm.trans hhand'
      exact howniff.mp (hown _ (by rw [hlog]; simp))
  · intro σ r σ' hnot hserve hown
    refine hnot fun x hx => hown x ?_
    unfold serve at hserve
    split at hserve
    · cases hserve
    · cases hserve
      exact List.mem_append_left _ hx

/-- The short stack with other cards, on another board. -/
def otherCards : Request :=
  { shortStack with
    seat_info := [⟨6, false, 200, []⟩, ⟨7, false, 52, ["Qh", "Qd"]⟩]
    board_card := ["3h", "5c", "9s", "Jd", "7h"] }

/-- It is answered on the test cards. -/
theorem dealt_other_cards : ∃ σ, run (serve headsUp plainEngine) (.fresh ()) [otherCards] = some σ ∧
    ¬ ∀ x ∈ σ.log, x.Own headsUp :=
  ⟨_, rfl, by decide⟩

/-- The short stack itself is answered on its own cards. -/
theorem dealt_own_cards : ∃ σ, run (serve headsUp plainEngine) (.fresh ()) [shortStack] = some σ ∧
    ∀ x ∈ σ.log, x.Own headsUp := by
  obtain ⟨σ, hσ⟩ : ∃ σ, run (serve headsUp plainEngine) (.fresh ()) [shortStack] = some σ :=
    ⟨_, rfl⟩
  exact ⟨σ, hσ, (own_cards_iff_guarded hσ).mpr (by decide)⟩

end Holdem.Decide
