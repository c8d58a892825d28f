import Holdem.Decide.Ledger
import Holdem.Support.Distribution
import Mathlib.Algebra.BigOperators.Ring.List
import Mathlib.Algebra.Order.BigOperators.Group.List
import Mathlib.Algebra.Order.Field.Basic
import Mathlib.Algebra.Order.Ring.Rat
import Mathlib.Tactic.Linarith
import Mathlib.Tactic.NormNum

/-!
# Decide — Posterior

The range that an update leaves, in closed form.  Which hands are looked up is settled by the boards
alone (`Table.lookedUp`); the range afterwards is theirs, each with its weight after the lookup over
the mass of the action, as far as it is at least the default weight (`Lookups.posterior`).

* `updateHands_eq`: the update of a range leaves the posterior of the hands looked up.
* `posterior_ne_nil`: at most 1326 hands with a positive mass do not all fall below the default
  weight.
* `replay_prunes`: what every update along a replay leaves.
* `answered_distribution`: the answered hands are a probability distribution until the threshold is
  applied.
-/

namespace Holdem.Decide
open Support

variable {W : Type}

namespace Lookups

/-- The weight of a hand after its lookup; a lookup that fails leaves it as it is. -/
def revised (T : Lookups) (u : RangeUpdate) (x : String × Rat) : Rat :=
  match T.lookup u x.1 with
  | .ok (.ok strategy) => strategy.prob u.action * x.2
  | .ok (.error _)     => x.2
  | .error _           => x.2

/-- The weight that a hand has for the action. -/
def share (T : Lookups) (u : RangeUpdate) (x : String × Rat) : Rat := T.likelihood u x.1 * x.2

/-- The mass of the action over some hands. -/
def mass (T : Lookups) (u : RangeUpdate) (hands : HandRange) : Rat := (hands.map (T.share u)).sum

end Lookups

/-- A weight over the mass, unless that is zero. -/
def relative (mass weight : Rat) : Rat := if mass ≠ 0 then weight / mass else weight

namespace Lookups

/-- The hands with their weights after the lookup over the mass. -/
def weighed (T : Lookups) (u : RangeUpdate) (hands : HandRange) : HandRange :=
  hands.map fun x => (x.1, relative (T.mass u hands) (T.revised u x))

/-- Those of them that are not below the default weight. -/
def posterior (T : Lookups) (u : RangeUpdate) (hands : HandRange) : HandRange :=
  (T.weighed u hands).filter fun x => defaultProbs ≤ x.2

end Lookups

/-- The hands that an update looks up.  From the first one on, the board is that of the update. -/
def Table.lookedUp (T : Table W) (board : List Card) : W → HandRange → HandRange
  | _, []        => []
  | w, x :: rest =>
    if Collides (T.boardCards w) (T.split x.1) then T.lookedUp board w rest
    else x :: T.lookedUp board (T.setBoardCards w board) rest

/-! ### One hand -/

namespace Lookups
variable {T : Lookups} {u : RangeUpdate} {x : String × Rat}

theorem revised_of_answers (h : T.Answers u x.1) : T.revised u x = T.share u x := by
  obtain ⟨strategy, h⟩ := h
  simp only [revised, share, likelihood, h]

theorem share_of_not_answers (h : ¬ T.Answers u x.1) : T.share u x = 0 := by
  rcases hlook : T.lookup u x.1 with e | e | strategy
  · simp only [share, likelihood, hlook, zero_mul]
  · simp only [share, likelihood, hlook, zero_mul]
  · exact absurd ⟨strategy, hlook⟩ h

/-- Only an answered hand has a share in the mass. -/
theorem answers_of_share_ne_zero (h : T.share u x ≠ 0) : T.Answers u x.1 := by
  by_contra hno
  exact h (share_of_not_answers hno)

end Lookups

namespace Table
variable {T : Table W} {w : W} {round : Int} {action : Option Action} {board : List Card}

/-- A hand that avoids the board is looked up for the board of the round. -/
theorem scanHand_of_not_collides {t t' : Scan W} {hand : String} {weight weight' : Rat}
    (hround : Bounds round 4) (ht : T.Follows w round board t.state)
    (hno : ¬ Collides (T.boardCards t.state) (T.split hand))
    (h : T.scanHand round action board hand weight t = .ok (weight', t')) :
    weight' = T.revised (T.asks w round action board) (hand, weight) ∧
      t' = { t with
        state := T.setBoardCards t.state (boardAt round board)
        probA := t.probA + T.share (T.asks w round action board) (hand, weight) } := by
  rw [scanHand, if_neg hno] at h
  obtain ⟨cards, hcards, h⟩ := bind_eq_ok.mp h
  cases eq_boardAt hround hcards
  have hasks : T.asks w round action board =
      ⟨T.infoSet (T.setBoardCards t.state (boardAt round board)), boardAt round board, round,
        action⟩ := by
    rw [asks, show T.setBoardCards t.state _ = _ from ht]
  obtain ⟨res, hres, h⟩ := bind_eq_ok.mp h
  rw [← hasks] at hres
  cases res with
  | ok strategy =>
      cases h
      simp only [Lookups.revised, Lookups.share, Lookups.likelihood, hres]
      exact ⟨rfl, rfl⟩
  | error code =>
      cases h
      simp only [Lookups.revised, Lookups.share, Lookups.likelihood, hres, zero_mul, add_zero]
      exact ⟨trivial, trivial⟩

/-! ### The loop over the range -/

theorem lookedUp_sublist (T : Table W) (board : List Card) (w : W) (range : HandRange) :
    (T.lookedUp board w range).Sublist range := by
  induction range generalizing w with
  | nil => exact List.Sublist.refl _
  | cons x rest ih =>
      rw [lookedUp]
      split
      · exact (ih w).cons x
      · exact (ih _).cons_cons x

/-- What the loop does to a range of pairs: the hands that are dropped and those that are looked up
make up the range, and the latter have their weights after the lookup. -/
theorem scanHands_lookedUp {range range' : HandRange} {t t' : Scan W} (hround : Bounds round 4)
    (ht : T.Follows w round board t.state) (hpairs : ∀ x ∈ range, 2 = (T.split x.1).length)
    (h : T.scanHands round action board range t = .ok (range', t')) :
    ∃ dropped, t'.vRemoves = t.vRemoves ++ dropped ∧
      (dropped ++ (T.lookedUp (boardAt round board) t.state range).map Prod.fst).Perm
        (range.map Prod.fst) ∧
      t'.probA = t.probA + T.mass (T.asks w round action board)
        (T.lookedUp (boardAt round board) t.state range) ∧
      range'.map Prod.fst = range.map Prod.fst ∧
      ∀ names : List String, (∀ name ∈ dropped, name ∈ names) →
        (∀ x ∈ T.lookedUp (boardAt round board) t.state range, x.1 ∉ names) →
        range'.filter (fun x => x.1 ∉ names) =
          (T.lookedUp (boardAt round board) t.state range).map fun x =>
            (x.1, T.revised (T.asks w round action board) x) := by
  induction range generalizing range' t with
  | nil =>
      cases h
      exact ⟨[], (List.append_nil _).symm, List.Perm.refl _, (add_zero _).symm, rfl,
        fun _ _ _ => rfl⟩
  | cons x rest ih =>
      obtain ⟨hpair, hpairs⟩ := List.forall_mem_cons.mp hpairs
      obtain ⟨weight, t₁, rest', hhand, hrest, rfl⟩ := scanHands_cons_eq_ok hpair h
      by_cases hx : Collides (T.boardCards t.state) (T.split x.1)
      · -- the hand is dropped
        rw [scanHand_of_collides hx] at hhand
        cases hhand
        obtain ⟨dropped, hremoves, hperm, hprob, hkeys, hfilter⟩ :=
          ih (t := { t with vRemoves := t.vRemoves ++ [x.1] }) ht hpairs hrest
        have hlook : T.lookedUp (boardAt round board) t.state (x :: rest) =
            T.lookedUp (boardAt round board) t.state rest := by rw [lookedUp, if_pos hx]
        rw [hlook]
        refine ⟨x.1 :: dropped, ?_, hperm.cons x.1, hprob, by simp only [List.map_cons, hkeys],
          fun names hdropped hlooked => ?_⟩
        · exact hremoves.trans (List.append_assoc _ _ _)
        · obtain ⟨hin, hdropped⟩ := List.forall_mem_cons.mp hdropped
          rw [List.filter_cons_of_neg (by simp [hin])]
          exact hfilter names hdropped hlooked
      · -- the hand is looked up, and the board is that of the update from here on
        obtain ⟨rfl, rfl⟩ := scanHand_of_not_collides hround ht hx hhand
        have ht₁ : T.Follows w round board (T.setBoardCards t.state (boardAt round board)) :=
          (T.setBoardCards_twice _ _).trans ht
        obtain ⟨dropped, hremoves, hperm, hprob, hkeys, hfilter⟩ := ih ht₁ hpairs hrest
        have hlook : T.lookedUp (boardAt round board) t.state (x :: rest) = x ::
            T.lookedUp (boardAt round board) (T.setBoardCards t.state (boardAt round board))
              rest := by rw [lookedUp, if_neg hx]
        rw [hlook]
        refine ⟨dropped, hremoves, ?_, ?_, by simp only [List.map_cons, hkeys],
          fun names hdropped hlooked => ?_⟩
        · exact List.perm_middle.trans (hperm.cons x.1)
        · rw [hprob, add_assoc]
          rfl
        · obtain ⟨hout, hlooked⟩ := List.forall_mem_cons.mp hlooked
          rw [List.filter_cons_of_pos (by simp [hout]), hfilter names hdropped hlooked]
          rfl

end Table

/-! ### The division and the threshold -/

theorem normalise_eq (probA : Rat) (range : HandRange) :
    normalise probA range = range.map fun x => (x.1, relative probA x.2) := rfl

/-- In a range of different hands, pruning drops the hands to remove and those below the default
weight. -/
theorem prune_eq {names : List String} {range : HandRange}
    (hkeys : (range.map Prod.fst).Nodup) :
    prune names range =
      (range.filter fun x => x.1 ∉ names).filter fun x => defaultProbs ≤ x.2 := by
  rw [prune, List.filter_filter]
  refine List.filter_congr fun x hx => ?_
  have hbelow : x.1 ∈ (range.filter fun y => y.2 < defaultProbs).map Prod.fst ↔
      x.2 < defaultProbs := by
    constructor
    · intro h
      obtain ⟨y, hy, hyx⟩ := List.mem_map.mp h
      obtain ⟨hmem, hlt⟩ := List.mem_filter.mp hy
      cases List.inj_on_of_nodup_map hkeys hmem hx hyx
      exact of_decide_eq_true hlt
    · intro h
      exact List.mem_map.mpr ⟨x, List.mem_filter.mpr ⟨hx, decide_eq_true h⟩, rfl⟩
  simp only [hbelow, not_or, not_lt, Bool.decide_and]
  exact Bool.and_comm _ _

theorem filter_normalise (names : List String) (probA : Rat) (range : HandRange) :
    (normalise probA range).filter (fun x => x.1 ∉ names) =
      normalise probA (range.filter fun x => x.1 ∉ names) := by
  rw [normalise_eq, List.filter_map]
  rfl

theorem keys_normalise (probA : Rat) (range : HandRange) :
    (normalise probA range).map Prod.fst = range.map Prod.fst := by
  rw [normalise_eq, List.map_map]
  rfl

namespace Table
variable {T : Table W} {w w' : W} {range range' : HandRange} {round : Int}
  {action : Option Action} {board : List Card} {valid : Bool}

theorem follows_refl (T : Table W) (w : W) (round : Int) (board : List Card) :
    T.Follows w round board w := rfl

/-- `probA` is the mass of the hands looked up. -/
theorem probA_eq {t : Scan W} (hround : Bounds round 4)
    (hpairs : ∀ x ∈ range, 2 = (T.split x.1).length)
    (h : T.scanHands round action board range ⟨w, [], 0, true⟩ = .ok (range', t)) :
    t.probA = T.mass (T.asks w round action board)
      (T.lookedUp (boardAt round board) w range) := by
  obtain ⟨_, -, -, hprob, -, -⟩ := scanHands_lookedUp hround (follows_refl T w _ _) hpairs h
  rw [hprob, zero_add]

/-- **The update in closed form.**  The update of a range of different pairs leaves the posterior of
the hands that it looks up. -/
theorem updateHands_eq (hround : Bounds round 4) (hpairs : ∀ x ∈ range, 2 = (T.split x.1).length)
    (hkeys : (range.map Prod.fst).Nodup)
    (h : T.updateHands w range round action board = .ok (w', range', valid)) :
    range' = T.posterior (T.asks w round action board)
      (T.lookedUp (boardAt round board) w range) := by
  obtain ⟨⟨scanned, t⟩, hscan, h⟩ := bind_eq_ok.mp h
  cases h
  obtain ⟨dropped, hremoves, hperm, -, hsame, hfilter⟩ :=
    scanHands_lookedUp hround (follows_refl T w _ _) hpairs hscan
  -- the hands are different, so that those looked up are not dropped
  have hapart := List.disjoint_of_nodup_append (hperm.nodup_iff.mpr hkeys)
  have hlooked := hfilter dropped (fun _ hin => hin) fun x hx hin =>
    hapart hin (List.mem_map_of_mem hx)
  have hnodup : ((normalise t.probA scanned).map Prod.fst).Nodup := by
    rwa [keys_normalise, hsame]
  have hweighed : normalise t.probA (scanned.filter fun x => x.1 ∉ dropped) =
      T.weighed (T.asks w round action board) (T.lookedUp (boardAt round board) w range) := by
    rw [hlooked, normalise_eq, List.map_map, probA_eq hround hpairs hscan]
    rfl
  rw [prune_eq hnodup, hremoves, List.nil_append, filter_normalise, hweighed]
  rfl

end Table

/-! ### Survival -/

namespace Lookups
variable {T : Lookups} {u : RangeUpdate} {hands : HandRange} {x y : String × Rat}

theorem mem_posterior : y ∈ T.posterior u hands ↔
    defaultProbs ≤ y.2 ∧ ∃ x ∈ hands, (x.1, relative (T.mass u hands) (T.revised u x)) = y := by
  rw [posterior, List.mem_filter, weighed, List.mem_map, decide_eq_true_iff]
  exact and_comm

/-- Of at most 1326 hands with a positive mass, one has its share of it. -/
theorem exists_share_ge (hlen : hands.length ≤ 1326) (hmass : 0 < T.mass u hands) :
    ∃ x ∈ hands, defaultProbs * T.mass u hands ≤ T.share u x := by
  have hne : hands ≠ [] := by
    rintro rfl
    exact absurd hmass (lt_irrefl 0)
  have hconst : (hands.map fun _ => defaultProbs * T.mass u hands).sum =
      hands.length * defaultProbs * T.mass u hands := by
    rw [List.map_const', List.sum_replicate, nsmul_eq_mul, mul_assoc]
  have hle : (hands.length : Rat) * defaultProbs ≤ 1 := by
    have : (hands.length : Rat) ≤ 1326 := by exact_mod_cast hlen
    rw [defaultProbs]
    linarith
  refine List.exists_le_of_sum_le hne (fun _ => defaultProbs * T.mass u hands) _ ?_
  rw [hconst]
  exact mul_le_of_le_one_left (le_of_lt hmass) hle

/-- **Survival.**  Of at most 1326 hands with a positive mass, an answered one is left. -/
theorem exists_survivor (hlen : hands.length ≤ 1326) (hmass : 0 < T.mass u hands) :
    ∃ x ∈ hands, 0 < T.share u x ∧
      (x.1, T.share u x / T.mass u hands) ∈ T.posterior u hands := by
  obtain ⟨x, hx, hle⟩ := exists_share_ge hlen hmass
  have hshare : 0 < T.share u x :=
    lt_of_lt_of_le (mul_pos (by rw [defaultProbs]; norm_num) hmass) hle
  have hanswers := answers_of_share_ne_zero (ne_of_gt hshare)
  refine ⟨x, hx, hshare, mem_posterior.mpr ⟨(le_div_iff₀ hmass).mpr hle, x, hx, ?_⟩⟩
  rw [revised_of_answers hanswers, relative, if_pos (ne_of_gt hmass)]

theorem posterior_ne_nil (hlen : hands.length ≤ 1326) (hmass : 0 < T.mass u hands) :
    T.posterior u hands ≠ [] := by
  obtain ⟨x, -, -, hmem⟩ := exists_survivor hlen hmass
  exact List.ne_nil_of_mem hmem

end Lookups

/-! ### Probabilities -/

/-- The weights are probabilities, and sum to 1. -/
structure HandRange.IsDistribution (range : HandRange) : Prop where
  weights : ∀ x ∈ range, 0 ≤ x.2 ∧ x.2 ≤ 1
  sum : (range.map Prod.snd).sum = 1

instance (range : HandRange) : Decidable range.IsDistribution :=
  decidable_of_iff ((∀ x ∈ range, 0 ≤ x.2 ∧ x.2 ≤ 1) ∧ (range.map Prod.snd).sum = 1)
    ⟨fun h => ⟨h.1, h.2⟩, fun h => ⟨h.weights, h.sum⟩⟩

namespace Lookups
variable {T : Lookups} {u : RangeUpdate} {hands : HandRange}

instance (T : Lookups) (u : RangeUpdate) (hand : String) : Decidable (T.Answers u hand) :=
  match h : T.lookup u hand with
  | .ok (.ok strategy) => isTrue ⟨strategy, h⟩
  | .ok (.error _)     => isFalse fun ⟨_, hans⟩ => nomatch h.symm.trans hans
  | .error _           => isFalse fun ⟨_, hans⟩ => nomatch h.symm.trans hans

/-- The hands with an answer, with their shares of the mass. -/
def answered (T : Lookups) (u : RangeUpdate) (hands : HandRange) : HandRange :=
  (hands.filter fun x => T.Answers u x.1).map fun x => (x.1, T.share u x / T.mass u hands)

/-- The answered hands are those looked up that have an answer, each with its share of the mass. -/
theorem mem_answered_iff {x : String × Rat} : x ∈ T.answered u hands ↔
    T.Answers u x.1 ∧ ∃ weight, (x.1, weight) ∈ hands ∧
      x.2 = weight * T.likelihood u x.1 / T.mass u hands := by
  rw [answered, List.mem_map]
  constructor
  · rintro ⟨y, hy, rfl⟩
    obtain ⟨hmem, hans⟩ := List.mem_filter.mp hy
    exact ⟨of_decide_eq_true hans, y.2, hmem, by rw [share, mul_comm]⟩
  · rintro ⟨hans, weight, hmem, hx⟩
    refine ⟨(x.1, weight), List.mem_filter.mpr ⟨hmem, decide_eq_true hans⟩, ?_⟩
    exact Prod.ext rfl (by rw [hx, share, mul_comm])

/-- A hand without an answer does not count in the mass. -/
theorem mass_filter_answers (T : Lookups) (u : RangeUpdate) (hands : HandRange) :
    T.mass u (hands.filter fun x => T.Answers u x.1) = T.mass u hands := by
  induction hands with
  | nil => rfl
  | cons x hands ih =>
      have hcons : ∀ hands, T.mass u (x :: hands) = T.share u x + T.mass u hands :=
        fun _ => List.sum_cons
      by_cases hx : T.Answers u x.1
      · rw [List.filter_cons_of_pos (by simp [hx]), hcons, hcons, ih]
      · rw [List.filter_cons_of_neg (by simp [hx]), hcons, ih, share_of_not_answers hx, zero_add]

theorem answered_isDistribution (hmass : 0 < T.mass u hands)
    (hshares : ∀ x ∈ hands, 0 ≤ T.share u x) : (T.answered u hands).IsDistribution := by
  have hsum : ((hands.filter fun x => T.Answers u x.1).map (T.share u)).sum = T.mass u hands :=
    T.mass_filter_answers u hands
  have hweights : (T.answered u hands).map Prod.snd =
      shares ((hands.filter fun x => T.Answers u x.1).map (T.share u)) := by
    rw [shares, hsum, List.map_map, answered, List.map_map]
    rfl
  have hdist : IsDistribution ((T.answered u hands).map Prod.snd) := by
    rw [hweights]
    refine .shares (fun y hy => ?_) (hsum ▸ ne_of_gt hmass)
    obtain ⟨x, hx, rfl⟩ := List.mem_map.mp hy
    exact hshares x (List.mem_of_mem_filter hx)
  refine ⟨fun x hx => ?_, hdist.sum⟩
  have hmem : x.2 ∈ (T.answered u hands).map Prod.snd := List.mem_map_of_mem hx
  exact ⟨hdist.nonneg _ hmem, hdist.le_one hmem⟩

/-- Of the answered hands, those are left that are not below the default weight. -/
theorem mem_posterior_of_answers {y : String × Rat} (hmass : 0 < T.mass u hands)
    (hy : T.Answers u y.1) :
    y ∈ T.posterior u hands ↔ y ∈ T.answered u hands ∧ defaultProbs ≤ y.2 := by
  rw [mem_posterior, and_comm, answered, List.mem_map]
  refine and_congr_left fun _ => ⟨?_, ?_⟩
  · rintro ⟨x, hx, rfl⟩
    refine ⟨x, List.mem_filter.mpr ⟨hx, decide_eq_true hy⟩, ?_⟩
    rw [revised_of_answers (x := x) hy, relative, if_pos (ne_of_gt hmass)]
  · rintro ⟨x, hx, rfl⟩
    refine ⟨x, List.mem_of_mem_filter hx, ?_⟩
    rw [revised_of_answers (x := x) hy, relative, if_pos (ne_of_gt hmass)]

end Lookups

/-- **What an update leaves is a distribution up to the threshold.**  Where `probA` is positive, the
answered hands, each with its weight times the probability of the action over `probA`, are a
probability distribution, and of these hands those are left, with these weights, that are not below
the default weight. -/
theorem answered_distribution {T : Table W} {w w' : W} {range range' scanned : HandRange}
    {round : Int} {action : Option Action} {board : List Card} {valid : Bool} {t : Scan W}
    (hround : Bounds round 4) (hpairs : ∀ x ∈ range, 2 = (T.split x.1).length)
    (hkeys : (range.map Prod.fst).Nodup) (hweights : ∀ x ∈ range, 0 ≤ x.2)
    (hlook : ∀ x ∈ range, 0 ≤ T.likelihood (T.asks w round action board) x.1)
    (hscan : T.scanHands round action board range ⟨w, [], 0, true⟩ = .ok (scanned, t))
    (hprob : 0 < t.probA)
    (h : T.updateHands w range round action board = .ok (w', range', valid)) :
    let u := T.asks w round action board
    let hands := T.lookedUp (boardAt round board) w range
    (T.answered u hands).IsDistribution ∧ ((T.answered u hands).map Prod.fst).Nodup ∧
      (∀ x, x ∈ T.answered u hands ↔ T.Answers u x.1 ∧
        ∃ weight, (x.1, weight) ∈ hands ∧ x.2 = weight * T.likelihood u x.1 / t.probA) ∧
      ∀ x, T.Answers u x.1 → (x ∈ range' ↔ x ∈ T.answered u hands ∧ defaultProbs ≤ x.2) := by
  intro u hands
  obtain rfl := Table.updateHands_eq hround hpairs hkeys h
  have hmass : t.probA = T.mass u hands := Table.probA_eq hround hpairs hscan
  rw [hmass] at hprob ⊢
  have hsub : hands.Sublist range := T.lookedUp_sublist (boardAt round board) w range
  refine ⟨Lookups.answered_isDistribution hprob fun x hx => ?_, ?_,
    fun x => Lookups.mem_answered_iff, fun x hx => Lookups.mem_posterior_of_answers hprob hx⟩
  · exact mul_nonneg (hlook x (hsub.subset hx)) (hweights x (hsub.subset hx))
  · rw [Lookups.answered, List.map_map]
    exact ((List.filter_sublist.trans hsub).map Prod.fst).nodup hkeys

/-- The update of a range on the flop, for a call. -/
def calledFlop (T : Table (List Card)) (range : HandRange) :
    Checked (List Card × HandRange × Bool) :=
  T.updateHands fourteen.board_card range 1 (some .call) fourteen.board_card

/-- Its first loop. -/
def scannedFlop (T : Table (List Card)) (range : HandRange) :
    Checked (HandRange × Scan (List Card)) :=
  T.scanHands 1 (some .call) fourteen.board_card range ⟨fourteen.board_card, [], 0, true⟩

/-- Aces and kings, equally likely. -/
def evenRange : HandRange := [("Ah-As", 1 / 2), ("Kh-Ks", 1 / 2)]

theorem asks_flop : boardTable.asks fourteen.board_card 1 (some .call) fourteen.board_card =
    lastUpdate := by
  decide +kernel

theorem pairs_evenRange : ∀ x ∈ evenRange, 2 = (boardTable.split x.1).length := by
  decide +kernel

theorem distribution_evenRange : ∃ w' range' valid,
    calledFlop boardTable evenRange = .ok (w', range', valid) ∧
      let hands := boardTable.lookedUp (boardAt 1 fourteen.board_card) fourteen.board_card evenRange
      (boardTable.answered lastUpdate hands).IsDistribution ∧
        ∀ x, boardTable.Answers lastUpdate x.1 →
          (x ∈ range' ↔ x ∈ boardTable.answered lastUpdate hands ∧ defaultProbs ≤ x.2) := by
  have hrun : (do
      let (_, t) ← scannedFlop boardTable evenRange
      let _ ← calledFlop boardTable evenRange
      .ok (decide (0 < t.probA))) = (.ok true : Checked Bool) := by
    decide +kernel
  obtain ⟨⟨scanned, t⟩, hscan, hrun⟩ := bind_eq_ok.mp hrun
  obtain ⟨⟨w', range', valid⟩, h, hrun⟩ := bind_eq_ok.mp hrun
  have hprob : 0 < t.probA := of_decide_eq_true (Except.ok.inj hrun)
  have hkeys : (evenRange.map Prod.fst).Nodup := by decide
  have hweights : ∀ x ∈ evenRange, 0 ≤ x.2 := by decide +kernel
  have hlook : ∀ x ∈ evenRange, 0 ≤ boardTable.likelihood lastUpdate x.1 := by decide +kernel
  rw [← asks_flop] at hlook
  obtain ⟨hdist, -, -, hleft⟩ := answered_distribution (by decide) pairs_evenRange hkeys
    hweights hlook hscan hprob h
  rw [asks_flop] at hdist hleft
  exact ⟨w', range', valid, h, hdist, hleft⟩

/-- A table without nodes for kings. -/
def acesTable : Table (List Card) :=
  { boardTable with
    averageStrategy := fun _ _ infoSet =>
      if infoSet = "3-0-0-0-0-1-0-0-0-0-0-0" then some [("CALL", 1 / 2)] else none }

/-- `probA` is positive, and the weights that are left are no distribution. -/
def Skewed (T : Table (List Card)) (range : HandRange) : Prop :=
  ∃ scanned t w' range' valid, scannedFlop T range = .ok (scanned, t) ∧ 0 < t.probA ∧
    calledFlop T range = .ok (w', range', valid) ∧ ¬ range'.IsDistribution

theorem skewed_of_run {T : Table (List Card)} {range : HandRange}
    (h : (do
      let (_, t) ← scannedFlop T range
      let (_, range', _) ← calledFlop T range
      .ok (decide (0 < t.probA ∧ ¬ range'.IsDistribution))) = (.ok true : Checked Bool)) :
    Skewed T range := by
  obtain ⟨⟨scanned, t⟩, hscan, h⟩ := bind_eq_ok.mp h
  obtain ⟨⟨w', range', valid⟩, hupdate, h⟩ := bind_eq_ok.mp h
  obtain ⟨hprob, hno⟩ := of_decide_eq_true (Except.ok.inj h)
  exact ⟨scanned, t, w', range', valid, hscan, hprob, hupdate, hno⟩

/-- The weight of kings is lost where it falls below the threshold, and comes to 200 where their
lookup fails. -/
theorem skewed_flop : Skewed boardTable [("Ah-As", 1), ("Kh-Ks", 1 / 2000)] ∧
    Skewed acesTable [("Ah-As", 1 / 100), ("Kh-Ks", 1)] :=
  ⟨skewed_of_run (by decide +kernel), skewed_of_run (by decide +kernel)⟩

/-- What an update leaves of a range: no weight below the default one, no hand that was not there,
and not nothing, if there were at most 1326 hands and `probA` was found to be positive. -/
structure Prunes (T : Table W) (w : W) (round : Int) (action : Option Action) (board : List Card)
    (range range' : HandRange) : Prop where
  weights : ∀ x ∈ range', defaultProbs ≤ x.2
  hands : ∀ x ∈ range', x.1 ∈ range.map Prod.fst
  survives : ∀ scanned t,
    T.scanHands round action board range ⟨w, [], 0, true⟩ = .ok (scanned, t) →
      range.length ≤ 1326 → 0 < t.probA → range' ≠ []

variable {T : Table W} {C : Configure} {r : Request} {board : List Card}

theorem Table.updateHands_prunes {w w' : W} {range range' : HandRange} {round : Int}
    {action : Option Action} {valid : Bool} (hround : Bounds round 4)
    (hpairs : ∀ x ∈ range, 2 = (T.split x.1).length) (hkeys : (range.map Prod.fst).Nodup)
    (h : T.updateHands w range round action board = .ok (w', range', valid)) :
    Prunes T w round action board range range' := by
  obtain rfl := Table.updateHands_eq hround hpairs hkeys h
  have hsub := T.lookedUp_sublist (boardAt round board) w range
  refine ⟨fun x hx => (Lookups.mem_posterior.mp hx).1, fun x hx => ?_,
    fun scanned t hscan hlen hprob => ?_⟩
  · obtain ⟨-, y, hy, rfl⟩ := Lookups.mem_posterior.mp hx
    exact List.mem_map.mpr ⟨y, hsub.subset hy, rfl⟩
  · rw [Table.probA_eq hround hpairs hscan] at hprob
    exact Lookups.posterior_ne_nil (hsub.length_le.trans hlen) hprob

/-! ### The replay -/

/-- Every range is of different hands. -/
def Ranged.Distinct (s : Ranged W) : Prop := ∀ range ∈ s.handRanges, (range.map Prod.fst).Nodup

/-- The update of a range leaves different hands. -/
theorem nodup_updateHands {w w' : W} {range range' : HandRange} {round : Int}
    {action : Option Action} {valid : Bool} (hround : Bounds round 4)
    (hpairs : ∀ x ∈ range, 2 = (T.split x.1).length) (hkeys : (range.map Prod.fst).Nodup)
    (h : T.updateHands w range round action board = .ok (w', range', valid)) :
    (range'.map Prod.fst).Nodup := by
  obtain rfl := Table.updateHands_eq hround hpairs hkeys h
  have hlooked := (T.lookedUp_sublist (boardAt round board) w range).map Prod.fst
  have hposterior := (List.filter_sublist (p := fun x : String × Rat => defaultProbs ≤ x.2)
    (l := T.weighed (T.asks w round action board)
      (T.lookedUp (boardAt round board) w range))).map Prod.fst
  have hfst : (T.weighed (T.asks w round action board)
      (T.lookedUp (boardAt round board) w range)).map Prod.fst =
      (T.lookedUp (boardAt round board) w range).map Prod.fst := by
    rw [Lookups.weighed, List.map_map]
    rfl
  rw [hfst] at hposterior
  exact (hposterior.trans hlooked).nodup hkeys

/-- The update of the range for an entry, if it has one, prunes it. -/
def PrunesAt (T : Table W) (C : Configure) (r : Request) (board : List Card)
    (x : Nat × Replay (Ranged W)) (his : HistoryLine) : Prop :=
  ∀ y u, goesOn (turn C T.ranged r board) x his = some y →
    rangeUpdate T C r board (r.newPos C his.pos) x.1 his x.2 = some u →
      ∃ range range' action,
        readAt x.2.world.handRanges (r.newPos C his.pos) = .ok range ∧
        readAt y.2.world.handRanges (r.newPos C his.pos) = .ok range' ∧
        u = T.asks x.2.world.state his.round action board ∧
        Prunes T x.2.world.state his.round action board range range'

/-- What the replay keeps for its updates: the ranges are of different hands among those they start
with. -/
structure Orderly (T : Table W) (C : Configure) (p : Replay (Ranged W)) : Prop where
  shaped : p.accounts.Shaped C.mNumPlayers
  keyed : p.world.Keyed T.toLookups
  distinct : p.world.Distinct

namespace Orderly
variable {i : Nat} {his : HistoryLine} {p p' : Replay (Ranged W)} {range : HandRange}

theorem pairs (hp : Orderly T C p) (h : range ∈ p.world.handRanges) :
    ∀ x ∈ range, 2 = (T.split x.1).length :=
  fun x hx => Lookups.pair_of_mem (hp.keyed range h x hx)

theorem replayLine (hp : Orderly T C p)
    (h : replayLine C T.ranged r board i his p = .ok (p', true)) : Orderly T C p' := by
  refine ⟨Accounts.record_shaped hp.shaped (replayLine_accounts h),
    replayLine_keyed hp.shaped hp.keyed h, fun range' hrange' => ?_⟩
  obtain ⟨player, hread⟩ := exists_readAt_of_mem hrange'
  rcases replayLine_ranges h hread with ⟨-, hsame⟩ | ⟨_, range, _, _, -, hrange, hhands⟩
  · exact hp.distinct range' (mem_of_readAt hsame)
  · exact nodup_updateHands (bounds_of_record hp.shaped (replayLine_accounts h))
      (hp.pairs (mem_of_readAt hrange)) (hp.distinct range (mem_of_readAt hrange)) hhands

theorem unshuffle {accounts : Accounts} (w : Ranged W)
    (hseat : Accounts.seatFrom C r 0 r.seat_info (.start C.mNumPlayers) = .ok accounts) :
    Orderly T C (begins accounts (unshuffle T.ranged w r)).2 := by
  refine ⟨(seatFrom_settles hseat).1, unshuffle_keyed w, fun range hrange => ?_⟩
  rw [eq_of_mem_unshuffle hrange, Lookups.cloneHandProbs, List.map_map]
  exact (List.map_id T.mProbs).symm ▸ T.nodup_mProbs

end Orderly

/-- A turn that updates a range prunes it. -/
theorem prunesAt_of_orderly {x : Nat × Replay (Ranged W)} {his : HistoryLine}
    (hp : Orderly T C x.2) : PrunesAt T C r board x his := by
  intro y u hy hu
  obtain ⟨-, hline⟩ := goesOn_turn hy
  have hround := bounds_of_record hp.shaped (replayLine_accounts hline)
  have hi : (x.1 : Int) > bbPos := by
    by_contra hi
    rw [rangeUpdate_of_blind hi] at hu
    cases hu
  obtain ⟨action, w, valid, hread, hupdate, hranges⟩ := replayLine_handRanges hi hline
  rw [rangeUpdate_of_read hread] at hu
  by_cases hU : UpdatesRange C r x.1 (r.newPos C his.pos) action
  · rw [if_pos ⟨rfl, hU⟩] at hu
    rw [updateRange, if_pos hU] at hupdate
    obtain ⟨range, state, range', hrange, hhands, hwrite⟩ := ranged_updateRange hupdate
    refine ⟨range, range', action, hrange, ?_, (Option.some.inj hu).symm, ?_⟩
    · rw [hranges]
      exact readAt_written hwrite
    · exact Table.updateHands_prunes hround (hp.pairs (mem_of_readAt hrange))
        (hp.distinct range (mem_of_readAt hrange)) hhands
  · rw [if_neg fun h => hU h.2] at hu
    cases hu

/-- **Pruning.**  Along every replay every update of a range prunes it. -/
theorem replay_prunes {accounts : Accounts} (w : Ranged W)
    (hseat : Accounts.seatFrom C r 0 r.seat_info (.start C.mNumPlayers) = .ok accounts) :
    Guarded (goesOn (turn C T.ranged r board)) (PrunesAt T C r board)
      (begins accounts (unshuffle T.ranged w r)) r.history := by
  refine guarded_of_invariant (P := fun x => Orderly T C x.2)
    (fun x his hx => prunesAt_of_orderly hx) ?_ r.history (Orderly.unshuffle w hseat)
  intro x his y hx hy
  exact hx.replayLine (goesOn_turn hy).2

/-- The range of the caller is pruned by the last of the fourteen entries. -/
theorem prunes_fourteen : ∃ accounts, Accounts.seatFrom headsUp fourteen 0 fourteen.seat_info
      (.start headsUp.mNumPlayers) = .ok accounts ∧
    Guarded (goesOn (turn headsUp boardTable.ranged fourteen fourteen.board_card))
      (PrunesAt boardTable headsUp fourteen fourteen.board_card) (begins accounts flopState)
      fourteen.history := by
  obtain ⟨accounts, hseat⟩ : ∃ accounts, Accounts.seatFrom headsUp fourteen 0 fourteen.seat_info
      (.start headsUp.mNumPlayers) = .ok accounts := ⟨_, rfl⟩
  exact ⟨accounts, hseat, replay_prunes _ hseat⟩

end Holdem.Decide
