import Holdem.Decide.Posterior
import Holdem.Support.Sweep

/-!
# Decide — Order

Whether an update of a range depends on the order that its hands are gone through in.  The test for
a collision reads the board that the step before left; the first hand that is looked up sets the
board of the round, and the hands behind it are tested against that one.  So the hands looked up are
a `sweep` of the range, and a hand on which the two boards disagree may be among them or not.

* `lookedUp_eq_sweep`: the hands looked up.
* `orderFree_iff`: an update is the same in every order exactly when the hands that waver leave no
  trace.
* `replay_proper`: the ranges that a replay updates are as `orderFree_iff` has them.
-/

namespace Holdem.Decide
open Support

variable {W : Type}

/-- The board of a game state is the one set. -/
def Table.ReadsBoard (T : Table W) : Prop :=
  ∀ w cards, T.boardCards (T.setBoardCards w cards) = cards

/-- A range as the replay has it: different pairs, no more than there are, no weight negative. -/
structure HandRange.Proper (T : Lookups) (range : HandRange) : Prop where
  pairs : ∀ x ∈ range, 2 = (T.split x.1).length
  keys : (range.map Prod.fst).Nodup
  length : range.length ≤ 1326
  weights : ∀ x ∈ range, 0 ≤ x.2

/-- The range that an update leaves has the same hands with the same weights, in whatever order the
hands are gone through. -/
def Table.OrderFree (T : Table W) (w : W) (range : HandRange) (round : Int)
    (action : Option Action) (board : List Card) : Prop :=
  ∀ range₁ range₂ w₁ w₂ range₁' range₂' valid₁ valid₂, range₁.Perm range → range₂.Perm range →
    T.updateHands w range₁ round action board = .ok (w₁, range₁', valid₁) →
    T.updateHands w range₂ round action board = .ok (w₂, range₂', valid₂) →
    range₁'.Perm range₂'

/-- The hand shares a card with the board. -/
def Lookups.Hits (T : Lookups) (board : List Card) (x : String × Rat) : Prop :=
  Collides board (T.split x.1)

instance (T : Lookups) (board : List Card) : DecidablePred (T.Hits board) :=
  fun _ => inferInstanceAs (Decidable (Collides _ _))

/-- The hand leaves no trace in the range, whatever else is looked up: it has no share of the mass
of the hands that are always looked up, and its weight over that mass is below the default one. -/
def Lookups.Traceless (T : Lookups) (u : RangeUpdate) (old : List Card) (range : HandRange)
    (x : String × Rat) : Prop :=
  T.share u x = 0 ∧
    relative (T.mass u (range.filter fun y => Fixed (T.Hits old) (T.Hits u.board) range y))
      (T.revised u x) < defaultProbs

/-! ### The hands looked up -/

namespace Table
variable {T : Table W}

theorem lookedUp_of_hits {board : List Card} {w : W} {x : String × Rat} {rest : HandRange}
    (h : T.Hits (T.boardCards w) x) :
    T.lookedUp board w (x :: rest) = T.lookedUp board w rest := if_pos h

theorem lookedUp_of_not_hits {board : List Card} {w : W} {x : String × Rat} {rest : HandRange}
    (h : ¬ T.Hits (T.boardCards w) x) :
    T.lookedUp board w (x :: rest) = x :: T.lookedUp board (T.setBoardCards w board) rest :=
  if_neg h

theorem lookedUp_set (hT : T.ReadsBoard) (board : List Card) (w : W) (range : HandRange) :
    T.lookedUp board (T.setBoardCards w board) range =
      range.filter fun x => ¬ T.Hits board x := by
  induction range with
  | nil => rfl
  | cons x rest ih =>
      by_cases hx : T.Hits board x
      · rw [lookedUp_of_hits (by rwa [hT]), ih, List.filter_cons_of_neg (by simp [hx])]
      · rw [lookedUp_of_not_hits (by rwa [hT]), T.setBoardCards_twice, ih,
          List.filter_cons_of_pos (by simp [hx])]

/-- The hands looked up are swept by the two boards. -/
theorem lookedUp_eq_sweep (hT : T.ReadsBoard) (board : List Card) (w : W) (range : HandRange) :
    T.lookedUp board w range = sweep (T.Hits (T.boardCards w)) (T.Hits board) range := by
  induction range with
  | nil => rfl
  | cons x rest ih =>
      by_cases hx : T.Hits (T.boardCards w) x
      · rw [lookedUp_of_hits hx, sweep_of_pos hx, ih]
      · rw [lookedUp_of_not_hits hx, sweep_of_neg hx, lookedUp_set hT]

end Table

/-! ### The posterior in any order -/

namespace Lookups
variable {T : Lookups} {u : RangeUpdate} {hands hands' : HandRange} {x : String × Rat}

theorem mass_perm (h : hands.Perm hands') : T.mass u hands = T.mass u hands' :=
  (h.map (T.share u)).sum_eq

theorem mass_cons (T : Lookups) (u : RangeUpdate) (x : String × Rat) (hands : HandRange) :
    T.mass u (x :: hands) = T.share u x + T.mass u hands := List.sum_cons

theorem mass_append (T : Lookups) (u : RangeUpdate) (hands hands' : HandRange) :
    T.mass u (hands ++ hands') = T.mass u hands + T.mass u hands' := by
  rw [mass, List.map_append, List.sum_append]
  rfl

theorem posterior_perm (h : hands.Perm hands') :
    (T.posterior u hands).Perm (T.posterior u hands') := by
  rw [posterior, posterior, weighed, weighed, mass_perm h]
  exact (h.map _).filter _

/-- Hands without a share and without enough weight may as well not be looked up. -/
theorem posterior_append_of_traceless {extra : HandRange} (hshare : ∀ x ∈ extra, T.share u x = 0)
    (hbelow : ∀ x ∈ extra, relative (T.mass u hands) (T.revised u x) < defaultProbs) :
    T.posterior u (hands ++ extra) = T.posterior u hands := by
  have hzero : T.mass u extra = 0 := by
    refine List.sum_eq_zero fun y hy => ?_
    obtain ⟨x, hx, rfl⟩ := List.mem_map.mp hy
    exact hshare x hx
  have hmass : T.mass u (hands ++ extra) = T.mass u hands := by
    rw [mass_append, hzero, add_zero]
  have hnone : (extra.map fun x => (x.1, relative (T.mass u hands) (T.revised u x))).filter
      (fun x => defaultProbs ≤ x.2) = [] := by
    refine List.filter_eq_nil_iff.mpr fun y hy => ?_
    obtain ⟨x, hx, rfl⟩ := List.mem_map.mp hy
    simpa using hbelow x hx
  rw [posterior, weighed, hmass, List.map_append, List.filter_append, hnone, List.append_nil]
  rfl

theorem share_nonneg {range : HandRange} (hrange : range.Proper T)
    (hlook : ∀ x ∈ range, 0 ≤ T.likelihood u x.1) (hx : x ∈ range) : 0 ≤ T.share u x :=
  mul_nonneg (hlook x hx) (hrange.weights x hx)

theorem share_le_mass {range : HandRange} (hrange : range.Proper T)
    (hlook : ∀ x ∈ range, 0 ≤ T.likelihood u x.1) (hsub : hands ⊆ range) (hx : x ∈ hands) :
    T.share u x ≤ T.mass u hands := by
  refine List.single_le_sum (fun z hz => ?_) _ (List.mem_map_of_mem hx)
  obtain ⟨y, hy, rfl⟩ := List.mem_map.mp hz
  exact share_nonneg hrange hlook (hsub hy)

/-- A hand that is left was looked up. -/
theorem mem_of_mem_posterior {range : HandRange} (hrange : range.Proper T) (hsub : hands ⊆ range)
    (hx : x ∈ range) {weight : Rat} (h : (x.1, weight) ∈ T.posterior u hands) :
    x ∈ hands ∧ weight = relative (T.mass u hands) (T.revised u x) := by
  obtain ⟨-, y, hy, heq⟩ := mem_posterior.mp h
  obtain ⟨hkey, hweight⟩ := Prod.mk.inj heq
  cases List.inj_on_of_nodup_map hrange.keys (hsub hy) hx hkey
  exact ⟨hy, hweight.symm⟩

end Lookups

/-! ### Hands that waver -/

/-- The posterior of the hands swept is the same in every order. -/
def SameSwept (T : Lookups) (u : RangeUpdate) (O N : String × Rat → Prop) [DecidablePred O]
    [DecidablePred N] (range : HandRange) : Prop :=
  ∀ ys zs, ys.Perm range → zs.Perm range →
    (T.posterior u (sweep O N ys)).Perm (T.posterior u (sweep O N zs))

section
variable {T : Lookups} {u : RangeUpdate} {O N : String × Rat → Prop} [DecidablePred O]
  [DecidablePred N] {range ys zs : HandRange} {x : String × Rat}

theorem sweep_subset (h : ys.Perm range) : sweep O N ys ⊆ range :=
  fun _ hx => h.subset ((sweep_sublist ys).subset hx)

theorem nodup_of_proper (h : range.Proper T) : range.Nodup := List.Nodup.of_map _ h.keys

/-- Of the hands swept in one order, one with a share is left, and so is swept in any other. -/
theorem exists_common (hrange : range.Proper T) (hlook : ∀ x ∈ range, 0 ≤ T.likelihood u x.1)
    (hsame : SameSwept T u O N range) (hys : ys.Perm range) (hzs : zs.Perm range)
    (hmass : 0 < T.mass u (sweep O N ys)) :
    ∃ y ∈ sweep O N ys, y ∈ sweep O N zs ∧ 0 < T.share u y ∧
      T.mass u (sweep O N ys) = T.mass u (sweep O N zs) := by
  have hlen : (sweep O N ys).length ≤ 1326 :=
    (sweep_sublist ys).length_le.trans (hys.length_eq ▸ hrange.length)
  obtain ⟨y, hy, hshare, hleft⟩ := Lookups.exists_survivor hlen hmass
  have hyr := sweep_subset hys hy
  obtain ⟨hyz, hweight⟩ := Lookups.mem_of_mem_posterior hrange (sweep_subset hzs) hyr
    ((hsame ys zs hys hzs).subset hleft)
  have hmass' : 0 < T.mass u (sweep O N zs) :=
    lt_of_lt_of_le hshare (Lookups.share_le_mass hrange hlook (sweep_subset hzs) hyz)
  refine ⟨y, hy, hyz, hshare, ?_⟩
  rw [Lookups.revised_of_answers (Lookups.answers_of_share_ne_zero (ne_of_gt hshare)), relative,
    if_pos (ne_of_gt hmass'), div_eq_div_iff (ne_of_gt hmass) (ne_of_gt hmass')] at hweight
  exact (mul_left_cancel₀ (ne_of_gt hshare) hweight).symm

/-- A hand that is swept in one order and, all others equal, not in another has no share. -/
theorem share_eq_zero_of_extra (hrange : range.Proper T)
    (hlook : ∀ x ∈ range, 0 ≤ T.likelihood u x.1) (hsame : SameSwept T u O N range)
    (hx : x ∈ range) (hys : ys.Perm range) (hzs : zs.Perm range)
    (hperm : (sweep O N ys).Perm (x :: sweep O N zs)) : T.share u x = 0 := by
  by_contra hne
  have hpos : 0 < T.share u x :=
    lt_of_le_of_ne (Lookups.share_nonneg hrange hlook hx) (Ne.symm hne)
  have hmass : 0 < T.mass u (sweep O N ys) := by
    refine lt_of_lt_of_le hpos (Lookups.share_le_mass hrange hlook (sweep_subset hys) ?_)
    exact hperm.mem_iff.mpr List.mem_cons_self
  obtain ⟨y, -, -, -, heq⟩ := exists_common hrange hlook hsame hys hzs hmass
  rw [Lookups.mass_perm hperm, Lookups.mass_cons, add_eq_right] at heq
  exact hne heq

/-- **No share.**  Where the posterior is the same in every order, no hand that wavers has a
share. -/
theorem share_eq_zero_of_wavers (hrange : range.Proper T)
    (hlook : ∀ x ∈ range, 0 ≤ T.likelihood u x.1) (hsame : SameSwept T u O N range)
    (hx : x ∈ range) (hw : Wavers O N range x) : T.share u x = 0 := by
  obtain ⟨ys, zs, hys, hzs, hperm | ⟨hall, z, rest, hne, hN, hrest, hyeq, hzeq⟩⟩ :=
    exists_orders hx hw
  · exact share_eq_zero_of_extra hrange hlook hsame hx hys hzs hperm
  · by_contra hshare
    have hpos : 0 < T.share u x :=
      lt_of_le_of_ne (Lookups.share_nonneg hrange hlook hx) (Ne.symm hshare)
    have hmem : x ∈ sweep O N ys := hyeq ▸ List.mem_cons_self
    have hmass : 0 < T.mass u (sweep O N ys) :=
      lt_of_lt_of_le hpos (Lookups.share_le_mass hrange hlook (sweep_subset hys) hmem)
    obtain ⟨y, hy, hyz, hyshare, -⟩ := exists_common hrange hlook hsame hys hzs hmass
    have hyr := sweep_subset hys hy
    -- what both orders keep passes `N`, so that it fails `O` here, and wavers too
    have hNy : ¬ N y := by
      rw [hyeq] at hy
      rw [hzeq] at hyz
      rcases List.mem_cons.mp hy with rfl | hy
      · rcases List.mem_cons.mp hyz with heq | hyz
        · exact absurd heq.symm hne
        · exact absurd hN (hrest y hyz)
      · exact hrest y hy
    have hOy : O y := by
      by_contra hO
      exact hNy (hall y hyr hO)
    have hwy : Wavers O N range y := ⟨hw.1, .inl ⟨hOy, hNy⟩⟩
    obtain ⟨ys', zs', hys', hzs', hperm | ⟨-, _, _, -, hN', -⟩⟩ := exists_orders hyr hwy
    · exact ne_of_gt hyshare (share_eq_zero_of_extra hrange hlook hsame hyr hys' hzs' hperm)
    · exact hNy hN'

/-- In any order, what is always swept is, and some hands that waver. -/
theorem exists_sweep_perm (hrange : range.Proper T) (hys : ys.Perm range) :
    ∃ extra, (sweep O N ys).Perm ((range.filter fun y => Fixed O N range y) ++ extra) ∧
      ∀ x ∈ extra, x ∈ range ∧ Wavers O N range x := by
  obtain ⟨extra, hperm, hextra⟩ := sweep_perm (O := O) (N := N)
    (hys.nodup_iff.mpr (nodup_of_proper hrange))
  refine ⟨extra, hperm.trans (List.Perm.append_right _ ?_), fun x hx => ?_⟩
  · simp only [fixed_congr O N hys]
    exact hys.filter _
  · exact ⟨hys.subset (hextra x hx).1, (wavers_congr O N hys).mp (hextra x hx).2⟩

theorem mass_sweep (hrange : range.Proper T)
    (hshare : ∀ x ∈ range, Wavers O N range x → T.share u x = 0) (hys : ys.Perm range) :
    T.mass u (sweep O N ys) = T.mass u (range.filter fun y => Fixed O N range y) := by
  obtain ⟨extra, hperm, hextra⟩ := exists_sweep_perm (O := O) (N := N) hrange hys
  have hzero : T.mass u extra = 0 := by
    refine List.sum_eq_zero fun y hy => ?_
    obtain ⟨x, hx, rfl⟩ := List.mem_map.mp hy
    exact hshare x (hextra x hx).1 (hextra x hx).2
  rw [Lookups.mass_perm hperm, Lookups.mass_append, hzero, add_zero]

/-- **The same in every order.**  The posterior of the hands swept is the same in every order
exactly when no hand that wavers has a share, or weight enough to be left. -/
theorem sameSwept_iff (hrange : range.Proper T) (hlook : ∀ x ∈ range, 0 ≤ T.likelihood u x.1) :
    SameSwept T u O N range ↔ ∀ x ∈ range, Wavers O N range x →
      T.share u x = 0 ∧
        relative (T.mass u (range.filter fun y => Fixed O N range y)) (T.revised u x) <
          defaultProbs := by
  constructor
  · intro hsame x hx hw
    have hshare : ∀ x ∈ range, Wavers O N range x → T.share u x = 0 :=
      fun x hx hw => share_eq_zero_of_wavers hrange hlook hsame hx hw
    have hlight : relative (T.mass u (range.filter fun y => Fixed O N range y)) (T.revised u x) <
        defaultProbs := by
      obtain ⟨ys, zs, hys, hzs, hin, hout⟩ := exists_apart (nodup_of_proper hrange) hx hw
      by_contra hge
      rw [← mass_sweep hrange hshare hys] at hge
      have hleft : (x.1, relative (T.mass u (sweep O N ys)) (T.revised u x)) ∈
          T.posterior u (sweep O N ys) := Lookups.mem_posterior.mpr ⟨not_lt.mp hge, x, hin, rfl⟩
      exact hout (Lookups.mem_of_mem_posterior hrange (sweep_subset hzs) hx
        ((hsame ys zs hys hzs).subset hleft)).1
    exact ⟨hshare x hx hw, hlight⟩
  · intro hnone
    have hcore : ∀ ys, ys.Perm range → (T.posterior u (sweep O N ys)).Perm
        (T.posterior u (range.filter fun y => Fixed O N range y)) := by
      intro ys hys
      obtain ⟨extra, hperm, hextra⟩ := exists_sweep_perm (O := O) (N := N) hrange hys
      have hshares : ∀ x ∈ extra, T.share u x = 0 :=
        fun x hx => (hnone x (hextra x hx).1 (hextra x hx).2).1
      have hlight : ∀ x ∈ extra, relative (T.mass u (range.filter fun y => Fixed O N range y))
          (T.revised u x) < defaultProbs :=
        fun x hx => (hnone x (hextra x hx).1 (hextra x hx).2).2
      have hdrop := Lookups.posterior_append_of_traceless hshares hlight
      exact hdrop ▸ Lookups.posterior_perm hperm
    intro ys zs hys hzs
    exact (hcore ys hys).trans (hcore zs hzs).symm

end

/-! ### The update in any order -/

theorem HandRange.Proper.perm {T : Lookups} {range range' : HandRange} (h : range.Proper T)
    (hperm : range'.Perm range) : range'.Proper T where
  pairs := fun x hx => h.pairs x (hperm.subset hx)
  keys := (hperm.map Prod.fst).nodup_iff.mpr h.keys
  length := hperm.length_eq ▸ h.length
  weights := fun x hx => h.weights x (hperm.subset hx)

variable {T : Table W} {w : W} {range : HandRange} {round : Int} {action : Option Action}
  {board : List Card}

/-- The range left in an order of the hands is the posterior of the hands swept in this order. -/
theorem eq_posterior_sweep (hT : T.ReadsBoard) (hround : Bounds round 4)
    (hrange : range.Proper T.toLookups) {w' : W} {range' : HandRange} {valid : Bool}
    (h : T.updateHands w range round action board = .ok (w', range', valid)) :
    range' = T.posterior (T.asks w round action board)
      (sweep (T.Hits (T.boardCards w)) (T.Hits (boardAt round board)) range) := by
  rw [Table.updateHands_eq hround hrange.pairs hrange.keys h, Table.lookedUp_eq_sweep hT]

theorem orderFree_iff_sameSwept (hT : T.ReadsBoard) (hround : Bounds round 4)
    (hdealt : Dealt round board) (hrange : range.Proper T.toLookups) :
    T.OrderFree w range round action board ↔
      SameSwept T.toLookups (T.asks w round action board) (T.Hits (T.boardCards w))
        (T.Hits (boardAt round board)) range := by
  have hrun : ∀ ys, ys.Perm range → ∃ w' range' valid,
      T.updateHands w ys round action board = .ok (w', range', valid) := by
    intro ys hys
    obtain ⟨y, hy⟩ := Table.exists_scanHands action hround hdealt (hrange.perm hys).pairs
      ⟨w, [], 0, true⟩
    exact ⟨_, _, _, bind_eq_ok.mpr ⟨y, hy, rfl⟩⟩
  constructor
  · intro hfree ys zs hys hzs
    obtain ⟨w₁, range₁, valid₁, h₁⟩ := hrun ys hys
    obtain ⟨w₂, range₂, valid₂, h₂⟩ := hrun zs hzs
    rw [← eq_posterior_sweep hT hround (hrange.perm hys) h₁,
      ← eq_posterior_sweep hT hround (hrange.perm hzs) h₂]
    exact hfree _ _ _ _ _ _ _ _ hys hzs h₁ h₂
  · intro hsame ys zs w₁ w₂ range₁ range₂ valid₁ valid₂ hys hzs h₁ h₂
    rw [eq_posterior_sweep hT hround (hrange.perm hys) h₁,
      eq_posterior_sweep hT hround (hrange.perm hzs) h₂]
    exact hsame ys zs hys hzs

/-- **Exactly when the order does not matter.**  An update leaves the same range in every order of
its hands exactly when every hand that wavers between the two boards is traceless. -/
theorem orderFree_iff (hT : T.ReadsBoard) (hround : Bounds round 4) (hdealt : Dealt round board)
    (hrange : range.Proper T.toLookups)
    (hlook : ∀ x ∈ range, 0 ≤ T.likelihood (T.asks w round action board) x.1) :
    T.OrderFree w range round action board ↔ ∀ x ∈ range,
      Wavers (T.Hits (T.boardCards w)) (T.Hits (boardAt round board)) range x →
        T.Traceless (T.asks w round action board) (T.boardCards w) range x :=
  (orderFree_iff_sameSwept hT hround hdealt hrange).trans (sameSwept_iff hrange hlook)

/-- On the board that it has had before, an update does not depend on the order. -/
theorem orderFree_evenRange : boardTable.OrderFree fourteen.board_card evenRange 1 (some .call)
    fourteen.board_card := by
  have hproper : evenRange.Proper boardTable.toLookups :=
    ⟨pairs_evenRange, by decide, by decide, by decide +kernel⟩
  have hlook : ∀ x ∈ evenRange, 0 ≤ boardTable.likelihood
      (boardTable.asks fourteen.board_card 1 (some .call) fourteen.board_card) x.1 := by
    rw [asks_flop]
    decide +kernel
  have hT : boardTable.ReadsBoard := fun _ _ => rfl
  have hround : Bounds 1 4 := by decide
  have hdealt : Dealt 1 fourteen.board_card := .inr (by decide)
  have hiff : boardTable.OrderFree fourteen.board_card evenRange 1 (some .call)
      fourteen.board_card ↔ _ := orderFree_iff hT hround hdealt hproper hlook
  refine hiff.mpr ?_
  intro x hx hw
  have hnone : ∀ x ∈ evenRange, ¬ Wavers (boardTable.Hits fourteen.board_card)
      (boardTable.Hits (boardAt 1 fourteen.board_card)) evenRange x := by
    decide +kernel
  exact absurd hw (hnone x hx)

/-- The board that the flop takes the place of. -/
def acesBoard : List Card := ["As", "3d", "3c"]

/-- With the aces first they are tested against the board before, and dropped; behind the kings
they are tested against the flop. -/
theorem not_orderFree_acesBoard : ¬ boardTable.OrderFree acesBoard evenRange 1 (some .call)
    fourteen.board_card := by
  have hrun : (do
      let x₁ ← boardTable.updateHands acesBoard evenRange 1 (some .call) fourteen.board_card
      let x₂ ←
        boardTable.updateHands acesBoard evenRange.reverse 1 (some .call) fourteen.board_card
      .ok (decide (¬ x₁.2.1.Perm x₂.2.1))) = (.ok true : Checked Bool) := by
    decide +kernel
  obtain ⟨⟨w₁, range₁, valid₁⟩, h₁, hrun⟩ := bind_eq_ok.mp hrun
  obtain ⟨⟨w₂, range₂, valid₂⟩, h₂, hrun⟩ := bind_eq_ok.mp hrun
  intro h
  exact of_decide_eq_true (Except.ok.inj hrun)
    (h _ _ _ _ _ _ _ _ (List.Perm.refl _) (List.reverse_perm _) h₁ h₂)

/-! ### The replay -/

variable {C : Configure} {r : Request}

/-- No weight of any range is below the default one. -/
def Ranged.Heavy (s : Ranged W) : Prop := ∀ range ∈ s.handRanges, ∀ x ∈ range, defaultProbs ≤ x.2

theorem length_hands (names : CardNames) : names.hands.length = 28 := rfl

namespace Orderly
variable {i : Nat} {his : HistoryLine} {p p' : Replay (Ranged W)} {range : HandRange}

theorem proper (hp : Orderly T C p) (hheavy : p.world.Heavy) (h : range ∈ p.world.handRanges) :
    range.Proper T.toLookups where
  pairs := hp.pairs h
  keys := hp.distinct range h
  length := by
    have hsub : range.map Prod.fst ⊆ T.hands := by
      intro hand hmem
      obtain ⟨x, hx, rfl⟩ := List.mem_map.mp hmem
      exact (T.mem_mProbs x.1).mp (hp.keyed range h x hx)
    have hle := (List.subperm_of_subset (hp.distinct range h) hsub).length_le
    rw [List.length_map, length_hands] at hle
    omega
  weights := by
    intro x hx
    have hdefault : 0 ≤ defaultProbs := by
      rw [defaultProbs]
      norm_num
    exact hdefault.trans (hheavy range h x hx)

theorem replayLine_heavy (hp : Orderly T C p) (hheavy : p.world.Heavy)
    (h : Decide.replayLine C T.ranged r board i his p = .ok (p', true)) : p'.world.Heavy := by
  intro range' hrange'
  obtain ⟨player, hread⟩ := exists_readAt_of_mem hrange'
  rcases replayLine_ranges h hread with ⟨-, hsame⟩ | ⟨_, range, _, _, -, hrange, hhands⟩
  · exact hheavy range' (mem_of_readAt hsame)
  · exact (Table.updateHands_prunes (bounds_of_record hp.shaped (replayLine_accounts h))
      (hp.pairs (mem_of_readAt hrange)) (hp.distinct range (mem_of_readAt hrange)) hhands).weights

end Orderly

/-- The ranges that a replay starts with have the default weight. -/
theorem unshuffle_heavy (w : Ranged W) : (unshuffle T.ranged w r).Heavy := by
  intro range hrange x hx
  rw [eq_of_mem_unshuffle hrange, Lookups.cloneHandProbs] at hx
  obtain ⟨hand, -, rfl⟩ := List.mem_map.mp hx
  exact le_refl defaultProbs

/-- Along every replay the ranges are as `orderFree_iff` has them. -/
theorem replay_proper {accounts : Accounts} (w : Ranged W)
    (hseat : Accounts.seatFrom C r 0 r.seat_info (.start C.mNumPlayers) = .ok accounts) :
    Guarded (goesOn (turn C T.ranged r board))
      (fun x _ => ∀ range ∈ x.2.world.handRanges, range.Proper T.toLookups)
      (begins accounts (unshuffle T.ranged w r)) r.history := by
  have hstart : Orderly T C (begins accounts (unshuffle T.ranged w r)).2 ∧
      (begins accounts (unshuffle T.ranged w r)).2.world.Heavy :=
    ⟨Orderly.unshuffle w hseat, unshuffle_heavy w⟩
  refine guarded_of_invariant (P := fun x => Orderly T C x.2 ∧ x.2.world.Heavy)
    (fun x _ hx range hrange => hx.1.proper hx.2 hrange) ?_ r.history hstart
  intro x his y hx hy
  obtain ⟨-, hline⟩ := goesOn_turn hy
  exact ⟨hx.1.replayLine hline, hx.1.replayLine_heavy hx.2 hline⟩

end Holdem.Decide
