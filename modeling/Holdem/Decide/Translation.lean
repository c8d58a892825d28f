import Holdem.Decide.Stack
import Holdem.Support.Nearest
import Mathlib.Algebra.Field.Rat
import Mathlib.Algebra.Order.Group.Int
import Mathlib.Algebra.Order.Ring.Int
import Mathlib.Algebra.Order.Ring.Rat
import Mathlib.Data.Int.ConditionallyCompleteOrder

/-!
# Decide — Translation

How the replay translates a bet of the history into an action of the game tree.  A table of sizes is
scanned for the nearest one, and the scan keeps the last of two that are as near; the tables grow,
so that this is the larger one.

* `nearest_spec`: the scan of a growing table ends at its nearest entry.
* `translation_nearest`: both tables are read by their nearest entry, and a larger bet is never read
  as a smaller action.
-/

namespace Holdem.Decide
open Support

/-! ### The scan -/

theorem prefers_of_natAbs_le {x b c : Int} (h : (x - b).natAbs ≤ (x - c).natAbs) (hcb : c ≤ b) :
    Prefers x b c := by
  unfold Prefers
  rw [Int.abs_eq_natAbs, Int.abs_eq_natAbs]
  rcases Nat.lt_or_eq_of_le h with h | h
  · exact .inl (Int.ofNat_lt.mpr h)
  · exact .inr ⟨congrArg Nat.cast h, hcb⟩

theorem prefers_of_natAbs_lt {x b c : Int} (h : (x - b).natAbs < (x - c).natAbs) :
    Prefers x b c := by
  unfold Prefers
  rw [Int.abs_eq_natAbs, Int.abs_eq_natAbs]
  exact .inl (Int.ofNat_lt.mpr h)

/-- The scan goes on from the nearest entry of what it has seen. -/
theorem nearestFrom_spec {x b : Int} {seen betting : List Int} {tag : Nat}
    (hgrows : (seen ++ betting).Pairwise (· < ·)) (htag : seen[tag]? = some b)
    (hb : NearestTo seen x b) :
    ∃ c, (seen ++ betting)[nearestFrom x seen.length betting tag (x - b).natAbs]? = some c ∧
      NearestTo (seen ++ betting) x c := by
  induction betting generalizing seen tag b with
  | nil =>
      rw [List.append_nil]
      exact ⟨b, htag, hb⟩
  | cons bet betting ih =>
      have hbet : b < bet := (List.pairwise_append.mp hgrows).2.2 b hb.mem bet List.mem_cons_self
      have hlast : (seen ++ [bet])[seen.length]? = some bet := List.getElem?_concat_length
      have hlen : seen.length + 1 = (seen ++ [bet]).length := by
        rw [List.length_append]
        rfl
      rw [List.append_cons] at hgrows ⊢
      simp only [nearestFrom]
      split
      · next heq =>
          -- nothing is nearer than the value itself
          subst heq
          refine ⟨bet, ?_, .self (List.mem_append_left _ (List.mem_append_right _ ?_))⟩
          · rw [List.getElem?_append_left (by rw [← hlen]; exact Nat.lt_succ_self _)]
            exact hlast
          · exact List.mem_cons_self
      · split
        · next hle =>
            rw [hlen]
            exact ih hgrows hlast (hb.append_right (prefers_of_natAbs_le hle hbet.le))
        · next hlt =>
            have hkeep : (seen ++ [bet])[tag]? = some b := by
              rw [List.getElem?_append_left (List.getElem?_eq_some_iff.mp htag).1]
              exact htag
            rw [hlen]
            refine ih hgrows hkeep (hb.append_left fun c hc => ?_)
            rw [List.mem_singleton.mp hc]
            exact prefers_of_natAbs_lt (Nat.lt_of_not_le hlt)

/-- The scan of a growing table ends at its nearest entry. -/
theorem nearest_spec (x : Int) {bet : Int} {betting : List Int}
    (hgrows : (bet :: betting).Pairwise (· < ·)) :
    ∃ c, (bet :: betting)[nearest x (bet :: betting)]? = some c ∧
      NearestTo (bet :: betting) x c :=
  @nearestFrom_spec x bet [bet] betting 0 hgrows rfl (.singleton x bet)

/-! ### The tables -/

/-- The ratios, and the actions their entries stand for. -/
def ratios : List (Rat × Action) :=
  [(0, .call), (1 / 2, .raise2), (3 / 4, .raise3), (1, .raise4)]

/-- The ratios in percents. -/
def percents : List (Int × Action) := [(0, .call), (50, .raise2), (75, .raise3), (100, .raise4)]

/-- The totals of the first raise before the flop. -/
def totals : List (Int × Action) := [(6, .raise2), (8, .raise3), (10, .raise4)]

/-- CALL < RAISE2 < RAISE3 < RAISE4. -/
def Action.rank : Action → Nat
  | .raise1 => 1
  | .raise2 => 2
  | .raise3 => 3
  | .raise4 => 4
  | .raise5 => 5
  | .raise6 => 6
  | _       => 0

section
variable {α : Type*} [CommRing α] [LinearOrder α] [IsStrictOrderedRing α]

/-- The action of the nearest entry. -/
def ReadsNearest (table : List (α × Action)) (x : α) (a : Action) : Prop :=
  ∃ b, (b, a) ∈ table ∧ NearestTo (table.map Prod.fst) x b

/-- Larger entries stand for no smaller actions. -/
def Ranked (table : List (α × Action)) : Prop :=
  ∀ e ∈ table, ∀ e' ∈ table, e.1 ≤ e'.1 → e.2.rank ≤ e'.2.rank

/-- A larger value is read as no smaller action. -/
theorem ReadsNearest.mono {table : List (α × Action)} (htable : Ranked table) {x y : α}
    {a b : Action} (ha : ReadsNearest table x a) (hb : ReadsNearest table y b) (hxy : x ≤ y) :
    a.rank ≤ b.rank := by
  obtain ⟨c, hc, hnear⟩ := ha
  obtain ⟨d, hd, hnear'⟩ := hb
  exact htable _ hc _ hd (hnear.mono hnear' hxy)

end

theorem ranked_percents : Ranked percents := by unfold Ranked percents; decide

theorem ranked_totals : Ranked totals := by unfold Ranked totals; decide

/-- A ratio from its percents. -/
def ratioOf : Int →+ Rat where
  toFun f := f / 100
  map_zero' := by norm_num
  map_add' f g := by rw [Int.cast_add, add_div]

theorem ratioOf_strictMono : StrictMono ratioOf := fun f g h => by
  have hcast : (f : Rat) < g := Int.cast_lt.mpr h
  exact div_lt_div_of_pos_right hcast (by norm_num)

theorem ratioOf_apply (f : Int) : ratioOf f = f / 100 := rfl

theorem ratios_eq : ratios = percents.map fun e => (ratioOf e.1, e.2) := by
  simp only [ratios, percents, List.map, ratioOf_apply]
  norm_num

/-- An entry in percents is the same entry as a ratio. -/
theorem ReadsNearest.ratio {f : Int} {a : Action} (h : ReadsNearest percents f a) :
    ReadsNearest ratios (ratioOf f) a := by
  obtain ⟨b, hb, hnear⟩ := h
  rw [ratios_eq]
  refine ⟨ratioOf b, List.mem_map.mpr ⟨(b, a), hb, rfl⟩, ?_⟩
  have hmap := hnear.map ratioOf_strictMono
  rw [List.map_map] at hmap ⊢
  exact hmap

theorem ratioRaise_reads (f : Int) : ∃ a, ratioRaise f = some a ∧ ReadsNearest percents f a := by
  have hgrows : ([0, 50, 75, 100] : List Int).Pairwise (· < ·) := by decide
  obtain ⟨c, hget, hnear⟩ := nearest_spec f hgrows
  unfold ratioRaise
  generalize nearest f [0, 50, 75, 100] = tag at hget ⊢
  match tag, hget with
  | 0, rfl => exact ⟨.call, rfl, 0, by decide, hnear⟩
  | 1, rfl => exact ⟨.raise2, rfl, 50, by decide, hnear⟩
  | 2, rfl => exact ⟨.raise3, rfl, 75, by decide, hnear⟩
  | 3, rfl => exact ⟨.raise4, rfl, 100, by decide, hnear⟩

theorem firstRaise_reads (total : Int) :
    ∃ a, firstRaise total = some a ∧ ReadsNearest totals total a := by
  have hgrows : ([6, 8, 10] : List Int).Pairwise (· < ·) := by decide
  obtain ⟨c, hget, hnear⟩ := nearest_spec total hgrows
  unfold firstRaise
  generalize nearest total [6, 8, 10] = tag at hget ⊢
  match tag, hget with
  | 0, rfl => exact ⟨.raise2, rfl, 6, by decide, hnear⟩
  | 1, rfl => exact ⟨.raise3, rfl, 8, by decide, hnear⟩
  | 2, rfl => exact ⟨.raise4, rfl, 10, by decide, hnear⟩

/-! ### Bets -/

/-- What the ratio branch reads a bet as, by its factor. -/
def ReadsBet (C : Configure) (his_pot callSize his_bet f : Int) (a : Action) : Prop :=
  factor C his_bet his_pot callSize = .ok f ∧ ratioRaise f = some a

/-- The divisor of the ratio. -/
def divisor (C : Configure) (his_pot callSize : Int) : Int :=
  if C.mRealRaise = 0 then his_pot else his_pot + callSize

variable {C : Configure} {his_pot callSize : Int}

/-- The factor is the share of the divisor, truncated; the division by the pot with the call is
made in both modes. -/
theorem factor_eq_tdiv (hpos : 0 < divisor C his_pot callSize) (hdef : his_pot + callSize ≠ 0)
    (his_bet : Int) : factor C his_bet his_pot callSize =
      .ok (((his_bet - if C.mRealRaise = 0 then 0 else callSize) * 100).tdiv
        (divisor C his_pot callSize)) := by
  have hdivide : ∀ a, divide a (his_pot + callSize) = .ok (a.tdiv (his_pot + callSize)) :=
    fun a => if_neg hdef
  rw [factor, hdivide, ok_bind]
  unfold divisor at hpos ⊢
  split
  · next h =>
      rw [if_pos h] at hpos
      rw [Int.sub_zero]
      exact if_neg (ne_of_gt hpos)
  · rfl

/-- A larger bet has no smaller factor. -/
theorem factor_mono (hpos : 0 < divisor C his_pot callSize) (hdef : his_pot + callSize ≠ 0)
    {bet bet' f f' : Int} (hle : bet ≤ bet') (h : factor C bet his_pot callSize = .ok f)
    (h' : factor C bet' his_pot callSize = .ok f') : f ≤ f' := by
  rw [factor_eq_tdiv hpos hdef] at h h'
  cases h
  cases h'
  refine Int.tdiv_le_tdiv hpos (Int.mul_le_mul_of_nonneg_right ?_ (by decide))
  exact Int.sub_le_sub_right hle _

/-- **Bet translation.**  Where the divisor is positive, both tables are read by the nearest entry
and the larger of two, and a larger bet is never read as a smaller action. -/
theorem translation_nearest (C : Configure) (hpos : 0 < divisor C his_pot callSize)
    (hdef : his_pot + callSize ≠ 0) :
    (∀ his_bet, ∃ f a, ReadsBet C his_pot callSize his_bet f a ∧
      ReadsNearest ratios (f / 100 : Rat) a) ∧
    (∀ total, ∃ a, firstRaise total = some a ∧ ReadsNearest totals total a) ∧
    (∀ bet bet', bet ≤ bet' → ∃ f f' a a', ReadsBet C his_pot callSize bet f a ∧
      ReadsBet C his_pot callSize bet' f' a' ∧ a.rank ≤ a'.rank) ∧
    ∀ total total', total ≤ total' → ∃ a a', firstRaise total = some a ∧
      firstRaise total' = some a' ∧ a.rank ≤ a'.rank := by
  refine ⟨fun his_bet => ?_, firstRaise_reads, fun bet bet' hle => ?_, fun total total' hle => ?_⟩
  · obtain ⟨a, ha, hreads⟩ := ratioRaise_reads (((his_bet - if C.mRealRaise = 0 then 0
      else callSize) * 100).tdiv (divisor C his_pot callSize))
    exact ⟨_, a, ⟨factor_eq_tdiv hpos hdef his_bet, ha⟩, hreads.ratio⟩
  · have h := factor_eq_tdiv hpos hdef bet
    have h' := factor_eq_tdiv hpos hdef bet'
    obtain ⟨a, ha, hreads⟩ := ratioRaise_reads _
    obtain ⟨a', ha', hreads'⟩ := ratioRaise_reads _
    exact ⟨_, _, a, a', ⟨h, ha⟩, ⟨h', ha'⟩,
      hreads.mono ranked_percents hreads' (factor_mono hpos hdef hle h h')⟩
  · obtain ⟨a, ha, hreads⟩ := firstRaise_reads total
    obtain ⟨a', ha', hreads'⟩ := firstRaise_reads total'
    exact ⟨a, a', ha, ha', hreads.mono ranked_totals hreads' hle⟩

/-- A check into a pot of 10, and a bet of 7. -/
theorem translation_nearest_seven : ∃ f f' a a', ReadsBet headsUp 10 0 0 f a ∧
    ReadsBet headsUp 10 0 7 f' a' ∧ a.rank ≤ a'.rank :=
  have hpos : 0 < divisor headsUp 10 0 := by decide
  (translation_nearest headsUp hpos (by decide)).2.2.1 0 7 (by decide)

end Holdem.Decide
