import Holdem.Decide.Evaluate
import Holdem.Support.ForEach

/-!
# Decide — Tables

`Evaluate::init`: the tables of cards and hands.  `vPairs` is the table that `cloneHandPairs` hands
out; it is filled with the cards of `vCards`, in the loops that fill `vHands` and `mProbs` with the
names of `testCards`.

* `init_fresh`: the first `init()` fills the tables.
* `length_vPairs_init`: it puts 28 pairs into `vPairs`.
-/

namespace Holdem.Decide
open Support

/-- The tables of `Evaluate`. -/
structure Tables where
  vCards : List Card
  vHands : List String
  vPairs : List (List Card)
  mProbs : HandRange
  testCards : List Card

/-- The indices `i < j` below `n`, in the order of the two loops. -/
def indexPairs (n : Nat) : List (Nat × Nat) :=
  (List.range n).flatMap fun i => (List.range' (i + 1) (n - (i + 1))).map fun j => (i, j)

/-- `probs.emplace(hand, DEFAULT_PROBS)`. -/
def HandRange.emplace (probs : HandRange) (hand : String) : HandRange :=
  if hand ∈ probs.map Prod.fst then probs else probs ++ [(hand, defaultProbs)]

namespace Tables

/-- The tables of a new object. -/
def fresh : Tables := ⟨[], [], [], [], []⟩

/-- `Evaluate::initCardsList`.  The test cards are added to those that are there. -/
def initCardsList (N : CardNames) (t : Tables) : Tables :=
  { t with
    vCards := [0, 1, 2, 3].flatMap fun suit =>
      (List.range' 2 13).map fun face => N.faceToStr (face - 2) ++ N.suitToStr suit
    testCards := t.testCards ++ N.testCards }

/-- A turn of the two loops of `initHandsList`. -/
def addPair (t : Tables) (ij : Nat × Nat) : Checked (Tables × Bool) := do
  let pair := (← readAt t.testCards ij.2) ++ "-" ++ (← readAt t.testCards ij.1)
  let pairs := [← readAt t.vCards ij.2, ← readAt t.vCards ij.1]
  .ok ({ t with
    vHands := t.vHands ++ [pair]
    vPairs := t.vPairs ++ [pairs]
    mProbs := t.mProbs.emplace pair }, true)

/-- `Evaluate::initHandsList`. -/
def initHandsList (t : Tables) : Checked Tables :=
  forEach addPair { t with vHands := [], mProbs := [] } (indexPairs t.testCards.length)

/-- `Evaluate::init`. -/
def init (N : CardNames) (t : Tables) : Checked Tables := initHandsList (t.initCardsList N)

/-- `Evaluate::cloneHandPairs`.  The copy has the size of the table. -/
def cloneHandPairs (t : Tables) : List (List Card) := t.vPairs

/-! ### The loops -/

variable {t t' : Tables}

theorem mem_indexPairs {n : Nat} {ij : Nat × Nat} : ij ∈ indexPairs n ↔ ij.1 < ij.2 ∧ ij.2 < n := by
  obtain ⟨i, j⟩ := ij
  simp only [indexPairs, List.mem_flatMap, List.mem_range, List.mem_map, List.mem_range'_1,
    Prod.mk.injEq]
  constructor
  · rintro ⟨i, hi, j, hj, rfl, rfl⟩
    omega
  · rintro ⟨hij, hj⟩
    exact ⟨i, by omega, j, by omega, rfl, rfl⟩

/-- The tables with another hand and another pair. -/
def withPair (t : Tables) (hand : String) (pair : List Card) : Tables :=
  { t with
    vHands := t.vHands ++ [hand]
    vPairs := t.vPairs ++ [pair]
    mProbs := t.mProbs.emplace hand }

/-- A turn adds a hand and a pair, and leaves the cards as they are. -/
theorem addPair_eq_ok {ij : Nat × Nat} {more : Bool} (h : addPair t ij = .ok (t', more)) :
    more = true ∧ ∃ hand pair, t' = t.withPair hand pair := by
  obtain ⟨testj, -, h⟩ := bind_eq_ok.mp h
  obtain ⟨testi, -, h⟩ := bind_eq_ok.mp h
  obtain ⟨cardj, -, h⟩ := bind_eq_ok.mp h
  obtain ⟨cardi, -, h⟩ := bind_eq_ok.mp h
  cases h
  exact ⟨rfl, _, _, rfl⟩

theorem addPair_of_reads {ij : Nat × Nat} {testj testi cardj cardi : Card}
    (htestj : readAt t.testCards ij.2 = .ok testj) (htesti : readAt t.testCards ij.1 = .ok testi)
    (hcardj : readAt t.vCards ij.2 = .ok cardj) (hcardi : readAt t.vCards ij.1 = .ok cardi) :
    addPair t ij = .ok (t.withPair (testj ++ "-" ++ testi) [cardj, cardi], true) := by
  simp only [addPair, htestj, htesti, hcardj, hcardi, ok_bind]
  rfl

theorem exists_addPair {ij : Nat × Nat} (hij : ij.1 < ij.2) (htest : ij.2 < t.testCards.length)
    (hcards : ij.2 < t.vCards.length) : ∃ t', addPair t ij = .ok (t', true) := by
  obtain ⟨testj, h₁⟩ := readAt_of_bounds (bounds_natCast htest)
  obtain ⟨testi, h₂⟩ := readAt_of_bounds (bounds_natCast (hij.trans htest))
  obtain ⟨cardj, h₃⟩ := readAt_of_bounds (bounds_natCast hcards)
  obtain ⟨cardi, h₄⟩ := readAt_of_bounds (bounds_natCast (hij.trans hcards))
  exact ⟨_, addPair_of_reads h₁ h₂ h₃ h₄⟩

theorem length_vPairs_forEach {ijs : List (Nat × Nat)} (h : forEach addPair t ijs = .ok t') :
    t'.vPairs.length = t.vPairs.length + ijs.length := by
  induction ijs generalizing t with
  | nil =>
      cases h
      rfl
  | cons ij ijs ih =>
      rcases hturn : addPair t ij with e | ⟨t₁, more⟩
      · simp only [forEach, hturn] at h
        cases h
      · obtain ⟨rfl, hand, pair, rfl⟩ := addPair_eq_ok hturn
        rw [forEach_cons_of_goesOn hturn] at h
        rw [ih h, withPair, List.length_append, List.length_singleton, List.length_cons,
          Nat.add_assoc, Nat.add_comm 1]

theorem exists_forEach_addPair {ijs : List (Nat × Nat)}
    (hijs : ∀ ij ∈ ijs, ij.1 < ij.2 ∧ ij.2 < t.testCards.length ∧ ij.2 < t.vCards.length) :
    ∃ t', forEach addPair t ijs = .ok t' := by
  induction ijs generalizing t with
  | nil => exact ⟨t, rfl⟩
  | cons ij ijs ih =>
      obtain ⟨⟨hij, htest, hcards⟩, hijs⟩ := List.forall_mem_cons.mp hijs
      obtain ⟨t₁, hturn⟩ := exists_addPair hij htest hcards
      obtain ⟨-, hand, pair, rfl⟩ := addPair_eq_ok hturn
      obtain ⟨t', h⟩ := ih (t := t.withPair hand pair) hijs
      exact ⟨t', (forEach_cons_of_goesOn hturn).trans h⟩

/-- The first `init()` fills the tables. -/
theorem init_fresh (N : CardNames) : ∃ t, init N fresh = .ok t := by
  refine exists_forEach_addPair fun ij hij => ?_
  obtain ⟨hlt, hj⟩ := mem_indexPairs.mp hij
  have htest : (fresh.initCardsList N).testCards.length = 8 := rfl
  have hcards : (fresh.initCardsList N).vCards.length = 52 := rfl
  rw [htest] at hj
  exact ⟨hlt, htest ▸ hj, hcards ▸ by omega⟩

/-- It puts 28 pairs into `vPairs`. -/
theorem length_vPairs_init {N : CardNames} (h : init N fresh = .ok t) : t.vPairs.length = 28 := by
  have hlen := length_vPairs_forEach h
  have htest : (fresh.initCardsList N).testCards.length = 8 := rfl
  have hpairs : (indexPairs 8).length = 28 := by decide
  rw [htest, hpairs] at hlen
  exact hlen

end Tables

end Holdem.Decide
