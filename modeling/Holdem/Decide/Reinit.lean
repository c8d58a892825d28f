import Holdem.Decide.OwnHand

/-!
# Decide — Reinit

`Evaluate::init` and `Evaluate::final` in any order.  `final` clears `vCards` and `vHands`, `init`
clears all of the tables but `vPairs` and `testCards`, and fills `vPairs` with cards of another list
than the one that `vHands` and `mProbs` take theirs from.

* `init_heads`: how the tables begin after any calls that end with `init()`.
* `never_agrees`: no such calls leave tables that agree.
* `init_keys`: but the keys of `mProbs` are always the hands.
* `same_iff`: they leave what a single `init()` does exactly when there was no `init()` before.
* `calls_defined_iff`: the seventh `init()` reads behind the cards.
-/

namespace Holdem.Decide
open Support

/-- A call of `init` or `final`. -/
inductive TableCall
  | init | final
  deriving DecidableEq, Repr

/-- The names of the faces are different letters; `eval` cuts the face out of a card as its first
letter. -/
structure CardNames.Lettered (N : CardNames) : Prop where
  letter : ∀ n : Int, 0 ≤ n → n ≤ 12 → (N.faceToStr n).length = 1
  injective : ∀ m n : Int, 0 ≤ m → m ≤ 12 → 0 ≤ n → n ≤ 12 →
    N.faceToStr m = N.faceToStr n → m = n

namespace Tables

/-- `Evaluate::final`. -/
def final (t : Tables) : Tables := { t with vCards := [], vHands := [] }

/-- A call. -/
def call (N : CardNames) (t : Tables) : TableCall → Checked (Tables × Bool)
  | .init  => do .ok (← init N t, true)
  | .final => .ok (t.final, true)

/-- Calls, one after another. -/
def calls (N : CardNames) (t : Tables) (cs : List TableCall) : Checked Tables :=
  forEach (call N) t cs

/-- The tables describe one set of hands: the pairs are the cards of the hands, the keys of `mProbs`
are the hands, no two hands are of the same cards, and no hand has a card twice. -/
structure Agree (t : Tables) : Prop where
  length : t.vPairs.length = t.vHands.length
  pairs : ∀ (k : Nat) hand pair, t.vHands[k]? = some hand → t.vPairs[k]? = some pair →
    ∃ card₁ card₂, pair = [card₁, card₂] ∧ hand = card₁ ++ "-" ++ card₂
  keys : ∀ hand, hand ∈ t.mProbs.map Prod.fst ↔ hand ∈ t.vHands
  once : t.vPairs.Pairwise fun pair pair' => ¬ pair.Perm pair'
  distinct : ∀ pair ∈ t.vPairs, pair.Nodup

variable {N : CardNames} {t t' : Tables}

/-! ### What the loops keep -/

/-- The loops add hands and pairs behind those that are there, and leave the cards as they are. -/
structure Extends (t t' : Tables) : Prop where
  vCards : t'.vCards = t.vCards
  testCards : t'.testCards = t.testCards
  vHands : t.vHands <+: t'.vHands
  vPairs : t.vPairs <+: t'.vPairs

theorem addPair_extends {ij : Nat × Nat} {more : Bool} (h : addPair t ij = .ok (t', more)) :
    Extends t t' := by
  obtain ⟨-, hand, pair, rfl⟩ := addPair_eq_ok h
  exact ⟨rfl, rfl, List.prefix_append _ _, List.prefix_append _ _⟩

theorem forEach_addPair_extends {ijs : List (Nat × Nat)} (h : forEach addPair t ijs = .ok t') :
    Extends t t' := by
  refine forEach_invariant (P := Extends t) (fun t₁ ij t₂ more h₁ hturn => ?_)
    ⟨rfl, rfl, List.prefix_refl _, List.prefix_refl _⟩ h
  have h₂ := addPair_extends hturn
  exact ⟨h₂.vCards.trans h₁.vCards, h₂.testCards.trans h₁.testCards, h₁.vHands.trans h₂.vHands,
    h₁.vPairs.trans h₂.vPairs⟩

theorem indexPairs_cons (n : Nat) : ∃ rest, indexPairs (n + 2) = (0, 1) :: rest :=
  ⟨_, by rw [indexPairs, List.range_succ_eq_map]; rfl⟩

/-! ### How the tables begin -/

/-- The first pair of the cards. -/
def firstPair (N : CardNames) : List Card :=
  [N.faceToStr 1 ++ N.suitToStr 0, N.faceToStr 0 ++ N.suitToStr 0]

/-- The first hand of the test cards. -/
def firstHand (N : CardNames) : String :=
  N.faceToStr 12 ++ N.suitToStr 0 ++ "-" ++ (N.faceToStr 11 ++ N.suitToStr 0)

/-- What all calls keep: `testCards` are the test cards over and over, and the first pair, if there
is one, is that of the cards. -/
structure Kept (N : CardNames) (t : Tables) : Prop where
  testCards : t.testCards = [] ∨ N.testCards <+: t.testCards
  vPairs : t.vPairs = [] ∨ [firstPair N] <+: t.vPairs

/-- After `init()`, the tables begin with the first pair and the first hand. -/
structure Begins (N : CardNames) (t : Tables) : Prop where
  testCards : N.testCards <+: t.testCards
  vPairs : [firstPair N] <+: t.vPairs
  vHands : [firstHand N] <+: t.vHands

theorem Begins.kept (h : Begins N t) : Kept N t := ⟨.inr h.testCards, .inr h.vPairs⟩

/-- The first turn of the loops, with the test cards in front. -/
theorem addPair_first {rest : List Card} (htest : t.testCards = N.testCards ++ rest)
    (hcards : t.vCards = (fresh.initCardsList N).vCards) :
    addPair t (0, 1) = .ok (t.withPair (firstHand N) (firstPair N), true) := by
  have htest₁ : readAt t.testCards 1 = .ok (N.faceToStr 12 ++ N.suitToStr 0) := by
    rw [htest]
    rfl
  have htest₀ : readAt t.testCards 0 = .ok (N.faceToStr 11 ++ N.suitToStr 0) := by
    rw [htest]
    rfl
  have hcard₁ : readAt t.vCards 1 = .ok (N.faceToStr 1 ++ N.suitToStr 0) := by
    rw [hcards]
    rfl
  have hcard₀ : readAt t.vCards 0 = .ok (N.faceToStr 0 ++ N.suitToStr 0) := by
    rw [hcards]
    rfl
  exact addPair_of_reads htest₁ htest₀ hcard₁ hcard₀

/-- How the tables begin after `init()`. -/
theorem init_begins (ht : Kept N t) (h : init N t = .ok t') : Begins N t' := by
  -- the test cards are in front, whether there were some already or not
  obtain ⟨rest, htest⟩ : N.testCards <+: (t.initCardsList N).testCards := by
    rcases ht.testCards with hnil | hpre
    · exact ⟨[], by simp only [initCardsList, hnil, List.nil_append, List.append_nil]⟩
    · exact hpre.trans (List.prefix_append _ _)
  have hlen : (t.initCardsList N).testCards.length = 6 + rest.length + 2 := by
    rw [← htest, List.length_append]
    have height : N.testCards.length = 8 := rfl
    omega
  obtain ⟨ijs, hijs⟩ := indexPairs_cons (6 + rest.length)
  have hturn := addPair_first (t := { t.initCardsList N with vHands := [], mProbs := [] })
    htest.symm rfl
  rw [init, initHandsList, hlen, hijs, forEach_cons_of_goesOn hturn] at h
  have hext := forEach_addPair_extends h
  refine ⟨hext.testCards ▸ ⟨rest, htest⟩, ?_, hext.vHands⟩
  refine List.IsPrefix.trans ?_ hext.vPairs
  rcases ht.vPairs with hnil | hpre
  · simp only [initCardsList, hnil]
    exact List.prefix_refl _
  · exact hpre.trans (List.prefix_append _ _)

theorem kept_fresh (N : CardNames) : Kept N fresh := ⟨.inl rfl, .inl rfl⟩

theorem call_kept {c : TableCall} {more : Bool} (ht : Kept N t)
    (h : call N t c = .ok (t', more)) : Kept N t' := by
  cases c with
  | init =>
      obtain ⟨t₁, hinit, h⟩ := bind_eq_ok.mp h
      cases h
      exact (init_begins ht hinit).kept
  | final =>
      cases h
      exact ⟨ht.testCards, ht.vPairs⟩

theorem calls_kept {cs : List TableCall} (h : calls N fresh cs = .ok t) : Kept N t :=
  forEach_invariant (P := Kept N) (fun _ _ _ _ ht hcall => call_kept ht hcall) (kept_fresh N) h

/-! ### Agreement -/

/-- A hand of the test cards is not of the first two cards. -/
theorem firstHand_ne (hN : N.Lettered) {card₁ card₂ : Card} (h : firstPair N = [card₁, card₂]) :
    firstHand N ≠ card₁ ++ "-" ++ card₂ := by
  intro heq
  cases h
  have hchars := congrArg String.toList heq
  simp only [firstHand, String.toList_append, List.append_assoc] at hchars
  have hlen : (N.faceToStr 12).toList.length = (N.faceToStr 1).toList.length := by
    rw [String.length_toList, String.length_toList, hN.letter 12 (by decide) (by decide),
      hN.letter 1 (by decide) (by decide)]
  have hface : N.faceToStr 12 = N.faceToStr 1 :=
    String.toList_injective (List.append_inj_left hchars hlen)
  exact absurd (hN.injective 12 1 (by decide) (by decide) (by decide) (by decide) hface) (by decide)

/-- The first pair is not that of the first hand. -/
theorem not_agree_of_begins (hN : N.Lettered) (h : Begins N t) : ¬ t.Agree := by
  intro hagree
  obtain ⟨hands, hhands⟩ := h.vHands
  obtain ⟨pairs, hpairs⟩ := h.vPairs
  obtain ⟨card₁, card₂, hpair, hhand⟩ := hagree.pairs 0 (firstHand N) (firstPair N)
    (by rw [← hhands]; rfl) (by rw [← hpairs]; rfl)
  exact firstHand_ne hN hpair hhand

/-- After the calls and another `init()`, the tables agree, and are those of a single `init()`. -/
def AgreesAfter (N : CardNames) (cs : List TableCall) : Prop :=
  ∃ t t₀, (calls N fresh cs >>= init N) = .ok t ∧ init N fresh = .ok t₀ ∧ t.Agree ∧ t = t₀

/-- **The tables never agree.**  Whatever calls there are, the pairs are not those of the hands once
the last of them is `init()`. -/
theorem never_agrees (hN : N.Lettered) (cs : List TableCall) : ¬ AgreesAfter N cs := by
  rintro ⟨t, t₀, h, -, hagree, -⟩
  obtain ⟨t₁, hcalls, hinit⟩ := bind_eq_ok.mp h
  exact not_agree_of_begins hN (init_begins (calls_kept hcalls) hinit) hagree

theorem lettered_allLetters : allLetters.Lettered := by
  have hletter : ∀ k : Nat, k < 13 → (allLetters.faceToStr k).length = 1 := by decide
  have hinj : ∀ j : Nat, j < 13 → ∀ k : Nat, k < 13 →
      allLetters.faceToStr j = allLetters.faceToStr k → j = k := by decide
  refine ⟨fun n h0 h12 => ?_, fun m n h0 h12 h0' h12' heq => ?_⟩
  · lift n to Nat using h0
    exact hletter n (by omega)
  · lift m to Nat using h0
    lift n to Nat using h0'
    exact congrArg Nat.cast (hinj m (by omega) n (by omega) heq)

theorem never_agrees_letters : ¬ AgreesAfter allLetters [.init, .final] :=
  never_agrees lettered_allLetters _

/-- The first `init()` pairs the three and the two of spades with the name of another hand. -/
theorem not_agrees_first :
    (∃ t, init allLetters fresh = .ok t ∧ t.vHands.head? = some "As-Ks" ∧
      t.vPairs.head? = some ["3s", "2s"]) ∧ ¬ AgreesAfter allLetters [] := by
  obtain ⟨t, h⟩ := init_fresh allLetters
  have hbegins := init_begins (kept_fresh _) h
  obtain ⟨hands, hhands⟩ := hbegins.vHands
  obtain ⟨pairs, hpairs⟩ := hbegins.vPairs
  refine ⟨⟨t, h, by rw [← hhands]; rfl, by rw [← hpairs]; rfl⟩, ?_⟩
  rintro ⟨t', t₀, h', h₀, hagree, -⟩
  exact not_agree_of_begins lettered_allLetters (init_begins (kept_fresh _) h') hagree

/-! ### What does agree -/

theorem mem_keys_emplace {probs : HandRange} {hand x : String} :
    x ∈ (probs.emplace hand).map Prod.fst ↔ x ∈ probs.map Prod.fst ∨ x = hand := by
  unfold HandRange.emplace
  split
  · next h => exact ⟨.inl, fun hx => hx.elim id fun heq => heq ▸ h⟩
  · rw [List.map_append, List.mem_append]
    exact or_congr_right List.mem_singleton

/-- The keys of `mProbs` are the hands after every `init()`. -/
theorem init_keys (h : init N t = .ok t') (hand : String) :
    hand ∈ t'.mProbs.map Prod.fst ↔ hand ∈ t'.vHands := by
  have hnone : ∀ x : String, x ∈ ([] : HandRange).map Prod.fst ↔ x ∈ ([] : List String) :=
    fun _ => Iff.rfl
  refine forEach_invariant (P := fun t => ∀ hand, hand ∈ t.mProbs.map Prod.fst ↔ hand ∈ t.vHands)
    (fun t₁ ij t₂ more h₁ hturn x => ?_) hnone h hand
  obtain ⟨-, added, pair, rfl⟩ := addPair_eq_ok hturn
  rw [withPair, mem_keys_emplace, List.mem_append, List.mem_singleton, h₁ x]

/-! ### Initialising again -/

theorem init_testCards (h : init N t = .ok t') : t'.testCards = t.testCards ++ N.testCards :=
  (forEach_addPair_extends h).testCards

/-- Every `init()` adds the eight test cards again. -/
theorem length_testCards_calls {cs : List TableCall} (h : calls N t cs = .ok t') :
    t'.testCards.length = t.testCards.length + 8 * cs.count .init := by
  induction cs generalizing t with
  | nil =>
      cases h
      rfl
  | cons c cs ih =>
      unfold calls at h
      obtain ⟨⟨t₁, more⟩, hcall⟩ := exists_turn_of_forEach h
      cases c with
      | init =>
          obtain ⟨t₂, hinit, hmore⟩ := bind_eq_ok.mp hcall
          cases hmore
          rw [forEach_cons_of_goesOn hcall] at h
          have height : N.testCards.length = 8 := rfl
          rw [ih h, init_testCards hinit, List.length_append, List.count_cons_self]
          omega
      | final =>
          cases hcall
          rw [forEach_cons_of_goesOn rfl] at h
          rw [ih h, List.count_cons_of_ne (by decide)]
          rfl

theorem calls_of_not_mem {cs : List TableCall} (h : .init ∉ cs) :
    calls N fresh cs = .ok fresh := by
  induction cs with
  | nil => rfl
  | cons c cs ih =>
      cases c with
      | init => exact absurd List.mem_cons_self h
      | final => exact ih fun hmem => h (List.mem_cons_of_mem _ hmem)

/-- The tables are those of a single `init()` exactly when there was none before the last. -/
theorem same_iff {cs : List TableCall} {t₁ t₀ : Tables} (hcalls : calls N fresh cs = .ok t₁)
    (h : init N t₁ = .ok t) (h₀ : init N fresh = .ok t₀) : t = t₀ ↔ .init ∉ cs := by
  constructor
  · rintro rfl hmem
    have hlen := congrArg List.length ((init_testCards h).symm.trans (init_testCards h₀))
    rw [List.length_append, length_testCards_calls hcalls, List.length_append] at hlen
    have hcount : 0 < cs.count .init := List.count_pos_iff.mpr hmem
    omega
  · intro hno
    cases hcalls.symm.trans (calls_of_not_mem hno)
    exact Except.ok.inj (h.symm.trans h₀)

/-- Initialised, finalised and initialised again. -/
theorem same_again : ∃ t₁ t t₀, calls allLetters fresh [.init, .final] = .ok t₁ ∧
    init allLetters t₁ = .ok t ∧ init allLetters fresh = .ok t₀ ∧
      (t = t₀ ↔ TableCall.init ∉ [.init, .final]) := by
  obtain ⟨t₁, hcalls⟩ : ∃ t₁, calls allLetters fresh [.init, .final] = .ok t₁ := ⟨_, rfl⟩
  obtain ⟨t₀, h₀⟩ := init_fresh allLetters
  obtain ⟨t, h⟩ : ∃ t, init allLetters t₁ = .ok t := by
    cases hcalls
    exact ⟨_, rfl⟩
  exact ⟨t₁, t, t₀, hcalls, h, h₀, same_iff hcalls h h₀⟩

/-! ### How often -/

/-- The loops read the cards at both places. -/
theorem lt_of_forEach_addPair {ijs : List (Nat × Nat)} (h : forEach addPair t ijs = .ok t') :
    ∀ ij ∈ ijs, ij.2 < t.vCards.length := by
  induction ijs generalizing t with
  | nil => exact fun _ hij => absurd hij List.not_mem_nil
  | cons ij ijs ih =>
      obtain ⟨⟨t₁, more⟩, hturn⟩ := exists_turn_of_forEach h
      obtain ⟨rfl, -⟩ := addPair_eq_ok hturn
      rw [forEach_cons_of_goesOn hturn] at h
      have hrest := ih h
      rw [(addPair_extends hturn).vCards] at hrest
      refine List.forall_mem_cons.mpr ⟨?_, hrest⟩
      obtain ⟨_, -, hturn⟩ := bind_eq_ok.mp hturn
      obtain ⟨_, -, hturn⟩ := bind_eq_ok.mp hturn
      obtain ⟨_, hcard, -⟩ := bind_eq_ok.mp hturn
      exact Int.ofNat_lt.mp (bounds_of_readAt hcard).2

/-- `init()` pairs the 52 cards by the places of the test cards. -/
theorem exists_init_iff : (∃ t', init N t = .ok t') ↔ t.testCards.length + 8 ≤ 52 := by
  have htest : (t.initCardsList N).testCards.length = t.testCards.length + 8 := by
    rw [initCardsList, List.length_append]
    rfl
  have hcards : (t.initCardsList N).vCards.length = 52 := rfl
  constructor
  · rintro ⟨t', h⟩
    have hlast : (0, t.testCards.length + 7) ∈
        indexPairs (t.initCardsList N).testCards.length :=
      mem_indexPairs.mpr (by omega)
    have hlt := lt_of_forEach_addPair h _ hlast
    exact Nat.lt_of_lt_of_eq hlt hcards
  · intro hle
    refine exists_forEach_addPair fun ij hij => ?_
    obtain ⟨hlt, hj⟩ := mem_indexPairs.mp hij
    exact ⟨hlt, hj, hcards ▸ by omega⟩

theorem exists_calls_init_iff {cs : List TableCall} :
    (∃ t', calls N t (.init :: cs) = .ok t') ↔
      ∃ t₁, init N t = .ok t₁ ∧ ∃ t', calls N t₁ cs = .ok t' := by
  constructor
  · rintro ⟨t', h⟩
    obtain ⟨⟨t₁, more⟩, hcall⟩ := exists_turn_of_forEach h
    obtain ⟨t₂, hinit, hmore⟩ := bind_eq_ok.mp hcall
    cases hmore
    exact ⟨t₁, hinit, t', (forEach_cons_of_goesOn hcall).symm.trans h⟩
  · rintro ⟨t₁, hinit, t', h⟩
    have hcall : call N t .init = .ok (t₁, true) := by rw [call, hinit, ok_bind]
    exact ⟨t', (forEach_cons_of_goesOn hcall).trans h⟩

/-- Calls of `init` go on as long as all test cards that they add have a place among the cards. -/
theorem exists_calls_iff {cs : List TableCall} :
    (∃ t', calls N t cs = .ok t') ↔
      cs.count .init = 0 ∨ t.testCards.length + 8 * cs.count .init ≤ 52 := by
  induction cs generalizing t with
  | nil => exact iff_of_true ⟨t, rfl⟩ (.inl rfl)
  | cons c cs ih =>
      cases c with
      | init =>
          rw [exists_calls_init_iff, List.count_cons_self]
          constructor
          · rintro ⟨t₁, hinit, hrest⟩
            have hle := exists_init_iff.mp ⟨t₁, hinit⟩
            have hlen : t₁.testCards.length = t.testCards.length + 8 := by
              rw [init_testCards hinit, List.length_append]
              rfl
            rcases ih.mp hrest with hzero | hmore
            · omega
            · omega
          · intro h
            obtain ⟨t₁, hinit⟩ : ∃ t₁, init N t = .ok t₁ := exists_init_iff.mpr (by omega)
            have hlen : t₁.testCards.length = t.testCards.length + 8 := by
              rw [init_testCards hinit, List.length_append]
              rfl
            exact ⟨t₁, hinit, ih.mpr (by omega)⟩
      | final =>
          rw [List.count_cons_of_ne (by decide)]
          exact ih (t := t.final)

/-- **Six times.**  Calls of `init` and `final` on a new object read no card that is not there
exactly as long as no more than six of them are `init`: each one adds the eight test cards again,
and pairs the 52 cards by their places. -/
theorem calls_defined_iff (N : CardNames) (cs : List TableCall) :
    (∃ t, calls N fresh cs = .ok t) ↔ cs.count .init ≤ 6 := by
  rw [exists_calls_iff]
  have hlen : fresh.testCards.length = 0 := rfl
  omega

end Tables

end Holdem.Decide
