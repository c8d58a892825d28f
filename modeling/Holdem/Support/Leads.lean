import Mathlib.Data.Fintype.Order
import Mathlib.Order.WellFounded
import Holdem.Support.Runs

/-!
# Support — Leads

What a system comes to under every fair schedule, over any step function, any kind of action and any
parties.  A schedule is an endless sequence of actions; an action that is not enabled is skipped
(`advance`).  It is `Fair` when it keeps to the actions allowed and every party takes a turn again
and again.

`Leads P Q` says that from `P` every fair schedule gets to `Q`.  Each step of an argument is one
turn of one party (`leads_of_turn`) or the work of one party along a rank (`leads_of_steps`); steps
are put one behind the other (`Leads.trans`, `Leads.then_`) and along a rank that falls
(`Leads.of_rank`).
-/

namespace Holdem.Support

variable {σ α ι : Type*}

/-- The state after an action.  One that is not enabled is skipped. -/
def advance (step : σ → α → Option σ) (s : σ) (a : α) : σ := (step s a).getD s

/-- The state after the first `n` actions of a schedule. -/
def after (step : σ → α → Option σ) (sched : Nat → α) (s : σ) : Nat → σ
  | 0     => s
  | n + 1 => advance step (after step sched s n) (sched n)

/-- Only actions that are allowed, and every party's turn again and again. -/
structure Fair (allowed : α → Prop) (turn : ι → α → Prop) (sched : Nat → α) : Prop where
  allowed : ∀ n, allowed (sched n)
  turns : ∀ i n, ∃ k, n ≤ k ∧ turn i (sched k)

/-- From `P`, every fair schedule gets to `Q`. -/
def Leads (step : σ → α → Option σ) (allowed : α → Prop) (turn : ι → α → Prop)
    (P Q : σ → Prop) : Prop :=
  ∀ sched, Fair allowed turn sched → ∀ s, P s → ∃ n, Q (after step sched s n)

variable {step : σ → α → Option σ} {allowed : α → Prop} {turn : ι → α → Prop}

theorem advance_of_some {s s' : σ} {a : α} (h : step s a = some s') : advance step s a = s' := by
  rw [advance, h, Option.getD_some]

theorem advance_of_none {s : σ} {a : α} (h : step s a = none) : advance step s a = s := by
  rw [advance, h, Option.getD_none]

/-- What holds after an action: what the action leads to, or what held before it. -/
theorem advance_cases {P : σ → Prop} {s : σ} {a : α} (hs : P s)
    (hstep : ∀ s', step s a = some s' → P s') : P (advance step s a) := by
  cases h : step s a with
  | none => rwa [advance_of_none h]
  | some s' =>
      rw [advance_of_some h]
      exact hstep s' h

/-! ### Schedules -/

theorem after_add (sched : Nat → α) (s : σ) (n k : Nat) :
    after step sched s (n + k) =
      after step (fun i => sched (n + i)) (after step sched s n) k := by
  induction k with
  | zero => rfl
  | succ k ih =>
      show advance step (after step sched s (n + k)) (sched (n + k)) = _
      rw [ih]
      rfl

theorem Fair.mono {allowed' : α → Prop} {sched : Nat → α} (h : Fair allowed turn sched)
    (himp : ∀ a, allowed a → allowed' a) : Fair allowed' turn sched :=
  ⟨fun n => himp _ (h.allowed n), h.turns⟩

/-- What is left of a fair schedule is fair. -/
theorem Fair.drop {sched : Nat → α} (h : Fair allowed turn sched) (n : Nat) :
    Fair allowed turn fun i => sched (n + i) where
  allowed := fun k => h.allowed (n + k)
  turns := by
    intro i m
    obtain ⟨k, hk, hturn⟩ := h.turns i (n + m)
    refine ⟨k - n, by omega, ?_⟩
    rwa [Nat.add_sub_cancel' (by omega)]

/-- What the actions allowed keep holds all along the schedule. -/
theorem after_invariant {P : σ → Prop}
    (hstep : ∀ s a s', P s → allowed a → step s a = some s' → P s') {sched : Nat → α}
    (hfair : Fair allowed turn sched) {s : σ} (hs : P s) (n : Nat) : P (after step sched s n) := by
  induction n with
  | zero => exact hs
  | succ n ih => exact advance_cases ih fun s' h => hstep _ _ s' ih (hfair.allowed n) h

/-- What a schedule gets to, a run gets to. -/
theorem exists_run_after (sched : Nat → α) (s : σ) (n : Nat) :
    ∃ as, run step s as = some (after step sched s n) := by
  induction n with
  | zero => exact ⟨[], rfl⟩
  | succ n ih =>
      obtain ⟨as, has⟩ := ih
      cases h : step (after step sched s n) (sched n) with
      | none => exact ⟨as, by rw [after, advance_of_none h, has]⟩
      | some s' =>
          refine ⟨as ++ [sched n], ?_⟩
          rw [run_append, has, after, advance_of_some h]
          exact run_cons h []

/-- The actions of a finite family in turn. -/
def roundRobin {k : Nat} (acts : Fin (k + 1) → α) (n : Nat) : α := acts (Fin.ofNat (k + 1) n)

theorem fair_roundRobin {k : Nat} {acts : Fin (k + 1) → α} (hallowed : ∀ j, allowed (acts j))
    (hturn : ∀ i, ∃ j, turn i (acts j)) : Fair allowed turn (roundRobin acts) where
  allowed := fun n => hallowed _
  turns := by
    intro i n
    obtain ⟨j, hj⟩ := hturn i
    refine ⟨(k + 1) * n + j, ?_, ?_⟩
    · exact Nat.le_add_right_of_le (Nat.le_mul_of_pos_left n (Nat.succ_pos k))
    · have hmod : Fin.ofNat (k + 1) ((k + 1) * n + j) = j :=
        Fin.ext ((Nat.mul_add_mod (k + 1) n j).trans (Nat.mod_eq_of_lt j.isLt))
      rwa [roundRobin, hmod]

/-! ### Leads -/

namespace Leads

variable {P P' Q Q' R : σ → Prop}

theorem trans (h : Leads step allowed turn P Q) (h' : Leads step allowed turn Q R) :
    Leads step allowed turn P R := by
  intro sched hfair s hs
  obtain ⟨n, hn⟩ := h sched hfair s hs
  obtain ⟨k, hk⟩ := h' _ (hfair.drop n) _ hn
  exact ⟨n + k, by rwa [after_add]⟩

/-- A second step, where the first may already have come out at `R`. -/
theorem then_ (h : Leads step allowed turn P fun s => R s ∨ Q s)
    (h' : Leads step allowed turn Q fun s => R s ∨ Q' s) :
    Leads step allowed turn P fun s => R s ∨ Q' s := by
  intro sched hfair s hs
  obtain ⟨n, hn⟩ := h sched hfair s hs
  rcases hn with hn | hn
  · exact ⟨n, Or.inl hn⟩
  · obtain ⟨k, hk⟩ := h' _ (hfair.drop n) _ hn
    exact ⟨n + k, by rwa [after_add]⟩

theorem mono (h : Leads step allowed turn P Q) (hP : ∀ s, P' s → P s) (hQ : ∀ s, Q s → Q' s) :
    Leads step allowed turn P' Q' := by
  intro sched hfair s hs
  obtain ⟨n, hn⟩ := h sched hfair s (hP s hs)
  exact ⟨n, hQ _ hn⟩

/-- What lasts once it is there is there for all of finitely many at one time. -/
theorem all {κ : Type*} [Finite κ] {Q : κ → σ → Prop}
    (hlasts : ∀ x s a s', Q x s → allowed a → step s a = some s' → Q x s')
    (h : ∀ x, Leads step allowed turn P (Q x)) :
    Leads step allowed turn P fun s => ∀ x, Q x s := by
  intro sched hfair s hs
  choose n hn using fun x => h x sched hfair s hs
  obtain ⟨k, hk⟩ := Finite.exists_le n
  refine ⟨k, fun x => ?_⟩
  have hlater := after_invariant (hlasts x) (hfair.drop (n x)) (hn x) (k - n x)
  rwa [← after_add, Nat.add_sub_cancel' (hk x)] at hlater

/-- **Ranks.**  If from every rank `P` leads to `Q`, or to `P` at a lower rank, then it leads to
`Q`. -/
theorem of_rank {ω : Type*} [LT ω] [WellFoundedLT ω] (rank : σ → ω)
    (h : ∀ r, Leads step allowed turn (fun s => P s ∧ rank s = r)
      fun s => Q s ∨ P s ∧ rank s < r) : Leads step allowed turn P Q := by
  suffices hr : ∀ r, Leads step allowed turn (fun s => P s ∧ rank s = r) Q from
    fun sched hfair s hs => hr (rank s) sched hfair s ⟨hs, rfl⟩
  intro r
  induction r using WellFoundedLT.induction with
  | ind r ih =>
      intro sched hfair s hs
      obtain ⟨n, hn⟩ := h r sched hfair s hs
      rcases hn with hn | ⟨hn, hlt⟩
      · exact ⟨n, hn⟩
      · obtain ⟨k, hk⟩ := ih _ hlt _ (hfair.drop n) _ ⟨hn, rfl⟩
        exact ⟨n + k, by rwa [after_add]⟩

end Leads

/-- **One turn.**  Whatever is done, `P` stays until `Q` comes, and a turn of the party `i` brings
`Q`. -/
theorem leads_of_turn {P Q : σ → Prop} (i : ι)
    (hstep : ∀ s a, P s → allowed a → Q (advance step s a) ∨ P (advance step s a))
    (hturn : ∀ s a, P s → allowed a → turn i a → Q (advance step s a)) :
    Leads step allowed turn P Q := by
  intro sched hfair s hs
  obtain ⟨k, -, hk⟩ := hfair.turns i 0
  have hwait : ∀ n, (∃ j, Q (after step sched s j)) ∨ P (after step sched s n) := by
    intro n
    induction n with
    | zero => exact Or.inr hs
    | succ n ih =>
        rcases ih with hQ | hP
        · exact Or.inl hQ
        · rcases hstep _ (sched n) hP (hfair.allowed n) with hQ | hP'
          · exact Or.inl ⟨n + 1, hQ⟩
          · exact Or.inr hP'
  rcases hwait k with hQ | hP
  · exact hQ
  · exact ⟨k + 1, hturn _ _ hP (hfair.allowed k) hk⟩

/-- A rank that never rises, and that a turn of the party `i` brings down. -/
theorem leads_of_falling {P Q : σ → Prop} {ω : Type*} [PartialOrder ω] [WellFoundedLT ω]
    (rank : σ → ω) (i : ι)
    (hstep : ∀ s a, P s → allowed a →
      Q (advance step s a) ∨ P (advance step s a) ∧ rank (advance step s a) ≤ rank s)
    (hturn : ∀ s a, P s → allowed a → turn i a →
      Q (advance step s a) ∨ P (advance step s a) ∧ rank (advance step s a) < rank s) :
    Leads step allowed turn P Q := by
  refine Leads.of_rank rank fun r => leads_of_turn i ?_ ?_
  · rintro s a ⟨hP, rfl⟩ ha
    rcases hstep s a hP ha with hQ | ⟨hP', hle⟩
    · exact Or.inl (Or.inl hQ)
    · rcases hle.lt_or_eq with hlt | heq
      · exact Or.inl (Or.inr ⟨hP', hlt⟩)
      · exact Or.inr ⟨hP', heq⟩
  · rintro s a ⟨hP, rfl⟩ ha hi
    exact hturn s a hP ha hi

/-- The same, by the actions that are enabled.  Those of the party `i` always are. -/
theorem leads_of_steps {P Q : σ → Prop} {ω : Type*} [PartialOrder ω] [WellFoundedLT ω]
    (rank : σ → ω) (i : ι)
    (hstep : ∀ s a s', P s → allowed a → step s a = some s' →
      Q s' ∨ P s' ∧ rank s' ≤ rank s ∧ (turn i a → rank s' < rank s))
    (henabled : ∀ s a, P s → allowed a → turn i a → ∃ s', step s a = some s') :
    Leads step allowed turn P Q := by
  refine leads_of_falling rank i ?_ ?_
  · intro s a hP ha
    cases h : step s a with
    | none =>
        rw [advance_of_none h]
        exact Or.inr ⟨hP, le_refl _⟩
    | some s' =>
        rw [advance_of_some h]
        rcases hstep s a s' hP ha h with hQ | ⟨hP', hle, -⟩
        · exact Or.inl hQ
        · exact Or.inr ⟨hP', hle⟩
  · intro s a hP ha hi
    obtain ⟨s', h⟩ := henabled s a hP ha hi
    rw [advance_of_some h]
    rcases hstep s a s' hP ha h with hQ | ⟨hP', -, hlt⟩
    · exact Or.inl hQ
    · exact Or.inr ⟨hP', hlt hi⟩

end Holdem.Support
