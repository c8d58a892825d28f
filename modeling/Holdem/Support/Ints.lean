import Mathlib.Data.List.Basic

/-!
# Support — Ints

Operations on `int`s of 32 bits, with the values they are given, and whether they are defined.  Up
to the first operation that is not, these values are those of exact arithmetic.

* `defined_div_iff`: a quotient is out of range for one dividend only.
* `scales_iff`, `defined_div_hundred_iff`: percents.
-/

namespace Holdem.Support

/-- The values of an `int`. -/
def IsInt (x : Int) : Prop := -2147483648 ≤ x ∧ x ≤ 2147483647

instance (x : Int) : Decidable (IsInt x) := inferInstanceAs (Decidable (_ ∧ _))

/-- An operation, with its operands. -/
inductive Operation
  | add (x y : Int)
  | sub (x y : Int)
  | mul (x y : Int)
  | div (x y : Int)
  | abs (x : Int)
  /-- `(int)` of a floating-point number, with its whole part. -/
  | toInt (x : Int)
  deriving DecidableEq, Repr

namespace Operation

/-- The result is an `int`, and no division is by zero. -/
def Defined : Operation → Prop
  | add x y => IsInt (x + y)
  | sub x y => IsInt (x - y)
  | mul x y => IsInt (x * y)
  | div x y => y ≠ 0 ∧ IsInt (x.tdiv y)
  | abs x   => IsInt x.natAbs
  | toInt x => IsInt x

instance : ∀ o : Operation, Decidable o.Defined
  | add x y => inferInstanceAs (Decidable (IsInt (x + y)))
  | sub x y => inferInstanceAs (Decidable (IsInt (x - y)))
  | mul x y => inferInstanceAs (Decidable (IsInt (x * y)))
  | div x y => inferInstanceAs (Decidable (y ≠ 0 ∧ IsInt (x.tdiv y)))
  | abs x   => inferInstanceAs (Decidable (IsInt x.natAbs))
  | toInt x => inferInstanceAs (Decidable (IsInt x))

end Operation

/-- All operations are defined. -/
def Computes (ops : List Operation) : Prop := ∀ o ∈ ops, o.Defined

instance (ops : List Operation) : Decidable (Computes ops) :=
  inferInstanceAs (Decidable (∀ o ∈ ops, o.Defined))

section
variable {o : Operation} {ops ops' : List Operation} {x y : Int}

@[simp] theorem computes_nil : Computes [] := nofun

@[simp] theorem computes_cons : Computes (o :: ops) ↔ o.Defined ∧ Computes ops :=
  List.forall_mem_cons

@[simp] theorem computes_append : Computes (ops ++ ops') ↔ Computes ops ∧ Computes ops' :=
  List.forall_mem_append

/-- A quotient is no larger than its dividend, so that only the least `int` has one that is out of
range. -/
theorem defined_div_iff (h : IsInt x) (hx : x ≠ -2147483648) :
    (Operation.div x y).Defined ↔ y ≠ 0 := by
  refine and_iff_left ?_
  have hle := Int.natAbs_tdiv_le_natAbs x y
  unfold IsInt at h ⊢
  omega

/-- A hundred times the value is an `int`. -/
def Scales (x : Int) : Prop := -21474836 ≤ x ∧ x ≤ 21474836

instance (x : Int) : Decidable (Scales x) := inferInstanceAs (Decidable (_ ∧ _))

theorem computes_map_iff {α : Type*} {f : α → Operation} {l : List α} :
    Computes (l.map f) ↔ ∀ a ∈ l, (f a).Defined :=
  List.forall_mem_map

theorem computes_flatMap_iff {α : Type*} {f : α → List Operation} {l : List α} :
    Computes (l.flatMap f) ↔ ∀ a ∈ l, Computes (f a) := by
  simp only [Computes, List.mem_flatMap, forall_exists_index, and_imp]
  exact ⟨fun h a ha o ho => h o a ha ho, fun h o a ha ho => h a ha o ho⟩

theorem scales_iff : IsInt (x * 100) ↔ Scales x := by
  unfold IsInt Scales
  omega

/-- A hundred times a value is not the least `int`. -/
theorem defined_div_hundred_iff (h : Scales x) :
    (Operation.div (x * 100) y).Defined ↔ y ≠ 0 :=
  defined_div_iff (scales_iff.mpr h) (by omega)

end

end Holdem.Support
