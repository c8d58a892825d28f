import Mathlib.Data.List.Basic

/-!
# Support — Checked

Computations that undefined behaviour stops: a vector read or written out of range, and a division
by zero.  An index is an integer, as a program computes it.

* `bind_eq_ok`: a sequence that is not stopped, taken apart.
* `readAt_of_bounds`, `readAt_of_not_bounds` and their like: a read or a write is stopped exactly
  when an index is out of range; `Grid` is the vectors of vectors of equal lengths.
* `mem_of_readAt`, `forall_writeAt`: what holds of every entry of a vector holds of what is read
  from it, and after a write of a value that has it; likewise for vectors of vectors
  (`forall_writeAt₂`).
-/

namespace Holdem.Support

/-- What is undefined. -/
inductive Fault
  | index | division
  deriving DecidableEq, Repr

/-- A value, unless something undefined comes first. -/
abbrev Checked (α : Type*) := Except Fault α

instance {α : Type*} [DecidableEq α] : DecidableEq (Checked α)
  | .ok a, .ok b       => decidable_of_iff (a = b) (Except.ok.injEq a b ▸ Iff.rfl)
  | .error e, .error f => decidable_of_iff (e = f) (Except.error.injEq e f ▸ Iff.rfl)
  | .ok _, .error _    => isFalse nofun
  | .error _, .ok _    => isFalse nofun

universe u

variable {α β : Type u}

theorem bind_eq_ok {x : Checked α} {f : α → Checked β} {b : β} :
    (x >>= f) = .ok b ↔ ∃ a, x = .ok a ∧ f a = .ok b := by
  cases x with
  | error e => simp [bind, Except.bind]
  | ok a => simp [bind, Except.bind]

theorem map_eq_ok {x : Checked α} {f : α → β} {b : β} :
    x.map f = .ok b ↔ ∃ a, x = .ok a ∧ f a = b := by
  cases x with
  | error e => simp [Except.map]
  | ok a => simp [Except.map]

theorem ok_bind (a : α) (f : α → Checked β) : ((.ok a : Checked α) >>= f) = f a := rfl

theorem error_bind (e : Fault) (f : α → Checked β) :
    ((.error e : Checked α) >>= f) = .error e := rfl

theorem bind_eq_error {x : Checked α} {f : α → Checked β} {e : Fault} :
    (x >>= f) = .error e ↔ x = .error e ∨ ∃ a, x = .ok a ∧ f a = .error e := by
  cases x with
  | error e' => simp [bind, Except.bind]
  | ok a => simp [bind, Except.bind]

/-- A sequence whose second part is never stopped. -/
theorem bind_eq_error_left {x : Checked α} {f : α → Checked β} {e : Fault}
    (h : ∀ a, ∃ b, f a = .ok b) : (x >>= f) = .error e ↔ x = .error e := by
  refine bind_eq_error.trans (or_iff_left ?_)
  rintro ⟨a, -, herr⟩
  obtain ⟨b, hok⟩ := h a
  cases hok.symm.trans herr

/-- `x / y`, rounded towards zero. -/
def divide (x y : Int) : Checked Int := if y = 0 then .error .division else .ok (x.tdiv y)

/-! ### Vectors -/

/-- `v[i]`. -/
def readAt (v : List α) (i : Int) : Checked α :=
  match if 0 ≤ i then v[i.toNat]? else none with
  | some a => .ok a
  | none   => .error .index

/-- `v[i] = a`. -/
def writeAt (v : List α) (i : Int) (a : α) : Checked (List α) :=
  if 0 ≤ i ∧ i.toNat < v.length then .ok (v.set i.toNat a) else .error .index

/-- `v[i][j]`. -/
def readAt₂ (v : List (List α)) (i j : Int) : Checked α := do
  readAt (← readAt v i) j

/-- `v[i][j] = a`. -/
def writeAt₂ (v : List (List α)) (i j : Int) (a : α) : Checked (List (List α)) := do
  writeAt v i (← writeAt (← readAt v i) j a)

theorem readAt_eq_ok {v : List α} {i : Int} {a : α} :
    readAt v i = .ok a ↔ 0 ≤ i ∧ v[i.toNat]? = some a := by
  unfold readAt
  by_cases hi : 0 ≤ i
  · cases v[i.toNat]? with
    | none => simp [hi]
    | some b => simp [hi]
  · simp [hi]

theorem writeAt_eq_ok {v w : List α} {i : Int} {a : α} :
    writeAt v i a = .ok w ↔ (0 ≤ i ∧ i.toNat < v.length) ∧ v.set i.toNat a = w := by
  unfold writeAt
  by_cases hi : 0 ≤ i ∧ i.toNat < v.length
  · simp [hi]
  · simp [hi]

theorem mem_of_readAt {v : List α} {i : Int} {a : α} (h : readAt v i = .ok a) : a ∈ v :=
  List.mem_of_getElem? (readAt_eq_ok.mp h).2

theorem exists_readAt_of_mem {v : List α} {a : α} (h : a ∈ v) : ∃ i, readAt v i = .ok a := by
  obtain ⟨n, hn⟩ := List.mem_iff_getElem?.mp h
  exact ⟨n, readAt_eq_ok.mpr ⟨Int.natCast_nonneg n, hn⟩⟩

theorem forall_writeAt {P : α → Prop} {v w : List α} {i : Int} {a : α} (h : writeAt v i a = .ok w)
    (hv : ∀ x ∈ v, P x) (ha : P a) : ∀ x ∈ w, P x := by
  obtain ⟨-, rfl⟩ := writeAt_eq_ok.mp h
  intro x hx
  rcases List.mem_or_eq_of_mem_set hx with hx | rfl
  · exact hv x hx
  · exact ha

/-- What is written is read back; the other entries are as before. -/
theorem readAt_of_writeAt {v w : List α} {i j : Int} {a b : α} (h : writeAt v i a = .ok w)
    (hr : readAt w j = .ok b) : j = i ∧ b = a ∨ j ≠ i ∧ readAt v j = .ok b := by
  obtain ⟨⟨hi, hlt⟩, rfl⟩ := writeAt_eq_ok.mp h
  obtain ⟨hj, hb⟩ := readAt_eq_ok.mp hr
  by_cases hij : j = i
  · subst hij
    rw [List.getElem?_set_self hlt] at hb
    exact .inl ⟨rfl, (Option.some.inj hb).symm⟩
  · have hne : i.toNat ≠ j.toNat := by omega
    rw [List.getElem?_set_ne hne] at hb
    exact .inr ⟨hij, readAt_eq_ok.mpr ⟨hj, hb⟩⟩

theorem readAt_written {v w : List α} {i : Int} {a : α} (h : writeAt v i a = .ok w) :
    readAt w i = .ok a := by
  obtain ⟨⟨hi, hlt⟩, rfl⟩ := writeAt_eq_ok.mp h
  exact readAt_eq_ok.mpr ⟨hi, List.getElem?_set_self hlt⟩

theorem readAt₂_eq_ok {v : List (List α)} {i j : Int} {a : α} :
    readAt₂ v i j = .ok a ↔ ∃ row, readAt v i = .ok row ∧ readAt row j = .ok a := bind_eq_ok

theorem writeAt₂_eq_ok {v w : List (List α)} {i j : Int} {a : α} :
    writeAt₂ v i j a = .ok w ↔ ∃ row row', readAt v i = .ok row ∧ writeAt row j a = .ok row' ∧
      writeAt v i row' = .ok w := by
  simp only [writeAt₂, bind_eq_ok]
  constructor
  · rintro ⟨row, hr, row', hw, h⟩
    exact ⟨row, row', hr, hw, h⟩
  · rintro ⟨row, row', hr, hw, h⟩
    exact ⟨row, hr, row', hw, h⟩

theorem readAt₂_written {v w : List (List α)} {i j : Int} {a : α}
    (h : writeAt₂ v i j a = .ok w) : readAt₂ w i j = .ok a := by
  obtain ⟨row, row', -, hrow', hw⟩ := writeAt₂_eq_ok.mp h
  exact readAt₂_eq_ok.mpr ⟨row', readAt_written hw, readAt_written hrow'⟩

theorem forall_readAt₂ {P : α → Prop} {v : List (List α)} {i j : Int} {a : α}
    (h : readAt₂ v i j = .ok a) (hv : ∀ row ∈ v, ∀ x ∈ row, P x) : P a := by
  obtain ⟨row, hrow, ha⟩ := readAt₂_eq_ok.mp h
  exact hv row (mem_of_readAt hrow) a (mem_of_readAt ha)

theorem forall_writeAt₂ {P : α → Prop} {v w : List (List α)} {i j : Int} {a : α}
    (h : writeAt₂ v i j a = .ok w) (hv : ∀ row ∈ v, ∀ x ∈ row, P x) (ha : P a) :
    ∀ row ∈ w, ∀ x ∈ row, P x := by
  obtain ⟨row, row', hrow, hwrite, hw⟩ := writeAt₂_eq_ok.mp h
  exact forall_writeAt (P := fun row => ∀ x ∈ row, P x) hw hv
    (forall_writeAt hwrite (hv row (mem_of_readAt hrow)) ha)

/-! ### Bounds -/

/-- The index is in range of so many entries. -/
def Bounds (i : Int) (n : Nat) : Prop := 0 ≤ i ∧ i < n

instance (i : Int) (n : Nat) : Decidable (Bounds i n) := inferInstanceAs (Decidable (_ ∧ _))

theorem bounds_natCast {k n : Nat} (h : k < n) : Bounds k n :=
  ⟨Int.natCast_nonneg k, Int.ofNat_lt.mpr h⟩

theorem readAt_of_bounds {v : List α} {i : Int} (h : Bounds i v.length) :
    ∃ a, readAt v i = .ok a := by
  have hlt : i.toNat < v.length := by
    have := h.1
    have := h.2
    omega
  exact ⟨v[i.toNat], readAt_eq_ok.mpr ⟨h.1, List.getElem?_eq_getElem hlt⟩⟩

theorem bounds_of_readAt {v : List α} {i : Int} {a : α} (h : readAt v i = .ok a) :
    Bounds i v.length := by
  obtain ⟨h0, hget⟩ := readAt_eq_ok.mp h
  obtain ⟨hlt, -⟩ := List.getElem?_eq_some_iff.mp hget
  exact ⟨h0, by omega⟩

theorem exists_readAt_iff {v : List α} {i : Int} : (∃ a, readAt v i = .ok a) ↔ Bounds i v.length :=
  ⟨fun ⟨_, h⟩ => bounds_of_readAt h, readAt_of_bounds⟩

theorem readAt_of_not_bounds {v : List α} {i : Int} (h : ¬ Bounds i v.length) :
    readAt v i = .error .index := by
  unfold readAt
  by_cases h0 : 0 ≤ i
  · have hle : v.length ≤ i.toNat := by
      by_contra hn
      exact h ⟨h0, by omega⟩
    rw [if_pos h0, List.getElem?_eq_none hle]
  · rw [if_neg h0]

theorem writeAt_of_bounds {v : List α} {i : Int} (h : Bounds i v.length) (a : α) :
    writeAt v i a = .ok (v.set i.toNat a) := by
  have hlt : i.toNat < v.length := by
    have := h.1
    have := h.2
    omega
  exact writeAt_eq_ok.mpr ⟨⟨h.1, hlt⟩, rfl⟩

theorem writeAt_of_not_bounds {v : List α} {i : Int} (h : ¬ Bounds i v.length) (a : α) :
    writeAt v i a = .error .index := by
  refine if_neg fun hb => h ⟨hb.1, ?_⟩
  have := hb.1
  have := hb.2
  omega

theorem length_of_writeAt {v w : List α} {i : Int} {a : α} (h : writeAt v i a = .ok w) :
    w.length = v.length := by
  obtain ⟨-, rfl⟩ := writeAt_eq_ok.mp h
  exact List.length_set

/-- So many rows, each of so many entries. -/
structure Grid (rows columns : Nat) (v : List (List α)) : Prop where
  rows_eq : v.length = rows
  columns_eq : ∀ row ∈ v, row.length = columns

variable {rows columns : Nat} {v : List (List α)} {i j : Int}

theorem grid_replicate (rows columns : Nat) (a : α) :
    Grid rows columns (List.replicate rows (List.replicate columns a)) where
  rows_eq := List.length_replicate
  columns_eq := by
    intro row hrow
    rw [List.eq_of_mem_replicate hrow, List.length_replicate]

namespace Grid

theorem readAt₂_of_bounds (hv : Grid rows columns v) (hi : Bounds i rows)
    (hj : Bounds j columns) : ∃ a, readAt₂ v i j = .ok a := by
  obtain ⟨row, hrow⟩ := readAt_of_bounds (v := v) (by rwa [hv.rows_eq])
  obtain ⟨a, ha⟩ := readAt_of_bounds (v := row)
    (by rwa [hv.columns_eq row (mem_of_readAt hrow)])
  exact ⟨a, readAt₂_eq_ok.mpr ⟨row, hrow, ha⟩⟩

theorem writeAt₂_of_bounds (hv : Grid rows columns v) (hi : Bounds i rows)
    (hj : Bounds j columns) (a : α) : ∃ w, writeAt₂ v i j a = .ok w := by
  obtain ⟨row, hrow⟩ := readAt_of_bounds (v := v) (by rwa [hv.rows_eq])
  have hset := writeAt_of_bounds (v := row)
    (by rwa [hv.columns_eq row (mem_of_readAt hrow)]) a
  exact ⟨_, writeAt₂_eq_ok.mpr
    ⟨row, _, hrow, hset, writeAt_of_bounds (by rwa [hv.rows_eq]) _⟩⟩

theorem of_writeAt₂ (hv : Grid rows columns v) {a : α} {w : List (List α)}
    (h : writeAt₂ v i j a = .ok w) : Grid rows columns w := by
  obtain ⟨row, row', hrow, hrow', hw⟩ := writeAt₂_eq_ok.mp h
  refine ⟨(length_of_writeAt hw).trans hv.rows_eq, ?_⟩
  exact forall_writeAt (P := fun row => row.length = columns) hw hv.columns_eq
    ((length_of_writeAt hrow').trans (hv.columns_eq row (mem_of_readAt hrow)))

end Grid

end Holdem.Support
