import Mathlib.Data.List.Basic

/-!
# Support — Memory

A block of memory as a function from offsets to cells, over any type of cell.  `slice m a n` is
the `n` cells from offset `a`; `write m a d` stores the cells `d` at offset `a`, and is what
`memcpy` does to its destination.  `move m a b n` copies `n` cells from offset `b` to offset `a` as
`memmove` does: the cells are read before any of them is written.

The lemmas say how a slice is cut (`slice_add`), what a write leaves in the slice it covers
(`slice_write_self`) and what it leaves alone (`slice_write_of_le`).
-/

namespace Holdem.Support

/-- A block of memory: the cell at each offset. -/
abbrev Memory (α : Type*) := Nat → α

variable {α : Type*}

/-- The `n` cells from offset `a`. -/
def slice (m : Memory α) : Nat → Nat → List α
  | _, 0     => []
  | a, n + 1 => m a :: slice m (a + 1) n

/-- The memory after the cells `d` are stored from offset `a`. -/
def write (m : Memory α) (a : Nat) (d : List α) : Memory α :=
  fun i => if a ≤ i then d[i - a]?.getD (m i) else m i

/-- The memory after `n` cells are moved from offset `b` to offset `a`. -/
def move (m : Memory α) (a b n : Nat) : Memory α := write m a (slice m b n)

/-! ### Slices -/

@[simp] theorem slice_zero (m : Memory α) (a : Nat) : slice m a 0 = [] := rfl

@[simp] theorem length_slice (m : Memory α) (a n : Nat) : (slice m a n).length = n := by
  induction n generalizing a with
  | zero => rfl
  | succ n ih => simp only [slice, List.length_cons, ih]

theorem getElem?_slice (m : Memory α) (a n i : Nat) :
    (slice m a n)[i]? = if i < n then some (m (a + i)) else none := by
  induction n generalizing a i with
  | zero => rfl
  | succ n ih =>
      cases i with
      | zero => simp [slice]
      | succ i =>
          simp only [slice, List.getElem?_cons_succ, ih, Nat.add_lt_add_iff_right]
          rw [show a + 1 + i = a + (i + 1) by omega]

/-- Two memories that agree on the offsets `a ≤ i < a + n` have the same slice there. -/
theorem slice_congr {m m' : Memory α} {a n : Nat} (h : ∀ i, a ≤ i → i < a + n → m i = m' i) :
    slice m a n = slice m' a n := by
  apply List.ext_getElem?
  intro i
  rw [getElem?_slice, getElem?_slice]
  split
  · rename_i hi
    rw [h (a + i) (by omega) (by omega)]
  · rfl

/-- A slice is cut at any length. -/
theorem slice_add (m : Memory α) (a n k : Nat) :
    slice m a (n + k) = slice m a n ++ slice m (a + n) k := by
  induction n generalizing a with
  | zero => simp
  | succ n ih =>
      rw [show n + 1 + k = n + k + 1 by omega]
      simp only [slice, ih, List.cons_append]
      rw [show a + 1 + n = a + (n + 1) by omega]

theorem take_slice (m : Memory α) (a : Nat) {n k : Nat} (h : k ≤ n) :
    (slice m a n).take k = slice m a k := by
  obtain ⟨j, rfl⟩ := Nat.exists_eq_add_of_le h
  rw [slice_add, List.take_left' (length_slice m a k)]

theorem drop_slice (m : Memory α) (a : Nat) {n k : Nat} (h : k ≤ n) :
    (slice m a n).drop k = slice m (a + k) (n - k) := by
  obtain ⟨j, rfl⟩ := Nat.exists_eq_add_of_le h
  rw [slice_add, List.drop_left' (length_slice m a k), Nat.add_sub_cancel_left]

/-! ### Writes -/

theorem write_of_lt (m : Memory α) {a i : Nat} (d : List α) (h : i < a) : write m a d i = m i := by
  simp only [write, if_neg (Nat.not_le.mpr h)]

/-- A write reads back. -/
theorem slice_write_self (m : Memory α) (a : Nat) (d : List α) :
    slice (write m a d) a d.length = d := by
  apply List.ext_getElem?
  intro i
  rw [getElem?_slice]
  split
  · rename_i hi
    simp [write, hi]
  · rename_i hi
    rw [List.getElem?_eq_none (by omega)]

/-- A write leaves the cells before it alone. -/
theorem slice_write_of_le (m : Memory α) {a b n : Nat} (d : List α) (h : b + n ≤ a) :
    slice (write m a d) b n = slice m b n :=
  slice_congr fun i _ hi => write_of_lt m d (by omega)

/-- A write right behind a slice extends the slice. -/
theorem slice_write_append (m : Memory α) {a b n : Nat} (d : List α) (h : b + n = a) :
    slice (write m a d) b (n + d.length) = slice m b n ++ d := by
  subst h
  rw [slice_add, slice_write_of_le m d (Nat.le_refl _), slice_write_self]

/-! ### Moves -/

/-- A move reads back what stood at its source, also when the two ranges overlap. -/
theorem slice_move_self (m : Memory α) (a b n : Nat) : slice (move m a b n) a n = slice m b n := by
  have h := slice_write_self m a (slice m b n)
  rwa [length_slice] at h

end Holdem.Support
