import Mathlib.Algebra.Order.Group.Nat
import Mathlib.Tactic.Ring

/-!
# Support — Endian

Numbers as bytes, most significant byte first.  `bytesBE k n` is the `k` low bytes of `n`, and
`ofBytesBE` reads a list of bytes back; the two are inverse on `k` bytes and on numbers below
`256 ^ k` (`ofBytesBE_bytesBE`, `bytesBE_ofBytesBE`).  A number of `j + k` bytes is its high part
followed by its low part (`bytesBE_add`).
-/

namespace Holdem.Support

/-- The `k` low bytes of `n`, most significant first. -/
def bytesBE : Nat → Nat → List UInt8
  | 0, _     => []
  | k + 1, n => UInt8.ofNat (n / 256 ^ k) :: bytesBE k n

/-- The number with these bytes, most significant first. -/
def ofBytesBE : List UInt8 → Nat
  | []      => 0
  | b :: bs => b.toNat * 256 ^ bs.length + ofBytesBE bs

@[simp] theorem length_bytesBE (k n : Nat) : (bytesBE k n).length = k := by
  induction k with
  | zero => rfl
  | succ k ih => simp only [bytesBE, List.length_cons, ih]

theorem ofBytesBE_lt (bs : List UInt8) : ofBytesBE bs < 256 ^ bs.length := by
  induction bs with
  | nil => exact Nat.one_pos
  | cons b bs ih =>
      have hb : b.toNat * 256 ^ bs.length ≤ 255 * 256 ^ bs.length :=
        Nat.mul_le_mul_right _ (by have := b.toNat_lt; omega)
      simp only [ofBytesBE, List.length_cons, Nat.pow_succ]
      omega

theorem ofBytesBE_bytesBE (k n : Nat) : ofBytesBE (bytesBE k n) = n % 256 ^ k := by
  induction k with
  | zero => exact (Nat.mod_one n).symm
  | succ k ih =>
      simp only [bytesBE, ofBytesBE, length_bytesBE, ih]
      rw [Nat.mod_pow_succ, UInt8.toNat_ofNat', Nat.add_comm, Nat.mul_comm]

/-- Bytes above the `k` low ones do not matter. -/
theorem bytesBE_add_mul (k n c : Nat) : bytesBE k (n + c * 256 ^ k) = bytesBE k n := by
  induction k generalizing c with
  | zero => rfl
  | succ k ih =>
      have hpow : c * 256 ^ (k + 1) = c * 256 * 256 ^ k := by ring
      simp only [bytesBE]
      rw [hpow, ih, Nat.add_mul_div_right _ _ (Nat.pow_pos (by decide))]
      congr 1
      apply UInt8.toNat_inj.mp
      simp only [UInt8.toNat_ofNat']
      omega

theorem bytesBE_ofBytesBE (bs : List UInt8) : bytesBE bs.length (ofBytesBE bs) = bs := by
  induction bs with
  | nil => rfl
  | cons b bs ih =>
      have hlt := ofBytesBE_lt bs
      have hdiv : (b.toNat * 256 ^ bs.length + ofBytesBE bs) / 256 ^ bs.length = b.toNat := by
        rw [Nat.add_comm, Nat.add_mul_div_right _ _ (Nat.pow_pos (by decide)), Nat.div_eq_of_lt hlt,
          Nat.zero_add]
      have htail : bytesBE bs.length (b.toNat * 256 ^ bs.length + ofBytesBE bs) = bs := by
        rw [Nat.add_comm, bytesBE_add_mul, ih]
      simp only [List.length_cons, bytesBE, ofBytesBE, hdiv, htail, UInt8.ofNat_toNat]

/-- A number of `j + k` bytes: its high part, then its low part. -/
theorem bytesBE_add (j k n : Nat) :
    bytesBE (j + k) n = bytesBE j (n / 256 ^ k) ++ bytesBE k n := by
  induction j with
  | zero => simp [bytesBE]
  | succ j ih =>
      rw [show j + 1 + k = j + k + 1 by omega]
      simp only [bytesBE, ih, List.cons_append]
      rw [Nat.div_div_eq_div_mul, ← Nat.pow_add, Nat.add_comm k j]

/-- A high part and a low part, put together. -/
theorem bytesBE_mul_add (j k a : Nat) {b : Nat} (h : b < 256 ^ k) :
    bytesBE (j + k) (a * 256 ^ k + b) = bytesBE j a ++ bytesBE k b := by
  have hpos : 0 < 256 ^ k := Nat.pow_pos (by decide)
  rw [bytesBE_add, Nat.add_comm, bytesBE_add_mul, Nat.add_mul_div_right _ _ hpos,
    Nat.div_eq_of_lt h, Nat.zero_add]

theorem bytesBE_mod (k n : Nat) : bytesBE k (n % 256 ^ k) = bytesBE k n := by
  conv_rhs => rw [← Nat.mod_add_div' n (256 ^ k), bytesBE_add_mul]

end Holdem.Support
