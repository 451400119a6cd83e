import Mathlib.Algebra.Order.Ring.Int

/-!
# Signed numbers of 64 bits

What does not fit is reduced modulo the number of values, to the one in range.
-/

set_option autoImplicit false

namespace Nginx.OffT

/-- `off_t`, and any other signed number of 64 bits -/
def offT (z : ℤ) : ℤ := z.bmod (2^64)

def unsigned (z : ℤ) : ℕ := (z%2^64).toNat

theorem off_range (z : ℤ) : -2^63 ≤ offT z ∧ offT z < 2^63 := by
  rw [offT, Int.bmod]
  split_ifs <;> omega

theorem off_le {z : ℤ} (h : -2^63 ≤ z) : offT z ≤ z := by
  rw [offT, Int.bmod]
  split_ifs <;> omega

theorem off_eq {z : ℤ} (h : -2^63 ≤ z) (h' : z < 2^63) : offT z = z := by
  rw [offT, Int.bmod]
  split_ifs <;> omega

theorem off_mod (z : ℤ) : offT z%2^64 = z%2^64 := by
  rw [offT, Int.bmod]
  split_ifs <;> omega

theorem off_nonneg_iff (z : ℤ) : 0 ≤ offT z ↔ z%2^64 < 2^63 := by
  rw [offT, Int.bmod]
  split_ifs <;> omega

theorem off_off_add (a b : ℤ) : offT (offT a+b) = offT (a+b) := by
  rw [offT, offT, offT, Int.bmod_add_bmod]

theorem off_sub_off (a b : ℤ) : offT (a-offT b) = offT (a-b) := by
  rw [offT, offT, offT, Int.sub_bmod_bmod]

theorem off_mul_off (a b : ℤ) : offT (a*offT b) = offT (a*b) := by
  rw [offT, offT, offT, Int.mul_bmod_bmod]

theorem unsigned_lt (z : ℤ) : unsigned z < 2^64 := by
  rw [unsigned]
  omega

theorem unsigned_eq {z : ℤ} (h : 0 ≤ z) (h' : z < 2^64) : (unsigned z : ℤ) = z := by
  rw [unsigned]
  omega

end Nginx.OffT
