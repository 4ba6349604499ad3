import Mathlib.Data.Nat.Bitwise

/-!
# Bit Fields

Reading a field out of a number with masks and shifts, and putting one in with `|||`, as
arithmetic: what a linear arithmetic procedure can go on with.

## Main results

* `and_mask`: masking out a field.
* `shiftRight_and`: shifting a field down and masking it.
* `or_field`: a field put in below.
-/

namespace Fields

/-- Masking keeps the `w` bits from `k` on. -/
theorem and_mask (n k w : ℕ) :
    n &&& (2 ^ w - 1) * 2 ^ k = n / 2 ^ k % 2 ^ w * 2 ^ k := by
  apply Nat.eq_of_testBit_eq
  intro i
  simp only [Nat.testBit_and, Nat.testBit_mul_two_pow, Nat.testBit_two_pow_sub_one,
    Nat.testBit_mod_two_pow, Nat.testBit_div_two_pow]
  by_cases h : k ≤ i
  · have hi : i - k + k = i := by omega
    simp [h, hi, Bool.and_comm]
  · simp [h]

/-- Shifting and masking reads the `w` bits from `k` on. -/
theorem shiftRight_and (n k w : ℕ) : (n >>> k) &&& (2 ^ w - 1) = n / 2 ^ k % 2 ^ w := by
  rw [Nat.and_two_pow_sub_one_eq_mod, Nat.shiftRight_eq_div_pow]

/-- A field put in below the bits that are there. -/
theorem or_field {x y k : ℕ} (hx : 2 ^ k ∣ x) (hy : y < 2 ^ k) : x ||| y = x + y := by
  obtain ⟨q, rfl⟩ := hx
  exact (Nat.two_pow_add_eq_or_of_lt hy q).symm

end Fields
