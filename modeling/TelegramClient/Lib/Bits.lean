import Mathlib

/-! Masks and fields of bits as arithmetic. -/

namespace Bits

variable {n m a b : Nat}

/-- The upper bits of a number. -/
theorem and_upper (h : n < 2 ^ (a + b)) : n &&& ((2 ^ b - 1) * 2 ^ a) = n / 2 ^ a * 2 ^ a := by
  apply Nat.eq_of_testBit_eq
  intro i
  rw [Nat.testBit_and, Nat.testBit_mul_two_pow, Nat.testBit_mul_two_pow, Nat.testBit_div_two_pow,
    Nat.testBit_two_pow_sub_one]
  by_cases hle : a ≤ i
  · by_cases hlt : i < a + b
    · simp [hle, show i - a < b by omega]
    · have hbig : 2 ^ (a + b) ≤ 2 ^ i := Nat.pow_le_pow_right (by omega) (by omega)
      rw [Nat.sub_add_cancel hle, Nat.testBit_lt_two_pow (Nat.lt_of_lt_of_le h hbig)]
      simp
  · simp [hle]

/-- Numbers whose bits are in different places. -/
theorem mul_or (h : n < 2 ^ a) : m * 2 ^ a ||| n = m * 2 ^ a + n := by
  rw [Nat.mul_comm, Nat.two_pow_add_eq_or_of_lt h]

theorem mul_and (h : n < 2 ^ a) : m * 2 ^ a &&& n = 0 := by
  apply Nat.eq_of_testBit_eq
  intro i
  rw [Nat.testBit_and, Nat.testBit_mul_two_pow, Nat.zero_testBit]
  by_cases hle : a ≤ i
  · have hbig : 2 ^ a ≤ 2 ^ i := Nat.pow_le_pow_right (by omega) hle
    simp [Nat.testBit_lt_two_pow (Nat.lt_of_lt_of_le h hbig)]
  · simp [hle]

end Bits
