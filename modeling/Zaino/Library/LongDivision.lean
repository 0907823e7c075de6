import Mathlib.Tactic.Ring

/-!
# Binary long division

Long division brings the bits of the dividend down one at a time, from the highest. `Divides` says
what is on the paper once the bits from `i` on have been brought down: the remainder of the leading
bits, and their quotient in its final place. Bringing one more bit down doubles the remainder, and
one comparison and one subtraction make it a remainder again (`bring_down_above`,
`bring_down_below`).
-/

namespace Library

/-- The division of `n` by `d` once its bits from `i` on are brought down: `q` is the quotient so far,
in its place, and `r` the remainder. -/
structure Divides (n d i q r : Nat) : Prop where
  quotient : q = n / 2 ^ i / d * 2 ^ i
  remainder : r = n / 2 ^ i % d

namespace Divides

variable {n d i q r : Nat}

theorem start (small : n < 2 ^ i) : Divides n d i 0 0 := by
  constructor <;> simp [Nat.div_eq_of_lt small]

theorem finish (divides : Divides n d 0 q r) : q = n / d := by
  simpa using divides.quotient

theorem remainder_lt (divides : Divides n d i q r) (positive : 0 < d) : r < d := by
  rw [divides.remainder]
  exact Nat.mod_lt _ positive

theorem dvd_quotient (divides : Divides n d i q r) : 2 ^ i ∣ q := by
  rw [divides.quotient]
  exact Nat.dvd_mul_left _ _

/-- The bits from `i` on, by the ones above and the one at `i`. -/
theorem leading_bits (n i : Nat) : n / 2 ^ i = 2 * (n / 2 ^ (i + 1)) + n / 2 ^ i % 2 := by
  have halved : n / 2 ^ (i + 1) = n / 2 ^ i / 2 := by
    rw [Nat.pow_succ, Nat.div_div_eq_div_mul]
  rw [halved]
  omega

/-- The leading bits, split by the divisor. -/
theorem leading_split (divides : Divides n d (i + 1) q r) :
    n / 2 ^ i = d * (2 * (n / 2 ^ (i + 1) / d)) + (2 * r + n / 2 ^ i % 2) := by
  have split := Nat.div_add_mod (n / 2 ^ (i + 1)) d
  rw [← divides.remainder] at split
  calc n / 2 ^ i = 2 * (n / 2 ^ (i + 1)) + n / 2 ^ i % 2 := leading_bits n i
    _ = 2 * (d * (n / 2 ^ (i + 1) / d) + r) + n / 2 ^ i % 2 := by rw [split]
    _ = _ := by ring

/-- The next bit leaves a remainder that the divisor does not go into. -/
theorem bring_down_below (divides : Divides n d (i + 1) q r)
    (below : 2 * r + n / 2 ^ i % 2 < d) : Divides n d i q (2 * r + n / 2 ^ i % 2) := by
  have split := divides.leading_split
  have goes : n / 2 ^ i / d = 2 * (n / 2 ^ (i + 1) / d) := by
    rw [split, Nat.mul_add_div (Nat.zero_lt_of_lt below), Nat.div_eq_of_lt below, Nat.add_zero]
  constructor
  · rw [goes, divides.quotient, Nat.pow_succ]
    ring
  · nth_rewrite 2 [split]
    rw [Nat.mul_add_mod, Nat.mod_eq_of_lt below]

/-- The next bit leaves a remainder that the divisor goes into once. -/
theorem bring_down_above (divides : Divides n d (i + 1) q r) (positive : 0 < d)
    (above : d ≤ 2 * r + n / 2 ^ i % 2) :
    Divides n d i (q + 2 ^ i) (2 * r + n / 2 ^ i % 2 - d) := by
  have rest_lt : 2 * r + n / 2 ^ i % 2 - d < d := by
    have := divides.remainder_lt positive
    omega
  have split : n / 2 ^ i = d * (2 * (n / 2 ^ (i + 1) / d) + 1) + (2 * r + n / 2 ^ i % 2 - d) := by
    have split := divides.leading_split
    rw [Nat.mul_add, Nat.mul_one]
    omega
  have goes : n / 2 ^ i / d = 2 * (n / 2 ^ (i + 1) / d) + 1 := by
    nth_rewrite 1 [split]
    rw [Nat.mul_add_div positive, Nat.div_eq_of_lt rest_lt, Nat.add_zero]
  constructor
  · rw [goes, divides.quotient, Nat.pow_succ]
    ring
  · nth_rewrite 2 [split]
    rw [Nat.mul_add_mod, Nat.mod_eq_of_lt rest_lt]

end Divides

end Library
