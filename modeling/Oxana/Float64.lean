import Mathlib.Data.Rat.Floor
import Mathlib.Data.Int.Log

/-!
# Numbers in double precision

A finite `f64` is modelled by the rational number it stands for, and an operation
on doubles by the exact operation followed by `Float64.nearest`. The exponent is
not bounded: it is for numbers that are neither too large for a double nor so
small that a double would keep fewer than 53 bits of them.
-/

namespace Float64

/-- The integer nearest to a rational number; of the two that are equally near, the even one. -/
def halfEven (m : ℚ) : ℤ :=
  if m - ⌊m⌋ < 1 / 2 then ⌊m⌋
  else if m - ⌊m⌋ = 1 / 2 ∧ Even ⌊m⌋ then ⌊m⌋
  else ⌊m⌋ + 1

/-- The double nearest to a rational number: the number is scaled so that its integer part has
53 bits, rounded to an integer with ties to even, and scaled back. -/
def nearest (x : ℚ) : ℚ :=
  if x = 0 then 0
  else halfEven (x / 2 ^ (Int.log 2 |x| - 52)) * 2 ^ (Int.log 2 |x| - 52)

/-- A signed 64-bit integer cast to a double (`as f64`), which rounds beyond 53 bits. -/
def ofInt64 (n : Int64) : ℚ := nearest n.toInt

/-- The quotient of two doubles: the double that is nearest to the exact one. -/
def div (x y : ℚ) : ℚ := nearest (x / y)

/-- Zero divided by anything is zero, as nothing has to be rounded. -/
theorem div_of_zero (y : ℚ) : div 0 y = 0 := by
  rw [div, zero_div]
  exact if_pos rfl

end Float64
