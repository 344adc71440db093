import Mathlib.Algebra.Order.Field.Power
import Mathlib.Algebra.Order.Floor.Ring
import Mathlib.Data.Rat.Floor
import Mathlib.Data.Nat.Log
import Mathlib.Tactic.Linarith
import Mathlib.Tactic.Positivity
import Mathlib.Tactic.Ring
import Mathlib.Tactic.FieldSimp

/-! Rounding of rationals to a binary significand of fixed width, to nearest
with ties to even, and with an unbounded exponent. -/
namespace BinaryRounding

def halfEven (y : ℚ) : ℤ :=
  let f := ⌊y⌋
  if y - f < 1 / 2 then f
  else if 1 / 2 < y - f then f + 1
  else if f % 2 = 0 then f
  else f + 1

def exponent (x : ℚ) : ℤ :=
  let k : ℤ := (x.num.natAbs.log2 : ℤ) - (x.den.log2 : ℤ)
  if (2 : ℚ) ^ k ≤ |x| then k else k - 1

def ulp (p : ℕ) (x : ℚ) : ℚ := 2 ^ (exponent x - p + 1)

def roundTo (p : ℕ) (x : ℚ) : ℚ := if x = 0 then 0 else halfEven (x / ulp p x) * ulp p x

def trunc (x : ℚ) : ℤ := if 0 ≤ x then ⌊x⌋ else ⌈x⌉

@[simp] theorem roundTo_zero (p : ℕ) : roundTo p 0 = 0 := if_pos rfl

end BinaryRounding
