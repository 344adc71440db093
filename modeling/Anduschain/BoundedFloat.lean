import Anduschain.BinaryRounding

/-! Floating-point numbers with a bounded exponent and two infinities, rounded to nearest
even. An operation without a value (zero times infinity, the difference of equal infinities)
has no result. -/
namespace BoundedFloat
open BinaryRounding

inductive Value where
  | finite (x : ℚ)
  | infinite (negative : Bool)
  deriving DecidableEq

/-- The width of the significand, and the exponents of a significand in `[1/2, 1)`. -/
structure Format where
  precision : ℕ
  minExp : ℤ
  maxExp : ℤ

namespace Value

def isInfinite : Value → Bool
  | .finite _ => false
  | .infinite _ => true

def isNegative : Value → Bool
  | .finite x => x < 0
  | .infinite negative => negative

/-- The integer part; that of an infinity is zero. -/
def toInt : Value → ℤ
  | .finite x => trunc x
  | .infinite _ => 0

end Value

namespace Format
variable (f : Format)

def normalize (x : ℚ) : Value :=
  if x = 0 ∨ exponent x + 1 < f.minExp then .finite 0
  else if f.maxExp < exponent (roundTo f.precision x) + 1 then .infinite (x < 0)
  else .finite (roundTo f.precision x)

def mul : Value → Value → Option Value
  | .finite x, .finite y => some (f.normalize (x * y))
  | .finite x, .infinite negative =>
    if x = 0 then none else some (.infinite (decide (x < 0) != negative))
  | .infinite negative, .finite y =>
    if y = 0 then none else some (.infinite (negative != decide (y < 0)))
  | .infinite m, .infinite n => some (.infinite (m != n))

def sub : Value → Value → Option Value
  | .finite x, .finite y => some (f.normalize (x - y))
  | .finite _, .infinite negative => some (.infinite !negative)
  | .infinite negative, .finite _ => some (.infinite negative)
  | .infinite m, .infinite n => if m = n then none else some (.infinite m)

def quo (x : Value) (divisor : ℕ) : Value :=
  match x with
  | .finite x => f.normalize (x / divisor)
  | .infinite negative => .infinite negative

variable {f}

theorem mul_eq_none {x y : Value} :
    f.mul x y = none ↔ x = .finite 0 ∧ y.isInfinite ∨ x.isInfinite ∧ y = .finite 0 := by
  cases x <;> cases y <;> simp [mul, Value.isInfinite]

theorem share_defined {amount rate : Value} :
    (∃ part rest, f.mul amount rate = some part ∧ f.sub amount part = some rest) ↔
      (amount.isInfinite → rate.isNegative) ∧ (amount = .finite 0 → ¬ rate.isInfinite) := by
  cases amount with
  | finite x =>
    cases rate with
    | finite y =>
      simp only [mul, Value.isInfinite, Option.some.injEq]
      refine ⟨fun _ => by simp, fun _ => ?_⟩
      cases part : f.normalize (x * y) with
      | finite z => exact ⟨_, _, rfl, rfl⟩
      | infinite negative => exact ⟨_, _, rfl, rfl⟩
    | infinite negative =>
      by_cases zero : x = 0
      · simp [mul, zero, Value.isInfinite]
      · simp [mul, sub, zero, Value.isInfinite]
  | infinite negative =>
    cases rate with
    | finite y =>
      by_cases zero : y = 0
      · simp [mul, zero, Value.isInfinite, Value.isNegative]
      · cases negative <;> simp [mul, sub, zero, Value.isInfinite, Value.isNegative]
    | infinite n =>
      cases negative <;> cases n <;> simp [mul, sub, Value.isInfinite, Value.isNegative]

end Format

end BoundedFloat
