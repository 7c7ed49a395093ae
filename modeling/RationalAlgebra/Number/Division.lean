import RationalAlgebra.Failure

/-!
# Division of rationals

Division that fails on a zero divisor, and the short form of a quotient of two integers whose
divisor is promised not to be zero.
-/

namespace RationalAlgebra.Number

/-- The quotient of two rationals; a zero divisor is a failure. -/
def divide (a b : Rat) : Except Failure Rat :=
  if b = 0 then .error .divisionByZero else .ok (a / b)

/-- The reciprocal of a rational; zero has none. -/
def reciprocal (a : Rat) : Except Failure Rat :=
  divide 1 a

/-- The quotient of two integers in lowest terms; a zero divisor is a failure. -/
def ofQuotient (numerator denominator : Int) : Except Failure Rat :=
  if denominator = 0 then .error .divisionByZero
  else .ok (Rat.divInt numerator denominator)

/-- A broken promise: this quotient of integers has a zero divisor. -/
structure ZeroDenominator where
  numerator : Int
  denominator : Int

/-- The report of a broken promise. -/
def ZeroDenominator.message (z : ZeroDenominator) : String :=
  "rational(" ++ toString z.numerator ++ ", " ++ toString z.denominator ++ "): zero denominator"

/-- The quotient of two integers whose divisor is promised not to be zero. -/
def ratio (p q : Int) : Except ZeroDenominator Rat :=
  match ofQuotient p q with
  | .ok value => .ok value
  | .error _ => .error ⟨p, q⟩

@[simp]
theorem divide_zero (a : Rat) : divide a 0 = .error .divisionByZero :=
  rfl

theorem divide_of_ne_zero (a : Rat) {b : Rat} (h : b ≠ 0) : divide a b = .ok (a / b) := by
  simp [divide, h]

end RationalAlgebra.Number
