/-!
# The text of a rational

A rational is written in lowest terms with a positive denominator, and as a bare integer when the
denominator is one. Reports of faults name its two parts instead.
-/

namespace RationalAlgebra.Number

/-- Whether a rational is an integer. -/
def isInteger (q : Rat) : Bool :=
  q.den == 1

/-- The text of a rational. -/
def text (q : Rat) : String :=
  if isInteger q then toString q.num else toString q.num ++ "/" ++ toString q.den

/-- The text of a rational that names its numerator and its denominator. -/
def parts (q : Rat) : String :=
  "Rational(Ratio \x7b numer: " ++ toString q.num ++ ", denom: " ++ toString q.den ++ " \x7d)"

end RationalAlgebra.Number
