/-!
# Integers of 64 bits

A decimal integer is a string of ASCII digits with one sign before it or none. Only integers that
fit into 64 bits are read.
-/

namespace RationalAlgebra.Text

/-- The natural number that a nonempty string of digits denotes. -/
def natural? (text : List Char) : Option Nat :=
  if text.isEmpty || text.any (fun c => !c.isDigit) then none
  else some (Nat.ofDigitChars 10 text 0)

/-- The integer that a string of digits with an optional sign denotes. -/
def integer? : List Char → Option Int
  | '-' :: digits => (natural? digits).map fun n => -(n : Int)
  | '+' :: digits => (natural? digits).map fun n => (n : Int)
  | digits => (natural? digits).map fun n => (n : Int)

/-- The number of integers of 64 bits that are not negative. -/
def int64Bound : Int := 9223372036854775808

/-- Whether an integer fits into 64 bits. -/
def fitsInt64 (n : Int) : Bool :=
  decide (-int64Bound ≤ n ∧ n < int64Bound)

/-- The integer of at most 64 bits that a text denotes. -/
def int64? (text : List Char) : Option Int :=
  (integer? text).filter fitsInt64

end RationalAlgebra.Text
