/-!
# Double precision

The number of the binary64 format that is nearest to a rational, in exact arithmetic. A half way
case goes to the even neighbour. Too large a number is infinite, and too small a number is zero;
either keeps its sign.
-/

namespace RationalAlgebra.Number

/-- A number of the binary64 format: its sign and, if it is finite, an integer times a power of two.
-/
inductive Double where
  | finite (negative : Bool) (mantissa : Nat) (exponent : Int)
  | infinite (negative : Bool)

/-- The integer nearest to a rational; a half goes to the even neighbour. -/
def roundHalfEven (q : Rat) : Int :=
  let below := q.floor
  let excess := q - below
  if excess < 1 / 2 then below
  else if 1 / 2 < excess then below + 1
  else if below % 2 = 0 then below
  else below + 1

/-- A power of two. -/
def twoPow (k : Int) : Rat :=
  if 0 ≤ k then (Nat.pow 2 k.toNat : Rat) else 1 / (Nat.pow 2 (-k).toNat : Rat)

/-- The exponent of the largest power of two that a positive rational reaches. -/
def floorLog2 (q : Rat) : Int :=
  let k : Int := (q.num.toNat.log2 : Int) - (q.den.log2 : Int)
  if twoPow k ≤ q then k else k - 1

namespace Double

/-- The number of bits of a mantissa. -/
def precision : Nat := 53

/-- The exponent of the smallest positive number. -/
def minExponent : Int := -1074

/-- The exponent of the smallest power of two that is too large. -/
def maxExponent : Int := 1024

/-- The nearest number to a rational. -/
def ofRat (q : Rat) : Double :=
  if q = 0 then finite false 0 0
  else
    let negative := decide (q < 0)
    let a := if negative then -q else q
    let lead := floorLog2 a - (precision - 1 : Nat)
    let e := if lead < minExponent then minExponent else lead
    let m := (roundHalfEven (a / twoPow e)).toNat
    if twoPow maxExponent ≤ m * twoPow e then infinite negative
    else if m = Nat.pow 2 precision then finite negative (Nat.pow 2 (precision - 1)) (e + 1)
    else finite negative m e

end Double

end RationalAlgebra.Number
