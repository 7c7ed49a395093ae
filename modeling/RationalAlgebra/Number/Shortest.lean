import RationalAlgebra.Number.Double

/-!
# Shortest decimals

A number in double precision is written with the fewest digits that read back as the same number,
and of those with the nearest; of two equally near the larger is taken. The notation is positional,
however many zeros it takes.
-/

namespace RationalAlgebra.Number

/-- A decimal: an integer times a power of ten. -/
structure Decimal where
  digits : Nat
  exponent : Int

/-- A power of ten. -/
def tenPow (k : Int) : Rat :=
  if 0 ≤ k then (Nat.pow 10 k.toNat : Rat) else 1 / (Nat.pow 10 (-k).toNat : Rat)

/-- The value of a decimal. -/
def Decimal.value (d : Decimal) : Rat :=
  d.digits * tenPow d.exponent

/-- The number of decimal digits before the point of a positive rational; zero or less counts the
zeros behind the point. -/
def decimalPlaces (q : Rat) : Int :=
  if 1 ≤ q then (Nat.toDigits 10 (q.num.toNat / q.den)).length
  else 1 - ((Nat.toDigits 10 ((q.den - 1) / q.num.toNat)).length : Int)

/-- The reals that read as a given number: those between two bounds, or on them if `closed`. -/
structure Rounding where
  lower : Rat
  upper : Rat
  closed : Bool

/-- Whether a rational lies in a range. -/
def Rounding.contains (r : Rounding) (q : Rat) : Bool :=
  if r.closed then decide (r.lower ≤ q ∧ q ≤ r.upper) else decide (r.lower < q ∧ q < r.upper)

/-- The reals that read as a positive number in double precision. Below a power of two the neighbour
is nearer than above it. -/
def Rounding.ofDouble (m : Nat) (e : Int) : Rounding :=
  let value : Rat := m * twoPow e
  let half := twoPow (e - 1)
  let isPower := m = Nat.pow 2 (Double.precision - 1) ∧ Double.minExponent < e
  ⟨value - (if isPower then half / 2 else half), value + half, m % 2 = 0⟩

/-- The nearer to `q` of its two neighbours with the given last place, among those in range. -/
def nearestAt (q : Rat) (range : Rounding) (place : Int) : Option Decimal :=
  let unit := tenPow place
  let below := (q / unit).floor.toNat
  let down : Decimal := ⟨below, place⟩
  let up : Decimal := ⟨below + 1, place⟩
  -- Of two candidates in the range the nearer is taken, and the upper one in the middle.
  match range.contains down.value, range.contains up.value with
  | true, true => if up.value - q ≤ q - down.value then some up else some down
  | true, false => some down
  | false, true => some up
  | false, false => none

/-- The first decimal in range, for more and more digits. -/
def search (q : Rat) (range : Rounding) (place : Int) : Nat → Option Decimal
  | 0 => none
  | digits + 1 =>
    match nearestAt q range place with
    | some d => some d
    | none => search q range (place - 1) digits

/-- The number of digits that always suffice in double precision. -/
def enoughDigits : Nat := 17

/-- The shortest decimal that reads as a positive number in double precision. -/
def shortest (m : Nat) (e : Int) : Decimal :=
  let q : Rat := m * twoPow e
  let place := decimalPlaces q - 1
  (search q (.ofDouble m e) place enoughDigits).getD ⟨m * Nat.pow 2 e.toNat, 0⟩

/-- The positional text of a decimal, without zeros at the end of its fraction. -/
def Decimal.text (d : Decimal) : String :=
  let digits := Nat.toDigits 10 d.digits
  if 0 ≤ d.exponent then String.ofList (digits ++ List.replicate d.exponent.toNat '0')
  else
    let places := (-d.exponent).toNat
    -- Zeros in front, so that a digit stands before the point.
    let padded := List.replicate (places + 1 - digits.length) '0' ++ digits
    let whole := padded.take (padded.length - places)
    let fraction := padded.drop (padded.length - places)
    -- The digits behind the point without their last zeros.
    let kept := (fraction.reverse.dropWhile (· = '0')).reverse
    String.ofList (if kept.isEmpty then whole else whole ++ '.' :: kept)

/-- The text of a number in double precision. -/
def Double.text : Double → String
  | finite negative m e =>
    (if negative then "-" else "") ++ (if m = 0 then "0" else (shortest m e).text)
  | infinite negative => if negative then "-inf" else "inf"

end RationalAlgebra.Number
