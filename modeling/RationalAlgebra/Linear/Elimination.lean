/-!
# Square linear systems

Exact elimination. The first row with a nonzero leading coefficient is the pivot; it clears the
leading column of the other rows, which are solved by themselves, and its own equation then gives
the leading unknown. A system without a unique solution has no answer.
-/

namespace RationalAlgebra.Linear

/-- A linear equation: the coefficients of the unknowns, and the constant on the other side. -/
structure Row where
  coefficients : List Rat
  constant : Rat

/-- The sum of the products of two lists, place by place. -/
def dot : List Rat → List Rat → Rat
  | a :: as, x :: xs => a * x + dot as xs
  | _, _ => 0

namespace Row

/-- The coefficient of the first unknown. -/
def leading (r : Row) : Rat :=
  r.coefficients.headD 0

/-- The coefficients of the other unknowns. -/
def trailing (r : Row) : List Rat :=
  r.coefficients.tail

/-- The equation without its first unknown, of which a multiple of the pivot's has been taken. -/
def clear (pivot r : Row) : Row :=
  let factor := r.leading / pivot.leading
  ⟨List.zipWith (fun a p => a - p * factor) r.trailing pivot.trailing,
    r.constant - pivot.constant * factor⟩

/-- The first unknown, from the values of the others. -/
def solveLeading (pivot : Row) (rest : List Rat) : Rat :=
  (pivot.constant - dot pivot.trailing rest) / pivot.leading

end Row

/-- The first row with a nonzero leading coefficient, and the rows around it. -/
def findPivot? : List Row → Option (Row × List Row)
  | [] => none
  | r :: rows =>
    if r.leading ≠ 0 then some (r, rows)
    else (findPivot? rows).map fun found => (found.1, r :: found.2)

/-- Solve for a number of unknowns, one after another. -/
def eliminate : Nat → List Row → Option (List Rat)
  | 0, _ => some []
  | unknowns + 1, rows =>
    match findPivot? rows with
    | none => none
    | some (pivot, others) =>
      match eliminate unknowns (others.map pivot.clear) with
      | none => none
      | some rest => some (pivot.solveLeading rest :: rest)

/-- What is wrong with the shape of a system: it has no equation, not one row for each constant, or
a row that does not have this number of coefficients. -/
inductive ShapeError where
  | noEquations
  | rowCount
  | rowLength (expected : Nat)

/-- The report of a wrong shape. -/
def ShapeError.message : ShapeError → String
  | noEquations => "linear system needs at least one equation"
  | rowCount => "expected one coefficient row per constant"
  | rowLength expected => "expected " ++ toString expected ++ " coefficients in every row"

/-- The unique solution of a square linear system, if it has one. The system needs at least one
equation, a row for each constant, and as many coefficients in every row. -/
def solve (rows : List (List Rat)) (constants : List Rat) :
    Except ShapeError (Option (List Rat)) :=
  let n := constants.length
  if n = 0 then .error .noEquations
  else if rows.length ≠ n then .error .rowCount
  else if rows.any fun row => row.length ≠ n then .error (.rowLength n)
  else .ok (eliminate n (List.zipWith Row.mk rows constants))

end RationalAlgebra.Linear
