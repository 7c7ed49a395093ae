import RationalAlgebra.Equation.Report
import RationalAlgebra.Hailstone.Basic
import RationalAlgebra.Linear.Elimination

/-!
# Crossing paths

Two paths cross in the plane of the first two coordinates if there is exactly one pair of times at
which the stones are at the same point of it. The times are found twice, by elimination over the
coefficients and by elimination over equations, and the two answers have to agree. A crossing counts
if neither time is past and its point lies in a square area, whose border belongs to it.
-/

namespace RationalAlgebra.Hailstone

/-- The times at which two stones reach the point where their paths cross. -/
def crossingTimes? (a b : Hailstone) : Option (Rat × Rat) :=
  let rows := [[a.velocity.x, -b.velocity.x], [a.velocity.y, -b.velocity.y]]
  let constants := [b.position.x - a.position.x, b.position.y - a.position.y]
  match Linear.solve rows constants with
  | .ok (some [t, s]) => some (t, s)
  | _ => none

/-- The equation that two moving coordinates are equal, the first at time `t` and the second at
time `s`. -/
def axisEquation (position velocity position' velocity' : Rat) : Expr :=
  .sum [.const position, .prod [.const velocity, .var "t"], .neg (.const position'),
    .neg (.prod [.const velocity', .var "s"])]

/-- The equations of a crossing. -/
def crossingEquations (a b : Hailstone) : List Expr :=
  [axisEquation a.position.x a.velocity.x b.position.x b.velocity.x,
    axisEquation a.position.y a.velocity.y b.position.y b.velocity.y]

/-- Whether the two eliminations agree on a pair of paths. -/
def agree (a b : Hailstone) : Bool :=
  match crossingTimes? a b, Equations.solve (crossingEquations a b) with
  | some (t, s), .ok solution => solution.get? "t" == some t && solution.get? "s" == some s
  | none, .error _ => true
  | _, _ => false

/-- The two eliminations do not agree on the paths with these places in the list, for which they
have found these answers. Where both find something they agree, so one of the two is missing. -/
structure Disagreement where
  first : Nat
  second : Nat
  times? : Option (Rat × Rat)
  solution? : Option Solution

/-- The two answers for a pair of paths, as a disagreement. -/
def disagreement (i : Nat) (a : Hailstone) (j : Nat) (b : Hailstone) : Disagreement where
  first := i
  second := j
  times? := crossingTimes? a b
  solution? := (Equations.solve (crossingEquations a b)).toOption

namespace Disagreement

/-- The paths on which there is a disagreement. -/
def message (d : Disagreement) : String :=
  "solvers disagree on paths " ++ toString d.first ++ " and " ++ toString d.second

/-- An answer as a report shows it. -/
def answerText {α : Type} (text : α → String) : Option α → String
  | none => "None"
  | some answer => "Some(" ++ text answer ++ ")"

/-- The report of a disagreement: the paths, and the answers about them. -/
def report (d : Disagreement) : String :=
  let pair := fun p : Rat × Rat => "(" ++ Number.parts p.1 ++ ", " ++ Number.parts p.2 ++ ")"
  let times := answerText pair d.times?
  d.message ++ ": " ++ times ++ " vs " ++ answerText Solution.parts d.solution?

end Disagreement

/-- Whether two paths cross at times that are not past and inside an area. -/
def crossesWithin (low high : Rat) (a b : Hailstone) : Bool :=
  match crossingTimes? a b with
  | none => false
  | some (t, s) =>
    let p := a.placeAt t
    decide (0 ≤ t ∧ 0 ≤ s ∧ low ≤ p.x ∧ p.x ≤ high ∧ low ≤ p.y ∧ p.y ≤ high)

/-- Count the crossings of one path with those that follow it. -/
def countWith (low high : Rat) (i : Nat) (a : Hailstone) (j : Nat) :
    List Hailstone → Except Disagreement Nat
  | [] => .ok 0
  | b :: rest =>
    if agree a b then
      match countWith low high i a (j + 1) rest with
      | .error d => .error d
      | .ok n => .ok ((if crossesWithin low high a b then 1 else 0) + n)
    else .error (disagreement i a j b)

/-- Count the crossings among the paths from the place `i` on. -/
def countFrom (low high : Rat) (i : Nat) : List Hailstone → Except Disagreement Nat
  | [] => .ok 0
  | a :: rest =>
    match countWith low high i a (i + 1) rest with
    | .error d => .error d
    | .ok n =>
      match countFrom low high (i + 1) rest with
      | .error d => .error d
      | .ok m => .ok (n + m)

/-- The number of pairs of paths that cross inside an area at times that are not past. -/
def countCrossings (stones : List Hailstone) (low high : Rat) : Except Disagreement Nat :=
  countFrom low high 0 stones

end RationalAlgebra.Hailstone
