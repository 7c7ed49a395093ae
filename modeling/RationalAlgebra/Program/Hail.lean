import RationalAlgebra.Hailstone.Crossing
import RationalAlgebra.Hailstone.Throw
import RationalAlgebra.Number.Text
import RationalAlgebra.Program.Output

/-!
# Crossings and a throw

The program counts the crossings of five hailstones inside an area and finds the throw that meets
the first three of them.
-/

namespace RationalAlgebra.Program

/-- The stones, one a line. -/
def stonesText : String :=
  "19, 13, 30 @ -2,  1, -2\n18, 19, 22 @ -1, -1, -2\n20, 25, 34 @ -2, -2, -4\n" ++
    "12, 31, 28 @ -1, -2, -1\n20, 19, 15 @  1, -5, -3"

/-- The bounds of the area. -/
def areaBounds : Rat × Rat :=
  (7, 27)

/-- The line that gives the number of crossings. -/
def crossingsLine (low high : Rat) (count : Nat) : String :=
  "crossings inside [" ++ Number.text low ++ ", " ++ Number.text high ++ "]: " ++ toString count

/-- The lines that describe a throw. -/
def throwLines (stone : Hailstone) : List String :=
  let p := stone.position
  ["rock thrown from " ++ ", ".intercalate (p.toList.map Number.text),
    "coordinate sum: " ++ Number.text (p.x + (p.y + p.z))]

/-- The program, run on a description of stones and the bounds of an area. A malformed description
and a throw that is not unique are answers like others; a disagreement of the solvers is a fault,
which ends the program with the exit code for that. -/
def hail (text : String) (low high : Rat) : Output :=
  match Hailstone.parse? text with
  | none => ⟨[], ["malformed hailstone input"], 0⟩
  | some stones =>
    match Hailstone.countCrossings stones low high with
    | .error disagreement => ⟨[], [disagreement.report], 101⟩
    | .ok count =>
      let first := crossingsLine low high count
      match Hailstone.throw? stones with
      | some stone => .success (first :: throwLines stone)
      | none => ⟨[first], ["no unique rock throw"], 0⟩

end RationalAlgebra.Program
