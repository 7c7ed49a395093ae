import RationalAlgebra.Equation.Elimination
import RationalAlgebra.Number.Shortest

/-!
# Solutions as text

A solution is reported line by line in the order of its names. A value that is not an integer is
followed by its approximation in double precision. In the report of a fault a solution stands on one
line, as a map from names to values.
-/

namespace RationalAlgebra

/-- The line for one variable. -/
def valueLine (name : String) (value : Rat) : String :=
  let line := name ++ " = " ++ Number.text value
  if Number.isInteger value then line
  else line ++ " (~" ++ (Number.Double.ofRat value).text ++ ")"

/-- The lines of a solution, in the order of the names. -/
def Solution.lines (solution : Solution) : List String :=
  solution.entries.map fun entry => valueLine entry.1 entry.2

/-- A solution as a map, in the order of the names. -/
def Solution.parts (solution : Solution) : String :=
  let shown := solution.entries.map fun entry =>
    Text.quoted entry.1.toList ++ ": " ++ Number.parts entry.2
  "\x7b" ++ ", ".intercalate shown ++ "\x7d"

end RationalAlgebra
