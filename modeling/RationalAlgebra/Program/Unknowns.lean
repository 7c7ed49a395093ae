import RationalAlgebra.Equation.Isolation
import RationalAlgebra.Expr.Parser
import RationalAlgebra.Program.Output

/-!
# The unknowns of one equation

The program reads one equation, writes its normal form, and isolates each of its variables in turn.
-/

namespace RationalAlgebra.Program

/-- The equation that is taken when none is given. -/
def defaultEquation : String :=
  "2*x + 3*y = 7"

/-- The line for one unknown: what it equals, or why it cannot be isolated. -/
def unknownLine (equation : Expr) (name : String) : String :=
  match equation.isolate name with
  | .ok value => name ++ " = " ++ value.text
  | .error failure => name ++ ": " ++ failure.message

/-- The lines for an equation: its normal form, and one line for each variable of that, in the order
of the names. -/
def unknownLines (equation : Expr) : List String :=
  let canonical := equation.normalize
  (canonical.text ++ " = 0") :: canonical.variableNames.map (unknownLine equation)

/-- The program, run on a text or on none. A malformed text is an error with exit code one. -/
def unknowns (text? : Option String) : Output :=
  let text := text?.getD defaultEquation
  match Expr.parseEquation text with
  | .error failure => ⟨[], [text ++ ": " ++ failure.message], 1⟩
  | .ok equation => .success (unknownLines equation)

end RationalAlgebra.Program
