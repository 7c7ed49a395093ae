import RationalAlgebra.Equation.Report
import RationalAlgebra.Expr.Parser
import RationalAlgebra.Program.Output

/-!
# A system of three equations

The program solves one system of three linear equations and writes its solution.
-/

namespace RationalAlgebra.Program

/-- The equations of the system. -/
def systemTexts : List String :=
  ["2*x + 3*y + 8*z = 7", "x - 4*y + 6*z = 1", "3*x-y-z=8"]

/-- Read equations; the first that is malformed is reported with its text. -/
def readEquations : List String → Except String (List Expr)
  | [] => .ok []
  | text :: texts =>
    match Expr.parseEquation text with
    | .error failure => .error (text ++ ": " ++ failure.message)
    | .ok equation =>
      match readEquations texts with
      | .error report => .error report
      | .ok equations => .ok (equation :: equations)

/-- Why a system has no solution to show. -/
def failureLine (failure : Failure) : String :=
  if failure.isUnsolvable then "no unique solution: " ++ failure.message
  else "could not solve: " ++ failure.message

/-- The program, run on a system of equations. -/
def elimination (texts : List String) : Output :=
  match readEquations texts with
  | .error report => ⟨[], [report], 0⟩
  | .ok equations =>
    match Equations.solve equations with
    | .ok solution => .success solution.lines
    | .error failure => ⟨[], [failureLine failure], 0⟩

end RationalAlgebra.Program
