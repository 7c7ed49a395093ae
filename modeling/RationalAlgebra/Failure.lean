import RationalAlgebra.Expr.Printer
import RationalAlgebra.Text.Quoted

/-!
# Failures

Every way in which reading, building, evaluating or solving can fail, one constructor for each
cause, and the message that reports it. Two classes matter to a caller of the solver: a system that
has no unique solution, and a system that is beyond the method.
-/

namespace RationalAlgebra

/-- Why a text is not an expression or an equation. -/
inductive SyntaxError where
  /-- The text begins with something complete, and this remains. -/
  | trailing (rest : List Char)
  /-- Nothing complete begins the text, which is given without the space before it. -/
  | noOperand (text : List Char)
  deriving DecidableEq

/-- The causes of failure. -/
inductive Failure where
  /-- A text is not of the expected form. -/
  | malformed (error : SyntaxError)
  /-- A divisor is zero. -/
  | divisionByZero
  /-- A character stands for no operator. -/
  | unknownOperator (symbol : Char)
  /-- An operator got the wrong number of operands. -/
  | arity (symbol : Char) (expected found : Nat)
  /-- A variable has no value. -/
  | unboundVariable (name : String)
  /-- The variable to isolate does not occur. -/
  | variableNotFound (name : String)
  /-- A variable occurs in a way that the method does not handle, on this side of the equation. -/
  | unsupportedIsolation (name : String) (left : Expr)
  /-- An equation without variables does not hold. -/
  | inconsistent (left : Expr)
  /-- The equations leave this variable free. -/
  | underdetermined (name : String)
  /-- The elimination took more than this number of steps. -/
  | stepLimit (limit : Nat)

/-- The places of a text that a syntax error lists, and what was looked for at each. -/
def SyntaxError.places : SyntaxError → List (List Char × String)
  | trailing rest => [(rest, "Eof")]
  | noOperand text => [(text, "Alpha"), (text, "Alt")]

/-- A syntax error as a list of its places. -/
def SyntaxError.message (error : SyntaxError) : String :=
  let shown := error.places.map fun p => "(" ++ Text.quoted p.1 ++ ", Nom(" ++ p.2 ++ "))"
  "Error(VerboseError \x7b errors: [" ++ ", ".intercalate shown ++ "] \x7d)"

namespace Failure

/-- The report of a failure. -/
def message : Failure → String
  | malformed error => "parse error: " ++ error.message
  | divisionByZero => "division by zero"
  | unknownOperator symbol => "unknown operator: " ++ Text.quotedChar symbol
  | arity symbol expected found =>
    "operator " ++ Text.quotedChar symbol ++ " expects " ++ toString expected ++
      " operand(s), got " ++ toString found
  | unboundVariable name => "no value for variable " ++ name
  | variableNotFound name => "variable not found: " ++ name
  | unsupportedIsolation name left => "cannot isolate " ++ name ++ " in " ++ left.text
  | inconsistent left => "inconsistent equation: " ++ left.text ++ " == 0"
  | underdetermined name => "variable " ++ name ++ " is not determined by the system"
  | stepLimit limit => "gave up after " ++ toString limit ++ " elimination steps"

/-- The system provably has no unique solution. -/
def isUnsolvable : Failure → Bool
  | inconsistent _ => true
  | underdetermined _ => true
  | _ => false

/-- The system may have a solution, but the method cannot tell. -/
def isUnsupported : Failure → Bool
  | unsupportedIsolation _ _ => true
  | stepLimit _ => true
  | _ => false

end Failure

end RationalAlgebra
