import RationalAlgebra.Failure

/-!
# Operators

The four operators and the expressions that they build from their operands. A sum and a product take
any number of operands, a quotient takes two and a negation one. Nothing is simplified.
-/

namespace RationalAlgebra

/-- The operators of the text form. -/
inductive Operator where
  | add
  | mul
  | div
  | neg
  deriving DecidableEq

namespace Operator

/-- The character of an operator. -/
def symbol : Operator → Char
  | add => '+'
  | mul => '*'
  | div => '/'
  | neg => '-'

/-- The operator of a character. -/
def ofSymbol (c : Char) : Except Failure Operator :=
  if c = '+' then .ok add
  else if c = '*' then .ok mul
  else if c = '/' then .ok div
  else if c = '-' then .ok neg
  else .error (.unknownOperator c)

@[simp]
theorem ofSymbol_symbol (op : Operator) : ofSymbol op.symbol = .ok op := by
  cases op <;> rfl

/-- The expression that an operator makes of its operands. -/
def build : Operator → List Expr → Except Failure Expr
  | add, operands => .ok (.sum operands)
  | mul, operands => .ok (.prod operands)
  | div, [n, d] => .ok (.fraction n d)
  | div, operands => .error (.arity div.symbol 2 operands.length)
  | neg, [e] => .ok e.neg
  | neg, operands => .error (.arity neg.symbol 1 operands.length)

end Operator

end RationalAlgebra
