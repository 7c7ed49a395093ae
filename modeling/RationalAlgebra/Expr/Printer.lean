import RationalAlgebra.Expr.Basic
import RationalAlgebra.Number.Text

/-!
# The text of an expression

Sums are written with spaced signs, products with stars, and quotients with a spaced slash. A
product with a negative constant contributes its sign to the sum around it. An operand of a product
or of a quotient stands in brackets unless it is a natural number or a single variable.
-/

namespace RationalAlgebra.Expr

/-- Whether an expression needs no brackets as an operand: a natural number, or one variable. -/
def isAtomic : Expr → Bool
  | product c [] [] => Number.isInteger c && decide (0 ≤ c)
  | product c [_] [] => decide (c = 1)
  | _ => false

/-- The sign before an addend, by its place in the sum. -/
def signText (isFirst negative : Bool) : String :=
  match isFirst, negative with
  | true, true => "-"
  | true, false => ""
  | false, true => " - "
  | false, false => " + "

/-- A product written from its constant and the texts of its variables and factors. -/
def productText (c : Rat) (parts : List String) : String :=
  if parts.isEmpty then Number.text c
  else
    let body := "*".intercalate parts
    if c = 1 then body
    else if c = -1 then "-" ++ body
    else Number.text c ++ "*" ++ body

/-- The text of an operand, in brackets unless the operand is atomic. -/
def bracketed (operand : Expr) (text : String) : String :=
  if operand.isAtomic then text else "(" ++ text ++ ")"

mutual

/-- The text of an expression. -/
def text : Expr → String
  | sum addends => sumText true addends
  | product c vs fs => productText c (vs ++ operandTexts fs)
  | fraction n d => bracketed n n.text ++ " / " ++ bracketed d d.text

/-- The texts of the addends of a sum, each after its sign. -/
def sumText (isFirst : Bool) : List Expr → String
  | [] => ""
  | product c vs fs :: rest =>
    let negative := decide (c < 0)
    signText isFirst negative ++ productText (if negative then -c else c) (vs ++ operandTexts fs) ++
      sumText false rest
  | e :: rest => signText isFirst false ++ e.text ++ sumText false rest

/-- The texts of some operands. -/
def operandTexts : List Expr → List String
  | [] => []
  | e :: es => bracketed e e.text :: operandTexts es

end

end RationalAlgebra.Expr
