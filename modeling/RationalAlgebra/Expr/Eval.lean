import RationalAlgebra.NameMap
import RationalAlgebra.Number.Division

/-!
# The value of an expression

An expression has a value under a valuation of its variables. Evaluation fails at a variable
without a value and at a zero denominator, whichever comes first from left to right.
-/

namespace RationalAlgebra

/-- A value for some of the names. -/
abbrev Valuation := String → Option Rat

namespace Expr

/-- The product of a rational and the values of some names. -/
def evalVariables (v : Valuation) (c : Rat) : List String → Except Failure Rat
  | [] => .ok c
  | x :: xs =>
    match v x with
    | none => .error (.unboundVariable x)
    | some value => evalVariables v (c * value) xs

mutual

/-- The value of an expression. Of a product the variables are read before the factors, and of a
quotient the numerator before the denominator. -/
def eval (v : Valuation) : Expr → Except Failure Rat
  | sum addends => evalSum v 0 addends
  | product c vs fs =>
    match evalVariables v c vs with
    | .error e => .error e
    | .ok value => evalProduct v value fs
  | fraction n d =>
    match n.eval v with
    | .error e => .error e
    | .ok a =>
      match d.eval v with
      | .error e => .error e
      | .ok b => Number.divide a b

/-- The values of some expressions added to a rational, from left to right. -/
def evalSum (v : Valuation) (total : Rat) : List Expr → Except Failure Rat
  | [] => .ok total
  | e :: es =>
    match e.eval v with
    | .error e => .error e
    | .ok value => evalSum v (total + value) es

/-- A rational times the values of some expressions, from left to right. -/
def evalProduct (v : Valuation) (total : Rat) : List Expr → Except Failure Rat
  | [] => .ok total
  | e :: es =>
    match e.eval v with
    | .error e => .error e
    | .ok value => evalProduct v (total * value) es

end

/-- The value of an expression without variables. -/
def evalClosed (e : Expr) : Except Failure Rat :=
  e.eval fun _ => none

end Expr

end RationalAlgebra
