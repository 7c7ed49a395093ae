import RationalAlgebra.Normal.Quotient

/-!
# Normal forms

Every expression has a normal form. It is made from the normal forms of its parts: a sum collects
like terms, a product is multiplied out, and a quotient is reduced. A product whose constant is zero
is zero, whatever its factors are.
-/

namespace RationalAlgebra.Expr

mutual

/-- The normal form of an expression. -/
def normalize : Expr → Expr
  | sum addends => (Combination.ofExprs (normalizeList addends)).toExpr
  | product c vs fs => if c = 0 then zero else multiply c vs (normalizeList fs)
  | fraction n d => divide n.normalize d.normalize

/-- The normal forms of some expressions. -/
def normalizeList : List Expr → List Expr
  | [] => []
  | e :: es => e.normalize :: normalizeList es

end

end RationalAlgebra.Expr
