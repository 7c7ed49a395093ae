import RationalAlgebra.Normal.Form

/-!
# Normalization by rewriting

The same normal forms, found by rules that start over. A rule normalizes the parts of its
expression; where the results do not yet make a normal form it builds a new expression out of them
and normalizes that. The new expression is no part of the old one and may well be larger: a product
of sums becomes a sum of products in which all other factors are repeated.

The rules are written with the recursive call left open, in `rewrite`. In `rewriteWithin` calls may
be nested to a certain depth, and whatever would need a deeper call has no result.
-/

namespace RationalAlgebra.Expr

/-- A product in which nothing is left to do. A single factor with the constant one stands for
itself. -/
def collapse (c : Rat) (vs : List String) (fs : List Expr) : Expr :=
  match vs, fs with
  | [], [f] => if c = 1 then f else product c [] [f]
  | vs, fs => product c vs fs

/-- The addends of a sum, each multiplied by the same product and the same further sums. -/
def distribute (p : Factors) (sums : List (List Expr)) (addends : List Expr) : Expr :=
  sum (addends.map fun e => product p.coefficient p.names (p.quotients ++ sums.map sum ++ [e]))

/-- The numerator and the denominator of a quotient without their common variables, as
`cancelCommon?` finds them, but with the numerator as it was apart from the variables. -/
def withoutCommon? : Expr → Expr → Option (Expr × Expr)
  | product c vs fs, d =>
    match Factors.pureVariables? d with
    | none => none
    | some names =>
      let left := Factors.cancel vs names
      if left.1.length < vs.length then some (product c left.1 fs, product 1 left.2 []) else none
  | _, _ => none

section Rules

variable (again : Expr → Option Expr)

/-- Normalize the addends and collect like terms. -/
def rewriteSum (addends : List Expr) : Option Expr :=
  (addends.mapM again).map fun es => (Combination.ofExprs es).toExpr

/-- The product of some factors and some sums. The first sum is multiplied out; without a sum,
variables are cancelled against quotients. Either makes an expression that is normalized again. -/
def rewriteFactors (p : Factors) (sums : List (List Expr)) : Option Expr :=
  if p.coefficient = 0 then some zero
  else
    match sums with
    | addends :: sums => again (distribute p sums addends)
    | [] =>
      if p.cancels = true then
        let left := Factors.cancelQuotients p.names p.quotients
        again (product p.coefficient left.1 left.2)
      else
        let q := p.ordered
        some (collapse q.coefficient q.names q.quotients)

/-- Normalize the factors and multiply them, unless the constant is zero. -/
def rewriteProduct (c : Rat) (vs : List String) (fs : List Expr) : Option Expr :=
  if c = 0 then some zero
  else
    (fs.mapM again).bind fun es =>
      let parts := Factors.gather ⟨c, vs, []⟩ es
      rewriteFactors again parts.1 parts.2

/-- The quotient of a numerator and a denominator that are both normal. Every rule but the first
two and the last makes an expression that is normalized again. -/
def rewriteQuotient (n d : Expr) : Option Expr :=
  if n.isZero then some zero
  else
    match d.asConstant? with
    | some k => if k = 0 then some (fraction n d) else again (n.scaled k⁻¹)
    | none =>
      match n, d with
      | sum addends, d => again (sum (addends.map fun e => fraction e d))
      | fraction a b, d => again (fraction a (prod [b, d]))
      | n, fraction a b => again (fraction (prod [n, b]) a)
      | n, d =>
        match withoutCommon? n d with
        | some p => again (fraction p.1 p.2)
        | none =>
          if n.split.1 = 1 ∧ d.split.1 = 1 then some (fraction n.split.2 d.split.2)
          else if d.split.1 = 0 then some (fraction n.split.2 d.split.2)
          else again ((fraction n.split.2 d.split.2).scaled (n.split.1 / d.split.1))

/-- One call: the rule for the kind of the expression. -/
def rewrite : Expr → Option Expr
  | sum addends => rewriteSum again addends
  | product c vs fs => rewriteProduct again c vs fs
  | fraction n d => (again n).bind fun n' => (again d).bind fun d' => rewriteQuotient again n' d'

end Rules

/-- Normalization with calls nested at most so deep. -/
def rewriteWithin : Nat → Expr → Option Expr
  | 0, _ => none
  | depth + 1, e => rewrite (rewriteWithin depth) e

end RationalAlgebra.Expr
