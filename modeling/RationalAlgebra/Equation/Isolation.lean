import RationalAlgebra.Failure
import RationalAlgebra.Normal.Form

/-!
# Isolating a variable

An equation is an expression that is to be zero. To isolate a variable in it, the terms without the
variable are moved to the other side, and both sides are brought to normal form, for as long as
terms move. The variable is isolated if every remaining term holds it exactly once, as a bare
variable, and what is left when it is divided out is a nonzero constant. Nothing else is attempted:
powers, products with other unknowns and quotients that mention the variable are beyond the method.

A round in which a term moves leaves fewer terms, for the kept ones are those of a normal form and
their sum has them as its addends again (`length_lt_of_moved`). So the rounds come to an end.
-/

namespace RationalAlgebra.Expr

/-- The addends of a sum, or the expression itself as the only one. -/
def addends : Expr → List Expr
  | sum es => es
  | e => [e]

mutual

/-- What is left when a variable is divided out of every addend, if each holds it exactly once, as
a bare variable of a product. -/
def divideByVariable? (name : String) : Expr → Option Expr
  | sum es => (divideAllByVariable? name es).map sum
  | product c vs fs =>
    if vs.count name = 1 ∧ fs.all (fun f => !f.mentions name) then
      some (product c (vs.filter (· ≠ name)) fs)
    else none
  | fraction _ _ => none

/-- What is left of each of some expressions when a variable is divided out. -/
def divideAllByVariable? (name : String) : List Expr → Option (List Expr)
  | [] => some []
  | e :: es =>
    match e.divideByVariable? name, divideAllByVariable? name es with
    | some q, some qs => some (q :: qs)
    | _, _ => none

end

/-- The nonzero constant that multiplies a variable in an expression which is otherwise that
variable alone. -/
def coefficientOf? (name : String) (e : Expr) : Option Rat :=
  match (e.divideByVariable? name).bind fun q => q.normalize.asConstant? with
  | some k => if k = 0 then none else some k
  | none => none

/-- The terms with the variable, added up. -/
def keptSide (name : String) (terms : List Expr) : Expr :=
  (sum (terms.filter fun e => e.mentions name)).normalize

/-- The other side once the terms without the variable have been moved to it. -/
def movedSide (name : String) (right : Expr) (terms : List Expr) : Expr :=
  (sum (right :: (terms.filter fun e => !e.mentions name).map (scaled (-1)))).normalize

/-- One side of an equation keeps these terms and the other side is `right`. Move the terms without
the variable over, and go on with the addends of the kept side for as long as terms move. -/
def isolateIn (name : String) (right : Expr) (terms : List Expr) : Except Failure Expr :=
  let kept := terms.filter fun e => e.mentions name
  let moved := terms.filter fun e => !e.mentions name
  if kept.isEmpty then .error (.variableNotFound name)
  else
    let right' := movedSide name right terms
    let left := keptSide name terms
    match left.coefficientOf? name with
    | some k => .ok (fraction right' (const k)).normalize
    | none =>
      match left with
      | sum next =>
        -- Where no term has moved, another round would find what this one has found. That there are
        -- fewer terms where one has is no further condition: it always holds, and is here to show
        -- that the recursion ends.
        if _h : ¬ moved.isEmpty ∧ next.length < terms.length then isolateIn name right' next
        else .error (.unsupportedIsolation name left)
      | _ => .error (.unsupportedIsolation name left)
termination_by terms.length

/-- The expression that a variable equals where the equation holds. -/
def isolate (equation : Expr) (name : String) : Except Failure Expr :=
  isolateIn name zero equation.normalize.addends

end RationalAlgebra.Expr
