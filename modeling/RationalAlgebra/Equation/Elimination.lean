import RationalAlgebra.Equation.Isolation
import RationalAlgebra.Expr.Eval
import RationalAlgebra.Expr.Substitution

/-!
# Systems of equations

A system is a queue of expressions that are all to be zero. In each step the bindings found so far
are put into the first of the queue. If a variable is left in it, its first variable is isolated and
bound, the new binding is put into the earlier ones, and the equation goes to the back of the queue;
if none is left, the equation has to hold as it stands. When the queue is empty every bound variable
must have a value.

The number of steps is limited; a system that needs more is given up.
-/

namespace RationalAlgebra

/-- A value for each of some variables. -/
abbrev Solution := NameMap Rat

namespace Equations

/-- The number of steps after which a system is given up, unless another limit is asked for. -/
def defaultLimit : Nat := 4096

/-- An equation without variables holds if its value is zero. -/
def checkClosed (equation : Expr) : Except Failure Unit :=
  match equation.evalClosed with
  | .ok value => if value = 0 then .ok () else .error (.inconsistent equation)
  | .error _ => .error (.inconsistent equation)

/-- An expression with one variable replaced, in normal form if the variable occurred in it. -/
def eliminateVariable (name : String) (value e : Expr) : Expr :=
  match e.replace? (NameMap.empty.insert name value) with
  | none => e
  | some replaced => replaced.normalize

/-- Bind a variable, and replace it in all that was bound before. -/
def extend (bindings : Bindings) (name : String) (value : Expr) : Bindings :=
  (bindings.map (eliminateVariable name value)).insert name value

/-- The value of a bound expression, in which no variable may be left. -/
def valueOf (e : Expr) : Except Failure Rat :=
  match e.firstVariable? with
  | some free => .error (.underdetermined free)
  | none => e.evalClosed

/-- The values of all bound variables. -/
def resolve (bindings : Bindings) : Except Failure Solution :=
  bindings.traverse valueOf

/-- Eliminate variables until the queue is empty, in at most `steps` more steps. -/
def eliminate (limit : Nat) : Nat → List Expr → Bindings → Except Failure Solution
  | _, [], bindings => resolve bindings
  | 0, _ :: _, _ => .error (.stepLimit limit)
  | steps + 1, equation :: queue, bindings =>
    let current := (equation.replace bindings).normalize
    match current.firstVariable? with
    | none =>
      match checkClosed current with
      | .error e => .error e
      | .ok _ => eliminate limit steps queue bindings
    | some name =>
      -- The equation is kept: with its variable bound it has to turn out true.
      match current.isolate name with
      | .error e => .error e
      | .ok value => eliminate limit steps (queue ++ [current]) (extend bindings name value)

/-- Values at which all equations are zero, found in at most `limit` steps. -/
def solveWithin (limit : Nat) (equations : List Expr) : Except Failure Solution :=
  eliminate limit limit equations .empty

/-- Values at which all equations are zero. -/
def solve (equations : List Expr) : Except Failure Solution :=
  solveWithin defaultLimit equations

end Equations

end RationalAlgebra
