import RationalAlgebra.NameMap
import RationalAlgebra.Expr.Basic

/-!
# Substitution

Variables are replaced by expressions, all at once: what is put in is not searched again. A replaced
variable of a product leaves the list of variables, and its replacement becomes the last factor. The
result says whether anything was replaced; the tree is not simplified.
-/

namespace RationalAlgebra

/-- Expressions bound to names. -/
abbrev Bindings := NameMap Expr

namespace Expr

/-- The replacements of those variables that are bound, in order. -/
def replacements (bindings : Bindings) (names : List String) : List Expr :=
  names.filterMap bindings.get?

/-- The variables that are not bound, in order. -/
def unbound (bindings : Bindings) (names : List String) : List String :=
  names.filter fun x => (bindings.get? x).isNone

mutual

/-- The expression with every bound variable replaced, or nothing if no variable is bound. -/
def replace? (bindings : Bindings) : Expr → Option Expr
  | sum addends => (replaceList? bindings addends).map sum
  | product c vs fs =>
    let found := replacements bindings vs
    match found.isEmpty, replaceList? bindings fs with
    | true, none => none
    | _, replaced => some (product c (unbound bindings vs) (replaced.getD fs ++ found))
  | fraction n d =>
    match n.replace? bindings, d.replace? bindings with
    | none, none => none
    | n', d' => some (fraction (n'.getD n) (d'.getD d))

/-- The expressions with every bound variable replaced, or nothing if no variable is bound. -/
def replaceList? (bindings : Bindings) : List Expr → Option (List Expr)
  | [] => none
  | e :: es =>
    match e.replace? bindings, replaceList? bindings es with
    | none, none => none
    | e', es' => some (e'.getD e :: es'.getD es)

end

/-- The expression with every bound variable replaced. -/
def replace (bindings : Bindings) (e : Expr) : Expr :=
  (e.replace? bindings).getD e

/-- The expression with one variable replaced. -/
def substitute (e : Expr) (name : String) (replacement : Expr) : Expr :=
  e.replace (NameMap.empty.insert name replacement)

end Expr

end RationalAlgebra
